import Wiring.Proofs.TypeExpr.Lowered

/-!
# Names in type expressions

Lowering an expression asks for the meaning of each name that stands in it without arguments, and
for each name with arguments that it is no alias.  It succeeds exactly if all these names allow it,
and on nothing else does its outcome depend.  So a name may be replaced by an expression that has
its meaning.
-/

namespace Wiring

/-- A name in an expression, with or without arguments. -/
inductive Mention where
  | bare (name : String)
  | applied (name : String)
  deriving DecidableEq

mutual

/-- The names in an expression, in the order in which they are written. -/
def TypeExpr.mentions : TypeExpr → List Mention
  | .named name [] => [.bare name]
  | .named name (first :: others) =>
    .applied name :: (first.mentions ++ TypeExpr.mentionsOfAll others)
  | .array element => element.mentions
  | .tuple items => TypeExpr.mentionsOfAll items
  | .shape fields => FieldExpr.mentionsOfAll fields
  | .union members => TypeExpr.mentionsOfAll members
  | .text _ => []
  | .number _ => []

def FieldExpr.mentions : FieldExpr → List Mention
  | .mk _ _ type => type.mentions

def TypeExpr.mentionsOfAll : List TypeExpr → List Mention
  | [] => []
  | expr :: exprs => expr.mentions ++ TypeExpr.mentionsOfAll exprs

def FieldExpr.mentionsOfAll : List FieldExpr → List Mention
  | [] => []
  | field :: fields => field.mentions ++ FieldExpr.mentionsOfAll fields

end

namespace Lowering

variable {α β : Type} {table later : TypeTable}

/-- Run in some table, the computation ends with the error. -/
def FailsWith (L : Lowering α) (error : Error) : Prop :=
  ∃ table later, L.run table = (.error error, later)

/-- Run in some table, the computation ends well. -/
def Succeeds (L : Lowering α) : Prop :=
  ∃ table a later, L.run table = (.ok a, later)

end Lowering

namespace Scope

open Lowering

variable {scope : Scope} {bare : String → Lowering TypeId}

/-- The name brings the lowering of an expression to its end with the error. -/
def Blames (scope : Scope) (bare : String → Lowering TypeId) (error : Error) : Mention → Prop
  | .bare name => (bare name).FailsWith error
  | .applied name =>
    (scope.alias? name).isSome = true ∧ error = .manifest (.aliasWithArguments name)

/-- The name lets the lowering of an expression go on. -/
def Allows (scope : Scope) (bare : String → Lowering TypeId) : Mention → Prop
  | .bare name => (bare name).Succeeds
  | .applied name => scope.alias? name = none

/-- The outcome is what the names say: one of them brought it to an end, or all of them let it go
on. -/
def AccountedFor {α : Type} (scope : Scope) (bare : String → Lowering TypeId)
    (mentions : List Mention) : Except Error α × TypeTable → Prop
  | (.error error, _) => ∃ mention ∈ mentions, scope.Blames bare error mention
  | (.ok _, _) => ∀ mention ∈ mentions, scope.Allows bare mention

section

variable {α β : Type} {mentions more : List Mention} {table : TypeTable}

theorem accountedFor_of_ok {outcome : Except Error α × TypeTable}
    (h : ∃ a later, outcome = (.ok a, later)) : AccountedFor scope bare [] outcome := by
  obtain ⟨a, later, rfl⟩ := h
  exact List.forall_mem_nil _

theorem accountedFor_cons {outcome : Except Error α × TypeTable} {mention : Mention}
    (hmention : scope.Allows bare mention) (h : AccountedFor scope bare mentions outcome) :
    AccountedFor scope bare (mention :: mentions) outcome := by
  obtain ⟨result, later⟩ := outcome
  cases result with
  | error error =>
      obtain ⟨other, hother, hblames⟩ := h
      exact ⟨other, List.mem_cons_of_mem _ hother, hblames⟩
  | ok a => exact List.forall_mem_cons.mpr ⟨hmention, h⟩

theorem accountedFor_bind {L : Lowering α} {K : α → Lowering β}
    (hfirst : AccountedFor scope bare mentions (L.run table))
    (hrest : ∀ a later, AccountedFor scope bare more ((K a).run later)) :
    AccountedFor scope bare (mentions ++ more) ((L >>= K).run table) := by
  cases hrun : L.run table with
  | mk result later =>
      rw [hrun] at hfirst
      cases result with
      | error error =>
          rw [run_bind_of_error hrun]
          obtain ⟨mention, hmention, hblames⟩ := hfirst
          exact ⟨mention, List.mem_append_left _ hmention, hblames⟩
      | ok a =>
          rw [run_bind_of_ok hrun]
          have hsecond := hrest a later
          cases hfinal : (K a).run later with
          | mk result last =>
              rw [hfinal] at hsecond
              cases result with
              | error error =>
                  obtain ⟨mention, hmention, hblames⟩ := hsecond
                  exact ⟨mention, List.mem_append_right _ hmention, hblames⟩
              | ok b => exact List.forall_mem_append.mpr ⟨hfirst, hsecond⟩

/-- Nothing that follows asks for a name. -/
theorem accountedFor_bind_of_ok {L : Lowering α} {K : α → Lowering β}
    (hfirst : AccountedFor scope bare mentions (L.run table))
    (hrest : ∀ a later, ∃ b last, (K a).run later = (.ok b, last)) :
    AccountedFor scope bare mentions ((L >>= K).run table) := by
  have h := accountedFor_bind hfirst fun a later ↦ accountedFor_of_ok (hrest a later)
  rwa [List.append_nil] at h

end

theorem run_intern_eq_ok (descriptor : Descriptor) (table : TypeTable) :
    ∃ id later, (intern descriptor).run table = (.ok id, later) :=
  ⟨_, _, rfl⟩

theorem run_pure_ok {α : Type} (a : α) (table : TypeTable) :
    ∃ b later, (pure a : Lowering α).run table = (.ok b, later) :=
  ⟨a, table, rfl⟩

mutual

theorem accountedFor_lowerWith (expr : TypeExpr) (table : TypeTable) :
    AccountedFor scope bare expr.mentions ((scope.lowerWith bare expr).run table) := by
  cases expr with
  | named name arguments =>
      cases arguments with
      | nil =>
          rw [lowerWith, TypeExpr.mentions]
          cases hrun : (bare name).run table with
          | mk result later =>
              cases result with
              | error error => exact ⟨.bare name, List.mem_cons_self, table, later, hrun⟩
              | ok id => exact List.forall_mem_singleton.mpr ⟨table, id, later, hrun⟩
      | cons first others =>
          rw [lowerWith, TypeExpr.mentions]
          split
          · next halias => exact ⟨.applied name, List.mem_cons_self, halias, rfl⟩
          · next halias =>
              refine accountedFor_cons (Option.not_isSome_iff_eq_none.mp halias) ?_
              exact accountedFor_bind (accountedFor_lowerWith first table) fun _ later ↦
                accountedFor_bind_of_ok (accountedFor_lowerAllWith others later) fun _ ↦
                  run_intern_eq_ok _
  | array element =>
      rw [lowerWith, TypeExpr.mentions]
      exact accountedFor_bind_of_ok (accountedFor_lowerWith element table) fun _ ↦
        run_intern_eq_ok _
  | tuple items =>
      rw [lowerWith, TypeExpr.mentions]
      exact accountedFor_bind_of_ok (accountedFor_lowerAllWith items table) fun _ ↦
        run_intern_eq_ok _
  | shape fields =>
      rw [lowerWith, TypeExpr.mentions]
      exact accountedFor_bind_of_ok (accountedFor_lowerFieldsWith fields table) fun _ ↦
        run_intern_eq_ok _
  | union members =>
      rw [lowerWith, TypeExpr.mentions]
      exact accountedFor_bind_of_ok (accountedFor_lowerAllWith members table) fun _ ↦
        run_intern_eq_ok _
  | text value => exact accountedFor_of_ok (run_intern_eq_ok _ table)
  | number spelling => exact accountedFor_of_ok (run_intern_eq_ok _ table)

theorem accountedFor_lowerAllWith (exprs : List TypeExpr) (table : TypeTable) :
    AccountedFor scope bare (TypeExpr.mentionsOfAll exprs)
      ((scope.lowerAllWith bare exprs).run table) := by
  cases exprs with
  | nil => exact accountedFor_of_ok (run_pure_ok [] table)
  | cons expr exprs =>
      rw [lowerAllWith, TypeExpr.mentionsOfAll]
      exact accountedFor_bind (accountedFor_lowerWith expr table) fun _ later ↦
        accountedFor_bind_of_ok (accountedFor_lowerAllWith exprs later) fun _ ↦ run_pure_ok _

theorem accountedFor_lowerFieldWith (field : FieldExpr) (table : TypeTable) :
    AccountedFor scope bare field.mentions ((scope.lowerFieldWith bare field).run table) := by
  obtain ⟨name, optional, expr⟩ := field
  rw [lowerFieldWith, FieldExpr.mentions]
  refine accountedFor_bind_of_ok (accountedFor_lowerWith expr table) fun type later ↦ ?_
  cases optional with
  | false => exact run_pure_ok _ later
  | true => exact ⟨_, _, rfl⟩

theorem accountedFor_lowerFieldsWith (fields : List FieldExpr) (table : TypeTable) :
    AccountedFor scope bare (FieldExpr.mentionsOfAll fields)
      ((scope.lowerFieldsWith bare fields).run table) := by
  cases fields with
  | nil => exact accountedFor_of_ok (run_pure_ok [] table)
  | cons field fields =>
      rw [lowerFieldsWith, FieldExpr.mentionsOfAll]
      exact accountedFor_bind (accountedFor_lowerFieldWith field table) fun _ later ↦
        accountedFor_bind_of_ok (accountedFor_lowerFieldsWith fields later) fun _ ↦ run_pure_ok _

end

theorem exists_blamed {expr : TypeExpr} {error : Error}
    (h : (scope.lowerWith bare expr).FailsWith error) :
    ∃ mention ∈ expr.mentions, scope.Blames bare error mention := by
  obtain ⟨table, later, hrun⟩ := h
  have houtcome : AccountedFor scope bare expr.mentions _ := accountedFor_lowerWith expr table
  rwa [hrun] at houtcome

theorem allows_of_succeeds {expr : TypeExpr} (h : (scope.lowerWith bare expr).Succeeds) :
    ∀ mention ∈ expr.mentions, scope.Allows bare mention := by
  obtain ⟨table, id, later, hrun⟩ := h
  have houtcome : AccountedFor scope bare expr.mentions _ := accountedFor_lowerWith expr table
  rwa [hrun] at houtcome

section

variable {other : Scope} {meaning : String → Lowering TypeId}

/-- The name is lowered alike in both scopes. -/
def LoweredAlike (scope other : Scope) (bare meaning : String → Lowering TypeId) : Mention → Prop
  | .bare name => bare name = meaning name
  | .applied name => (scope.alias? name).isSome = (other.alias? name).isSome

mutual

theorem lowerWith_congr (expr : TypeExpr)
    (h : ∀ mention ∈ expr.mentions, LoweredAlike scope other bare meaning mention) :
    scope.lowerWith bare expr = other.lowerWith meaning expr := by
  cases expr with
  | named name arguments =>
      cases arguments with
      | nil => exact h (.bare name) List.mem_cons_self
      | cons first others =>
          rw [TypeExpr.mentions] at h
          obtain ⟨happlied, hparts⟩ := List.forall_mem_cons.mp h
          obtain ⟨hfirst, hothers⟩ := List.forall_mem_append.mp hparts
          have halias : (scope.alias? name).isSome = (other.alias? name).isSome := happlied
          rw [lowerWith, lowerWith, halias, lowerWith_congr first hfirst,
            lowerAllWith_congr others hothers]
  | array element =>
      rw [lowerWith, lowerWith, lowerWith_congr element h]
  | tuple items =>
      rw [lowerWith, lowerWith, lowerAllWith_congr items h]
  | shape fields =>
      rw [lowerWith, lowerWith, lowerFieldsWith_congr fields h]
  | union members =>
      rw [lowerWith, lowerWith, lowerAllWith_congr members h]
  | text value => rfl
  | number spelling => rfl

theorem lowerAllWith_congr (exprs : List TypeExpr)
    (h : ∀ mention ∈ TypeExpr.mentionsOfAll exprs, LoweredAlike scope other bare meaning mention) :
    scope.lowerAllWith bare exprs = other.lowerAllWith meaning exprs := by
  cases exprs with
  | nil => rfl
  | cons expr exprs =>
      obtain ⟨hexpr, hexprs⟩ := List.forall_mem_append.mp h
      rw [lowerAllWith, lowerAllWith, lowerWith_congr expr hexpr, lowerAllWith_congr exprs hexprs]

theorem lowerFieldWith_congr (field : FieldExpr)
    (h : ∀ mention ∈ field.mentions, LoweredAlike scope other bare meaning mention) :
    scope.lowerFieldWith bare field = other.lowerFieldWith meaning field := by
  obtain ⟨name, optional, expr⟩ := field
  rw [lowerFieldWith, lowerFieldWith, lowerWith_congr expr h]

theorem lowerFieldsWith_congr (fields : List FieldExpr)
    (h : ∀ mention ∈ FieldExpr.mentionsOfAll fields,
      LoweredAlike scope other bare meaning mention) :
    scope.lowerFieldsWith bare fields = other.lowerFieldsWith meaning fields := by
  cases fields with
  | nil => rfl
  | cons field fields =>
      obtain ⟨hfield, hfields⟩ := List.forall_mem_append.mp h
      rw [lowerFieldsWith, lowerFieldsWith, lowerFieldWith_congr field hfield,
        lowerFieldsWith_congr fields hfields]

end

end

end Scope

/-! ## Replacing names -/

mutual

/-- The expression with the bare names replaced for which there is something else. -/
def TypeExpr.replace (instead : String → Option TypeExpr) : TypeExpr → TypeExpr
  | .named name [] => (instead name).getD (.named name [])
  | .named name (first :: others) =>
    .named name (first.replace instead :: TypeExpr.replaceAll instead others)
  | .array element => .array (element.replace instead)
  | .tuple items => .tuple (TypeExpr.replaceAll instead items)
  | .shape fields => .shape (FieldExpr.replaceAll instead fields)
  | .union members => .union (TypeExpr.replaceAll instead members)
  | .text value => .text value
  | .number spelling => .number spelling

def FieldExpr.replace (instead : String → Option TypeExpr) : FieldExpr → FieldExpr
  | .mk name optional type => .mk name optional (type.replace instead)

def TypeExpr.replaceAll (instead : String → Option TypeExpr) : List TypeExpr → List TypeExpr
  | [] => []
  | expr :: exprs => expr.replace instead :: TypeExpr.replaceAll instead exprs

def FieldExpr.replaceAll (instead : String → Option TypeExpr) : List FieldExpr → List FieldExpr
  | [] => []
  | field :: fields => field.replace instead :: FieldExpr.replaceAll instead fields

end

/-- What is mentioned instead of the name. -/
def Mention.replaced (instead : String → Option TypeExpr) : Mention → List Mention
  | .bare name => ((instead name).map TypeExpr.mentions).getD [.bare name]
  | .applied name => [.applied name]

mutual

theorem TypeExpr.mentions_replace (instead : String → Option TypeExpr) (expr : TypeExpr) :
    (expr.replace instead).mentions = expr.mentions.flatMap (Mention.replaced instead) := by
  cases expr with
  | named name arguments =>
      cases arguments with
      | nil =>
          rw [TypeExpr.replace, TypeExpr.mentions, List.flatMap_singleton, Mention.replaced]
          cases instead name <;> rfl
      | cons first others =>
          rw [TypeExpr.replace, TypeExpr.mentions, TypeExpr.mentions,
            TypeExpr.mentions_replace instead first, TypeExpr.mentionsOfAll_replaceAll]
          simp [Mention.replaced]
  | array element => exact TypeExpr.mentions_replace instead element
  | tuple items => exact TypeExpr.mentionsOfAll_replaceAll instead items
  | shape fields => exact FieldExpr.mentionsOfAll_replaceAll instead fields
  | union members => exact TypeExpr.mentionsOfAll_replaceAll instead members
  | text value => rfl
  | number spelling => rfl

theorem TypeExpr.mentionsOfAll_replaceAll (instead : String → Option TypeExpr)
    (exprs : List TypeExpr) : TypeExpr.mentionsOfAll (TypeExpr.replaceAll instead exprs) =
      (TypeExpr.mentionsOfAll exprs).flatMap (Mention.replaced instead) := by
  cases exprs with
  | nil => rfl
  | cons expr exprs =>
      rw [TypeExpr.replaceAll, TypeExpr.mentionsOfAll, TypeExpr.mentionsOfAll,
        TypeExpr.mentions_replace instead expr, TypeExpr.mentionsOfAll_replaceAll instead exprs,
        List.flatMap_append]

theorem FieldExpr.mentions_replace (instead : String → Option TypeExpr) (field : FieldExpr) :
    (field.replace instead).mentions = field.mentions.flatMap (Mention.replaced instead) := by
  obtain ⟨name, optional, expr⟩ := field
  exact TypeExpr.mentions_replace instead expr

theorem FieldExpr.mentionsOfAll_replaceAll (instead : String → Option TypeExpr)
    (fields : List FieldExpr) : FieldExpr.mentionsOfAll (FieldExpr.replaceAll instead fields) =
      (FieldExpr.mentionsOfAll fields).flatMap (Mention.replaced instead) := by
  cases fields with
  | nil => rfl
  | cons field fields =>
      rw [FieldExpr.replaceAll, FieldExpr.mentionsOfAll, FieldExpr.mentionsOfAll,
        FieldExpr.mentions_replace instead field,
        FieldExpr.mentionsOfAll_replaceAll instead fields, List.flatMap_append]

end

namespace Scope

variable {scope : Scope} {bare : String → Lowering TypeId} {instead : String → Option TypeExpr}

/-- What a bare name means where another expression is lowered instead. -/
def meaningInstead (scope : Scope) (bare : String → Lowering TypeId)
    (instead : String → Option TypeExpr) (name : String) : Lowering TypeId :=
  ((instead name).map (scope.lowerWith bare)).getD (bare name)

mutual

theorem lowerWith_replace (expr : TypeExpr) : scope.lowerWith bare (expr.replace instead) =
    scope.lowerWith (scope.meaningInstead bare instead) expr := by
  cases expr with
  | named name arguments =>
      cases arguments with
      | nil =>
          rw [TypeExpr.replace, lowerWith, meaningInstead]
          cases instead name <;> rfl
      | cons first others =>
          rw [TypeExpr.replace, lowerWith, lowerWith, lowerWith_replace first,
            lowerAllWith_replace others]
  | array element => rw [TypeExpr.replace, lowerWith, lowerWith, lowerWith_replace element]
  | tuple items => rw [TypeExpr.replace, lowerWith, lowerWith, lowerAllWith_replace items]
  | shape fields => rw [TypeExpr.replace, lowerWith, lowerWith, lowerFieldsWith_replace fields]
  | union members => rw [TypeExpr.replace, lowerWith, lowerWith, lowerAllWith_replace members]
  | text value => rfl
  | number spelling => rfl

theorem lowerAllWith_replace (exprs : List TypeExpr) :
    scope.lowerAllWith bare (TypeExpr.replaceAll instead exprs) =
      scope.lowerAllWith (scope.meaningInstead bare instead) exprs := by
  cases exprs with
  | nil => rfl
  | cons expr exprs =>
      rw [TypeExpr.replaceAll, lowerAllWith, lowerAllWith, lowerWith_replace expr,
        lowerAllWith_replace exprs]

theorem lowerFieldWith_replace (field : FieldExpr) :
    scope.lowerFieldWith bare (field.replace instead) =
      scope.lowerFieldWith (scope.meaningInstead bare instead) field := by
  obtain ⟨name, optional, expr⟩ := field
  rw [FieldExpr.replace, lowerFieldWith, lowerFieldWith, lowerWith_replace expr]

theorem lowerFieldsWith_replace (fields : List FieldExpr) :
    scope.lowerFieldsWith bare (FieldExpr.replaceAll instead fields) =
      scope.lowerFieldsWith (scope.meaningInstead bare instead) fields := by
  cases fields with
  | nil => rfl
  | cons field fields =>
      rw [FieldExpr.replaceAll, lowerFieldsWith, lowerFieldsWith, lowerFieldWith_replace field,
        lowerFieldsWith_replace fields]

end

end Scope

end Wiring
