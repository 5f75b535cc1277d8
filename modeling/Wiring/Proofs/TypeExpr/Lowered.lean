import Wiring.Graph.Basic
import Wiring.Proofs.Types.Twins
import Wiring.TypeExpr.Scope

/-!
# Lowering in different tables

What an expression stands for does not depend on the table that it is lowered in.  In any two tables
that are built the outcomes agree: lowering fails in both with one error, or it gives twins and adds
no type to the one table that the other does not hold.
-/

namespace Wiring

open TypeTable

/-- Two tables and what they have become.  A type that is new in the first one has a twin. -/
structure DevelopAlike (table other later after : TypeTable) : Prop where
  left : table.Develops later
  right : other.Develops after
  new : ∀ id < later.size, table.size ≤ id → ∃ twin, later.Twins after id twin

variable {table other later after : TypeTable}

theorem DevelopAlike.refl (htable : table.Built) (hother : other.Built) :
    DevelopAlike table other table other where
  left := .refl htable
  right := .refl hother
  new := fun _ hid hnew ↦ absurd hid (Nat.not_lt_of_le hnew)

theorem DevelopAlike.trans {last final : TypeTable} (h : DevelopAlike table other later after)
    (hlast : DevelopAlike later after last final) : DevelopAlike table other last final where
  left := h.left.trans hlast.left
  right := h.right.trans hlast.right
  new := by
    intro id hid hnew
    by_cases hlater : id < later.size
    · obtain ⟨twin, htwin⟩ := h.new id hlater hnew
      exact ⟨twin, htwin.grows hlast.left.grows hlast.right.grows⟩
    · exact hlast.new id hid (Nat.le_of_not_lt hlater)

/-- A relation between results, each read in its own table. -/
abbrev ResultRelation (α β : Type) := TypeTable → TypeTable → α → β → Prop

/-- Two computations that started from the tables have failed with one error, or have related
results. -/
inductive Agrees {α β : Type} (R : ResultRelation α β) (table other : TypeTable) :
    Except Error α × TypeTable → Except Error β × TypeTable → Prop where
  | failed (error : Error) (later after : TypeTable) :
      Agrees R table other (.error error, later) (.error error, after)
  | done {later after : TypeTable} {a : α} {b : β}
      (development : DevelopAlike table other later after) (related : R later after a b) :
      Agrees R table other (.ok a, later) (.ok b, after)

namespace Lowering

variable {α β γ δ : Type}

theorem run_bind_of_ok {L : Lowering α} {K : α → Lowering β} {a : α}
    (h : L.run table = (.ok a, later)) : (L >>= K).run table = (K a).run later := by
  simp only [ExceptT.run_bind]
  simp only [bind, StateT.bind, h]

theorem run_bind_of_error {L : Lowering α} {K : α → Lowering β} {error : Error}
    (h : L.run table = (.error error, later)) :
    (L >>= K).run table = (.error error, later) := by
  simp only [ExceptT.run_bind]
  simp only [bind, StateT.bind, h]
  rfl

theorem agrees_pure (htable : table.Built) (hother : other.Built) {R : ResultRelation α β} {a : α}
    {b : β} (h : R table other a b) :
    Agrees R table other ((pure a : Lowering α).run table) ((pure b : Lowering β).run other) :=
  .done (.refl htable hother) h

theorem agrees_throw (R : ResultRelation α β) (error : Error) :
    Agrees R table other ((throw error : Lowering α).run table)
      ((throw error : Lowering β).run other) :=
  .failed error table other

theorem agrees_intern (htable : table.Built) (hother : other.Built)
    {descriptor another : Descriptor} (h : descriptor.Alike (table.Twins other) another) :
    Agrees Twins table other ((intern descriptor).run table) ((intern another).run other) := by
  have htwins := twins_intern htable hother h
  refine .done ⟨htable.develops fun part hpart ↦ ?left, hother.develops fun part hpart ↦ ?right,
    fun id hid hnew ↦ ?new⟩ htwins
  case left =>
    obtain ⟨twin, htwin⟩ := h.exists_of_mem_parts hpart
    exact htwin.left_lt
  case right =>
    obtain ⟨twin, htwin⟩ := h.swap.exists_of_mem_parts hpart
    exact htwin.right_lt
  case new =>
    rcases lt_or_eq_of_lt_size_intern hid with hold | rfl
    · exact absurd hold (Nat.not_lt_of_le hnew)
    · exact ⟨_, htwins⟩

theorem agrees_bind {R : ResultRelation α β} {S : ResultRelation γ δ} {L : Lowering α}
    {M : Lowering β} {K : α → Lowering γ} {N : β → Lowering δ}
    (h : Agrees R table other (L.run table) (M.run other))
    (hrest : ∀ later after a b, DevelopAlike table other later after → R later after a b →
      Agrees S later after ((K a).run later) ((N b).run after)) :
    Agrees S table other ((L >>= K).run table) ((M >>= N).run other) := by
  generalize hleft : L.run table = left at h
  generalize hright : M.run other = right at h
  cases h with
  | failed error later after =>
      rw [run_bind_of_error hleft, run_bind_of_error hright]
      exact .failed error later after
  | @done later after a b development related =>
      rw [run_bind_of_ok hleft, run_bind_of_ok hright]
      have hcontinued := hrest later after a b development related
      generalize (K a).run later = final at hcontinued ⊢
      generalize (N b).run after = last at hcontinued ⊢
      cases hcontinued with
      | failed error _ _ => exact .failed error _ _
      | done more result => exact .done (development.trans more) result

/-- Lowering agrees with itself in any two tables that are built. -/
def Steady (R : ResultRelation α α) (L : Lowering α) : Prop :=
  ∀ ⦃table other : TypeTable⦄, table.Built → other.Built →
    Agrees R table other (L.run table) (L.run other)

end Lowering

namespace Scope

open Lowering

variable {scope : Scope} {bare : String → Lowering TypeId}

def AllTwins (table other : TypeTable) : List TypeId → List TypeId → Prop :=
  List.Forall₂ (table.Twins other)

def FieldTwins (table other : TypeTable) : Field → Field → Prop :=
  FieldAlike (table.Twins other)

theorem container_alike (name : String) {as bs : List TypeId} (h : AllTwins table other as bs) :
    (container name as).Alike (table.Twins other) (container name bs) := by
  cases h with
  | nil => exact .generic name .nil
  | cons hfirst hrest =>
      cases hrest with
      | nil =>
          rw [container, container]
          split_ifs
          · exact .array hfirst
          · exact .generic name (.cons hfirst .nil)
      | cons hsecond hmore => exact .generic name (.cons hfirst (.cons hsecond hmore))

mutual

theorem steady_lowerWith (hbare : ∀ name, Steady Twins (bare name)) (expr : TypeExpr) :
    Steady Twins (scope.lowerWith bare expr) := by
  intro table other htable hother
  cases expr with
  | named name arguments =>
      cases arguments with
      | nil => exact hbare name htable hother
      | cons argument arguments =>
          rw [lowerWith]
          split
          · exact agrees_throw _ _
          · refine agrees_bind (steady_lowerWith hbare argument htable hother) ?_
            intro later after a b halike hfirst
            refine agrees_bind
              (steady_lowerAllWith hbare arguments halike.left.built halike.right.built) ?_
            intro last final as bs hmore hothers
            have hall : AllTwins last final (a :: as) (b :: bs) :=
              .cons (hfirst.grows hmore.left.grows hmore.right.grows) hothers
            exact agrees_intern hmore.left.built hmore.right.built (container_alike name hall)
  | array element =>
      rw [lowerWith]
      refine agrees_bind (steady_lowerWith hbare element htable hother) ?_
      intro later after a b halike htwins
      exact agrees_intern halike.left.built halike.right.built (.array htwins)
  | tuple items =>
      rw [lowerWith]
      refine agrees_bind (steady_lowerAllWith hbare items htable hother) ?_
      intro later after as bs halike htwins
      exact agrees_intern halike.left.built halike.right.built (.tuple htwins)
  | shape fields =>
      rw [lowerWith]
      refine agrees_bind (steady_lowerFieldsWith hbare fields htable hother) ?_
      intro later after as bs halike htwins
      exact agrees_intern halike.left.built halike.right.built (.shape htwins)
  | union members =>
      rw [lowerWith]
      refine agrees_bind (steady_lowerAllWith hbare members htable hother) ?_
      intro later after as bs halike htwins
      exact agrees_intern halike.left.built halike.right.built
        (Descriptor.alike_union_of_forall₂ htwins)
  | text value => exact agrees_intern htable hother (.leaf rfl)
  | number spelling => exact agrees_intern htable hother (.leaf rfl)

theorem steady_lowerAllWith (hbare : ∀ name, Steady Twins (bare name)) (exprs : List TypeExpr) :
    Steady AllTwins (scope.lowerAllWith bare exprs) := by
  intro table other htable hother
  cases exprs with
  | nil => exact agrees_pure htable hother .nil
  | cons expr exprs =>
      rw [lowerAllWith]
      refine agrees_bind (steady_lowerWith hbare expr htable hother) ?_
      intro later after a b halike hfirst
      refine agrees_bind (steady_lowerAllWith hbare exprs halike.left.built halike.right.built) ?_
      intro last final as bs hmore hothers
      exact agrees_pure hmore.left.built hmore.right.built
        (.cons (hfirst.grows hmore.left.grows hmore.right.grows) hothers)

theorem steady_lowerFieldWith (hbare : ∀ name, Steady Twins (bare name)) (field : FieldExpr) :
    Steady FieldTwins (scope.lowerFieldWith bare field) := by
  intro table other htable hother
  obtain ⟨name, optional, expr⟩ := field
  rw [lowerFieldWith]
  refine agrees_bind (steady_lowerWith hbare expr htable hother) ?_
  intro later after a b halike htwins
  split
  · refine agrees_bind (agrees_intern halike.left.built halike.right.built (.leaf rfl)) ?_
    intro last final absent absent' hmore habsent
    have hboth : AllTwins last final [a, absent] [b, absent'] :=
      .cons (htwins.grows hmore.left.grows hmore.right.grows) (.cons habsent .nil)
    refine agrees_bind (agrees_intern hmore.left.built hmore.right.built
      (Descriptor.alike_union_of_forall₂ hboth)) ?_
    intro _ _ _ _ hunited hunion
    exact agrees_pure hunited.left.built hunited.right.built ⟨rfl, hunion⟩
  · exact agrees_pure halike.left.built halike.right.built ⟨rfl, htwins⟩

theorem steady_lowerFieldsWith (hbare : ∀ name, Steady Twins (bare name))
    (fields : List FieldExpr) :
    Steady (fun table other ↦ List.Forall₂ (FieldTwins table other))
      (scope.lowerFieldsWith bare fields) := by
  intro table other htable hother
  cases fields with
  | nil => exact agrees_pure htable hother .nil
  | cons field fields =>
      rw [lowerFieldsWith]
      refine agrees_bind (steady_lowerFieldWith hbare field htable hother) ?_
      intro later after a b halike hfirst
      refine agrees_bind
        (steady_lowerFieldsWith hbare fields halike.left.built halike.right.built) ?_
      intro last final as bs hmore hothers
      exact agrees_pure hmore.left.built hmore.right.built
        (.cons ⟨hfirst.1, hfirst.2.grows hmore.left.grows hmore.right.grows⟩ hothers)

end

theorem steady_intern_leaf {descriptor : Descriptor} (h : descriptor.isLeaf = true) :
    Steady Twins (intern descriptor) :=
  fun _ _ htable hother ↦ agrees_intern htable hother (.leaf h)

theorem isLeaf_of_reserved? {name : String} {descriptor : Descriptor}
    (h : reserved? name = some descriptor) : descriptor.isLeaf = true := by
  rw [reserved?.eq_def] at h
  split at h
  case h_5 =>
    obtain ⟨kind, -, rfl⟩ := Option.map_eq_some_iff.mp h
    rfl
  all_goals
    cases h
    rfl

theorem steady_lowerName (scope : Scope) (rounds : ℕ) (expanding : List String) (name : String) :
    Steady Twins (scope.lowerName rounds expanding name) := by
  induction rounds generalizing expanding name with
  | zero =>
      rw [lowerName]
      split
      · next hreserved => exact steady_intern_leaf (isLeaf_of_reserved? hreserved)
      · split
        · split_ifs <;> exact fun _ _ _ _ ↦ agrees_throw _ _
        · split_ifs <;> exact steady_intern_leaf rfl
  | succ rounds ih =>
      rw [lowerName]
      split
      · next hreserved => exact steady_intern_leaf (isLeaf_of_reserved? hreserved)
      · split
        · split_ifs
          · exact fun _ _ _ _ ↦ agrees_throw _ _
          · exact steady_lowerWith (ih _) _
        · split_ifs <;> exact steady_intern_leaf rfl

theorem run_resolve_of_error {scope : Scope} {expression : String} {error : Error}
    (h : TypeExpr.parse expression = .error error) (table : TypeTable) :
    (scope.resolve expression).run table = (.error error, table) := by
  rw [resolve, h]
  rfl

theorem run_resolve_of_ok {scope : Scope} {expression : String} {expr : TypeExpr}
    (h : TypeExpr.parse expression = .ok expr) (table : TypeTable) :
    (scope.resolve expression).run table = (scope.lower expr).run table := by
  rw [resolve, h]
  rfl

theorem steady_resolve (scope : Scope) (expression : String) :
    Steady Twins (scope.resolve expression) := by
  intro table other htable hother
  cases hparse : TypeExpr.parse expression with
  | error error =>
      rw [run_resolve_of_error hparse, run_resolve_of_error hparse]
      exact .failed error table other
  | ok expr =>
      rw [run_resolve_of_ok hparse, run_resolve_of_ok hparse]
      exact steady_lowerWith (steady_lowerName scope _ _) expr htable hother

theorem steady_lowerFields (scope : Scope) (fields : List FieldExpr) :
    Steady (fun table other ↦ List.Forall₂ (FieldTwins table other)) (scope.lowerFields fields) :=
  steady_lowerFieldsWith (steady_lowerName scope _ _) fields

/-- Lowers what a provider returns to what it delivers. -/
def product (scope : Scope) (expression : String) (deferred : Bool) : Lowering TypeId := do
  let returns ← scope.resolve expression
  fun table ↦
    let (product, table) := Graph.delivered table returns deferred
    (.ok product, table)

theorem agrees_delivered (htable : table.Built) (hother : other.Built) {a b : TypeId}
    (h : table.Twins other a b) (deferred : Bool) :
    Agrees Twins table other (.ok (Graph.delivered table a deferred).1,
        (Graph.delivered table a deferred).2)
      (.ok (Graph.delivered other b deferred).1, (Graph.delivered other b deferred).2) := by
  rw [Graph.delivered, Graph.delivered, h.isPromise_eq]
  split
  · exact agrees_intern htable hother (.generic promiseName (.cons h .nil))
  · exact .done (.refl htable hother) h

theorem steady_product (scope : Scope) (expression : String) (deferred : Bool) :
    Steady Twins (scope.product expression deferred) := by
  intro table other htable hother
  refine agrees_bind (steady_resolve scope expression htable hother) ?_
  intro later after a b halike htwins
  exact agrees_delivered halike.left.built halike.right.built htwins deferred

end Scope

end Wiring
