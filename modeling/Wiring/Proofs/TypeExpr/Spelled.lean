import Wiring.Proofs.TypeExpr.Aliases
import Wiring.Proofs.TypeExpr.Interned
import Wiring.Proofs.TypeExpr.Lexed
import Wiring.Proofs.Types.Throughout
import Wiring.Text.Quoted

/-!
# How lowered types are spelled

What an expression is lowered to has the names, the literals and the fields that are written in it
and in the definitions of its aliases.  So where these come from texts, every name and number in a
lowered type is spelled as it is read, and the names mean in the scope what they stand for in the
type.
-/

namespace Wiring

open TypeTable Lowering

def TypeExpr.parts : TypeExpr → List TypeExpr
  | named _ arguments => arguments
  | array element => [element]
  | tuple items => items
  | shape fields => fields.map FieldExpr.type
  | union members => members
  | text _ | number _ => []

/-- The second expression is a part of the first. -/
def TypeExpr.HasPart (expr part : TypeExpr) : Prop :=
  part ∈ expr.parts

/-- An expression leads to its parts, and a bare name to its definition. -/
def Scope.Leads (scope : Scope) (expr next : TypeExpr) : Prop :=
  expr.HasPart next ∨ ∃ name, expr = .named name [] ∧ scope.definition? name = some next

theorem Scope.everywhere_of_parts {scope : Scope} {Q : TypeExpr → Prop} {expr : TypeExpr}
    (hhere : Q expr) (hbare : ∀ name, expr ≠ .named name [])
    (hparts : ∀ part ∈ expr.parts, Everywhere scope.Leads Q part) :
    Everywhere scope.Leads Q expr := by
  refine everywhere_iff.mpr ⟨hhere, ?_⟩
  rintro next (hpart | ⟨name, rfl, -⟩)
  · exact hparts next hpart
  · exact absurd rfl (hbare name)

theorem Scope.everywhere_of_bare {scope : Scope} {Q : TypeExpr → Prop} {name : String}
    (hhere : Q (.named name []))
    (hnext : ∀ target, scope.definition? name = some target → Everywhere scope.Leads Q target) :
    Everywhere scope.Leads Q (.named name []) := by
  refine everywhere_iff.mpr ⟨hhere, ?_⟩
  rintro next (hpart | ⟨_, ⟨⟩, hdefinition⟩)
  · cases hpart
  · exact hnext next hdefinition

namespace Lowering

variable {α β : Type} {table later : TypeTable} {L : Lowering α} {K : α → Lowering β} {b : β}
  {R : TypeTable → α → Prop} {S : TypeTable → β → Prop}

theorem run_bind_eq_ok (h : (L >>= K).run table = (.ok b, later)) :
    ∃ a middle, L.run table = (.ok a, middle) ∧ (K a).run middle = (.ok b, later) := by
  cases hrun : L.run table with
  | mk result middle =>
      cases result with
      | error error =>
          rw [run_bind_of_error hrun] at h
          cases h
      | ok a =>
          rw [run_bind_of_ok hrun] at h
          exact ⟨a, middle, rfl, h⟩

/-- Where the computation succeeds, the table has developed and holds a result of the kind. -/
def GivesAt (R : TypeTable → α → Prop) (table : TypeTable) (L : Lowering α) : Prop :=
  ∀ ⦃a : α⦄ ⦃later : TypeTable⦄, L.run table = (.ok a, later) → table.Develops later ∧ R later a

theorem givesAt_pure (htable : table.Built) {a : α} (h : R table a) :
    GivesAt R table (pure a : Lowering α) := by
  rintro _ _ ⟨⟩
  exact ⟨.refl htable, h⟩

theorem givesAt_throw (error : Error) : GivesAt R table (throw error : Lowering α) :=
  nofun

theorem givesAt_bind (h : GivesAt R table L)
    (hrest : ∀ middle a, table.Develops middle → R middle a → GivesAt S middle (K a)) :
    GivesAt S table (L >>= K) := by
  intro b later hrun
  obtain ⟨a, middle, hfirst, hsecond⟩ := run_bind_eq_ok hrun
  obtain ⟨hmiddle, ha⟩ := h hfirst
  obtain ⟨hlater, hb⟩ := hrest middle a hmiddle ha hsecond
  exact ⟨hmiddle.trans hlater, hb⟩

end Lowering

/-- The table holds the type, and the property holds throughout it. -/
def HoldsType (P : Descriptor → Prop) (table : TypeTable) (id : TypeId) : Prop :=
  id < table.size ∧ table.Throughout P id

section

variable {P : Descriptor → Prop} {table later : TypeTable} {id : TypeId} {ids : List TypeId}

theorem HoldsType.develops (h : HoldsType P table id) (htable : table.Built)
    (hlater : table.Develops later) : HoldsType P later id :=
  ⟨h.1.trans_le hlater.grows.size_le, h.2.grows htable.partsDescend hlater.grows h.1⟩

/-- A descriptor that is interned as it is. -/
theorem givesAt_intern (htable : table.Built) {descriptor canonical : Descriptor}
    (hadd : table.intern descriptor = table.add canonical) (hnew : P canonical)
    (hparts : ∀ part ∈ canonical.parts, HoldsType P table part)
    (hpresent : ∀ part ∈ descriptor.parts, part < table.size) :
    GivesAt (HoldsType P) table (intern descriptor) := by
  have hthroughout := throughout_add htable.partsDescend hnew hparts
  rw [← hadd] at hthroughout
  rintro _ _ ⟨⟩
  exact ⟨htable.develops hpresent, htable.intern_lt_size hpresent, hthroughout⟩

theorem givesAt_intern_union (htable : table.Built) (hempty : ¬P (.union []))
    (hunion : ∀ members, members ≠ [] → P (.union members)) (hne : ids ≠ [])
    (hids : ∀ id ∈ ids, HoldsType P table id) :
    GivesAt (HoldsType P) table (intern (.union ids)) := by
  have hpresent : ∀ id ∈ (Descriptor.union ids).parts, id < table.size :=
    fun id hid ↦ (hids id hid).1
  rintro _ _ ⟨⟩
  exact ⟨htable.develops hpresent, htable.intern_lt_size hpresent,
    throughout_intern_union htable.partsDescend hempty hunion hne hids⟩

end

namespace Scope

/-- What a bare name stands for that is no alias. -/
def bareDescriptor (scope : Scope) (name : String) : Descriptor :=
  (reserved? name).getD (if name ∈ scope.enumerations then .enumeration name else .nominal name)

/-- What is written in an expression carries over to the descriptors that are interned for it. -/
structure Carries (scope : Scope) (Q : TypeExpr → Prop) (P : Descriptor → Prop) : Prop where
  bare {name : String} (written : Q (.named name [])) (unaliased : scope.definition? name = none) :
    P (scope.bareDescriptor name)
  applied {name : String} {first : TypeExpr} {others : List TypeExpr} {ids : List TypeId}
    (written : Q (.named name (first :: others))) (unaliased : scope.alias? name = none)
    (length : ids ≠ []) : P (container name ids)
  array (id : TypeId) : P (.array id)
  tuple (ids : List TypeId) : P (.tuple ids)
  shape {exprs : List FieldExpr} {fields : List Field} (written : Q (.shape exprs))
    (names : ∀ field ∈ fields, ∃ expr ∈ exprs, expr.name = field.name) : P (.shape fields)
  several {exprs : List TypeExpr} (written : Q (.union exprs)) : exprs ≠ []
  union (ids : List TypeId) (several : ids ≠ []) : P (.union ids)
  empty : ¬P (.union [])
  text {value : String} (written : Q (.text value)) : P (.literal (.text value))
  number {spelling : String} (written : Q (.number spelling)) : P (.literal (.number spelling))
  absent : P (.primitive .undefined)

variable {scope : Scope} {Q : TypeExpr → Prop} {P : Descriptor → Prop}
  {bare : String → Lowering TypeId}

/-- The bare names with the property everywhere are lowered to types with the property. -/
def BareGives (scope : Scope) (Q : TypeExpr → Prop) (P : Descriptor → Prop)
    (bare : String → Lowering TypeId) : Prop :=
  ∀ name, Everywhere scope.Leads Q (.named name []) → ∀ ⦃table : TypeTable⦄, table.Built →
    GivesAt (HoldsType P) table (bare name)

theorem bareDescriptor_cases (scope : Scope) (name : String) :
    (scope.bareDescriptor name = .dynamic ∨ ∃ kind, scope.bareDescriptor name = .primitive kind) ∨
      scope.bareDescriptor name = .enumeration name ∨
      scope.bareDescriptor name = .nominal name := by
  rw [bareDescriptor]
  cases hreserved : reserved? name with
  | none =>
      rw [Option.getD_none]
      split_ifs <;> simp
  | some descriptor =>
      rw [reserved?.eq_def] at hreserved
      split at hreserved
      case h_5 =>
        obtain ⟨kind, -, rfl⟩ := Option.map_eq_some_iff.mp hreserved
        exact .inl (.inr ⟨kind, rfl⟩)
      all_goals
        cases hreserved
        simp

theorem container_cases (name : String) (ids : List TypeId) :
    container name ids = .generic name ids ∨ ∃ id, ids = [id] ∧ container name ids = .array id := by
  rw [container.eq_def]
  split
  · split_ifs
    · exact .inr ⟨_, rfl, rfl⟩
    · exact .inl rfl
  · exact .inl rfl

theorem givesAt_container {name : String} {ids : List TypeId} {table : TypeTable}
    (htable : table.Built) (hnew : P (container name ids))
    (hids : ∀ id ∈ ids, HoldsType P table id) :
    GivesAt (HoldsType P) table (intern (container name ids)) := by
  have hpresent : ∀ id ∈ ids, id < table.size := fun id hid ↦ (hids id hid).1
  obtain heq | ⟨id, rfl, heq⟩ := container_cases name ids <;> rw [heq] at hnew ⊢ <;>
    exact givesAt_intern htable rfl hnew hids hpresent

mutual

theorem givesAt_lowerWith (hcarries : scope.Carries Q P) (hbare : scope.BareGives Q P bare)
    (expr : TypeExpr) (h : Everywhere scope.Leads Q expr) {table : TypeTable}
    (htable : table.Built) : GivesAt (HoldsType P) table (scope.lowerWith bare expr) := by
  have hparts : ∀ part ∈ expr.parts, Everywhere scope.Leads Q part := fun part hpart ↦
    h.next (.inl hpart)
  cases expr with
  | named name arguments =>
      cases arguments with
      | nil => exact hbare name h htable
      | cons first others =>
          obtain ⟨hfirst, hothers⟩ := List.forall_mem_cons.mp hparts
          rw [lowerWith]
          split
          · exact givesAt_throw _
          · next halias =>
              refine givesAt_bind (givesAt_lowerWith hcarries hbare first hfirst htable) ?_
              intro middle a hmiddle ha
              refine givesAt_bind
                (givesAt_lowerAllWith hcarries hbare others hothers hmiddle.built) ?_
              rintro later ids hlater ⟨-, hids⟩
              have hall : ∀ id ∈ a :: ids, HoldsType P later id :=
                List.forall_mem_cons.mpr ⟨ha.develops hmiddle.built hlater, hids⟩
              exact givesAt_container hlater.built (hcarries.applied h.here
                (Option.not_isSome_iff_eq_none.mp halias) (List.cons_ne_nil a ids)) hall
  | array element =>
      rw [lowerWith]
      have helement := hparts element List.mem_cons_self
      refine givesAt_bind (givesAt_lowerWith hcarries hbare element helement htable) ?_
      intro later a hlater ha
      have hall := List.forall_mem_singleton.mpr ha
      exact givesAt_intern hlater.built rfl (hcarries.array a) hall fun part hpart ↦
        (hall part hpart).1
  | tuple items =>
      rw [lowerWith]
      refine givesAt_bind (givesAt_lowerAllWith hcarries hbare items hparts htable) ?_
      rintro later ids hlater ⟨-, hids⟩
      exact givesAt_intern hlater.built rfl (hcarries.tuple ids) hids fun part hpart ↦
        (hids part hpart).1
  | shape fields =>
      rw [lowerWith]
      have htypes := List.forall_mem_map.mp hparts
      refine givesAt_bind (givesAt_lowerFieldsWith hcarries hbare fields htypes htable) ?_
      intro later found hlater hfound
      have hfields : ∀ part ∈ (Descriptor.shape found).parts, HoldsType P later part :=
        List.forall_mem_map.mpr fun field hfield ↦ (hfound field hfield).2
      refine givesAt_intern hlater.built rfl (hcarries.shape h.here fun field hfield ↦ ?_) ?_
        fun part hpart ↦ (hfields part hpart).1
      · exact (hfound field (mem_of_mem_canonicalFields hfield)).1
      · exact List.forall_mem_map.mpr fun field hfield ↦
          (hfound field (mem_of_mem_canonicalFields hfield)).2
  | union members =>
      rw [lowerWith]
      refine givesAt_bind (givesAt_lowerAllWith hcarries hbare members hparts htable) ?_
      rintro later ids hlater ⟨hlength, hids⟩
      refine givesAt_intern_union hlater.built hcarries.empty hcarries.union ?_ hids
      have hmembers := hcarries.several h.here
      rwa [← List.length_pos_iff_ne_nil, hlength, List.length_pos_iff_ne_nil]
  | text value =>
      exact givesAt_intern htable rfl (hcarries.text h.here) nofun nofun
  | number spelling =>
      exact givesAt_intern htable rfl (hcarries.number h.here) nofun nofun

theorem givesAt_lowerAllWith (hcarries : scope.Carries Q P) (hbare : scope.BareGives Q P bare)
    (exprs : List TypeExpr) (h : ∀ expr ∈ exprs, Everywhere scope.Leads Q expr)
    {table : TypeTable} (htable : table.Built) :
    GivesAt (fun table ids ↦ ids.length = exprs.length ∧ ∀ id ∈ ids, HoldsType P table id) table
      (scope.lowerAllWith bare exprs) := by
  cases exprs with
  | nil => exact givesAt_pure htable ⟨rfl, List.forall_mem_nil _⟩
  | cons expr exprs =>
      obtain ⟨hexpr, hexprs⟩ := List.forall_mem_cons.mp h
      rw [lowerAllWith]
      refine givesAt_bind (givesAt_lowerWith hcarries hbare expr hexpr htable) ?_
      intro middle a hmiddle ha
      refine givesAt_bind (givesAt_lowerAllWith hcarries hbare exprs hexprs hmiddle.built) ?_
      rintro later ids hlater ⟨hlength, hids⟩
      exact givesAt_pure hlater.built ⟨congrArg Nat.succ hlength,
        List.forall_mem_cons.mpr ⟨ha.develops hmiddle.built hlater, hids⟩⟩

theorem givesAt_lowerFieldWith (hcarries : scope.Carries Q P) (hbare : scope.BareGives Q P bare)
    (field : FieldExpr) (h : Everywhere scope.Leads Q field.type) {table : TypeTable}
    (htable : table.Built) :
    GivesAt (fun table found ↦ found.name = field.name ∧ HoldsType P table found.type) table
      (scope.lowerFieldWith bare field) := by
  obtain ⟨name, optional, expr⟩ := field
  rw [lowerFieldWith]
  refine givesAt_bind (givesAt_lowerWith hcarries hbare expr h htable) ?_
  intro middle a hmiddle ha
  split
  · refine givesAt_bind (givesAt_intern hmiddle.built rfl hcarries.absent nofun nofun) ?_
    intro later absent hlater habsent
    have hboth : ∀ id ∈ [a, absent], HoldsType P later id :=
      List.forall_mem_cons.mpr ⟨ha.develops hmiddle.built hlater,
        List.forall_mem_singleton.mpr habsent⟩
    refine givesAt_bind (givesAt_intern_union hlater.built hcarries.empty hcarries.union
      (List.cons_ne_nil _ _) hboth) ?_
    intro last united hlast hunited
    exact givesAt_pure hlast.built ⟨rfl, hunited⟩
  · exact givesAt_pure hmiddle.built ⟨rfl, ha⟩

theorem givesAt_lowerFieldsWith (hcarries : scope.Carries Q P) (hbare : scope.BareGives Q P bare)
    (fields : List FieldExpr) (h : ∀ field ∈ fields, Everywhere scope.Leads Q field.type)
    {table : TypeTable} (htable : table.Built) :
    GivesAt (fun table found ↦ ∀ field ∈ found,
      (∃ expr ∈ fields, expr.name = field.name) ∧ HoldsType P table field.type) table
      (scope.lowerFieldsWith bare fields) := by
  cases fields with
  | nil => exact givesAt_pure htable (List.forall_mem_nil _)
  | cons field fields =>
      obtain ⟨hfield, hfields⟩ := List.forall_mem_cons.mp h
      rw [lowerFieldsWith]
      refine givesAt_bind (givesAt_lowerFieldWith hcarries hbare field hfield htable) ?_
      rintro middle first hmiddle ⟨hname, hfirst⟩
      refine givesAt_bind (givesAt_lowerFieldsWith hcarries hbare fields hfields hmiddle.built) ?_
      intro later others hlater hothers
      refine givesAt_pure hlater.built (List.forall_mem_cons.mpr ⟨?_, fun other hother ↦ ?_⟩)
      · exact ⟨⟨field, List.mem_cons_self, hname.symm⟩, hfirst.develops hmiddle.built hlater⟩
      · obtain ⟨⟨expr, hexpr, hsame⟩, htype⟩ := hothers other hother
        exact ⟨⟨expr, List.mem_cons_of_mem _ hexpr, hsame⟩, htype⟩

end

theorem givesAt_plain (hcarries : scope.Carries Q P) {name : String} (hname : Q (.named name []))
    (hunaliased : scope.definition? name = none) {table : TypeTable} (htable : table.Built) :
    GivesAt (HoldsType P) table (scope.plain name) := by
  have hnew := hcarries.bare hname hunaliased
  change GivesAt (HoldsType P) table (intern (scope.bareDescriptor name))
  obtain (heq | ⟨kind, heq⟩) | heq | heq := scope.bareDescriptor_cases name <;>
    rw [heq] at hnew ⊢ <;> exact givesAt_intern htable rfl hnew nofun nofun

theorem bareGives_lowerName (hcarries : scope.Carries Q P) (rounds : ℕ) (expanding : List String) :
    scope.BareGives Q P (scope.lowerName rounds expanding) := by
  induction rounds generalizing expanding with
  | zero =>
      intro name hname table htable
      cases halias : scope.definition? name with
      | none =>
          rw [lowerName_of_plain halias]
          exact givesAt_plain hcarries hname.here halias htable
      | some target =>
          rw [lowerName_of_definition halias, if_pos (.inr rfl)]
          exact givesAt_throw _
  | succ rounds ih =>
      intro name hname table htable
      cases halias : scope.definition? name with
      | none =>
          rw [lowerName_of_plain halias]
          exact givesAt_plain hcarries hname.here halias htable
      | some target =>
          rw [lowerName_of_definition halias]
          split
          · exact givesAt_throw _
          · exact givesAt_lowerWith hcarries (ih (name :: expanding)) target
              (hname.next (.inr ⟨name, rfl, halias⟩)) htable

/-- What is written in the expression and, where names are followed, in the definitions of aliases
carries over to the type. -/
theorem holdsType_of_written (hcarries : scope.Carries Q P) {expr : TypeExpr}
    (h : Everywhere scope.Leads Q expr) {table : TypeTable} {id : TypeId}
    (hwritten : Written table (scope.lower expr) id) : HoldsType P table id := by
  obtain ⟨before, after, hbefore, hrun, hafter⟩ := hwritten
  obtain ⟨hdevelops, hlt, hthroughout⟩ := givesAt_lowerWith hcarries
    (bareGives_lowerName hcarries scope.aliases.length []) expr h hbefore hrun
  exact ⟨hlt.trans_le hafter.size_le,
    hthroughout.grows hdevelops.built.partsDescend hafter hlt⟩

end Scope

/-! ## Names as they are read -/

/-- Names and numbers are spelled as they are read, and a union has members. -/
def TypeExpr.IsNamed : TypeExpr → Prop
  | named name _ => (Token.word name).IsLexed
  | number spelling => (Token.number spelling).IsLexed
  | union members => members ≠ []
  | _ => True

/-- Names and numbers are spelled as they are read, and in the scope the names have the meaning that
they have here. -/
def Descriptor.IsNamed (scope : Scope) : Descriptor → Prop
  | literal (.number spelling) => (Token.number spelling).IsLexed
  | enumeration name => (Token.word name).IsLexed ∧ scope.definition? name = none ∧
    scope.bareDescriptor name = .enumeration name
  | nominal name => (Token.word name).IsLexed ∧ scope.definition? name = none ∧
    scope.bareDescriptor name = .nominal name
  | generic name arguments => (Token.word name).IsLexed ∧ scope.alias? name = none ∧
    arguments ≠ [] ∧ Scope.container name arguments = .generic name arguments
  | union members => members ≠ []
  | _ => True

theorem Scope.carries_isNamed (scope : Scope) :
    scope.Carries TypeExpr.IsNamed (Descriptor.IsNamed scope) where
  bare {name} hword hunaliased := by
    obtain (heq | ⟨kind, heq⟩) | heq | heq := scope.bareDescriptor_cases name <;> rw [heq]
    · trivial
    · trivial
    · exact ⟨hword, hunaliased, heq⟩
    · exact ⟨hword, hunaliased, heq⟩
  applied {name _ _ ids} hword hunaliased hne := by
    obtain heq | ⟨id, -, heq⟩ := container_cases name ids <;> rw [heq]
    · exact ⟨hword, hunaliased, hne, heq⟩
    · trivial
  array _ := trivial
  tuple _ := trivial
  shape _ _ := trivial
  several hmembers := hmembers
  union _ hne := hne
  empty hempty := hempty rfl
  text _ := trivial
  number hspelled := hspelled
  absent := trivial

/-- Between quotes the text stands as it is. -/
def Text.IsPlain (value : String) : Prop :=
  ∀ c ∈ value.toList, Text.escapeChar c = c.toString

/-- Texts need no escapes, and fields have words for names. -/
def TypeExpr.IsPlain : TypeExpr → Prop
  | text value => Text.IsPlain value
  | shape fields => ∀ field ∈ fields, (Token.word field.name).IsLexed
  | _ => True

/-- Texts need no escapes, and fields have words for names. -/
def Descriptor.IsPlain : Descriptor → Prop
  | literal (.text value) => Text.IsPlain value
  | shape fields => ∀ field ∈ fields, (Token.word field.name).IsLexed
  | _ => True

theorem Scope.carries_isPlain (scope : Scope) :
    scope.Carries (fun expr ↦ expr.IsNamed ∧ expr.IsPlain)
      (fun descriptor ↦ descriptor.IsNamed scope ∧ descriptor.IsPlain) where
  bare {name} h hunaliased := by
    refine ⟨scope.carries_isNamed.bare h.1 hunaliased, ?_⟩
    obtain (heq | ⟨kind, heq⟩) | heq | heq := scope.bareDescriptor_cases name <;> rw [heq] <;>
      trivial
  applied {name _ _ ids} h hunaliased hne := by
    refine ⟨scope.carries_isNamed.applied h.1 hunaliased hne, ?_⟩
    obtain heq | ⟨id, -, heq⟩ := container_cases name ids <;> rw [heq] <;> trivial
  array _ := ⟨trivial, trivial⟩
  tuple _ := ⟨trivial, trivial⟩
  shape h hnames := by
    refine ⟨trivial, fun field hfield ↦ ?_⟩
    obtain ⟨expr, hexpr, hname⟩ := hnames field hfield
    exact hname ▸ h.2 expr hexpr
  several h := h.1
  union _ hne := ⟨hne, trivial⟩
  empty h := h.1 rfl
  text h := ⟨trivial, h.2⟩
  number h := ⟨h.1, trivial⟩
  absent := ⟨trivial, trivial⟩

/-- Names are spelled as they are read in all parts of the expression. -/
abbrev TypeExpr.NamedThroughout : TypeExpr → Prop :=
  Everywhere HasPart IsNamed

theorem namedThroughout_suffixTree {element : TypeExpr} (suffixes : ℕ)
    (h : element.NamedThroughout) : (suffixTree suffixes element).NamedThroughout := by
  induction suffixes generalizing element with
  | zero => exact h
  | succ suffixes ih =>
      exact ih (everywhere_iff.mpr ⟨trivial, List.forall_mem_singleton.mpr h⟩)

theorem forall_laterTokens {α : Type} {separator : Mark} {tokens : α → List Token} {items : List α}
    {P : Token → Prop} (h : ∀ token ∈ laterTokens separator tokens items, P token) :
    ∀ item ∈ items, ∀ token ∈ tokens item, P token := fun item hitem token htoken ↦
  h token (List.mem_flatMap.mpr ⟨item, hitem, List.mem_cons_of_mem _ htoken⟩)

theorem namedThroughout_items {first : UnionPhrase} {others : List UnionPhrase} {closing : Mark}
    (hfirst : (∀ token ∈ first.tokens, token.IsLexed) → first.tree.NamedThroughout)
    (hothers : ∀ other ∈ others, (∀ token ∈ other.tokens, token.IsLexed) →
      other.tree.NamedThroughout)
    (h : ∀ token ∈ first.tokens ++ (UnionPhrase.laterTokens others ++ [.mark closing]),
      token.IsLexed) :
    ∀ part ∈ first.tree :: UnionPhrase.trees others, part.NamedThroughout := by
  obtain ⟨hhead, h⟩ := List.forall_mem_append.mp h
  obtain ⟨htail, -⟩ := List.forall_mem_append.mp h
  rw [UnionPhrase.laterTokens_eq] at htail
  rw [UnionPhrase.trees_eq]
  exact List.forall_mem_cons.mpr ⟨hfirst hhead, List.forall_mem_map.mpr fun other hother ↦
    hothers other hother (forall_laterTokens htail other hother)⟩

/-- The tree of a phrase has the names and numbers of its tokens. -/
theorem namedThroughout_tree (phrase : UnionPhrase) :
    (∀ token ∈ phrase.tokens, token.IsLexed) → phrase.tree.NamedThroughout := by
  refine @UnionPhrase.induct
    (fun phrase ↦ (∀ token ∈ phrase.tokens, token.IsLexed) → phrase.tree.NamedThroughout)
    (fun phrase ↦ (∀ token ∈ phrase.tokens, token.IsLexed) → phrase.tree.NamedThroughout)
    (fun phrase ↦ (∀ token ∈ phrase.tokens, token.IsLexed) → phrase.tree.NamedThroughout)
    (fun field ↦ (∀ token ∈ field.tokens, token.IsLexed) → field.tree.type.NamedThroughout)
    ?union ?suffixed ?word ?container ?emptyTuple ?tuple ?shape ?parenthesized ?text ?number
    ?field phrase
  case union =>
    intro bar first others hfirst hothers h
    obtain ⟨-, h⟩ := List.forall_mem_append.mp h
    obtain ⟨hhead, htail⟩ := List.forall_mem_append.mp h
    rw [SuffixedPhrase.laterTokens_eq] at htail
    have hmembers : ∀ part ∈ (first :: others).map SuffixedPhrase.tree, part.NamedThroughout :=
      List.forall_mem_map.mpr (List.forall_mem_cons.mpr ⟨hfirst hhead, fun other hother ↦
        hothers other hother (forall_laterTokens htail other hother)⟩)
    cases others with
    | nil => exact hmembers _ List.mem_cons_self
    | cons second others =>
        rw [UnionPhrase.tree, SuffixedPhrase.trees_eq]
        exact everywhere_iff.mpr ⟨List.cons_ne_nil _ _, hmembers⟩
  case suffixed =>
    intro primary suffixes hprimary h
    exact namedThroughout_suffixTree suffixes (hprimary (List.forall_mem_append.mp h).1)
  case word =>
    intro name h
    exact everywhere_iff.mpr ⟨h _ List.mem_cons_self, List.forall_mem_nil _⟩
  case container =>
    intro name first others hfirst hothers h
    obtain ⟨hname, h⟩ := List.forall_mem_cons.mp h
    obtain ⟨-, h⟩ := List.forall_mem_cons.mp h
    exact everywhere_iff.mpr ⟨hname, namedThroughout_items hfirst hothers h⟩
  case emptyTuple => exact fun _ ↦ everywhere_iff.mpr ⟨trivial, List.forall_mem_nil _⟩
  case tuple =>
    intro first others hfirst hothers h
    obtain ⟨-, h⟩ := List.forall_mem_cons.mp h
    exact everywhere_iff.mpr ⟨trivial, namedThroughout_items hfirst hothers h⟩
  case shape =>
    intro fields hfields h
    obtain ⟨-, h⟩ := List.forall_mem_cons.mp h
    obtain ⟨h, -⟩ := List.forall_mem_append.mp h
    rw [FieldPhrase.allTokens_eq] at h
    rw [PrimaryPhrase.tree, FieldPhrase.trees_eq]
    refine everywhere_iff.mpr ⟨trivial, List.forall_mem_map.mpr (List.forall_mem_map.mpr ?_)⟩
    exact fun field hfield ↦ hfields field hfield fun token htoken ↦
      h token (List.mem_flatMap.mpr ⟨field, hfield, htoken⟩)
  case parenthesized =>
    intro inner hinner h
    obtain ⟨-, h⟩ := List.forall_mem_cons.mp h
    exact hinner (List.forall_mem_append.mp h).1
  case text => exact fun _ _ ↦ everywhere_iff.mpr ⟨trivial, List.forall_mem_nil _⟩
  case number =>
    intro spelling h
    exact everywhere_iff.mpr ⟨h _ List.mem_cons_self, List.forall_mem_nil _⟩
  case field =>
    intro quoted name optional type ending htype h
    obtain ⟨-, h⟩ := List.forall_mem_cons.mp h
    obtain ⟨-, h⟩ := List.forall_mem_append.mp h
    obtain ⟨-, h⟩ := List.forall_mem_cons.mp h
    exact htype (List.forall_mem_append.mp h).1

theorem namedThroughout_of_parse {text : String} {expr : TypeExpr}
    (h : TypeExpr.parse text = .ok expr) : expr.NamedThroughout := by
  obtain ⟨phrase, ⟨located, hlocated, htokens⟩, -, rfl⟩ := TypeExpr.exists_phrase_of_parse h
  refine namedThroughout_tree phrase ?_
  rw [htokens]
  exact List.forall_mem_map.mpr (isLexed_of_tokens 0 text.toList located hlocated)

/-- The definitions of all aliases have been read from texts. -/
def Scope.IsRead (scope : Scope) : Prop :=
  ∀ declared ∈ scope.aliases, ∃ text, TypeExpr.parse text = .ok declared.2

theorem Scope.IsRead.everywhere_isNamed {scope : Scope} (hscope : scope.IsRead) {text : String}
    {expr : TypeExpr} (h : TypeExpr.parse text = .ok expr) :
    Everywhere scope.Leads TypeExpr.IsNamed expr := by
  have hall : ∀ sub, Relation.ReflTransGen scope.Leads expr sub → sub.NamedThroughout := by
    intro sub hsub
    induction hsub with
    | refl => exact namedThroughout_of_parse h
    | @tail _ target _ hstep ih =>
        rcases hstep with hpart | ⟨name, -, hdefinition⟩
        · exact ih.next hpart
        · rw [definition?] at hdefinition
          split_ifs at hdefinition
          obtain ⟨before, after, haliases, -⟩ := List.lookup_eq_some_iff.mp hdefinition
          have hdeclared : (name, target) ∈ scope.aliases := by
            rw [haliases]
            simp
          obtain ⟨source, hsource⟩ := hscope _ hdeclared
          exact namedThroughout_of_parse hsource
  exact fun sub hsub ↦ (hall sub hsub).here

end Wiring
