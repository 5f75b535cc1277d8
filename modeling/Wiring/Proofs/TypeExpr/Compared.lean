import Wiring.Proofs.TypeExpr.Interned
import Wiring.Proofs.Types.Corresponding

/-!
# Comparisons of expressions

A table is filled by interning types, by lowering expressions in a scope and by defining classes
from the expressions of their fields, in any order.  How two expressions compare depends on the
scope and on the classes only: neither the order in which these were defined nor the other types
matter.
-/

namespace Wiring.Scope

open TypeTable Lowering

/-- A class as it is declared: its name and the fields that its objects have. -/
abbrev ClassDecl := String × List FieldExpr

/-- The tables that are filled with the help of a scope, with the classes that have been defined and
the identities that expressions have been lowered to.  No class is defined twice. -/
inductive Fills (scope : Scope) :
    List ClassDecl → List (TypeExpr × TypeId) → TypeTable → Prop where
  | empty : Fills scope [] [] .empty
  | intern {classes : List ClassDecl} {lowered : List (TypeExpr × TypeId)} {table : TypeTable}
      (filled : Fills scope classes lowered table) (descriptor : Descriptor)
      (parts : ∀ part ∈ descriptor.parts, part < table.size) :
      Fills scope classes lowered (table.intern descriptor).2
  | lower {classes : List ClassDecl} {lowered : List (TypeExpr × TypeId)}
      {table later : TypeTable} {id : TypeId} (filled : Fills scope classes lowered table)
      (expr : TypeExpr) (lowers : (scope.lower expr).run table = (.ok id, later)) :
      Fills scope classes ((expr, id) :: lowered) later
  | define {classes : List ClassDecl} {lowered : List (TypeExpr × TypeId)}
      {table later : TypeTable} {fields : List Field} (filled : Fills scope classes lowered table)
      (name : String) (declared : List FieldExpr) (new : name ∉ classes.map Prod.fst)
      (lowers : (scope.lowerFields declared).run table = (.ok fields, later)) :
      Fills scope ((name, declared) :: classes) lowered (later.defineClass name fields)

/-- The table holds the types of the fields under the identities that they were lowered to. -/
def FieldsWritten (scope : Scope) (table : TypeTable) (declared : List FieldExpr)
    (fields : List Field) : Prop :=
  ∃ before after : TypeTable, before.Built ∧
    (scope.lowerFields declared).run before = (.ok fields, after) ∧ after.Grows table

variable {scope : Scope} {classes others : List ClassDecl}
  {lowered more : List (TypeExpr × TypeId)} {table other later after : TypeTable}
  {declared : List FieldExpr} {fields images : List Field} {name : String}

theorem steady_lower (scope : Scope) (expr : TypeExpr) : Steady Twins (scope.lower expr) :=
  steady_lowerWith (steady_lowerName scope _ _) expr

theorem alike_of_lowerFields (htable : table.Built) (hother : other.Built)
    (hleft : (scope.lowerFields declared).run table = (.ok fields, later))
    (hright : (scope.lowerFields declared).run other = (.ok images, after)) :
    table.Develops later ∧ List.Forall₂ (FieldAlike (later.Twins after)) fields images := by
  have hagrees := steady_lowerFields scope declared htable hother
  rw [hleft, hright] at hagrees
  cases hagrees with
  | done development related => exact ⟨development.left, related⟩

/-- The types of lowered fields are in the table that lowering leaves. -/
theorem present_of_lowerFields (htable : table.Built)
    (hrun : (scope.lowerFields declared).run table = (.ok fields, later)) :
    later.Built ∧ ∀ field ∈ fields, field.type < later.size := by
  obtain ⟨hdevelops, halike⟩ := alike_of_lowerFields htable htable hrun hrun
  refine ⟨hdevelops.built, fun field hfield ↦ ?_⟩
  obtain ⟨twin, -, -, htwin⟩ := exists_of_mem_forall₂ halike hfield
  exact htwin.left_lt

theorem FieldsWritten.grows (h : scope.FieldsWritten table declared fields)
    (hgrows : table.Grows later) : scope.FieldsWritten later declared fields := by
  obtain ⟨before, after, hbefore, hrun, hafter⟩ := h
  exact ⟨before, after, hbefore, hrun, hafter.trans hgrows⟩

theorem FieldsWritten.alike (h : scope.FieldsWritten table declared fields)
    (hother : scope.FieldsWritten other declared images) :
    List.Forall₂ (FieldAlike (table.Twins other)) fields images := by
  obtain ⟨before, after, hbefore, hrun, hafter⟩ := h
  obtain ⟨before', after', hbefore', hrun', hafter'⟩ := hother
  obtain ⟨-, halike⟩ := alike_of_lowerFields hbefore hbefore' hrun hrun'
  exact halike.imp fun _ _ hfield ↦ ⟨hfield.1, hfield.2.grows hafter hafter'⟩

theorem classFields_defineClass (table : TypeTable) (name another : String)
    (fields : List Field) : (table.defineClass name fields).classFields another =
      if another = name then sortFields fields else table.classFields another := by
  rw [classFields, defineClass, List.lookup_cons]
  split_ifs with hname
  · rw [beq_iff_eq.mpr hname]
    rfl
  · rw [beq_eq_false_iff_ne.mpr hname]
    rfl

namespace Fills

theorem built (h : scope.Fills classes lowered table) : table.Built := by
  induction h with
  | empty => exact .empty
  | intern _ descriptor parts ih => exact ih.intern descriptor parts
  | lower _ expr lowers ih => exact ((steady_lower scope expr).develops ih lowers).1.built
  | define _ name declared _ lowers ih =>
      obtain ⟨hbuilt, hpresent⟩ := present_of_lowerFields ih lowers
      exact hbuilt.defineClass name _ hpresent

theorem develops_lower (h : scope.Fills classes lowered table) {expr : TypeExpr} {id : TypeId}
    (hrun : (scope.lower expr).run table = (.ok id, later)) : table.Develops later :=
  ((steady_lower scope expr).develops h.built hrun).1

theorem develops_lowerFields (h : scope.Fills classes lowered table)
    (hrun : (scope.lowerFields declared).run table = (.ok fields, later)) : table.Develops later :=
  (alike_of_lowerFields h.built h.built hrun hrun).1

theorem written (h : scope.Fills classes lowered table) {expr : TypeExpr} {id : TypeId}
    (hid : (expr, id) ∈ lowered) : Written table (scope.lower expr) id := by
  induction h with
  | empty => exact (List.not_mem_nil hid).elim
  | intern _ descriptor _ ih => exact (ih hid).grows (grows_intern _ descriptor)
  | lower filled expr lowers ih =>
      rcases List.mem_cons.mp hid with heq | hold
      · obtain ⟨rfl, rfl⟩ := Prod.mk.inj heq
        exact ⟨_, _, filled.built, lowers, Grows.refl _⟩
      · exact (ih hold).grows (filled.develops_lower lowers).grows
  | define filled _ _ _ lowers ih => exact (ih hid).grows (filled.develops_lowerFields lowers).grows

theorem classFields_of_mem (h : scope.Fills classes lowered table)
    (hclass : (name, declared) ∈ classes) :
    ∃ fields, scope.FieldsWritten table declared fields ∧
      table.classFields name = sortFields fields := by
  induction h with
  | empty => exact (List.not_mem_nil hclass).elim
  | intern _ descriptor _ ih =>
      obtain ⟨fields, hwritten, hfields⟩ := ih hclass
      exact ⟨fields, hwritten.grows (grows_intern _ descriptor),
        (classFields_intern _ descriptor name).trans hfields⟩
  | lower filled _ lowers ih =>
      obtain ⟨fields, hwritten, hfields⟩ := ih hclass
      have hdevelops := filled.develops_lower lowers
      exact ⟨fields, hwritten.grows hdevelops.grows, (hdevelops.classFields_eq name).trans hfields⟩
  | @define _ _ before later added filled another _ new lowers ih =>
      rw [classFields_defineClass]
      rcases List.mem_cons.mp hclass with heq | hold
      · obtain ⟨rfl, rfl⟩ := Prod.mk.inj heq
        exact ⟨added, ⟨before, later, filled.built, lowers, Grows.refl _⟩, if_pos rfl⟩
      · have hname : name ≠ another := by
          rintro rfl
          exact new (List.mem_map_of_mem hold)
        obtain ⟨fields, hwritten, hfields⟩ := ih hold
        have hdevelops := filled.develops_lowerFields lowers
        refine ⟨fields, hwritten.grows hdevelops.grows, ?_⟩
        rw [if_neg hname, hdevelops.classFields_eq, hfields]

theorem classFields_of_not_mem (h : scope.Fills classes lowered table)
    (hclass : name ∉ classes.map Prod.fst) : table.classFields name = [] := by
  induction h with
  | empty => rfl
  | intern _ descriptor _ ih => exact (classFields_intern _ descriptor name).trans (ih hclass)
  | lower filled _ lowers ih =>
      exact ((filled.develops_lower lowers).classFields_eq name).trans (ih hclass)
  | define filled another _ _ lowers ih =>
      obtain ⟨hname, hrest⟩ := List.ne_and_not_mem_of_not_mem_cons hclass
      rw [classFields_defineClass, if_neg hname,
        (filled.develops_lowerFields lowers).classFields_eq, ih hrest]

theorem corresponds (h : scope.Fills classes lowered table)
    (hother : scope.Fills others more other) (hperm : classes.Perm others) :
    Corresponds (table.Twins other) table other := by
  refine corresponds_twins h.built hother.built fun name ↦ ?_
  by_cases hname : name ∈ classes.map Prod.fst
  · obtain ⟨⟨_, declared⟩, hclass, rfl⟩ := List.mem_map.mp hname
    obtain ⟨fields, hwritten, hfields⟩ := h.classFields_of_mem hclass
    obtain ⟨images, hwritten', himages⟩ := hother.classFields_of_mem (hperm.mem_iff.mp hclass)
    rw [hfields, himages]
    exact forall₂_sortFields (hwritten.alike hwritten')
  · have hother' : name ∉ others.map Prod.fst := fun hmem ↦
      hname ((hperm.map Prod.fst).mem_iff.mpr hmem)
    rw [h.classFields_of_not_mem hname, hother.classFields_of_not_mem hother']
    exact .nil

theorem exists_lower (h : scope.Fills classes lowered table) {expr : TypeExpr}
    (hexpr : Resolvable (scope.lower expr)) : ∃ id later,
      (scope.lower expr).run table = (.ok id, later) ∧
        scope.Fills classes ((expr, id) :: lowered) later := by
  obtain ⟨id, later, hrun⟩ := ((steady_lower scope expr).exists_run_iff h.built).mpr hexpr
  exact ⟨id, later, hrun, h.lower expr hrun⟩

end Fills

/-- Two tables are filled with the same classes, in any order and with any other types in between.
Expressions that can be lowered at all can be lowered in either table.  Two expressions that have
been lowered in both, at whatever time, are the same type in both or in none, and they are
equivalent and assignable in the one table as they are in the other one. -/
theorem comparisons_agree (h : scope.Fills classes lowered table)
    (hother : scope.Fills others more other) (hperm : classes.Perm others) :
    (∀ first second, Resolvable (scope.lower first) → Resolvable (scope.lower second) →
      ∃ a c later, Interns table [scope.lower first, scope.lower second] [a, c] later ∧
        scope.Fills classes ((second, c) :: (first, a) :: lowered) later) ∧
    ∀ first second a b c d, (first, a) ∈ lowered → (first, b) ∈ more → (second, c) ∈ lowered →
      (second, d) ∈ more →
      (a = c ↔ b = d) ∧
      table.isEquivalent a c = other.isEquivalent b d ∧
      table.isEquivalent c a = other.isEquivalent d b ∧
      table.isAssignable a c = other.isAssignable b d ∧
      table.isAssignable c a = other.isAssignable d b := by
  refine ⟨fun first second hfirst hsecond ↦ ?_, fun first second a b c d ha hb hc hd ↦ ?_⟩
  · obtain ⟨a, middle, hrun, hmiddle⟩ := h.exists_lower hfirst
    obtain ⟨c, later, hrun', hlater⟩ := hmiddle.exists_lower hsecond
    exact ⟨a, c, later, .cons hrun (.singleton hrun'), hlater⟩
  · have hcorresponds := h.corresponds hother hperm
    have hab := (h.written ha).twins (hother.written hb) (steady_lower scope first)
    have hcd := (h.written hc).twins (hother.written hd) (steady_lower scope second)
    exact ⟨hcorresponds.eq_iff hab hcd,
      hcorresponds.isEquivalent_eq h.built hother.built hab hcd,
      hcorresponds.isEquivalent_eq h.built hother.built hcd hab,
      hcorresponds.isAssignable_eq h.built hother.built hab hcd,
      hcorresponds.isAssignable_eq h.built hother.built hcd hab⟩

def orNull (name : String) : TypeExpr := .union [.named name [], .named "null" []]

/-- A class whose objects may refer to an object of another class. -/
def linkTo (name target : String) : ClassDecl := (name, [⟨"next", false, orNull target⟩])

def leftFirst : TypeTable where
  descriptors := [.nominal "Right", .primitive .null, .union [0, 1], .nominal "Left",
    .union [1, 3]]
  classes := [("Right", [⟨"next", 4⟩]), ("Left", [⟨"next", 2⟩])]

def rightFirst : TypeTable where
  descriptors := [.primitive .number, .nominal "Left", .primitive .null, .union [1, 2], .array 0,
    .nominal "Right", .union [2, 5]]
  classes := [("Left", [⟨"next", 6⟩]), ("Right", [⟨"next", 3⟩])]

theorem leftFirst_fills : empty.Fills [linkTo "Right" "Left", linkTo "Left" "Right"]
    [(orNull "Right", 2), (orNull "Left", 4)] leftFirst := by
  have hempty : empty.Fills [] [] .empty := .empty
  have hleft := hempty.define "Left" [⟨"next", false, orNull "Right"⟩] (by decide) rfl
  have hright := hleft.define "Right" [⟨"next", false, orNull "Left"⟩] (by decide) rfl
  exact (hright.lower (orNull "Left") rfl).lower (orNull "Right") rfl

theorem rightFirst_fills : empty.Fills [linkTo "Left" "Right", linkTo "Right" "Left"]
    [(orNull "Left", 3), (orNull "Right", 6)] rightFirst := by
  have hempty : empty.Fills [] [] .empty := .empty
  have hnumber := hempty.intern (.primitive .number) (by decide)
  have hright := hnumber.define "Right" [⟨"next", false, orNull "Left"⟩] (by decide) rfl
  have hleft := (hright.intern (.array 0) (by decide)).define "Left"
    [⟨"next", false, orNull "Right"⟩] (by decide) rfl
  exact (hleft.lower (orNull "Right") rfl).lower (orNull "Left") rfl

theorem links_comparisons_agree :
    empty.Fills [linkTo "Right" "Left", linkTo "Left" "Right"]
      [(orNull "Right", 2), (orNull "Left", 4)] leftFirst ∧
    empty.Fills [linkTo "Left" "Right", linkTo "Right" "Left"]
      [(orNull "Left", 3), (orNull "Right", 6)] rightFirst ∧
    (∃ a c later, Interns leftFirst [empty.lower (orNull "Left"), empty.lower (orNull "Right")]
      [a, c] later) ∧
    leftFirst.isEquivalent 4 2 = true ∧ rightFirst.isEquivalent 3 6 = true ∧
    leftFirst.isAssignable 2 4 = rightFirst.isAssignable 6 3 := by
  have hperm : [linkTo "Right" "Left", linkTo "Left" "Right"].Perm
      [linkTo "Left" "Right", linkTo "Right" "Left"] := List.Perm.swap _ _ _
  obtain ⟨hlowers, hagree⟩ := comparisons_agree leftFirst_fills rightFirst_fills hperm
  obtain ⟨a, c, later, hinterns, -⟩ := hlowers (orNull "Left") (orNull "Right") ⟨_, _, rfl⟩
    ⟨_, _, rfl⟩
  obtain ⟨-, hequivalent, -, -, hassignable⟩ := hagree (orNull "Left") (orNull "Right") 4 3 2 6
    (List.mem_cons_of_mem _ List.mem_cons_self) List.mem_cons_self List.mem_cons_self
    (List.mem_cons_of_mem _ List.mem_cons_self)
  have hanswer : leftFirst.isEquivalent 4 2 = true := by decide
  exact ⟨leftFirst_fills, rightFirst_fills, ⟨a, c, later, hinterns⟩, hanswer,
    hequivalent.symm.trans hanswer, hassignable⟩

end Wiring.Scope
