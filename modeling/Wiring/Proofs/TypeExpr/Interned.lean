import Wiring.Proofs.TypeExpr.Lowered

/-!
# Expressions lowered one after the other

A graph is declared by lowering expressions, each in the table that the last one has left.  Whether
they can be lowered and which types they are does not depend on the order, only their identities do.
-/

namespace Wiring

open TypeTable Lowering

namespace Lowering

/-- Whether a computation succeeds; it does so in every table that is built, or in none. -/
def Resolvable (L : Lowering TypeId) : Prop :=
  ∃ id later, L.run .empty = (.ok id, later)

/-- The table holds the type that the computation gives, under the identity. -/
def Written (table : TypeTable) (L : Lowering TypeId) (id : TypeId) : Prop :=
  ∃ before after : TypeTable, before.Built ∧ L.run before = (.ok id, after) ∧ after.Grows table

/-- Run in order from the first table on, the computations give the identities and leave the second
table. -/
inductive Interns : TypeTable → List (Lowering TypeId) → List TypeId → TypeTable → Prop where
  | nil (table : TypeTable) : Interns table [] [] table
  | cons {table later last : TypeTable} {L : Lowering TypeId} {Ls : List (Lowering TypeId)}
      {id : TypeId} {ids : List TypeId} (head : L.run table = (.ok id, later))
      (tail : Interns later Ls ids last) : Interns table (L :: Ls) (id :: ids) last

variable {table other later last : TypeTable} {L : Lowering TypeId} {id a b : TypeId}
  {Ls : List (Lowering TypeId)} {ids : List TypeId}

theorem Steady.developAlike (h : Steady Twins L) (htable : table.Built) (hother : other.Built)
    {after : TypeTable} (hleft : L.run table = (.ok a, later))
    (hright : L.run other = (.ok b, after)) :
    DevelopAlike table other later after ∧ later.Twins after a b := by
  have hagrees := h htable hother
  rw [hleft, hright] at hagrees
  cases hagrees with
  | done development related => exact ⟨development, related⟩

theorem Steady.develops (h : Steady Twins L) (htable : table.Built)
    (hrun : L.run table = (.ok id, later)) : table.Develops later ∧ id < later.size := by
  obtain ⟨development, htwins⟩ := h.developAlike htable htable hrun hrun
  exact ⟨development.left, htwins.left_lt⟩

theorem Steady.exists_run_iff (h : Steady Twins L) (htable : table.Built) :
    (∃ id later, L.run table = (.ok id, later)) ↔ Resolvable L := by
  have hagrees := h htable .empty
  generalize hleft : L.run table = left at hagrees
  generalize hright : L.run .empty = right at hagrees
  cases hagrees with
  | failed error later after =>
      constructor
      · rintro ⟨id, last, heq⟩
        cases heq
      · rintro ⟨id, last, heq⟩
        cases hright.symm.trans heq
  | @done later after a b _ _ =>
      exact ⟨fun _ ↦ ⟨b, after, hright⟩, fun _ ↦ ⟨a, later, rfl⟩⟩

theorem Written.grows (h : Written table L id) (hgrows : table.Grows later) :
    Written later L id := by
  obtain ⟨before, after, hbefore, hrun, hafter⟩ := h
  exact ⟨before, after, hbefore, hrun, hafter.trans hgrows⟩

theorem Written.lt_size (h : Written table L id) (hL : Steady Twins L) : id < table.size := by
  obtain ⟨before, after, hbefore, hrun, hafter⟩ := h
  exact (hL.develops hbefore hrun).2.trans_le hafter.size_le

theorem Written.twins (ha : Written table L a) (hb : Written other L b) (hL : Steady Twins L) :
    table.Twins other a b := by
  obtain ⟨before, after, hbefore, hrun, hafter⟩ := ha
  obtain ⟨before', after', hbefore', hrun', hafter'⟩ := hb
  obtain ⟨-, htwins⟩ := hL.developAlike hbefore hbefore' hrun hrun'
  exact htwins.grows hafter hafter'

theorem Interns.append {more : List (Lowering TypeId)} {others : List TypeId}
    (h : Interns table Ls ids later) (hmore : Interns later more others last) :
    Interns table (Ls ++ more) (ids ++ others) last := by
  induction h with
  | nil => exact hmore
  | cons head _ ih => exact .cons head (ih hmore)

theorem Interns.singleton (h : L.run table = (.ok id, later)) : Interns table [L] [id] later :=
  .cons h (.nil later)

theorem Interns.develops (h : Interns table Ls ids later) (hLs : ∀ L ∈ Ls, Steady Twins L)
    (htable : table.Built) : table.Develops later := by
  induction h with
  | nil table => exact .refl htable
  | cons head _ ih =>
      obtain ⟨hL, hLs⟩ := List.forall_mem_cons.mp hLs
      obtain ⟨hdevelops, -⟩ := hL.develops htable head
      exact hdevelops.trans (ih hLs hdevelops.built)

theorem Interns.written (h : Interns table Ls ids later) (hLs : ∀ L ∈ Ls, Steady Twins L)
    (htable : table.Built) : List.Forall₂ (Written later) Ls ids := by
  induction h with
  | nil => exact .nil
  | @cons table middle last L Ls id ids head tail ih =>
      obtain ⟨hL, hLs⟩ := List.forall_mem_cons.mp hLs
      obtain ⟨hdevelops, -⟩ := hL.develops htable head
      exact .cons ⟨table, middle, htable, head, (tail.develops hLs hdevelops.built).grows⟩
        (ih hLs hdevelops.built)

theorem exists_interns_iff (hLs : ∀ L ∈ Ls, Steady Twins L) (htable : table.Built) :
    (∃ ids later, Interns table Ls ids later) ↔ ∀ L ∈ Ls, Resolvable L := by
  induction Ls generalizing table with
  | nil => exact ⟨fun _ ↦ List.forall_mem_nil _, fun _ ↦ ⟨[], table, .nil table⟩⟩
  | cons L Ls ih =>
      obtain ⟨hL, hLs⟩ := List.forall_mem_cons.mp hLs
      rw [List.forall_mem_cons, ← hL.exists_run_iff htable]
      constructor
      · rintro ⟨_, last, @⟨⟩ | ⟨head, tail⟩⟩
        obtain ⟨hdevelops, -⟩ := hL.develops htable head
        exact ⟨⟨_, _, head⟩, (ih hLs hdevelops.built).mp ⟨_, _, tail⟩⟩
      · rintro ⟨⟨id, middle, head⟩, hrest⟩
        obtain ⟨hdevelops, -⟩ := hL.develops htable head
        obtain ⟨ids, last, tail⟩ := (ih hLs hdevelops.built).mpr hrest
        exact ⟨id :: ids, last, .cons head tail⟩

/-- If another table holds all that was written, then it holds every type that is new. -/
theorem Interns.exists_twin (h : Interns table Ls ids later) (hLs : ∀ L ∈ Ls, Steady Twins L)
    (htable : table.Built) (hwritten : ∀ L ∈ Ls, ∃ id, Written other L id) {id : TypeId}
    (hid : id < later.size) (hnew : table.size ≤ id) : ∃ twin, later.Twins other id twin := by
  induction h with
  | nil => exact absurd hid (Nat.not_lt_of_le hnew)
  | @cons table middle last L Ls _ _ head tail ih =>
      obtain ⟨hL, hLs⟩ := List.forall_mem_cons.mp hLs
      obtain ⟨⟨image, before, after, hbefore, hrun, hafter⟩, hwritten⟩ :=
        List.forall_mem_cons.mp hwritten
      obtain ⟨development, -⟩ := hL.developAlike htable hbefore head hrun
      have hlast := tail.develops hLs development.left.built
      by_cases hmiddle : id < middle.size
      · obtain ⟨twin, htwin⟩ := development.new id hmiddle hnew
        exact ⟨twin, htwin.grows hlast.grows hafter⟩
      · exact ih hLs development.left.built hwritten hid (Nat.le_of_not_lt hmiddle)

end Lowering

end Wiring
