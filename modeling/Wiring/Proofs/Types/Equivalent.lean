import Wiring.Proofs.Types.Corresponding

/-!
# Comparisons decide equivalence

Equivalence as a relation: containers of one name go argument by argument down to types that are the
same or that are assignable both ways and not rigid.  The comparison of two types answers yes for
the pairs of this relation and no for all others.
-/

namespace Wiring.TypeTable

variable {table : TypeTable} {a b : TypeId}

/-- Types of which either may stand for the other.  Only containers of one name are taken apart;
below anything else the parts are compared by assignability. -/
inductive Equivalent (table : TypeTable) : TypeId → TypeId → Prop where
  | same {a : TypeId} : Equivalent table a a
  | containers {a b : TypeId} {name : String} {items others : List TypeId}
      (left : table.get a = .generic name items) (right : table.get b = .generic name others)
      (length : items.length = others.length)
      (each : ∀ pair ∈ items.zip others, Equivalent table pair.1 pair.2) : Equivalent table a b
  | mutually {a b : TypeId}
      (apart : ∀ name items others, table.get a = .generic name items →
        table.get b ≠ .generic name others)
      (left : (table.get a).isRigid = false) (right : (table.get b).isRigid = false)
      (forth : table.Structural a b) (back : table.Structural b a) : Equivalent table a b

namespace Equivalent

theorem of_forall₂ {name : String} {items others : List TypeId}
    (left : table.get a = .generic name items) (right : table.get b = .generic name others)
    (each : List.Forall₂ table.Equivalent items others) : table.Equivalent a b := by
  obtain ⟨length, hpair⟩ := List.forall₂_iff_zip.mp each
  exact .containers left right length fun pair hmem ↦ hpair hmem

theorem forall₂ {name : String} {items others : List TypeId} (h : table.Equivalent a b)
    (left : table.get a = .generic name items) (right : table.get b = .generic name others) :
    List.Forall₂ table.Equivalent items others := by
  cases h with
  | same =>
      rw [left] at right
      rw [(Descriptor.generic.inj right).2]
      exact List.forall₂_same.mpr fun _ _ ↦ .same
  | containers hleft hright length each =>
      rw [left] at hleft
      rw [right] at hright
      obtain ⟨-, rfl⟩ := Descriptor.generic.inj hleft
      obtain ⟨-, rfl⟩ := Descriptor.generic.inj hright
      exact List.forall₂_iff_zip.mpr ⟨length, fun hmem ↦ each _ hmem⟩
  | mutually apart => exact (apart name items others left right).elim

theorem symm (h : table.Equivalent a b) : table.Equivalent b a := by
  induction h with
  | same => exact .same
  | @containers a b name items others left right length each ih =>
      have hflip : List.Forall₂ (fun y x ↦ table.Equivalent y x) others items := by
        refine List.Forall₂.flip (List.forall₂_iff_zip.mpr ⟨length, fun hmem ↦ ?_⟩)
        exact ih _ hmem
      exact .of_forall₂ right left hflip
  | mutually apart left right forth back =>
      exact .mutually (fun name items others hb ha ↦ apart name others items ha hb) right left back
        forth

/-- Equivalent types are assignable, in this direction and by symmetry in the other one. -/
theorem structural (h : table.Equivalent a b) : table.Structural a b := by
  induction h with
  | same => exact .refl _
  | containers left right length _ ih =>
      refine .of_accepts (.containers left right ?_)
      exact List.forall₂_iff_zip.mpr ⟨length, fun hmem ↦ ih _ hmem⟩
  | mutually _ _ _ forth _ => exact forth

theorem eq_of_isRigid (h : table.Equivalent a b) (hrigid : (table.get a).isRigid = true) :
    a = b := by
  cases h with
  | same => rfl
  | containers left => simp [left, Descriptor.isRigid] at hrigid
  | mutually _ left => simp [left] at hrigid

end Equivalent

/-- What equivalence asks of two types that are not containers of one name. -/
def reciprocal (table : TypeTable) (a b : TypeId) : Bool :=
  !(table.get a).isRigid && !(table.get b).isRigid &&
    table.isAssignable a b && table.isAssignable b a

theorem reciprocal_iff (h : table.Built) :
    table.reciprocal a b = true ↔ (table.get a).isRigid = false ∧
      (table.get b).isRigid = false ∧ table.Structural a b ∧ table.Structural b a := by
  simp only [reciprocal, Bool.and_eq_true, Bool.not_eq_true', isAssignable_iff h, and_assoc]

theorem equivalentStep_of_generic {deeper : TypeId → TypeId → Option Bool} {name : String}
    {items others : List TypeId} (hne : a ≠ b) (left : table.get a = .generic name items)
    (right : table.get b = .generic name others) :
    table.equivalentStep deeper a b = pairwise deeper items others := by
  rw [equivalentStep, if_neg hne, left, right]
  exact if_pos rfl

theorem equivalentStep_of_apart {deeper : TypeId → TypeId → Option Bool} (hne : a ≠ b)
    (apart : ∀ name items others, table.get a = .generic name items →
      table.get b ≠ .generic name others) :
    table.equivalentStep deeper a b = some (table.reciprocal a b) := by
  rw [equivalentStep, if_neg hne]
  dsimp only
  split
  · next name items other others left right =>
      have hname : name ≠ other := by
        rintro rfl
        exact apart name items others left right
      rw [if_neg hname, reciprocal, left, right]
  · rfl

theorem equivalent_of_equivalentWithin (h : table.Built) {depth : ℕ}
    (hyes : table.equivalentWithin depth a b = some true) : table.Equivalent a b := by
  induction depth generalizing a b with
  | zero => simp [equivalentWithin] at hyes
  | succ depth ih =>
      rw [equivalentWithin] at hyes
      by_cases hne : a = b
      · exact hne ▸ .same
      by_cases hcontainers : ∃ name items others, table.get a = .generic name items ∧
          table.get b = .generic name others
      · obtain ⟨name, items, others, left, right⟩ := hcontainers
        rw [equivalentStep_of_generic hne left right] at hyes
        exact .of_forall₂ left right ((forall₂_of_pairwise hyes).imp fun _ _ ↦ ih)
      · have apart : ∀ name items others, table.get a = .generic name items →
            table.get b ≠ .generic name others :=
          fun name items others left right ↦ hcontainers ⟨name, items, others, left, right⟩
        rw [equivalentStep_of_apart hne apart] at hyes
        obtain ⟨left, right, forth, back⟩ := (reciprocal_iff h).mp (Option.some.inj hyes)
        exact .mutually apart left right forth back

theorem equivalentWithin_ne_some_false (h : table.Built) (hab : table.Equivalent a b)
    (depth : ℕ) : table.equivalentWithin depth a b ≠ some false := by
  induction depth generalizing a b with
  | zero => simp [equivalentWithin]
  | succ depth ih =>
      rw [equivalentWithin]
      by_cases hne : a = b
      · simp [equivalentStep, hne]
      cases hab with
      | same => exact (hne rfl).elim
      | containers left right length each =>
          rw [equivalentStep_of_generic hne left right]
          refine pairwise_ne_some_false (List.forall₂_iff_zip.mpr ⟨length, fun hmem ↦ ?_⟩)
          exact ih (each _ hmem)
      | mutually apart left right forth back =>
          rw [equivalentStep_of_apart hne apart, (reciprocal_iff h).mpr ⟨left, right, forth, back⟩]
          simp

/-- Parts have smaller identities, so any depth beyond that of the first type gives an answer. -/
theorem equivalentWithin_ne_none (h : table.Built) {depth a b : ℕ}
    (hdepth : min a table.size < depth) : table.equivalentWithin depth a b ≠ none := by
  induction depth generalizing a b with
  | zero => omega
  | succ depth ih =>
      rw [equivalentWithin]
      by_cases hne : a = b
      · simp [equivalentStep, hne]
      by_cases hcontainers : ∃ name items others, table.get a = .generic name items ∧
          table.get b = .generic name others
      · obtain ⟨name, items, others, left, right⟩ := hcontainers
        rw [equivalentStep_of_generic hne left right]
        refine pairwise_ne_none fun x hx y _ ↦ ih (h.min_lt_of_mem_parts ?_ hdepth)
        rw [left]
        exact hx
      · rw [equivalentStep_of_apart hne fun name items others left right ↦
          hcontainers ⟨name, items, others, left, right⟩]
        simp

theorem answer_iff_equivalent (h : table.Built) {depth : ℕ} {answer : Bool}
    (hanswer : table.equivalentWithin depth a b = some answer) :
    answer = true ↔ table.Equivalent a b := by
  constructor
  · rintro rfl
    exact equivalent_of_equivalentWithin h hanswer
  · intro hab
    have hno := equivalentWithin_ne_some_false h hab depth
    cases answer with
    | true => rfl
    | false => exact (hno hanswer).elim

theorem equivalentWithin_isSome (h : table.Built) {depth : ℕ} (hdepth : table.size < depth)
    (a b : TypeId) : ∃ answer, table.equivalentWithin depth a b = some answer :=
  Option.ne_none_iff_exists'.mp
    (equivalentWithin_ne_none h ((Nat.min_le_right a table.size).trans_lt hdepth))

theorem isEquivalent_iff (h : table.Built) :
    table.isEquivalent a b = true ↔ table.Equivalent a b := by
  obtain ⟨answer, hanswer⟩ := equivalentWithin_isSome h (Nat.lt_succ_self _) a b
  rw [isEquivalent, hanswer, Option.getD_some]
  exact answer_iff_equivalent h hanswer

theorem equivalentWithin_eq_some (h : table.Built) {depth : ℕ} (hdepth : table.size < depth)
    (a b : TypeId) : table.equivalentWithin depth a b = some (table.isEquivalent a b) := by
  obtain ⟨answer, hanswer⟩ := equivalentWithin_isSome h hdepth a b
  have hsame : answer = true ↔ table.isEquivalent a b = true :=
    (answer_iff_equivalent h hanswer).trans (isEquivalent_iff h).symm
  rw [hanswer, Bool.eq_iff_iff.mpr hsame]

/-- In a table that is built, whatever shapes its classes have, equivalence holds of a type and
itself, does not depend on the order of the two types, and only holds of types that are assignable
both ways. -/
theorem isEquivalent_finer (h : table.Built) (a b : TypeId) :
    table.isEquivalent a a = true ∧ table.isEquivalent a b = table.isEquivalent b a ∧
      (table.isEquivalent a b = true →
        table.isAssignable a b = true ∧ table.isAssignable b a = true) := by
  refine ⟨(isEquivalent_iff h).mpr .same, ?_, fun hyes ↦ ?_⟩
  · rw [Bool.eq_iff_iff, isEquivalent_iff h, isEquivalent_iff h]
    exact ⟨Equivalent.symm, Equivalent.symm⟩
  · have hab : table.Equivalent a b := (isEquivalent_iff h).mp hyes
    exact ⟨(isAssignable_iff h).mpr hab.structural, (isAssignable_iff h).mpr hab.symm.structural⟩

/-- Lists of the two linked classes, `Left[]` with the identity 5 and `Right[]` with the identity
6. -/
def linkedLists : TypeTable :=
  ((linkedClasses.intern (.array 0)).2.intern (.array 1)).2

theorem linkedLists_built : linkedLists.Built :=
  (linkedClasses_built.intern (.array 0) (by decide)).intern (.array 1) (by decide)

theorem linkedLists_isEquivalent : linkedLists.Built ∧ linkedLists.isEquivalent 6 5 = true ∧
    linkedLists.isAssignable 5 6 = true ∧ linkedLists.isAssignable 6 5 = true := by
  have hyes : linkedLists.isEquivalent 5 6 = true := by decide
  obtain ⟨-, hcomm, hfiner⟩ := isEquivalent_finer linkedLists_built 5 6
  exact ⟨linkedLists_built, hcomm ▸ hyes, hfiner hyes⟩

end Wiring.TypeTable
