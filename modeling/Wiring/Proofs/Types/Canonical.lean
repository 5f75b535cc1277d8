import Mathlib.Data.List.GetD
import Mathlib.Data.List.Sort
import Wiring.Proofs.Types.Built

/-!
# Tables in canonical form

A table that is built holds every descriptor once and the members of its unions in ascending order.
It grows at its end only, so what it said of an identity stays true.
-/

namespace Wiring

theorem pairwise_insertAscending {ids : List TypeId} (h : ids.Pairwise (· < ·)) (id : TypeId) :
    (insertAscending id ids).Pairwise (· < ·) := by
  induction ids with
  | nil => simp [insertAscending]
  | cons head tail ih =>
      obtain ⟨hhead, htail⟩ := List.pairwise_cons.mp h
      rw [insertAscending]
      split_ifs with hlt heq
      · refine List.pairwise_cons.mpr ⟨fun other hother ↦ ?_, h⟩
        rcases List.mem_cons.mp hother with rfl | hother
        · exact hlt
        · exact hlt.trans (hhead other hother)
      · exact h
      · refine List.pairwise_cons.mpr ⟨fun other hother ↦ ?_, ih htail⟩
        rcases mem_insertAscending.mp hother with rfl | hother
        · exact (Nat.lt_or_gt_of_ne heq).resolve_left hlt
        · exact hhead other hother

theorem pairwise_ascending (ids : List TypeId) : (ascending ids).Pairwise (· < ·) := by
  induction ids with
  | nil => exact List.Pairwise.nil
  | cons head tail ih => exact pairwise_insertAscending ih head

namespace TypeTable

/-- The second table holds the descriptors of the first one, with the same identities. -/
def Grows (table later : TypeTable) : Prop :=
  table.descriptors <+: later.descriptors

variable {table later last : TypeTable} {a b : TypeId}

theorem Grows.refl (table : TypeTable) : table.Grows table := List.prefix_refl _

theorem Grows.trans (h : table.Grows later) (hlast : later.Grows last) : table.Grows last :=
  List.IsPrefix.trans h hlast

theorem Grows.size_le (h : table.Grows later) : table.size ≤ later.size := h.length_le

theorem Grows.get_eq (h : table.Grows later) (ha : a < table.size) : later.get a = table.get a := by
  obtain ⟨more, hmore⟩ := h
  rw [get, get, ← hmore, List.getD_append _ _ _ _ ha]

theorem Grows.argumentOf?_eq (h : table.Grows later) (ha : a < table.size) (container : String) :
    later.argumentOf? container a = table.argumentOf? container a := by
  rw [argumentOf?, argumentOf?, h.get_eq ha]

theorem Grows.isPromise_eq (h : table.Grows later) (ha : a < table.size) :
    later.isPromise a = table.isPromise a :=
  congrArg Option.isSome (h.argumentOf?_eq ha promiseName)

theorem Grows.awaited_eq (h : table.Grows later) (ha : a < table.size) :
    later.awaited a = table.awaited a :=
  congrArg (Option.getD · a) (h.argumentOf?_eq ha promiseName)

theorem grows_add (table : TypeTable) (descriptor : Descriptor) :
    table.Grows (table.add descriptor).2 := by
  rw [add]
  split
  · exact Grows.refl table
  · exact List.prefix_append _ _

theorem grows_intern (table : TypeTable) (descriptor : Descriptor) :
    table.Grows (table.intern descriptor).2 := by
  obtain ⟨id, heq⟩ | ⟨canonical, heq, -⟩ := table.intern_eq descriptor
  · rw [heq]
    exact Grows.refl table
  · rw [heq]
    exact table.grows_add canonical

theorem get_of_idxOf?_eq_some {descriptor : Descriptor}
    (h : table.descriptors.idxOf? descriptor = some a) :
    a < table.size ∧ table.get a = descriptor := by
  obtain ⟨hlt, heq, -⟩ := List.idxOf?_eq_some_iff.mp h
  exact ⟨hlt, by rw [get, List.getD_eq_getElem _ _ hlt, heq]⟩

/-- The answer is an identity of the descriptor and the only one that may be new. -/
theorem add_spec (table : TypeTable) (descriptor : Descriptor) :
    (table.add descriptor).1 < (table.add descriptor).2.size ∧
      (table.add descriptor).2.get (table.add descriptor).1 = descriptor ∧
      ∀ id < (table.add descriptor).2.size, id < table.size ∨ id = (table.add descriptor).1 := by
  rw [add]
  split
  · next id hfound =>
      obtain ⟨hlt, hget⟩ := get_of_idxOf?_eq_some hfound
      exact ⟨hlt, hget, fun id hid ↦ Or.inl hid⟩
  · refine ⟨by simp [size], get_append_size table descriptor, fun id hid ↦ ?_⟩
    have hle : id < table.size + 1 := by simpa [size] using hid
    exact (Nat.lt_succ_iff_lt_or_eq.mp hle)

theorem lt_or_eq_of_lt_size_intern {descriptor : Descriptor}
    (h : a < (table.intern descriptor).2.size) :
    a < table.size ∨ a = (table.intern descriptor).1 := by
  obtain ⟨id, heq⟩ | ⟨canonical, heq, -⟩ := table.intern_eq descriptor
  · rw [heq] at h
    exact Or.inl h
  · rw [heq] at h ⊢
    exact (table.add_spec canonical).2.2 a h

theorem classes_intern (table : TypeTable) (descriptor : Descriptor) :
    (table.intern descriptor).2.classes = table.classes := by
  obtain ⟨id, heq⟩ | ⟨canonical, heq, -⟩ := table.intern_eq descriptor
  · rw [heq]
  · rw [heq, add]
    split <;> rfl

theorem nodup_add (h : table.descriptors.Nodup) (descriptor : Descriptor) :
    (table.add descriptor).2.descriptors.Nodup := by
  rw [add]
  split
  · exact h
  · next hnew =>
      have hfresh := List.idxOf?_eq_none_iff.mp hnew
      rw [List.nodup_append]
      refine ⟨h, List.nodup_singleton _, fun old hold other hother heq ↦ hfresh ?_⟩
      rw [← List.mem_singleton.mp hother, ← heq]
      exact hold

theorem Built.nodup (h : table.Built) : table.descriptors.Nodup := by
  induction h with
  | empty => exact List.nodup_nil
  | @intern table _ descriptor _ ih =>
      obtain ⟨id, heq⟩ | ⟨canonical, heq, -⟩ := table.intern_eq descriptor
      · rw [heq]
        exact ih
      · rw [heq]
        exact nodup_add ih canonical
  | defineClass _ _ _ _ ih => exact ih

theorem Built.eq_of_get_eq (h : table.Built) (ha : a < table.size) (hb : b < table.size)
    (hget : table.get a = table.get b) : a = b := by
  rw [get, get, List.getD_eq_getElem _ _ ha, List.getD_eq_getElem _ _ hb] at hget
  exact h.nodup.getElem_inj_iff.mp hget

/-- The members of every union ascend. -/
def UnionsAscend (table : TypeTable) : Prop :=
  ∀ id members, table.get id = .union members → members.Pairwise (· < ·)

theorem UnionsAscend.add (h : table.UnionsAscend) {descriptor : Descriptor}
    (hnew : ∀ members, descriptor = .union members → members.Pairwise (· < ·)) :
    (table.add descriptor).2.UnionsAscend := by
  intro id members hget
  obtain ⟨-, hadded, honly⟩ := table.add_spec descriptor
  by_cases hid : id < (table.add descriptor).2.size
  · rcases honly id hid with hold | rfl
    · exact h id members ((table.grows_add descriptor).get_eq hold ▸ hget)
    · exact hnew members (hadded.symm.trans hget)
  · rw [get_of_size_le (Nat.le_of_not_lt hid)] at hget
    simp at hget

theorem Built.unionsAscend (h : table.Built) : table.UnionsAscend := by
  induction h with
  | empty =>
      intro id members hget
      simp [get, TypeTable.empty] at hget
  | @intern table _ descriptor _ ih =>
      cases descriptor with
      | union ids =>
          rw [TypeTable.intern]
          split
          · exact ih
          · refine ih.add fun members heq ↦ ?_
            rw [← Descriptor.union.inj heq]
            exact pairwise_ascending _
      | shape fields => exact ih.add fun members heq ↦ Descriptor.noConfusion heq
      | _ => exact ih.add fun members heq ↦ Descriptor.noConfusion heq
  | defineClass _ _ _ _ ih => exact ih

/-- A table that is built and what it has become by interning. -/
structure Develops (table later : TypeTable) : Prop where
  built : later.Built
  grows : table.Grows later
  classes : later.classes = table.classes

theorem Develops.refl (h : table.Built) : table.Develops table := ⟨h, Grows.refl table, rfl⟩

theorem Develops.trans (h : table.Develops later) (hlast : later.Develops last) :
    table.Develops last :=
  ⟨hlast.built, h.grows.trans hlast.grows, hlast.classes.trans h.classes⟩

theorem Develops.classFields_eq (h : table.Develops later) (name : String) :
    later.classFields name = table.classFields name := by
  rw [classFields, h.classes, classFields]

theorem Built.develops (h : table.Built) {descriptor : Descriptor}
    (hparts : ∀ part ∈ descriptor.parts, part < table.size) :
    table.Develops (table.intern descriptor).2 :=
  ⟨h.intern descriptor hparts, grows_intern table descriptor, classes_intern table descriptor⟩

end TypeTable

end Wiring
