import Mathlib.Data.List.GetD
import Mathlib.Data.List.Nodup
import Mathlib.Data.List.Perm.Subperm
import Mathlib.Logic.Equiv.Defs
import Wiring.Proofs.Types.Corresponding

/-!
# Tables with the same types

Two tables that hold the same types differ in the identities of these types only.  Every question
that is asked of types, assignability and equivalence among them, has the same answer in both.

Identities are numbers below a bound.  A list of these numbers, in some order, is a renumbering of
them, and extends to all numbers by leaving the others as they are.
-/

namespace Wiring

theorem getD_lt_of_perm_range {n i : ℕ} {image : List ℕ} (h : image.Perm (List.range n))
    (hi : i < n) : image.getD i i ∈ image := by
  have hlength : i < image.length := by rwa [h.length_eq, List.length_range]
  rw [List.getD_eq_getElem _ _ hlength]
  exact List.getElem_mem hlength

theorem exists_perm_of_perm_range {n : ℕ} {image : List ℕ} (h : image.Perm (List.range n)) :
    ∃ f : Equiv.Perm ℕ, (List.range n).map f = image ∧ ∀ i, n ≤ i → f i = i := by
  have hlength : image.length = n := by rw [h.length_eq, List.length_range]
  have hnodup : image.Nodup := h.nodup_iff.mpr List.nodup_range
  have hmem : ∀ i, i ∈ image ↔ i < n := fun i ↦ h.mem_iff.trans List.mem_range
  have houtside : ∀ i, n ≤ i → image.getD i i = i := fun i hi ↦
    List.getD_eq_default _ _ (hlength ▸ hi)
  have hinside : ∀ i, i < n → image.getD i i < n := fun i hi ↦
    (hmem _).mp (getD_lt_of_perm_range h hi)
  refine ⟨⟨fun i ↦ image.getD i i, fun i ↦ if i < n then image.idxOf i else i, ?_, ?_⟩, ?_,
    houtside⟩
  · intro i
    by_cases hi : i < n
    · have hlt : i < image.length := by rwa [hlength]
      simp only [hinside i hi, if_true]
      rw [List.getD_eq_getElem _ _ hlt]
      exact hnodup.idxOf_getElem i hlt
    · simp only [houtside i (Nat.le_of_not_lt hi), if_neg hi]
  · intro i
    by_cases hi : i < n
    · have hlt : image.idxOf i < image.length := List.idxOf_lt_length_iff.mpr ((hmem i).mpr hi)
      simp only [hi, if_true]
      rw [List.getD_eq_getElem _ _ hlt]
      exact List.getElem_idxOf hlt
    · simp only [if_neg hi, houtside i (Nat.le_of_not_lt hi)]
  · refine List.ext_getElem (by simp [hlength]) fun i hi hi' ↦ ?_
    rw [List.getElem_map, List.getElem_range]
    exact List.getD_eq_getElem _ _ hi'

/-- Two orders of the numbers below a bound are renumberings of each other. -/
theorem exists_perm_map_eq {n : ℕ} {numbers image : List ℕ} (hnumbers : numbers.Perm (List.range n))
    (himage : image.Perm (List.range n)) :
    ∃ f : Equiv.Perm ℕ, numbers.map f = image ∧ ∀ i, n ≤ i → f i = i := by
  obtain ⟨g, rfl, hg⟩ := exists_perm_of_perm_range hnumbers
  obtain ⟨f, rfl, hf⟩ := exists_perm_of_perm_range himage
  refine ⟨g.symm.trans f, by simp [List.map_map, Function.comp_def], fun i hi ↦ ?_⟩
  rw [Equiv.trans_apply, (Equiv.symm_apply_eq g).mpr (hg i hi).symm, hf i hi]

/-- The numbers that are given to the items of a list in blocks, and to the same items in another
order. -/
theorem exists_perm_blocks {α : Type} {n k : ℕ} {items others : List α} {A B : α → List ℕ}
    (hperm : items.Perm others) (hA : items.flatMap A = List.range n)
    (hB : others.flatMap B = List.range k) (hlength : ∀ a ∈ items, (A a).length = (B a).length) :
    n = k ∧ ∃ f : Equiv.Perm ℕ, (∀ a ∈ items, (A a).map f = B a) ∧ ∀ i, n ≤ i → f i = i := by
  have himage : (items.flatMap B).Perm (List.range k) := hB ▸ hperm.flatMap_right B
  have hsize : n = k := by
    have hsame : (items.flatMap A).length = (items.flatMap B).length := by
      rw [List.length_flatMap, List.length_flatMap, List.map_congr_left hlength]
    rwa [hA, himage.length_eq, List.length_range, List.length_range] at hsame
  obtain ⟨f, hf, houtside⟩ := exists_perm_map_eq (List.Perm.refl (List.range n)) (hsize ▸ himage)
  refine ⟨hsize, f, ?_, houtside⟩
  rw [← hA] at hf
  clear himage hA hB hperm
  induction items with
  | nil => exact List.forall_mem_nil _
  | cons item items ih =>
      obtain ⟨hfirst, hrest⟩ := List.forall_mem_cons.mp hlength
      rw [List.flatMap_cons, List.flatMap_cons, List.map_append] at hf
      obtain ⟨hitem, hitems⟩ := List.append_inj hf (by rw [List.length_map, hfirst])
      exact List.forall_mem_cons.mpr ⟨hitem, ih hrest hitems⟩

variable {f : Equiv.Perm TypeId}

def Field.rename (f : TypeId → TypeId) (field : Field) : Field :=
  { field with type := f field.type }

namespace Descriptor

/-- The descriptor with other identities, the members of a union again in order. -/
def rename (f : TypeId → TypeId) : Descriptor → Descriptor
  | generic name arguments => generic name (arguments.map f)
  | array element => array (f element)
  | tuple items => tuple (items.map f)
  | shape fields => shape (fields.map (Field.rename f))
  | union members => union (ascending (members.map f))
  | descriptor => descriptor

variable {descriptor : Descriptor}

theorem pairwise_of_rename_eq_union {f : TypeId → TypeId} {members : List TypeId}
    (h : descriptor.rename f = .union members) : members.Pairwise (· < ·) := by
  cases descriptor with
  | union old =>
      rw [← Descriptor.union.inj h]
      exact pairwise_ascending _
  | _ => simp [rename] at h

theorem alike_rename {R : TypeId → TypeId → Prop} {f : TypeId → TypeId}
    (h : ∀ part ∈ descriptor.parts, R part (f part)) :
    descriptor.Alike R (descriptor.rename f) := by
  cases descriptor with
  | generic name arguments => exact .generic name (forall₂_map_right_of_forall h)
  | array element => exact .array (h element List.mem_cons_self)
  | tuple items => exact .tuple (forall₂_map_right_of_forall h)
  | shape fields =>
      exact .shape (forall₂_map_right_of_forall fun field hfield ↦
        ⟨rfl, h field.type (List.mem_map_of_mem hfield)⟩)
  | union members =>
      refine .union (fun member hmember ↦ ⟨f member, ?_, h member hmember⟩) fun image himage ↦ ?_
      · exact mem_ascending.mpr (List.mem_map_of_mem hmember)
      · obtain ⟨member, hmember, rfl⟩ := List.mem_map.mp (mem_ascending.mp himage)
        exact ⟨member, hmember, h member hmember⟩
  | _ => exact .leaf rfl

end Descriptor

namespace TypeTable

/-- The second table holds the types of the first one under other identities. -/
structure Renumbered (f : Equiv.Perm TypeId) (table other : TypeTable) : Prop where
  built : table.Built
  otherBuilt : other.Built
  size : other.size = table.size
  get : ∀ id, other.get (f id) = (table.get id).rename f
  classFields : ∀ name, other.classFields name = (table.classFields name).map (Field.rename f)

variable {table other : TypeTable}

theorem Renumbered.corresponds (h : Renumbered f table other) :
    Corresponds (fun a b ↦ f a = b) table other where
  alike := by
    rintro a _ rfl
    rw [h.get]
    exact Descriptor.alike_rename fun _ _ ↦ rfl
  right_unique := fun _ _ _ hb hc ↦ hb.symm.trans hc
  left_unique := fun _ _ _ ha hb ↦ f.injective (ha.trans hb.symm)
  classFields := by
    intro name
    rw [h.classFields]
    exact forall₂_map_right_of_forall fun _ _ ↦ ⟨rfl, rfl⟩

theorem Renumbered.isEquivalent (h : Renumbered f table other) (a b : TypeId) :
    other.isEquivalent (f a) (f b) = table.isEquivalent a b :=
  (h.corresponds.isEquivalent_eq h.built h.otherBuilt rfl rfl).symm

theorem Renumbered.argumentOf? (h : Renumbered f table other) (container : String) (id : TypeId) :
    other.argumentOf? container (f id) = (table.argumentOf? container id).map f := by
  rw [TypeTable.argumentOf?, TypeTable.argumentOf?, h.get]
  cases table.get id with
  | generic name arguments =>
      rcases arguments with _ | ⟨argument, _ | _⟩
      · rfl
      · simp only [Descriptor.rename, List.map_cons, List.map_nil]
        split_ifs <;> rfl
      · rfl
  | _ => rfl

theorem Renumbered.setElement? (h : Renumbered f table other) (id : TypeId) :
    other.setElement? (f id) = (table.setElement? id).map f :=
  h.argumentOf? setName id

theorem Renumbered.isPromise (h : Renumbered f table other) (id : TypeId) :
    other.isPromise (f id) = table.isPromise id := by
  rw [TypeTable.isPromise, TypeTable.isPromise, promised?, promised?, h.argumentOf?,
    Option.isSome_map]

theorem Renumbered.awaited (h : Renumbered f table other) (id : TypeId) :
    other.awaited (f id) = f (table.awaited id) := by
  rw [TypeTable.awaited, TypeTable.awaited, promised?, promised?, h.argumentOf?, Option.getD_map]

/-- The twins of the identities of a table, in the order of these. -/
theorem exists_twins (htable : table.Built) (hother : other.Built)
    (hforth : ∀ id < table.size, ∃ twin, table.Twins other id twin)
    (hback : ∀ id < other.size, ∃ twin, other.Twins table id twin) :
    ∃ twins, List.Forall₂ (table.Twins other) (List.range table.size) twins ∧
      twins.Perm (List.range other.size) := by
  obtain ⟨twins, htwins⟩ := exists_forall₂ fun id hid ↦ hforth id (List.mem_range.mp hid)
  refine ⟨twins, htwins, (List.perm_ext_iff_of_nodup ?_ List.nodup_range).mpr fun id ↦ ?_⟩
  · exact nodup_of_forall₂ htwins List.nodup_range fun _ _ _ ha hb ↦ ha.left_unique htable hother hb
  · rw [List.mem_range]
    constructor
    · intro hid
      obtain ⟨twin, -, htwin⟩ := exists_of_mem_forall₂ htwins.flip hid
      exact Twins.right_lt htwin
    · intro hid
      obtain ⟨twin, htwin⟩ := hback id hid
      obtain ⟨image, himage, hsame⟩ :=
        exists_of_mem_forall₂ htwins (List.mem_range.mpr htwin.right_lt)
      rwa [← hsame.right_unique htable hother htwin.swap]

theorem exists_renumbered (htable : table.Built) (hother : other.Built)
    (hforth : ∀ id < table.size, ∃ twin, table.Twins other id twin)
    (hback : ∀ id < other.size, ∃ twin, other.Twins table id twin)
    (hclasses : ∀ name, List.Forall₂ (FieldAlike (table.Twins other)) (table.classFields name)
      (other.classFields name)) :
    ∃ f, Renumbered f table other ∧ ∀ a b, table.Twins other a b → f a = b := by
  obtain ⟨twins, htwins, hperm⟩ := exists_twins htable hother hforth hback
  have hsize : table.size = other.size := by
    simpa using htwins.length_eq.trans hperm.length_eq
  obtain ⟨f, rfl, houtside⟩ := exists_perm_of_perm_range (hsize ▸ hperm)
  have himage : ∀ a b, table.Twins other a b → f a = b := by
    intro a b hab
    have hself := List.forall₂_same.mp (List.forall₂_map_right_iff.mp htwins) a
      (List.mem_range.mpr hab.left_lt)
    exact hself.right_unique htable hother hab
  refine ⟨f, ⟨htable, hother, hsize.symm, fun id ↦ ?_, fun name ↦ ?_⟩, himage⟩
  · by_cases hid : id < table.size
    · obtain ⟨twin, htwin⟩ := hforth id hid
      have hrename : (table.get id).Alike (table.Twins other) ((table.get id).rename f) := by
        refine Descriptor.alike_rename fun part hpart ↦ ?_
        obtain ⟨image, hpart⟩ := hforth part (htable.partsDescend.lt_size hpart)
        rwa [himage part image hpart]
      rw [himage id twin htwin]
      refine htwin.alike.eq hrename (fun _ _ _ _ hb hc ↦ hb.right_unique htable hother hc)
        (hother.unionsAscend twin) fun members heq ↦ ?_
      exact Descriptor.pairwise_of_rename_eq_union heq
    · rw [houtside id (Nat.le_of_not_lt hid), get_of_size_le (Nat.le_of_not_lt hid),
        get_of_size_le (hsize ▸ Nat.le_of_not_lt hid)]
      rfl
  · rw [← List.forall₂_eq_eq_eq]
    refine List.Forall₂.flip (List.forall₂_map_left_iff.mpr ((hclasses name).imp ?_))
    rintro ⟨name, type⟩ ⟨_, twin⟩ ⟨rfl, htwin⟩
    rw [Field.rename, himage type twin htwin]
    rfl

end TypeTable

end Wiring
