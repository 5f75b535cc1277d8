import Wiring.Proofs.Lists
import Wiring.Proofs.Types.Canonical

/-!
# The same type in two tables

Tables that have interned types in different orders give them different identities.  Two identities
are twins when they stand for one type: some relation between the tables holds of them and relates
identities of alike descriptors only.  In tables that are built an identity has one twin at most,
and interning alike descriptors gives twins.
-/

namespace Wiring

variable {R S : TypeId → TypeId → Prop}

/-- Fields of one name with related types. -/
def FieldAlike (R : TypeId → TypeId → Prop) (field other : Field) : Prop :=
  field.name = other.name ∧ R field.type other.type

namespace Descriptor

/-- Whether a descriptor is of a kind that has no parts. -/
def isLeaf : Descriptor → Bool
  | dynamic | primitive _ | literal _ | enumeration _ | nominal _ => true
  | _ => false

/-- Descriptors of one form with related parts.  Unions have related sets of members. -/
inductive Alike (R : TypeId → TypeId → Prop) : Descriptor → Descriptor → Prop where
  | leaf {descriptor : Descriptor} (simple : descriptor.isLeaf = true) :
      Alike R descriptor descriptor
  | generic (name : String) {as bs : List TypeId} (each : List.Forall₂ R as bs) :
      Alike R (.generic name as) (.generic name bs)
  | array {a b : TypeId} (element : R a b) : Alike R (.array a) (.array b)
  | tuple {as bs : List TypeId} (each : List.Forall₂ R as bs) : Alike R (.tuple as) (.tuple bs)
  | shape {fields others : List Field} (each : List.Forall₂ (FieldAlike R) fields others) :
      Alike R (.shape fields) (.shape others)
  | union {as bs : List TypeId} (left : ∀ a ∈ as, ∃ b ∈ bs, R a b)
      (right : ∀ b ∈ bs, ∃ a ∈ as, R a b) : Alike R (.union as) (.union bs)

variable {descriptor other another : Descriptor}

theorem Alike.imp (h : descriptor.Alike R other) (hRS : ∀ a b, R a b → S a b) :
    descriptor.Alike S other := by
  cases h with
  | leaf simple => exact .leaf simple
  | generic name each => exact .generic name (each.imp hRS)
  | array element => exact .array (hRS _ _ element)
  | tuple each => exact .tuple (each.imp hRS)
  | shape each => exact .shape (each.imp fun _ _ hfield ↦ ⟨hfield.1, hRS _ _ hfield.2⟩)
  | union left right =>
      refine .union (fun a ha ↦ ?_) (fun b hb ↦ ?_)
      · obtain ⟨b, hb, hab⟩ := left a ha
        exact ⟨b, hb, hRS a b hab⟩
      · obtain ⟨a, ha, hab⟩ := right b hb
        exact ⟨a, ha, hRS a b hab⟩

theorem Alike.swap (h : descriptor.Alike R other) : other.Alike (fun a b ↦ R b a) descriptor := by
  cases h with
  | leaf simple => exact .leaf simple
  | generic name each => exact .generic name each.flip
  | array element => exact .array element
  | tuple each => exact .tuple each.flip
  | shape each => exact .shape (each.flip.imp fun _ _ hfield ↦ ⟨hfield.1.symm, hfield.2⟩)
  | union left right => exact .union right left

theorem Alike.exists_of_mem_parts (h : descriptor.Alike R other) {a : TypeId}
    (ha : a ∈ descriptor.parts) : ∃ b, R a b := by
  cases h with
  | leaf simple => cases descriptor <;> simp_all [isLeaf, parts]
  | generic name each => exact (exists_of_mem_forall₂ each ha).imp fun _ hb ↦ hb.2
  | array element => exact ⟨_, List.mem_singleton.mp ha ▸ element⟩
  | tuple each => exact (exists_of_mem_forall₂ each ha).imp fun _ hb ↦ hb.2
  | shape each =>
      obtain ⟨field, hfield, rfl⟩ := List.mem_map.mp ha
      obtain ⟨other, -, hother⟩ := exists_of_mem_forall₂ each hfield
      exact ⟨other.type, hother.2⟩
  | union left right => exact (left a ha).imp fun _ hb ↦ hb.2

theorem alike_union_of_forall₂ {as bs : List TypeId} (h : List.Forall₂ R as bs) :
    (union as).Alike R (union bs) :=
  .union (fun _ ha ↦ exists_of_mem_forall₂ h ha) fun _ hb ↦ exists_of_mem_forall₂ h.flip hb

end Descriptor

/-- A descriptor determines those that it is alike to, if its parts do. -/
theorem Descriptor.Alike.eq {descriptor other another : Descriptor} (h : descriptor.Alike R other)
    (hanother : descriptor.Alike R another)
    (hunique : ∀ a ∈ descriptor.parts, ∀ b c, R a b → R a c → b = c)
    (hother : ∀ members, other = .union members → members.Pairwise (· < ·))
    (hmembers : ∀ members, another = .union members → members.Pairwise (· < ·)) :
    other = another := by
  cases h with
  | leaf simple => cases hanother <;> simp_all [Descriptor.isLeaf]
  | generic name each =>
      cases hanother with
      | leaf simple => simp [Descriptor.isLeaf] at simple
      | generic _ others => rw [eq_of_forall₂ each others hunique]
  | array element =>
      cases hanother with
      | leaf simple => simp [Descriptor.isLeaf] at simple
      | array others => rw [hunique _ List.mem_cons_self _ _ element others]
  | tuple each =>
      cases hanother with
      | leaf simple => simp [Descriptor.isLeaf] at simple
      | tuple others => rw [eq_of_forall₂ each others hunique]
  | shape each =>
      cases hanother with
      | leaf simple => simp [Descriptor.isLeaf] at simple
      | shape others =>
          rw [eq_of_forall₂ each others]
          rintro field hfield ⟨name, type⟩ ⟨name', type'⟩ ⟨rfl, htype⟩ ⟨rfl, htype'⟩
          have heq : type = type' := hunique _ (List.mem_map_of_mem hfield) _ _ htype htype'
          rw [heq]
  | @union as bs left right =>
      cases hanother with
      | leaf simple => simp [Descriptor.isLeaf] at simple
      | @union _ cs left' right' =>
          congr 1
          refine (hother bs rfl).eq_of_mem_iff (hmembers cs rfl) fun b ↦ ⟨fun hb ↦ ?_, fun hb ↦ ?_⟩
          · obtain ⟨a, ha, hab⟩ := right b hb
            obtain ⟨c, hc, hac⟩ := left' a ha
            rwa [hunique a ha b c hab hac]
          · obtain ⟨a, ha, hab⟩ := right' b hb
            obtain ⟨c, hc, hac⟩ := left a ha
            rwa [hunique a ha b c hab hac]

namespace TypeTable

/-! ## Twins -/

/-- The identities stand for the same type, each in its own table. -/
def Twins (table other : TypeTable) (a b : TypeId) : Prop :=
  ∃ R : TypeId → TypeId → Prop, R a b ∧ ∀ x y, R x y →
    x < table.size ∧ y < other.size ∧ (table.get x).Alike R (other.get y)

variable {table other later after : TypeTable} {a b c : TypeId}

theorem Twins.left_lt (h : table.Twins other a b) : a < table.size := by
  obtain ⟨R, hab, hR⟩ := h
  exact (hR a b hab).1

theorem Twins.right_lt (h : table.Twins other a b) : b < other.size := by
  obtain ⟨R, hab, hR⟩ := h
  exact (hR a b hab).2.1

theorem Twins.alike (h : table.Twins other a b) :
    (table.get a).Alike (table.Twins other) (other.get b) := by
  obtain ⟨R, hab, hR⟩ := h
  exact (hR a b hab).2.2.imp fun x y hxy ↦ ⟨R, hxy, hR⟩

theorem Twins.intro (ha : a < table.size) (hb : b < other.size)
    (h : (table.get a).Alike (table.Twins other) (other.get b)) : table.Twins other a b := by
  refine ⟨fun x y ↦ x = a ∧ y = b ∨ table.Twins other x y, Or.inl ⟨rfl, rfl⟩, ?_⟩
  rintro x y (⟨rfl, rfl⟩ | hxy)
  · exact ⟨ha, hb, h.imp fun _ _ hpart ↦ Or.inr hpart⟩
  · exact ⟨hxy.left_lt, hxy.right_lt, hxy.alike.imp fun _ _ hpart ↦ Or.inr hpart⟩

theorem Twins.swap (h : table.Twins other a b) : other.Twins table b a := by
  obtain ⟨R, hab, hR⟩ := h
  refine ⟨fun x y ↦ R y x, hab, fun x y hyx ↦ ?_⟩
  obtain ⟨hy, hx, halike⟩ := hR y x hyx
  exact ⟨hx, hy, halike.swap⟩

theorem Twins.grows (h : table.Twins other a b) (hlater : table.Grows later)
    (hafter : other.Grows after) : later.Twins after a b := by
  obtain ⟨R, hab, hR⟩ := h
  refine ⟨R, hab, fun x y hxy ↦ ?_⟩
  obtain ⟨hx, hy, halike⟩ := hR x y hxy
  rw [hlater.get_eq hx, hafter.get_eq hy]
  exact ⟨hx.trans_le hlater.size_le, hy.trans_le hafter.size_le, halike⟩

/-- The induction is on the identity in the first table, whose parts are smaller. -/
theorem Twins.right_unique (htable : table.Built) (hother : other.Built)
    (hb : table.Twins other a b) (hc : table.Twins other a c) : b = c := by
  induction a using Nat.strong_induction_on generalizing b c with
  | _ a ih =>
      have heq : other.get b = other.get c :=
        hb.alike.eq hc.alike (fun part hpart _ _ ↦ ih part (htable.partsDescend a part hpart))
          (hother.unionsAscend b) (hother.unionsAscend c)
      exact hother.eq_of_get_eq hb.right_lt hc.right_lt heq

theorem Twins.left_unique (htable : table.Built) (hother : other.Built)
    (ha : table.Twins other a c) (hb : table.Twins other b c) : a = b :=
  ha.swap.right_unique hother htable hb.swap

/-- Types that two tables have inherited from a third one are their own twins. -/
theorem twins_self_of_grows {origin : TypeTable} (horigin : origin.Built)
    (htable : origin.Grows table) (hother : origin.Grows other) (ha : a < origin.size) :
    table.Twins other a a := by
  refine ⟨fun x y ↦ x = y ∧ x < origin.size, ⟨rfl, ha⟩, ?_⟩
  rintro x _ ⟨rfl, hx⟩
  refine ⟨hx.trans_le htable.size_le, hx.trans_le hother.size_le, ?_⟩
  rw [htable.get_eq hx, hother.get_eq hx]
  have hparts : ∀ part ∈ (origin.get x).parts, part = part ∧ part < origin.size :=
    fun part hpart ↦ ⟨rfl, horigin.partsDescend.lt_size hpart⟩
  cases hget : origin.get x with
  | generic name arguments =>
      rw [hget] at hparts
      exact .generic name (List.forall₂_same.mpr hparts)
  | array element =>
      rw [hget] at hparts
      exact .array (hparts element List.mem_cons_self)
  | tuple items =>
      rw [hget] at hparts
      exact .tuple (List.forall₂_same.mpr hparts)
  | shape fields =>
      rw [hget] at hparts
      exact .shape (List.forall₂_same.mpr fun field hfield ↦
        ⟨rfl, hparts field.type (List.mem_map_of_mem hfield)⟩)
  | union members =>
      rw [hget] at hparts
      exact .union (fun member hmember ↦ ⟨member, hmember, hparts member hmember⟩)
        (fun member hmember ↦ ⟨member, hmember, hparts member hmember⟩)
  | _ => exact .leaf rfl

theorem Twins.argumentOf? (h : table.Twins other a b) (container : String) :
    Option.Rel (table.Twins other) (table.argumentOf? container a)
      (other.argumentOf? container b) := by
  have halike := h.alike
  rw [TypeTable.argumentOf?, TypeTable.argumentOf?]
  generalize table.get a = descriptor at halike
  generalize other.get b = another at halike
  cases halike with
  | leaf simple => cases descriptor <;> first | exact .none | simp [Descriptor.isLeaf] at simple
  | generic name each =>
      cases each with
      | nil => exact .none
      | cons hfirst hrest =>
          cases hrest with
          | nil =>
              dsimp only
              split_ifs
              · exact .some hfirst
              · exact .none
          | cons _ _ => exact .none
  | _ => exact .none

theorem Twins.isPromise_eq (h : table.Twins other a b) : table.isPromise a = other.isPromise b := by
  have hargument := h.argumentOf? promiseName
  rw [isPromise, isPromise, promised?, promised?]
  generalize table.argumentOf? promiseName a = argument at hargument ⊢
  generalize other.argumentOf? promiseName b = another at hargument ⊢
  cases hargument <;> rfl

theorem forall₂_insertField {field another : Field} {fields others : List Field}
    (hfield : FieldAlike R field another) (h : List.Forall₂ (FieldAlike R) fields others) :
    List.Forall₂ (FieldAlike R) (insertField field fields) (insertField another others) := by
  induction h with
  | nil => exact .cons hfield .nil
  | cons hhead htail ih =>
      rw [insertField, insertField, hfield.1, hhead.1]
      split_ifs
      · exact .cons hfield (.cons hhead htail)
      · exact .cons hhead ih

theorem forall₂_sortFields {fields others : List Field}
    (h : List.Forall₂ (FieldAlike R) fields others) :
    List.Forall₂ (FieldAlike R) (sortFields fields) (sortFields others) := by
  induction h with
  | nil => exact .nil
  | cons hhead _ ih => exact forall₂_insertField hhead ih

theorem forall₂_dropRepeats {fields others : List Field}
    (h : List.Forall₂ (FieldAlike R) fields others) :
    List.Forall₂ (FieldAlike R) (dropRepeats fields) (dropRepeats others) := by
  induction h with
  | nil => exact .nil
  | @cons field another fields others hhead _ ih =>
      rw [dropRepeats, dropRepeats]
      cases hfields : dropRepeats fields with
      | nil =>
          rw [hfields] at ih
          rw [List.forall₂_nil_left_iff.mp ih]
          exact .cons hhead .nil
      | cons next later =>
          rw [hfields] at ih
          obtain ⟨next', later', hnext, hlater, heq⟩ := List.forall₂_cons_left_iff.mp ih
          rw [heq]
          dsimp only
          rw [hhead.1, hnext.1]
          split_ifs
          · exact .cons hhead hlater
          · exact .cons hhead (.cons hnext hlater)

theorem forall₂_canonicalFields {fields others : List Field}
    (h : List.Forall₂ (FieldAlike R) fields others) :
    List.Forall₂ (FieldAlike R) (canonicalFields fields) (canonicalFields others) :=
  forall₂_dropRepeats (forall₂_sortFields h)

theorem Twins.exists_member (h : table.Twins other a b) {x : TypeId} (hx : x ∈ table.members a) :
    ∃ y ∈ other.members b, table.Twins other x y := by
  have halike := h.alike
  rw [members] at hx ⊢
  generalize hdescriptor : table.get a = descriptor at halike hx
  generalize hanother : other.get b = another at halike ⊢
  cases halike with
  | union left right => exact left x hx
  | leaf simple =>
      have hwhole : ∀ members, descriptor ≠ .union members := by
        rintro members rfl
        simp [Descriptor.isLeaf] at simple
      split at hx
      · next members => exact (hwhole members rfl).elim
      · exact ⟨b, List.mem_singleton_self b, List.mem_singleton.mp hx ▸ h⟩
  | _ => exact ⟨b, List.mem_singleton_self b, List.mem_singleton.mp hx ▸ h⟩

/-- The members of a union of related types, brought into order. -/
theorem exists_twin_of_mem_flat {as bs : List TypeId}
    (h : ∀ a ∈ as, ∃ b ∈ bs, table.Twins other a b) {x : TypeId}
    (hx : x ∈ ascending (as.flatMap table.members)) :
    ∃ y ∈ ascending (bs.flatMap other.members), table.Twins other x y := by
  obtain ⟨a, ha, hx⟩ := List.mem_flatMap.mp (mem_ascending.mp hx)
  obtain ⟨b, hb, hab⟩ := h a ha
  obtain ⟨y, hy, hxy⟩ := hab.exists_member hx
  exact ⟨y, mem_ascending.mpr (List.mem_flatMap.mpr ⟨b, hb, hy⟩), hxy⟩

theorem twins_add {descriptor another : Descriptor}
    (h : descriptor.Alike (table.Twins other) another) :
    (table.add descriptor).2.Twins (other.add another).2 (table.add descriptor).1
      (other.add another).1 := by
  obtain ⟨hleft, hdescriptor, -⟩ := table.add_spec descriptor
  obtain ⟨hright, hanother, -⟩ := other.add_spec another
  refine Twins.intro hleft hright ?_
  rw [hdescriptor, hanother]
  exact h.imp fun _ _ hpart ↦ hpart.grows (table.grows_add _) (other.grows_add _)

theorem eq_singleton_of_pairwise {ids : List TypeId} (h : ids.Pairwise (· < ·)) (ha : a ∈ ids)
    (honly : ∀ id ∈ ids, id = a) : ids = [a] := by
  refine h.eq_of_mem_iff (List.pairwise_singleton _ a) fun id ↦ ?_
  rw [List.mem_singleton]
  exact ⟨honly id, fun heq ↦ heq ▸ ha⟩

/-- If one of two related lists holds a single identity, then so does the other. -/
theorem exists_singleton {xs ys : List TypeId} (hys : ys.Pairwise (· < ·))
    (hleft : ∀ x ∈ xs, ∃ y ∈ ys, R x y) (hright : ∀ y ∈ ys, ∃ x ∈ xs, R x y)
    (hunique : ∀ b c, R a b → R a c → b = c) (hxs : xs = [a]) : ∃ b, ys = [b] ∧ R a b := by
  subst hxs
  obtain ⟨b, hb, hab⟩ := hleft a List.mem_cons_self
  refine ⟨b, eq_singleton_of_pairwise hys hb fun y hy ↦ ?_, hab⟩
  obtain ⟨x, hx, hxy⟩ := hright y hy
  rw [List.mem_singleton.mp hx] at hxy
  exact hunique y b hxy hab

theorem twins_intern (htable : table.Built) (hother : other.Built) {descriptor another : Descriptor}
    (h : descriptor.Alike (table.Twins other) another) :
    (table.intern descriptor).2.Twins (other.intern another).2 (table.intern descriptor).1
      (other.intern another).1 := by
  cases h with
  | leaf simple =>
      cases descriptor <;>
        first | exact twins_add (.leaf simple) | simp [Descriptor.isLeaf] at simple
  | generic name each => exact twins_add (.generic name each)
  | array element => exact twins_add (.array element)
  | tuple each => exact twins_add (.tuple each)
  | shape each => exact twins_add (.shape (forall₂_canonicalFields each))
  | @union as bs left right =>
      have hleft : ∀ x ∈ ascending (as.flatMap table.members),
          ∃ y ∈ ascending (bs.flatMap other.members), table.Twins other x y :=
        fun x ↦ exists_twin_of_mem_flat left
      have hright : ∀ y ∈ ascending (bs.flatMap other.members),
          ∃ x ∈ ascending (as.flatMap table.members), table.Twins other x y := by
        intro y hy
        have hback : ∀ b ∈ bs, ∃ a ∈ as, other.Twins table b a := by
          intro b hb
          obtain ⟨a, ha, hab⟩ := right b hb
          exact ⟨a, ha, hab.swap⟩
        obtain ⟨x, hx, hyx⟩ := exists_twin_of_mem_flat hback hy
        exact ⟨x, hx, hyx.swap⟩
      rw [intern, intern]
      split
      · next a hsingle =>
          obtain ⟨b, hb, hab⟩ := exists_singleton (pairwise_ascending _) hleft hright
            (fun _ _ hb hc ↦ hb.right_unique htable hother hc) hsingle
          rw [hb]
          exact hab
      · next hseveral =>
          split
          · next b hsingle =>
              obtain ⟨a, ha, -⟩ := exists_singleton (R := fun y x ↦ table.Twins other x y)
                (pairwise_ascending _) hright hleft
                (fun _ _ ha hc ↦ ha.left_unique htable hother hc) hsingle
              exact (hseveral a ha).elim
          · exact twins_add (.union hleft hright)

end TypeTable

end Wiring
