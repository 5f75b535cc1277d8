import Mathlib.Data.String.Basic
import Wiring.Proofs.Types.Canonical
import Wiring.Proofs.Types.Structural

/-!
# Normal forms

What a table makes of the object types and unions that it is given.  An object type keeps the first
field of every name and lists its fields by their names.  A union keeps the members of its members,
so none of its own is a union again, and it never has exactly one.
-/

namespace Wiring

theorem find?_insertField (field : Field) (fields : List Field) (name : String) :
    (insertField field fields).find? (·.name == name) =
      (field :: fields).find? (·.name == name) := by
  induction fields with
  | nil => rfl
  | cons head tail ih =>
      rw [insertField]
      split_ifs with hle
      · rfl
      · -- The field moves behind a head of another name.
        have hne : head.name ≠ field.name := fun heq ↦ hle (le_of_eq heq.symm)
        rw [List.find?_cons, ih, List.find?_cons, List.find?_cons, List.find?_cons]
        cases hfield : field.name == name with
        | false => rfl
        | true =>
            have hhead : (head.name == name) = false := by
              rw [beq_eq_false_iff_ne, ← eq_of_beq hfield]
              exact hne
            rw [hhead]

theorem find?_sortFields (fields : List Field) (name : String) :
    (sortFields fields).find? (·.name == name) = fields.find? (·.name == name) := by
  induction fields with
  | nil => rfl
  | cons field fields ih =>
      rw [sortFields, List.foldr_cons, find?_insertField, List.find?_cons, List.find?_cons]
      split
      · rfl
      · exact ih

theorem find?_dropRepeats (fields : List Field) (name : String) :
    (dropRepeats fields).find? (·.name == name) = fields.find? (·.name == name) := by
  induction fields with
  | nil => rfl
  | cons field fields ih =>
      rw [dropRepeats]
      cases hrest : dropRepeats fields with
      | nil =>
          rw [hrest] at ih
          rw [List.find?_cons, List.find?_cons, ← ih]
      | cons next later =>
          rw [hrest] at ih
          dsimp only
          split_ifs with hname
          · rw [List.find?_cons, List.find?_cons, ← ih, List.find?_cons, hname]
            split <;> rfl
          · rw [List.find?_cons, ih, List.find?_cons]

/-- The normal form has the first field of each name. -/
theorem find?_canonicalFields (fields : List Field) (name : String) :
    (canonicalFields fields).find? (·.name == name) = fields.find? (·.name == name) := by
  rw [canonicalFields, find?_dropRepeats, find?_sortFields]

theorem pairwise_insertField {fields : List Field} (h : fields.Pairwise (·.name ≤ ·.name))
    (field : Field) : (insertField field fields).Pairwise (·.name ≤ ·.name) := by
  induction fields with
  | nil => exact List.pairwise_singleton _ _
  | cons head tail ih =>
      obtain ⟨hhead, htail⟩ := List.pairwise_cons.mp h
      rw [insertField]
      split_ifs with hle
      · refine List.pairwise_cons.mpr ⟨fun other hother ↦ ?_, h⟩
        rcases List.mem_cons.mp hother with rfl | hother
        · exact hle
        · exact hle.trans (hhead other hother)
      · refine List.pairwise_cons.mpr ⟨fun other hother ↦ ?_, ih htail⟩
        rcases mem_insertField.mp hother with rfl | hother
        · exact (le_total _ _).resolve_left hle
        · exact hhead other hother

theorem pairwise_sortFields (fields : List Field) :
    (sortFields fields).Pairwise (·.name ≤ ·.name) := by
  induction fields with
  | nil => exact List.Pairwise.nil
  | cons field fields ih => exact pairwise_insertField ih field

theorem pairwise_dropRepeats {fields : List Field} (h : fields.Pairwise (·.name ≤ ·.name)) :
    (dropRepeats fields).Pairwise (·.name < ·.name) := by
  induction fields with
  | nil => exact List.Pairwise.nil
  | cons field fields ih =>
      obtain ⟨hfield, hfields⟩ := List.pairwise_cons.mp h
      have hrest := ih hfields
      have hle : ∀ other ∈ dropRepeats fields, field.name ≤ other.name :=
        fun other hother ↦ hfield other (mem_of_mem_dropRepeats hother)
      rw [dropRepeats]
      cases hdropped : dropRepeats fields with
      | nil => exact List.pairwise_singleton _ _
      | cons next later =>
          rw [hdropped] at hrest hle
          obtain ⟨hnext, hlater⟩ := List.pairwise_cons.mp hrest
          dsimp only
          split_ifs with hname
          · exact List.pairwise_cons.mpr ⟨fun other hother ↦ hname ▸ hnext other hother, hlater⟩
          · have hlt : field.name < next.name :=
              lt_of_le_of_ne (hle next List.mem_cons_self) hname
            refine List.pairwise_cons.mpr ⟨fun other hother ↦ ?_, hrest⟩
            rcases List.mem_cons.mp hother with rfl | hother
            · exact hlt
            · exact hlt.trans (hnext other hother)

theorem pairwise_canonicalFields (fields : List Field) :
    (canonicalFields fields).Pairwise (·.name < ·.name) :=
  pairwise_dropRepeats (pairwise_sortFields fields)

theorem find?_eq_some_of_nodup {fields : List Field} (h : (fields.map Field.name).Nodup)
    {field : Field} (hfield : field ∈ fields) :
    fields.find? (·.name == field.name) = some field := by
  induction fields with
  | nil => exact (List.not_mem_nil hfield).elim
  | cons head tail ih =>
      rw [List.map_cons, List.nodup_cons] at h
      rcases List.mem_cons.mp hfield with rfl | htail
      · simp
      · have hne : head.name ≠ field.name := fun heq ↦ h.1 (heq ▸ List.mem_map_of_mem htail)
        rw [List.find?_cons_of_neg (by simpa using hne)]
        exact ih h.2 htail

/-! ## Descriptors of a table -/

/-- The form in which a table keeps its object types and unions. -/
def Descriptor.Normal (table : TypeTable) : Descriptor → Prop
  | .shape fields => fields.Pairwise (·.name < ·.name)
  | .union members => members.Pairwise (· < ·) ∧ members.length ≠ 1 ∧
      ∀ member ∈ members, (table.get member).isUnion = false
  | _ => True

theorem Descriptor.Normal.grows {table later : TypeTable} {descriptor : Descriptor}
    (h : descriptor.Normal table) (hgrows : table.Grows later)
    (hparts : ∀ part ∈ descriptor.parts, part < table.size) : descriptor.Normal later := by
  cases descriptor with
  | union members =>
      refine ⟨h.1, h.2.1, fun member hmember ↦ ?_⟩
      rw [hgrows.get_eq (hparts member hmember)]
      exact h.2.2 member hmember
  | _ => exact h

namespace TypeTable

variable {table later : TypeTable} {a b : TypeId}

theorem members_of_isUnion (h : (table.get a).isUnion = false) : table.members a = [a] := by
  rw [members]
  split
  · next members hunion => simp [hunion, Descriptor.isUnion] at h
  · rfl

theorem members_of_get {members : List TypeId} (h : table.get a = .union members) :
    table.members a = members := by
  rw [TypeTable.members, h]

theorem exists_union_or_whole (table : TypeTable) (a : TypeId) :
    (∃ members, table.get a = .union members ∧ table.members a = members) ∨
      (table.get a).isUnion = false ∧ table.members a = [a] := by
  cases hget : table.get a with
  | union members => exact Or.inl ⟨members, rfl, members_of_get hget⟩
  | _ => exact Or.inr ⟨rfl, members_of_isUnion (by rw [hget]; rfl)⟩

theorem Grows.members_eq (h : table.Grows later) (ha : a < table.size) :
    later.members a = table.members a := by
  rw [members, members, h.get_eq ha]

/-- Every descriptor of the table is in normal form. -/
def Normal (table : TypeTable) : Prop :=
  ∀ id, (table.get id).Normal table

theorem Normal.isUnion_of_mem (h : table.Normal) {member : TypeId}
    (hmember : member ∈ table.members a) : (table.get member).isUnion = false := by
  cases hunion : (table.get a).isUnion with
  | false =>
      rw [members_of_isUnion hunion, List.mem_singleton] at hmember
      exact hmember ▸ hunion
  | true =>
      have hnormal := h a
      cases hget : table.get a with
      | union members =>
          rw [hget] at hnormal
          rw [members_of_get hget] at hmember
          exact hnormal.2.2 member hmember
      | _ => simp [hget, Descriptor.isUnion] at hunion

theorem Normal.add (h : table.Normal) (hbuilt : table.PartsDescend) {descriptor : Descriptor}
    (hnew : descriptor.Normal table) (hparts : ∀ part ∈ descriptor.parts, part < table.size) :
    (table.add descriptor).2.Normal := by
  intro id
  obtain ⟨-, hadded, honly⟩ := table.add_spec descriptor
  have hgrows := table.grows_add descriptor
  by_cases hid : id < (table.add descriptor).2.size
  · rcases honly id hid with hold | rfl
    · rw [hgrows.get_eq hold]
      exact (h id).grows hgrows fun part ↦ hbuilt.lt_size
    · rw [hadded]
      exact hnew.grows hgrows hparts
  · rw [get_of_size_le (Nat.le_of_not_lt hid)]
    trivial

theorem Normal.intern (h : table.Normal) (hbuilt : table.PartsDescend) {descriptor : Descriptor}
    (hparts : ∀ part ∈ descriptor.parts, part < table.size) :
    (table.intern descriptor).2.Normal := by
  cases descriptor with
  | shape fields =>
      refine h.add hbuilt (pairwise_canonicalFields fields) fun part hpart ↦ ?_
      obtain ⟨field, hfield, rfl⟩ := List.mem_map.mp hpart
      exact hparts _ (List.mem_map_of_mem (mem_of_mem_canonicalFields hfield))
  | union ids =>
      have hflat : ∀ member ∈ ascending (ids.flatMap table.members),
          (table.get member).isUnion = false ∧ member < table.size := by
        intro member hmember
        obtain ⟨id, hid, hmember⟩ := List.mem_flatMap.mp (mem_ascending.mp hmember)
        exact ⟨h.isUnion_of_mem hmember, hbuilt.members_lt (hparts id hid) hmember⟩
      rw [TypeTable.intern]
      split
      · exact h
      · next hseveral =>
          refine h.add hbuilt ⟨pairwise_ascending _, fun hone ↦ ?_, fun member hmember ↦
            (hflat member hmember).1⟩ fun member hmember ↦ (hflat member hmember).2
          obtain ⟨single, hsingle⟩ := List.length_eq_one_iff.mp hone
          exact hseveral single hsingle
  | _ => exact h.add hbuilt trivial hparts

theorem Built.normal (h : table.Built) : table.Normal := by
  induction h with
  | empty => exact fun id ↦ by simp [get, TypeTable.empty, Descriptor.Normal]
  | intern hbuilt descriptor parts ih => exact ih.intern hbuilt.partsDescend parts
  | defineClass _ _ _ _ ih => exact ih

/-- What a table says of an identity after it has interned the descriptor under it.  A union has the
members of the given types, also where it is one of them. -/
def Reads (table : TypeTable) (id : TypeId) : Descriptor → Prop
  | .shape fields => table.get id = .shape (canonicalFields fields)
  | .union ids => ∀ member, member ∈ table.members id ↔ ∃ part ∈ ids, member ∈ table.members part
  | descriptor => table.get id = descriptor

theorem Reads.grows {descriptor : Descriptor} (h : table.Reads a descriptor)
    (hgrows : table.Grows later) (ha : a < table.size)
    (hparts : ∀ part ∈ descriptor.parts, part < table.size) : later.Reads a descriptor := by
  cases descriptor with
  | union ids =>
      intro member
      rw [hgrows.members_eq ha, h member]
      refine exists_congr fun part ↦ and_congr_right fun hpart ↦ ?_
      rw [hgrows.members_eq (hparts part hpart)]
  | _ => exact (hgrows.get_eq ha).trans h

theorem Built.intern_lt_size (h : table.Built) {descriptor : Descriptor}
    (hparts : ∀ part ∈ descriptor.parts, part < table.size) :
    (table.intern descriptor).1 < (table.intern descriptor).2.size := by
  cases descriptor with
  | union ids =>
      rw [TypeTable.intern]
      split
      · next single hsingle =>
          have hmem : single ∈ ascending (ids.flatMap table.members) :=
            hsingle ▸ List.mem_singleton_self single
          obtain ⟨id, hid, hmember⟩ := List.mem_flatMap.mp (mem_ascending.mp hmem)
          exact h.partsDescend.members_lt (hparts id hid) hmember
      · exact (table.add_spec _).1
  | _ => exact (table.add_spec _).1

theorem members_intern_union (h : table.Normal) (ids : List TypeId) :
    (table.intern (.union ids)).2.members (table.intern (.union ids)).1 =
      ascending (ids.flatMap table.members) := by
  rw [intern]
  split
  · next single hsingle =>
      have hmem : single ∈ ids.flatMap table.members := by
        rw [← mem_ascending, hsingle]
        exact List.mem_singleton_self single
      obtain ⟨id, -, hmember⟩ := List.mem_flatMap.mp hmem
      rw [hsingle, members_of_isUnion (h.isUnion_of_mem hmember)]
  · exact members_of_get (table.add_spec _).2.1

theorem Built.reads_intern (h : table.Built) {descriptor : Descriptor}
    (hparts : ∀ part ∈ descriptor.parts, part < table.size) :
    (table.intern descriptor).2.Reads (table.intern descriptor).1 descriptor := by
  cases descriptor with
  | union ids =>
      intro member
      rw [members_intern_union h.normal, mem_ascending, List.mem_flatMap]
      refine exists_congr fun part ↦ and_congr_right fun hpart ↦ ?_
      rw [(table.grows_intern (.union ids)).members_eq (hparts part hpart)]
  | _ => exact (table.add_spec _).2.1

end TypeTable

end Wiring
