import Mathlib.Data.List.Basic
import Wiring.Types.Table

/-!
# Tables built by interning

A table grows by interning descriptors whose parts it already holds and by recording the fields of
classes.  In every table that is built this way the parts of a descriptor have smaller identities
than the descriptor itself, and the fields of classes have identities of the table.
-/

namespace Wiring

@[simp] theorem mem_insertAscending {id other : TypeId} {ids : List TypeId} :
    other ∈ insertAscending id ids ↔ other = id ∨ other ∈ ids := by
  induction ids with
  | nil => simp [insertAscending]
  | cons head tail ih =>
      rw [insertAscending]
      split_ifs with hlt heq
      · simp
      · simp [heq]
      · simp [ih, or_left_comm]

@[simp] theorem mem_ascending {id : TypeId} {ids : List TypeId} :
    id ∈ ascending ids ↔ id ∈ ids := by
  induction ids with
  | nil => simp [ascending]
  | cons head tail ih =>
      rw [ascending, List.foldr_cons, mem_insertAscending, ← ascending, ih, List.mem_cons]

theorem mem_insertField {field other : Field} {fields : List Field} :
    other ∈ insertField field fields ↔ other = field ∨ other ∈ fields := by
  induction fields with
  | nil => simp [insertField]
  | cons head tail ih =>
      rw [insertField]
      split_ifs with hle
      · simp
      · simp [ih, or_left_comm]

@[simp] theorem mem_sortFields {field : Field} {fields : List Field} :
    field ∈ sortFields fields ↔ field ∈ fields := by
  induction fields with
  | nil => simp [sortFields]
  | cons head tail ih =>
      rw [sortFields, List.foldr_cons, mem_insertField, ← sortFields, ih, List.mem_cons]

theorem mem_of_mem_dropRepeats {field : Field} {fields : List Field}
    (h : field ∈ dropRepeats fields) : field ∈ fields := by
  induction fields with
  | nil => simp [dropRepeats] at h
  | cons head tail ih =>
      rw [dropRepeats] at h
      split at h
      · simp_all
      · next next later heq =>
          rw [heq] at ih
          split_ifs at h
          · rcases List.mem_cons.mp h with rfl | hlater
            · exact List.mem_cons_self
            · exact List.mem_cons_of_mem _ (ih (List.mem_cons_of_mem _ hlater))
          · rcases List.mem_cons.mp h with rfl | htail
            · exact List.mem_cons_self
            · exact List.mem_cons_of_mem _ (ih htail)

theorem mem_of_mem_canonicalFields {field : Field} {fields : List Field}
    (h : field ∈ canonicalFields fields) : field ∈ fields :=
  mem_sortFields.mp (mem_of_mem_dropRepeats h)

namespace TypeTable

theorem get_of_size_le {table : TypeTable} {id : TypeId} (h : table.size ≤ id) :
    table.get id = .dynamic := by
  have hnone : table.descriptors[id]? = none := List.getElem?_eq_none h
  simp [get, List.getD, hnone]

theorem get_append_of_lt {table : TypeTable} {id : TypeId} {more : List Descriptor}
    (h : id < table.size) :
    get { table with descriptors := table.descriptors ++ more } id = table.get id := by
  simp [get, List.getD, List.getElem?_append_left h]

@[simp] theorem get_append_size (table : TypeTable) (descriptor : Descriptor) :
    get { table with descriptors := table.descriptors ++ [descriptor] } table.size =
      descriptor := by
  simp [get, List.getD, size]

theorem get_of_argumentOf?_eq_some {table : TypeTable} {container : String} {id argument : TypeId}
    (h : table.argumentOf? container id = some argument) :
    table.get id = .generic container [argument] := by
  rw [argumentOf?] at h
  split at h
  · next hget =>
      split_ifs at h with hname
      rw [hget, hname, Option.some.inj h]
  · simp at h

/-- Every identity inside a descriptor is smaller than that of the descriptor. -/
def PartsDescend (table : TypeTable) : Prop :=
  ∀ id, ∀ part ∈ (table.get id).parts, part < id

/-- Every recorded field has a type of the table. -/
def FieldsPresent (table : TypeTable) : Prop :=
  ∀ name, ∀ field ∈ table.classFields name, field.type < table.size

theorem lt_size_of_mem_parts {table : TypeTable} {id part : TypeId}
    (h : part ∈ (table.get id).parts) : id < table.size := by
  by_contra hid
  rw [get_of_size_le (Nat.le_of_not_lt hid)] at h
  simp [Descriptor.parts] at h

theorem PartsDescend.lt_size {table : TypeTable} (h : table.PartsDescend) {id part : TypeId}
    (hpart : part ∈ (table.get id).parts) : part < table.size :=
  Nat.lt_trans (h id part hpart) (lt_size_of_mem_parts hpart)

theorem PartsDescend.argumentOf?_lt {table : TypeTable} (h : table.PartsDescend)
    {container : String} {id argument : TypeId}
    (hargument : table.argumentOf? container id = some argument) : argument < table.size := by
  have hpart : argument ∈ (table.get id).parts := by
    rw [get_of_argumentOf?_eq_some hargument]
    exact List.mem_singleton_self argument
  exact h.lt_size hpart

theorem PartsDescend.awaited_lt {table : TypeTable} (h : table.PartsDescend) {id : TypeId}
    (hid : id < table.size) : table.awaited id < table.size := by
  rw [awaited]
  cases hinner : table.promised? id with
  | none => exact hid
  | some inner => exact h.argumentOf?_lt hinner

theorem PartsDescend.members_lt {table : TypeTable} (h : table.PartsDescend) {id member : TypeId}
    (hid : id < table.size) (hmember : member ∈ table.members id) : member < table.size := by
  rw [members] at hmember
  split at hmember
  · next ids heq =>
      have hpart : member ∈ (table.get id).parts := by
        simpa [heq, Descriptor.parts] using hmember
      exact h.lt_size hpart
  · simp_all

theorem size_le_size_add (table : TypeTable) (descriptor : Descriptor) :
    table.size ≤ (table.add descriptor).2.size := by
  rw [add]
  split <;> simp [size]

@[simp] theorem classFields_add (table : TypeTable) (descriptor : Descriptor) (name : String) :
    (table.add descriptor).2.classFields name = table.classFields name := by
  rw [add]
  split <;> rfl

theorem PartsDescend.add {table : TypeTable} (h : table.PartsDescend) {descriptor : Descriptor}
    (hparts : ∀ part ∈ descriptor.parts, part < table.size) :
    (table.add descriptor).2.PartsDescend := by
  rw [TypeTable.add]
  split
  · exact h
  · intro id part hpart
    rcases Nat.lt_trichotomy id table.size with hlt | rfl | hgt
    · rw [get_append_of_lt hlt] at hpart
      exact h id part hpart
    · rw [get_append_size] at hpart
      exact hparts part hpart
    · rw [get_of_size_le (by simpa [size] using Nat.succ_le_of_lt hgt)] at hpart
      simp [Descriptor.parts] at hpart

/-- Interning answers with an old identity or adds one descriptor, whose parts are those of the
given one or members of them. -/
theorem intern_eq (table : TypeTable) (descriptor : Descriptor) :
    (∃ id, table.intern descriptor = (id, table)) ∨
      ∃ canonical, table.intern descriptor = table.add canonical ∧
        ∀ part ∈ canonical.parts, ∃ id ∈ descriptor.parts, part = id ∨ part ∈ table.members id := by
  cases descriptor with
  | shape fields =>
      refine Or.inr ⟨.shape (canonicalFields fields), rfl, ?_⟩
      intro part hpart
      obtain ⟨field, hfield, rfl⟩ := List.mem_map.mp hpart
      exact ⟨field.type, List.mem_map_of_mem (mem_of_mem_canonicalFields hfield), Or.inl rfl⟩
  | union ids =>
      rw [intern]
      split
      · exact Or.inl ⟨_, rfl⟩
      · refine Or.inr ⟨_, rfl, ?_⟩
        intro part hpart
        obtain ⟨id, hid, hmember⟩ := List.mem_flatMap.mp (mem_ascending.mp hpart)
        exact ⟨id, hid, Or.inr hmember⟩
  | _ => exact Or.inr ⟨_, rfl, fun part hpart ↦ ⟨part, hpart, Or.inl rfl⟩⟩

theorem size_le_size_intern (table : TypeTable) (descriptor : Descriptor) :
    table.size ≤ (table.intern descriptor).2.size := by
  obtain ⟨id, heq⟩ | ⟨canonical, heq, -⟩ := table.intern_eq descriptor
  · simp [heq]
  · simpa [heq] using table.size_le_size_add canonical

@[simp] theorem classFields_intern (table : TypeTable) (descriptor : Descriptor) (name : String) :
    (table.intern descriptor).2.classFields name = table.classFields name := by
  obtain ⟨id, heq⟩ | ⟨canonical, heq, -⟩ := table.intern_eq descriptor
  · rw [heq]
  · rw [heq, classFields_add]

theorem PartsDescend.intern {table : TypeTable} (h : table.PartsDescend) {descriptor : Descriptor}
    (hparts : ∀ part ∈ descriptor.parts, part < table.size) :
    (table.intern descriptor).2.PartsDescend := by
  obtain ⟨id, heq⟩ | ⟨canonical, heq, hcanonical⟩ := table.intern_eq descriptor
  · rw [heq]
    exact h
  · rw [heq]
    refine h.add fun part hpart ↦ ?_
    obtain ⟨id, hid, rfl | hmember⟩ := hcanonical part hpart
    · exact hparts part hid
    · exact h.members_lt (hparts id hid) hmember

theorem mem_classFields_defineClass {table : TypeTable} {name other : String}
    {fields : List Field} {field : Field}
    (h : field ∈ (table.defineClass name fields).classFields other) :
    field ∈ fields ∨ field ∈ table.classFields other := by
  by_cases hname : other = name
  · subst hname
    left
    simpa [classFields, defineClass] using h
  · right
    have hbeq : (other == name) = false := beq_eq_false_iff_ne.mpr hname
    simpa [classFields, defineClass, List.lookup_cons, hbeq] using h

/-- The tables that sequences of interning and of class definitions lead to, all identities being
those of the table at that moment. -/
inductive Built : TypeTable → Prop where
  | empty : Built .empty
  | intern {table : TypeTable} (built : Built table) (descriptor : Descriptor)
      (parts : ∀ part ∈ descriptor.parts, part < table.size) : Built (table.intern descriptor).2
  | defineClass {table : TypeTable} (built : Built table) (name : String) (fields : List Field)
      (present : ∀ field ∈ fields, field.type < table.size) : Built (table.defineClass name fields)

theorem Built.partsDescend {table : TypeTable} (h : table.Built) : table.PartsDescend := by
  induction h with
  | empty =>
      intro id part hpart
      simp [get, TypeTable.empty, Descriptor.parts] at hpart
  | intern _ descriptor parts ih => exact ih.intern parts
  | defineClass _ name fields _ ih => exact ih

theorem Built.fieldsPresent {table : TypeTable} (h : table.Built) : table.FieldsPresent := by
  induction h with
  | empty =>
      intro name field hfield
      simp [classFields, TypeTable.empty] at hfield
  | @intern table _ descriptor _ ih =>
      intro name field hfield
      rw [classFields_intern] at hfield
      exact Nat.lt_of_lt_of_le (ih name field hfield) (table.size_le_size_intern descriptor)
  | defineClass _ name fields present ih =>
      intro other field hfield
      obtain hnew | hold := mem_classFields_defineClass hfield
      · exact present field hnew
      · exact ih other field hold

end TypeTable

end Wiring
