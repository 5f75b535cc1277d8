import Mathlib.Logic.Relation
import Wiring.Proofs.Types.Normal

/-!
# Tables with an index

A table goes through its descriptors to find the identity of one.  An index finds it at once, when
every descriptor is put into it together with its identity at the moment that it is stored.  Such an
index never says anything else than the table, so what holds of tables that are built holds beside
an index too: identities and descriptors belong together one to one, parts come before the whole,
and everything that is stored is in normal form and stays as it is.
-/

namespace Wiring

theorem sortFields_eq_self {fields : List Field} (h : fields.Pairwise (·.name < ·.name)) :
    sortFields fields = fields := by
  induction fields with
  | nil => rfl
  | cons field fields ih =>
      obtain ⟨hfield, hfields⟩ := List.pairwise_cons.mp h
      rw [sortFields, List.foldr_cons, ← sortFields, ih hfields]
      cases fields with
      | nil => rfl
      | cons next later => rw [insertField, if_pos (hfield next List.mem_cons_self).le]

theorem dropRepeats_eq_self {fields : List Field} (h : fields.Pairwise (·.name < ·.name)) :
    dropRepeats fields = fields := by
  induction fields with
  | nil => rfl
  | cons field fields ih =>
      obtain ⟨hfield, hfields⟩ := List.pairwise_cons.mp h
      rw [dropRepeats, ih hfields]
      cases fields with
      | nil => rfl
      | cons next later =>
          dsimp only
          rw [if_neg (hfield next List.mem_cons_self).ne]

theorem canonicalFields_eq_self {fields : List Field} (h : fields.Pairwise (·.name < ·.name)) :
    canonicalFields fields = fields := by
  rw [canonicalFields, sortFields_eq_self h, dropRepeats_eq_self h]

theorem ascending_eq_self {ids : List TypeId} (h : ids.Pairwise (· < ·)) : ascending ids = ids :=
  (pairwise_ascending ids).eq_of_mem_iff h fun _ ↦ mem_ascending

theorem idxOf?_concat {α : Type} [DecidableEq α] (items : List α) (item other : α) :
    (items ++ [item]).idxOf? other =
      (items.idxOf? other).or (if other = item then some items.length else none) := by
  have happend : (items ++ [item]).idxOf? other =
      (items.idxOf? other).or (([item].idxOf? other).map (· + items.length)) :=
    List.findIdx?_append
  rw [happend, List.idxOf?_cons]
  by_cases heq : other = item
  · simp [heq]
  · simp [heq, Ne.symm heq]

namespace TypeTable

variable {table : TypeTable} {id : TypeId}

theorem idxOf?_eq_some_iff (h : table.descriptors.Nodup) {descriptor : Descriptor} :
    table.descriptors.idxOf? descriptor = some id ↔
      table.descriptors[id]? = some descriptor := by
  rw [List.idxOf?_eq_some_iff, List.getElem?_eq_some_iff]
  constructor
  · rintro ⟨hid, hget, -⟩
    exact ⟨hid, hget⟩
  · rintro ⟨hid, hget⟩
    refine ⟨hid, hget, fun before hbefore heq ↦ ?_⟩
    have hsame : before = id := h.getElem_inj_iff.mp (heq.trans hget.symm)
    omega

theorem getElem?_eq_some_get (hid : id < table.size) :
    table.descriptors[id]? = some (table.get id) := by
  rw [get, List.getD_eq_getElem _ _ hid, List.getElem?_eq_getElem hid]

theorem ascending_flatMap_members {members : List TypeId}
    (h : (Descriptor.union members).Normal table) :
    ascending (members.flatMap table.members) = members := by
  obtain ⟨hascending, -, hwhole⟩ := h
  have hflat : members.flatMap table.members = members := by
    rw [List.flatMap_congr fun member hmember ↦ members_of_isUnion (hwhole member hmember)]
    exact List.flatMap_singleton' members
  rw [hflat, ascending_eq_self hascending]

theorem intern_of_normal {descriptor : Descriptor} (h : descriptor.Normal table) :
    table.intern descriptor = table.add descriptor := by
  cases descriptor with
  | shape fields => rw [intern, canonicalFields_eq_self h]
  | union members =>
      have hseveral : members.length ≠ 1 := h.2.1
      rw [intern, ascending_flatMap_members h]
      split
      · exact absurd rfl hseveral
      · rfl
  | _ => rfl

/-- A stored descriptor is interned as it is, under the identity that it has. -/
theorem Built.intern_get (h : table.Built) (hid : id < table.size) :
    table.intern (table.get id) = (id, table) := by
  have hfound : table.descriptors.idxOf? (table.get id) = some id :=
    (idxOf?_eq_some_iff h.nodup).mpr (getElem?_eq_some_get hid)
  rw [intern_of_normal (h.normal id), add, hfound]

end TypeTable

/-! ## An index beside a table -/

structure IndexedTable where
  table : TypeTable
  /-- The stored descriptors with their identities, the last one stored first. -/
  index : List (Descriptor × TypeId)

namespace IndexedTable

def empty : IndexedTable := ⟨.empty, []⟩

/-- The identity that the index has for a descriptor.  One that it does not have is stored. -/
def add (kept : IndexedTable) (descriptor : Descriptor) : TypeId × IndexedTable :=
  match kept.index.lookup descriptor with
  | some id => (id, kept)
  | none => (kept.table.size,
    { table := { kept.table with descriptors := kept.table.descriptors ++ [descriptor] }
      index := (descriptor, kept.table.size) :: kept.index })

def intern (kept : IndexedTable) : Descriptor → TypeId × IndexedTable
  | .shape fields => kept.add (.shape (canonicalFields fields))
  | .union ids =>
    match ascending (ids.flatMap kept.table.members) with
    | [single] => (single, kept)
    | flat => kept.add (.union flat)
  | descriptor => kept.add descriptor

def defineClass (kept : IndexedTable) (name : String) (fields : List Field) : IndexedTable :=
  { kept with table := kept.table.defineClass name fields }

/-- One call, all identities being those of the table at that moment. -/
inductive Call : IndexedTable → IndexedTable → Prop where
  | intern (kept : IndexedTable) (descriptor : Descriptor)
      (parts : ∀ part ∈ descriptor.parts, part < kept.table.size) :
      Call kept (kept.intern descriptor).2
  | defineClass (kept : IndexedTable) (name : String) (fields : List Field)
      (present : ∀ field ∈ fields, field.type < kept.table.size) :
      Call kept (kept.defineClass name fields)

/-- Sequences of calls. -/
abbrev Calls : IndexedTable → IndexedTable → Prop :=
  Relation.ReflTransGen Call

variable {kept later : IndexedTable}

/-- The index has exactly the identities that a search through the table finds. -/
def Synced (kept : IndexedTable) : Prop :=
  ∀ descriptor, kept.index.lookup descriptor = kept.table.descriptors.idxOf? descriptor

theorem add_of_synced (h : kept.Synced) (descriptor : Descriptor) :
    ((kept.add descriptor).1, (kept.add descriptor).2.table) = kept.table.add descriptor := by
  rw [add, TypeTable.add, h descriptor]
  cases kept.table.descriptors.idxOf? descriptor <;> rfl

theorem Synced.add (h : kept.Synced) (descriptor : Descriptor) :
    (kept.add descriptor).2.Synced := by
  rw [IndexedTable.add]
  cases hlookup : kept.index.lookup descriptor with
  | some id => exact h
  | none =>
      intro other
      dsimp only
      rw [idxOf?_concat]
      by_cases heq : other = descriptor
      · subst heq
        rw [List.lookup_cons_self, ← h other, hlookup, if_pos rfl, Option.none_or, TypeTable.size]
      · have hbeq : (other == descriptor) = false := beq_eq_false_iff_ne.mpr heq
        rw [List.lookup_cons, hbeq, h other, if_neg heq, Option.or_none]

theorem intern_of_synced (h : kept.Synced) (descriptor : Descriptor) :
    ((kept.intern descriptor).1, (kept.intern descriptor).2.table) =
      kept.table.intern descriptor := by
  cases descriptor with
  | union ids =>
      rw [IndexedTable.intern, TypeTable.intern]
      generalize ascending (ids.flatMap kept.table.members) = flat
      rcases flat with _ | ⟨single, _ | ⟨second, rest⟩⟩
      · exact add_of_synced h _
      · rfl
      · exact add_of_synced h _
  | _ => exact add_of_synced h _

theorem Synced.intern (h : kept.Synced) (descriptor : Descriptor) :
    (kept.intern descriptor).2.Synced := by
  cases descriptor with
  | union ids =>
      rw [IndexedTable.intern]
      split
      · exact h
      · exact h.add _
  | _ => exact h.add _

theorem intern_of_normal {descriptor : Descriptor} (h : descriptor.Normal kept.table) :
    kept.intern descriptor = kept.add descriptor := by
  cases descriptor with
  | shape fields => rw [IndexedTable.intern, canonicalFields_eq_self h]
  | union members =>
      have hseveral : members.length ≠ 1 := h.2.1
      rw [IndexedTable.intern, TypeTable.ascending_flatMap_members h]
      split
      · exact absurd rfl hseveral
      · rfl
  | _ => rfl

/-- A stored descriptor is interned as it is, under the identity that it has. -/
theorem intern_get (h : kept.Synced) (hbuilt : kept.table.Built) {id : TypeId}
    (hid : id < kept.table.size) : kept.intern (kept.table.get id) = (id, kept) := by
  have hlookup : kept.index.lookup (kept.table.get id) = some id := by
    rw [h, TypeTable.idxOf?_eq_some_iff hbuilt.nodup, TypeTable.getElem?_eq_some_get hid]
  rw [intern_of_normal (hbuilt.normal id), IndexedTable.add, hlookup]

theorem Call.step (h : Call kept later) (hsynced : kept.Synced) (hbuilt : kept.table.Built) :
    later.Synced ∧ later.table.Built ∧ kept.table.Grows later.table := by
  cases h with
  | intern descriptor parts =>
      have htable : (kept.intern descriptor).2.table = (kept.table.intern descriptor).2 :=
        congrArg Prod.snd (intern_of_synced hsynced descriptor)
      rw [htable]
      exact ⟨hsynced.intern descriptor, hbuilt.intern descriptor parts,
        kept.table.grows_intern descriptor⟩
  | defineClass name fields present =>
      exact ⟨hsynced, hbuilt.defineClass name fields present, TypeTable.Grows.refl kept.table⟩

theorem Calls.run (h : Calls kept later) (hsynced : kept.Synced) (hbuilt : kept.table.Built) :
    later.Synced ∧ later.table.Built ∧ kept.table.Grows later.table := by
  induction h with
  | refl => exact ⟨hsynced, hbuilt, TypeTable.Grows.refl kept.table⟩
  | tail _ hcall ih =>
      obtain ⟨hsynced, hbuilt, hgrows⟩ := ih
      obtain ⟨hnext, hlast, hstep⟩ := hcall.step hsynced hbuilt
      exact ⟨hnext, hlast, hgrows.trans hstep⟩

/-- The tables that calls lead to with an index beside them are those that are built. -/
theorem exists_calls_iff_built {table : TypeTable} :
    (∃ kept, Calls .empty kept ∧ kept.table = table) ↔ table.Built := by
  constructor
  · rintro ⟨kept, hcalls, rfl⟩
    exact (Calls.run hcalls (fun _ ↦ rfl) .empty).2.1
  · intro h
    induction h with
    | empty => exact ⟨empty, .refl, rfl⟩
    | intern _ descriptor parts ih =>
        obtain ⟨kept, hcalls, rfl⟩ := ih
        have hsynced := (Calls.run hcalls (fun _ ↦ rfl) .empty).1
        exact ⟨_, hcalls.tail (.intern kept descriptor parts),
          congrArg Prod.snd (intern_of_synced hsynced descriptor)⟩
    | defineClass _ name fields present ih =>
        obtain ⟨kept, hcalls, rfl⟩ := ih
        exact ⟨_, hcalls.tail (.defineClass kept name fields present), rfl⟩

/-- What a table and its index keep to. -/
structure Orderly (kept : IndexedTable) : Prop where
  /-- The index has each descriptor at its position, and nothing else. -/
  indexed : ∀ descriptor id, kept.index.lookup descriptor = some id ↔
    kept.table.descriptors[id]? = some descriptor
  distinct : kept.table.descriptors.Nodup
  /-- A stored descriptor is answered with its identity, and nothing is stored. -/
  again : ∀ id < kept.table.size, kept.intern (kept.table.get id) = (id, kept)
  partsDescend : kept.table.PartsDescend
  fieldsAscend : ∀ id fields, kept.table.get id = .shape fields →
    fields.Pairwise (·.name < ·.name)
  unionsFlat : ∀ id members, kept.table.get id = .union members →
    members.Pairwise (· < ·) ∧ members.length ≠ 1 ∧
      ∀ member ∈ members, (kept.table.get member).isUnion = false

/-- However a table has been filled, identities and descriptors belong together one to one, also by
its index.  Parts have smaller identities than the whole, fields ascend by name, and unions ascend,
are flat and do not have one member.  Later calls change nothing that is stored.  An index makes no
difference to what is interned, and what is interned is found in normal form under its identity. -/
theorem orderly_of_calls (h : Calls .empty kept) : kept.Orderly ∧
    (∀ later, Calls kept later → kept.table.descriptors <+: later.table.descriptors) ∧
    ∀ descriptor : Descriptor, (∀ part ∈ descriptor.parts, part < kept.table.size) →
      ((kept.intern descriptor).1, (kept.intern descriptor).2.table) =
          kept.table.intern descriptor ∧
        (kept.intern descriptor).2.table.Reads (kept.intern descriptor).1 descriptor := by
  obtain ⟨hsynced, hbuilt, -⟩ := Calls.run h (fun _ ↦ rfl) .empty
  refine ⟨?_, fun later hlater ↦ (Calls.run hlater hsynced hbuilt).2.2, fun descriptor hparts ↦ ?_⟩
  · constructor
    · intro descriptor id
      rw [hsynced descriptor, TypeTable.idxOf?_eq_some_iff hbuilt.nodup]
    · exact hbuilt.nodup
    · exact fun id hid ↦ intern_get hsynced hbuilt hid
    · exact hbuilt.partsDescend
    · intro id fields hget
      have hnormal := hbuilt.normal id
      rwa [hget] at hnormal
    · intro id members hget
      have hnormal := hbuilt.normal id
      rwa [hget] at hnormal
  · have hsame := intern_of_synced hsynced descriptor
    have hreads := hbuilt.reads_intern hparts
    rw [← hsame] at hreads
    exact ⟨hsame, hreads⟩

/-- Unions that are nested, out of order and repeated, one of a single type, and an object type that
has a field twice. -/
def contacts : IndexedTable :=
  ((((((empty.intern (.primitive .string)).2.intern (.primitive .number)).2.intern
    (.union [1, 0, 1])).2.intern (.primitive .null)).2.intern (.union [3, 2])).2.intern
    (.shape [⟨"phone", 1⟩, ⟨"name", 0⟩, ⟨"phone", 4⟩])).2.intern (.union [5]) |>.2

theorem contacts_calls : Calls .empty contacts := by
  have hscalars : Calls .empty
      ((empty.intern (.primitive .string)).2.intern (.primitive .number)).2 :=
    (Relation.ReflTransGen.single (.intern _ _ (by decide))).tail (.intern _ _ (by decide))
  have hunions := ((hscalars.tail (.intern _ (.union [1, 0, 1]) (by decide))).tail
    (.intern _ (.primitive .null) (by decide))).tail (.intern _ (.union [3, 2]) (by decide))
  exact (hunions.tail (.intern _ (.shape [⟨"phone", 1⟩, ⟨"name", 0⟩, ⟨"phone", 4⟩])
    (by decide))).tail (.intern _ (.union [5]) (by decide))

theorem contacts_orderly : Calls .empty contacts ∧
    contacts.table.descriptors = [.primitive .string, .primitive .number, .union [0, 1],
      .primitive .null, .union [0, 1, 3], .shape [⟨"name", 0⟩, ⟨"phone", 1⟩]] ∧
    contacts.Orderly :=
  ⟨contacts_calls, by decide, (orderly_of_calls contacts_calls).1⟩

end IndexedTable

end Wiring
