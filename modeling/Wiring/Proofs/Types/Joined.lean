import Wiring.Proofs.Types.Congruent
import Wiring.Proofs.Types.Indexed

/-!
# Unions and object types are interned once

A union is known by its members alone: however they are listed, nested and repeated, they are
interned under one identity, and where only one is left it is that identity.  The stored union need
not have a single one of the listed types, but it is assignable to what all of these are assignable
to, and it accepts what one of them accepts.  An object type is known by the first field of each of
its names.
-/

namespace Wiring

section Fields

variable {fields others : List Field}

theorem mem_canonicalFields_iff {field : Field} :
    field ∈ canonicalFields fields ↔ fields.find? (·.name == field.name) = some field := by
  rw [← find?_canonicalFields]
  constructor
  · intro hfield
    have hdistinct : ((canonicalFields fields).map Field.name).Nodup :=
      List.pairwise_map.mpr ((pairwise_canonicalFields fields).imp fun hlt ↦ hlt.ne)
    exact find?_eq_some_of_nodup hdistinct hfield
  · exact List.mem_of_find?_eq_some

/-- Fields that are found by a name are known by their type. -/
theorem map_type_find?_inj {name : String} : (others.find? (·.name == name)).map Field.type =
    (fields.find? (·.name == name)).map Field.type ↔
      others.find? (·.name == name) = fields.find? (·.name == name) := by
  refine ⟨fun h ↦ ?_, congrArg _⟩
  cases hother : others.find? (·.name == name) with
  | none =>
      rw [hother, Option.map_none, eq_comm, Option.map_eq_none_iff] at h
      exact h.symm
  | some other =>
      rw [hother, Option.map_some, eq_comm, Option.map_eq_some_iff] at h
      obtain ⟨field, hfield, htype⟩ := h
      have hname : other.name = name := by simpa using List.find?_some hother
      have hsame : field.name = name := by simpa using List.find?_some hfield
      rw [hfield]
      exact congrArg some (congrArg₂ Field.mk (hname.trans hsame.symm) htype.symm)

/-- The normal form is known by the types that the names have. -/
theorem canonicalFields_eq_iff : canonicalFields others = canonicalFields fields ↔ ∀ name,
    (others.find? (·.name == name)).map Field.type =
      (fields.find? (·.name == name)).map Field.type := by
  constructor
  · intro h name
    rw [← find?_canonicalFields others, h, find?_canonicalFields]
  · intro h
    have : Std.Irrefl fun a b : Field ↦ a.name < b.name := ⟨fun _ ↦ lt_irrefl _⟩
    have : Std.Antisymm fun a b : Field ↦ a.name < b.name :=
      ⟨fun _ _ hlt hgt ↦ (lt_asymm hlt hgt).elim⟩
    refine (pairwise_canonicalFields others).eq_of_mem_iff (pairwise_canonicalFields fields) ?_
    intro field
    rw [mem_canonicalFields_iff, mem_canonicalFields_iff, map_type_find?_inj.mp (h field.name)]

end Fields

namespace TypeTable

variable {table later : TypeTable} {id : TypeId} {as bs : List TypeId} {fields others : List Field}

/-- The members of both lists of types are the same. -/
def SameMembers (table : TypeTable) (as bs : List TypeId) : Prop :=
  ∀ member, member ∈ as.flatMap table.members ↔ member ∈ bs.flatMap table.members

theorem SameMembers.symm (h : table.SameMembers as bs) : table.SameMembers bs as :=
  fun member ↦ (h member).symm

theorem SameMembers.of_mem_iff (h : ∀ a, a ∈ as ↔ a ∈ bs) : table.SameMembers as bs := by
  intro member
  rw [List.mem_flatMap, List.mem_flatMap]
  exact exists_congr fun a ↦ and_congr_left fun _ ↦ h a

theorem SameMembers.append (h : table.SameMembers as bs) (before after : List TypeId) :
    table.SameMembers (before ++ as ++ after) (before ++ bs ++ after) := by
  intro member
  simp only [List.flatMap_append, List.mem_append]
  exact or_congr_left (or_congr_right (h member))

theorem SameMembers.intern_eq (h : table.SameMembers as bs) :
    table.intern (.union as) = table.intern (.union bs) := by
  have hflat : ascending (as.flatMap table.members) = ascending (bs.flatMap table.members) := by
    refine (pairwise_ascending _).eq_of_mem_iff (pairwise_ascending _) fun member ↦ ?_
    rw [mem_ascending, mem_ascending]
    exact h member
  rw [intern, intern, hflat]

/-- A union of one type is that type, also if this is a union again. -/
theorem Built.intern_union_singleton (h : table.Built) (hid : id < table.size) :
    table.intern (.union [id]) = (id, table) := by
  obtain ⟨members, hget, hmembers⟩ | ⟨-, hmembers⟩ := table.exists_union_or_whole id
  · rw [← h.intern_get hid, hget]
    refine SameMembers.intern_eq fun member ↦ ?_
    have hflat : ascending (members.flatMap table.members) = members :=
      ascending_flatMap_members (hget ▸ h.normal id)
    rw [List.flatMap_singleton, hmembers, ← @mem_ascending member (members.flatMap _), hflat]
  · rw [TypeTable.intern, List.flatMap_singleton, hmembers]
    rfl

theorem Gathers.sameMembers (h : table.Gathers id as) : table.SameMembers [id] as := by
  intro member
  rw [List.flatMap_singleton, List.mem_flatMap]
  exact h member

theorem Gathers.intern_eq (h : table.Gathers id as) (hbuilt : table.Built) (hid : id < table.size) :
    table.intern (.union as) = (id, table) :=
  h.sameMembers.symm.intern_eq.trans (hbuilt.intern_union_singleton hid)

theorem Gathers.intern_eq_iff (h : table.Gathers id as) (hbuilt : table.Built)
    (hid : id < table.size) : (table.intern (.union bs)).1 = id ↔ table.SameMembers as bs := by
  constructor
  · intro heq member
    have hmembers := members_intern_union hbuilt.normal bs
    rw [heq, (table.grows_intern (.union bs)).members_eq hid] at hmembers
    rw [← h.sameMembers member, List.flatMap_singleton, hmembers, mem_ascending]
  · intro hsame
    rw [← hsame.intern_eq, h.intern_eq hbuilt hid]

theorem Gathers.structural_iff (h : table.Gathers id as) (hbuilt : table.Built) {target : TypeId} :
    table.Structural id target ↔ ∀ a ∈ as, table.Structural a target := by
  constructor
  · intro hid a ha
    exact .of_members fun member hmember ↦
      hid.member hbuilt.normal ((h member).mpr ⟨a, ha, hmember⟩)
  · intro hall
    refine .of_members fun member hmember ↦ ?_
    obtain ⟨a, ha, hmember⟩ := (h member).mp hmember
    exact (hall a ha).member hbuilt.normal hmember

theorem Gathers.structural_to_iff (h : table.Gathers id as) {source : TypeId}
    (hwhole : (table.get source).isUnion = false) (hdynamic : table.get source ≠ .dynamic) :
    table.Structural source id ↔ ∃ a ∈ as, table.Structural source a := by
  constructor
  · intro hsource
    obtain ⟨member, hmember, haccepts⟩ := (hsource.exists_member hwhole).resolve_left hdynamic
    obtain ⟨a, ha, hmember⟩ := (h member).mp hmember
    exact ⟨a, ha, .of_member hwhole hmember haccepts⟩
  · rintro ⟨a, ha, hsource⟩
    obtain ⟨member, hmember, haccepts⟩ := (hsource.exists_member hwhole).resolve_left hdynamic
    exact .of_member hwhole ((h member).mpr ⟨a, ha, hmember⟩) haccepts

/-- What a table keeps to for the identity of the union of some types. -/
structure UnionOf (table : TypeTable) (id : TypeId) (as : List TypeId) : Prop where
  same_iff : ∀ bs, (table.intern (.union bs)).1 = id ↔ table.SameMembers as bs
  /-- Neither order nor repetition of the types matters. -/
  listed : ∀ bs, (∀ b, b ∈ bs ↔ b ∈ as) → table.intern (.union bs) = (id, table)
  /-- Inside of a union it does not matter whether the union or its types are listed. -/
  nested : ∀ before after, table.intern (.union (before ++ [id] ++ after)) =
    table.intern (.union (before ++ as ++ after))
  assignable_iff : ∀ target, table.isAssignable id target = true ↔
    ∀ a ∈ as, table.isAssignable a target = true
  accepts_iff : ∀ source, (table.get source).isUnion = false → table.get source ≠ .dynamic →
    (table.isAssignable source id = true ↔ ∃ a ∈ as, table.isAssignable source a = true)

/-- What a table keeps to for the identity of an object type. -/
def ShapeOf (table : TypeTable) (id : TypeId) (fields : List Field) : Prop :=
  ∀ others, (table.intern (.shape others)).1 = id ↔ ∀ name,
    (others.find? (·.name == name)).map Field.type = (fields.find? (·.name == name)).map Field.type

theorem Gathers.unionOf (h : table.Gathers id as) (hbuilt : table.Built) (hid : id < table.size) :
    table.UnionOf id as where
  same_iff _ := h.intern_eq_iff hbuilt hid
  listed _ hlisted :=
    (SameMembers.of_mem_iff hlisted).intern_eq.trans (h.intern_eq hbuilt hid)
  nested before after := (h.sameMembers.append before after).intern_eq
  assignable_iff target := by
    simp only [isAssignable_iff hbuilt]
    exact h.structural_iff hbuilt
  accepts_iff source hwhole hdynamic := by
    simp only [isAssignable_iff hbuilt]
    exact h.structural_to_iff hwhole hdynamic

theorem shapeOf_of_get (hbuilt : table.Built) (hid : id < table.size)
    (hget : table.get id = .shape (canonicalFields fields)) : table.ShapeOf id fields := by
  intro others
  rw [← canonicalFields_eq_iff]
  constructor
  · intro heq
    have hadded : (table.intern (.shape others)).2.get id = .shape (canonicalFields others) :=
      heq ▸ (table.add_spec (.shape (canonicalFields others))).2.1
    rw [(table.grows_intern (.shape others)).get_eq hid, hget] at hadded
    exact (Descriptor.shape.inj hadded).symm
  · intro heq
    have hsame : table.intern (.shape others) = table.intern (.shape (canonicalFields fields)) := by
      rw [intern, heq, intern, canonicalFields_eq_self (pairwise_canonicalFields fields)]
    rw [hsame, ← hget, hbuilt.intern_get hid]

/-- In a table that is built, the identity under which the union of some types has been interned
stays that of all unions that come down to the same members, and of no others.  The union stands for
its types in further unions and in every comparison, also where it has become one of them.  The
identity of an object type stays that of all object types whose names have the same types, the first
field of a repeated name counting. -/
theorem intern_canonical (h : table.Built) {later : TypeTable} (hlater : later.Built) :
    (∀ as, (∀ a ∈ as, a < table.size) → (table.intern (.union as)).2.Grows later →
      later.UnionOf (table.intern (.union as)).1 as) ∧
    (∀ fields, (∀ field ∈ fields, field.type < table.size) →
      (table.intern (.shape fields)).2.Grows later →
        later.ShapeOf (table.intern (.shape fields)).1 fields) ∧
    ∀ a < table.size, table.intern (.union [a]) = (a, table) := by
  refine ⟨fun as hparts hgrows ↦ ?_, fun fields hfields hgrows ↦ ?_,
    fun a ha ↦ h.intern_union_singleton ha⟩
  · have hid : (table.intern (.union as)).1 < (table.intern (.union as)).2.size :=
      h.intern_lt_size hparts
    have hreads : (table.intern (.union as)).2.Reads (table.intern (.union as)).1 (.union as) :=
      h.reads_intern hparts
    have hgathers : later.Reads (table.intern (.union as)).1 (.union as) :=
      hreads.grows hgrows hid fun a ha ↦
        (hparts a ha).trans_le (table.grows_intern _).size_le
    exact Gathers.unionOf hgathers hlater (hid.trans_le hgrows.size_le)
  · have hparts : ∀ part ∈ (Descriptor.shape fields).parts, part < table.size :=
      List.forall_mem_map.mpr hfields
    have hid := h.intern_lt_size hparts
    refine shapeOf_of_get hlater (hid.trans_le hgrows.size_le) ?_
    rw [hgrows.get_eq hid]
    exact h.reads_intern hparts

/-- The linked classes: a union of unions, listed out of order and with a repetition, and an object
type that has a field twice. -/
theorem linkedClasses_canonical :
    let joined := linkedClasses.intern (.union [4, 3, 4])
    let later := (joined.2.intern (.shape [⟨"next", 4⟩, ⟨"back", 2⟩, ⟨"next", 3⟩])).2
    linkedClasses.Built ∧ later.Built ∧
      later.get joined.1 = .union [0, 1, 2] ∧ later.UnionOf joined.1 [4, 3, 4] ∧
      later.get 6 = .shape [⟨"back", 2⟩, ⟨"next", 4⟩] ∧
        joined.2.intern (.union [3]) = (3, joined.2) ∧
        later.ShapeOf 6 [⟨"next", 4⟩, ⟨"back", 2⟩, ⟨"next", 3⟩] := by
  intro joined later
  have hjoined : joined.2.Built := linkedClasses_built.intern (.union [4, 3, 4]) (by decide)
  have hlater : later.Built := hjoined.intern (.shape _) (by decide)
  refine ⟨linkedClasses_built, hlater, by decide, ?_, by decide, ?_, ?_⟩
  · exact (intern_canonical linkedClasses_built hlater).1 [4, 3, 4] (by decide)
      (joined.2.grows_intern _)
  · exact (intern_canonical hjoined hlater).2.2 3 (by decide)
  · exact (intern_canonical hjoined hlater).2.1 _ (by decide) (Grows.refl later)

end TypeTable

end Wiring
