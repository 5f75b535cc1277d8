import Wiring.Proofs.Types.Equivalent
import Wiring.Proofs.Types.Normal

/-!
# Equivalent parts

Types that are built alike from equivalent parts are equivalent.  For containers this is how they
are compared.  All others are compared by assignability, and a union may turn out to be one of its
members, so there it has to be shown that no rigid type stands on one side only.
-/

namespace Wiring

/-- Descriptors of one form with related parts.  Object types whose fields have different names may
list them in different orders. -/
inductive Descriptor.Congruent (R : TypeId → TypeId → Prop) : Descriptor → Descriptor → Prop where
  | alike {descriptor other : Descriptor} (each : descriptor.Alike R other) :
      Congruent R descriptor other
  | reordered {fields others listed : List Field} (distinct : (listed.map Field.name).Nodup)
      (each : List.Forall₂ (FieldAlike R) fields others) (order : others.Perm listed) :
      Congruent R (.shape fields) (.shape listed)

theorem Descriptor.Congruent.imp {R S : TypeId → TypeId → Prop} {descriptor other : Descriptor}
    (h : descriptor.Congruent R other) (hRS : ∀ a b, R a b → S a b) :
    descriptor.Congruent S other := by
  cases h with
  | alike each => exact .alike (each.imp hRS)
  | reordered distinct each order =>
      exact .reordered distinct (each.imp fun _ _ hfield ↦ ⟨hfield.1, hRS _ _ hfield.2⟩) order

/-- Fields of different names are found in any order. -/
theorem find?_eq_of_perm {fields others : List Field} (h : fields.Perm others)
    (hdistinct : (others.map Field.name).Nodup) (name : String) :
    fields.find? (·.name == name) = others.find? (·.name == name) := by
  cases hfound : fields.find? (·.name == name) with
  | none =>
      rw [List.find?_eq_none] at hfound
      exact (List.find?_eq_none.mpr fun field hfield ↦ hfound field (h.mem_iff.mpr hfield)).symm
  | some field =>
      have hname : field.name = name := by simpa using List.find?_some hfound
      have hfield : field ∈ others := h.mem_iff.mp (List.mem_of_find?_eq_some hfound)
      rw [← hname, find?_eq_some_of_nodup hdistinct hfield]

namespace TypeTable

variable {table later : TypeTable} {a b x y : TypeId} {as bs : List TypeId}

theorem Structural.member (h : table.Structural a b) (hnormal : table.Normal) {member : TypeId}
    (hmember : member ∈ table.members a) : table.Structural member b := by
  have hwhole := hnormal.isUnion_of_mem hmember
  obtain ⟨members, hget, hmembers⟩ | ⟨-, hmembers⟩ := table.exists_union_or_whole a
  · rw [hmembers] at hmember
    cases h.accepts with
    | same => exact .of_accepts (.toUnion hwhole hget hmember (.refl member))
    | toDynamic target => exact .of_accepts (.toDynamic target)
    | fromUnion source each =>
        rw [hget] at source
        exact each member (Descriptor.union.inj source ▸ hmember)
    | shapes source => simp [hget, fieldsOf?] at source
    | _ => simp_all [Descriptor.isUnion]
  · rw [hmembers, List.mem_singleton] at hmember
    exact hmember ▸ h

theorem Structural.exists_member (h : table.Structural a b)
    (hwhole : (table.get a).isUnion = false) :
    table.get a = .dynamic ∨ ∃ member ∈ table.members b, table.Structural a member := by
  obtain ⟨members, hget, hmembers⟩ | ⟨-, hmembers⟩ := table.exists_union_or_whole b
  · rw [hmembers]
    cases h.accepts with
    | fromDynamic source => exact Or.inl source
    | toUnion _ target mem one =>
        rw [hget] at target
        exact Or.inr ⟨_, Descriptor.union.inj target ▸ mem, one⟩
    | shapes _ target => simp [hget, fieldsOf?] at target
    | fieldless _ _ _ target => simp [hget, fieldsOf?] at target
    | _ => simp_all [Descriptor.isUnion]
  · rw [hmembers]
    exact Or.inr ⟨b, List.mem_singleton_self b, h⟩

theorem Structural.of_members (h : ∀ member ∈ table.members a, table.Structural member b) :
    table.Structural a b := by
  obtain ⟨members, hget, hmembers⟩ | ⟨-, hmembers⟩ := table.exists_union_or_whole a
  · rw [hmembers] at h
    exact .of_accepts (.fromUnion hget h)
  · rw [hmembers] at h
    exact h a (List.mem_singleton_self a)

theorem Structural.of_member (hwhole : (table.get a).isUnion = false) {member : TypeId}
    (hmember : member ∈ table.members b) (h : table.Structural a member) :
    table.Structural a b := by
  obtain ⟨members, hget, hmembers⟩ | ⟨-, hmembers⟩ := table.exists_union_or_whole b
  · rw [hmembers] at hmember
    exact .of_accepts (.toUnion hwhole hget hmember h)
  · rw [hmembers, List.mem_singleton] at hmember
    exact hmember ▸ h

/-! ## Unions of equivalent types -/

/-- The members of the type are those of the given types. -/
abbrev Gathers (table : TypeTable) (id : TypeId) (ids : List TypeId) : Prop :=
  ∀ member, member ∈ table.members id ↔ ∃ part ∈ ids, member ∈ table.members part

theorem eq_of_members_subset (hnormal : table.Normal) (h : ∀ member ∈ table.members a, member = x) :
    a = x ∨ table.members a = [] := by
  obtain ⟨members, hget, hmembers⟩ | ⟨-, hmembers⟩ := table.exists_union_or_whole a
  · rw [hmembers] at h ⊢
    obtain ⟨hascend, hlength, -⟩ : (Descriptor.union members).Normal table := hget ▸ hnormal a
    refine Or.inr ?_
    match members with
    | [] => rfl
    | [_] => exact (hlength rfl).elim
    | first :: second :: _ =>
        have hlt : first < second := List.rel_of_pairwise_cons hascend List.mem_cons_self
        have hsame : first = second := (h first (by simp)).trans (h second (by simp)).symm
        exact (hlt.ne hsame).elim
  · rw [hmembers] at h
    exact Or.inl (h a (List.mem_singleton_self a))

/-- Only a type without members is equivalent to one. -/
theorem Equivalent.members_eq_nil (htable : table.Built) (h : table.Equivalent a b)
    (hnil : table.members a = []) : table.members b = [] := by
  cases h with
  | same => exact hnil
  | containers left => simp [members_of_isUnion, left, Descriptor.isUnion] at hnil
  | mutually _ _ right _ back =>
      -- Nothing but the unconstrained type is assignable to a type without members.
      have hdynamic : ∀ member ∈ table.members b, table.get member = .dynamic := by
        intro member hmember
        obtain hdynamic | ⟨other, hother, -⟩ :=
          (back.member htable.normal hmember).exists_member (htable.normal.isUnion_of_mem hmember)
        · exact hdynamic
        · rw [hnil] at hother
          exact (List.not_mem_nil hother).elim
      have hb : b < table.size := by
        by_contra hb
        simp [get_of_size_le (Nat.le_of_not_lt hb), Descriptor.isRigid] at right
      by_contra hne
      obtain ⟨first, hfirst⟩ := List.exists_mem_of_ne_nil _ hne
      have hsame : ∀ member ∈ table.members b, member = first := by
        intro member hmember
        refine htable.eq_of_get_eq (htable.partsDescend.members_lt hb hmember)
          (htable.partsDescend.members_lt hb hfirst) ?_
        rw [hdynamic member hmember, hdynamic first hfirst]
      have heq : b = first := (eq_of_members_subset htable.normal hsame).resolve_right hne
      simp [heq, hdynamic first hfirst, Descriptor.isRigid] at right

/-- A type that is no union, and stands for a union, is one of the given types. -/
theorem Gathers.mem (hnormal : table.Normal) (h : table.Gathers x as)
    (hwhole : (table.get x).isUnion = false) : x ∈ as := by
  have hmembers := members_of_isUnion hwhole
  obtain ⟨a, ha, hx⟩ := (h x).mp (hmembers ▸ List.mem_singleton_self x)
  have hsubset : ∀ member ∈ table.members a, member = x := by
    intro member hmember
    have hx := (h member).mpr ⟨a, ha, hmember⟩
    rwa [hmembers, List.mem_singleton] at hx
  obtain rfl | hnil := eq_of_members_subset hnormal hsubset
  · exact ha
  · rw [hnil] at hx
    exact (List.not_mem_nil hx).elim

section Unions

variable (htable : table.Built) (hx : table.Gathers x as) (hy : table.Gathers y bs)
  (hleft : ∀ a ∈ as, ∃ b ∈ bs, table.Equivalent a b)
  (hright : ∀ b ∈ bs, ∃ a ∈ as, table.Equivalent a b)

include htable hx

include hy hleft in
theorem Gathers.structural : table.Structural x y := by
  refine .of_members fun member hmember ↦ ?_
  have hwhole := htable.normal.isUnion_of_mem hmember
  obtain ⟨a, ha, hmember⟩ := (hx member).mp hmember
  obtain ⟨b, hb, hab⟩ := hleft a ha
  obtain hdynamic | ⟨other, hother, hassignable⟩ :=
    (hab.structural.member htable.normal hmember).exists_member hwhole
  · exact .of_accepts (.fromDynamic hdynamic)
  · exact .of_member hwhole ((hy other).mpr ⟨b, hb, hother⟩) hassignable

include hright in
/-- Where a single type stands on one side, nothing on the other side has further members. -/
theorem Gathers.equivalent_or_members_eq_nil (hwhole : (table.get x).isUnion = false) {b : TypeId}
    (hb : b ∈ bs) : table.Equivalent x b ∨ table.members b = [] := by
  obtain ⟨a, ha, hab⟩ := hright b hb
  have hsubset : ∀ member ∈ table.members a, member = x := by
    intro member hmember
    have hxmember := (hx member).mpr ⟨a, ha, hmember⟩
    rwa [members_of_isUnion hwhole, List.mem_singleton] at hxmember
  obtain rfl | hnil := eq_of_members_subset htable.normal hsubset
  · exact Or.inl hab
  · exact Or.inr (hab.members_eq_nil htable hnil)

include hy hleft hright

theorem Gathers.eq_of_isRigid (hrigid : (table.get x).isRigid = true) : x = y := by
  have hwhole : (table.get x).isUnion = false := by
    cases hget : table.get x <;> simp_all [Descriptor.isRigid, Descriptor.isUnion]
  obtain ⟨b, hb, hxb⟩ := hleft x (hx.mem htable.normal hwhole)
  obtain rfl := hxb.eq_of_isRigid hrigid
  have hmembers := members_of_isUnion hwhole
  have hxy : x ∈ table.members y := (hy x).mpr ⟨x, hb, hmembers ▸ List.mem_singleton_self x⟩
  have hsubset : ∀ member ∈ table.members y, member = x := by
    intro member hmember
    obtain ⟨b, hb, hmember⟩ := (hy member).mp hmember
    obtain hxb | hnil := hx.equivalent_or_members_eq_nil htable hright hwhole hb
    · rwa [← hxb.eq_of_isRigid hrigid, hmembers, List.mem_singleton] at hmember
    · rw [hnil] at hmember
      exact (List.not_mem_nil hmember).elim
  obtain heq | hnil := eq_of_members_subset htable.normal hsubset
  · exact heq.symm
  · rw [hnil] at hxy
    exact (List.not_mem_nil hxy).elim

omit hleft in
/-- If both sides come down to a single type, then these are equivalent already. -/
theorem Gathers.equivalent_of_whole (hwhole : (table.get x).isUnion = false)
    (hother : (table.get y).isUnion = false) : table.Equivalent x y := by
  have hmem : y ∈ bs := hy.mem htable.normal hother
  obtain hxy | hnil := hx.equivalent_or_members_eq_nil htable hright hwhole hmem
  · exact hxy
  · simp [members_of_isUnion hother] at hnil

theorem Gathers.equivalent : table.Equivalent x y := by
  have hback : ∀ b ∈ bs, ∃ a ∈ as, table.Equivalent b a := fun b hb ↦
    (hright b hb).imp fun _ ha ↦ ⟨ha.1, ha.2.symm⟩
  have hforth : ∀ a ∈ as, ∃ b ∈ bs, table.Equivalent b a := fun a ha ↦
    (hleft a ha).imp fun _ hb ↦ ⟨hb.1, hb.2.symm⟩
  cases hxrigid : (table.get x).isRigid with
  | true => exact hx.eq_of_isRigid htable hy hleft hright hxrigid ▸ .same
  | false =>
      cases hyrigid : (table.get y).isRigid with
      | true => exact hy.eq_of_isRigid htable hx hback hforth hyrigid ▸ .same
      | false =>
          by_cases hcontainers : ∃ name items others, table.get x = .generic name items ∧
              table.get y = .generic name others
          · obtain ⟨name, items, others, left, right⟩ := hcontainers
            exact hx.equivalent_of_whole htable hy hright (left ▸ rfl) (right ▸ rfl)
          · exact .mutually (fun name items others left right ↦
              hcontainers ⟨name, items, others, left, right⟩) hxrigid hyrigid
              (hx.structural htable hy hleft) (hy.structural htable hx hback)

end Unions

/-- Types that are neither rigid nor containers. -/
theorem Equivalent.of_structural (hcontainer : ∀ name items, table.get a ≠ .generic name items)
    (left : (table.get a).isRigid = false) (right : (table.get b).isRigid = false)
    (forth : table.Structural a b) (back : table.Structural b a) : table.Equivalent a b :=
  .mutually (fun name items _ hget _ ↦ hcontainer name items hget) left right forth back

theorem structural_of_fields {fields others : List Field}
    (hx : table.get x = .shape (canonicalFields fields))
    (hy : table.get y = .shape (canonicalFields others))
    (h : ∀ field, others.find? (·.name == field.name) = some field →
      ∃ other, fields.find? (·.name == field.name) = some other ∧
        table.Structural other.type field.type) : table.Structural x y := by
  have hsource : table.fieldsOf? (table.get x) = some (canonicalFields fields) := by rw [hx]; rfl
  have htarget : table.fieldsOf? (table.get y) = some (canonicalFields others) := by rw [hy]; rfl
  refine .of_accepts (.shapes hsource htarget fun want hwant ↦ ?_)
  have hdistinct : ((canonicalFields others).map Field.name).Nodup :=
    List.pairwise_map.mpr ((pairwise_canonicalFields others).imp fun hlt ↦ hlt.ne)
  have hfirst := find?_eq_some_of_nodup hdistinct hwant
  rw [find?_canonicalFields] at hfirst
  rw [find?_canonicalFields]
  exact h want hfirst

theorem equivalent_of_fields {fields others : List Field}
    (hx : table.get x = .shape (canonicalFields fields))
    (hy : table.get y = .shape (canonicalFields others))
    (h : ∀ name, Option.Rel (FieldAlike table.Equivalent) (fields.find? (·.name == name))
      (others.find? (·.name == name))) : table.Equivalent x y := by
  have hrigid : ∀ {id listed}, table.get id = .shape listed → (table.get id).isRigid = false :=
    fun hget ↦ hget ▸ rfl
  refine .of_structural (by simp [hx]) (hrigid hx) (hrigid hy) ?_ ?_
  · refine structural_of_fields hx hy fun field hfield ↦ ?_
    have hrelated := h field.name
    rw [hfield] at hrelated
    generalize fields.find? (·.name == field.name) = found at hrelated ⊢
    cases hrelated with
    | some halike => exact ⟨_, rfl, halike.2.structural⟩
  · refine structural_of_fields hy hx fun field hfield ↦ ?_
    have hrelated := h field.name
    rw [hfield] at hrelated
    generalize others.find? (·.name == field.name) = found at hrelated ⊢
    cases hrelated with
    | some halike => exact ⟨_, rfl, halike.2.symm.structural⟩

/-- Types that a table has interned for descriptors with equivalent parts are equivalent. -/
theorem equivalent_of_reads (htable : table.Built) (hx : x < table.size) (hy : y < table.size)
    {descriptor other : Descriptor} (h : descriptor.Congruent table.Equivalent other)
    (hleft : table.Reads x descriptor) (hright : table.Reads y other) : table.Equivalent x y := by
  cases h with
  | reordered distinct each order =>
      refine equivalent_of_fields hleft hright fun name ↦ ?_
      rw [← find?_eq_of_perm order distinct name]
      exact find?_alike each name
  | alike each =>
      cases each with
      | leaf simple =>
          have hsame : table.get x = table.get y := by
            cases descriptor with
            | union | shape => simp [Descriptor.isLeaf] at simple
            | _ => exact Eq.trans hleft (Eq.symm hright)
          exact htable.eq_of_get_eq hx hy hsame ▸ .same
      | generic name each => exact .of_forall₂ hleft hright each
      | @array a b element =>
          have hxget : table.get x = .array a := hleft
          have hyget : table.get y = .array b := hright
          exact .of_structural (by simp [hxget]) (hxget ▸ rfl) (hyget ▸ rfl)
            (.of_accepts (.arrays hxget hyget element.structural))
            (.of_accepts (.arrays hyget hxget element.symm.structural))
      | @tuple as bs each =>
          have hxget : table.get x = .tuple as := hleft
          have hyget : table.get y = .tuple bs := hright
          have hback := each.flip.imp fun _ _ hpart ↦ hpart.symm.structural
          exact .of_structural (by simp [hxget]) (hxget ▸ rfl) (hyget ▸ rfl)
            (.of_accepts (.tuples hxget hyget (each.imp fun _ _ hpart ↦ hpart.structural)))
            (.of_accepts (.tuples hyget hxget hback))
      | shape each => exact equivalent_of_fields hleft hright (find?_alike each)
      | union left right => exact Gathers.equivalent htable hleft hright left right

/-- Interning changes no equivalence; an identity of no descriptor is equivalent to itself alone. -/
theorem Develops.equivalent (h : table.Develops later) (htable : table.Built)
    (hab : table.isEquivalent a b = true) : later.Equivalent a b := by
  have hequivalent : table.Equivalent a b := (isEquivalent_iff htable).mp hab
  by_cases hinside : a < table.size ∧ b < table.size
  · rw [← h.isEquivalent_eq htable hinside.1 hinside.2] at hab
    exact (isEquivalent_iff h.built).mp hab
  · have heq : a = b := by
      rcases not_and_or.mp hinside with ha | hb
      · exact hequivalent.eq_of_isRigid (by rw [get_of_size_le (Nat.le_of_not_lt ha)]; rfl)
      · refine (hequivalent.symm.eq_of_isRigid ?_).symm
        rw [get_of_size_le (Nat.le_of_not_lt hb)]
        rfl
    exact heq ▸ .same

/-- In a table that is built, whatever shapes its classes have, interning two descriptors that
differ in equivalent parts only gives equivalent types.  The parts of containers, arrays and tuples
stand in the same order.  Object types have the same names, in the same order or, if these are
different from each other, in any order.  Of unions each member has an equivalent one on the other
side, and it does not matter which of them are unions again, or how many members are left. -/
theorem isEquivalent_intern (h : table.Built) {descriptor other : Descriptor}
    (hparts : ∀ part ∈ descriptor.parts, part < table.size)
    (hothers : ∀ part ∈ other.parts, part < table.size)
    (hcongruent : descriptor.Congruent (fun a b ↦ table.isEquivalent a b = true) other) :
    let first := table.intern descriptor
    let second := first.2.intern other
    second.2.isEquivalent first.1 second.1 = true := by
  intro first second
  have hfirst : table.Develops first.2 := h.develops hparts
  have hlater : ∀ part ∈ other.parts, part < first.2.size := fun part hpart ↦
    (hothers part hpart).trans_le hfirst.grows.size_le
  have hsecond : first.2.Develops second.2 := hfirst.built.develops hlater
  have hlt : first.1 < first.2.size := h.intern_lt_size hparts
  have hleft : second.2.Reads first.1 descriptor :=
    (h.reads_intern hparts).grows hsecond.grows hlt fun part hpart ↦
      (hparts part hpart).trans_le hfirst.grows.size_le
  have hright : second.2.Reads second.1 other := hfirst.built.reads_intern hlater
  rw [isEquivalent_iff hsecond.built]
  refine equivalent_of_reads hsecond.built (hlt.trans_le hsecond.grows.size_le)
    (hfirst.built.intern_lt_size hlater) (hcongruent.imp fun a b hab ↦ ?_) hleft hright
  exact (hfirst.trans hsecond).equivalent h hab

/-- The linked classes or nothing, and lists of them: two unions that are flattened.  `Right | null`
has the identity 3 and `Left | null` the identity 4. -/
theorem linkedLists_isEquivalent_unions : linkedLists.Built ∧
    (Descriptor.union [3, 5]).Congruent (fun a b ↦ linkedLists.isEquivalent a b = true)
      (.union [4, 6]) ∧
    ((linkedLists.intern (.union [3, 5])).2.intern (.union [4, 6])).2.isEquivalent
      (linkedLists.intern (.union [3, 5])).1
      ((linkedLists.intern (.union [3, 5])).2.intern (.union [4, 6])).1 = true := by
  have hnullable : linkedLists.isEquivalent 3 4 = true := by decide
  have hlists : linkedLists.isEquivalent 5 6 = true := by decide
  have hcongruent : (Descriptor.union [3, 5]).Congruent
      (fun a b ↦ linkedLists.isEquivalent a b = true) (.union [4, 6]) :=
    .alike (Descriptor.alike_union_of_forall₂ (.cons hnullable (.cons hlists .nil)))
  exact ⟨linkedLists_built, hcongruent,
    isEquivalent_intern linkedLists_built (by decide) (by decide) hcongruent⟩

end TypeTable

end Wiring
