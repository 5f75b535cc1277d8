import Wiring.Proofs.Types.Joined

/-!
# Classes and object types of the same fields

A class keeps all of its fields, an object type the first of each name.  Fields are found by their
names, so as sources the two are the same to every other type.  As targets they differ where a name
is repeated: the class wants each field of the name, the object type only the first.
-/

namespace Wiring

/-- The first field of the name stands in the object type. -/
theorem exists_first {fields : List Field} {field : Field} (h : field ∈ fields) :
    ∃ first ∈ canonicalFields fields, first.name = field.name ∧
      fields.find? (·.name == field.name) = some first := by
  have hsome : (fields.find? (·.name == field.name)).isSome = true :=
    List.find?_isSome.mpr ⟨field, h, by simp⟩
  obtain ⟨first, hfirst⟩ := Option.isSome_iff_exists.mp hsome
  have hname : first.name = field.name := by simpa using List.find?_some hfirst
  exact ⟨first, mem_canonicalFields_iff.mpr (hname ▸ hfirst), hname, hfirst⟩

namespace TypeTable

variable {table : TypeTable} {a b c o t : TypeId} {fields others has wanted : List Field}

/-- Each wanted field is found by its name and has an assignable type. -/
def Offers (table : TypeTable) (has wanted : List Field) : Prop :=
  ∀ want ∈ wanted, ∃ field, has.find? (·.name == want.name) = some field ∧
    table.Structural field.type want.type

theorem isUnion_of_fieldsOf? (h : table.fieldsOf? (table.get a) = some fields) :
    (table.get a).isUnion = false := by
  obtain ⟨name, hget, -⟩ | hget := eq_of_fieldsOf? h <;> rw [hget] <;> rfl

theorem isScalar_of_fieldsOf? (h : table.fieldsOf? (table.get a) = some fields) :
    (table.get a).isScalar = false := by
  obtain ⟨name, hget, -⟩ | hget := eq_of_fieldsOf? h <;> rw [hget] <;> rfl

/-- Between two types with fields nothing but their fields is compared. -/
theorem Structural.offers (ha : table.fieldsOf? (table.get a) = some has)
    (hb : table.fieldsOf? (table.get b) = some wanted) (hne : a ≠ b) (h : table.Structural a b) :
    table.Offers has wanted := by
  cases h.accepts with
  | same => exact (hne rfl).elim
  | shapes source target each =>
      obtain rfl := Option.some.inj (ha.symm.trans source)
      obtain rfl := Option.some.inj (hb.symm.trans target)
      exact each
  | toDynamic target => simp [target, fieldsOf?] at hb
  | toUnion _ target => simp [target, fieldsOf?] at hb
  | toObject _ _ target => simp [target, fieldsOf?] at hb
  | fieldless _ source => simp [source] at ha
  | fromDynamic source | fromUnion source | widened source | arrays source | tupleToArray source
  | tuples source | containers source => simp [source, fieldsOf?] at ha

/-- As a source a type with fields is known by what is found under each name. -/
theorem Structural.of_find?_eq (hnormal : table.Normal)
    (ha : table.fieldsOf? (table.get a) = some fields)
    (hb : table.fieldsOf? (table.get b) = some others)
    (hfind : ∀ name, others.find? (·.name == name) = fields.find? (·.name == name))
    (hba : table.Structural b a) (h : table.Structural a t) : table.Structural b t := by
  have hwhole := isUnion_of_fieldsOf? hb
  obtain hdynamic | ⟨member, hmember, h⟩ := h.exists_member (isUnion_of_fieldsOf? ha)
  · simp [hdynamic, fieldsOf?] at ha
  have hsingle := hnormal.isUnion_of_mem hmember
  refine .of_member hwhole hmember ?_
  cases h.accepts with
  | same => exact hba
  | toDynamic target => exact .of_accepts (.toDynamic target)
  | toUnion _ target => simp [target, Descriptor.isUnion] at hsingle
  | toObject _ _ target => exact .of_accepts (.toObject hwhole (isScalar_of_fieldsOf? hb) target)
  | shapes source target each =>
      obtain rfl := Option.some.inj (ha.symm.trans source)
      refine .of_accepts (.shapes hb target fun want hwant ↦ ?_)
      rw [hfind]
      exact each want hwant
  | fieldless _ source => simp [source] at ha
  | fromDynamic source | fromUnion source | widened source | arrays source | tupleToArray source
  | tuples source | containers source => simp [source, fieldsOf?] at ha

/-- As a target a type with fields is known by who offers them. -/
theorem Structural.to_of_offers (hnormal : table.Normal)
    (ha : table.fieldsOf? (table.get a) = some fields)
    (hb : table.fieldsOf? (table.get b) = some others) (hab : table.Structural a b)
    (hnil : fields = [] → others = [])
    (hoffers : ∀ t has, table.fieldsOf? (table.get t) = some has → table.Structural t a →
      table.Offers has fields → table.Offers has others)
    (h : table.Structural t a) : table.Structural t b := by
  refine .of_members fun member hmember ↦ ?_
  have hwhole := hnormal.isUnion_of_mem hmember
  have hmembera := h.member hnormal hmember
  cases hmembera.accepts with
  | same => exact hab
  | fromDynamic source => exact .of_accepts (.fromDynamic source)
  | fromUnion source => simp [source, Descriptor.isUnion] at hwhole
  | shapes source target each =>
      obtain rfl := Option.some.inj (ha.symm.trans target)
      exact .of_accepts (.shapes source hb (hoffers member _ source hmembera each))
  | fieldless _ source present target =>
      have hempty : others = [] := hnil (Option.some.inj (ha.symm.trans target))
      exact .of_accepts (.fieldless hwhole source present (hempty ▸ hb))
  | toDynamic target | toUnion _ target | toObject _ _ target | widened _ target | arrays _ target
  | tupleToArray _ target | tuples _ target | containers _ target =>
      simp [target, fieldsOf?] at ha

/-- The one is a class with the fields, the other the object type of these fields. -/
structure ClassAndShape (table : TypeTable) (c o : TypeId) (fields : List Field) : Prop where
  recorded : ∃ name, table.get c = .nominal name ∧ table.classFields name = sortFields fields
  interned : table.get o = .shape (canonicalFields fields)

/-- No comparison with any type tells the two apart. -/
def ComparesAlike (table : TypeTable) (a b : TypeId) : Prop :=
  ∀ t, table.isAssignable a t = table.isAssignable b t ∧
    table.isAssignable t a = table.isAssignable t b

theorem comparesAlike_iff (hbuilt : table.Built) : table.ComparesAlike a b ↔ ∀ t,
    (table.Structural a t ↔ table.Structural b t) ∧
      (table.Structural t a ↔ table.Structural t b) := by
  simp only [ComparesAlike, Bool.eq_iff_iff, isAssignable_iff hbuilt]

namespace ClassAndShape

variable (h : table.ClassAndShape c o fields)

include h

theorem fieldsOf?_class : table.fieldsOf? (table.get c) = some (sortFields fields) := by
  obtain ⟨name, hget, hrecorded⟩ := h.recorded
  rw [hget, fieldsOf?, hrecorded]

theorem fieldsOf?_shape : table.fieldsOf? (table.get o) = some (canonicalFields fields) := by
  rw [h.interned, fieldsOf?]

theorem ne : c ≠ o := by
  rintro rfl
  obtain ⟨name, hget, -⟩ := h.recorded
  simp [h.interned] at hget

theorem structural : table.Structural c o := by
  refine .of_accepts (.shapes h.fieldsOf?_class h.fieldsOf?_shape fun want hwant ↦ ?_)
  have hfirst := mem_canonicalFields_iff.mp hwant
  exact ⟨want, (find?_sortFields fields want.name).trans hfirst, .refl want.type⟩

variable (hnormal : table.Normal)

include hnormal

theorem structural_class_of_shape (ht : table.Structural o t) : table.Structural c t := by
  refine .of_find?_eq hnormal h.fieldsOf?_shape h.fieldsOf?_class (fun name ↦ ?_) h.structural ht
  rw [find?_sortFields, find?_canonicalFields]

theorem structural_to_shape_of_class (ht : table.Structural t c) : table.Structural t o := by
  refine .to_of_offers hnormal h.fieldsOf?_class h.fieldsOf?_shape h.structural ?_ ?_ ht
  · intro hnil
    rw [canonicalFields, hnil]
    rfl
  · intro t has _ _ hoffers want hwant
    exact hoffers want (mem_sortFields.mpr (mem_of_mem_canonicalFields hwant))

/-- What the object type accepts has the fields, of types that the repetitions accept too. -/
theorem structural_to_class_of_shape
    (hfit : ∀ t has, table.fieldsOf? (table.get t) = some has → table.Structural t o →
      ∀ want ∈ fields, ∀ field, has.find? (·.name == want.name) = some field →
        table.Structural field.type want.type)
    (ht : table.Structural t o) : table.Structural t c := by
  have hoffers : ∀ t has, table.fieldsOf? (table.get t) = some has → table.Structural t o →
      table.Offers has (canonicalFields fields) → table.Offers has (sortFields fields) := by
    intro t has hhas ht hoffers want hwant
    have hlisted := mem_sortFields.mp hwant
    obtain ⟨first, hfirst, hname, -⟩ := exists_first hlisted
    obtain ⟨field, hfield, -⟩ := hoffers first hfirst
    rw [hname] at hfield
    exact ⟨field, hfield, hfit t has hhas ht want hlisted field hfield⟩
  have hself : table.Offers (canonicalFields fields) (canonicalFields fields) := fun want hwant ↦
    ⟨want, (find?_canonicalFields fields want.name).trans (mem_canonicalFields_iff.mp hwant),
      .refl want.type⟩
  have hshape : table.Structural o c := .of_accepts (.shapes h.fieldsOf?_shape h.fieldsOf?_class
    (hoffers o _ h.fieldsOf?_shape (.refl o) hself))
  refine .to_of_offers hnormal h.fieldsOf?_shape h.fieldsOf?_class hshape (fun hnil ↦ ?_) hoffers ht
  by_contra hne
  obtain ⟨field, hfield⟩ := List.exists_mem_of_ne_nil _ hne
  obtain ⟨first, hfirst, -⟩ := exists_first (mem_sortFields.mp hfield)
  exact List.ne_nil_of_mem hfirst hnil

theorem structural_class_iff (hshape : table.Structural o c) :
    table.Structural c t ↔ table.Structural o t := by
  refine ⟨fun ht ↦ ?_, h.structural_class_of_shape hnormal⟩
  refine .of_find?_eq hnormal h.fieldsOf?_class h.fieldsOf?_shape (fun name ↦ ?_) hshape ht
  rw [find?_sortFields, find?_canonicalFields]

omit hnormal

theorem comparesAlike_iff (hbuilt : table.Built) : table.ComparesAlike c o ↔
    ∀ t has, table.fieldsOf? (table.get t) = some has → table.Structural t o →
      ∀ want ∈ fields, ∀ field, has.find? (·.name == want.name) = some field →
        table.Structural field.type want.type := by
  rw [TypeTable.comparesAlike_iff hbuilt]
  constructor
  · intro halike t has hhas ht want hwant field hfield
    -- The class itself has the same first fields as the object type.
    obtain ⟨t, has, hhas, ht, hne, hfield⟩ : ∃ t has, table.fieldsOf? (table.get t) = some has ∧
        table.Structural t c ∧ t ≠ c ∧ has.find? (·.name == want.name) = some field := by
      by_cases hclass : t = c
      · subst hclass
        obtain rfl := Option.some.inj (h.fieldsOf?_class.symm.trans hhas)
        refine ⟨o, _, h.fieldsOf?_shape, (halike o).2.mpr (.refl o), h.ne.symm, ?_⟩
        rwa [find?_canonicalFields, ← find?_sortFields]
      · exact ⟨t, has, hhas, (halike t).2.mpr ht, hclass, hfield⟩
    obtain ⟨found, hfound, htype⟩ := ht.offers hhas h.fieldsOf?_class hne want
      (mem_sortFields.mpr hwant)
    obtain rfl := Option.some.inj (hfound.symm.trans hfield)
    exact htype
  · intro hfit t
    have hto : ∀ {t}, table.Structural t o → table.Structural t c :=
      h.structural_to_class_of_shape hbuilt.normal hfit
    exact ⟨h.structural_class_iff hbuilt.normal (hto (.refl o)),
      h.structural_to_shape_of_class hbuilt.normal, hto⟩

/-- A name may be repeated where the first field of the name accepts no more than the others. -/
theorem comparesAlike_of_first (hbuilt : table.Built)
    (hfirst : ∀ want ∈ fields, ∀ first, fields.find? (·.name == want.name) = some first →
      ∀ x, table.Structural x first.type → table.Structural x want.type) :
    table.ComparesAlike c o := by
  refine (h.comparesAlike_iff hbuilt).mpr fun t has hhas ht want hwant field hfield ↦ ?_
  obtain ⟨first, hmem, hname, hfound⟩ := exists_first hwant
  by_cases hshape : t = o
  · subst hshape
    obtain rfl := Option.some.inj (h.fieldsOf?_shape.symm.trans hhas)
    rw [find?_canonicalFields] at hfield
    exact hfirst want hwant field hfield field.type (.refl field.type)
  · obtain ⟨found, hfind, htype⟩ := ht.offers hhas h.fieldsOf?_shape hshape first hmem
    rw [hname, hfield] at hfind
    obtain rfl := Option.some.inj hfind
    exact hfirst want hwant first hfound field.type htype

theorem comparesAlike_of_nodup (hbuilt : table.Built) (hnodup : (fields.map Field.name).Nodup) :
    table.ComparesAlike c o := by
  refine h.comparesAlike_of_first hbuilt fun want hwant first hfirst x hx ↦ ?_
  rw [find?_eq_some_of_nodup hnodup hwant] at hfirst
  exact Option.some.inj hfirst ▸ hx

end ClassAndShape

end TypeTable

end Wiring
