import Wiring.Proofs.Lists
import Wiring.Proofs.Types.Structural

/-!
# Comparisons decide the structural relation

A comparison carries the pairs of shapes it is inside of.  An answer of yes rests on these pairs
alone, structural pairs are never answered with no, and within the depth that a table allows every
comparison has an answer.  Without assumptions the answer is therefore the structural relation.
-/

namespace Wiring

section Loops

variable {α : Type} {p : α → Option Bool} {items : List α}

theorem allM_cons_eq (p : α → Option Bool) (item : α) (items : List α) :
    (item :: items).allM p = (p item).bind fun answer ↦
      if answer then items.allM p else some false := by
  rw [List.allM_cons]
  cases p item with
  | none => rfl
  | some answer => cases answer <;> rfl

theorem anyM_cons_eq (p : α → Option Bool) (item : α) (items : List α) :
    (item :: items).anyM p = (p item).bind fun answer ↦
      if answer then some true else items.anyM p := by
  rw [List.anyM_cons]
  cases p item with
  | none => rfl
  | some answer => cases answer <;> rfl

theorem eq_some_true_of_allM (h : items.allM p = some true) :
    ∀ item ∈ items, p item = some true := by
  induction items with
  | nil => simp
  | cons head tail ih =>
      rw [allM_cons_eq] at h
      obtain ⟨answer, hhead, htail⟩ := Option.bind_eq_some_iff.mp h
      cases answer <;> simp_all

theorem allM_ne_some_false (h : ∀ item ∈ items, p item ≠ some false) :
    items.allM p ≠ some false := by
  induction items with
  | nil => simp
  | cons head tail ih =>
      intro hfalse
      rw [allM_cons_eq] at hfalse
      obtain ⟨answer, hhead, htail⟩ := Option.bind_eq_some_iff.mp hfalse
      cases answer <;> simp_all

theorem allM_ne_none (h : ∀ item ∈ items, p item ≠ none) : items.allM p ≠ none := by
  induction items with
  | nil => simp
  | cons head tail ih =>
      obtain ⟨answer, hhead⟩ := Option.ne_none_iff_exists'.mp (h head (by simp))
      cases answer <;> simp_all

theorem exists_eq_some_true_of_anyM (h : items.anyM p = some true) :
    ∃ item ∈ items, p item = some true := by
  induction items with
  | nil => simp at h
  | cons head tail ih =>
      rw [anyM_cons_eq] at h
      obtain ⟨answer, hhead, htail⟩ := Option.bind_eq_some_iff.mp h
      cases answer <;> simp_all

theorem anyM_ne_some_false {item : α} (hitem : item ∈ items) (h : p item ≠ some false) :
    items.anyM p ≠ some false := by
  induction items with
  | nil => simp at hitem
  | cons head tail ih =>
      intro hfalse
      rw [anyM_cons_eq] at hfalse
      obtain ⟨answer, hhead, htail⟩ := Option.bind_eq_some_iff.mp hfalse
      rcases List.mem_cons.mp hitem with rfl | htail'
      · cases answer <;> simp_all
      · cases answer <;> simp_all

theorem anyM_ne_none (h : ∀ item ∈ items, p item ≠ none) : items.anyM p ≠ none := by
  induction items with
  | nil => simp
  | cons head tail ih =>
      obtain ⟨answer, hhead⟩ := Option.ne_none_iff_exists'.mp (h head (by simp))
      cases answer <;> simp_all

end Loops

namespace TypeTable

section Pairwise

variable {deeper : TypeId → TypeId → Option Bool} {as bs : List TypeId}

theorem forall₂_of_pairwise (h : pairwise deeper as bs = some true) :
    List.Forall₂ (fun a b ↦ deeper a b = some true) as bs := by
  rw [pairwise] at h
  split_ifs at h with hlength
  · exact List.forall₂_iff_zip.mpr ⟨hlength, fun hpair ↦ eq_some_true_of_allM h _ hpair⟩
  · simp at h

theorem pairwise_ne_some_false (h : List.Forall₂ (fun a b ↦ deeper a b ≠ some false) as bs) :
    pairwise deeper as bs ≠ some false := by
  obtain ⟨hlength, hpair⟩ := List.forall₂_iff_zip.mp h
  rw [pairwise, if_pos hlength]
  exact allM_ne_some_false fun _ hmem ↦ hpair hmem

theorem pairwise_ne_none (h : ∀ a ∈ as, ∀ b ∈ bs, deeper a b ≠ none) :
    pairwise deeper as bs ≠ none := by
  rw [pairwise]
  split_ifs
  · exact allM_ne_none fun pair hpair ↦
      h _ (List.of_mem_zip hpair).1 _ (List.of_mem_zip hpair).2
  · simp

end Pairwise

variable {table : TypeTable} {deeper : Comparison} {assumed : Assumed} {a b : ℕ}

/-! ## One level -/

theorem eq_of_fieldsOf? {descriptor : Descriptor} {fields : List Field}
    (h : table.fieldsOf? descriptor = some fields) :
    (∃ name, descriptor = .nominal name ∧ fields = table.classFields name) ∨
      descriptor = .shape fields := by
  cases descriptor <;> simp_all [fieldsOf?]

theorem accepts_of_fits {wanted : List Field}
    (hwhole : (table.get a).isUnion = false)
    (htarget : table.fieldsOf? (table.get b) = some wanted)
    (h : table.fits deeper assumed a b wanted = some true) :
    (a, b) ∈ assumed ∨
      table.Accepts (fun x y ↦ deeper ((a, b) :: assumed) x y = some true) a b := by
  rw [fits] at h
  split at h
  · next hsource =>
      have hfit : (table.get a).isNullish = false ∧ wanted = [] := by simpa using h
      exact Or.inr (.fieldless hwhole hsource hfit.1 (by rw [htarget, hfit.2]))
  · next fields hsource =>
      split_ifs at h with hmem
      · exact Or.inl hmem
      · refine Or.inr (.shapes hsource htarget fun want hwant ↦ ?_)
        have hwanted := eq_some_true_of_allM h want hwant
        split at hwanted
        · next field hfield => exact ⟨field, hfield, hwanted⟩
        · simp at hwanted

/-- A yes is justified by the rules from answers of yes about the parts, or was assumed.  Parts
are compared under the same assumptions, except that fields of shapes add the pair itself. -/
theorem accepts_of_assignableStep (h : table.assignableStep deeper assumed a b = some true) :
    (a, b) ∈ assumed ∨ table.Accepts (fun x y ↦ deeper assumed x y = some true) a b ∨
      table.Accepts (fun x y ↦ deeper ((a, b) :: assumed) x y = some true) a b := by
  rw [assignableStep] at h
  split_ifs at h with heq
  · subst heq
    exact Or.inr (Or.inl .same)
  · split at h
    · next source => exact Or.inr (Or.inl (.fromDynamic source))
    · next target _ => exact Or.inr (Or.inl (.toDynamic target))
    · next source _ => exact Or.inr (Or.inl (.fromUnion source (eq_some_true_of_allM h)))
    · next target _ hwhole =>
        obtain ⟨member, hmem, hone⟩ := exists_eq_some_true_of_anyM h
        exact Or.inr (Or.inl (.toUnion (Descriptor.isUnion_eq_false hwhole) target hmem hone))
    · simp at h
    · simp at h
    · simp at h
    · next target _ hwhole hprimitive hliteral henumeration =>
        exact Or.inr (Or.inl (.toObject (Descriptor.isUnion_eq_false hwhole)
          (Descriptor.isScalar_eq_false hprimitive hliteral henumeration) target))
    · next value kind _ source target =>
        have hkind : value.widened = kind := by simpa using h
        exact Or.inr (Or.inl (.widened source (hkind ▸ target)))
    · next source target => exact Or.inr (Or.inl (.arrays source target h))
    · next source target =>
        exact Or.inr (Or.inl (.tupleToArray source target (eq_some_true_of_allM h)))
    · next source target => exact Or.inr (Or.inl (.tuples source target (forall₂_of_pairwise h)))
    · next name items other wanted source target =>
        split_ifs at h with hname
        · subst hname
          exact Or.inr (Or.inl (.containers source target (forall₂_of_pairwise h)))
        · simp at h
    · next target _ hwhole =>
        have hfields := congrArg table.fieldsOf? target
        exact (accepts_of_fits (Descriptor.isUnion_eq_false hwhole) hfields h).imp_right Or.inr
    · next target _ hwhole =>
        have hfields := congrArg table.fieldsOf? target
        exact (accepts_of_fits (Descriptor.isUnion_eq_false hwhole) hfields h).imp_right Or.inr
    · simp at h

theorem fits_ne_some_false {R : TypeId → TypeId → Prop} {fields wanted : List Field}
    (hdeeper : ∀ assumed x y, R x y → deeper assumed x y ≠ some false)
    (hsource : table.fieldsOf? (table.get a) = some fields)
    (hfields : ∀ want ∈ wanted, ∃ field, fields.find? (·.name == want.name) = some field ∧
      R field.type want.type) : table.fits deeper assumed a b wanted ≠ some false := by
  rw [fits, hsource]
  dsimp only
  split_ifs
  · simp
  · refine allM_ne_some_false fun want hwant ↦ ?_
    obtain ⟨field, hfield, hpart⟩ := hfields want hwant
    rw [hfield]
    exact hdeeper _ _ _ hpart

/-- What the rules justify by parts that are not answered with no is not answered with no. -/
theorem assignableStep_ne_some_false {R : TypeId → TypeId → Prop}
    (hdeeper : ∀ assumed x y, R x y → deeper assumed x y ≠ some false)
    (h : table.Accepts R a b) : table.assignableStep deeper assumed a b ≠ some false := by
  rw [assignableStep]
  split_ifs with heq
  · simp
  cases h with
  | same => exact (heq rfl).elim
  | fromDynamic source => simp [source]
  | toDynamic target => cases hsource : table.get a <;> simp [target]
  | fromUnion source each =>
      have hall := allM_ne_some_false fun member hmem ↦ hdeeper assumed _ _ (each member hmem)
      cases htarget : table.get b <;> simp_all
  | toUnion whole target mem one =>
      have hany := anyM_ne_some_false mem (hdeeper assumed _ _ one)
      cases hsource : table.get a <;> simp_all [Descriptor.isUnion]
  | toObject whole object target =>
      cases hsource : table.get a <;> simp_all [Descriptor.isUnion, Descriptor.isScalar]
  | @widened _ value source target => cases value <;> simp [source, target, Literal.widened]
  | arrays source target part => simpa [source, target] using hdeeper assumed _ _ part
  | tupleToArray source target each =>
      have hall := allM_ne_some_false fun item hitem ↦ hdeeper assumed _ _ (each item hitem)
      simpa [source, target] using hall
  | tuples source target each =>
      have hpair := pairwise_ne_some_false (each.imp fun x y hpart ↦ hdeeper assumed x y hpart)
      simpa [source, target] using hpair
  | containers source target each =>
      have hpair := pairwise_ne_some_false (each.imp fun x y hpart ↦ hdeeper assumed x y hpart)
      simpa [source, target] using hpair
  | shapes source target each =>
      have hfits : table.fits deeper assumed a b _ ≠ some false :=
        fits_ne_some_false hdeeper source each
      obtain ⟨name, hsource, -⟩ | hsource := eq_of_fieldsOf? source <;>
        obtain ⟨other, htarget, rfl⟩ | htarget := eq_of_fieldsOf? target <;>
          simpa [hsource, htarget] using hfits
  | fieldless whole source present target =>
      have hfits : table.fits deeper assumed a b [] ≠ some false := by
        rw [fits, source]
        simp [present]
      obtain ⟨name, htarget, hempty⟩ | htarget := eq_of_fieldsOf? target
      · rw [hempty] at hfits
        cases hsource : table.get a <;> simp_all [Descriptor.isUnion, fieldsOf?]
      · cases hsource : table.get a <;> simp_all [Descriptor.isUnion, fieldsOf?]

theorem mem_fields_lt_size (hparts : table.PartsDescend) (hpresent : table.FieldsPresent)
    {id : TypeId} {fields : List Field} (h : table.fieldsOf? (table.get id) = some fields)
    {field : Field} (hfield : field ∈ fields) : field.type < table.size := by
  obtain ⟨name, -, rfl⟩ | hshape := eq_of_fieldsOf? h
  · exact hpresent name field hfield
  · have hpart : field.type ∈ (table.get id).parts := by
      rw [hshape]
      exact List.mem_map_of_mem hfield
    exact hparts.lt_size hpart

theorem fits_ne_none (hparts : table.PartsDescend) (hpresent : table.FieldsPresent)
    {wanted : List Field} (htarget : table.fieldsOf? (table.get b) = some wanted)
    (hdeeper : (a, b) ∉ assumed → ∀ x < table.size, ∀ y < table.size,
      deeper ((a, b) :: assumed) x y ≠ none) : table.fits deeper assumed a b wanted ≠ none := by
  rw [fits]
  split
  · simp
  · next fields hsource =>
      split_ifs with hmem
      · simp
      · refine allM_ne_none fun want hwant ↦ ?_
        split
        · next field hfield =>
            exact hdeeper hmem _
              (mem_fields_lt_size hparts hpresent hsource (List.mem_of_find?_eq_some hfield)) _
              (mem_fields_lt_size hparts hpresent htarget hwant)
        · simp

/-- One level has an answer when smaller pairs have one, and when pairs of fields have one under
the assumption of the pair itself. -/
theorem assignableStep_ne_none (hparts : table.PartsDescend) (hpresent : table.FieldsPresent)
    (ha : a < table.size) (hb : b < table.size)
    (hsmaller : ∀ x < table.size, ∀ y < table.size, x + y < a + b → deeper assumed x y ≠ none)
    (hfields : (a, b) ∉ assumed → ∀ x < table.size, ∀ y < table.size,
      deeper ((a, b) :: assumed) x y ≠ none) : table.assignableStep deeper assumed a b ≠ none := by
  have hsource : ∀ x ∈ (table.get a).parts, x < a := hparts a
  have htarget : ∀ y ∈ (table.get b).parts, y < b := hparts b
  -- Each loop runs over parts of one side or of both, so the sum of the identities goes down.
  have hboth : ∀ x ∈ (table.get a).parts, ∀ y ∈ (table.get b).parts, deeper assumed x y ≠ none := by
    intro x hx y hy
    have hxa := hsource x hx
    have hyb := htarget y hy
    exact hsmaller x (Nat.lt_trans hxa ha) y (Nat.lt_trans hyb hb) (Nat.add_lt_add hxa hyb)
  have hleft : ∀ x ∈ (table.get a).parts, deeper assumed x b ≠ none := by
    intro x hx
    have hxa := hsource x hx
    exact hsmaller x (Nat.lt_trans hxa ha) b hb (Nat.add_lt_add_right hxa b)
  have hright : ∀ y ∈ (table.get b).parts, deeper assumed a y ≠ none := by
    intro y hy
    have hyb := htarget y hy
    exact hsmaller a ha y (Nat.lt_trans hyb hb) (Nat.add_lt_add_left hyb a)
  rw [assignableStep]
  split_ifs
  · simp
  · split
    · simp
    · simp
    · next source _ =>
        rw [source] at hleft
        exact allM_ne_none hleft
    · next target _ _ =>
        rw [target] at hright
        exact anyM_ne_none hright
    · simp
    · simp
    · simp
    · simp
    · simp
    · next source target =>
        rw [source, target] at hboth
        exact hboth _ List.mem_cons_self _ List.mem_cons_self
    · next source target =>
        rw [source, target] at hboth
        exact allM_ne_none fun item hitem ↦ hboth item hitem _ List.mem_cons_self
    · next source target =>
        rw [source, target] at hboth
        exact pairwise_ne_none hboth
    · next source target =>
        rw [source, target] at hboth
        split_ifs
        · exact pairwise_ne_none hboth
        · simp
    · next target _ _ =>
        exact fits_ne_none hparts hpresent (congrArg table.fieldsOf? target) hfields
    · next target _ _ =>
        exact fits_ne_none hparts hpresent (congrArg table.fieldsOf? target) hfields
    · simp

/-! ## Whole comparisons -/

theorem structuralUnder_of_assignableWithin {depth : ℕ}
    (h : table.assignableWithin depth assumed a b = some true) :
    (a, b) ∈ assumed ∨ table.StructuralUnder assumed a b := by
  induction depth generalizing assumed a b with
  | zero => simp [assignableWithin] at h
  | succ depth ih =>
      obtain hassumed | hparts | hfields := accepts_of_assignableStep h
      · exact Or.inl hassumed
      · exact Or.inr (.intro (hparts.mono fun x y hxy ↦ ih hxy))
      · exact Or.inr (.of_cons (.intro (hfields.mono fun x y hxy ↦ ih hxy)))

theorem assignableWithin_ne_some_false {R : TypeId → TypeId → Prop} (hR : table.Consistent R)
    (depth : ℕ) (h : R a b) : table.assignableWithin depth assumed a b ≠ some false := by
  induction depth generalizing assumed a b with
  | zero => simp [assignableWithin]
  | succ depth ih => exact assignableStep_ne_some_false (fun _ _ _ hxy ↦ ih hxy) (hR a b h)

/-- The depth that is left has to pay for the pairs that are not assumed yet, each of which may be
followed by steps to smaller identities, and for the present pair. -/
theorem assignableWithin_ne_none (hparts : table.PartsDescend) (hpresent : table.FieldsPresent)
    {depth : ℕ} (hassumed : DistinctBelow table.size table.size assumed) (ha : a < table.size)
    (hb : b < table.size)
    (hdepth : (table.size * table.size - assumed.length) * (2 * table.size + 1) + a + b < depth) :
    table.assignableWithin depth assumed a b ≠ none := by
  induction depth generalizing assumed a b with
  | zero => omega
  | succ depth ih =>
      refine assignableStep_ne_none hparts hpresent ha hb ?_ ?_
      · intro x hx y hy hless
        exact ih hassumed hx hy (by omega)
      · intro hnew x hx y hy
        have hcons := hassumed.cons ha hb hnew
        have hlength := hcons.length_le
        rw [List.length_cons] at hlength
        have hleft : table.size * table.size - assumed.length =
            (table.size * table.size - (assumed.length + 1)) + 1 := by omega
        rw [hleft, Nat.succ_mul] at hdepth
        refine ih hcons hx hy ?_
        rw [List.length_cons]
        omega

theorem assignableStep_of_size_le (h : table.size ≤ a ∨ table.size ≤ b) :
    table.assignableStep deeper assumed a b = some true := by
  rw [assignableStep]
  split_ifs
  · rfl
  · rcases h with ha | hb
    · simp [get_of_size_le ha]
    · rw [get_of_size_le hb]
      cases table.get a <;> rfl

theorem assignableWithin_isSome (h : table.Built) {depth : ℕ}
    (hdepth : table.comparisonDepth ≤ depth) :
    ∃ answer, table.assignableWithin depth [] a b = some answer := by
  refine Option.ne_none_iff_exists'.mp ?_
  rw [comparisonDepth, Nat.succ_mul] at hdepth
  by_cases hinside : a < table.size ∧ b < table.size
  · refine assignableWithin_ne_none h.partsDescend h.fieldsPresent .nil hinside.1 hinside.2 ?_
    rw [List.length_nil, Nat.sub_zero]
    omega
  · obtain ⟨depth, rfl⟩ : ∃ less, depth = less + 1 := ⟨depth - 1, by omega⟩
    rw [assignableWithin, assignableStep_of_size_le (by omega)]
    simp

/-- Without assumptions an answer is never wrong, whatever the depth. -/
theorem answer_iff_structural {depth : ℕ} {answer : Bool}
    (h : table.assignableWithin depth [] a b = some answer) :
    answer = true ↔ table.Structural a b := by
  constructor
  · rintro rfl
    have hunder := structuralUnder_of_assignableWithin h
    exact structuralUnder_nil.mp (hunder.resolve_left List.not_mem_nil)
  · rintro ⟨R, hR, hconsistent⟩
    have hyes : table.assignableWithin depth [] a b ≠ some false :=
      assignableWithin_ne_some_false hconsistent depth hR
    cases answer with
    | true => rfl
    | false => exact (hyes h).elim

theorem assignableWithin_eq_some (h : table.Built) {depth : ℕ}
    (hdepth : table.comparisonDepth ≤ depth) (a b : ℕ) :
    table.assignableWithin depth [] a b = some (table.isAssignable a b) := by
  obtain ⟨answer, hanswer⟩ := assignableWithin_isSome (a := a) (b := b) h hdepth
  obtain ⟨least, hleast⟩ := assignableWithin_isSome (a := a) (b := b) h (Nat.le_refl _)
  have hsame : answer = true ↔ least = true :=
    (answer_iff_structural hanswer).trans (answer_iff_structural hleast).symm
  rw [hanswer, isAssignable, hleast, Option.getD_some, Bool.eq_iff_iff.mpr hsame]

theorem isAssignable_iff (h : table.Built) :
    table.isAssignable a b = true ↔ table.Structural a b :=
  answer_iff_structural (assignableWithin_eq_some h (Nat.le_refl _) a b)

/-- In a table that is built by interning and by defining classes, every comparison ends: within
any depth from the bound on it has one and the same answer.  The answer is yes exactly for the
pairs that some relation contains which the structural rules justify pair by pair, however the
shapes of classes refer to each other. -/
theorem isAssignable_decides (h : table.Built) (source target : TypeId) :
    (∀ depth, table.comparisonDepth ≤ depth →
      table.assignableWithin depth [] source target = some (table.isAssignable source target)) ∧
    (table.isAssignable source target = true ↔
      ∃ R : TypeId → TypeId → Prop, R source target ∧ ∀ a b, R a b → table.Accepts R a b) :=
  ⟨fun _ hdepth ↦ assignableWithin_eq_some h hdepth source target, isAssignable_iff h⟩

/-- Two classes whose objects refer to each other, or to nothing: `Left` has the identity 0 and
`Right` the identity 1. -/
def linkedClasses : TypeTable :=
  let left := (TypeTable.empty.intern (.nominal "Left")).2
  let right := (left.intern (.nominal "Right")).2
  let null := (right.intern (.primitive .null)).2
  let rightOrNull := (null.intern (.union [1, 2])).2
  let leftOrNull := (rightOrNull.intern (.union [0, 2])).2
  (leftOrNull.defineClass "Left" [⟨"next", 3⟩]).defineClass "Right" [⟨"next", 4⟩]

theorem linkedClasses_built : linkedClasses.Built :=
  ((((((Built.empty.intern (.nominal "Left") (by decide)).intern (.nominal "Right")
    (by decide)).intern (.primitive .null) (by decide)).intern (.union [1, 2])
    (by decide)).intern (.union [0, 2]) (by decide)).defineClass "Left" [⟨"next", 3⟩]
    (by decide)).defineClass "Right" [⟨"next", 4⟩] (by decide)

theorem linkedClasses_isAssignable : linkedClasses.Built ∧
    (∀ depth, linkedClasses.comparisonDepth ≤ depth →
      linkedClasses.assignableWithin depth [] 0 1 = some true) ∧
    ∃ R : TypeId → TypeId → Prop, R 0 1 ∧ ∀ a b, R a b → linkedClasses.Accepts R a b := by
  have hanswer : linkedClasses.isAssignable 0 1 = true := by decide
  obtain ⟨hdepth, hiff⟩ := isAssignable_decides linkedClasses_built 0 1
  exact ⟨linkedClasses_built, hanswer ▸ hdepth, hiff.mp hanswer⟩

end TypeTable

end Wiring
