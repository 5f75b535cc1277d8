import Wiring.Graph.Outline
import Wiring.Proofs.Types.Assignable
import Wiring.Proofs.Types.Twins

/-!
# Comparisons in two tables

Types of two tables correspond when they are paired one to one, alike with alike.  Then two types
compare in the one table as their partners do in the other one, whatever else the tables hold and in
whichever order they have interned it.
-/

namespace Wiring

variable {R : TypeId → TypeId → Prop}

namespace Descriptor.Alike

variable {descriptor other : Descriptor}

theorem isUnion_eq (h : descriptor.Alike R other) : other.isUnion = descriptor.isUnion := by
  cases h <;> rfl

theorem isScalar_eq (h : descriptor.Alike R other) : other.isScalar = descriptor.isScalar := by
  cases h <;> rfl

theorem isNullish_eq (h : descriptor.Alike R other) : other.isNullish = descriptor.isNullish := by
  cases h <;> rfl

theorem isRigid_eq (h : descriptor.Alike R other) : other.isRigid = descriptor.isRigid := by
  cases h <;> rfl

theorem eq_of_isLeaf (h : descriptor.Alike R other) (hleaf : descriptor.isLeaf = true) :
    other = descriptor := by
  cases h with
  | leaf => rfl
  | _ => simp [isLeaf] at hleaf

theorem exists_generic {name : String} {items : List TypeId}
    (h : (Descriptor.generic name items).Alike R other) :
    ∃ others, other = .generic name others ∧ List.Forall₂ R items others := by
  cases h with
  | leaf simple => simp [isLeaf] at simple
  | generic name each => exact ⟨_, rfl, each⟩

theorem exists_array {element : TypeId} (h : (Descriptor.array element).Alike R other) :
    ∃ another, other = .array another ∧ R element another := by
  cases h with
  | leaf simple => simp [isLeaf] at simple
  | array part => exact ⟨_, rfl, part⟩

theorem exists_tuple {items : List TypeId} (h : (Descriptor.tuple items).Alike R other) :
    ∃ others, other = .tuple others ∧ List.Forall₂ R items others := by
  cases h with
  | leaf simple => simp [isLeaf] at simple
  | tuple each => exact ⟨_, rfl, each⟩

theorem exists_union {members : List TypeId} (h : (Descriptor.union members).Alike R other) :
    ∃ others, other = .union others ∧ (∀ a ∈ members, ∃ b ∈ others, R a b) ∧
      ∀ b ∈ others, ∃ a ∈ members, R a b := by
  cases h with
  | leaf simple => simp [isLeaf] at simple
  | union left right => exact ⟨_, rfl, left, right⟩

end Descriptor.Alike

theorem find?_alike {fields others : List Field}
    (h : List.Forall₂ (FieldAlike R) fields others) (name : String) :
    Option.Rel (FieldAlike R) (fields.find? (·.name == name)) (others.find? (·.name == name)) := by
  induction h with
  | nil => exact .none
  | @cons field another _ _ hhead _ ih =>
      rw [List.find?_cons, List.find?_cons, ← hhead.1]
      split
      · exact .some hhead
      · exact ih

namespace TypeTable

theorem Built.min_lt_of_mem_parts {table : TypeTable} (h : table.Built) {a part depth : ℕ}
    (hpart : part ∈ (table.get a).parts) (hdepth : min a table.size < depth + 1) :
    min part table.size < depth := by
  have hsmaller : part < a := h.partsDescend a part hpart
  have hinside : a < table.size := lt_size_of_mem_parts hpart
  omega

/-- The relation pairs types of the tables one to one, alike with alike, and the fields of each
class with the fields of the same class. -/
structure Corresponds (R : TypeId → TypeId → Prop) (table other : TypeTable) : Prop where
  alike : ∀ a b, R a b → (table.get a).Alike R (other.get b)
  right_unique : ∀ a b c, R a b → R a c → b = c
  left_unique : ∀ a b c, R a c → R b c → a = b
  classFields : ∀ name, List.Forall₂ (FieldAlike R) (table.classFields name)
    (other.classFields name)

/-- Tables whose classes have corresponding fields correspond by their twins. -/
theorem corresponds_twins {table other : TypeTable} (htable : table.Built) (hother : other.Built)
    (hclasses : ∀ name, List.Forall₂ (FieldAlike (table.Twins other)) (table.classFields name)
      (other.classFields name)) : Corresponds (table.Twins other) table other where
  alike := fun _ _ h ↦ h.alike
  right_unique := fun _ _ _ hb hc ↦ hb.right_unique htable hother hc
  left_unique := fun _ _ _ ha hb ↦ ha.left_unique htable hother hb
  classFields := hclasses

namespace Corresponds

variable {table other : TypeTable} {Q : TypeId → TypeId → Prop} {a b c d : TypeId}

theorem swap (h : Corresponds R table other) : Corresponds (fun b a ↦ R a b) other table where
  alike := fun b a hab ↦ (h.alike a b hab).swap
  right_unique := fun c a b ha hb ↦ h.left_unique a b c ha hb
  left_unique := fun b c a hb hc ↦ h.right_unique a b c hb hc
  classFields := fun name ↦
    (h.classFields name).flip.imp fun _ _ hfield ↦ ⟨hfield.1.symm, hfield.2⟩

theorem eq_iff (h : Corresponds R table other) (hab : R a b) (hcd : R c d) : a = c ↔ b = d := by
  constructor
  · rintro rfl
    exact h.right_unique a b d hab hcd
  · rintro rfl
    exact h.left_unique a c b hab hcd

theorem get_of_isLeaf (h : Corresponds R table other) (hab : R a b) {descriptor : Descriptor}
    (hget : table.get a = descriptor) (hleaf : descriptor.isLeaf = true) :
    other.get b = descriptor := by
  have halike := h.alike a b hab
  rw [hget] at halike
  exact halike.eq_of_isLeaf hleaf

theorem fieldsOf? (h : Corresponds R table other) (hab : R a b) :
    Option.Rel (List.Forall₂ (FieldAlike R)) (table.fieldsOf? (table.get a))
      (other.fieldsOf? (other.get b)) := by
  have halike := h.alike a b hab
  generalize table.get a = descriptor at halike
  generalize other.get b = another at halike
  cases halike with
  | leaf simple =>
      cases descriptor with
      | nominal name => exact .some (h.classFields name)
      | shape fields => simp [Descriptor.isLeaf] at simple
      | _ => exact .none
  | shape each => exact .some each
  | _ => exact .none

theorem fieldsOf?_eq_some (h : Corresponds R table other) (hab : R a b) {fields : List Field}
    (hfields : table.fieldsOf? (table.get a) = some fields) :
    ∃ others, other.fieldsOf? (other.get b) = some others ∧
      List.Forall₂ (FieldAlike R) fields others := by
  have hrelated := h.fieldsOf? hab
  rw [hfields] at hrelated
  generalize other.fieldsOf? (other.get b) = found at hrelated ⊢
  cases hrelated with
  | some each => exact ⟨_, rfl, each⟩

theorem fieldsOf?_eq_none (h : Corresponds R table other) (hab : R a b)
    (hfields : table.fieldsOf? (table.get a) = none) :
    other.fieldsOf? (other.get b) = none := by
  have hrelated := h.fieldsOf? hab
  rw [hfields] at hrelated
  generalize other.fieldsOf? (other.get b) = found at hrelated ⊢
  cases hrelated
  rfl

/-! ## Assignability -/

/-- The partners of related types. -/
def Across (R Q : TypeId → TypeId → Prop) (b d : TypeId) : Prop :=
  ∃ a c, R a b ∧ R c d ∧ Q a c

theorem forall₂_across {as bs cs ds : List TypeId} (hab : List.Forall₂ R as bs)
    (hcd : List.Forall₂ R cs ds) (hac : List.Forall₂ Q as cs) :
    List.Forall₂ (Across R Q) bs ds := by
  have hbc : List.Forall₂ (fun b c ↦ ∃ a, R a b ∧ Q a c) bs cs :=
    forall₂_trans hab.flip hac fun b a c hR hQ ↦ ⟨a, hR, hQ⟩
  refine forall₂_trans hbc hcd fun b c d hb hR ↦ ?_
  obtain ⟨a, ha, hQ⟩ := hb
  exact ⟨a, c, ha, hR, hQ⟩

theorem accepts (h : Corresponds R table other) (hab : R a b) (hcd : R c d)
    (haccepts : table.Accepts Q a c) : other.Accepts (Across R Q) b d := by
  have hsource := h.alike a b hab
  have htarget := h.alike c d hcd
  cases haccepts with
  | same => exact h.right_unique a b d hab hcd ▸ .same
  | fromDynamic source => exact .fromDynamic (h.get_of_isLeaf hab source rfl)
  | toDynamic target => exact .toDynamic (h.get_of_isLeaf hcd target rfl)
  | fromUnion source each =>
      rw [source] at hsource
      obtain ⟨others, hothers, -, hback⟩ := hsource.exists_union
      refine .fromUnion hothers fun image himage ↦ ?_
      obtain ⟨member, hmember, hpair⟩ := hback image himage
      exact ⟨member, c, hpair, hcd, each member hmember⟩
  | toUnion whole target mem one =>
      rw [target] at htarget
      obtain ⟨others, hothers, hforth, -⟩ := htarget.exists_union
      obtain ⟨image, himage, hpair⟩ := hforth _ mem
      exact .toUnion (hsource.isUnion_eq.trans whole) hothers himage ⟨a, _, hab, hpair, one⟩
  | toObject whole object target =>
      exact .toObject (hsource.isUnion_eq.trans whole) (hsource.isScalar_eq.trans object)
        (h.get_of_isLeaf hcd target rfl)
  | widened source target =>
      exact .widened (h.get_of_isLeaf hab source rfl) (h.get_of_isLeaf hcd target rfl)
  | arrays source target part =>
      rw [source] at hsource
      rw [target] at htarget
      obtain ⟨item, hitem, hleft⟩ := hsource.exists_array
      obtain ⟨element, helement, hright⟩ := htarget.exists_array
      exact .arrays hitem helement ⟨_, _, hleft, hright, part⟩
  | tupleToArray source target each =>
      rw [source] at hsource
      rw [target] at htarget
      obtain ⟨items, hitems, hleft⟩ := hsource.exists_tuple
      obtain ⟨element, helement, hright⟩ := htarget.exists_array
      refine .tupleToArray hitems helement fun image himage ↦ ?_
      obtain ⟨item, hitem, hpair⟩ := exists_of_mem_forall₂ hleft.flip himage
      exact ⟨item, _, hpair, hright, each item hitem⟩
  | tuples source target each =>
      rw [source] at hsource
      rw [target] at htarget
      obtain ⟨items, hitems, hleft⟩ := hsource.exists_tuple
      obtain ⟨wanted, hwanted, hright⟩ := htarget.exists_tuple
      exact .tuples hitems hwanted (forall₂_across hleft hright each)
  | containers source target each =>
      rw [source] at hsource
      rw [target] at htarget
      obtain ⟨items, hitems, hleft⟩ := hsource.exists_generic
      obtain ⟨wanted, hwanted, hright⟩ := htarget.exists_generic
      exact .containers hitems hwanted (forall₂_across hleft hright each)
  | shapes source target each =>
      obtain ⟨fields, hfields, hleft⟩ := h.fieldsOf?_eq_some hab source
      obtain ⟨wanted, hwanted, hright⟩ := h.fieldsOf?_eq_some hcd target
      refine .shapes hfields hwanted fun image himage ↦ ?_
      obtain ⟨want, hwant, hname, htype⟩ := exists_of_mem_forall₂ hright.flip himage
      obtain ⟨field, hfound, hpart⟩ := each want hwant
      have hrelated := find?_alike hleft want.name
      rw [hfound, hname] at hrelated
      generalize fields.find? (·.name == image.name) = found at hrelated ⊢
      cases hrelated with
      | some hfield => exact ⟨_, rfl, field.type, want.type, hfield.2, htype, hpart⟩
  | fieldless whole source present target =>
      obtain ⟨wanted, hwanted, hnone⟩ := h.fieldsOf?_eq_some hcd target
      rw [List.forall₂_nil_left_iff.mp hnone] at hwanted
      exact .fieldless (hsource.isUnion_eq.trans whole) (h.fieldsOf?_eq_none hab source)
        (hsource.isNullish_eq.trans present) hwanted

theorem structural (h : Corresponds R table other) (hab : R a b) (hcd : R c d)
    (hac : table.Structural a c) : other.Structural b d := by
  obtain ⟨Q, hQ, hconsistent⟩ := hac
  refine ⟨Across R Q, ⟨a, c, hab, hcd, hQ⟩, ?_⟩
  rintro y w ⟨x, z, hxy, hzw, hxz⟩
  exact h.accepts hxy hzw (hconsistent x z hxz)

theorem isAssignable_eq (h : Corresponds R table other) (htable : table.Built)
    (hother : other.Built) (hab : R a b) (hcd : R c d) :
    table.isAssignable a c = other.isAssignable b d := by
  rw [Bool.eq_iff_iff, isAssignable_iff htable, isAssignable_iff hother]
  exact ⟨h.structural hab hcd, h.swap.structural hab hcd⟩

theorem allM_congr {α β : Type} {P : α → β → Prop} {p : α → Option Bool} {q : β → Option Bool}
    {as : List α} {bs : List β} (h : List.Forall₂ P as bs) (hpq : ∀ a b, P a b → p a = q b) :
    as.allM p = bs.allM q := by
  induction h with
  | nil => rfl
  | cons hhead _ ih => rw [allM_cons_eq, allM_cons_eq, hpq _ _ hhead, ih]

theorem pairwise_congr {P S : TypeId → TypeId → Prop}
    {deeper further : TypeId → TypeId → Option Bool} {as bs cs ds : List TypeId}
    (hab : List.Forall₂ P as bs) (hcd : List.Forall₂ S cs ds)
    (hsame : ∀ a b c d, P a b → S c d → deeper a c = further b d) :
    pairwise deeper as cs = pairwise further bs ds := by
  rw [pairwise, pairwise, hab.length_eq, hcd.length_eq]
  split_ifs with hlength
  · refine allM_congr (P := fun left right ↦ P left.1 right.1 ∧ S left.2 right.2) ?_
      fun left right hboth ↦ hsame _ _ _ _ hboth.1 hboth.2
    clear hlength
    induction hab generalizing cs ds with
    | nil => exact .nil
    | cons hhead _ ih =>
        cases hcd with
        | nil => exact .nil
        | cons hother hothers => exact .cons ⟨hhead, hother⟩ (ih hothers)
  · rfl

theorem equivalentStep_eq (h : Corresponds R table other) (htable : table.Built)
    (hother : other.Built) {deeper further : TypeId → TypeId → Option Bool} (hab : R a b)
    (hcd : R c d)
    (hparts : ∀ x ∈ (table.get a).parts, ∀ y ∈ (other.get b).parts, ∀ z w, R x y → R z w →
      deeper x z = further y w) :
    table.equivalentStep deeper a c = other.equivalentStep further b d := by
  have hleft := h.alike a b hab
  have hright := h.alike c d hcd
  rw [equivalentStep, equivalentStep, h.isAssignable_eq htable hother hab hcd,
    h.isAssignable_eq htable hother hcd hab, hleft.isRigid_eq, hright.isRigid_eq]
  simp only [h.eq_iff hab hcd]
  split_ifs
  · rfl
  generalize table.get a = left at *
  generalize table.get c = right at *
  split
  · next name items another wanted =>
      obtain ⟨others, hothers, heach⟩ := hleft.exists_generic
      obtain ⟨images, himages, hwanted⟩ := hright.exists_generic
      rw [hothers] at hparts
      rw [hothers, himages]
      dsimp only
      split_ifs
      · refine pairwise_congr (forall₂_mem heach) hwanted ?_
        rintro x y z w ⟨hx, hy, hxy⟩ hzw
        exact hparts x hx y hy z w hxy hzw
      · rfl
  · next hnot =>
      split
      · next name others another images hothers himages =>
          rw [hothers] at hleft
          rw [himages] at hright
          obtain ⟨items, hitems, -⟩ := hleft.swap.exists_generic
          obtain ⟨wanted, hwanted, -⟩ := hright.swap.exists_generic
          exact (hnot _ _ _ _ hitems hwanted).elim
      · rfl

/-- Parts have smaller identities than their type, so any depth beyond it gives the answer. -/
theorem equivalentWithin_eq (h : Corresponds R table other) (htable : table.Built)
    (hother : other.Built) {depth further a b c d : ℕ} (hab : R a b) (hcd : R c d)
    (hdepth : min a table.size < depth) (hfurther : min b other.size < further) :
    table.equivalentWithin depth a c = other.equivalentWithin further b d := by
  induction depth generalizing a b c d further with
  | zero => omega
  | succ depth ih =>
      obtain ⟨further, rfl⟩ : ∃ less, further = less + 1 := ⟨further - 1, by omega⟩
      rw [equivalentWithin, equivalentWithin]
      refine h.equivalentStep_eq htable hother hab hcd fun x hx y hy z w hxy hzw ↦ ?_
      exact ih hxy hzw (htable.min_lt_of_mem_parts hx hdepth)
        (hother.min_lt_of_mem_parts hy hfurther)

theorem isEquivalent_eq (h : Corresponds R table other) (htable : table.Built)
    (hother : other.Built) (hab : R a b) (hcd : R c d) :
    table.isEquivalent a c = other.isEquivalent b d := by
  have hwithin : table.equivalentWithin (table.size + 1) a c =
      other.equivalentWithin (other.size + 1) b d :=
    h.equivalentWithin_eq htable hother hab hcd (Nat.lt_succ_of_le (Nat.min_le_right _ _))
      (Nat.lt_succ_of_le (Nat.min_le_right _ _))
  rw [isEquivalent, isEquivalent, hwithin]

end Corresponds

variable {table later : TypeTable} {a b : TypeId}

theorem Develops.corresponds (h : table.Develops later) (htable : table.Built) :
    Corresponds (table.Twins later) table later := by
  refine corresponds_twins htable h.built fun name ↦ ?_
  rw [h.classFields_eq name]
  exact List.forall₂_same.mpr fun field hfield ↦ ⟨rfl,
    twins_self_of_grows htable (.refl table) h.grows (htable.fieldsPresent name field hfield)⟩

/-- Interning changes no comparison of types that the table holds. -/
theorem Develops.isEquivalent_eq (h : table.Develops later) (htable : table.Built)
    (ha : a < table.size) (hb : b < table.size) :
    later.isEquivalent a b = table.isEquivalent a b :=
  ((h.corresponds htable).isEquivalent_eq htable h.built
    (twins_self_of_grows htable (.refl table) h.grows ha)
    (twins_self_of_grows htable (.refl table) h.grows hb)).symm

theorem Grows.displayStep_eq (h : table.Grows later) {part other : TypeId → String}
    {descriptor : Descriptor} (hlt : ∀ id ∈ descriptor.parts, id < table.size)
    (hparts : ∀ id ∈ descriptor.parts, other id = part id) :
    later.displayStep other descriptor = table.displayStep part descriptor := by
  have hmap : descriptor.parts.map other = descriptor.parts.map part := List.map_congr_left hparts
  cases descriptor with
  | generic name arguments =>
      rw [Descriptor.parts] at hmap
      cases arguments with
      | nil => rfl
      | cons argument arguments => simp only [displayStep, hmap]
  | array element =>
      have helement := hparts element List.mem_cons_self
      simp only [displayStep, h.get_eq (hlt element List.mem_cons_self), helement]
  | shape fields =>
      have hfields : (fields.map fun field ↦ field.name ++ ": " ++ other field.type) =
          fields.map fun field ↦ field.name ++ ": " ++ part field.type :=
        List.map_congr_left fun field hfield ↦ by rw [hparts _ (List.mem_map_of_mem hfield)]
      cases fields with
      | nil => rfl
      | cons field fields => simp only [displayStep, hfields]
  | tuple items => exact congrArg (fun texts ↦ "[" ++ ", ".intercalate texts ++ "]") hmap
  | union members => exact congrArg (" | ".intercalate ·) hmap
  | _ => rfl

theorem Grows.displayWithin_eq (h : table.Grows later) (htable : table.PartsDescend) {depth : ℕ}
    (ha : a < table.size) (hdepth : a < depth) :
    later.displayWithin depth a = table.displayWithin depth a := by
  induction depth generalizing a with
  | zero => exact (Nat.not_lt_zero a hdepth).elim
  | succ depth ih =>
      rw [displayWithin, displayWithin, h.get_eq ha]
      refine h.displayStep_eq (fun id hid ↦ htable.lt_size hid) fun id hid ↦ ?_
      exact ih (htable.lt_size hid) ((htable a id hid).trans_le (Nat.le_of_lt_succ hdepth))

/-- Interning changes no text of a type that the table holds. -/
theorem Grows.display_eq (h : table.Grows later) (htable : table.PartsDescend)
    (ha : a < table.size) : later.display a = table.display a :=
  h.displayWithin_eq htable ha (Nat.lt_succ_self a)

end TypeTable

end Wiring
