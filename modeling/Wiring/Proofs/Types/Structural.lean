import Mathlib.Data.List.Forall2
import Wiring.Proofs.Types.Built
import Wiring.Types.Compare

/-!
# The structural relation

One level of assignability is a list of rules over a relation between the parts.  A pair of types
is structurally assignable when some relation holds of it and is justified by the rules at every
one of its pairs, so a comparison may lean on itself, as recursive classes need.  Leaning on a pair
that is under comparison gives nothing new.
-/

namespace Wiring

namespace Descriptor

def isUnion : Descriptor → Bool
  | union _ => true
  | _ => false

def isScalar : Descriptor → Bool
  | primitive _ | literal _ | enumeration _ => true
  | _ => false

theorem isUnion_eq_false {descriptor : Descriptor}
    (h : ∀ members, descriptor = .union members → False) : descriptor.isUnion = false := by
  cases descriptor with
  | union members => exact (h members rfl).elim
  | _ => rfl

theorem isScalar_eq_false {descriptor : Descriptor}
    (hprimitive : ∀ kind, descriptor = .primitive kind → False)
    (hliteral : ∀ value, descriptor = .literal value → False)
    (henumeration : ∀ name, descriptor = .enumeration name → False) :
    descriptor.isScalar = false := by
  cases descriptor with
  | primitive kind => exact (hprimitive kind rfl).elim
  | literal value => exact (hliteral value rfl).elim
  | enumeration name => exact (henumeration name rfl).elim
  | _ => rfl

end Descriptor

namespace TypeTable

variable {table : TypeTable} {R S : TypeId → TypeId → Prop} {a b : TypeId}

/-- One level of the comparison over a relation between parts.  A union as the source is taken
apart before anything is asked of the target. -/
inductive Accepts (table : TypeTable) (R : TypeId → TypeId → Prop) : TypeId → TypeId → Prop where
  | same {a : TypeId} : Accepts table R a a
  | fromDynamic {a b : TypeId} (source : table.get a = .dynamic) : Accepts table R a b
  | toDynamic {a b : TypeId} (target : table.get b = .dynamic) : Accepts table R a b
  | fromUnion {a b : TypeId} {members : List TypeId} (source : table.get a = .union members)
      (each : ∀ member ∈ members, R member b) : Accepts table R a b
  | toUnion {a b member : TypeId} {members : List TypeId} (whole : (table.get a).isUnion = false)
      (target : table.get b = .union members) (mem : member ∈ members) (one : R a member) :
      Accepts table R a b
  | toObject {a b : TypeId} (whole : (table.get a).isUnion = false)
      (object : (table.get a).isScalar = false) (target : table.get b = .primitive .object) :
      Accepts table R a b
  | widened {a b : TypeId} {value : Literal} (source : table.get a = .literal value)
      (target : table.get b = .primitive value.widened) : Accepts table R a b
  | arrays {a b item element : TypeId} (source : table.get a = .array item)
      (target : table.get b = .array element) (part : R item element) : Accepts table R a b
  | tupleToArray {a b element : TypeId} {items : List TypeId} (source : table.get a = .tuple items)
      (target : table.get b = .array element) (each : ∀ item ∈ items, R item element) :
      Accepts table R a b
  | tuples {a b : TypeId} {items wanted : List TypeId} (source : table.get a = .tuple items)
      (target : table.get b = .tuple wanted) (each : List.Forall₂ R items wanted) :
      Accepts table R a b
  | containers {a b : TypeId} {name : String} {items wanted : List TypeId}
      (source : table.get a = .generic name items) (target : table.get b = .generic name wanted)
      (each : List.Forall₂ R items wanted) : Accepts table R a b
  | shapes {a b : TypeId} {fields wanted : List Field}
      (source : table.fieldsOf? (table.get a) = some fields)
      (target : table.fieldsOf? (table.get b) = some wanted)
      (each : ∀ want ∈ wanted, ∃ field, fields.find? (·.name == want.name) = some field ∧
        R field.type want.type) : Accepts table R a b
  | fieldless {a b : TypeId} (whole : (table.get a).isUnion = false)
      (source : table.fieldsOf? (table.get a) = none)
      (present : (table.get a).isNullish = false)
      (target : table.fieldsOf? (table.get b) = some []) : Accepts table R a b

theorem Accepts.mono (h : table.Accepts R a b) (hsub : ∀ x y, R x y → S x y) :
    table.Accepts S a b := by
  cases h with
  | same => exact .same
  | fromDynamic source => exact .fromDynamic source
  | toDynamic target => exact .toDynamic target
  | fromUnion source each => exact .fromUnion source fun m hm ↦ hsub m b (each m hm)
  | toUnion whole target mem one => exact .toUnion whole target mem (hsub a _ one)
  | toObject whole object target => exact .toObject whole object target
  | widened source target => exact .widened source target
  | arrays source target part => exact .arrays source target (hsub _ _ part)
  | tupleToArray source target each =>
      exact .tupleToArray source target fun item hitem ↦ hsub item _ (each item hitem)
  | tuples source target each => exact .tuples source target (each.imp hsub)
  | containers source target each => exact .containers source target (each.imp hsub)
  | shapes source target each =>
      refine .shapes source target fun want hwant ↦ ?_
      obtain ⟨field, hfield, hpart⟩ := each want hwant
      exact ⟨field, hfield, hsub _ _ hpart⟩
  | fieldless whole source present target => exact .fieldless whole source present target

/-- A relation that the rules justify at each of its pairs. -/
def Consistent (table : TypeTable) (R : TypeId → TypeId → Prop) : Prop :=
  ∀ a b, R a b → table.Accepts R a b

/-- Some consistent relation holds of the two types. -/
def Structural (table : TypeTable) (a b : TypeId) : Prop :=
  ∃ R : TypeId → TypeId → Prop, R a b ∧ table.Consistent R

/-- Structural assignability where the pairs of a list may be taken for granted, but not at once:
some relation holds of the two types and is justified with the help of these pairs. -/
def StructuralUnder (table : TypeTable) (assumed : Assumed) (a b : TypeId) : Prop :=
  ∃ R : TypeId → TypeId → Prop, R a b ∧
    ∀ x y, R x y → table.Accepts (fun x y ↦ (x, y) ∈ assumed ∨ R x y) x y

theorem structuralUnder_nil : table.StructuralUnder [] a b ↔ table.Structural a b := by
  simp [StructuralUnder, Structural, Consistent]

/-- What the rules justify by assumed pairs and by structural ones is structural. -/
theorem StructuralUnder.intro {assumed : Assumed}
    (h : table.Accepts (fun x y ↦ (x, y) ∈ assumed ∨ table.StructuralUnder assumed x y) a b) :
    table.StructuralUnder assumed a b := by
  refine ⟨fun x y ↦ (x = a ∧ y = b) ∨ table.StructuralUnder assumed x y, Or.inl ⟨rfl, rfl⟩, ?_⟩
  rintro x y (⟨rfl, rfl⟩ | ⟨R, hxy, hR⟩)
  · exact h.mono fun x y hxy ↦ hxy.imp_right Or.inr
  · exact (hR x y hxy).mono fun x y hxy ↦ hxy.imp_right fun hRxy ↦ Or.inr ⟨R, hRxy, hR⟩

theorem StructuralUnder.of_cons {assumed : Assumed}
    (h : table.StructuralUnder ((a, b) :: assumed) a b) : table.StructuralUnder assumed a b := by
  obtain ⟨R, hab, hR⟩ := h
  refine ⟨R, hab, fun x y hxy ↦ (hR x y hxy).mono fun x y hpart ↦ ?_⟩
  rcases hpart with hassumed | hRxy
  · rcases List.mem_cons.mp hassumed with heq | hmem
    · obtain ⟨rfl, rfl⟩ := Prod.mk.inj heq
      exact Or.inr hab
    · exact Or.inl hmem
  · exact Or.inr hRxy

theorem Structural.of_accepts (h : table.Accepts table.Structural a b) : table.Structural a b := by
  have hunder : table.StructuralUnder [] a b :=
    .intro (h.mono fun _ _ hpart ↦ Or.inr (structuralUnder_nil.mpr hpart))
  exact structuralUnder_nil.mp hunder

theorem Structural.accepts (h : table.Structural a b) : table.Accepts table.Structural a b := by
  obtain ⟨R, hab, hR⟩ := h
  exact (hR a b hab).mono fun x y hxy ↦ ⟨R, hxy, hR⟩

theorem Structural.refl (a : TypeId) : table.Structural a a := .of_accepts .same

end TypeTable

end Wiring
