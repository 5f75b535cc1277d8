import Wiring.Types.Table

/-!
# Assignability and equivalence

Assignability is structural: a class and an object type are compared field by field, and a
comparison of two shapes that is met again inside itself counts as a success.  Equivalence asks
for assignability in both directions, except that classes, enumerations and the unconstrained
type are equivalent to nothing but themselves.

Both recursions are bounded by a depth that no comparison in a table reaches: every step leads to
smaller identities, except from a shape to its fields, and no pair of shapes is entered twice.  A
comparison that would go deeper has no answer.
-/

namespace Wiring

namespace TypeTable

/-- Pairs of shapes whose comparison is under way, source first. -/
abbrev Assumed := List (TypeId × TypeId)

abbrev Comparison := Assumed → TypeId → TypeId → Option Bool

/-- The fields that values of a class or of an object type have. -/
def fieldsOf? (table : TypeTable) : Descriptor → Option (List Field)
  | .nominal name => some (table.classFields name)
  | .shape fields => some fields
  | _ => none

/-- Whether the source has every wanted field, of an assignable type.  A type without fields of
its own has every field of an empty shape, unless it stands for the absence of a value. -/
def fits (table : TypeTable) (deeper : Comparison) (assumed : Assumed)
    (source target : TypeId) (wanted : List Field) : Option Bool :=
  match table.fieldsOf? (table.get source) with
  | none => some (!(table.get source).isNullish && wanted.isEmpty)
  | some fields =>
    if (source, target) ∈ assumed then some true else
      wanted.allM fun want ↦
        match fields.find? (·.name == want.name) with
        | some field => deeper ((source, target) :: assumed) field.type want.type
        | none => some false

/-- Whether two lists have one length and their items compare in order. -/
def pairwise (deeper : TypeId → TypeId → Option Bool) (as bs : List TypeId) : Option Bool :=
  if as.length = bs.length then (as.zip bs).allM fun pair ↦ deeper pair.1 pair.2 else some false

/-- One level of the comparison, given the comparison of parts. -/
def assignableStep (table : TypeTable) (deeper : Comparison) (assumed : Assumed)
    (source target : TypeId) : Option Bool :=
  if source = target then some true else
  match table.get source, table.get target with
  | .dynamic, _ => some true
  | _, .dynamic => some true
  | .union members, _ => members.allM fun member ↦ deeper assumed member target
  | _, .union members => members.anyM fun member ↦ deeper assumed source member
  | .primitive _, .primitive .object => some false
  | .literal _, .primitive .object => some false
  | .enumeration _, .primitive .object => some false
  | _, .primitive .object => some true
  | .literal value, .primitive kind => some (value.widened = kind)
  | .array item, .array element => deeper assumed item element
  | .tuple items, .array element => items.allM fun item ↦ deeper assumed item element
  | .tuple items, .tuple wanted => pairwise (deeper assumed) items wanted
  | .generic name items, .generic other wanted =>
    if name = other then pairwise (deeper assumed) items wanted else some false
  | _, .nominal name => table.fits deeper assumed source target (table.classFields name)
  | _, .shape fields => table.fits deeper assumed source target fields
  | _, _ => some false

def assignableWithin (table : TypeTable) : Nat → Comparison
  | 0, _, _, _ => none
  | depth + 1, assumed, source, target =>
    table.assignableStep (table.assignableWithin depth) assumed source target

/-- A bound on the depth of comparisons: at most this many pairs of shapes, and between two of
them at most this many steps to smaller identities. -/
def comparisonDepth (table : TypeTable) : Nat :=
  (table.size * table.size + 1) * (2 * table.size + 1)

/-- Whether values of the source are accepted where the target is expected. -/
def isAssignable (table : TypeTable) (source target : TypeId) : Bool :=
  (table.assignableWithin table.comparisonDepth [] source target).getD false

/-- Equivalence of two types, given the equivalence of their parts: containers of one name go
argument by argument. -/
def equivalentStep (table : TypeTable) (deeper : TypeId → TypeId → Option Bool) (a b : TypeId) :
    Option Bool :=
  if a = b then some true else
  let reciprocal := !(table.get a).isRigid && !(table.get b).isRigid &&
    table.isAssignable a b && table.isAssignable b a
  match table.get a, table.get b with
  | .generic name items, .generic other others =>
    if name = other then pairwise deeper items others else some reciprocal
  | _, _ => some reciprocal

def equivalentWithin (table : TypeTable) : Nat → TypeId → TypeId → Option Bool
  | 0, _, _ => none
  | depth + 1, a, b => table.equivalentStep (table.equivalentWithin depth) a b

/-- Whether a provider of the one type may serve a request for the other. -/
def isEquivalent (table : TypeTable) (a b : TypeId) : Bool :=
  (table.equivalentWithin (table.size + 1) a b).getD false

end TypeTable

end Wiring
