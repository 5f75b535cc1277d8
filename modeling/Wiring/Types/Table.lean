/-!
# Tables of types

A descriptor is one level of a type.  Its parts are identities in a table of descriptors, so a
type is read together with the table that holds it.

A table numbers its descriptors in the order in which they are first interned and never changes
or removes one.  Object types and unions are brought into a canonical form first, so equal types
have equal identities.  Beside the descriptors the table records the fields of classes.
-/

namespace Wiring

/-- The position of a descriptor in its table. -/
abbrev TypeId := Nat

inductive Primitive where
  | boolean
  | number
  | string
  | bigint
  | symbol
  /-- Every value that is neither primitive, literal nor enumerated. -/
  | object
  | void
  | undefined
  | null
  deriving DecidableEq

namespace Primitive

def keyword : Primitive → String
  | boolean => "boolean"
  | number => "number"
  | string => "string"
  | bigint => "bigint"
  | symbol => "symbol"
  | object => "object"
  | void => "void"
  | undefined => "undefined"
  | null => "null"

def ofKeyword? : String → Option Primitive
  | "boolean" => some boolean
  | "number" => some number
  | "string" => some string
  | "bigint" => some bigint
  | "symbol" => some symbol
  | "object" => some object
  | "void" => some void
  | "undefined" => some undefined
  | "null" => some null
  | _ => none

@[simp] theorem ofKeyword?_keyword (p : Primitive) : ofKeyword? p.keyword = some p := by
  cases p <;> rfl

/-- The primitives that stand for the absence of a value. -/
def isNullish : Primitive → Bool
  | void | undefined | null => true
  | _ => false

end Primitive

inductive Literal where
  | text (value : String)
  /-- A number keeps its spelling, so `1.0` and `1` are different literals. -/
  | number (spelling : String)
  deriving DecidableEq

/-- The primitive whose values include the literal. -/
def Literal.widened : Literal → Primitive
  | text _ => .string
  | number _ => .number

structure Field where
  name : String
  type : TypeId
  deriving DecidableEq

inductive Descriptor where
  | dynamic
  | primitive (kind : Primitive)
  | literal (value : Literal)
  | enumeration (name : String)
  /-- A class, known by its name alone. -/
  | nominal (name : String)
  /-- A named container with arguments, such as `Set<T>`. -/
  | generic (name : String) (arguments : List TypeId)
  | array (element : TypeId)
  | tuple (items : List TypeId)
  /-- An object type; a table keeps its fields in the order of their names. -/
  | shape (fields : List Field)
  /-- A choice; a table keeps its members in ascending order. -/
  | union (members : List TypeId)
  deriving DecidableEq

namespace Descriptor

/-- The identities that occur in a descriptor, in the order in which they are written. -/
def parts : Descriptor → List TypeId
  | generic _ arguments => arguments
  | array element => [element]
  | tuple items => items
  | shape fields => fields.map Field.type
  | union members => members
  | _ => []

/-- The descriptors that are equivalent to nothing but themselves. -/
def isRigid : Descriptor → Bool
  | dynamic | enumeration _ | nominal _ => true
  | _ => false

def isNullish : Descriptor → Bool
  | primitive kind => kind.isNullish
  | _ => false

end Descriptor

/-- Inserts into an ascending list, unless the identity is already there. -/
def insertAscending (id : TypeId) : List TypeId → List TypeId
  | [] => [id]
  | head :: tail =>
    if id < head then id :: head :: tail
    else if id = head then head :: tail
    else head :: insertAscending id tail

def ascending (ids : List TypeId) : List TypeId :=
  ids.foldr insertAscending []

/-- Inserts a field before the first one whose name is not smaller. -/
def insertField (field : Field) : List Field → List Field
  | [] => [field]
  | head :: tail =>
    if field.name ≤ head.name then field :: head :: tail else head :: insertField field tail

/-- Fields in the order of their names; fields of one name keep their order. -/
def sortFields (fields : List Field) : List Field :=
  fields.foldr insertField []

/-- Of neighbouring fields with one name only the first is kept. -/
def dropRepeats : List Field → List Field
  | [] => []
  | field :: rest =>
    match dropRepeats rest with
    | [] => [field]
    | next :: later => if field.name = next.name then field :: later else field :: next :: later

def canonicalFields (fields : List Field) : List Field :=
  dropRepeats (sortFields fields)

structure TypeTable where
  descriptors : List Descriptor
  /-- Fields of classes; of two records for one name the first counts. -/
  classes : List (String × List Field)
  deriving DecidableEq

namespace TypeTable

def empty : TypeTable := ⟨[], []⟩

def size (table : TypeTable) : Nat := table.descriptors.length

/-- The descriptor behind an identity; an identity of no descriptor reads as unconstrained. -/
def get (table : TypeTable) (id : TypeId) : Descriptor :=
  table.descriptors.getD id .dynamic

/-- The members of a union; any other type is its own only member. -/
def members (table : TypeTable) (id : TypeId) : List TypeId :=
  match table.get id with
  | .union members => members
  | _ => [id]

/-- The identity of a descriptor in canonical form, added at the end when it is new. -/
def add (table : TypeTable) (descriptor : Descriptor) : TypeId × TypeTable :=
  match table.descriptors.idxOf? descriptor with
  | some id => (id, table)
  | none => (table.size, { table with descriptors := table.descriptors ++ [descriptor] })

/-- Interns a descriptor.  A union is flattened first, and a union of one member is that member. -/
def intern (table : TypeTable) : Descriptor → TypeId × TypeTable
  | .shape fields => table.add (.shape (canonicalFields fields))
  | .union ids =>
    match ascending (ids.flatMap table.members) with
    | [single] => (single, table)
    | flat => table.add (.union flat)
  | descriptor => table.add descriptor

/-- The container that a request fills with every candidate for its element. -/
def setName : String := "Set"

/-- The wrapper of values that are produced asynchronously. -/
def promiseName : String := "Promise"

def setOf (table : TypeTable) (element : TypeId) : TypeId × TypeTable :=
  table.intern (.generic setName [element])

def promiseOf (table : TypeTable) (inner : TypeId) : TypeId × TypeTable :=
  table.intern (.generic promiseName [inner])

/-- The argument of a container of the given name that has exactly one. -/
def argumentOf? (table : TypeTable) (container : String) (id : TypeId) : Option TypeId :=
  match table.get id with
  | .generic name [argument] => if name = container then some argument else none
  | _ => none

def setElement? (table : TypeTable) (id : TypeId) : Option TypeId :=
  table.argumentOf? setName id

def promised? (table : TypeTable) (id : TypeId) : Option TypeId :=
  table.argumentOf? promiseName id

def isPromise (table : TypeTable) (id : TypeId) : Bool :=
  (table.promised? id).isSome

/-- The type without one level of the asynchronous wrapper. -/
def awaited (table : TypeTable) (id : TypeId) : TypeId :=
  (table.promised? id).getD id

/-- Records the fields of a class, in place of those recorded before. -/
def defineClass (table : TypeTable) (name : String) (fields : List Field) : TypeTable :=
  { table with classes := (name, sortFields fields) :: table.classes }

/-- The recorded fields of a class, none when it was never defined. -/
def classFields (table : TypeTable) (name : String) : List Field :=
  (table.classes.lookup name).getD []

end TypeTable

end Wiring
