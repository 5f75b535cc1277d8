import Wiring.Error
import Wiring.Types.Table

/-!
# Scopes of names

A scope holds the aliases and enumerations that type expressions may name; every other bare name
is a primitive or a class.  Lowering an expression interns its type.  What has been interned
before a failure stays in the table.
-/

namespace Wiring

namespace TypeExpr

/-- The error for a fault in an expression; a fault with no tokens left is at its end. -/
def ParseFault.toError (expression : String) (fault : ParseFault) : Error :=
  let offset := match fault.rest with
    | located :: _ => located.offset
    | [] => byteLength expression.toList
  match fault with
  | .expected wanted rest =>
    .typeSyntax expression offset (.expected wanted (rest.head?.map Located.token))
  | .tooDeep _ => .typeSyntax expression offset .tooDeep

def parse (expression : String) : Except Error TypeExpr :=
  match tokens 0 expression.toList with
  | .error (offset, problem) => .error (.typeSyntax expression offset (.lexical problem))
  | .ok located => (ofTokens located).mapError (ParseFault.toError expression)

end TypeExpr

/-- A computation on a table of types that may fail and keeps the table when it does. -/
abbrev Lowering := ExceptT Error (StateM TypeTable)

namespace Lowering

def intern (descriptor : Descriptor) : Lowering TypeId := fun table ↦
  let (id, table) := table.intern descriptor
  (.ok id, table)

end Lowering

structure Scope where
  /-- Aliases in the order of their declaration, each name once. -/
  aliases : List (String × TypeExpr)
  enumerations : List String

namespace Scope

def empty : Scope := ⟨[], []⟩

def alias? (scope : Scope) (name : String) : Option TypeExpr :=
  scope.aliases.lookup name

def addAlias (scope : Scope) (name : String) (expr : TypeExpr) : Except Error Scope :=
  if (scope.alias? name).isSome then .error (.manifest (.duplicateAlias name))
  else .ok { scope with aliases := scope.aliases ++ [(name, expr)] }

def addEnumeration (scope : Scope) (name : String) : Scope :=
  { scope with enumerations := name :: scope.enumerations }

/-- The types whose names no declaration can take. -/
def reserved? : String → Option Descriptor
  | "any" | "unknown" => some .dynamic
  | "true" | "false" => some (.primitive .boolean)
  | name => (Primitive.ofKeyword? name).map .primitive

/-- The spelling of arrays as a container with one argument. -/
def arrayName : String := "Array"

def container (name : String) : List TypeId → Descriptor
  | [element] => if name = arrayName then .array element else .generic name [element]
  | arguments => .generic name arguments

section

variable (scope : Scope) (bare : String → Lowering TypeId)

mutual

/-- Lowers an expression, given the meaning of bare names. -/
def lowerWith : TypeExpr → Lowering TypeId
  | .named name [] => bare name
  | .named name (argument :: arguments) => do
    if (scope.alias? name).isSome then throw (.manifest (.aliasWithArguments name))
    let first ← lowerWith argument
    let others ← lowerAllWith arguments
    Lowering.intern (container name (first :: others))
  | .array element => do Lowering.intern (.array (← lowerWith element))
  | .tuple items => do Lowering.intern (.tuple (← lowerAllWith items))
  | .shape fields => do Lowering.intern (.shape (← lowerFieldsWith fields))
  | .union members => do Lowering.intern (.union (← lowerAllWith members))
  | .text value => Lowering.intern (.literal (.text value))
  | .number spelling => Lowering.intern (.literal (.number spelling))

def lowerAllWith : List TypeExpr → Lowering (List TypeId)
  | [] => return []
  | expr :: exprs => do
    let first ← lowerWith expr
    let others ← lowerAllWith exprs
    return first :: others

/-- A field that may be absent also accepts `undefined`. -/
def lowerFieldWith : FieldExpr → Lowering Field
  | ⟨name, optional, expr⟩ => do
    let type ← lowerWith expr
    if optional then
      let absent ← Lowering.intern (.primitive .undefined)
      return ⟨name, ← Lowering.intern (.union [type, absent])⟩
    else return ⟨name, type⟩

def lowerFieldsWith : List FieldExpr → Lowering (List Field)
  | [] => return []
  | field :: fields => do
    let first ← lowerFieldWith field
    let others ← lowerFieldsWith fields
    return first :: others

end

end

/-- The meaning of a bare name below the aliases that are being expanded.  A chain of more
expansions than there are aliases comes back to one of them. -/
def lowerName (scope : Scope) : Nat → List String → String → Lowering TypeId
  | rounds, expanding, name =>
    match reserved? name with
    | some descriptor => Lowering.intern descriptor
    | none =>
      match scope.alias? name with
      | some target =>
        if name ∈ expanding then throw (.manifest (.cyclicAlias name))
        else
          match rounds with
          | 0 => throw (.manifest (.cyclicAlias name))
          | rounds + 1 => scope.lowerWith (scope.lowerName rounds (name :: expanding)) target
      | none =>
        if name ∈ scope.enumerations then Lowering.intern (.enumeration name)
        else Lowering.intern (.nominal name)

def lower (scope : Scope) (expr : TypeExpr) : Lowering TypeId :=
  scope.lowerWith (scope.lowerName scope.aliases.length []) expr

/-- Interns the types of the fields of a shape, in their order. -/
def lowerFields (scope : Scope) (fields : List FieldExpr) : Lowering (List Field) :=
  scope.lowerFieldsWith (scope.lowerName scope.aliases.length []) fields

def resolve (scope : Scope) (expression : String) : Lowering TypeId := do
  let expr ← (TypeExpr.parse expression : Except Error TypeExpr)
  scope.lower expr

end Scope

end Wiring
