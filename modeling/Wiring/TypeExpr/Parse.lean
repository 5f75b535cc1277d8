import Wiring.TypeExpr.Token

/-!
# Type expressions

The tree of a type as it is written, and how it is read.  Names are not yet resolved, and neither
parentheses nor a union of a single member leave a trace.

```text
union   := '|'? suffixed ('|' suffixed)*
suffixed := primary ('[' ']')*
primary := name ('<' union (',' union)* '>')?
         | '[' (union (',' union)*)? ']'
         | '{' (field (';' | ',')?)* '}'
         | '(' union ')'
         | text | number
field   := (name | text) '?'? ':' union
```

Unions may be nested up to a limit, and so may array suffixes: the number of unions around a
point, with the suffixes already applied in the innermost of them, never exceeds it.  The reader
recurses on the room that is left.
-/

namespace Wiring

mutual

inductive TypeExpr where
  /-- A name with its arguments, none for a bare name. -/
  | named (name : String) (arguments : List TypeExpr)
  | array (element : TypeExpr)
  | tuple (items : List TypeExpr)
  | shape (fields : List FieldExpr)
  | union (members : List TypeExpr)
  | text (value : String)
  | number (spelling : String)

inductive FieldExpr where
  | mk (name : String) (optional : Bool) (type : TypeExpr)

end

namespace FieldExpr

def name : FieldExpr → String
  | mk name _ _ => name

/-- Whether the field may be absent. -/
def optional : FieldExpr → Bool
  | mk _ optional _ => optional

def type : FieldExpr → TypeExpr
  | mk _ _ type => type

end FieldExpr

/-- What a reader looked for in vain. -/
inductive Wanted where
  | type
  | mark (mark : Mark)
  | fieldOrClose
  | endOfInput
  deriving DecidableEq

def Wanted.describe : Wanted → String
  | type => "a type"
  | mark m => "`" ++ m.char.toString ++ "`"
  | fieldOrClose => "a field name or `\x7d`"
  | endOfInput => "end of input"

/-- Why reading stopped, with the tokens that were still to be read. -/
inductive ParseFault where
  | expected (wanted : Wanted) (rest : List Located)
  | tooDeep (rest : List Located)
  deriving DecidableEq

def ParseFault.rest : ParseFault → List Located
  | expected _ rest => rest
  | tooDeep rest => rest

namespace TypeExpr

/-- Reads a phrase from the front of the tokens and leaves the rest. -/
abbrev Reader (α : Type) := List Located → Except ParseFault (α × List Located)

def expect (m : Mark) (rest : List Located) : Except ParseFault (List Located) :=
  match rest with
  | ⟨_, .mark found⟩ :: later => if found = m then .ok later else .error (.expected (.mark m) rest)
  | _ => .error (.expected (.mark m) rest)

/-- The tokens after the mark, when they start with it. -/
def eat? (m : Mark) : List Located → Option (List Located)
  | ⟨_, .mark found⟩ :: later => if found = m then some later else none
  | _ => none

/-- Items with a mark between them, at least one.  Each mark uses up a token, so no more rounds
are needed than there are tokens. -/
def readSeparated (separator : Mark) (item : Reader TypeExpr) : Nat → Reader (List TypeExpr)
  | 0, rest => .error (.expected .type rest)
  | rounds + 1, rest => do
    let (first, rest) ← item rest
    match eat? separator rest with
    | none => return ([first], rest)
    | some rest =>
      let (others, rest) ← readSeparated separator item rounds rest
      return (first :: others, rest)

def readItems (separator : Mark) (item : Reader TypeExpr) : Reader (List TypeExpr) :=
  fun rest ↦ readSeparated separator item (rest.length + 1) rest

def fieldName? : List Located → Option (String × List Located)
  | ⟨_, .word name⟩ :: later => some (name, later)
  | ⟨_, .text name⟩ :: later => some (name, later)
  | _ => none

/-- The tokens after an optional separator of fields. -/
def skipSeparator (rest : List Located) : List Located :=
  match eat? .semicolon rest with
  | some later => later
  | none => (eat? .comma rest).getD rest

def readField (union : Reader TypeExpr) : Reader FieldExpr := fun rest ↦
  match fieldName? rest with
  | none => .error (.expected .fieldOrClose rest)
  | some (name, rest) => do
    let optional := eat? .question rest
    let rest ← expect .colon (optional.getD rest)
    let (type, rest) ← union rest
    return (⟨name, optional.isSome, type⟩, skipSeparator rest)

/-- The fields of an object type up to its closing brace.  Each of them uses up a token. -/
def readFieldsWithin (union : Reader TypeExpr) : Nat → Reader (List FieldExpr)
  | 0, rest => .error (.expected .fieldOrClose rest)
  | rounds + 1, rest =>
    match eat? .closeBrace rest with
    | some rest => .ok ([], rest)
    | none => do
      let (first, rest) ← readField union rest
      let (others, rest) ← readFieldsWithin union rounds rest
      return (first :: others, rest)

def readFields (union : Reader TypeExpr) : Reader (List FieldExpr) :=
  fun rest ↦ readFieldsWithin union (rest.length + 1) rest

def readArguments (union : Reader TypeExpr) : Reader (List TypeExpr) := fun rest ↦
  match eat? .less rest with
  | none => .ok ([], rest)
  | some rest => do
    let (arguments, rest) ← readItems .comma union rest
    let rest ← expect .greater rest
    return (arguments, rest)

def readTuple (union : Reader TypeExpr) : Reader (List TypeExpr) := fun rest ↦
  match eat? .closeBracket rest with
  | some rest => .ok ([], rest)
  | none => do
    let (items, rest) ← readItems .comma union rest
    let rest ← expect .closeBracket rest
    return (items, rest)

def readPrimary (union : Reader TypeExpr) : Reader TypeExpr
  | ⟨_, .word name⟩ :: rest => do
    let (arguments, rest) ← readArguments union rest
    return (.named name arguments, rest)
  | ⟨_, .text value⟩ :: rest => .ok (.text value, rest)
  | ⟨_, .number spelling⟩ :: rest => .ok (.number spelling, rest)
  | ⟨_, .mark .openBracket⟩ :: rest => do
    let (items, rest) ← readTuple union rest
    return (.tuple items, rest)
  | ⟨_, .mark .openBrace⟩ :: rest => do
    let (fields, rest) ← readFields union rest
    return (.shape fields, rest)
  | ⟨_, .mark .openParen⟩ :: rest => do
    let (inner, rest) ← union rest
    let rest ← expect .closeParen rest
    return (inner, rest)
  | rest => .error (.expected .type rest)

/-- Array suffixes after a type, as many as there is room for. -/
def readSuffixes : Nat → TypeExpr → Reader TypeExpr
  | room, element, rest =>
    match eat? .openBracket rest with
    | none => .ok (element, rest)
    | some rest => do
      let rest ← expect .closeBracket rest
      match room with
      | 0 => .error (.tooDeep rest)
      | room + 1 => readSuffixes room (.array element) rest

def readSuffixed (room : Nat) (union : Reader TypeExpr) : Reader TypeExpr := fun rest ↦ do
  let (element, rest) ← readPrimary union rest
  readSuffixes room element rest

/-- A single member stands for itself. -/
def ofMembers : List TypeExpr → TypeExpr
  | [single] => single
  | members => .union members

def readUnion : Nat → Reader TypeExpr
  | 0, rest => .error (.tooDeep rest)
  | room + 1, rest => do
    let start := (eat? .bar rest).getD rest
    let (members, rest) ← readItems .bar (readSuffixed room (readUnion room)) start
    return (ofMembers members, rest)

def nestingLimit : Nat := 256

def ofTokens (tokens : List Located) : Except ParseFault TypeExpr := do
  let (expr, rest) ← readUnion nestingLimit tokens
  match rest with
  | [] => return expr
  | rest => .error (.expected .endOfInput rest)

end TypeExpr

end Wiring
