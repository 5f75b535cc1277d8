import Wiring.Document.Reading
import Wiring.Document.Toml.Scalar

/-!
# Reading TOML

A document defines its tables piece by piece.  A table may come into being by its header, by the
header of a table below it, or by a dotted key; which of these decides how it may be extended.

The text has lines of headers and of keys with values.  Arrays and inline tables may be nested up
to a limit.
-/

namespace Wiring.Toml

inductive Origin where
  /-- By a header or as an element of an array of tables. -/
  | header
  /-- By the header of a table below it. -/
  | implied
  | dotted
  deriving DecidableEq

inductive Node where
  /-- A value that nothing can be added to. -/
  | value (document : Document)
  | table (origin : Origin) (entries : List (String × Node))
  /-- An array of tables, last table first. -/
  | tables (items : List (List (String × Node)))

abbrev Entries := List (String × Node)

namespace Entries

def replace (entries : Entries) (key : String) (node : Node) : Entries :=
  entries.map fun entry ↦ if entry.1 = key then (key, node) else entry

def insertNew? (entries : Entries) (key : String) (node : Node) : Option Entries :=
  if (entries.lookup key).isSome then none else some (entries ++ [(key, node)])

/-- Changes the entries of the table at a path of headers, which makes the tables on its way. -/
def atHeader? (change : Entries → Option Entries) : List String → Entries → Option Entries
  | [], entries => change entries
  | key :: path, entries =>
    match entries.lookup key with
    | none => do return entries ++ [(key, .table .implied (← atHeader? change path []))]
    | some (.value _) => none
    | some (.table origin below) => do
      return replace entries key (.table origin (← atHeader? change path below))
    | some (.tables []) => none
    | some (.tables (last :: earlier)) => do
      return replace entries key (.tables ((← atHeader? change path last) :: earlier))

def openTable? (key : String) (entries : Entries) : Option Entries :=
  match entries.lookup key with
  | none => some (entries ++ [(key, .table .header [])])
  | some (.table .implied below) => some (replace entries key (.table .header below))
  | _ => none

def openElement? (key : String) (entries : Entries) : Option Entries :=
  match entries.lookup key with
  | none => some (entries ++ [(key, .tables [[]])])
  | some (.tables items) => some (replace entries key (.tables ([] :: items)))
  | _ => none

/-- Puts a value at a dotted key.  The key may pass through tables that no header defined, and its
last table must have been made by a dotted key. -/
def insert? (node : Node) : List String → Entries → Option Entries
  | [], _ => none
  | [key], entries => insertNew? entries key node
  | key :: next :: path, entries =>
    match entries.lookup key with
    | none => do return entries ++ [(key, .table .dotted (← insert? node (next :: path) []))]
    | some (.table .dotted below) => do
      return replace entries key (.table .dotted (← insert? node (next :: path) below))
    | some (.table .implied below) =>
      if path.isEmpty then none
      else do return replace entries key (.table .implied (← insert? node (next :: path) below))
    | some (.tables (last :: earlier)) =>
      if path.isEmpty then none
      else do return replace entries key (.tables ((← insert? node (next :: path) last) :: earlier))
    | _ => none

end Entries

mutual

def Node.document : Node → Document
  | .value document => document
  | .table _ entries => .table (documents entries)
  | .tables items => .list (tableDocuments items).reverse

def documents : List (String × Node) → List (String × Document)
  | [] => []
  | (key, node) :: rest => (key, node.document) :: documents rest

def tableDocuments : List (List (String × Node)) → List Document
  | [] => []
  | entries :: rest => .table (documents entries) :: tableDocuments rest

end

/-- The rest after what may stand between the parts of an inline table. -/
def skipInline? (version : Version) (cs : Chars) : Option Chars :=
  match version with
  | .v10 => some (skipBlank cs)
  | .v11 => skipLines? cs

/-- The values of an array up to its closing bracket. -/
def arrayWithin (value : Chars → Option (Document × Chars)) :
    Nat → Chars → Option (List Document × Chars)
  | 0, _ => none
  | rounds + 1, cs => do
    match ← skipLines? cs with
    | ']' :: rest => return ([], rest)
    | rest =>
      let (first, rest) ← value rest
      match ← skipLines? rest with
      | ',' :: rest =>
        let (others, rest) ← arrayWithin value rounds rest
        return (first :: others, rest)
      | ']' :: rest => return ([first], rest)
      | _ => none

def keyValue? (version : Version) (skip? : Chars → Option Chars)
    (value : Chars → Option (Document × Chars)) (cs : Chars) :
    Option (List String × Document × Chars) := do
  let (path, rest) ← dottedKey? version cs
  let (document, rest) ← value (← skip? (← mark? '=' (← skip? rest)))
  return (path, document, rest)

/-- The entries of an inline table up to its closing brace; only the revision 1.1 allows a comma
in front of it. -/
def inlineWithin (version : Version) (value : Chars → Option (Document × Chars)) :
    Nat → Entries → Chars → Option (Entries × Chars)
  | 0, _, _ => none
  | rounds + 1, entries, cs => do
    let (path, document, rest) ← keyValue? version (skipInline? version) value cs
    let entries ← entries.insert? (.value document) path
    match ← skipInline? version rest with
    | '}' :: rest => return (entries, rest)
    | ',' :: rest =>
      match ← skipInline? version rest with
      | '}' :: rest => if version = .v11 then return (entries, rest) else none
      | rest => inlineWithin version value rounds entries rest
    | _ => none

/-- A value, with so many levels of arrays and inline tables inside it. -/
def value (version : Version) : Nat → Chars → Option (Document × Chars)
  | depth, cs =>
    match cs with
    | '"' :: _ => do
      let (text, rest) ← text? version cs
      return (.text (String.ofList text), rest)
    | '\'' :: _ => do
      let (text, rest) ← text? version cs
      return (.text (String.ofList text), rest)
    | '[' :: rest =>
      match depth with
      | 0 => none
      | depth + 1 => do
        let (items, rest) ← arrayWithin (value version depth) (rest.length + 1) rest
        return (.list items, rest)
    | '{' :: rest =>
      match depth with
      | 0 => none
      | depth + 1 => do
        match ← skipInline? version rest with
        | '}' :: rest => return (.table [], rest)
        | rest =>
          let (entries, rest) ←
            inlineWithin version (value version depth) (rest.length + 1) [] rest
          return (.table (documents entries), rest)
    | cs => scalar? version cs

/-- A document as far as it has been read: its tables, and the path of the open one. -/
structure Progress where
  root : Entries
  current : List String

/-- Splits a path into the way to its last key and that key. -/
def splitLast? : List String → Option (List String × String)
  | [] => none
  | [key] => some ([], key)
  | key :: rest => do
    let (before, last) ← splitLast? rest
    return (key :: before, last)

/-- Reads a header from behind its opening brackets up to the line end. -/
def header? (version : Version) (openKey? : String → Entries → Option Entries) (closing : Chars)
    (progress : Progress) (cs : Chars) : Option (Progress × Chars) := do
  let (path, rest) ← dottedKey? version cs
  let (before, last) ← splitLast? path
  let rest ← Json.word? closing rest
  let root ← progress.root.atHeader? (openKey? last) before
  return (⟨root, path⟩, ← lineEnd? rest)

/-- Reads one line that holds a header or a key with its value. -/
def statement? (version : Version) (progress : Progress) (cs : Chars) :
    Option (Progress × Chars) :=
  match cs with
  | '[' :: '[' :: rest => header? version Entries.openElement? [']', ']'] progress rest
  | '[' :: rest => header? version Entries.openTable? [']'] progress rest
  | cs => do
    let (path, document, rest) ←
      keyValue? version (some ∘ skipBlank) (value version version.nestingLimit) cs
    let root ← progress.root.atHeader? (Entries.insert? (.value document) path) progress.current
    return ({ progress with root := root }, ← lineEnd? rest)

/-- Reads statements up to the end; each of them uses up a character. -/
def statements? (version : Version) : Nat → Progress → Chars → Option Entries
  | 0, _, _ => none
  | rounds + 1, progress, cs => do
    match ← skipLines? cs with
    | [] => return progress.root
    | rest =>
      let (progress, rest) ← statement? version progress rest
      statements? version rounds progress rest

/-- Reads a whole text, which may start with a byte order mark. -/
def read (version : Version) (text : String) : Option Document := do
  let cs := match text.toList with
    | '\uFEFF' :: rest => rest
    | cs => cs
  let entries ← statements? version (cs.length + 1) ⟨[], []⟩ cs
  return .table (documents entries)

end Wiring.Toml
