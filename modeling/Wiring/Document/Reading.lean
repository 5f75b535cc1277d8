import Wiring.Error
import Wiring.Path.Basic

/-!
# Documents and the values in them

What a text in one of the document formats says, as far as a reader of manifests or settings can
tell: tables keep repeated keys and their order.  A document may repeat nodes of its own by
number; the nodes themselves are kept beside it, since one may even repeat itself.

An alias is followed where its value is wanted and nowhere else, and only so many times in a whole
document, which bounds the work that a short text can ask for.  An unquoted scalar without text is
an empty list or table where one is wanted.

A record is a table of values with names of their own.  Keys that it does not know are passed over,
and a known key occurs at most once.  In some formats a record may also be written as the list of
its values.
-/

namespace Wiring

/-- What the tag of an unquoted scalar says about it. -/
inductive ScalarTag where
  | absent
  /-- The scalar is written as nothing. -/
  | null
  /-- The scalar is something, even when it is written as nothing would be. -/
  | other
  deriving DecidableEq

inductive Document where
  | null
  | boolean (value : Bool)
  | integer (value : Int)
  | scalar (spelling : String)
  /-- A number that its format has no room for; nobody can pass it over. -/
  | outOfRange
  | text (value : String)
  /-- A quoted text that holds escapes of no character, or a table with such a key. -/
  | garbled
  /-- An unquoted scalar that may be read as a text, a truth value or nothing. -/
  | plain (spelling : String) (tag : ScalarTag)
  | list (items : List Document)
  | table (entries : List (String × Document))
  /-- A table whose keys are documents as well. -/
  | mapping (entries : List (Document × Document))
  /-- The node with a number, in place of writing it out. -/
  | alias (number : Nat)

/-- The nodes that aliases stand for, and how many more aliases may be followed. -/
structure Links where
  nodes : List (Nat × Document)
  remaining : Nat

def Links.none : Links := ⟨[], 0⟩

structure LinkedDocument where
  root : Document
  links : Links

def Document.unlinked (root : Document) : LinkedDocument := ⟨root, .none⟩

/-- A value that is read while aliases are followed. -/
abbrev Reading (α : Type) := StateT Links Option α

def LinkedDocument.read? {α : Type} (document : LinkedDocument) (read : Document → Reading α) :
    Option α :=
  (read document.root document.links).map Prod.fst

namespace Document

/-- The node that a document stands for, which is itself no alias. -/
def follow : Document → Reading Document
  | .alias number => fun links ↦
    match links.remaining with
    | 0 => none
    | remaining + 1 =>
      (links.nodes.lookup number).map fun node ↦ (node, { links with remaining })
  | document => pure document

def readNode {α : Type} (read : Document → Option α) (document : Document) : Reading α := do
  StateT.lift (read (← follow document))

mutual

/-- Whether a value that nobody wants can be passed over. -/
def canPassOver : Document → Bool
  | outOfRange => false
  | list items => canPassOverAll items
  | table entries => canPassOverEntries entries
  | _ => true

def canPassOverAll : List Document → Bool
  | [] => true
  | item :: rest => canPassOver item && canPassOverAll rest

def canPassOverEntries : List (String × Document) → Bool
  | [] => true
  | (_, value) :: rest => canPassOver value && canPassOverEntries rest

end

def text? : Document → Reading String :=
  readNode fun
    | text value => some value
    | plain spelling _ => some spelling
    | _ => none

def path? (document : Document) : Reading Path := do
  return ⟨← text? document⟩

/-- The truth value that an unquoted word stands for. -/
def truthWord? (spelling : String) : Option Bool :=
  if spelling = "true" ∨ spelling = "True" ∨ spelling = "TRUE" then some true
  else if spelling = "false" ∨ spelling = "False" ∨ spelling = "FALSE" then some false
  else none

def boolean? : Document → Reading Bool :=
  readNode fun
    | boolean value => some value
    | plain spelling _ => truthWord? spelling
    | _ => none

def natural? : Document → Reading Nat :=
  readNode fun
    | integer value =>
      if 0 ≤ value ∧ value < Int.ofNat (Nat.pow 2 64) then some value.toNat else none
    | _ => none

def isNullWord (spelling : String) : Bool :=
  spelling = "~" || spelling = "null" || spelling = "Null" || spelling = "NULL"

def optional? {α : Type} (read : Document → Reading α) (document : Document) :
    Reading (Option α) := do
  match ← follow document with
  | null => return none
  | plain spelling .absent =>
    if spelling = "" || isNullWord spelling then return none
    else return some (← read (plain spelling .absent))
  | plain spelling .null => if isNullWord spelling then return none else failure
  | document => return some (← read document)

def list? {α : Type} (read : Document → Reading α) (document : Document) :
    Reading (List α) := do
  match ← follow document with
  | list items => items.mapM read
  | plain "" _ => return []
  | _ => failure

def table? (document : Document) : Reading (List (String × Document)) := do
  match ← follow document with
  | table entries => return entries
  | mapping entries => entries.mapM fun (key, value) ↦ do return (← text? key, value)
  | plain "" _ => return []
  | _ => failure

/-- Inserts an entry into a list in the order of its keys, in place of one with the same key. -/
def insertEntry {α : Type} (key : String) (value : α) : List (String × α) → List (String × α)
  | [] => [(key, value)]
  | (other, old) :: rest =>
    if key < other then (key, value) :: (other, old) :: rest
    else if key = other then (key, value) :: rest
    else (other, old) :: insertEntry key value rest

/-- A table read as a map: in the order of its keys, the last entry of a repeated key winning. -/
def map? {α : Type} (read : Document → Reading α) (document : Document) :
    Reading (List (String × α)) := do
  let entries ← document.table?
  let values ← entries.mapM fun entry ↦ do return (entry.1, ← read entry.2)
  return values.foldl (fun map entry ↦ insertEntry entry.1 entry.2 map) []

end Document

/-- Whether the values of a record may stand in a list without their keys. -/
def DocumentFormat.allowsPositional : DocumentFormat → Bool
  | json | toml => true
  | yaml => false

/-- Whether a list of values may be longer than the record. -/
def DocumentFormat.allowsSurplus : DocumentFormat → Bool
  | toml => true
  | json | yaml => false

namespace Document

abbrev Record := List (String × Document)

/-- The entries with known keys, none when one of these is repeated or when the value of another
key cannot be passed over. -/
def knownEntries? (keys : List String) : List (String × Document) → Option Record
  | [] => some []
  | (key, value) :: rest => do
    let record ← knownEntries? keys rest
    if keys.contains key then
      if (record.lookup key).isSome then none else some ((key, value) :: record)
    else if value.canPassOver then some record
    else none

def record? (format : DocumentFormat) (keys : List String) (document : Document) :
    Reading Record := do
  match ← follow document with
  | list items =>
    if format.allowsPositional && (format.allowsSurplus || items.length ≤ keys.length) then
      return keys.zip items
    else failure
  | document => StateT.lift (knownEntries? keys (← document.table?))

def Record.required {α : Type} (record : Record) (key : String) (read : Document → Reading α) :
    Reading α :=
  match record.lookup key with
  | none => failure
  | some document => read document

def Record.withDefault {α : Type} (record : Record) (key : String) (default : α)
    (read : Document → Reading α) : Reading α :=
  match record.lookup key with
  | none => pure default
  | some document => read document

end Document

end Wiring
