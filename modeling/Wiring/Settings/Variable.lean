import Wiring.Document.Reading
import Wiring.Document.Toml.Scalar
import Wiring.Host.Basic
import Wiring.Text.Character

/-!
# Settings in the environment

A variable whose name starts with the prefix of the program, in any ASCII case, sets the value at
the keys that follow, two underscores between them.  Its text is a truth value, an integer, a
quoted text, a list or a table when all of it reads as one, and a text otherwise.
-/

namespace Wiring.Settings

open Document

abbrev Chars := List Char

def isGap (c : Char) : Bool :=
  c = ' ' || c = '\t' || c = '\n' || c = '\r' || c = '\x0c'

def skipGap (cs : Chars) : Chars := cs.dropWhile isGap

def endsWord (c : Char) : Bool :=
  c = ',' || c = '{' || c = '}' || c = '[' || c = ']'

def trim (cs : Chars) : Chars :=
  ((cs.dropWhile Text.isBlank).reverse.dropWhile Text.isBlank).reverse

/-- The digits of a number in decimal notation, of which there is at least one. -/
def decimal? : Chars → Option Nat
  | [] => none
  | digits => if digits.all Char.isDigit then some (Toml.numberOf 10 digits) else none

def integer? : Chars → Option Int
  | '-' :: digits => do
    let size ← decimal? digits
    if size ≤ Nat.pow 2 63 then some (-size) else none
  | '+' :: digits => natural? digits
  | digits => natural? digits
where
  natural? (digits : Chars) : Option Int := do
    let size ← decimal? digits
    if size < Nat.pow 2 64 then some size else none

/-- Whether digits with a point among them make up a word, perhaps with a sign and an exponent. -/
def isFraction (word : Chars) : Bool :=
  let (mantissa, exponent) := (Toml.splitSign word).2.span fun c ↦ c != 'e' && c != 'E'
  let digits := mantissa.filter (· != '.')
  mantissa.length = digits.length + 1 && (decimal? digits).isSome &&
    match exponent with
    | [] => true
    | _ :: power => (decimal? (Toml.splitSign power).2).isSome

def wordValue (word : Chars) : Document :=
  match integer? word with
  | some value => integer value
  | none => if isFraction word then scalar (String.ofList word) else text (String.ofList word)

/-- As many characters as fit into so many bytes. -/
def takeBytes : Nat → Chars → Chars
  | _, [] => []
  | size, c :: rest => if c.utf8Size ≤ size then c :: takeBytes (size - c.utf8Size) rest else []

/-- A quoted text from its opening quote.  In front of the first escape as many bytes of it are
kept as there are characters. -/
def quoted? : Chars → Option (Chars × Chars)
  | '"' :: rest => do
    let (value, after) ← Toml.basicWithin .v10 (rest.length + 1) rest
    let start := rest.takeWhile fun c ↦ c != '"' && c != '\\'
    match rest.drop start.length with
    | '\\' :: _ => return (takeBytes start.length start ++ value.drop start.length, after)
    | _ => return (value, after)
  | _ => none

def key? (cs : Chars) : Option (String × Chars) :=
  match cs with
  | '"' :: _ => do
    let (key, rest) ← quoted? cs
    return (String.ofList key, rest)
  | _ =>
    match cs.span Toml.isBareKey with
    | ([], _) => none
    | (key, rest) => some (String.ofList key, rest)

/-- The items up to a closing mark, commas between them and perhaps one more behind the last. -/
def itemsWithin {α : Type} (item? : Chars → Option (α × Chars)) (closing : Char) :
    Nat → Chars → Option (List α × Chars)
  | 0, _ => none
  | rounds + 1, cs =>
    match Toml.mark? closing cs with
    | some rest => some ([], rest)
    | none => do
      let (first, rest) ← item? cs
      match rest with
      | ',' :: rest =>
        let (others, rest) ← itemsWithin item? closing rounds rest
        return (first :: others, rest)
      | rest => return ([first], ← Toml.mark? closing rest)

def keyedValue? (value? : Chars → Option (Document × Chars)) (cs : Chars) :
    Option ((String × Document) × Chars) := do
  let (key, rest) ← key? (skipGap cs)
  let (value, rest) ← value? (← Toml.mark? '=' (skipGap rest))
  return ((key, value), rest)

/-- A value with the gaps around it, with so many levels of lists and tables inside.  A truth value
needs nothing behind it to end, and a single character may stand between single quotes. -/
def valueWithin : Nat → Chars → Option (Document × Chars)
  | depth, cs =>
    match skipGap cs, depth with
    | 't' :: 'r' :: 'u' :: 'e' :: rest, _ => some (boolean true, skipGap rest)
    | 'f' :: 'a' :: 'l' :: 's' :: 'e' :: rest, _ => some (boolean false, skipGap rest)
    | '\'' :: c :: '\'' :: rest, _ => some (text c.toString, skipGap rest)
    | '\'' :: _, _ => none
    | '"' :: rest, _ => do
      let (value, rest) ← quoted? ('"' :: rest)
      return (text (String.ofList value), skipGap rest)
    | '[' :: rest, depth + 1 => do
      let (items, rest) ← itemsWithin (valueWithin depth) ']' (rest.length + 1) rest
      return (list items, skipGap rest)
    | '{' :: rest, depth + 1 => do
      let (entries, rest) ←
        itemsWithin (keyedValue? (valueWithin depth)) '}' (rest.length + 1) rest
      return (table (entries.foldl (fun map entry ↦ insertEntry entry.1 entry.2 map) []),
        skipGap rest)
    | '[' :: _, 0 | '{' :: _, 0 => none
    | cs, _ =>
      let (word, rest) := cs.span (!endsWord ·)
      some (wordValue (trim word), skipGap rest)

def variableValue (value : String) : Document :=
  match valueWithin value.length value.toList with
  | some (document, []) => document
  | _ => text value

def variablePrefix : Chars := "SPLICE_".toList

/-- The pieces of a name between double underscores or dots, in lower case. -/
def splitKeys : Chars → List Chars
  | [] => [[]]
  | '_' :: '_' :: rest => [] :: splitKeys rest
  | '.' :: rest => [] :: splitKeys rest
  | c :: rest =>
    match splitKeys rest with
    | [] => [[c.toLower]]
    | key :: keys => (c.toLower :: key) :: keys

/-- The keys that a variable sets the value at, none of them empty. -/
def variableKeys? (name : String) : Option (List String) :=
  let cs := trim name.toList
  if (cs.take variablePrefix.length).map Char.toUpper = variablePrefix then
    let keys := splitKeys (trim (cs.drop variablePrefix.length))
    if keys.contains [] then none else some (keys.map String.ofList)
  else none

/-- A document that holds one value, at the end of a chain of keys. -/
def nested (value : Document) : List String → Document
  | [] => value
  | key :: keys => table [(key, nested value keys)]

end Wiring.Settings
