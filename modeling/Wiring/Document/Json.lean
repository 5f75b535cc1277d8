import Wiring.Document.Reading

/-!
# JSON

The grammar of RFC 8259, without comments, trailing commas or a byte order mark.  Two escapes
that form a surrogate pair name one character, and a text with an unpaired one is garbled.
-/

namespace Wiring.Json

def isBlank (c : Char) : Bool :=
  c = ' ' || c = '\n' || c = '\t' || c = '\r'

def skipBlank (cs : List Char) : List Char :=
  cs.dropWhile isBlank

/-- A piece of a quoted text: a character, or the code unit of an escape. -/
inductive TextPiece where
  | char (c : Char)
  | codeUnit (value : Nat)

def hexValue? (c : Char) : Option Nat :=
  if c.isDigit then some (c.toNat - '0'.toNat)
  else if 'a' ≤ c ∧ c ≤ 'f' then some (c.toNat - 'a'.toNat + 10)
  else if 'A' ≤ c ∧ c ≤ 'F' then some (c.toNat - 'A'.toNat + 10)
  else none

def codeUnit? (a b c d : Char) : Option Nat := do
  return (((← hexValue? a) * 16 + (← hexValue? b)) * 16 + (← hexValue? c)) * 16 + (← hexValue? d)

def shortEscape? : Char → Option Char
  | '"' => some '"'
  | '\\' => some '\\'
  | '/' => some '/'
  | 'b' => some '\x08'
  | 'f' => some '\x0c'
  | 'n' => some '\n'
  | 'r' => some '\r'
  | 't' => some '\t'
  | _ => none

/-- The pieces of a text after its opening quote, and what follows its closing quote. -/
def readPieces : List Char → Option (List TextPiece × List Char)
  | [] => none
  | '"' :: rest => some ([], rest)
  | '\\' :: 'u' :: a :: b :: c :: d :: rest => do
    let unit ← codeUnit? a b c d
    let (pieces, rest) ← readPieces rest
    return (.codeUnit unit :: pieces, rest)
  | '\\' :: e :: rest => do
    let c ← shortEscape? e
    let (pieces, rest) ← readPieces rest
    return (.char c :: pieces, rest)
  | c :: rest =>
    if c.toNat < 0x20 then none
    else do
      let (pieces, rest) ← readPieces rest
      return (.char c :: pieces, rest)

def isHighSurrogate (unit : Nat) : Bool := 0xD800 ≤ unit && unit < 0xDC00

def isLowSurrogate (unit : Nat) : Bool := 0xDC00 ≤ unit && unit < 0xE000

/-- The characters of a text, none when a surrogate is unpaired. -/
def characters? : List TextPiece → Option (List Char)
  | [] => some []
  | .char c :: pieces => do return c :: (← characters? pieces)
  | .codeUnit high :: .codeUnit low :: pieces =>
    if isHighSurrogate high && isLowSurrogate low then do
      let c := Char.ofNat (0x10000 + (high - 0xD800) * 0x400 + (low - 0xDC00))
      return c :: (← characters? pieces)
    else if isHighSurrogate high || isLowSurrogate high then none
    else do return Char.ofNat high :: (← characters? (.codeUnit low :: pieces))
  | .codeUnit unit :: pieces =>
    if isHighSurrogate unit || isLowSurrogate unit then none
    else do return Char.ofNat unit :: (← characters? pieces)

def textOf (pieces : List TextPiece) : Document :=
  match characters? pieces with
  | some cs => .text (String.ofList cs)
  | none => .garbled

/-- Digits at the front, at least one, and the rest. -/
def digits? (cs : List Char) : Option (List Char × List Char) :=
  match cs.span Char.isDigit with
  | ([], _) => none
  | (digits, rest) => some (digits, rest)

/-- An integer part has no zero in front of another digit. -/
def wholePart? : List Char → Option (List Char × List Char)
  | '0' :: c :: rest => if c.isDigit then none else some (['0'], c :: rest)
  | cs => digits? cs

def fraction? : List Char → Option (List Char × List Char)
  | '.' :: rest => do
    let (digits, rest) ← digits? rest
    return ('.' :: digits, rest)
  | rest => some ([], rest)

def exponent? : List Char → Option (List Char × List Char)
  | e :: rest =>
    if e = 'e' ∨ e = 'E' then
      match rest with
      | sign :: after =>
        if sign = '+' ∨ sign = '-' then do
          let (digits, rest) ← digits? after
          return (e :: sign :: digits, rest)
        else do
          let (digits, rest) ← digits? rest
          return (e :: digits, rest)
      | [] => none
    else some ([], e :: rest)
  | [] => some ([], [])

def number? (cs : List Char) : Option (Document × List Char) := do
  let (sign, cs) := match cs with
    | '-' :: rest => (['-'], rest)
    | cs => ([], cs)
  let (whole, cs) ← wholePart? cs
  let (fraction, cs) ← fraction? cs
  let (exponent, cs) ← exponent? cs
  return (.scalar (String.ofList (sign ++ whole ++ fraction ++ exponent)), cs)

/-- Entries whose keys may be garbled. -/
abbrev RawEntries := List (Option String × Document)

def keyOf (pieces : List TextPiece) : Option String :=
  (characters? pieces).map String.ofList

/-- The table of some entries; a garbled key makes the whole of it garbled. -/
def tableOf (entries : RawEntries) : Document :=
  match entries.mapM fun entry ↦ entry.1.map fun key ↦ (key, entry.2) with
  | some entries => .table entries
  | none => .garbled

def word? : List Char → List Char → Option (List Char)
  | [], rest => some rest
  | c :: word, d :: rest => if c = d then word? word rest else none
  | _ :: _, [] => none

mutual

/-- A value at the front of a text.  Each level of the recursion uses up a character. -/
def value : Nat → List Char → Option (Document × List Char)
  | 0, _ => none
  | fuel + 1, cs =>
    match skipBlank cs with
    | '[' :: rest =>
      match skipBlank rest with
      | ']' :: rest => some (.list [], rest)
      | rest => do
        let (items, rest) ← items fuel rest
        return (.list items, rest)
    | '{' :: rest =>
      match skipBlank rest with
      | '}' :: rest => some (.table [], rest)
      | rest => do
        let (entries, rest) ← entries fuel rest
        return (tableOf entries, rest)
    | '"' :: rest => do
      let (pieces, rest) ← readPieces rest
      return (textOf pieces, rest)
    | 't' :: rest => do return (.boolean true, ← word? ['r', 'u', 'e'] rest)
    | 'f' :: rest => do return (.boolean false, ← word? ['a', 'l', 's', 'e'] rest)
    | 'n' :: rest => do return (.null, ← word? ['u', 'l', 'l'] rest)
    | rest => number? rest

/-- Values between commas, up to the closing bracket. -/
def items : Nat → List Char → Option (List Document × List Char)
  | 0, _ => none
  | fuel + 1, cs => do
    let (first, rest) ← value fuel cs
    match skipBlank rest with
    | ',' :: rest =>
      let (others, rest) ← items fuel rest
      return (first :: others, rest)
    | ']' :: rest => return ([first], rest)
    | _ => none

/-- Keys with values between commas, up to the closing brace. -/
def entries : Nat → List Char → Option (RawEntries × List Char)
  | 0, _ => none
  | fuel + 1, cs =>
    match skipBlank cs with
    | '"' :: rest => do
      let (pieces, rest) ← readPieces rest
      let key := keyOf pieces
      match skipBlank rest with
      | ':' :: rest =>
        let (first, rest) ← value fuel rest
        match skipBlank rest with
        | ',' :: rest =>
          let (others, rest) ← entries fuel rest
          return ((key, first) :: others, rest)
        | '}' :: rest => return ([(key, first)], rest)
        | _ => none
      | _ => none
    | _ => none

end

def read (text : String) : Option Document := do
  let cs := text.toList
  let (document, rest) ← value (2 * cs.length + 2) cs
  if (skipBlank rest).isEmpty then some document else none

end Wiring.Json
