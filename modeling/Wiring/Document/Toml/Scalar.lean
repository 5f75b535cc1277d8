import Wiring.Document.Toml.Text

/-!
# Numbers, truth values and dates of TOML

A scalar without quotes is a word of letters, digits and a few marks, read as a whole.
-/

namespace Wiring.Toml

/-- Digits with single underscores between them, at least one digit. -/
def digitsOf? (isDigit : Char → Bool) : Chars → Option Chars
  | [] => none
  | [c] => if isDigit c then some [c] else none
  | c :: '_' :: rest => if isDigit c then do return c :: (← digitsOf? isDigit rest) else none
  | c :: rest => if isDigit c then do return c :: (← digitsOf? isDigit rest) else none

def isRadixDigit (radix : Nat) (c : Char) : Bool :=
  match Json.hexValue? c with
  | some value => value < radix
  | none => false

def numberOf (radix : Nat) (digits : Chars) : Nat :=
  digits.foldl (fun value c ↦ value * radix + (Json.hexValue? c).getD 0) 0

/-- Decimal digits without a zero in front of another digit. -/
def decimal? (cs : Chars) : Option Nat := do
  let digits ← digitsOf? Char.isDigit cs
  match digits with
  | '0' :: _ :: _ => none
  | digits => return numberOf 10 digits

def splitSign : Chars → Option Char × Chars
  | '+' :: rest => (some '+', rest)
  | '-' :: rest => (some '-', rest)
  | rest => (none, rest)

def integer? (cs : Chars) : Option Int :=
  match cs with
  | '0' :: 'x' :: digits => do return numberOf 16 (← digitsOf? (isRadixDigit 16) digits)
  | '0' :: 'o' :: digits => do return numberOf 8 (← digitsOf? (isRadixDigit 8) digits)
  | '0' :: 'b' :: digits => do return numberOf 2 (← digitsOf? (isRadixDigit 2) digits)
  | cs =>
    match splitSign cs with
    | (some '-', digits) => do return -(← decimal? digits : Nat)
    | (_, digits) => do return (← decimal? digits : Nat)

def Version.holdsInteger (version : Version) (value : Int) : Bool :=
  match version with
  | .v10 => -Int.ofNat (Nat.pow 2 63) ≤ value && value < Int.ofNat (Nat.pow 2 63)
  | .v11 => -Int.ofNat (Nat.pow 2 127) ≤ value && value < Int.ofNat (Nat.pow 2 128)

/-- A decimal fraction: its digits as one number, times ten to the power of the shift. -/
structure Fraction where
  digits : Chars
  shift : Int

def exponent? (cs : Chars) : Option Int := do
  let (sign, unsigned) := splitSign cs
  let size := numberOf 10 (← digitsOf? Char.isDigit unsigned)
  return if sign = some '-' then -size else size

/-- A number without sign that has a fraction, an exponent or both. -/
def fraction? (unsigned : Chars) : Option Fraction := do
  let (mantissa, power) := unsigned.span fun c ↦ c != 'e' && c != 'E'
  let (whole, rest) := mantissa.span (· != '.')
  let _ ← decimal? whole
  let digits := whole.filter (· != '_')
  let exponent ← match power with
    | [] => some 0
    | _ :: cs => exponent? cs
  match rest with
  | [] => if power.isEmpty then none else some ⟨digits, exponent⟩
  | _ :: places =>
    let places ← digitsOf? Char.isDigit places
    return ⟨digits ++ places, exponent - places.length⟩

/-- Whether the nearest float of 64 bits is infinity: the fraction is at least half a step above
the largest finite one.  Only numbers with 309 digits in front of the point need a comparison. -/
def Fraction.overflows (fraction : Fraction) : Bool :=
  let digits := fraction.digits.dropWhile (· = '0')
  let places : Int := digits.length + fraction.shift
  if digits.isEmpty || places < 309 then false
  else if 309 < places then true
  else
    let limit := Nat.pow 2 1024 - Nat.pow 2 970
    limit * Nat.pow 10 (-fraction.shift).toNat ≤
      numberOf 10 digits * Nat.pow 10 fraction.shift.toNat

/-- A float that its version holds, none for a word that is no float.  The revision 1.0 takes
any negative one. -/
def float? (version : Version) (cs : Chars) : Option Document :=
  let (sign, unsigned) := splitSign cs
  let held := Document.scalar (String.ofList cs)
  if unsigned = ['i', 'n', 'f'] ∨ unsigned = ['n', 'a', 'n'] then some held
  else
    (fraction? unsigned).map fun fraction ↦
      if !fraction.overflows || (version = .v10 && sign = some '-') then held else .outOfRange

/-- A number of exactly so many digits between two bounds. -/
def fixed? (width low high : Nat) (cs : Chars) : Option (Nat × Chars) :=
  let digits := cs.take width
  let value := numberOf 10 digits
  if digits.length = width ∧ digits.all Char.isDigit ∧ low ≤ value ∧ value ≤ high then
    some (value, cs.drop width)
  else none

def daysIn (year month : Nat) : Nat :=
  if month = 2 then
    if year % 4 = 0 ∧ (year % 100 ≠ 0 ∨ year % 400 = 0) then 29 else 28
  else if month = 4 ∨ month = 6 ∨ month = 9 ∨ month = 11 then 30
  else 31

def mark? (mark : Char) : Chars → Option Chars
  | c :: rest => if c = mark then some rest else none
  | [] => none

def date? (cs : Chars) : Option Chars := do
  let (year, rest) ← fixed? 4 0 9999 cs
  let (month, rest) ← fixed? 2 1 12 (← mark? '-' rest)
  let (_, rest) ← fixed? 2 1 (daysIn year month) (← mark? '-' rest)
  return rest

/-- Places of a second, of which nine count; zeros at their end are left out. -/
def placesText (digits : Chars) : Chars :=
  match ((digits.take 9).reverse.dropWhile (· = '0')).reverse with
  | [] => []
  | digits => '.' :: digits

def secondFraction? : Chars → Option (Chars × Chars)
  | '.' :: rest =>
    match rest.span Char.isDigit with
    | ([], _) => none
    | (digits, rest) => some (placesText digits, rest)
  | rest => some ([], rest)

/-- The text of a time; the revision 1.1 may leave out seconds of zero. -/
def time? (version : Version) (cs : Chars) : Option (Chars × Chars) := do
  let (_, rest) ← fixed? 2 0 23 cs
  let (_, rest) ← fixed? 2 0 59 (← mark? ':' rest)
  let minutes := cs.take 5
  match rest with
  | ':' :: rest =>
    let (_, after) ← fixed? 2 0 60 rest
    let (fraction, after) ← secondFraction? after
    return (minutes ++ ':' :: rest.take 2 ++ fraction, after)
  | rest => if version = .v11 then return (minutes ++ [':', '0', '0'], rest) else none

/-- The text of a zone at the end of a time; a difference of nothing has no sign of its own. -/
def zone? : Chars → Option Chars
  | [] => some []
  | [c] => if c = 'Z' ∨ c = 'z' then some ['Z'] else none
  | sign :: rest => do
    if sign = '+' ∨ sign = '-' then
      let (hours, after) ← fixed? 2 0 23 rest
      let (minutes, after) ← fixed? 2 0 59 (← mark? ':' after)
      if !after.isEmpty then none
      return (if hours = 0 ∧ minutes = 0 then '+' else sign) :: rest
    else none

/-- The text of a date, a time, or both with an optional zone. -/
def momentText? (version : Version) (cs : Chars) : Option Chars :=
  match date? cs with
  | some [] => some cs
  | some (separator :: rest) =>
    if separator = 'T' ∨ separator = 't' ∨ separator = ' ' then do
      let (time, rest) ← time? version rest
      return cs.take 10 ++ 'T' :: time ++ (← zone? rest)
    else none
  | none =>
    match time? version cs with
    | some (time, []) => some time
    | _ => none

def momentKey : String := "$__toml_private_datetime"

/-- A date reads as a table of one entry, its text. -/
def moment? (version : Version) (word : Chars) : Option Document := do
  return .table [(momentKey, .text (String.ofList (← momentText? version word)))]

def isScalarPart (c : Char) : Bool :=
  c.isAlphanum || c = '+' || c = '-' || c = '_' || c = '.' || c = ':'

/-- The word of a scalar; a date goes on after one blank with its time. -/
def scalarWord (cs : Chars) : Chars × Chars :=
  match cs.span isScalarPart with
  | (word, ' ' :: c :: rest) =>
    if (date? word) = some [] ∧ c.isDigit then
      let (time, rest) := (c :: rest).span isScalarPart
      (word ++ ' ' :: time, rest)
    else (word, ' ' :: c :: rest)
  | split => split

def integerValue (version : Version) (value : Int) : Document :=
  if version.holdsInteger value then .integer value else .outOfRange

def scalarOf? (version : Version) (word : Chars) : Option Document :=
  if word = ['t', 'r', 'u', 'e'] then some (.boolean true)
  else if word = ['f', 'a', 'l', 's', 'e'] then some (.boolean false)
  else
    match integer? word with
    | some value => some (integerValue version value)
    | none => (float? version word).or (moment? version word)

/-- A number out of range is refused by the revision 1.0 wherever it stands. -/
def scalar? (version : Version) (cs : Chars) : Option (Document × Chars) := do
  let (word, rest) := scalarWord cs
  match version, ← scalarOf? version word with
  | .v10, .outOfRange => none
  | _, document => return (document, rest)

end Wiring.Toml
