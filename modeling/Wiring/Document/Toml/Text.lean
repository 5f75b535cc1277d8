import Wiring.Document.Json

/-!
# Texts and keys of TOML

Basic texts have escapes and literal texts have none; both may span lines between tripled quotes.
-/

namespace Wiring.Toml

inductive Version where
  | v10
  /-- With `\e` and `\x` escapes, times without seconds, and inline tables over several lines. -/
  | v11
  deriving DecidableEq

/-- How many parts a key may have, and how deep arrays and inline tables may be nested. -/
def Version.nestingLimit : Version → Nat
  | v10 => 79
  | v11 => 80

abbrev Chars := List Char

def isBlank (c : Char) : Bool := c = ' ' || c = '\t'

def skipBlank (cs : Chars) : Chars := cs.dropWhile isBlank

def isControl (c : Char) : Bool := (c.toNat < 0x20 && c != '\t') || c.toNat = 0x7F

def newline? : Chars → Option Chars
  | '\n' :: rest => some rest
  | '\r' :: '\n' :: rest => some rest
  | _ => none

/-- The rest after a comment, if there is one; it ends before the line end. -/
def skipComment? : Chars → Option Chars
  | '#' :: rest =>
    match rest.dropWhile (!isControl ·) with
    | [] => some []
    | '\n' :: rest => some ('\n' :: rest)
    | '\r' :: '\n' :: rest => some ('\r' :: '\n' :: rest)
    | _ => none
  | rest => some rest

/-- The rest after everything that a line may hold behind a statement. -/
def lineEnd? (cs : Chars) : Option Chars := do
  match ← skipComment? (skipBlank cs) with
  | [] => some []
  | rest => newline? rest

/-- The rest after blanks, comments and line ends. -/
def skipLinesWithin : Nat → Chars → Option Chars
  | 0, cs => some cs
  | rounds + 1, cs => do
    let rest ← skipComment? (skipBlank cs)
    match newline? rest with
    | some rest => skipLinesWithin rounds rest
    | none => some rest

def skipLines? (cs : Chars) : Option Chars :=
  skipLinesWithin (cs.length + 1) cs

def hexNumber? (digits : Chars) : Option Nat :=
  digits.foldlM (fun value c ↦ do return value * 16 + (← Json.hexValue? c)) 0

/-- The character of a code point, none for surrogates and beyond the last one. -/
def character? (code : Nat) : Option Char :=
  if code.isValidChar then some (Char.ofNat code) else none

def codePoint? (width : Nat) (cs : Chars) : Option (Char × Chars) :=
  let digits := cs.take width
  if digits.length = width then do
    let c ← character? (← hexNumber? digits)
    return (c, cs.drop width)
  else none

def escape? (version : Version) : Chars → Option (Char × Chars)
  | 'b' :: rest => some ('\x08', rest)
  | 't' :: rest => some ('\t', rest)
  | 'n' :: rest => some ('\n', rest)
  | 'f' :: rest => some ('\x0c', rest)
  | 'r' :: rest => some ('\r', rest)
  | '"' :: rest => some ('"', rest)
  | '\\' :: rest => some ('\\', rest)
  | 'u' :: rest => codePoint? 4 rest
  | 'U' :: rest => codePoint? 8 rest
  | 'e' :: rest => if version = .v11 then some ('\x1b', rest) else none
  | 'x' :: rest => if version = .v11 then codePoint? 2 rest else none
  | _ => none

/-- The characters of a basic text after its opening quote; every round uses up a character. -/
def basicWithin (version : Version) : Nat → Chars → Option (Chars × Chars)
  | 0, _ => none
  | _ + 1, [] => none
  | _ + 1, '"' :: rest => some ([], rest)
  | rounds + 1, '\\' :: rest => do
    let (c, rest) ← escape? version rest
    let (cs, rest) ← basicWithin version rounds rest
    return (c :: cs, rest)
  | rounds + 1, c :: rest =>
    if isControl c then none
    else do
      let (cs, rest) ← basicWithin version rounds rest
      return (c :: cs, rest)

def literal? (cs : Chars) : Option (Chars × Chars) :=
  match cs.span (fun c ↦ c != '\'' && !isControl c) with
  | (text, '\'' :: rest) => some (text, rest)
  | _ => none

/-- The quotes at the end of a text over several lines: three close it, and up to two more belong
to it.  Fewer than three are part of the text and close nothing. -/
def closing? (quote : Char) (cs : Chars) : Option (Chars × Chars) :=
  let quotes := cs.takeWhile (· = quote)
  if quotes.length < 3 then none
  else some (quotes.take (min 5 quotes.length - 3), cs.drop (min 5 quotes.length))

def skipBlankLines : Chars → Chars
  | '\r' :: '\n' :: rest => skipBlankLines rest
  | c :: rest => if isBlank c || c = '\n' then skipBlankLines rest else c :: rest
  | [] => []

/-- What follows a backslash at the end of a line, without the blank lines and blanks there. -/
def continuation? (cs : Chars) : Option Chars :=
  (newline? (skipBlank cs)).map skipBlankLines

/-- What a line end inside a text reads as; the revision 1.1 keeps it as it is. -/
def lineEndText (version : Version) (c : Char) : Chars :=
  if version = .v11 ∧ c = '\r' then ['\r', '\n'] else ['\n']

def multilineBasicWithin (version : Version) : Nat → Chars → Option (Chars × Chars)
  | 0, _ => none
  | _ + 1, [] => none
  | rounds + 1, '\\' :: rest =>
    match continuation? rest with
    | some rest => multilineBasicWithin version rounds rest
    | none => do
      let (c, rest) ← escape? version rest
      let (cs, rest) ← multilineBasicWithin version rounds rest
      return (c :: cs, rest)
  | rounds + 1, c :: rest =>
    match closing? '"' (c :: rest), newline? (c :: rest) with
    | some (text, rest), _ => some (text, rest)
    | none, some rest => do
      let (cs, rest) ← multilineBasicWithin version rounds rest
      return (lineEndText version c ++ cs, rest)
    | none, none =>
      if isControl c then none
      else do
        let (cs, rest) ← multilineBasicWithin version rounds rest
        return (c :: cs, rest)

def multilineLiteralWithin (version : Version) : Nat → Chars → Option (Chars × Chars)
  | 0, _ => none
  | _ + 1, [] => none
  | rounds + 1, c :: rest =>
    match closing? '\'' (c :: rest), newline? (c :: rest) with
    | some (text, rest), _ => some (text, rest)
    | none, some rest => do
      let (cs, rest) ← multilineLiteralWithin version rounds rest
      return (lineEndText version c ++ cs, rest)
    | none, none =>
      if isControl c then none
      else do
        let (cs, rest) ← multilineLiteralWithin version rounds rest
        return (c :: cs, rest)

/-- A line end right after the opening quotes is no part of the text. -/
def skipNewline (cs : Chars) : Chars := (newline? cs).getD cs

def text? (version : Version) (cs : Chars) : Option (Chars × Chars) :=
  match cs with
  | '"' :: '"' :: '"' :: rest =>
    multilineBasicWithin version (rest.length + 1) (skipNewline rest)
  | '\'' :: '\'' :: '\'' :: rest =>
    multilineLiteralWithin version (rest.length + 1) (skipNewline rest)
  | '"' :: rest => basicWithin version (rest.length + 1) rest
  | '\'' :: rest => literal? rest
  | _ => none

def isBareKey (c : Char) : Bool := c.isAlphanum || c = '_' || c = '-'

def simpleKey? (version : Version) (cs : Chars) : Option (String × Chars) :=
  match cs with
  | '"' :: rest => do
    let (key, rest) ← basicWithin version (rest.length + 1) rest
    return (String.ofList key, rest)
  | '\'' :: rest => do
    let (key, rest) ← literal? rest
    return (String.ofList key, rest)
  | cs =>
    match cs.span isBareKey with
    | ([], _) => none
    | (key, rest) => some (String.ofList key, rest)

/-- Keys between dots, which may have blanks around them. -/
def dottedKeyWithin (version : Version) : Nat → Chars → Option (List String × Chars)
  | 0, _ => none
  | rounds + 1, cs => do
    let (key, rest) ← simpleKey? version (skipBlank cs)
    match skipBlank rest with
    | '.' :: rest =>
      let (keys, rest) ← dottedKeyWithin version rounds rest
      return (key :: keys, rest)
    | rest => return ([key], rest)

def dottedKey? (version : Version) (cs : Chars) : Option (List String × Chars) :=
  dottedKeyWithin version version.nestingLimit cs

end Wiring.Toml
