import Wiring.Document.Yaml.Scalar

/-!
# Tokens of YAML

The structure of a block is in its columns: a token that starts further right than the block
around it opens a new block, and one further left closes blocks.  Whether a token was the key of
a mapping shows only at the colon behind it, so the place of every possible key is remembered
until then, and the marks for it are inserted afterwards.
-/

namespace Wiring.Yaml

abbrev Octets := List Nat

/-- The tag of a single exclamation mark, which no declaration changes. -/
def bareTag : Octets := ['!'.toNat]

inductive Directive where
  | version (major minor : Nat)
  /-- What tags with a handle start with. -/
  | tag (handle : String) (start : Octets)

inductive Token where
  | directive (directive : Directive)
  | documentStart
  | documentEnd
  | blockSequenceStart
  | blockMappingStart
  | blockEnd
  | flowSequenceStart
  | flowSequenceEnd
  | flowMappingStart
  | flowMappingEnd
  | blockEntry
  | flowEntry
  | key
  | value
  | alias (name : String)
  | anchor (name : String)
  /-- A tag with its handle, none for a tag written in full, and what follows the handle. -/
  | tag (handle : Option String) (suffix : Octets)
  | plain (text : String)
  /-- A block scalar that keeps its lines. -/
  | literal (text : String)
  /-- A scalar between quotes or one that folds its lines. -/
  | quoted (text : String)

/-- A place that may turn out to be that of a key. -/
structure PossibleKey where
  /-- Whether nothing but a key can stand there. -/
  required : Bool
  tokensBefore : Nat
  place : Cursor

structure Scanner where
  cursor : Cursor
  tokens : List Token
  /-- The columns of the open blocks, innermost first. -/
  indents : List Nat
  keyAllowed : Bool
  /-- The possible key of the block and of each open flow collection, innermost first. -/
  keys : List (Option PossibleKey)

namespace Scanner

def start (text : Chars) : Scanner := ⟨.start text, [], [], true, [none]⟩

def inFlow (scanner : Scanner) : Bool := 1 < scanner.keys.length

/-- The column of the innermost block, -1 outside all blocks. -/
def indent (scanner : Scanner) : Int :=
  match scanner.indents with
  | column :: _ => column
  | [] => -1

def emit (scanner : Scanner) (token : Token) : Scanner :=
  { scanner with tokens := token :: scanner.tokens }

/-- Puts a token behind the first so many tokens. -/
def insertAfter (scanner : Scanner) (count : Nat) (token : Token) : Scanner :=
  { scanner with tokens := scanner.tokens.insertIdx (scanner.tokens.length - count) token }

def skip (scanner : Scanner) : Scanner := { scanner with cursor := scanner.cursor.skip }

def allowKey (scanner : Scanner) (allowed : Bool) : Scanner :=
  { scanner with keyAllowed := allowed }

/-- Opens a block at a column that is further right than the one around it. -/
def openBlock (scanner : Scanner) (column : Nat) (count : Nat) (token : Token) : Scanner :=
  if !scanner.inFlow && scanner.indent < (column : Int) then
    { scanner.insertAfter count token with indents := column :: scanner.indents }
  else scanner

def openBlockHere (scanner : Scanner) (token : Token) : Scanner :=
  scanner.openBlock scanner.cursor.column scanner.tokens.length token

/-- Closes the blocks that are further right than a column. -/
def closeBlocks (scanner : Scanner) (column : Int) : Scanner :=
  if scanner.inFlow then scanner
  else
    let closed := scanner.indents.takeWhile fun (indent : Nat) ↦ column < (indent : Int)
    { scanner with
      tokens := closed.map (fun _ ↦ .blockEnd) ++ scanner.tokens
      indents := scanner.indents.drop closed.length }

def currentKey (scanner : Scanner) : Option PossibleKey := scanner.keys.head?.join

def setKey (scanner : Scanner) (key : Option PossibleKey) : Scanner :=
  { scanner with keys := key :: scanner.keys.tail }

/-- Gives up the possible key; a required one must not be lost. -/
def dropKey? (scanner : Scanner) : Option Scanner :=
  if scanner.currentKey.any (·.required) then none else some (scanner.setKey none)

def saveKey? (scanner : Scanner) : Option Scanner :=
  if scanner.keyAllowed then do
    let scanner ← scanner.dropKey?
    let required := !scanner.inFlow && scanner.indent = (scanner.cursor.column : Int)
    return scanner.setKey (some ⟨required, scanner.tokens.length, scanner.cursor⟩)
  else some scanner

/-- A key and its colon stand on one line and not further apart than this. -/
def keyReach : Nat := 1024

def isStale (cursor : Cursor) (key : PossibleKey) : Bool :=
  key.place.line < cursor.line || key.place.index + keyReach < cursor.index

/-- Forgets keys that are out of reach of a colon. -/
def dropStaleKeys? (scanner : Scanner) : Option Scanner :=
  let stale (key : Option PossibleKey) : Bool := key.any (isStale scanner.cursor)
  if scanner.keys.any fun key ↦ stale key && key.any (·.required) then none
  else
    some { scanner with keys := scanner.keys.map fun key ↦ if stale key then none else key }

/-- Past blanks, comments and line ends.  A tab may not stand where a block could start. -/
def skipGapWithin : Nat → Scanner → Scanner
  | 0, scanner => scanner
  | rounds + 1, scanner =>
    let cursor := if scanner.cursor.column = 0 && scanner.cursor.peekIs '\uFEFF'
      then scanner.cursor.skip else scanner.cursor
    let tabs := scanner.inFlow || !scanner.keyAllowed
    let cursor := (cursor.skipWhile fun c ↦ c = ' ' || (tabs && c = '\t')).skipComment
    if cursor.isAtBreak then
      skipGapWithin rounds
        { scanner with
          cursor := cursor.takeBreak.2
          keyAllowed := scanner.keyAllowed || !scanner.inFlow }
    else { scanner with cursor := cursor }

def skipGap (scanner : Scanner) : Scanner :=
  skipGapWithin (scanner.cursor.rest.length + 1) scanner

/-- Closes everything in front of a line that belongs to no block. -/
def leaveBlocks? (scanner : Scanner) : Option Scanner := do
  let scanner ← (scanner.closeBlocks (-1)).dropKey?
  return scanner.allowKey false

def isNameChar (c : Char) : Bool := c.isAlphanum || c = '_' || c = '-'

def number? (cursor : Cursor) : Option (Nat × Cursor) :=
  let (digits, cursor) := cursor.takeWhile Char.isDigit
  if digits.isEmpty || 9 < digits.length then none
  else some (digits.foldl (fun value c ↦ value * 10 + (c.toNat - '0'.toNat)) 0, cursor)

def versionDirective? (cursor : Cursor) : Option (Directive × Cursor) := do
  let (major, cursor) ← number? cursor.skipBlanks
  if !cursor.peekIs '.' then none
  let (minor, cursor) ← number? cursor.skip
  return (.version major minor, cursor)

def isUriChar (c : Char) : Bool :=
  isNameChar c || ";/?:@&=+$.!~*'()%,[]".toList.contains c

def isTagChar (c : Char) : Bool := isUriChar c && c != ',' && c != '[' && c != ']'

/-- A handle between exclamation marks, or a single mark. -/
def tagHandle? (cursor : Cursor) : Option (Chars × Cursor) :=
  if cursor.peekIs '!' then
    let (name, after) := cursor.skip.takeWhile isNameChar
    if after.peekIs '!' then some ('!' :: name ++ ['!'], after.skip) else some (['!'], cursor.skip)
  else none

/-- How many bytes a character has, by its first byte. -/
def sequenceWidth? (octet : Nat) : Option Nat :=
  if octet < 0x80 then some 1
  else if octet < 0xC0 then none
  else if octet < 0xE0 then some 2
  else if octet < 0xF0 then some 3
  else if octet < 0xF8 then some 4
  else none

/-- The bytes of a tag.  Two hexadecimal digits behind a percent sign stand for a byte.  Such
bytes make up characters whose length is right, whatever their code points may be; so many bytes
of one of these are still to come. -/
def octets? : Nat → Chars → Option Octets
  | pending, '%' :: a :: b :: rest => do
    let octet := (← Json.hexValue? a) * 16 + (← Json.hexValue? b)
    let pending ←
      if 0 < pending then if octet / 0x40 = 2 then some (pending - 1) else none
      else (sequenceWidth? octet).map (· - 1)
    return octet :: (← octets? pending rest)
  | 0, c :: rest => if c = '%' then none else do return c.toNat :: (← octets? 0 rest)
  | 0, [] => some []
  | _ + 1, _ => none

/-- The bytes of a tag, which ends at the first byte of zero. -/
def tagOctets? (cs : Chars) : Option Octets :=
  (octets? 0 cs).map fun octets ↦ octets.takeWhile (· ≠ 0)

def tagDirective? (cursor : Cursor) : Option (Directive × Cursor) := do
  let (handle, cursor) ← tagHandle? cursor.skipBlanks
  if !cursor.isAtBlank then none
  let (uri, cursor) := cursor.skipBlanks.takeWhile isUriChar
  if uri.isEmpty || !cursor.isAtGap then none
  return (.tag (String.ofList handle) (← tagOctets? uri), cursor)

def directive? (cursor : Cursor) : Option (Directive × Cursor) := do
  let (name, cursor) := cursor.skip.takeWhile isNameChar
  if !cursor.isAtGap then none
  let (directive, cursor) ←
    if name = "YAML".toList then versionDirective? cursor
    else if name = "TAG".toList then tagDirective? cursor
    else none
  let cursor := cursor.skipBlanks.skipComment
  if !(cursor.isAtEnd || cursor.isAtBreak) then none
  return (directive, cursor.takeBreak.2)

def readDirective? (scanner : Scanner) : Option Scanner := do
  let scanner ← scanner.leaveBlocks?
  let (directive, cursor) ← directive? scanner.cursor
  return { scanner with cursor := cursor }.emit (.directive directive)

def readDocumentMark? (scanner : Scanner) (token : Token) : Option Scanner := do
  let scanner ← scanner.leaveBlocks?
  return scanner.skip.skip.skip.emit token

def openFlow? (scanner : Scanner) (token : Token) : Option Scanner := do
  let scanner ← scanner.saveKey?
  return ({ scanner with keys := none :: scanner.keys, keyAllowed := true }).skip.emit token

def closeFlow? (scanner : Scanner) (token : Token) : Option Scanner := do
  let scanner ← scanner.dropKey?
  let keys := if scanner.inFlow then scanner.keys.tail else scanner.keys
  return ({ scanner with keys := keys, keyAllowed := false }).skip.emit token

def readFlowEntry? (scanner : Scanner) : Option Scanner := do
  let scanner ← scanner.dropKey?
  return (scanner.allowKey true).skip.emit .flowEntry

/-- A block may start here unless something other than a block is under way. -/
def startBlock? (scanner : Scanner) (token : Token) : Option Scanner :=
  if scanner.inFlow then some scanner
  else if scanner.keyAllowed then some (scanner.openBlockHere token)
  else none

def readBlockEntry? (scanner : Scanner) : Option Scanner := do
  let scanner ← scanner.startBlock? .blockSequenceStart
  let scanner ← scanner.dropKey?
  return (scanner.allowKey true).skip.emit .blockEntry

def readKey? (scanner : Scanner) : Option Scanner := do
  let scanner ← scanner.startBlock? .blockMappingStart
  let scanner ← scanner.dropKey?
  return (scanner.allowKey !scanner.inFlow).skip.emit .key

/-- A colon makes the possible key in front of it one; without it, it belongs to a key that has
been announced or is missing. -/
def readValue? (scanner : Scanner) : Option Scanner :=
  match scanner.currentKey with
  | some key =>
    let scanner := scanner.insertAfter key.tokensBefore .key
    let scanner := scanner.openBlock key.place.column key.tokensBefore .blockMappingStart
    some (((scanner.setKey none).allowKey false).skip.emit .value)
  | none => do
    let scanner ← scanner.startBlock? .blockMappingStart
    return (scanner.allowKey !scanner.inFlow).skip.emit .value

/-- The name of an anchor, which a gap or a mark must follow. -/
def anchorName? (cursor : Cursor) : Option (String × Cursor) :=
  let (name, cursor) := cursor.takeWhile isNameChar
  if name.isEmpty then none
  else if cursor.isAtGap || cursor.peek?.any ("?:,]\x7d%@\x60".toList.contains ·) then
    some (String.ofList name, cursor)
  else none

def readAnchor? (scanner : Scanner) (token : String → Token) : Option Scanner := do
  let scanner ← scanner.saveKey?
  let (name, cursor) ← anchorName? scanner.cursor.skip
  return { scanner.allowKey false with cursor := cursor }.emit (token name)

def tag? (inFlow : Bool) (cursor : Cursor) : Option (Token × Cursor) := do
  let (token, cursor) ←
    if cursor.skip.peekIs '<' then do
      let (uri, after) := cursor.skip.skip.takeWhile isUriChar
      if uri.isEmpty || !after.peekIs '>' then none
      pure (Token.tag none (← tagOctets? uri), after.skip)
    else do
      let (handle, after) ← tagHandle? cursor
      let (uri, after) := after.takeWhile isTagChar
      if handle.length ≠ 1 && uri.isEmpty then none
      let suffix ← tagOctets? uri
      if handle.length = 1 && suffix.isEmpty then pure (Token.tag none bareTag, after)
      else pure (Token.tag (some (String.ofList handle)) suffix, after)
  if cursor.isAtGap || (inFlow && cursor.peekIs ',') then return (token, cursor) else none

def readTag? (scanner : Scanner) : Option Scanner := do
  let scanner ← scanner.saveKey?
  let (token, cursor) ← tag? scanner.inFlow scanner.cursor
  return { scanner.allowKey false with cursor := cursor }.emit token

def readBlockScalar? (scanner : Scanner) (isLiteral : Bool) : Option Scanner := do
  let scanner ← scanner.dropKey?
  let (text, cursor) ← block? isLiteral scanner.indent scanner.cursor.skip
  let token := if isLiteral then Token.literal else Token.quoted
  return { scanner.allowKey true with cursor := cursor }.emit (token (String.ofList text))

def readQuoted? (scanner : Scanner) (quote : Char) : Option Scanner := do
  let scanner ← scanner.saveKey?
  let (text, cursor) ← quoted? quote scanner.cursor
  return { scanner.allowKey false with cursor := cursor }.emit (.quoted (String.ofList text))

def readPlain? (scanner : Scanner) : Option Scanner := do
  let scanner ← scanner.saveKey?
  let (scalar, cursor) ← plain? scanner.inFlow (scanner.indent + 1) scanner.cursor
  return { scanner.allowKey scalar.endsLine with cursor := cursor }.emit
    (.plain (String.ofList scalar.text))

/-- Characters that no plain scalar starts with, some of them unless more text follows. -/
def startsPlain (scanner : Scanner) (c : Char) : Bool :=
  !"\t-?:,[]\x7b\x7d#&*!|>'\"%@\x60".toList.contains c ||
    (!scanner.cursor.skip.isAtGap && (c = '-' || (!scanner.inFlow && (c = '?' || c = ':'))))

/-! ## The next token -/

/-- Reads the token at a character that is neither blank nor a line end. -/
def readToken? (scanner : Scanner) (c : Char) : Option Scanner :=
  let atGap := scanner.cursor.skip.isAtGap
  if scanner.cursor.column = 0 && c = '%' then scanner.readDirective?
  else if scanner.cursor.isAtMark '-' then scanner.readDocumentMark? .documentStart
  else if scanner.cursor.isAtMark '.' then scanner.readDocumentMark? .documentEnd
  else if c = '[' then scanner.openFlow? .flowSequenceStart
  else if c = '{' then scanner.openFlow? .flowMappingStart
  else if c = ']' then scanner.closeFlow? .flowSequenceEnd
  else if c = '}' then scanner.closeFlow? .flowMappingEnd
  else if c = ',' then scanner.readFlowEntry?
  else if c = '-' && atGap then scanner.readBlockEntry?
  else if c = '?' && (scanner.inFlow || atGap) then scanner.readKey?
  else if c = ':' && (scanner.inFlow || atGap) then scanner.readValue?
  else if c = '*' then scanner.readAnchor? .alias
  else if c = '&' then scanner.readAnchor? .anchor
  else if c = '!' then scanner.readTag?
  else if c = '|' && !scanner.inFlow then scanner.readBlockScalar? true
  else if c = '>' && !scanner.inFlow then scanner.readBlockScalar? false
  else if c = '\'' || c = '"' then scanner.readQuoted? c
  else if scanner.startsPlain c then scanner.readPlain?
  else none

/-- Reads tokens up to the end of the text; each of them uses up a character. -/
def runWithin : Nat → Scanner → Option (List Token)
  | 0, _ => none
  | rounds + 1, scanner => do
    let scanner ← scanner.skipGap.dropStaleKeys?
    let scanner := scanner.closeBlocks scanner.cursor.column
    match scanner.cursor.peek? with
    | none =>
      let scanner ← scanner.leaveBlocks?
      return scanner.tokens.reverse
    | some c => runWithin rounds (← scanner.readToken? c)

end Scanner

/-- The tokens of a text without characters that YAML does not allow. -/
def tokens? (text : Chars) : Option (List Token) :=
  if text.all isAllowed then Scanner.runWithin (text.length + 1) (.start text) else none

end Wiring.Yaml
