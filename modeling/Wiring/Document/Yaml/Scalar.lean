import Wiring.Document.Toml.Text

/-!
# Scalars of YAML

A cursor is what is left of the text with the place where it starts.  Line ends are those of YAML
1.1; all but the two separators of Unicode read as a line feed.

Plain and quoted scalars fold the lines they span: a single line end reads as a blank, and of
several the first is dropped.  Block scalars keep their lines or fold them, and their header says
what becomes of the line ends at their end.
-/

namespace Wiring.Yaml

abbrev Chars := List Char

structure Cursor where
  rest : Chars
  index : Nat
  line : Nat
  column : Nat

def byteCount (cs : Chars) : Nat := cs.foldr (fun c size ↦ c.utf8Size + size) 0

def isBlank (c : Char) : Bool := c = ' ' || c = '\t'

def isBreak (c : Char) : Bool :=
  c = '\n' || c = '\r' || c = '\x85' || c = '\u2028' || c = '\u2029'

/-- Characters that a text may hold. -/
def isAllowed (c : Char) : Bool :=
  c = '\t' || c = '\n' || c = '\r' || c = '\x85' || (0x20 ≤ c.toNat && c.toNat ≤ 0x7E) ||
    (0xA0 ≤ c.toNat && c.toNat ≤ 0xFFFD) || 0x10000 ≤ c.toNat

namespace Cursor

def start (text : Chars) : Cursor := ⟨text, 0, 0, 0⟩

def peek? (cursor : Cursor) : Option Char := cursor.rest.head?

def peekIs (cursor : Cursor) (c : Char) : Bool := cursor.peek? = some c

def second? (cursor : Cursor) : Option Char := cursor.rest.tail.head?

def isAtEnd (cursor : Cursor) : Bool := cursor.rest.isEmpty

def skip (cursor : Cursor) : Cursor :=
  ⟨cursor.rest.tail, cursor.index + byteCount (cursor.rest.take 1), cursor.line,
    cursor.column + 1⟩

def isAtBlank (cursor : Cursor) : Bool := cursor.peek?.any isBlank

def isAtBreak (cursor : Cursor) : Bool := cursor.peek?.any isBreak

/-- At a blank, a line end or the end of the text. -/
def isAtGap (cursor : Cursor) : Bool :=
  cursor.peek?.all fun c ↦ isBlank c || isBreak c

/-- Past one line end, with the text that it reads as. -/
def takeBreak (cursor : Cursor) : Chars × Cursor :=
  match cursor.rest with
  | '\r' :: '\n' :: rest => (['\n'], ⟨rest, cursor.index + 2, cursor.line + 1, 0⟩)
  | c :: rest =>
    if isBreak c then
      (if c = '\u2028' ∨ c = '\u2029' then [c] else ['\n'],
        ⟨rest, cursor.index + c.utf8Size, cursor.line + 1, 0⟩)
    else ([], cursor)
  | [] => ([], cursor)

def takeWhile (cursor : Cursor) (condition : Char → Bool) : Chars × Cursor :=
  let taken := cursor.rest.takeWhile condition
  (taken, ⟨cursor.rest.drop taken.length, cursor.index + byteCount taken, cursor.line,
    cursor.column + taken.length⟩)

def skipWhile (cursor : Cursor) (condition : Char → Bool) : Cursor :=
  (cursor.takeWhile condition).2

def skipBlanks (cursor : Cursor) : Cursor := cursor.skipWhile isBlank

/-- Past a comment, if there is one, up to the end of its line. -/
def skipComment (cursor : Cursor) : Cursor :=
  if cursor.peekIs '#' then cursor.skipWhile (!isBreak ·) else cursor

/-- Whether a line starts with a mark of three characters that stands alone. -/
def isAtMark (cursor : Cursor) (mark : Char) : Bool :=
  cursor.column = 0 &&
    match cursor.rest with
    | a :: b :: c :: rest =>
      a = mark && b = mark && c = mark && rest.head?.all fun d ↦ isBlank d || isBreak d
    | _ => false

/-- At a line that starts or ends a document. -/
def isAtDocumentMark (cursor : Cursor) : Bool := cursor.isAtMark '-' || cursor.isAtMark '.'

end Cursor

/-- Blanks and line ends between two words of a scalar. -/
structure Gap where
  blanks : Chars
  /-- Whether the gap has a line end, escaped or not. -/
  folded : Bool
  first : Chars
  others : Chars

namespace Gap

def empty : Gap := ⟨[], false, [], []⟩

/-- What a gap after an escaped line end starts with. -/
def escaped : Gap := ⟨[], true, [], []⟩

def text (gap : Gap) : Chars :=
  if gap.folded then
    if gap.first = ['\n'] then
      if gap.others.isEmpty then [' '] else gap.others
    else gap.first ++ gap.others
  else gap.blanks

/-- Adds blanks and line ends as far as they go, so many at most.  Where a least column is given, a
tab in front of it on a new line is refused. -/
def extendWithin (leastColumn : Option Int) : Nat → Gap → Cursor → Option (Gap × Cursor)
  | 0, gap, cursor => some (gap, cursor)
  | rounds + 1, gap, cursor =>
    if cursor.isAtBlank then
      if gap.folded && cursor.peekIs '\t' && leastColumn.any ((cursor.column : Int) < ·) then none
      else if gap.folded then extendWithin leastColumn rounds gap cursor.skip
      else
        extendWithin leastColumn rounds
          { gap with blanks := gap.blanks ++ cursor.peek?.toList } cursor.skip
    else if cursor.isAtBreak then
      let (lineEnd, cursor) := cursor.takeBreak
      if gap.folded then
        extendWithin leastColumn rounds { gap with others := gap.others ++ lineEnd } cursor
      else extendWithin leastColumn rounds ⟨[], true, lineEnd, []⟩ cursor
    else some (gap, cursor)

end Gap

def isFlowMark (c : Char) : Bool := c = ',' || c = '[' || c = ']' || c = '{' || c = '}'

/-- The characters of one word of a plain scalar.  A colon before a gap ends it, and inside a flow
collection so do the marks of that collection, which may not follow a colon. -/
def plainWordWithin (inFlow : Bool) : Nat → Cursor → Option (Chars × Cursor)
  | 0, cursor => some ([], cursor)
  | rounds + 1, cursor =>
    match cursor.peek? with
    | none => some ([], cursor)
    | some c =>
      if isBlank c || isBreak c then some ([], cursor)
      else if c = ':' && cursor.skip.isAtGap then some ([], cursor)
      else if inFlow && isFlowMark c then some ([], cursor)
      else if inFlow && c = ':' && cursor.second?.any (fun d ↦ isFlowMark d || d = '?') then none
      else do
        let (word, cursor) ← plainWordWithin inFlow rounds cursor.skip
        return (c :: word, cursor)

structure PlainScalar where
  text : Chars
  endsLine : Bool

/-- Words with the gaps between them, the first of them in front of the first word.  Outside flow
collections a new line must start at the least column or behind it. -/
def plainWithin (inFlow : Bool) (leastColumn : Int) :
    Nat → Gap → Cursor → Option (PlainScalar × Cursor)
  | 0, gap, cursor => some (⟨[], gap.folded⟩, cursor)
  | rounds + 1, gap, cursor =>
    if cursor.isAtDocumentMark || cursor.peekIs '#' then some (⟨[], gap.folded⟩, cursor)
    else do
      let (word, cursor) ← plainWordWithin inFlow (rounds + 1) cursor
      let start := if word.isEmpty then [] else gap.text ++ word
      let pending := if word.isEmpty then gap else .empty
      if !(cursor.isAtBlank || cursor.isAtBreak) then return (⟨start, pending.folded⟩, cursor)
      let (pending, cursor) ← pending.extendWithin (some leastColumn) (rounds + 1) cursor
      if !inFlow && (cursor.column : Int) < leastColumn then
        return (⟨start, pending.folded⟩, cursor)
      let (scalar, cursor) ← plainWithin inFlow leastColumn rounds pending cursor
      return ({ scalar with text := start ++ scalar.text }, cursor)

def plain? (inFlow : Bool) (leastColumn : Int) (cursor : Cursor) :
    Option (PlainScalar × Cursor) :=
  plainWithin inFlow leastColumn (cursor.rest.length + 1) .empty cursor

def simpleEscape? : Char → Option Char
  | '0' => some '\x00'
  | 'a' => some '\x07'
  | 'b' => some '\x08'
  | 't' => some '\t'
  | '\t' => some '\t'
  | 'n' => some '\n'
  | 'v' => some '\x0b'
  | 'f' => some '\x0c'
  | 'r' => some '\r'
  | 'e' => some '\x1b'
  | ' ' => some ' '
  | '"' => some '"'
  | '/' => some '/'
  | '\\' => some '\\'
  | 'N' => some '\x85'
  | '_' => some '\xa0'
  | 'L' => some '\u2028'
  | 'P' => some '\u2029'
  | _ => none

def codeWidth? : Char → Option Nat
  | 'x' => some 2
  | 'u' => some 4
  | 'U' => some 8
  | _ => none

def escape? (cursor : Cursor) : Option (Char × Cursor) := do
  let kind ← cursor.peek?
  match codeWidth? kind with
  | none => return (← simpleEscape? kind, cursor.skip)
  | some width =>
    let (c, rest) ← Toml.codePoint? width cursor.skip.rest
    return (c, ⟨rest, cursor.index + 1 + width, cursor.line, cursor.column + 1 + width⟩)

/-- The text of a quoted scalar after its opening quote. -/
def quotedWithin (quote : Char) : Nat → Cursor → Option (Chars × Cursor)
  | 0, _ => none
  | rounds + 1, cursor =>
    if cursor.isAtDocumentMark then none
    else
      match cursor.peek? with
      | none => none
      | some c =>
        if c = quote then
          if quote = '\'' && cursor.skip.peekIs '\'' then do
            let (text, cursor) ← quotedWithin quote rounds cursor.skip.skip
            return ('\'' :: text, cursor)
          else some ([], cursor.skip)
        else if quote = '"' && c = '\\' then
          if cursor.skip.isAtBreak then do
            let (gap, cursor) ← Gap.escaped.extendWithin none rounds cursor.skip.takeBreak.2
            let (text, cursor) ← quotedWithin quote rounds cursor
            return (gap.text ++ text, cursor)
          else do
            let (e, cursor) ← escape? cursor.skip
            let (text, cursor) ← quotedWithin quote rounds cursor
            return (e :: text, cursor)
        else if isBlank c || isBreak c then do
          let (gap, cursor) ← Gap.empty.extendWithin none (rounds + 1) cursor
          let (text, cursor) ← quotedWithin quote rounds cursor
          return (gap.text ++ text, cursor)
        else do
          let (text, cursor) ← quotedWithin quote rounds cursor.skip
          return (c :: text, cursor)

def quoted? (quote : Char) (cursor : Cursor) : Option (Chars × Cursor) :=
  quotedWithin quote (cursor.rest.length + 1) cursor.skip

/-- What becomes of the line ends at the end of a block scalar. -/
inductive Chomping where
  | strip
  | clip
  | keep
  deriving DecidableEq

structure BlockHeader where
  chomping : Chomping
  /-- How far the scalar is indented, when the header says so. -/
  increment : Option Nat

def chomping? (cursor : Cursor) : Option (Chomping × Cursor) :=
  if cursor.peekIs '+' then some (.keep, cursor.skip)
  else if cursor.peekIs '-' then some (.strip, cursor.skip)
  else none

/-- An indentation of one digit that is not zero; none at all when there is no digit. -/
def increment? (cursor : Cursor) : Option (Option Nat × Cursor) :=
  match cursor.peek? with
  | some c =>
    if c.isDigit then
      if c = '0' then none else some (some (c.toNat - '0'.toNat), cursor.skip)
    else some (none, cursor)
  | none => some (none, cursor)

def blockHeader? (cursor : Cursor) : Option (BlockHeader × Cursor) := do
  match chomping? cursor with
  | some (chomping, cursor) =>
    let (increment, cursor) ← increment? cursor
    return (⟨chomping, increment⟩, cursor)
  | none =>
    let (increment, cursor) ← increment? cursor
    match increment, chomping? cursor with
    | some _, some (chomping, cursor) => return (⟨chomping, increment⟩, cursor)
    | _, _ => return (⟨.clip, increment⟩, cursor)

/-- Line ends in front of a line of a block scalar, with the deepest column met.  Where the
indentation is not known yet, all spaces belong to it. -/
def blockBreaksWithin (indent : Option Nat) :
    Nat → Chars → Nat → Cursor → Option (Chars × Nat × Cursor)
  | 0, breaks, deepest, cursor => some (breaks, deepest, cursor)
  | rounds + 1, breaks, deepest, cursor =>
    let spaces := match indent with
      | some column => (cursor.rest.take (column - cursor.column)).takeWhile (· = ' ')
      | none => cursor.rest.takeWhile (· = ' ')
    let cursor : Cursor := ⟨cursor.rest.drop spaces.length, cursor.index + spaces.length,
      cursor.line, cursor.column + spaces.length⟩
    let deepest := max deepest cursor.column
    if indent.all (cursor.column < ·) && cursor.peekIs '\t' then none
    else if cursor.isAtBreak then
      let (lineEnd, cursor) := cursor.takeBreak
      blockBreaksWithin indent rounds (breaks ++ lineEnd) deepest cursor
    else some (breaks, deepest, cursor)

/-- A block scalar as far as it has been read. -/
structure BlockProgress where
  text : Chars
  lineEnd : Chars
  breaks : Chars
  startsBlank : Bool

/-- The text in front of a line: where lines are folded and neither of them starts with a blank,
one line end between them reads as a blank. -/
def BlockProgress.join (progress : BlockProgress) (isLiteral startsBlank : Bool) : Chars :=
  if !isLiteral && progress.lineEnd = ['\n'] && !progress.startsBlank && !startsBlank then
    if progress.breaks.isEmpty then progress.text ++ [' '] else progress.text ++ progress.breaks
  else progress.text ++ progress.lineEnd ++ progress.breaks

/-- The lines of a block scalar that start at its column. -/
def blockLinesWithin (isLiteral : Bool) (indent : Nat) :
    Nat → BlockProgress → Cursor → Option (BlockProgress × Cursor)
  | 0, progress, cursor => some (progress, cursor)
  | rounds + 1, progress, cursor =>
    if cursor.column = indent && !cursor.isAtEnd then do
      let startsBlank := cursor.isAtBlank
      let before := progress.join isLiteral startsBlank
      let (line, cursor) := cursor.takeWhile (!isBreak ·)
      let (lineEnd, cursor) := cursor.takeBreak
      let (breaks, _, cursor) ← blockBreaksWithin (some indent) (rounds + 1) [] 0 cursor
      blockLinesWithin isLiteral indent rounds ⟨before ++ line, lineEnd, breaks, startsBlank⟩ cursor
    else some (progress, cursor)

def BlockProgress.finish (progress : BlockProgress) : Chomping → Chars
  | .strip => progress.text
  | .clip => progress.text ++ progress.lineEnd
  | .keep => progress.text ++ progress.lineEnd ++ progress.breaks

/-- A block scalar from behind its mark, inside a block of the given column. -/
def block? (isLiteral : Bool) (parent : Int) (cursor : Cursor) : Option (Chars × Cursor) := do
  let (header, cursor) ← blockHeader? cursor
  let cursor := cursor.skipBlanks.skipComment
  if !(cursor.isAtEnd || cursor.isAtBreak) then none
  let (_, cursor) := cursor.takeBreak
  let declared := header.increment.map fun increment ↦ (max parent 0).toNat + increment
  let (breaks, deepest, cursor) ← blockBreaksWithin declared (cursor.rest.length + 1) [] 0 cursor
  let indent := declared.getD (max (max deepest (parent + 1).toNat) 1)
  let (progress, cursor) ←
    blockLinesWithin isLiteral indent (cursor.rest.length + 1) ⟨[], [], breaks, false⟩ cursor
  return (progress.finish header.chomping, cursor)

end Wiring.Yaml
