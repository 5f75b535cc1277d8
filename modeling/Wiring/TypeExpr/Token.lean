import Wiring.Text.Character

/-!
# Tokens of type expressions

Names, quoted texts, numbers and marks, separated by blanks.  A quoted text has no escapes and
ends at the next quote of its own kind.  Every token carries the byte offset at which it starts.
-/

namespace Wiring

inductive Mark where
  | bar
  | openBracket
  | closeBracket
  | less
  | greater
  | comma
  | semicolon
  | colon
  | question
  | openBrace
  | closeBrace
  | openParen
  | closeParen
  deriving DecidableEq

namespace Mark

def char : Mark → Char
  | bar => '|'
  | openBracket => '['
  | closeBracket => ']'
  | less => '<'
  | greater => '>'
  | comma => ','
  | semicolon => ';'
  | colon => ':'
  | question => '?'
  | openBrace => '{'
  | closeBrace => '}'
  | openParen => '('
  | closeParen => ')'

def ofChar? : Char → Option Mark
  | '|' => some bar
  | '[' => some openBracket
  | ']' => some closeBracket
  | '<' => some less
  | '>' => some greater
  | ',' => some comma
  | ';' => some semicolon
  | ':' => some colon
  | '?' => some question
  | '{' => some openBrace
  | '}' => some closeBrace
  | '(' => some openParen
  | ')' => some closeParen
  | _ => none

@[simp] theorem ofChar?_char (m : Mark) : ofChar? m.char = some m := by
  cases m <;> rfl

end Mark

inductive Token where
  | word (name : String)
  | text (value : String)
  | number (spelling : String)
  | mark (mark : Mark)
  deriving DecidableEq

namespace Token

/-- A token as an error message shows it. -/
def describe : Token → String
  | word name => "`" ++ name ++ "`"
  | text value => "\"" ++ value ++ "\""
  | number spelling => spelling
  | mark m => "`" ++ m.char.toString ++ "`"

end Token

/-- A token and the byte offset of its first character. -/
structure Located where
  offset : Nat
  token : Token
  deriving DecidableEq

def isNumberStart (c : Char) : Bool := c.isDigit || c = '-'

def isNumberPart (c : Char) : Bool := c.isDigit || c = '.'

def isWordStart (c : Char) : Bool := Text.isAlphabetic c || c = '_' || c = '$'

def isWordPart (c : Char) : Bool := Text.isAlphanumeric c || c = '_' || c = '$' || c = '.'

def byteLength (cs : List Char) : Nat :=
  cs.foldr (fun c size ↦ c.utf8Size + size) 0

inductive LexicalProblem where
  | unterminatedText
  | noDigits
  | unexpected (c : Char)
  deriving DecidableEq

/-- One token at the start of a text that begins with no blank, with the number of characters it
takes. -/
def Token.read? (c : Char) (rest : List Char) : Except LexicalProblem (Token × Nat) :=
  match Mark.ofChar? c with
  | some m => .ok (.mark m, 1)
  | none =>
    if c = '"' ∨ c = '\'' then
      let value := rest.takeWhile (· != c)
      if value.length < rest.length then .ok (.text (String.ofList value), value.length + 2)
      else .error .unterminatedText
    else if isNumberStart c then
      let digits := rest.takeWhile isNumberPart
      if c = '-' ∧ digits = [] then .error .noDigits
      else .ok (.number (String.ofList (c :: digits)), digits.length + 1)
    else if isWordStart c then
      let name := c :: rest.takeWhile isWordPart
      .ok (.word (String.ofList name), name.length)
    else .error (.unexpected c)

/-- The tokens of a text that starts at the given offset, or the offset of the first character
that begins none. -/
def tokens (offset : Nat) : List Char → Except (Nat × LexicalProblem) (List Located)
  | [] => .ok []
  | c :: rest =>
    if Text.isBlank c then tokens (offset + c.utf8Size) rest
    else
      match Token.read? c rest with
      | .error problem => .error (offset, problem)
      | .ok (token, length) =>
        let taken := c :: rest.take (length - 1)
        match tokens (offset + byteLength taken) (rest.drop (length - 1)) with
        | .error problem => .error problem
        | .ok later => .ok (⟨offset, token⟩ :: later)
  termination_by cs => cs.length
  decreasing_by all_goals grind

end Wiring
