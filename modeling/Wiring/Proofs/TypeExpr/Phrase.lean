import Mathlib.Data.List.Basic
import Wiring.TypeExpr.Parse

/-!
# Phrases of the type grammar

A phrase is one derivation of the grammar, with everything in it that was written: bars in front
of unions, parentheses, and the marks between the fields of an object type.  It has the tokens that
it derives and the tree that is left of it.
-/

namespace Wiring

/-- What stands behind a field. -/
inductive FieldEnd where
  | nothing
  | semicolon
  | comma
  deriving DecidableEq

mutual

/-- `'|'? suffixed ('|' suffixed)*` -/
inductive UnionPhrase where
  | mk (bar : Bool) (first : SuffixedPhrase) (others : List SuffixedPhrase)

/-- `primary ('[' ']')*` -/
inductive SuffixedPhrase where
  | mk (primary : PrimaryPhrase) (suffixes : Nat)

inductive PrimaryPhrase where
  | word (name : String)
  | container (name : String) (first : UnionPhrase) (others : List UnionPhrase)
  | emptyTuple
  | tuple (first : UnionPhrase) (others : List UnionPhrase)
  | shape (fields : List FieldPhrase)
  | parenthesized (inner : UnionPhrase)
  | text (value : String)
  | number (spelling : String)

/-- `(name | text) '?'? ':' union (';' | ',')?` -/
inductive FieldPhrase where
  | mk (quoted : Bool) (name : String) (optional : Bool) (type : UnionPhrase) (ending : FieldEnd)

end

/-- The mark, where it is written. -/
def written (isWritten : Bool) (mark : Mark) : List Token :=
  if isWritten then [.mark mark] else []

def FieldEnd.tokens : FieldEnd → List Token
  | .nothing => []
  | .semicolon => [.mark .semicolon]
  | .comma => [.mark .comma]

def suffixTokens : Nat → List Token
  | 0 => []
  | suffixes + 1 => .mark .openBracket :: .mark .closeBracket :: suffixTokens suffixes

def fieldNameToken (quoted : Bool) (name : String) : Token :=
  if quoted then .text name else .word name

mutual

@[simp] def UnionPhrase.tokens : UnionPhrase → List Token
  | .mk bar first others => written bar .bar ++ (first.tokens ++ SuffixedPhrase.laterTokens others)

@[simp] def SuffixedPhrase.tokens : SuffixedPhrase → List Token
  | .mk primary suffixes => primary.tokens ++ suffixTokens suffixes

@[simp] def PrimaryPhrase.tokens : PrimaryPhrase → List Token
  | .word name => [.word name]
  | .container name first others =>
    .word name :: .mark .less ::
      (first.tokens ++ (UnionPhrase.laterTokens others ++ [.mark .greater]))
  | .emptyTuple => [.mark .openBracket, .mark .closeBracket]
  | .tuple first others =>
    .mark .openBracket ::
      (first.tokens ++ (UnionPhrase.laterTokens others ++ [.mark .closeBracket]))
  | .shape fields => .mark .openBrace :: (FieldPhrase.allTokens fields ++ [.mark .closeBrace])
  | .parenthesized inner => .mark .openParen :: (inner.tokens ++ [.mark .closeParen])
  | .text value => [.text value]
  | .number spelling => [.number spelling]

@[simp] def FieldPhrase.tokens : FieldPhrase → List Token
  | .mk quoted name optional type ending =>
    fieldNameToken quoted name ::
      (written optional .question ++ .mark .colon :: (type.tokens ++ ending.tokens))

/-- Further members of a union, each behind a bar. -/
def SuffixedPhrase.laterTokens : List SuffixedPhrase → List Token
  | [] => []
  | phrase :: phrases => .mark .bar :: (phrase.tokens ++ SuffixedPhrase.laterTokens phrases)

/-- Further items of a list, each behind a comma. -/
def UnionPhrase.laterTokens : List UnionPhrase → List Token
  | [] => []
  | phrase :: phrases => .mark .comma :: (phrase.tokens ++ UnionPhrase.laterTokens phrases)

def FieldPhrase.allTokens : List FieldPhrase → List Token
  | [] => []
  | field :: fields => field.tokens ++ FieldPhrase.allTokens fields

end

/-! ## Trees -/

def suffixTree : Nat → TypeExpr → TypeExpr
  | 0, element => element
  | suffixes + 1, element => suffixTree suffixes (.array element)

mutual

/-- A union of one member leaves no trace. -/
def UnionPhrase.tree : UnionPhrase → TypeExpr
  | .mk _ first [] => first.tree
  | .mk _ first (second :: others) =>
    .union (first.tree :: second.tree :: SuffixedPhrase.trees others)

@[simp] def SuffixedPhrase.tree : SuffixedPhrase → TypeExpr
  | .mk primary suffixes => suffixTree suffixes primary.tree

@[simp] def PrimaryPhrase.tree : PrimaryPhrase → TypeExpr
  | .word name => .named name []
  | .container name first others => .named name (first.tree :: UnionPhrase.trees others)
  | .emptyTuple => .tuple []
  | .tuple first others => .tuple (first.tree :: UnionPhrase.trees others)
  | .shape fields => .shape (FieldPhrase.trees fields)
  | .parenthesized inner => inner.tree
  | .text value => .text value
  | .number spelling => .number spelling

@[simp] def FieldPhrase.tree : FieldPhrase → FieldExpr
  | .mk _ name optional type _ => ⟨name, optional, type.tree⟩

def SuffixedPhrase.trees : List SuffixedPhrase → List TypeExpr
  | [] => []
  | phrase :: phrases => phrase.tree :: SuffixedPhrase.trees phrases

def UnionPhrase.trees : List UnionPhrase → List TypeExpr
  | [] => []
  | phrase :: phrases => phrase.tree :: UnionPhrase.trees phrases

def FieldPhrase.trees : List FieldPhrase → List FieldExpr
  | [] => []
  | field :: fields => field.tree :: FieldPhrase.trees fields

end

mutual

/-- For the points of a phrase inside so many unions: the number of unions around the point and of
suffixes that stand before it in the innermost of them. -/
@[simp] def UnionPhrase.depths (around : Nat) : UnionPhrase → List Nat
  | .mk _ first others => first.depths (around + 1) ++ SuffixedPhrase.allDepths (around + 1) others

@[simp] def SuffixedPhrase.depths (around : Nat) : SuffixedPhrase → List Nat
  | .mk primary suffixes =>
    primary.depths around ++ (List.range (suffixes + 1)).map (around + ·)

@[simp] def PrimaryPhrase.depths (around : Nat) : PrimaryPhrase → List Nat
  | .word _ => []
  | .container _ first others => first.depths around ++ UnionPhrase.allDepths around others
  | .emptyTuple => []
  | .tuple first others => first.depths around ++ UnionPhrase.allDepths around others
  | .shape fields => FieldPhrase.allDepths around fields
  | .parenthesized inner => inner.depths around
  | .text _ => []
  | .number _ => []

@[simp] def FieldPhrase.depths (around : Nat) : FieldPhrase → List Nat
  | .mk _ _ _ type _ => type.depths around

def SuffixedPhrase.allDepths (around : Nat) : List SuffixedPhrase → List Nat
  | [] => []
  | phrase :: phrases => phrase.depths around ++ SuffixedPhrase.allDepths around phrases

def UnionPhrase.allDepths (around : Nat) : List UnionPhrase → List Nat
  | [] => []
  | phrase :: phrases => phrase.depths around ++ UnionPhrase.allDepths around phrases

def FieldPhrase.allDepths (around : Nat) : List FieldPhrase → List Nat
  | [] => []
  | field :: fields => field.depths around ++ FieldPhrase.allDepths around fields

end

/-- The tokens of further items, each behind the separator. -/
def laterTokens {α : Type} (separator : Mark) (tokens : α → List Token) (items : List α) :
    List Token :=
  items.flatMap fun item ↦ .mark separator :: tokens item

theorem SuffixedPhrase.laterTokens_eq (phrases : List SuffixedPhrase) :
    SuffixedPhrase.laterTokens phrases = Wiring.laterTokens .bar tokens phrases := by
  induction phrases with
  | nil => rfl
  | cons phrase phrases ih => simp [SuffixedPhrase.laterTokens, ih, Wiring.laterTokens]

theorem UnionPhrase.laterTokens_eq (phrases : List UnionPhrase) :
    UnionPhrase.laterTokens phrases = Wiring.laterTokens .comma tokens phrases := by
  induction phrases with
  | nil => rfl
  | cons phrase phrases ih => simp [UnionPhrase.laterTokens, ih, Wiring.laterTokens]

theorem FieldPhrase.allTokens_eq (fields : List FieldPhrase) :
    FieldPhrase.allTokens fields = fields.flatMap tokens := by
  induction fields with
  | nil => rfl
  | cons field fields ih => simp [FieldPhrase.allTokens, ih]

theorem SuffixedPhrase.trees_eq (phrases : List SuffixedPhrase) :
    SuffixedPhrase.trees phrases = phrases.map tree := by
  induction phrases with
  | nil => rfl
  | cons phrase phrases ih => simp [SuffixedPhrase.trees, ih]

theorem UnionPhrase.trees_eq (phrases : List UnionPhrase) :
    UnionPhrase.trees phrases = phrases.map tree := by
  induction phrases with
  | nil => rfl
  | cons phrase phrases ih => simp [UnionPhrase.trees, ih]

theorem FieldPhrase.trees_eq (fields : List FieldPhrase) :
    FieldPhrase.trees fields = fields.map tree := by
  induction fields with
  | nil => rfl
  | cons field fields ih => simp [FieldPhrase.trees, ih]

theorem SuffixedPhrase.mem_allDepths {around n : Nat} {phrases : List SuffixedPhrase} :
    n ∈ SuffixedPhrase.allDepths around phrases ↔ ∃ phrase ∈ phrases, n ∈ phrase.depths around := by
  induction phrases with
  | nil => simp [SuffixedPhrase.allDepths]
  | cons phrase phrases ih => simp [SuffixedPhrase.allDepths, ih]

theorem UnionPhrase.mem_allDepths {around n : Nat} {phrases : List UnionPhrase} :
    n ∈ UnionPhrase.allDepths around phrases ↔ ∃ phrase ∈ phrases, n ∈ phrase.depths around := by
  induction phrases with
  | nil => simp [UnionPhrase.allDepths]
  | cons phrase phrases ih => simp [UnionPhrase.allDepths, ih]

theorem FieldPhrase.mem_allDepths {around n : Nat} {fields : List FieldPhrase} :
    n ∈ FieldPhrase.allDepths around fields ↔ ∃ field ∈ fields, n ∈ field.depths around := by
  induction fields with
  | nil => simp [FieldPhrase.allDepths]
  | cons field fields ih => simp [FieldPhrase.allDepths, ih]

/-- What holds of every phrase by its parts holds of every union. -/
theorem UnionPhrase.induct {union : UnionPhrase → Prop} {suffixed : SuffixedPhrase → Prop}
    {primary : PrimaryPhrase → Prop} {field : FieldPhrase → Prop}
    (hunion : ∀ bar first others, suffixed first → (∀ other ∈ others, suffixed other) →
      union (.mk bar first others))
    (hsuffixed : ∀ inner suffixes, primary inner → suffixed (.mk inner suffixes))
    (hword : ∀ name, primary (.word name))
    (hcontainer : ∀ name first others, union first → (∀ other ∈ others, union other) →
      primary (.container name first others))
    (hemptyTuple : primary .emptyTuple)
    (htuple : ∀ first others, union first → (∀ other ∈ others, union other) →
      primary (.tuple first others))
    (hshape : ∀ fields, (∀ one ∈ fields, field one) → primary (.shape fields))
    (hparenthesized : ∀ inner, union inner → primary (.parenthesized inner))
    (htext : ∀ value, primary (.text value))
    (hnumber : ∀ spelling, primary (.number spelling))
    (hfield : ∀ quoted name optional type ending, union type →
      field (.mk quoted name optional type ending)) (phrase : UnionPhrase) : union phrase :=
  @UnionPhrase.rec union suffixed primary field (fun others ↦ ∀ other ∈ others, suffixed other)
    (fun others ↦ ∀ other ∈ others, union other) (fun fields ↦ ∀ one ∈ fields, field one)
    hunion hsuffixed hword hcontainer hemptyTuple htuple hshape hparenthesized htext hnumber
    hfield (List.forall_mem_nil _) (fun _ _ hhead htail ↦ List.forall_mem_cons.mpr ⟨hhead, htail⟩)
    (List.forall_mem_nil _) (fun _ _ hhead htail ↦ List.forall_mem_cons.mpr ⟨hhead, htail⟩)
    (List.forall_mem_nil _) (fun _ _ hhead htail ↦ List.forall_mem_cons.mpr ⟨hhead, htail⟩) phrase

/-- The tokens that a type may start with, bars apart. -/
def Token.opensType : Token → Bool
  | .mark .openBracket | .mark .openBrace | .mark .openParen => true
  | .mark _ => false
  | _ => true

theorem PrimaryPhrase.tokens_eq_cons (phrase : PrimaryPhrase) :
    ∃ token rest, phrase.tokens = token :: rest ∧ token.opensType = true := by
  cases phrase <;> exact ⟨_, _, rfl, rfl⟩

theorem SuffixedPhrase.tokens_eq_cons (phrase : SuffixedPhrase) :
    ∃ token rest, phrase.tokens = token :: rest ∧ token.opensType = true := by
  obtain ⟨primary, suffixes⟩ := phrase
  obtain ⟨token, rest, htokens, hopens⟩ := primary.tokens_eq_cons
  refine ⟨token, rest ++ suffixTokens suffixes, ?_, hopens⟩
  rw [SuffixedPhrase.tokens, htokens, List.cons_append]

theorem UnionPhrase.tokens_eq_cons (phrase : UnionPhrase) :
    ∃ token rest, phrase.tokens = token :: rest ∧
      (token = .mark .bar ∨ token.opensType = true) := by
  obtain ⟨bar, first, others⟩ := phrase
  obtain ⟨token, rest, htokens, hopens⟩ := first.tokens_eq_cons
  cases bar with
  | true => exact ⟨_, _, rfl, Or.inl rfl⟩
  | false =>
      refine ⟨token, rest ++ SuffixedPhrase.laterTokens others, ?_, Or.inr hopens⟩
      rw [UnionPhrase.tokens, htokens]
      rfl

end Wiring
