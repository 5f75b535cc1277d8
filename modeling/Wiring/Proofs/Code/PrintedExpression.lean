import Mathlib.Data.List.Basic
import Wiring.Code.Basic
import Wiring.Text.Character

/-!
# Printed expressions

An expression that is printed is told apart from every other one by its text and one more character.
What is applied to it stands behind it, so it is read from its innermost object or callee outwards,
with all that follows it read as properties and calls.
-/

namespace Wiring.Code

/-- What is printed for an item is printed for no other valid item, however the text goes on. -/
def Told {α : Type} (valid : α → Prop) (print : α → List Char) (ends : List Char → Prop) (a : α) :
    Prop :=
  ∀ b rest other, valid b → ends rest → ends other → print a ++ rest = print b ++ other →
    a = b ∧ rest = other

section

variable {α : Type} {valid : α → Prop} {print : α → List Char} {ends after : List Char → Prop}

/-- Items one after the other are told apart, when none of them can be taken for what follows the
last one. -/
theorem told_flatMap (hnext : ∀ b rest, valid b → ends (print b ++ rest))
    (hlast : ∀ rest, after rest → ends rest)
    (hapart : ∀ b rest, valid b → ¬ after (print b ++ rest)) {items : List α}
    (hitems : ∀ a ∈ items, valid a ∧ Told valid print ends a) :
    Told (fun others : List α ↦ ∀ b ∈ others, valid b) (List.flatMap print) after items := by
  have hends : ∀ (others : List α) (rest : List Char), (∀ b ∈ others, valid b) → after rest →
      ends (others.flatMap print ++ rest) := by
    intro others rest hothers hrest
    cases others with
    | nil => exact hlast rest hrest
    | cons b others =>
        rw [List.flatMap_cons, List.append_assoc]
        exact hnext b _ (hothers b List.mem_cons_self)
  induction items with
  | nil =>
      rintro (_ | ⟨b, others⟩) rest other hothers hrest hother heq
      · exact ⟨rfl, heq⟩
      · rw [List.flatMap_nil, List.nil_append, List.flatMap_cons, List.append_assoc] at heq
        exact absurd (heq ▸ hrest) (hapart b _ (hothers b List.mem_cons_self))
  | cons a items ih =>
      obtain ⟨⟨hvalid, htold⟩, hitems⟩ := List.forall_mem_cons.mp hitems
      rintro (_ | ⟨b, others⟩) rest other hothers hrest hother heq
      · rw [List.flatMap_nil, List.nil_append, List.flatMap_cons, List.append_assoc] at heq
        exact absurd (heq ▸ hother) (hapart a _ hvalid)
      · obtain ⟨hb, hlater⟩ := List.forall_mem_cons.mp hothers
        rw [List.flatMap_cons, List.flatMap_cons, List.append_assoc, List.append_assoc] at heq
        obtain ⟨rfl, hmore⟩ := htold b _ _ hb
          (hends items rest (fun item hitem ↦ (hitems item hitem).1) hrest)
          (hends others other hlater hother) heq
        obtain ⟨rfl, hrest⟩ := ih hitems others rest other hlater hrest hother hmore
        exact ⟨rfl, hrest⟩

end

def isNamePart (c : Char) : Bool :=
  Text.isAlphanumeric c || c = '_' || c = '$'

/-- A word that is none of those which begin an expression of another kind. -/
def isName (name : String) : Bool :=
  name != "" && name.toList.all isNamePart && !(["this", "new", "await"].contains name)

/-- The marks that stand around words. -/
theorem not_isNamePart {c : Char} (h : c ∈ " .,;()[]\x7b\x7d=\"".toList) :
    isNamePart c = false := by
  have hmarks : (" .,;()[]\x7b\x7d=\"".toList.all fun c ↦ !isNamePart c) = true := by
    decide +kernel
  simpa using List.all_eq_true.mp hmarks c h

/-- No word goes on here. -/
def EndsWord (rest : List Char) : Prop :=
  ∀ c ∈ rest.head?, isNamePart c = false

theorem endsWord_of_mark {c : Char} (h : c ∈ " .,;()[]\x7b\x7d=\"".toList) (rest : List Char) :
    EndsWord (c :: rest) := fun _ hd ↦ Option.some.inj hd ▸ not_isNamePart h

/-- Texts of one kind of characters, with another kind behind them. -/
theorem eq_of_append_of_all {p : Char → Bool} {front other rest more : List Char}
    (hfront : ∀ c ∈ front, p c = true) (hother : ∀ c ∈ other, p c = true)
    (hrest : ∀ c ∈ rest.head?, p c = false) (hmore : ∀ c ∈ more.head?, p c = false)
    (h : front ++ rest = other ++ more) : front = other ∧ rest = more := by
  have hnone : ∀ {before after : List Char}, (∀ c ∈ (before ++ after).head?, p c = false) →
      (∀ c ∈ before, p c = true) → before = [] := by
    intro before after hends hbefore
    cases before with
    | nil => rfl
    | cons c before =>
        have hfalse := hends c rfl
        rw [hbefore c List.mem_cons_self] at hfalse
        cases hfalse
  rcases List.append_eq_append_iff.mp h with ⟨middle, rfl, rfl⟩ | ⟨middle, rfl, rfl⟩
  · obtain rfl := hnone hrest fun c hc ↦ hother c (List.mem_append_right front hc)
    simp
  · obtain rfl := hnone hmore fun c hc ↦ hfront c (List.mem_append_right other hc)
    simp

theorem told_word {word : String} (h : ∀ c ∈ word.toList, isNamePart c = true) :
    Told (fun other ↦ ∀ c ∈ other.toList, isNamePart c = true) String.toList EndsWord word := by
  intro other rest more hother hrest hmore heq
  obtain ⟨hsame, hrest⟩ := eq_of_append_of_all h hother hrest hmore heq
  exact ⟨String.toList_inj.mp hsame, hrest⟩

theorem isNamePart_of_isName {name : String} (h : isName name = true) :
    ∀ c ∈ name.toList, isNamePart c = true := by
  simp only [isName, Bool.and_eq_true, List.all_eq_true] at h
  exact h.1.2

namespace Expression

/-- What holds of every expression by its parts holds of all of them. -/
theorem induct {P : Expression → Prop} (this : P .this) (identifier : ∀ name, P (.identifier name))
    (property : ∀ object name, P object → P (.property object name))
    (call : ∀ callee arguments, P callee → (∀ a ∈ arguments, P a) → P (.call callee arguments))
    (construct : ∀ className arguments, (∀ a ∈ arguments, P a) →
      P (.construct className arguments))
    (array : ∀ elements, (∀ a ∈ elements, P a) → P (.array elements))
    (await : ∀ inner, P inner → P (.await inner)) (e : Expression) : P e :=
  @Expression.rec P (fun es ↦ ∀ a ∈ es, P a) this identifier property call construct array await
    (List.forall_mem_nil _) (fun _ _ hhead htail ↦ List.forall_mem_cons.mpr ⟨hhead, htail⟩) e

def isAwait : Expression → Bool
  | .await _ => true
  | _ => false

mutual

/-- All names are names, and what is applied to something is not applied to an await. -/
def readable : Expression → Bool
  | .this => true
  | .identifier name => isName name
  | .property object name => object.readable && !object.isAwait && isName name
  | .call callee arguments => callee.readable && !callee.isAwait && allReadable arguments
  | .construct className arguments => isName className && allReadable arguments
  | .array elements => allReadable elements
  | .await inner => inner.readable

def allReadable : List Expression → Bool
  | [] => true
  | first :: rest => first.readable && allReadable rest

end

theorem allReadable_iff {expressions : List Expression} :
    allReadable expressions = true ↔ ∀ e ∈ expressions, e.readable = true := by
  induction expressions with
  | nil => simp [allReadable]
  | cons first rest ih => simp [allReadable, ih]

def print (e : Expression) : List Char :=
  e.text.toList

def printAll (expressions : List Expression) : List Char :=
  (listText expressions).toList

theorem printAll_cons (first : Expression) (rest : List Expression) :
    printAll (first :: rest) =
      first.print ++ rest.flatMap fun e ↦ ',' :: ' ' :: e.print := by
  induction rest generalizing first with
  | nil => simp [printAll, listText, print]
  | cons second rest ih =>
      rw [List.flatMap_cons, List.cons_append, List.cons_append, ← ih second]
      simp [printAll, listText, print]

/-- Something that is applied to an expression and printed behind it. -/
inductive Suffix where
  | property (name : String)
  | call (arguments : List Expression)

namespace Suffix

def onto (e : Expression) : Suffix → Expression
  | property name => .property e name
  | call arguments => .call e arguments

def print : Suffix → List Char
  | property name => '.' :: name.toList
  | call arguments => '(' :: (printAll arguments ++ [')'])

def readable : Suffix → Bool
  | property name => isName name
  | call arguments => allReadable arguments

end Suffix

def withSuffixes (e : Expression) (suffixes : List Suffix) : Expression :=
  suffixes.foldl Suffix.onto e

theorem print_onto (e : Expression) (suffix : Suffix) :
    (suffix.onto e).print = e.print ++ suffix.print := by
  cases suffix <;> simp [Suffix.onto, Suffix.print, print, printAll, text]

theorem print_withSuffixes (e : Expression) (suffixes : List Suffix) :
    (e.withSuffixes suffixes).print = e.print ++ suffixes.flatMap Suffix.print := by
  induction suffixes generalizing e with
  | nil => simp [withSuffixes]
  | cons suffix suffixes ih =>
      rw [withSuffixes, List.foldl_cons, ← withSuffixes, ih, print_onto, List.flatMap_cons,
        List.append_assoc]

/-- An expression that does not end with something applied to another one. -/
def isHead : Expression → Bool
  | .property _ _ => false
  | .call _ _ => false
  | _ => true

/-- What an expression is read as: something that is not applied, and what is applied to it. -/
structure ReadAs (e head : Expression) (suffixes : List Suffix) : Prop where
  eq : e = head.withSuffixes suffixes
  isHead : head.isHead = true
  readableHead : head.readable = true
  readableSuffixes : ∀ s ∈ suffixes, s.readable = true
  unapplied : head.isAwait = true → suffixes = []

theorem ReadAs.onto {e head : Expression} {suffixes : List Suffix} (h : e.ReadAs head suffixes)
    (hawait : e.isAwait = false) {suffix : Suffix} (hsuffix : suffix.readable = true) :
    (suffix.onto e).ReadAs head (suffixes ++ [suffix]) where
  eq := by
    rw [h.eq, withSuffixes, withSuffixes, List.foldl_append]
    rfl
  isHead := h.isHead
  readableHead := h.readableHead
  readableSuffixes :=
    List.forall_mem_append.mpr ⟨h.readableSuffixes, List.forall_mem_singleton.mpr hsuffix⟩
  unapplied := by
    intro hhead
    have heq := h.eq
    rw [h.unapplied hhead] at heq
    rw [heq] at hawait
    exact absurd hhead (Bool.eq_false_iff.mp hawait)

theorem exists_readAs {e : Expression} (h : e.readable = true) :
    ∃ head suffixes, e.ReadAs head suffixes := by
  induction e using Expression.induct with
  | property object name ih =>
      simp only [readable, Bool.and_eq_true, Bool.not_eq_true'] at h
      obtain ⟨⟨hobject, hawait⟩, hname⟩ := h
      obtain ⟨head, suffixes, hread⟩ := ih hobject
      have hsuffix : (Suffix.property name).readable = true := hname
      exact ⟨head, _, hread.onto hawait hsuffix⟩
  | call callee arguments ih _ =>
      simp only [readable, Bool.and_eq_true, Bool.not_eq_true'] at h
      obtain ⟨⟨hcallee, hawait⟩, harguments⟩ := h
      obtain ⟨head, suffixes, hread⟩ := ih hcallee
      have hsuffix : (Suffix.call arguments).readable = true := harguments
      exact ⟨head, _, hread.onto hawait hsuffix⟩
  | _ => exact ⟨_, [], rfl, rfl, h, List.forall_mem_nil _, fun _ ↦ rfl⟩

/-! ## How expressions begin -/

/-- The word that a head begins with, empty for an array. -/
def opening : Expression → String
  | .this => "this"
  | .identifier name => name
  | .construct _ _ => "new"
  | .await _ => "await"
  | _ => ""

theorem not_keyword_of_isName {name : String} (h : isName name = true) :
    name ≠ "" ∧ name ≠ "this" ∧ name ≠ "new" ∧ name ≠ "await" := by
  simp only [isName, Bool.and_eq_true, bne_iff_ne] at h
  obtain ⟨⟨hempty, -⟩, hwords⟩ := h
  simpa [hempty] using hwords

/-- Heads of one kind, and the same ones as far as the opening goes. -/
inductive Alike : Expression → Expression → Prop where
  | this : Alike .this .this
  | identifier (name : String) : Alike (.identifier name) (.identifier name)
  | construct (className other : String) (arguments others : List Expression) :
      Alike (.construct className arguments) (.construct other others)
  | array (elements others : List Expression) : Alike (.array elements) (.array others)
  | await (inner other : Expression) : Alike (.await inner) (.await other)

/-- The openings of other heads are no names, and they differ. -/
theorem alike_of_opening_eq {e head : Expression} (he : e.isHead = true)
    (hhead : head.isHead = true) (hreadable : e.readable = true) (hother : head.readable = true)
    (h : e.opening = head.opening) : Alike e head := by
  cases e with
  | property object name => cases he
  | call callee arguments => cases he
  | identifier name =>
      have hname := not_keyword_of_isName hreadable
      cases head with
      | identifier other =>
          obtain rfl : name = other := h
          exact .identifier name
      | _ => simp_all [opening, isHead]
  | this =>
      cases head with
      | this => exact .this
      | identifier name => exact absurd h.symm (not_keyword_of_isName hother).2.1
      | _ => simp_all [opening, isHead]
  | construct className arguments =>
      cases head with
      | construct other others => exact .construct className other arguments others
      | identifier name => exact absurd h.symm (not_keyword_of_isName hother).2.2.1
      | _ => simp_all [opening, isHead]
  | array elements =>
      cases head with
      | array others => exact .array elements others
      | identifier name => exact absurd h.symm (not_keyword_of_isName hother).1
      | _ => simp_all [opening, isHead]
  | await inner =>
      cases head with
      | await other => exact .await inner other
      | identifier name => exact absurd h.symm (not_keyword_of_isName hother).2.2.2
      | _ => simp_all [opening, isHead]

/-- What is printed behind the opening of a head. -/
def remainder : Expression → List Char
  | .construct className arguments =>
    ' ' :: (className.toList ++ '(' :: (printAll arguments ++ [')']))
  | .array elements => '[' :: (printAll elements ++ [']'])
  | .await inner => ' ' :: inner.print
  | _ => []

theorem print_of_isHead {e : Expression} (h : e.isHead = true) :
    e.print = e.opening.toList ++ e.remainder := by
  cases e with
  | property object name => cases h
  | call callee arguments => cases h
  | _ => simp [print, text, opening, remainder, printAll]

theorem isNamePart_of_opening {e : Expression} (h : e.readable = true) :
    ∀ c ∈ e.opening.toList, isNamePart c = true := by
  cases e with
  | this => exact List.all_eq_true.mp (by decide : "this".toList.all isNamePart = true)
  | identifier name => exact isNamePart_of_isName h
  | construct className arguments =>
      exact List.all_eq_true.mp (by decide : "new".toList.all isNamePart = true)
  | await inner => exact List.all_eq_true.mp (by decide : "await".toList.all isNamePart = true)
  | _ => exact List.forall_mem_nil _

theorem endsWord_remainder (e : Expression) {rest : List Char} (h : EndsWord rest) :
    EndsWord (e.remainder ++ rest) := by
  cases e with
  | construct className arguments => exact endsWord_of_mark (by decide) _
  | array elements => exact endsWord_of_mark (by decide) _
  | await inner => exact endsWord_of_mark (by decide) _
  | _ => exact h

theorem exists_print_cons {e : Expression} (h : e.readable = true) :
    ∃ c cs, e.print = c :: cs ∧ (isNamePart c = true ∨ c = '[') := by
  obtain ⟨head, suffixes, hread⟩ := exists_readAs h
  have hparts := isNamePart_of_opening hread.readableHead
  have hhead : head.opening = "" → ∃ elements, head = .array elements := by
    cases head with
    | identifier name =>
        rintro rfl
        exact absurd hread.readableHead (by decide)
    | property object name => cases hread.isHead
    | call callee arguments => cases hread.isHead
    | array elements => exact fun _ ↦ ⟨elements, rfl⟩
    | _ => simp [opening]
  rw [hread.eq, print_withSuffixes, print_of_isHead hread.isHead]
  cases hopening : head.opening.toList with
  | nil =>
      obtain ⟨elements, rfl⟩ := hhead (String.toList_eq_nil_iff.mp hopening)
      exact ⟨'[', _, rfl, .inr rfl⟩
  | cons c cs => exact ⟨c, _, rfl, .inl (hparts c (hopening ▸ List.mem_cons_self))⟩

/-! ## Expressions are told apart -/

/-- Neither a word goes on here nor is anything applied. -/
def Ends (rest : List Char) : Prop :=
  ∀ c ∈ rest.head?, isNamePart c = false ∧ c ≠ '.' ∧ c ≠ '('

def EndsAll (rest : List Char) : Prop :=
  ∃ c more, rest = c :: more ∧ (c = ')' ∨ c = ']')

theorem Ends.endsWord {rest : List Char} (h : Ends rest) : EndsWord rest := fun c hc ↦ (h c hc).1

theorem ends_of_mark {c : Char} (h : c ∈ " ,;)]".toList) (rest : List Char) : Ends (c :: rest) := by
  have hmarks : (" ,;)]".toList.all fun c ↦ !isNamePart c && c != '.' && c != '(') = true := by
    decide +kernel
  have hc := List.all_eq_true.mp hmarks c h
  simp only [Bool.and_eq_true, Bool.not_eq_true', bne_iff_ne] at hc
  exact fun d hd ↦ Option.some.inj hd ▸ ⟨hc.1.1, hc.1.2, hc.2⟩

theorem EndsAll.ends {rest : List Char} (h : EndsAll rest) : Ends rest := by
  obtain ⟨c, more, rfl, rfl | rfl⟩ := h
  · exact ends_of_mark (by decide) more
  · exact ends_of_mark (by decide) more

/-- An expression is told apart from all readable ones. -/
def IsTold (e : Expression) : Prop :=
  Told (fun other ↦ other.readable = true) print Ends e

theorem not_endsAll_print {e : Expression} (h : e.readable = true) (rest : List Char) :
    ¬ EndsAll (e.print ++ rest) := by
  rintro ⟨d, more, hmore, hd⟩
  obtain ⟨c, cs, hcs, hc⟩ := exists_print_cons h
  rw [hcs] at hmore
  obtain rfl := (List.cons.inj hmore).1
  rcases hd with rfl | rfl <;> revert hc <;> decide +kernel

/-- An item behind a comma. -/
def printLater (e : Expression) : List Char :=
  ',' :: ' ' :: e.print

theorem ends_later (later : List Expression) {rest : List Char} (h : EndsAll rest) :
    Ends (later.flatMap printLater ++ rest) := by
  cases later with
  | nil => exact h.ends
  | cons e later => exact ends_of_mark (by decide) _

theorem told_later {later : List Expression} (h : ∀ e ∈ later, e.readable = true ∧ e.IsTold) :
    Told (fun others : List Expression ↦ ∀ e ∈ others, e.readable = true)
      (List.flatMap printLater) EndsAll later := by
  refine told_flatMap (fun e rest _ ↦ ends_of_mark (by decide) _) (fun rest hrest ↦ hrest.ends) ?_
    fun e he ↦ ?_
  · rintro e rest - ⟨c, more, hmore, hc⟩
    obtain rfl := (List.cons.inj hmore).1
    revert hc
    decide
  · obtain ⟨hreadable, htold⟩ := h e he
    refine ⟨hreadable, fun b rest other hb hrest hother heq ↦ ?_⟩
    exact htold b rest other hb hrest hother (List.cons.inj (List.cons.inj heq).2).2

theorem told_printAll {arguments : List Expression}
    (h : ∀ a ∈ arguments, a.readable = true ∧ a.IsTold) :
    Told (fun others ↦ allReadable others = true) printAll EndsAll arguments := by
  rintro others rest other hothers hrest hother heq
  rw [allReadable_iff] at hothers
  have hnone : printAll [] = [] := rfl
  cases arguments with
  | nil =>
      cases others with
      | nil => exact ⟨rfl, heq⟩
      | cons b others =>
          obtain ⟨hb, -⟩ := List.forall_mem_cons.mp hothers
          rw [printAll_cons, List.append_assoc, hnone, List.nil_append] at heq
          exact absurd (heq ▸ hrest) (not_endsAll_print hb _)
  | cons a arguments =>
      obtain ⟨⟨ha, htold⟩, harguments⟩ := List.forall_mem_cons.mp h
      cases others with
      | nil =>
          rw [printAll_cons, List.append_assoc, hnone, List.nil_append] at heq
          exact absurd (heq ▸ hother) (not_endsAll_print ha _)
      | cons b others =>
          obtain ⟨hb, hlater⟩ := List.forall_mem_cons.mp hothers
          rw [printAll_cons, printAll_cons, List.append_assoc, List.append_assoc] at heq
          obtain ⟨rfl, hmore⟩ := htold b _ _ hb (ends_later arguments hrest)
            (ends_later others hother) heq
          obtain ⟨rfl, hrest⟩ := told_later harguments others rest other hlater hrest hother hmore
          exact ⟨rfl, hrest⟩

theorem eq_of_printAll_close {arguments others : List Expression} {close : Char}
    {rest other : List Char} (h : ∀ a ∈ arguments, a.readable = true ∧ a.IsTold)
    (hothers : allReadable others = true) (hclose : close = ')' ∨ close = ']')
    (heq : printAll arguments ++ close :: rest = printAll others ++ close :: other) :
    arguments = others ∧ rest = other := by
  obtain ⟨hsame, hclosed⟩ := told_printAll h others _ _ hothers ⟨close, rest, rfl, hclose⟩
    ⟨close, other, rfl, hclose⟩ heq
  exact ⟨hsame, (List.cons.inj hclosed).2⟩

namespace Suffix

def arguments : Suffix → List Expression
  | property _ => []
  | call arguments => arguments

theorem endsWord_print (suffix : Suffix) (rest : List Char) :
    EndsWord (suffix.print ++ rest) := by
  cases suffix <;> exact endsWord_of_mark (by decide) _

theorem told {suffix : Suffix} (h : suffix.readable = true)
    (hparts : ∀ a ∈ suffix.arguments, a.readable = true ∧ a.IsTold) :
    Told (fun other ↦ other.readable = true) print EndsWord suffix := by
  rintro (other | other) rest more hother hrest hmore heq
  · cases suffix with
    | property name =>
        obtain ⟨rfl, hrest⟩ := told_word (isNamePart_of_isName h) other rest more
          (isNamePart_of_isName hother) hrest hmore (List.cons.inj heq).2
        exact ⟨rfl, hrest⟩
    | call arguments => exact absurd (List.cons.inj heq).1 (by decide)
  · cases suffix with
    | property name => exact absurd (List.cons.inj heq).1 (by decide)
    | call arguments =>
        simp only [print, List.cons_append, List.append_assoc, List.nil_append] at heq
        obtain ⟨rfl, hrest⟩ :=
          eq_of_printAll_close hparts hother (.inl rfl) (List.cons.inj heq).2
        exact ⟨rfl, hrest⟩

end Suffix

theorem endsWord_suffixes (suffixes : List Suffix) {rest : List Char} (h : Ends rest) :
    EndsWord (suffixes.flatMap Suffix.print ++ rest) := by
  cases suffixes with
  | nil => exact h.endsWord
  | cons suffix suffixes =>
      rw [List.flatMap_cons, List.append_assoc]
      exact suffix.endsWord_print _

theorem told_suffixes {suffixes : List Suffix} (h : ∀ s ∈ suffixes, s.readable = true ∧
      ∀ a ∈ s.arguments, a.readable = true ∧ a.IsTold) :
    Told (fun others : List Suffix ↦ ∀ s ∈ others, s.readable = true)
      (List.flatMap Suffix.print) Ends suffixes := by
  refine told_flatMap (fun s rest _ ↦ s.endsWord_print rest) (fun rest hrest ↦ hrest.endsWord) ?_
    fun s hs ↦ ⟨(h s hs).1, Suffix.told (h s hs).1 (h s hs).2⟩
  rintro (name | arguments) rest - hends
  · exact (hends _ rfl).2.1 rfl
  · exact (hends _ rfl).2.2 rfl

/-- The expressions inside a head. -/
def parts : Expression → List Expression
  | .construct _ arguments => arguments
  | .array elements => elements
  | .await inner => [inner]
  | _ => []

theorem eq_of_print_head {e head : Expression} (he : e.isHead = true) (hhead : head.isHead = true)
    (hreadable : e.readable = true) (hother : head.readable = true)
    (hparts : ∀ a ∈ e.parts, a.readable = true ∧ a.IsTold) {rest other : List Char}
    (hrest : EndsWord rest) (hmore : EndsWord other) (hawait : e.isAwait = true → Ends rest)
    (hawaits : head.isAwait = true → Ends other) (h : e.print ++ rest = head.print ++ other) :
    e = head ∧ rest = other := by
  rw [print_of_isHead he, print_of_isHead hhead, List.append_assoc, List.append_assoc] at h
  obtain ⟨hopening, hremainder⟩ := told_word (isNamePart_of_opening hreadable) _ _ _
    (isNamePart_of_opening hother) (endsWord_remainder e hrest) (endsWord_remainder head hmore) h
  cases alike_of_opening_eq he hhead hreadable hother hopening with
  | this => exact ⟨rfl, hremainder⟩
  | identifier name => exact ⟨rfl, hremainder⟩
  | construct className name arguments others =>
      simp only [readable, Bool.and_eq_true] at hreadable hother
      simp only [remainder, List.cons_append, List.append_assoc, List.nil_append] at hremainder
      obtain ⟨rfl, hlist⟩ := told_word (isNamePart_of_isName hreadable.1) _ _ _
        (isNamePart_of_isName hother.1) (endsWord_of_mark (by decide) _)
        (endsWord_of_mark (by decide) _) (List.cons.inj hremainder).2
      obtain ⟨rfl, hrest⟩ :=
        eq_of_printAll_close hparts hother.2 (.inl rfl) (List.cons.inj hlist).2
      exact ⟨rfl, hrest⟩
  | array elements others =>
      simp only [remainder, List.cons_append, List.append_assoc, List.nil_append] at hremainder
      obtain ⟨rfl, hrest⟩ :=
        eq_of_printAll_close hparts hother (.inr rfl) (List.cons.inj hremainder).2
      exact ⟨rfl, hrest⟩
  | await inner others =>
      obtain ⟨rfl, hrest⟩ := (hparts inner List.mem_cons_self).2 others rest other hother
        (hawait rfl) (hawaits rfl) (List.cons.inj hremainder).2
      exact ⟨rfl, hrest⟩

theorem isTold_withSuffixes {e : Expression} (he : e.isHead = true) (hreadable : e.readable = true)
    (hparts : ∀ a ∈ e.parts, a.readable = true ∧ a.IsTold) {suffixes : List Suffix}
    (hsuffixes : ∀ s ∈ suffixes, s.readable = true ∧
      ∀ a ∈ s.arguments, a.readable = true ∧ a.IsTold)
    (hawait : e.isAwait = true → suffixes = []) : (e.withSuffixes suffixes).IsTold := by
  intro b rest other hb hrest hother heq
  obtain ⟨head, others, hread⟩ := exists_readAs hb
  rw [hread.eq, print_withSuffixes, print_withSuffixes, List.append_assoc, List.append_assoc] at heq
  obtain ⟨rfl, hmore⟩ := eq_of_print_head he hread.isHead hreadable hread.readableHead hparts
    (endsWord_suffixes suffixes hrest) (endsWord_suffixes others hother)
    (fun h ↦ by rw [hawait h]; exact hrest) (fun h ↦ by rw [hread.unapplied h]; exact hother) heq
  obtain ⟨rfl, hrest⟩ :=
    told_suffixes hsuffixes others rest other hread.readableSuffixes hrest hother hmore
  exact ⟨hread.eq.symm, hrest⟩

/-- With all that is applied to it, an expression is told apart. -/
def IsToldApplied (e : Expression) : Prop :=
  e.readable = true → ∀ suffixes : List Suffix,
    (∀ s ∈ suffixes, s.readable = true ∧ ∀ a ∈ s.arguments, a.readable = true ∧ a.IsTold) →
      (e.isAwait = true → suffixes = []) → (e.withSuffixes suffixes).IsTold

theorem IsToldApplied.isTold {e : Expression} (h : e.IsToldApplied)
    (hreadable : e.readable = true) : e.IsTold :=
  h hreadable [] (List.forall_mem_nil _) fun _ ↦ rfl

theorem isTold_of_allReadable {arguments : List Expression} (h : allReadable arguments = true)
    (hparts : ∀ a ∈ arguments, a.IsToldApplied) :
    ∀ a ∈ arguments, a.readable = true ∧ a.IsTold := fun a ha ↦
  have hreadable := allReadable_iff.mp h a ha
  ⟨hreadable, (hparts a ha).isTold hreadable⟩

theorem isToldApplied (e : Expression) : e.IsToldApplied := by
  -- A property or a call passes on to its object or callee what is applied to it.
  induction e using Expression.induct with
  | this =>
      intro h suffixes hsuffixes hawait
      exact isTold_withSuffixes rfl h (List.forall_mem_nil _) hsuffixes hawait
  | identifier name =>
      intro h suffixes hsuffixes hawait
      exact isTold_withSuffixes rfl h (List.forall_mem_nil _) hsuffixes hawait
  | property object name ih =>
      intro h suffixes hsuffixes _
      simp only [readable, Bool.and_eq_true, Bool.not_eq_true'] at h
      obtain ⟨⟨hobject, hawait⟩, hname⟩ := h
      exact ih hobject (.property name :: suffixes)
        (List.forall_mem_cons.mpr ⟨⟨hname, List.forall_mem_nil _⟩, hsuffixes⟩)
        fun h ↦ absurd h (Bool.eq_false_iff.mp hawait)
  | call callee arguments ih hparts =>
      intro h suffixes hsuffixes _
      simp only [readable, Bool.and_eq_true, Bool.not_eq_true'] at h
      obtain ⟨⟨hcallee, hawait⟩, harguments⟩ := h
      exact ih hcallee (.call arguments :: suffixes)
        (List.forall_mem_cons.mpr
          ⟨⟨harguments, isTold_of_allReadable harguments hparts⟩, hsuffixes⟩)
        fun h ↦ absurd h (Bool.eq_false_iff.mp hawait)
  | construct className arguments hparts =>
      intro h suffixes hsuffixes hawait
      have harguments : allReadable arguments = true := (Bool.and_eq_true_iff.mp h).2
      exact isTold_withSuffixes rfl h (isTold_of_allReadable harguments hparts) hsuffixes hawait
  | array elements hparts =>
      intro h suffixes hsuffixes hawait
      exact isTold_withSuffixes rfl h (isTold_of_allReadable h hparts) hsuffixes hawait
  | await inner ih =>
      intro h suffixes hsuffixes hawait
      have hinner : ∀ a ∈ [inner], a.readable = true ∧ a.IsTold :=
        List.forall_mem_singleton.mpr ⟨h, ih.isTold h⟩
      exact isTold_withSuffixes rfl h hinner hsuffixes hawait

theorem isTold {e : Expression} (h : e.readable = true) : e.IsTold :=
  e.isToldApplied.isTold h

end Expression

end Wiring.Code
