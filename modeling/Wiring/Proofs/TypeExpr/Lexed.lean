import Wiring.Proofs.TypeExpr.FirstWrong
import Wiring.Proofs.TypeExpr.Nesting

/-!
# Texts put together from tokens

A text that is one token is read as that token also where other characters follow, unless a word or
a number goes on with them.  So texts can be put together from those of their tokens, with blanks
and marks in between.
-/

namespace Wiring

open TypeExpr (byteLength_append)

variable {c : Char} {cs ds behind : List Char} {token : Token} {read more : List Token}

/-- The characters are the token, from the first one to the last. -/
def Token.SpelledBy (token : Token) (cs : List Char) : Prop :=
  ∃ c rest, cs = c :: rest ∧ Text.isBlank c = false ∧ Token.read? c rest = .ok (token, cs.length)

/-- Neither a word nor a number goes on with the characters. -/
def Stops (cs : List Char) : Prop :=
  ∀ c ∈ cs.head?, isWordPart c = false ∧ isNumberPart c = false

theorem stops_nil : Stops [] := nofun

theorem Stops.append (h : Stops cs) (hbehind : Stops behind) : Stops (cs ++ behind) := by
  cases cs with
  | nil => exact hbehind
  | cons c cs => exact h

theorem stops_blank (cs : List Char) : Stops (' ' :: cs) := by
  have hblank : isWordPart ' ' = false ∧ isNumberPart ' ' = false := by decide +kernel
  rintro _ ⟨⟩
  exact hblank

theorem stops_mark (mark : Mark) (cs : List Char) : Stops (mark.char :: cs) := by
  have hmark : isWordPart mark.char = false ∧ isNumberPart mark.char = false := by
    cases mark <;> decide +kernel
  rintro _ ⟨⟩
  exact hmark

/-- What a token takes to the end of its characters it takes also where others follow. -/
theorem takeWhile_append_of_stops {part : Char → Bool}
    (hlength : (cs.takeWhile part).length = cs.length)
    (hbehind : ∀ c ∈ behind.head?, part c = false) :
    cs.takeWhile part = cs ∧ (cs ++ behind).takeWhile part = cs := by
  have hnone : behind.takeWhile part = [] := by
    cases behind with
    | nil => rfl
    | cons c behind => exact List.takeWhile_cons_of_neg (by simp [hbehind c rfl])
  refine ⟨(List.takeWhile_prefix part).eq_of_length hlength, ?_⟩
  rw [List.takeWhile_append, if_pos hlength, hnone, List.append_nil]

theorem Token.read?_append (h : Token.read? c cs = .ok (token, cs.length + 1))
    (hbehind : Stops behind) : Token.read? c (cs ++ behind) = .ok (token, cs.length + 1) := by
  rw [Token.read?.eq_def] at h ⊢
  split at h
  · exact h
  · split_ifs at h with hquote hnumber hword
    · rw [if_pos hquote]
      dsimp only at h ⊢
      split_ifs at h with hclosed
      have hsame : (cs ++ behind).takeWhile (· != c) = cs.takeWhile (· != c) := by
        rw [List.takeWhile_append, if_neg hclosed.ne]
      have hlt : (cs.takeWhile (· != c)).length < (cs ++ behind).length :=
        hclosed.trans_le (by simp)
      rw [hsame, if_pos hlt, h]
    · rw [if_neg hquote, if_pos hnumber]
      dsimp only at h ⊢
      split_ifs at h with hdigits
      have hlength := Nat.succ.inj (Prod.mk.inj (Except.ok.inj h)).2
      obtain ⟨hall, hsame⟩ := takeWhile_append_of_stops hlength fun c hc ↦ (hbehind c hc).2
      rw [hall] at h hdigits
      rw [hsame, if_neg hdigits, h]
    · rw [if_neg hquote, if_neg hnumber, if_pos hword]
      dsimp only at h ⊢
      have hlength := Nat.succ.inj (Prod.mk.inj (Except.ok.inj h)).2
      obtain ⟨hall, hsame⟩ := takeWhile_append_of_stops hlength fun c hc ↦ (hbehind c hc).1
      rw [hall] at h
      rw [hsame, h]

/-- A word or a number that is spelled as it is read. -/
def Token.IsLexed : Token → Prop
  | word name => (word name).SpelledBy name.toList
  | number spelling => (number spelling).SpelledBy spelling.toList
  | _ => True

theorem Token.isLexed_of_read? {length : ℕ} (hblank : Text.isBlank c = false)
    (h : Token.read? c cs = .ok (token, length)) : token.IsLexed := by
  rw [Token.read?.eq_def] at h
  split at h
  · obtain ⟨rfl, -⟩ := Prod.mk.inj (Except.ok.inj h)
    trivial
  · next hmark =>
      split_ifs at h with hquote hnumber hword
      · dsimp only at h
        split_ifs at h
        obtain ⟨rfl, -⟩ := Prod.mk.inj (Except.ok.inj h)
        trivial
      · dsimp only at h
        split_ifs at h with hdigits
        obtain ⟨rfl, -⟩ := Prod.mk.inj (Except.ok.inj h)
        refine ⟨c, cs.takeWhile isNumberPart, String.toList_ofList, hblank, ?_⟩
        rw [Token.read?.eq_def, hmark]
        simp only [if_neg hquote, if_pos hnumber, List.takeWhile_idem, if_neg hdigits,
          String.toList_ofList, List.length_cons]
      · obtain ⟨rfl, -⟩ := Prod.mk.inj (Except.ok.inj h)
        refine ⟨c, cs.takeWhile isWordPart, String.toList_ofList, hblank, ?_⟩
        rw [Token.read?.eq_def, hmark]
        simp only [if_neg hquote, if_neg hnumber, if_pos hword, List.takeWhile_idem,
          String.toList_ofList, List.length_cons]

theorem isLexed_of_tokens (offset : ℕ) (cs : List Char) : ∀ located,
    tokens offset cs = .ok located → ∀ one ∈ located, one.token.IsLexed := by
  fun_induction tokens offset cs with
  | case1 =>
      rintro _ ⟨⟩
      exact List.forall_mem_nil _
  | case2 _ _ _ _ ih => exact ih
  | case3 => rintro _ ⟨⟩
  | case4 => rintro _ ⟨⟩
  | case5 offset c rest hblank token length hread taken later hlater ih =>
      rintro _ ⟨⟩
      exact List.forall_mem_cons.mpr
        ⟨Token.isLexed_of_read? (Bool.eq_false_of_not_eq_true hblank) hread, ih later hlater⟩

/-- The characters fall into the tokens, wherever they stand in front of something that stops. -/
def FallsInto (cs : List Char) (read : List Token) : Prop :=
  ∀ behind, Stops behind → ∀ offset, ∃ located, located.map Located.token = read ∧
    tokens offset (cs ++ behind) =
      (tokens (offset + byteLength cs) behind).map (located ++ ·)

theorem fallsInto_nil : FallsInto [] [] := by
  intro behind _ offset
  refine ⟨[], rfl, ?_⟩
  change tokens offset behind = (tokens offset behind).map ([] ++ ·)
  cases tokens offset behind <;> rfl

theorem Token.SpelledBy.fallsInto (h : token.SpelledBy cs) : FallsInto cs [token] := by
  obtain ⟨c, rest, rfl, hblank, hread⟩ := h
  intro behind hbehind offset
  refine ⟨[⟨offset, token⟩], rfl, ?_⟩
  rw [List.cons_append, tokens, hblank, Token.read?_append hread hbehind]
  simp only [Bool.false_eq_true, if_false, Nat.add_sub_cancel, List.take_left, List.drop_left]
  cases tokens (offset + byteLength (c :: rest)) behind <;> rfl

theorem FallsInto.append (h : FallsInto cs read) (hds : FallsInto ds more) (hstops : Stops ds) :
    FallsInto (cs ++ ds) (read ++ more) := by
  intro behind hbehind offset
  obtain ⟨first, rfl, hfirst⟩ := h (ds ++ behind) (hstops.append hbehind) offset
  obtain ⟨second, rfl, hsecond⟩ := hds behind hbehind (offset + byteLength cs)
  refine ⟨first ++ second, List.map_append, ?_⟩
  rw [List.append_assoc, hfirst, hsecond, byteLength_append, Nat.add_assoc]
  cases tokens (offset + (byteLength cs + byteLength ds)) behind with
  | error problem => rfl
  | ok located => exact congrArg Except.ok (List.append_assoc _ _ _).symm

theorem FallsInto.blank (h : FallsInto cs read) : FallsInto (' ' :: cs) read := by
  intro behind hbehind offset
  obtain ⟨located, hread, htokens⟩ := h behind hbehind (offset + (' ').utf8Size)
  have hblank : Text.isBlank ' ' = true := by decide
  refine ⟨located, hread, ?_⟩
  rw [List.cons_append, tokens, if_pos hblank, htokens, Nat.add_assoc]
  rfl

theorem FallsInto.mark (h : FallsInto cs read) (mark : Mark) :
    FallsInto (mark.char :: cs) (.mark mark :: read) := by
  intro behind hbehind offset
  obtain ⟨located, hread, htokens⟩ := h behind hbehind (offset + mark.char.utf8Size)
  refine ⟨⟨offset, .mark mark⟩ :: located, congrArg (List.cons _) hread, ?_⟩
  rw [List.cons_append, tokens_mark_cons, htokens, Nat.add_assoc]
  have hlength : byteLength (mark.char :: cs) = mark.char.utf8Size + byteLength cs := rfl
  rw [hlength]
  cases tokens (offset + (mark.char.utf8Size + byteLength cs)) behind <;> rfl

theorem toList_intercalate_cons (separator first : String) (others : List String) :
    (separator.intercalate (first :: others)).toList =
      first.toList ++ others.flatMap fun other ↦ separator.toList ++ other.toList := by
  induction others generalizing first with
  | nil => rw [String.intercalate_singleton, List.flatMap_nil, List.append_nil]
  | cons second others ih =>
      rw [String.intercalate_cons_cons, String.toList_append, String.toList_append, ih,
        List.flatMap_cons, List.append_assoc, List.append_assoc]

/-- The text is read as the mark wherever it stands, and nothing goes on with it. -/
structure Separates (separator : String) (mark : Mark) : Prop where
  fallsInto {cs : List Char} {read : List Token} (h : FallsInto cs read) :
    FallsInto (separator.toList ++ cs) (.mark mark :: read)
  stops (cs : List Char) : Stops (separator.toList ++ cs)

theorem separates_comma : Separates ", " .comma :=
  ⟨fun h ↦ h.blank.mark .comma, fun cs ↦ stops_mark .comma (' ' :: cs)⟩

theorem separates_bar : Separates " | " .bar :=
  ⟨fun h ↦ (h.blank.mark .bar).blank, fun cs ↦ stops_blank ('|' :: ' ' :: cs)⟩

/-- Texts that are joined fall into the tokens of each, with marks between them. -/
theorem Separates.intercalate {α : Type} {separator : String} {mark : Mark}
    {tokens : α → List Token} {texts : List String} {items : List α} {text : String} {item : α}
    (hseparator : Separates separator mark) (hfirst : FallsInto text.toList (tokens item))
    (h : List.Forall₂ (fun text item ↦ FallsInto text.toList (tokens item)) texts items) :
    FallsInto (separator.intercalate (text :: texts)).toList
      (tokens item ++ laterTokens mark tokens items) := by
  rw [toList_intercalate_cons]
  induction h generalizing text item with
  | nil => exact hfirst.append fallsInto_nil stops_nil
  | @cons next _ _ _ hnext _ ih =>
      rw [List.flatMap_cons, List.append_assoc]
      exact hfirst.append (hseparator.fallsInto (ih hnext)) (hseparator.stops _)

theorem FallsInto.tokens_eq (h : FallsInto cs read) : ∃ located,
    tokens 0 cs = .ok located ∧ located.map Located.token = read := by
  obtain ⟨located, hread, htokens⟩ := h [] stops_nil 0
  rw [List.append_nil] at htokens
  refine ⟨located, ?_, hread⟩
  rw [htokens, tokens]
  exact congrArg Except.ok (List.append_nil located)

end Wiring
