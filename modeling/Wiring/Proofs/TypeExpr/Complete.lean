import Wiring.Proofs.TypeExpr.Unambiguous

/-!
# Readers accept every phrase

A reader that meets the tokens of a phrase takes just these tokens and gives the tree of the
phrase, as long as what follows does not continue the phrase and the phrase is nested no deeper
than there is room.
-/

namespace Wiring.TypeExpr

/-- In front of anything but the marks, the reader takes the tokens and gives the value. -/
def Reads {α : Type} (reader : Reader α) (follow : List Mark) (tokens : List Token) (a : α) :
    Prop :=
  ∀ ⦃located : List Located⦄ ⦃rest : List Token⦄, located.map Located.token = tokens ++ rest →
    Avoids follow rest → ∃ later, reader located = .ok (a, later) ∧
      later.map Located.token = rest

variable {located : List Located} {rest : List Token} {room around : ℕ}

theorem exists_cons_of_map {token : Token} (h : located.map Located.token = token :: rest) :
    ∃ offset later, located = ⟨offset, token⟩ :: later ∧ later.map Located.token = rest := by
  obtain ⟨⟨offset, _⟩, later, rfl, rfl, hlater⟩ := List.map_eq_cons_iff.mp h
  exact ⟨offset, later, rfl, hlater⟩

theorem eat?_of_map {mark : Mark} (h : located.map Located.token = .mark mark :: rest) :
    ∃ later, eat? mark located = some later ∧ later.map Located.token = rest := by
  obtain ⟨offset, later, rfl, hlater⟩ := exists_cons_of_map h
  exact ⟨later, by simp [eat?], hlater⟩

theorem eat?_eq_none {mark : Mark} (h : (located.map Located.token).head? ≠ some (.mark mark)) :
    eat? mark located = none := by
  rw [eat?.eq_def]
  split
  · next found _ =>
      rw [if_neg]
      rintro rfl
      exact h rfl
  · rfl

theorem expect_of_map {mark : Mark} (h : located.map Located.token = .mark mark :: rest) :
    ∃ later, expect mark located = .ok later ∧ later.map Located.token = rest := by
  obtain ⟨offset, later, rfl, hlater⟩ := exists_cons_of_map h
  exact ⟨later, by simp [expect], hlater⟩

/-- A mark that may be left out is skipped where it is written. -/
theorem eat?_written {mark : Mark} {isWritten : Bool}
    (h : located.map Located.token = written isWritten mark ++ rest)
    (hrest : rest.head? ≠ some (.mark mark)) :
    (eat? mark located).isSome = isWritten ∧
      ((eat? mark located).getD located).map Located.token = rest := by
  cases isWritten with
  | true =>
      obtain ⟨later, heat, hlater⟩ := eat?_of_map h
      exact ⟨by rw [heat]; rfl, by rw [heat]; exact hlater⟩
  | false =>
      have hnone : eat? mark located = none := eat?_eq_none (h ▸ hrest)
      exact ⟨by rw [hnone]; rfl, by rw [hnone]; exact h⟩

theorem reads_readSeparated {α : Type} {separator : Mark} {follow : List Mark}
    (hseparator : separator ∉ follow) {item : Reader TypeExpr} {tokens : α → List Token}
    {tree : α → TypeExpr} {first : α} {others : List α} {rounds : ℕ}
    (hrounds : others.length < rounds) (hfirst : Reads item follow (tokens first) (tree first))
    (hothers : ∀ other ∈ others, Reads item follow (tokens other) (tree other)) :
    Reads (readSeparated separator item rounds) (separator :: follow)
      (tokens first ++ laterTokens separator tokens others)
      (tree first :: others.map tree) := by
  induction others generalizing first rounds with
  | nil =>
      obtain ⟨rounds, rfl⟩ := Nat.exists_eq_succ_of_ne_zero (Nat.ne_zero_of_lt hrounds)
      intro located rest hlocated hrest
      rw [laterTokens, List.flatMap_nil, List.append_nil] at hlocated
      obtain ⟨later, hitem, hlater⟩ := hfirst hlocated hrest.tail
      have hstop : eat? separator later = none :=
        eat?_eq_none (hlater ▸ hrest separator List.mem_cons_self)
      refine ⟨later, ?_, hlater⟩
      simp [readSeparated, hitem, hstop, bind, Except.bind, pure, Except.pure]
  | cons second others ih =>
      obtain ⟨rounds, rfl⟩ := Nat.exists_eq_succ_of_ne_zero (Nat.ne_zero_of_lt hrounds)
      obtain ⟨hsecond, hothers⟩ := List.forall_mem_cons.mp hothers
      intro located rest hlocated hrest
      rw [List.append_assoc] at hlocated
      obtain ⟨later, hitem, hlater⟩ := hfirst hlocated (hrest.later hseparator _ _)
      rw [laterTokens, List.flatMap_cons, List.cons_append, List.cons_append] at hlater
      obtain ⟨start, heat, hstart⟩ := eat?_of_map hlater
      obtain ⟨final, hrec, hfinal⟩ :=
        ih (Nat.lt_of_succ_lt_succ hrounds) hsecond hothers hstart hrest
      refine ⟨final, ?_, hfinal⟩
      simp [readSeparated, hitem, heat, hrec, bind, Except.bind, pure, Except.pure]

theorem length_le_length_laterTokens {α : Type} (separator : Mark) (tokens : α → List Token)
    (items : List α) : items.length ≤ (laterTokens separator tokens items).length := by
  induction items with
  | nil => exact Nat.zero_le _
  | cons item items ih =>
      rw [laterTokens, List.flatMap_cons, ← laterTokens, List.length_append, List.length_cons,
        List.length_cons]
      omega

theorem reads_readItems {α : Type} {separator : Mark} {follow : List Mark}
    (hseparator : separator ∉ follow) {item : Reader TypeExpr} {tokens : α → List Token}
    {tree : α → TypeExpr} {first : α} {others : List α}
    (hfirst : Reads item follow (tokens first) (tree first))
    (hothers : ∀ other ∈ others, Reads item follow (tokens other) (tree other)) :
    Reads (readItems separator item) (separator :: follow)
      (tokens first ++ laterTokens separator tokens others)
      (tree first :: others.map tree) := by
  intro located rest hlocated hrest
  have hrounds : others.length < located.length + 1 := by
    have hlength := length_le_length_laterTokens separator tokens others
    have htotal := congrArg List.length hlocated
    simp only [List.length_map, List.length_append] at htotal
    omega
  exact reads_readSeparated hseparator hrounds hfirst hothers hlocated hrest

theorem reads_readSuffixes {suffixes : ℕ} (hroom : suffixes ≤ room) (element : TypeExpr) :
    Reads (readSuffixes room element) [.openBracket] (suffixTokens suffixes)
      (suffixTree suffixes element) := by
  induction suffixes generalizing room element with
  | zero =>
      intro located rest hlocated hrest
      have hstop : eat? .openBracket located = none :=
        eat?_eq_none (hlocated ▸ hrest .openBracket List.mem_cons_self)
      refine ⟨located, ?_, hlocated⟩
      rw [readSuffixes, hstop]
      rfl
  | succ suffixes ih =>
      obtain ⟨room, rfl⟩ := Nat.exists_eq_succ_of_ne_zero (Nat.ne_zero_of_lt hroom)
      intro located rest hlocated hrest
      obtain ⟨opened, heat, hopened⟩ := eat?_of_map hlocated
      obtain ⟨closed, hexpect, hclosed⟩ := expect_of_map hopened
      obtain ⟨later, hrec, hlater⟩ :=
        ih (Nat.le_of_succ_le_succ hroom) (.array element) hclosed hrest
      refine ⟨later, ?_, hlater⟩
      rw [readSuffixes, heat]
      simpa [hexpect, suffixTree, bind, Except.bind] using hrec

theorem skipSeparator_of_map (ending : FieldEnd)
    (h : located.map Located.token = ending.tokens ++ rest)
    (hrest : Avoids [.semicolon, .comma] rest) :
    (skipSeparator located).map Located.token = rest := by
  cases ending with
  | nothing =>
      have hsemicolon : eat? .semicolon located = none :=
        eat?_eq_none (h ▸ hrest .semicolon (by decide))
      have hcomma : eat? .comma located = none := eat?_eq_none (h ▸ hrest .comma (by decide))
      simpa [skipSeparator, hsemicolon, hcomma, FieldEnd.tokens] using h
  | semicolon =>
      obtain ⟨later, heat, hlater⟩ := eat?_of_map h
      simpa [skipSeparator, heat] using hlater
  | comma =>
      have hsemicolon : eat? .semicolon located = none := by
        refine eat?_eq_none ?_
        rw [h]
        simp [FieldEnd.tokens]
      obtain ⟨later, heat, hlater⟩ := eat?_of_map h
      simpa [skipSeparator, hsemicolon, heat] using hlater

theorem fieldName?_of_map {quoted : Bool} {name : String}
    (h : located.map Located.token = fieldNameToken quoted name :: rest) :
    ∃ later, fieldName? located = some (name, later) ∧ later.map Located.token = rest := by
  obtain ⟨offset, later, rfl, hlater⟩ := exists_cons_of_map h
  cases quoted <;> exact ⟨later, rfl, hlater⟩

theorem reads_readField {union : Reader TypeExpr} {type : UnionPhrase}
    (htype : Reads union unionFollow type.tokens type.tree) (quoted : Bool) (name : String)
    (optional : Bool) (ending : FieldEnd) :
    Reads (readField union) fieldFollow (FieldPhrase.mk quoted name optional type ending).tokens
      (FieldPhrase.mk quoted name optional type ending).tree := by
  intro located rest hlocated hrest
  obtain ⟨named, hname, hnamed⟩ := fieldName?_of_map hlocated
  rw [List.append_eq, List.append_assoc] at hnamed
  obtain ⟨hoptional, hcolon⟩ := eat?_written hnamed (by simp)
  obtain ⟨start, hexpect, hstart⟩ := expect_of_map hcolon
  rw [List.append_eq, List.append_assoc] at hstart
  obtain ⟨later, hunion, hlater⟩ := htype hstart (hrest.ending ending)
  refine ⟨skipSeparator later, ?_, skipSeparator_of_map ending hlater hrest.separators⟩
  simp [readField, hname, hexpect, hunion, hoptional, bind, Except.bind, pure, Except.pure]

theorem reads_readFieldsWithin {union : Reader TypeExpr} {fields : List FieldPhrase} {rounds : ℕ}
    (hrounds : fields.length < rounds)
    (hfields : ∀ field ∈ fields, Reads (readField union) fieldFollow field.tokens field.tree) :
    Reads (readFieldsWithin union rounds) []
      (fields.flatMap FieldPhrase.tokens ++ [.mark .closeBrace]) (fields.map FieldPhrase.tree) := by
  induction fields generalizing rounds with
  | nil =>
      obtain ⟨rounds, rfl⟩ := Nat.exists_eq_succ_of_ne_zero (Nat.ne_zero_of_lt hrounds)
      intro located rest hlocated _
      obtain ⟨later, heat, hlater⟩ := eat?_of_map hlocated
      exact ⟨later, by simp [readFieldsWithin, heat], hlater⟩
  | cons field fields ih =>
      obtain ⟨rounds, rfl⟩ := Nat.exists_eq_succ_of_ne_zero (Nat.ne_zero_of_lt hrounds)
      obtain ⟨hfield, hfields⟩ := List.forall_mem_cons.mp hfields
      intro located rest hlocated hrest
      rw [List.flatMap_cons, List.append_assoc, List.append_assoc] at hlocated
      have hopen : eat? .closeBrace located = none := by
        obtain ⟨quoted, name, optional, type, ending⟩ := field
        refine eat?_eq_none ?_
        rw [hlocated]
        exact fun h ↦ fieldNameToken_ne_mark quoted name _ (Option.some.inj h)
      obtain ⟨later, hfirst, hlater⟩ := hfield hlocated (by
        simpa using avoids_fields fieldFollow (by decide) fields rest)
      rw [← List.append_assoc] at hlater
      obtain ⟨final, hrec, hfinal⟩ := ih (Nat.lt_of_succ_lt_succ hrounds) hfields hlater hrest
      refine ⟨final, ?_, hfinal⟩
      simp [readFieldsWithin, hopen, hfirst, hrec, bind, Except.bind, pure, Except.pure]

theorem length_le_length_fields (fields : List FieldPhrase) :
    fields.length ≤ (fields.flatMap FieldPhrase.tokens).length := by
  induction fields with
  | nil => exact Nat.zero_le _
  | cons field fields ih =>
      obtain ⟨quoted, name, optional, type, ending⟩ := field
      rw [List.flatMap_cons, FieldPhrase.tokens, List.length_append, List.length_cons,
        List.length_cons]
      omega

theorem reads_readFields {union : Reader TypeExpr} {fields : List FieldPhrase}
    (hfields : ∀ field ∈ fields, Reads (readField union) fieldFollow field.tokens field.tree) :
    Reads (readFields union) [] (fields.flatMap FieldPhrase.tokens ++ [.mark .closeBrace])
      (fields.map FieldPhrase.tree) := by
  intro located rest hlocated hrest
  have hrounds : fields.length < located.length + 1 := by
    have hlength := length_le_length_fields fields
    have htotal := congrArg List.length hlocated
    simp only [List.length_map, List.length_append] at htotal
    omega
  exact reads_readFieldsWithin hrounds hfields hlocated hrest

section

variable {union : Reader TypeExpr} {first : UnionPhrase} {others : List UnionPhrase}

/-- Items in front of a closing mark. -/
theorem readItems_of_map {closing : Mark} (hclosing : closing ∉ Mark.comma :: unionFollow)
    (hfirst : Reads union unionFollow first.tokens first.tree)
    (hothers : ∀ other ∈ others, Reads union unionFollow other.tokens other.tree)
    (h : located.map Located.token =
      first.tokens ++ (UnionPhrase.laterTokens others ++ .mark closing :: rest)) :
    ∃ later final, readItems .comma union located =
        .ok (first.tree :: UnionPhrase.trees others, later) ∧
      expect closing later = .ok final ∧ final.map Located.token = rest := by
  rw [UnionPhrase.laterTokens_eq, ← List.append_assoc] at h
  rw [UnionPhrase.trees_eq]
  have hstop : Avoids (.comma :: unionFollow) (.mark closing :: rest) := by
    refine avoids_cons_of_ne fun mark hmark heq ↦ hclosing ?_
    rwa [Token.mark.inj heq]
  obtain ⟨later, hitems, hlater⟩ := reads_readItems (by decide) hfirst hothers h hstop
  obtain ⟨final, hexpect, hfinal⟩ := expect_of_map hlater
  exact ⟨later, final, hitems, hexpect, hfinal⟩

theorem reads_word (union : Reader TypeExpr) (name : String) :
    Reads (readPrimary union) primaryFollow (PrimaryPhrase.word name).tokens
      (PrimaryPhrase.word name).tree := by
  intro located rest hlocated hrest
  obtain ⟨offset, later, rfl, hlater⟩ := exists_cons_of_map hlocated
  have hbare : eat? .less later = none :=
    eat?_eq_none (hlater ▸ hrest .less List.mem_cons_self)
  refine ⟨later, ?_, hlater⟩
  simp [readPrimary, readArguments, hbare, bind, Except.bind, pure, Except.pure]

theorem reads_container (hfirst : Reads union unionFollow first.tokens first.tree)
    (hothers : ∀ other ∈ others, Reads union unionFollow other.tokens other.tree) (name : String) :
    Reads (readPrimary union) primaryFollow (PrimaryPhrase.container name first others).tokens
      (PrimaryPhrase.container name first others).tree := by
  intro located rest hlocated _
  simp only [PrimaryPhrase.tokens, List.cons_append, List.append_assoc, List.nil_append]
    at hlocated
  obtain ⟨offset, named, rfl, hnamed⟩ := exists_cons_of_map hlocated
  obtain ⟨start, heat, hstart⟩ := eat?_of_map hnamed
  obtain ⟨later, final, hitems, hexpect, hfinal⟩ :=
    readItems_of_map (by decide) hfirst hothers hstart
  refine ⟨final, ?_, hfinal⟩
  simp [readPrimary, readArguments, heat, hitems, hexpect, bind, Except.bind, pure, Except.pure]

theorem reads_emptyTuple (union : Reader TypeExpr) :
    Reads (readPrimary union) primaryFollow PrimaryPhrase.emptyTuple.tokens
      PrimaryPhrase.emptyTuple.tree := by
  intro located rest hlocated _
  obtain ⟨offset, opened, rfl, hopened⟩ := exists_cons_of_map hlocated
  obtain ⟨final, heat, hfinal⟩ := eat?_of_map hopened
  refine ⟨final, ?_, hfinal⟩
  simp [readPrimary, readTuple, heat, bind, Except.bind, pure, Except.pure]

theorem reads_tuple (hfirst : Reads union unionFollow first.tokens first.tree)
    (hothers : ∀ other ∈ others, Reads union unionFollow other.tokens other.tree) :
    Reads (readPrimary union) primaryFollow (PrimaryPhrase.tuple first others).tokens
      (PrimaryPhrase.tuple first others).tree := by
  intro located rest hlocated _
  simp only [PrimaryPhrase.tokens, List.cons_append, List.append_assoc, List.nil_append]
    at hlocated
  obtain ⟨offset, start, rfl, hstart⟩ := exists_cons_of_map hlocated
  have hfull : eat? .closeBracket start = none := by
    refine eat?_eq_none fun hhead ↦ ?_
    obtain ⟨later, hclose⟩ := List.head?_eq_some_iff.mp hhead
    exact closeBracket_ne_tokens _ _ _ (hclose.symm.trans hstart)
  obtain ⟨later, final, hitems, hexpect, hfinal⟩ :=
    readItems_of_map (by decide) hfirst hothers hstart
  refine ⟨final, ?_, hfinal⟩
  simp [readPrimary, readTuple, hfull, hitems, hexpect, bind, Except.bind, pure, Except.pure]

theorem reads_shape {fields : List FieldPhrase}
    (hfields : ∀ field ∈ fields, Reads (readField union) fieldFollow field.tokens field.tree) :
    Reads (readPrimary union) primaryFollow (PrimaryPhrase.shape fields).tokens
      (PrimaryPhrase.shape fields).tree := by
  intro located rest hlocated _
  rw [PrimaryPhrase.tokens, FieldPhrase.allTokens_eq, List.cons_append] at hlocated
  obtain ⟨offset, start, rfl, hstart⟩ := exists_cons_of_map hlocated
  obtain ⟨final, hread, hfinal⟩ := reads_readFields hfields hstart (by simp [Avoids])
  refine ⟨final, ?_, hfinal⟩
  simp [readPrimary, hread, FieldPhrase.trees_eq, bind, Except.bind, pure, Except.pure]

theorem reads_parenthesized {inner : UnionPhrase}
    (hinner : Reads union unionFollow inner.tokens inner.tree) :
    Reads (readPrimary union) primaryFollow (PrimaryPhrase.parenthesized inner).tokens
      (PrimaryPhrase.parenthesized inner).tree := by
  intro located rest hlocated _
  simp only [PrimaryPhrase.tokens, List.cons_append, List.append_assoc, List.nil_append]
    at hlocated
  obtain ⟨offset, start, rfl, hstart⟩ := exists_cons_of_map hlocated
  obtain ⟨later, hunion, hlater⟩ := hinner hstart
    (avoids_cons_of_ne (by simp [unionFollow, suffixedFollow, primaryFollow]))
  obtain ⟨final, hexpect, hfinal⟩ := expect_of_map hlater
  refine ⟨final, ?_, hfinal⟩
  simp [readPrimary, hunion, hexpect, bind, Except.bind, pure, Except.pure]

theorem reads_text (union : Reader TypeExpr) (value : String) :
    Reads (readPrimary union) primaryFollow (PrimaryPhrase.text value).tokens
      (PrimaryPhrase.text value).tree := by
  intro located rest hlocated _
  obtain ⟨offset, later, rfl, hlater⟩ := exists_cons_of_map hlocated
  exact ⟨later, rfl, hlater⟩

theorem reads_number (union : Reader TypeExpr) (spelling : String) :
    Reads (readPrimary union) primaryFollow (PrimaryPhrase.number spelling).tokens
      (PrimaryPhrase.number spelling).tree := by
  intro located rest hlocated _
  obtain ⟨offset, later, rfl, hlater⟩ := exists_cons_of_map hlocated
  exact ⟨later, rfl, hlater⟩

end

theorem reads_readSuffixed {union : Reader TypeExpr} {primary : PrimaryPhrase} {suffixes : ℕ}
    (hroom : suffixes ≤ room)
    (hprimary : Reads (readPrimary union) primaryFollow primary.tokens primary.tree) :
    Reads (readSuffixed room union) suffixedFollow (SuffixedPhrase.mk primary suffixes).tokens
      (SuffixedPhrase.mk primary suffixes).tree := by
  intro located rest hlocated hrest
  rw [SuffixedPhrase.tokens, List.append_assoc] at hlocated
  obtain ⟨start, hread, hstart⟩ := hprimary hlocated (hrest.suffixes suffixes)
  obtain ⟨later, hsuffixes, hlater⟩ :=
    reads_readSuffixes hroom primary.tree hstart hrest.brackets
  refine ⟨later, ?_, hlater⟩
  simp [readSuffixed, hread, hsuffixes, bind, Except.bind]

theorem ofMembers_trees (bar : Bool) (first : SuffixedPhrase) (others : List SuffixedPhrase) :
    ofMembers (first.tree :: others.map SuffixedPhrase.tree) =
      (UnionPhrase.mk bar first others).tree := by
  cases others with
  | nil => rfl
  | cons second others => rw [UnionPhrase.tree, SuffixedPhrase.trees_eq]; rfl

theorem reads_readUnion {bar : Bool} {first : SuffixedPhrase} {others : List SuffixedPhrase}
    (hfirst : Reads (readSuffixed room (readUnion room)) suffixedFollow first.tokens first.tree)
    (hothers : ∀ other ∈ others,
      Reads (readSuffixed room (readUnion room)) suffixedFollow other.tokens other.tree) :
    Reads (readUnion (room + 1)) unionFollow (UnionPhrase.mk bar first others).tokens
      (UnionPhrase.mk bar first others).tree := by
  intro located rest hlocated hrest
  rw [UnionPhrase.tokens, SuffixedPhrase.laterTokens_eq, List.append_assoc] at hlocated
  have hnoBar : (first.tokens ++ laterTokens .bar SuffixedPhrase.tokens others ++ rest).head? ≠
      some (.mark .bar) := by
    obtain ⟨token, tail, htokens, hopens⟩ := first.tokens_eq_cons
    rw [htokens]
    exact fun h ↦ ne_mark_of_opensType hopens rfl (Option.some.inj h)
  obtain ⟨-, hstart⟩ := eat?_written hlocated hnoBar
  obtain ⟨later, hitems, hlater⟩ := reads_readItems (by decide) hfirst hothers hstart hrest
  refine ⟨later, ?_, hlater⟩
  simp [readUnion, hitems, ofMembers_trees bar, bind, Except.bind, pure, Except.pure]

/-! ## Phrases with room enough -/

theorem around_mem_depths (phrase : SuffixedPhrase) (around : ℕ) :
    around ∈ phrase.depths around := by
  obtain ⟨primary, suffixes⟩ := phrase
  simp

/-- The points of a phrase that lies inside so many unions leave the room unexceeded. -/
def Fits (depths : ℕ → List ℕ) (around room : ℕ) : Prop :=
  ∀ depth ∈ depths around, depth ≤ around + room

theorem exists_room_of_fits {bar : Bool} {first : SuffixedPhrase} {others : List SuffixedPhrase}
    (h : Fits (UnionPhrase.mk bar first others).depths around room) :
    ∃ inner, room = inner + 1 ∧ Fits first.depths (around + 1) inner ∧
      ∀ other ∈ others, Fits other.depths (around + 1) inner := by
  have hfirst : ∀ depth ∈ first.depths (around + 1), depth ≤ around + room :=
    fun depth hdepth ↦ h depth (List.mem_append_left _ hdepth)
  have hothers : ∀ other ∈ others, ∀ depth ∈ other.depths (around + 1), depth ≤ around + room :=
    fun other hother depth hdepth ↦ h depth
      (List.mem_append_right _ (SuffixedPhrase.mem_allDepths.mpr ⟨other, hother, hdepth⟩))
  have hroom := hfirst _ (around_mem_depths first (around + 1))
  obtain ⟨inner, rfl⟩ : ∃ inner, room = inner + 1 := ⟨room - 1, by omega⟩
  have hsum : around + (inner + 1) = around + 1 + inner := by omega
  rw [hsum] at hfirst hothers
  exact ⟨inner, rfl, hfirst, hothers⟩

theorem fits_of_fits_suffixed {primary : PrimaryPhrase} {suffixes : ℕ}
    (h : Fits (SuffixedPhrase.mk primary suffixes).depths around room) :
    suffixes ≤ room ∧ Fits primary.depths around room := by
  refine ⟨?_, fun depth hdepth ↦ h depth (List.mem_append_left _ hdepth)⟩
  have hlast : around + suffixes ∈ (SuffixedPhrase.mk primary suffixes).depths around := by
    simp
  have hle := h _ hlast
  omega

theorem fits_items {first : UnionPhrase} {others : List UnionPhrase}
    (h : ∀ depth ∈ first.depths around ++ UnionPhrase.allDepths around others,
      depth ≤ around + room) :
    Fits first.depths around room ∧ ∀ other ∈ others, Fits other.depths around room :=
  ⟨fun depth hdepth ↦ h depth (List.mem_append_left _ hdepth), fun other hother depth hdepth ↦
    h depth (List.mem_append_right _ (UnionPhrase.mem_allDepths.mpr ⟨other, hother, hdepth⟩))⟩

theorem reads_phrase (phrase : UnionPhrase) : ∀ {around room : ℕ}, Fits phrase.depths around room →
    Reads (readUnion room) unionFollow phrase.tokens phrase.tree := by
  refine @UnionPhrase.induct
    (fun phrase ↦ ∀ {around room : ℕ}, Fits phrase.depths around room →
      Reads (readUnion room) unionFollow phrase.tokens phrase.tree)
    (fun phrase ↦ ∀ {around room : ℕ}, Fits phrase.depths around room →
      Reads (readSuffixed room (readUnion room)) suffixedFollow phrase.tokens phrase.tree)
    (fun phrase ↦ ∀ {around room : ℕ}, Fits phrase.depths around room →
      Reads (readPrimary (readUnion room)) primaryFollow phrase.tokens phrase.tree)
    (fun field ↦ ∀ {around room : ℕ}, Fits field.depths around room →
      Reads (readField (readUnion room)) fieldFollow field.tokens field.tree)
    ?union ?suffixed (fun name _ _ _ ↦ reads_word _ name) ?container (fun _ ↦ reads_emptyTuple _)
    ?tuple ?shape ?parenthesized (fun value _ _ _ ↦ reads_text _ value)
    (fun spelling _ _ _ ↦ reads_number _ spelling) ?field phrase
  case union =>
    intro bar first others hfirst hothers around room h
    obtain ⟨inner, rfl, hfits, hothersFit⟩ := exists_room_of_fits h
    exact reads_readUnion (hfirst hfits) fun other hother ↦
      hothers other hother (hothersFit other hother)
  case suffixed =>
    intro primary suffixes hprimary around room h
    obtain ⟨hroom, hfits⟩ := fits_of_fits_suffixed h
    exact reads_readSuffixed hroom (hprimary hfits)
  case container =>
    intro name first others hfirst hothers around room h
    obtain ⟨hfits, hothersFit⟩ := fits_items h
    exact reads_container (hfirst hfits)
      (fun other hother ↦ hothers other hother (hothersFit other hother)) name
  case tuple =>
    intro first others hfirst hothers around room h
    obtain ⟨hfits, hothersFit⟩ := fits_items h
    exact reads_tuple (hfirst hfits) fun other hother ↦
      hothers other hother (hothersFit other hother)
  case shape =>
    intro fields hfields around room h
    refine reads_shape fun field hfield ↦ hfields field hfield fun depth hdepth ↦ h depth ?_
    exact FieldPhrase.mem_allDepths.mpr ⟨field, hfield, hdepth⟩
  case parenthesized =>
    intro inner hinner around room h
    exact reads_parenthesized (hinner h)
  case field =>
    intro quoted name optional type ending htype around room h
    exact reads_readField (htype h) quoted name optional ending

end Wiring.TypeExpr
