import Wiring.Proofs.TypeExpr.Lookahead

/-!
# What a reader has passed is the beginning of a phrase

Where a reader misses something, the parts that it has read are phrases, and the part in which it
stopped is the beginning of one.  Put together in the way of the grammar they are the beginning of a
phrase again: what is still to come can always be added.
-/

namespace Wiring.TypeExpr

variable {α β γ : Type} {located later rest : List Located} {mark : Mark} {room : ℕ}

/-- The tokens in front of the rest begin a phrase. -/
def PassesBeginning (tokens : β → List Token) (located rest : List Located) : Prop :=
  ∃ phrase passed, located.map Located.token = passed ++ rest.map Located.token ∧
    passed <+: tokens phrase

/-- Where the reader looks for something in vain, the tokens it has passed begin a phrase. -/
def StopsWithin (reader : Reader α) (tokens : β → List Token) : Prop :=
  ∀ ⦃located : List Located⦄ ⦃wanted : Wanted⦄ ⦃rest : List Located⦄,
    reader located = .error (.expected wanted rest) → PassesBeginning tokens located rest

section

variable {tokens : β → List Token} {tokens' : γ → List Token}

/-- Nothing has been passed. -/
theorem passesBeginning_nil (phrase : β) (located : List Located) :
    PassesBeginning tokens located located :=
  ⟨phrase, [], rfl, List.nil_prefix⟩

/-- What has been passed is the beginning of a part behind others. -/
theorem PassesBeginning.behind (before : List Token) (h : PassesBeginning tokens' later rest)
    (hlocated : located.map Located.token = before ++ later.map Located.token) (whole : γ → β)
    (hwhole : ∀ part, before ++ tokens' part <+: tokens (whole part)) :
    PassesBeginning tokens located rest := by
  obtain ⟨part, passed, hsplit, hbegins⟩ := h
  refine ⟨whole part, before ++ passed, ?_, ?_⟩
  · rw [hlocated, hsplit, List.append_assoc]
  · exact ((List.prefix_append_right_inj before).mpr hbegins).trans (hwhole part)

theorem PassesBeginning.of_part (h : PassesBeginning tokens' located rest) (whole : γ → β)
    (hwhole : ∀ part, tokens' part <+: tokens (whole part)) :
    PassesBeginning tokens located rest :=
  h.behind [] rfl whole hwhole

theorem expect_eq_error {fault : ParseFault} (h : expect mark located = .error fault) :
    fault = .expected (.mark mark) located := by
  rcases eq_cons_or_ne mark located with ⟨offset, later, rfl⟩ | hne
  · rw [expect_cons] at h
    cases h
  · rw [expect_of_ne hne] at h
    exact (Except.error.inj h).symm

/-- Everything in front of a mark has been passed, and the mark is missing. -/
theorem passesBeginning_of_expect {wanted : Wanted} (passed : List Token)
    (h : expect mark later = .error (.expected wanted rest))
    (hlocated : located.map Located.token = passed ++ later.map Located.token) (phrase : β)
    (hphrase : passed <+: tokens phrase) : PassesBeginning tokens located rest := by
  obtain ⟨-, rfl⟩ := ParseFault.expected.inj (expect_eq_error h)
  exact ⟨phrase, passed, hlocated, hphrase⟩

end

/-- A phrase to stand where any would do. -/
def UnionPhrase.sample : UnionPhrase :=
  .mk false (.mk .emptyTuple 0) []

/-- The tokens of a list of items, at least one. -/
def itemsTokens (separator : Mark) (tokens : β → List Token) (items : β × List β) : List Token :=
  tokens items.1 ++ laterTokens separator tokens items.2

theorem stopsWithin_readSeparated {separator : Mark} {item : Reader TypeExpr}
    {tokens : β → List Token} {tree : β → TypeExpr} {condition : β → Prop} (sample : β)
    (hitem : Yields item tokens tree condition) (h : StopsWithin item tokens) (rounds : ℕ) :
    StopsWithin (readSeparated separator item rounds) (itemsTokens separator tokens) := by
  intro located wanted rest hstops
  induction rounds generalizing located with
  | zero =>
      obtain ⟨-, rfl⟩ := ParseFault.expected.inj (Except.error.inj hstops)
      exact passesBeginning_nil (sample, []) located
  | succ rounds ih =>
      rcases bind_eq_error.mp hstops with hfirst | ⟨⟨_, later⟩, hread, hstops⟩
      · exact (h hfirst).of_part (fun first ↦ (first, [])) fun first ↦ List.prefix_append _ _
      · obtain ⟨first, -, -, htokens⟩ := hitem hread
        dsimp only at hstops
        split at hstops
        · cases hstops
        · next start heat =>
            rcases bind_eq_error.mp hstops with hothers | ⟨_, -, hstops⟩
            · refine (ih hothers).behind (tokens first ++ [.mark separator]) ?_
                (fun items ↦ (first, items.1 :: items.2)) fun items ↦ ?_
              · rw [htokens, eq_cons_of_eat? heat, List.append_assoc, List.singleton_append]
              · simp [itemsTokens, laterTokens]
            · cases hstops

theorem tokens_append_closing (items : UnionPhrase × List UnionPhrase) (closing : Mark) :
    items.1.tokens ++ (UnionPhrase.laterTokens items.2 ++ [.mark closing]) =
      itemsTokens .comma UnionPhrase.tokens items ++ [.mark closing] := by
  rw [UnionPhrase.laterTokens_eq, ← List.append_assoc, itemsTokens]

/-- A pair of brackets in front of further suffixes. -/
theorem stopsWithin_suffixes {element : TypeExpr} {reader next : Reader TypeExpr}
    (hbranches : Branches .openBracket reader
      (fun rest ↦ expect .closeBracket rest >>= next) fun rest ↦ .ok (element, rest))
    (h : StopsWithin next suffixTokens) : StopsWithin reader suffixTokens := by
  intro located wanted rest hstops
  rcases eq_cons_or_ne .openBracket located with ⟨offset, later, rfl⟩ | hne
  · rw [hbranches.cons] at hstops
    rcases bind_eq_error.mp hstops with hclosing | ⟨closed, hexpect, hstops⟩
    · exact passesBeginning_of_expect [.mark .openBracket] hclosing rfl 1
        ⟨[.mark .closeBracket], rfl⟩
    · refine (h hstops).behind [.mark .openBracket, .mark .closeBracket] ?_ Nat.succ
        fun suffixes ↦ List.prefix_rfl
      rw [List.map_cons, eq_cons_of_expect hexpect]
      rfl
  · rw [hbranches.of_ne hne] at hstops
    cases hstops

theorem stopsWithin_readSuffixes (room : ℕ) (element : TypeExpr) :
    StopsWithin (readSuffixes room element) suffixTokens := by
  induction room generalizing element with
  | zero =>
      apply stopsWithin_suffixes (branches_readSuffixes 0 element)
      intro located wanted rest hstops
      cases hstops
  | succ room ih =>
      apply stopsWithin_suffixes (branches_readSuffixes (room + 1) element)
      exact ih (.array element)

section

variable {union : Reader TypeExpr} (h : StopsWithin union UnionPhrase.tokens)

include h

theorem stopsWithin_readField : StopsWithin (readField union) FieldPhrase.tokens := by
  intro located wanted rest hstops
  rw [readField] at hstops
  split at hstops
  · obtain ⟨-, rfl⟩ := ParseFault.expected.inj (Except.error.inj hstops)
    exact passesBeginning_nil (.mk false "" false UnionPhrase.sample .nothing) located
  · next name named hname =>
      obtain ⟨quoted, hquoted⟩ := exists_quoted_of_fieldName? hname
      have hoptional := eq_written_of_eat? .question named
      rcases bind_eq_error.mp hstops with hcolon | ⟨start, hexpect, hstops⟩
      · refine passesBeginning_of_expect
          (fieldNameToken quoted name :: written (eat? .question named).isSome .question) hcolon ?_
          (.mk quoted name (eat? .question named).isSome UnionPhrase.sample .nothing) ?_
        · rw [hquoted, hoptional, List.cons_append]
        · exact List.cons_prefix_cons.mpr ⟨rfl, List.prefix_append _ _⟩
      · rcases bind_eq_error.mp hstops with htype | ⟨_, -, hstops⟩
        · refine (h htype).behind (fieldNameToken quoted name ::
              (written (eat? .question named).isSome .question ++ [.mark .colon])) ?_
            (fun type ↦ .mk quoted name (eat? .question named).isSome type .nothing) fun type ↦ ?_
          · rw [hquoted, hoptional, eq_cons_of_expect hexpect]
            simp
          · simp [FieldEnd.tokens]
        · cases hstops

variable (hunion : Yields union UnionPhrase.tokens UnionPhrase.tree
  fun phrase ↦ FitsAnywhere phrase.depths room)

include hunion

theorem stopsWithin_readFieldsWithin (rounds : ℕ) :
    StopsWithin (readFieldsWithin union rounds) fun fields : List FieldPhrase ↦
      FieldPhrase.allTokens fields ++ [.mark .closeBrace] := by
  intro located wanted rest hstops
  induction rounds generalizing located with
  | zero =>
      obtain ⟨-, rfl⟩ := ParseFault.expected.inj (Except.error.inj hstops)
      exact passesBeginning_nil [] located
  | succ rounds ih =>
      rw [readFieldsWithin] at hstops
      split at hstops
      · cases hstops
      · rcases bind_eq_error.mp hstops with hfirst | ⟨⟨_, later⟩, hread, hstops⟩
        · refine (stopsWithin_readField h hfirst).of_part (fun field ↦ [field]) fun field ↦ ?_
          simp only [FieldPhrase.allTokens, List.append_assoc]
          exact List.prefix_append _ _
        · obtain ⟨field, -, -, htokens⟩ := yields_readField hunion hread
          rcases bind_eq_error.mp hstops with hothers | ⟨_, -, hstops⟩
          · refine (ih hothers).behind field.tokens htokens (List.cons field) fun fields ↦ ?_
            simp only [FieldPhrase.allTokens, List.append_assoc]
            exact List.prefix_rfl
          · cases hstops

theorem stopsWithin_readItemsTo (closing : Mark) :
    StopsWithin (readItemsTo closing union) fun items ↦
      itemsTokens .comma UnionPhrase.tokens items ++ [.mark closing] := by
  intro located wanted rest hstops
  rcases bind_eq_error.mp hstops with hitems | ⟨⟨_, later⟩, hread, hstops⟩
  · exact (stopsWithin_readSeparated UnionPhrase.sample hunion h _ hitems).of_part id
      fun items ↦ List.prefix_append _ _
  · obtain ⟨first, others, -, -, -, htokens⟩ := exists_of_readSeparated hunion hread
    rcases bind_eq_error.mp hstops with hclosing | ⟨_, -, hstops⟩
    · rw [← List.append_assoc] at htokens
      exact passesBeginning_of_expect _ hclosing htokens (first, others) (List.prefix_append _ _)
    · cases hstops

theorem stopsWithin_readPrimary : StopsWithin (readPrimary union) PrimaryPhrase.tokens := by
  intro located wanted rest hstops
  rw [readPrimary.eq_def] at hstops
  split at hstops
  case h_1 offset name after =>
    rcases bind_eq_error.mp hstops with harguments | ⟨_, -, hstops⟩
    · rcases eq_cons_or_ne .less after with ⟨offset, start, rfl⟩ | hne
      · rw [(branches_readArguments union).cons] at harguments
        refine (stopsWithin_readItemsTo h hunion .greater harguments).behind
          [.word name, .mark .less] rfl (fun items ↦ .container name items.1 items.2)
          fun items ↦ ?_
        rw [PrimaryPhrase.tokens, tokens_append_closing]
        exact List.prefix_rfl
      · rw [(branches_readArguments union).of_ne hne] at harguments
        cases harguments
    · cases hstops
  case h_2 => cases hstops
  case h_3 => cases hstops
  case h_4 offset after =>
    rcases bind_eq_error.mp hstops with htuple | ⟨_, -, hstops⟩
    · rcases eq_cons_or_ne .closeBracket after with ⟨offset, start, rfl⟩ | hne
      · cases htuple
      · rw [(branches_readTuple union).of_ne hne] at htuple
        refine (stopsWithin_readItemsTo h hunion .closeBracket htuple).behind
          [.mark .openBracket] rfl (fun items ↦ .tuple items.1 items.2) fun items ↦ ?_
        rw [PrimaryPhrase.tokens, tokens_append_closing]
        exact List.prefix_rfl
    · cases hstops
  case h_5 offset after =>
    rcases bind_eq_error.mp hstops with hshape | ⟨_, -, hstops⟩
    · exact (stopsWithin_readFieldsWithin h hunion _ hshape).behind [.mark .openBrace] rfl
        PrimaryPhrase.shape fun _ ↦ List.prefix_rfl
    · cases hstops
  case h_6 offset after =>
    rcases bind_eq_error.mp hstops with hinner | ⟨⟨_, later⟩, hread, hstops⟩
    · exact (h hinner).behind [.mark .openParen] rfl PrimaryPhrase.parenthesized fun inner ↦
        ⟨[.mark .closeParen], rfl⟩
    · obtain ⟨inner, -, -, htokens⟩ := hunion hread
      rcases bind_eq_error.mp hstops with hclosing | ⟨_, -, hstops⟩
      · exact passesBeginning_of_expect (.mark .openParen :: inner.tokens) hclosing
          (congrArg (List.cons _) htokens) (.parenthesized inner) ⟨[.mark .closeParen], rfl⟩
      · cases hstops
  case h_7 =>
    obtain ⟨-, rfl⟩ := ParseFault.expected.inj (Except.error.inj hstops)
    exact passesBeginning_nil .emptyTuple located

theorem stopsWithin_readSuffixed :
    StopsWithin (readSuffixed room union) SuffixedPhrase.tokens := by
  intro located wanted rest hstops
  rcases bind_eq_error.mp hstops with hprimary | ⟨⟨element, later⟩, hread, hstops⟩
  · exact (stopsWithin_readPrimary h hunion hprimary).of_part (fun primary ↦ .mk primary 0)
      fun primary ↦ List.prefix_append _ _
  · obtain ⟨primary, -, -, htokens⟩ := yields_readPrimary hunion hread
    exact (stopsWithin_readSuffixes room element hstops).behind primary.tokens htokens
      (SuffixedPhrase.mk primary) fun _ ↦ List.prefix_rfl

end

theorem stopsWithin_readUnion (room : ℕ) : StopsWithin (readUnion room) UnionPhrase.tokens := by
  induction room with
  | zero =>
      intro located wanted rest hstops
      cases hstops
  | succ room ih =>
      intro located wanted rest hstops
      rcases bind_eq_error.mp hstops with hmembers | ⟨_, -, hstops⟩
      · have hread := stopsWithin_readSeparated (.mk .emptyTuple 0)
          (yields_readSuffixed (yields_readUnion room))
          (stopsWithin_readSuffixed ih (yields_readUnion room)) _ hmembers
        refine hread.behind (written (eat? .bar located).isSome .bar)
          (eq_written_of_eat? .bar located)
          (fun members ↦ .mk (eat? .bar located).isSome members.1 members.2) fun members ↦ ?_
        rw [UnionPhrase.tokens, SuffixedPhrase.laterTokens_eq]
        exact List.prefix_rfl
      · cases hstops

end Wiring.TypeExpr
