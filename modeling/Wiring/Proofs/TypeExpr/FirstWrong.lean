import Wiring.Proofs.TypeExpr.Beginnings

/-!
# Faults are reported where they are

A text that is no type expression is refused at the first token that is out of place: what stands
before it begins some phrase, and with that token it begins none.
-/

namespace Wiring.TypeExpr

variable {located : List Located}

theorem byteLength_eq (cs : List Char) : byteLength cs = (String.ofList cs).utf8ByteSize := by
  induction cs with
  | nil => rfl
  | cons c cs ih =>
      rw [String.ofList_cons, String.utf8ByteSize_append, String.utf8ByteSize_singleton, ← ih]
      rfl

theorem byteLength_append (cs ds : List Char) :
    byteLength (cs ++ ds) = byteLength cs + byteLength ds := by
  rw [byteLength_eq, byteLength_eq, byteLength_eq, String.ofList_append,
    String.utf8ByteSize_append]

theorem byteLength_toList (text : String) : byteLength text.toList = text.utf8ByteSize := by
  rw [byteLength_eq, String.ofList_toList]

theorem isValid_of_split {text : String} {skipped rest : List Char}
    (h : text.toList = skipped ++ rest) :
    (String.Pos.Raw.mk (byteLength skipped)).IsValid text := by
  refine String.Pos.Raw.isValid_iff_exists_append.mpr
    ⟨String.ofList skipped, String.ofList rest, ?_, ?_⟩
  · rw [← String.ofList_append, ← h, String.ofList_toList]
  · exact String.Pos.Raw.ext (byteLength_eq skipped)

/-- Behind characters that are skipped, at the offset, stand the character and those after it. -/
def Stands (text : List Char) (start offset : ℕ) (c : Char) (after : List Char) : Prop :=
  ∃ skipped, text = skipped ++ c :: after ∧ offset = start + byteLength skipped

theorem Stands.append {before text after : List Char} {start offset : ℕ} {c : Char}
    (h : Stands text (start + byteLength before) offset c after) :
    Stands (before ++ text) start offset c after := by
  obtain ⟨skipped, rfl, rfl⟩ := h
  exact ⟨before ++ skipped, (List.append_assoc _ _ _).symm, by
    rw [byteLength_append, Nat.add_assoc]⟩

theorem stands_here (c : Char) (after : List Char) (start : ℕ) :
    Stands (c :: after) start start c after :=
  ⟨[], rfl, rfl⟩

/-- The tokens are what is read at their offsets, and where nothing can be read is the offset of the
problem. -/
def TokensStand (text : List Char) (start : ℕ) : Except (ℕ × LexicalProblem) (List Located) → Prop
  | .ok located => ∀ one ∈ located, ∃ c after length, Stands text start one.offset c after ∧
      Token.read? c after = .ok (one.token, length)
  | .error (offset, problem) => ∃ c after, Stands text start offset c after ∧
      Token.read? c after = .error problem

theorem TokensStand.append (before : List Char) {text : List Char} {start : ℕ}
    {outcome : Except (ℕ × LexicalProblem) (List Located)}
    (h : TokensStand text (start + byteLength before) outcome) :
    TokensStand (before ++ text) start outcome := by
  cases outcome with
  | ok located =>
      intro one hone
      obtain ⟨c, after, length, hstands, hread⟩ := h one hone
      exact ⟨c, after, length, hstands.append, hread⟩
  | error fault =>
      obtain ⟨c, after, hstands, hread⟩ := h
      exact ⟨c, after, hstands.append, hread⟩

theorem tokensStand (start : ℕ) (text : List Char) :
    TokensStand text start (tokens start text) := by
  fun_induction tokens start text with
  | case1 => exact List.forall_mem_nil _
  | case2 start c rest _ ih => exact TokensStand.append [c] ih
  | case3 start c rest _ problem hread => exact ⟨c, rest, stands_here c rest start, hread⟩
  | case4 start c rest _ token length hread taken problem hlater ih =>
      have hall := ih.append taken
      rwa [hlater, List.cons_append, List.take_append_drop] at hall
  | case5 start c rest _ token length hread taken later hlater ih =>
      have hall := ih.append taken
      rw [hlater, List.cons_append, List.take_append_drop] at hall
      exact List.forall_mem_cons.mpr ⟨⟨c, rest, length, stands_here c rest start, hread⟩, hall⟩

/-! ## Faults of the reader -/

theorem exists_room (phrase : UnionPhrase) :
    ∃ room, nestingLimit ≤ room ∧ Fits phrase.depths 0 room := by
  refine ⟨nestingLimit + (phrase.depths 0).sum, Nat.le_add_right _ _, fun depth hdepth ↦ ?_⟩
  have hle : depth ≤ (phrase.depths 0).sum := List.le_sum_of_mem hdepth
  omega

/-- Whatever stands behind the tokens that have been passed, with room enough a phrase is read to
its end. -/
theorem exists_read {phrase : UnionPhrase} {passed : List Located} {behind : List Token}
    (h : phrase.tokens = passed.map Located.token ++ behind) :
    ∃ room, nestingLimit ≤ room ∧ ∃ rest, rest.map Located.token = behind ∧
      readUnion room (passed ++ rest) = .ok (phrase.tree, []) := by
  obtain ⟨room, hroom, hfits⟩ := exists_room phrase
  have hrest : (behind.map (Located.mk 0)).map Located.token = behind := by
    rw [List.map_map]
    exact List.map_id behind
  have hsplit : (passed ++ behind.map (Located.mk 0)).map Located.token = phrase.tokens ++ [] := by
    rw [List.map_append, hrest, h, List.append_nil]
  obtain ⟨later, hread, hlater⟩ := reads_phrase phrase hfits hsplit (by simp [Avoids])
  rw [List.map_eq_nil_iff.mp hlater] at hread
  exact ⟨room, hroom, _, hrest, hread⟩

/-- The tokens that have been passed begin a phrase, and no phrase goes on with the next token or,
where there is none, ends here. -/
def StopsAt (passed rest : List Located) : Prop :=
  (∃ phrase : UnionPhrase, passed.map Located.token <+: phrase.tokens) ∧
    ∀ (phrase : UnionPhrase) (behind : List Token),
      phrase.tokens = passed.map Located.token ++ behind → behind.head? ≠ nextToken rest

theorem stopsAt_of_readUnion {wanted : Wanted} {passed rest : List Located}
    (h : readUnion nestingLimit (passed ++ rest) = .error (.expected wanted rest)) :
    StopsAt passed rest := by
  obtain ⟨phrase, before, htokens, hbegins⟩ := stopsWithin_readUnion nestingLimit h
  refine ⟨⟨phrase, ?_⟩, fun other behind hother hnext ↦ ?_⟩
  · rw [List.map_append] at htokens
    rwa [List.append_cancel_right htokens]
  · -- With room for the phrase the reader would still stop where it has stopped.
    obtain ⟨room, hroom, rest', hbehind, hread⟩ := exists_read hother
    rw [← hbehind] at hnext
    rw [(foretells_readUnion hroom).refused h hnext.symm] at hread
    cases hread

theorem stopsAt_of_next {expr : TypeExpr} {passed rest : List Located}
    (h : readUnion nestingLimit (passed ++ rest) = .ok (expr, rest)) (hrest : rest ≠ []) :
    StopsAt passed rest := by
  obtain ⟨phrase, -, -, htokens⟩ := yields_readUnion nestingLimit h
  refine ⟨⟨phrase, ?_⟩, fun other behind hother hnext ↦ ?_⟩
  · rw [List.map_append] at htokens
    rw [List.append_cancel_right htokens]
  · obtain ⟨room, hroom, rest', hbehind, hread⟩ := exists_read hother
    rw [← hbehind] at hnext
    rw [(foretells_readUnion hroom).read h hnext.symm] at hread
    obtain rfl : rest' = [] := (Prod.mk.inj (Except.ok.inj hread)).2
    obtain ⟨first, later, rfl⟩ := List.exists_cons_of_ne_nil hrest
    cases hnext

theorem suffix_of_ofTokens {fault : ParseFault} (h : ofTokens located = .error fault) :
    fault.rest <:+ located := by
  have hforetells := foretells_readUnion (Nat.le_refl nestingLimit)
  rcases bind_eq_error.mp h with hunion | ⟨⟨expr, rest⟩, hread, h⟩
  · exact hforetells.suffix_of_error hunion
  · dsimp only at h
    split at h
    · cases h
    · obtain rfl := Except.error.inj h
      exact hforetells.suffix_of_ok hread

theorem stopsAt_of_ofTokens {wanted : Wanted} {passed rest : List Located}
    (h : ofTokens (passed ++ rest) = .error (.expected wanted rest)) : StopsAt passed rest := by
  rcases bind_eq_error.mp h with hunion | ⟨⟨expr, rest'⟩, hread, h⟩
  · exact stopsAt_of_readUnion hunion
  · dsimp only at h
    split at h
    · cases h
    · next hrest =>
        obtain ⟨-, rfl⟩ := ParseFault.expected.inj (Except.error.inj h)
        exact stopsAt_of_next hread hrest

/-- The token is what is read at its offset. -/
def StartsIn (text : String) (one : Located) : Prop :=
  ∃ c after length, Stands text.toList 0 one.offset c after ∧
    Token.read? c after = .ok (one.token, length)

theorem startsIn_of_tokens {text : String} (h : tokens 0 text.toList = .ok located) :
    ∀ one ∈ located, StartsIn text one := by
  have hstand := tokensStand 0 text.toList
  rwa [h] at hstand

theorem Stands.isValid {text : String} {offset : ℕ} {c : Char} {after : List Char}
    (h : Stands text.toList 0 offset c after) : (String.Pos.Raw.mk offset).IsValid text := by
  obtain ⟨skipped, hsplit, rfl⟩ := h
  rw [Nat.zero_add]
  exact isValid_of_split hsplit

/-- Where the tokens that are left begin; with none left that is the end of the text. -/
def offsetIn (text : String) (rest : List Located) : ℕ :=
  (rest.head?.map Located.offset).getD text.utf8ByteSize

theorem offsetIn_nil (text : String) : offsetIn text [] = byteLength text.toList :=
  (byteLength_toList text).symm

theorem isValid_offsetIn {text : String} {rest : List Located}
    (h : tokens 0 text.toList = .ok located) (hrest : rest <:+ located) :
    (String.Pos.Raw.mk (offsetIn text rest)).IsValid text := by
  cases rest with
  | nil =>
      rw [offsetIn_nil]
      exact isValid_of_split (List.append_nil _).symm
  | cons one later =>
      obtain ⟨c, after, length, hstands, -⟩ :=
        startsIn_of_tokens h one (hrest.subset List.mem_cons_self)
      exact hstands.isValid

theorem toError_tooDeep (expression : String) (rest : List Located) :
    ParseFault.toError expression (.tooDeep rest) =
      .typeSyntax expression (offsetIn expression rest) .tooDeep := by
  cases rest with
  | nil => rw [offsetIn_nil]; rfl
  | cons one later => rfl

theorem toError_expected (expression : String) (wanted : Wanted) (rest : List Located) :
    ParseFault.toError expression (.expected wanted rest) =
      .typeSyntax expression (offsetIn expression rest) (.expected wanted (nextToken rest)) := by
  cases rest with
  | nil => rw [offsetIn_nil]; rfl
  | cons one later => rfl

theorem parse_of_tokens_error {expression : String} {offset : ℕ} {problem : LexicalProblem}
    (h : tokens 0 expression.toList = .error (offset, problem)) :
    parse expression = .error (.typeSyntax expression offset (.lexical problem)) := by
  rw [parse, h]

theorem exists_fault_of_parse {expression : String} {error : Error}
    (htokens : tokens 0 expression.toList = .ok located) (h : parse expression = .error error) :
    ∃ fault, ofTokens located = .error fault ∧ error = ParseFault.toError expression fault := by
  rw [parse, htokens] at h
  dsimp only at h
  cases hread : ofTokens located with
  | ok expr =>
      rw [hread] at h
      cases h
  | error fault =>
      rw [hread] at h
      exact ⟨fault, rfl, (Except.error.inj h).symm⟩

/-- The fault for which a text is refused has a position in the text.  Unless the nesting is too
deep, a text that falls into tokens is refused at the first of them that no phrase has there, or at
its end, if the tokens begin a phrase but are none. -/
theorem parse_fault {expression : String} {error : Error} (h : parse expression = .error error) :
    ∃ offset problem, error = .typeSyntax expression offset problem ∧
      offset ≤ expression.utf8ByteSize ∧ (String.Pos.Raw.mk offset).IsValid expression ∧
      ∀ located, tokens 0 expression.toList = .ok located → problem ≠ .tooDeep →
        ∃ passed rest wanted, located = passed ++ rest ∧
          (∀ one ∈ located, StartsIn expression one) ∧
          offset = offsetIn expression rest ∧ problem = .expected wanted (nextToken rest) ∧
          StopsAt passed rest := by
  cases htokens : tokens 0 expression.toList with
  | error fault =>
      obtain ⟨offset, problem⟩ := fault
      rw [parse_of_tokens_error htokens] at h
      obtain rfl := Except.error.inj h
      have hstand := tokensStand 0 expression.toList
      rw [htokens] at hstand
      obtain ⟨c, after, hstands, -⟩ := hstand
      exact ⟨offset, _, rfl, hstands.isValid.le_utf8ByteSize, hstands.isValid, nofun⟩
  | ok located =>
      obtain ⟨fault, hfault, rfl⟩ := exists_fault_of_parse htokens h
      have hvalid := isValid_offsetIn htokens (suffix_of_ofTokens hfault)
      cases fault with
      | tooDeep rest =>
          exact ⟨_, _, toError_tooDeep expression rest, hvalid.le_utf8ByteSize, hvalid,
            fun _ _ hproblem ↦ absurd rfl hproblem⟩
      | expected wanted rest =>
          refine ⟨_, _, toError_expected expression wanted rest, hvalid.le_utf8ByteSize, hvalid,
            fun located' hlocated _ ↦ ?_⟩
          obtain rfl := Except.ok.inj hlocated
          obtain ⟨passed, rfl⟩ := suffix_of_ofTokens hfault
          exact ⟨passed, rest, wanted, rfl, startsIn_of_tokens htokens, rfl, rfl,
            stopsAt_of_ofTokens hfault⟩

set_option maxRecDepth 2000 in
/-- Behind the bar stands no member. -/
theorem parse_unfinished_union :
    parse "{a:[B|]}" =
        .error (.typeSyntax "{a:[B|]}" 6 (.expected .type (some (.mark .closeBracket)))) ∧
      ∃ passed rest, tokens 0 "{a:[B|]}".toList = .ok (passed ++ rest) ∧
        offsetIn "{a:[B|]}" rest = 6 ∧ nextToken rest = some (.mark .closeBracket) ∧
        StopsAt passed rest := by
  have htokens : tokens 0 "{a:[B|]}".toList =
      .ok [⟨0, .mark .openBrace⟩, ⟨1, .word "a"⟩, ⟨2, .mark .colon⟩, ⟨3, .mark .openBracket⟩,
        ⟨4, .word "B"⟩, ⟨5, .mark .bar⟩, ⟨6, .mark .closeBracket⟩, ⟨7, .mark .closeBrace⟩] := by
    cbv
  have hparse : parse "{a:[B|]}" =
      .error (.typeSyntax "{a:[B|]}" 6 (.expected .type (some (.mark .closeBracket)))) := by
    rw [parse, htokens]
    rfl
  obtain ⟨_, _, ⟨⟩, -, -, hstops⟩ := parse_fault hparse
  obtain ⟨passed, rest, wanted, hsplit, -, hoffset, hproblem, hstops⟩ := hstops _ htokens (by simp)
  exact ⟨hparse, passed, rest, hsplit ▸ htokens, hoffset.symm,
    (SyntaxProblem.expected.inj hproblem).2.symm, hstops⟩

end Wiring.TypeExpr
