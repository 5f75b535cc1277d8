import Mathlib
import Wiring.Proofs.Lists
import Wiring.Proofs.TypeExpr.Complete
import Wiring.TypeExpr.Scope

/-!
# Which texts are type expressions

Whatever a reader takes is a phrase that fits into the room it had.  With the converse, a text is
read exactly when its tokens have a derivation that is nested no deeper than the limit, and the
tree is that of the only derivation there is.
-/

namespace Wiring.TypeExpr

/-- What the reader takes are the tokens of a phrase that the condition holds of, and the value is
the tree of the phrase. -/
def Yields {α β : Type} (reader : Reader α) (tokens : β → List Token) (tree : β → α)
    (condition : β → Prop) : Prop :=
  ∀ ⦃located : List Located⦄ ⦃a : α⦄ ⦃later : List Located⦄, reader located = .ok (a, later) →
    ∃ phrase, condition phrase ∧ tree phrase = a ∧
      located.map Located.token = tokens phrase ++ later.map Located.token

variable {located later : List Located} {room : ℕ}

theorem eq_cons_of_eat? {mark : Mark} (h : eat? mark located = some later) :
    located.map Located.token = .mark mark :: later.map Located.token := by
  rw [eat?.eq_def] at h
  split at h
  · next found rest =>
      split_ifs at h with hfound
      rw [hfound, Option.some.inj h]
      rfl
  · simp at h

theorem eq_cons_of_expect {mark : Mark} (h : expect mark located = .ok later) :
    located.map Located.token = .mark mark :: later.map Located.token := by
  rw [expect.eq_def] at h
  split at h
  · next found rest =>
      split_ifs at h with hfound
      rw [hfound, Except.ok.inj h]
      rfl
  · simp at h

theorem eq_written_of_eat? (mark : Mark) (located : List Located) :
    located.map Located.token = written (eat? mark located).isSome mark ++
      ((eat? mark located).getD located).map Located.token := by
  cases heat : eat? mark located with
  | none => rfl
  | some later => exact eq_cons_of_eat? heat

theorem exists_of_readSeparated {α : Type} {separator : Mark} {item : Reader TypeExpr}
    {tokens : α → List Token} {tree : α → TypeExpr} {condition : α → Prop}
    (hitem : Yields item tokens tree condition) {rounds : ℕ} {trees : List TypeExpr}
    (h : readSeparated separator item rounds located = .ok (trees, later)) :
    ∃ first others, condition first ∧ (∀ other ∈ others, condition other) ∧
      trees = tree first :: others.map tree ∧
      located.map Located.token =
        tokens first ++ (laterTokens separator tokens others ++ later.map Located.token) := by
  induction rounds generalizing located trees with
  | zero => simp [readSeparated] at h
  | succ rounds ih =>
      obtain ⟨⟨_, start⟩, hread, h⟩ := bind_eq_ok.mp h
      obtain ⟨first, hfirst, rfl, htokens⟩ := hitem hread
      dsimp only at h
      split at h
      · obtain ⟨rfl, rfl⟩ := Prod.mk.inj (Except.ok.inj h)
        exact ⟨first, [], hfirst, List.forall_mem_nil _, rfl, htokens⟩
      · next next heat =>
          obtain ⟨⟨_, final⟩, hrest, h⟩ := bind_eq_ok.mp h
          obtain ⟨rfl, rfl⟩ := Prod.mk.inj (Except.ok.inj h)
          obtain ⟨second, others, hsecond, hothers, rfl, hlater⟩ := ih hrest
          refine ⟨first, second :: others, hfirst, List.forall_mem_cons.mpr ⟨hsecond, hothers⟩,
            rfl, ?_⟩
          rw [htokens, eq_cons_of_eat? heat, hlater, laterTokens, laterTokens, List.flatMap_cons,
            List.cons_append, List.cons_append, List.append_assoc]

theorem exists_suffixes_of_readSuffixes {element tree : TypeExpr}
    (h : readSuffixes room element located = .ok (tree, later)) :
    ∃ suffixes ≤ room, tree = suffixTree suffixes element ∧
      located.map Located.token = suffixTokens suffixes ++ later.map Located.token := by
  induction room generalizing element located with
  | zero =>
      rw [readSuffixes] at h
      split at h
      · obtain ⟨rfl, rfl⟩ := Prod.mk.inj (Except.ok.inj h)
        exact ⟨0, Nat.le_refl _, rfl, rfl⟩
      · obtain ⟨_, -, h⟩ := bind_eq_ok.mp h
        cases h
  | succ room ih =>
      rw [readSuffixes] at h
      split at h
      · obtain ⟨rfl, rfl⟩ := Prod.mk.inj (Except.ok.inj h)
        exact ⟨0, Nat.zero_le _, rfl, rfl⟩
      · next opened heat =>
          obtain ⟨closed, hexpect, h⟩ := bind_eq_ok.mp h
          obtain ⟨suffixes, hroom, htree, htokens⟩ := ih h
          refine ⟨suffixes + 1, Nat.succ_le_succ hroom, htree, ?_⟩
          rw [eq_cons_of_eat? heat, eq_cons_of_expect hexpect, htokens]
          rfl

/-- Inside however many unions, the points leave the room unexceeded. -/
def FitsAnywhere (depths : ℕ → List ℕ) (room : ℕ) : Prop :=
  ∀ around, Fits depths around room

theorem fitsAnywhere_nil (room : ℕ) : FitsAnywhere (fun _ ↦ []) room :=
  fun _ ↦ List.forall_mem_nil _

theorem fitsAnywhere_items {first : UnionPhrase} {others : List UnionPhrase}
    (hfirst : FitsAnywhere first.depths room)
    (hothers : ∀ other ∈ others, FitsAnywhere other.depths room) :
    FitsAnywhere (fun around ↦ first.depths around ++ UnionPhrase.allDepths around others)
      room := by
  intro around depth hdepth
  rcases List.mem_append.mp hdepth with hdepth | hdepth
  · exact hfirst around depth hdepth
  · obtain ⟨other, hother, hdepth⟩ := UnionPhrase.mem_allDepths.mp hdepth
    exact hothers other hother around depth hdepth

theorem fitsAnywhere_suffixed {primary : PrimaryPhrase} {suffixes : ℕ} (hroom : suffixes ≤ room)
    (hprimary : FitsAnywhere primary.depths room) :
    FitsAnywhere (SuffixedPhrase.mk primary suffixes).depths room := by
  intro around depth hdepth
  rcases List.mem_append.mp hdepth with hdepth | hdepth
  · exact hprimary around depth hdepth
  · obtain ⟨before, hbefore, rfl⟩ := List.mem_map.mp hdepth
    have hlast := List.mem_range.mp hbefore
    omega

theorem fitsAnywhere_union {bar : Bool} {first : SuffixedPhrase} {others : List SuffixedPhrase}
    (hfirst : FitsAnywhere first.depths room)
    (hothers : ∀ other ∈ others, FitsAnywhere other.depths room) :
    FitsAnywhere (UnionPhrase.mk bar first others).depths (room + 1) := by
  intro around depth hdepth
  have hle : depth ≤ around + 1 + room := by
    rcases List.mem_append.mp hdepth with hdepth | hdepth
    · exact hfirst (around + 1) depth hdepth
    · obtain ⟨other, hother, hdepth⟩ := SuffixedPhrase.mem_allDepths.mp hdepth
      exact hothers other hother (around + 1) depth hdepth
  omega

theorem exists_ending (located : List Located) : ∃ ending : FieldEnd,
    located.map Located.token = ending.tokens ++ (skipSeparator located).map Located.token := by
  rw [skipSeparator]
  split
  · next later heat => exact ⟨.semicolon, eq_cons_of_eat? heat⟩
  · cases heat : eat? .comma located with
    | none => exact ⟨.nothing, rfl⟩
    | some later => exact ⟨.comma, eq_cons_of_eat? heat⟩

theorem exists_quoted_of_fieldName? {name : String}
    (h : fieldName? located = some (name, later)) :
    ∃ quoted, located.map Located.token =
      fieldNameToken quoted name :: later.map Located.token := by
  rw [fieldName?.eq_def] at h
  split at h
  · obtain ⟨rfl, rfl⟩ := Prod.mk.inj (Option.some.inj h)
    exact ⟨false, rfl⟩
  · obtain ⟨rfl, rfl⟩ := Prod.mk.inj (Option.some.inj h)
    exact ⟨true, rfl⟩
  · simp at h

section

variable {union : Reader TypeExpr}

theorem yields_readField (hunion : Yields union UnionPhrase.tokens UnionPhrase.tree
      fun phrase ↦ FitsAnywhere phrase.depths room) :
    Yields (readField union) FieldPhrase.tokens FieldPhrase.tree
      fun field ↦ FitsAnywhere field.depths room := by
  intro located tree later h
  rw [readField] at h
  split at h
  · cases h
  · next name named hname =>
      obtain ⟨start, hexpect, h⟩ := bind_eq_ok.mp h
      obtain ⟨⟨_, final⟩, htype, h⟩ := bind_eq_ok.mp h
      obtain ⟨rfl, rfl⟩ := Prod.mk.inj (Except.ok.inj h)
      obtain ⟨type, hfits, rfl, htokens⟩ := hunion htype
      obtain ⟨quoted, hquoted⟩ := exists_quoted_of_fieldName? hname
      obtain ⟨ending, hending⟩ := exists_ending final
      refine ⟨.mk quoted name (eat? .question named).isSome type ending, hfits, rfl, ?_⟩
      rw [hquoted, eq_written_of_eat? .question named, eq_cons_of_expect hexpect, htokens, hending,
        FieldPhrase.tokens]
      simp

theorem exists_of_readFieldsWithin (hunion : Yields union UnionPhrase.tokens UnionPhrase.tree
      fun phrase ↦ FitsAnywhere phrase.depths room) {rounds : ℕ} {trees : List FieldExpr}
    (h : readFieldsWithin union rounds located = .ok (trees, later)) :
    ∃ fields : List FieldPhrase, (∀ field ∈ fields, FitsAnywhere field.depths room) ∧
      trees = fields.map FieldPhrase.tree ∧ located.map Located.token =
        fields.flatMap FieldPhrase.tokens ++ .mark .closeBrace :: later.map Located.token := by
  induction rounds generalizing located trees with
  | zero => simp [readFieldsWithin] at h
  | succ rounds ih =>
      rw [readFieldsWithin] at h
      split at h
      · next heat =>
          obtain ⟨rfl, rfl⟩ := Prod.mk.inj (Except.ok.inj h)
          exact ⟨[], List.forall_mem_nil _, rfl, eq_cons_of_eat? heat⟩
      · obtain ⟨⟨_, start⟩, hfirst, h⟩ := bind_eq_ok.mp h
        obtain ⟨⟨_, final⟩, hothers, h⟩ := bind_eq_ok.mp h
        obtain ⟨rfl, rfl⟩ := Prod.mk.inj (Except.ok.inj h)
        obtain ⟨field, hfits, rfl, htokens⟩ := yields_readField hunion hfirst
        obtain ⟨fields, hfields, rfl, hrest⟩ := ih hothers
        refine ⟨field :: fields, List.forall_mem_cons.mpr ⟨hfits, hfields⟩, rfl, ?_⟩
        rw [htokens, hrest, List.flatMap_cons, List.append_assoc]

/-- Items in front of a closing mark. -/
theorem exists_of_readItems {closing : Mark} (hunion : Yields union UnionPhrase.tokens
      UnionPhrase.tree fun phrase ↦ FitsAnywhere phrase.depths room) {trees : List TypeExpr}
    {final : List Located} (hread : readItems .comma union located = .ok (trees, final))
    (hexpect : expect closing final = .ok later) :
    ∃ (first : UnionPhrase) (others : List UnionPhrase),
      FitsAnywhere (fun around ↦ first.depths around ++ UnionPhrase.allDepths around others) room ∧
      trees = first.tree :: UnionPhrase.trees others ∧
      located.map Located.token = first.tokens ++
        (UnionPhrase.laterTokens others ++ .mark closing :: later.map Located.token) := by
  obtain ⟨first, others, hfirst, hothers, rfl, htokens⟩ := exists_of_readSeparated hunion hread
  refine ⟨first, others, fitsAnywhere_items hfirst hothers, ?_, ?_⟩
  · rw [UnionPhrase.trees_eq]
  · rw [htokens, eq_cons_of_expect hexpect, UnionPhrase.laterTokens_eq]

theorem yields_readPrimary (hunion : Yields union UnionPhrase.tokens UnionPhrase.tree
      fun phrase ↦ FitsAnywhere phrase.depths room) :
    Yields (readPrimary union) PrimaryPhrase.tokens PrimaryPhrase.tree
      fun phrase ↦ FitsAnywhere phrase.depths room := by
  intro located tree later h
  rw [readPrimary.eq_def] at h
  split at h
  case h_1 offset name rest =>
    obtain ⟨⟨_, final⟩, hread, h⟩ := bind_eq_ok.mp h
    obtain ⟨rfl, rfl⟩ := Prod.mk.inj (Except.ok.inj h)
    rw [readArguments] at hread
    split at hread
    · obtain ⟨rfl, rfl⟩ := Prod.mk.inj (Except.ok.inj hread)
      exact ⟨.word name, fitsAnywhere_nil room, rfl, rfl⟩
    · next start heat =>
        obtain ⟨⟨_, stop⟩, hitems, hread⟩ := bind_eq_ok.mp hread
        obtain ⟨closed, hexpect, hread⟩ := bind_eq_ok.mp hread
        obtain ⟨rfl, rfl⟩ := Prod.mk.inj (Except.ok.inj hread)
        obtain ⟨first, others, hfits, rfl, htokens⟩ := exists_of_readItems hunion hitems hexpect
        refine ⟨.container name first others, hfits, rfl, ?_⟩
        rw [List.map_cons, eq_cons_of_eat? heat, htokens]
        simp
  case h_2 offset value rest =>
    obtain ⟨rfl, rfl⟩ := Prod.mk.inj (Except.ok.inj h)
    exact ⟨.text value, fitsAnywhere_nil room, rfl, rfl⟩
  case h_3 offset spelling rest =>
    obtain ⟨rfl, rfl⟩ := Prod.mk.inj (Except.ok.inj h)
    exact ⟨.number spelling, fitsAnywhere_nil room, rfl, rfl⟩
  case h_4 offset rest =>
    obtain ⟨⟨_, final⟩, hread, h⟩ := bind_eq_ok.mp h
    obtain ⟨rfl, rfl⟩ := Prod.mk.inj (Except.ok.inj h)
    rw [readTuple] at hread
    split at hread
    · next heat =>
        obtain ⟨rfl, rfl⟩ := Prod.mk.inj (Except.ok.inj hread)
        exact ⟨.emptyTuple, fitsAnywhere_nil room, rfl,
          congrArg (List.cons _) (eq_cons_of_eat? heat)⟩
    · obtain ⟨⟨_, stop⟩, hitems, hread⟩ := bind_eq_ok.mp hread
      obtain ⟨closed, hexpect, hread⟩ := bind_eq_ok.mp hread
      obtain ⟨rfl, rfl⟩ := Prod.mk.inj (Except.ok.inj hread)
      obtain ⟨first, others, hfits, rfl, htokens⟩ := exists_of_readItems hunion hitems hexpect
      refine ⟨.tuple first others, hfits, rfl, ?_⟩
      rw [List.map_cons, htokens]
      simp
  case h_5 offset rest =>
    obtain ⟨⟨_, final⟩, hread, h⟩ := bind_eq_ok.mp h
    obtain ⟨rfl, rfl⟩ := Prod.mk.inj (Except.ok.inj h)
    obtain ⟨fields, hfields, rfl, htokens⟩ := exists_of_readFieldsWithin hunion hread
    refine ⟨.shape fields, fun around depth hdepth ↦ ?_, ?_, ?_⟩
    · obtain ⟨field, hfield, hdepth⟩ := FieldPhrase.mem_allDepths.mp hdepth
      exact hfields field hfield around depth hdepth
    · rw [PrimaryPhrase.tree, FieldPhrase.trees_eq]
    · rw [List.map_cons, htokens, PrimaryPhrase.tokens, FieldPhrase.allTokens_eq]
      simp
  case h_6 offset rest =>
    obtain ⟨⟨_, final⟩, hread, h⟩ := bind_eq_ok.mp h
    obtain ⟨closed, hexpect, h⟩ := bind_eq_ok.mp h
    obtain ⟨rfl, rfl⟩ := Prod.mk.inj (Except.ok.inj h)
    obtain ⟨inner, hfits, rfl, htokens⟩ := hunion hread
    refine ⟨.parenthesized inner, hfits, rfl, ?_⟩
    rw [List.map_cons, htokens, eq_cons_of_expect hexpect]
    simp
  case h_7 => cases h

theorem yields_readSuffixed (hunion : Yields union UnionPhrase.tokens UnionPhrase.tree
      fun phrase ↦ FitsAnywhere phrase.depths room) :
    Yields (readSuffixed room union) SuffixedPhrase.tokens SuffixedPhrase.tree
      fun phrase ↦ FitsAnywhere phrase.depths room := by
  intro located tree later h
  obtain ⟨⟨_, start⟩, hprimary, h⟩ := bind_eq_ok.mp h
  obtain ⟨primary, hfits, rfl, htokens⟩ := yields_readPrimary hunion hprimary
  obtain ⟨suffixes, hroom, rfl, hsuffixes⟩ := exists_suffixes_of_readSuffixes h
  refine ⟨.mk primary suffixes, fitsAnywhere_suffixed hroom hfits, rfl, ?_⟩
  rw [htokens, hsuffixes, SuffixedPhrase.tokens, List.append_assoc]

end

theorem yields_readUnion (room : ℕ) : Yields (readUnion room) UnionPhrase.tokens UnionPhrase.tree
    fun phrase ↦ FitsAnywhere phrase.depths room := by
  induction room with
  | zero =>
      intro located tree later h
      cases h
  | succ room ih =>
      intro located tree later h
      obtain ⟨⟨_, final⟩, hread, h⟩ := bind_eq_ok.mp h
      obtain ⟨rfl, rfl⟩ := Prod.mk.inj (Except.ok.inj h)
      obtain ⟨first, others, hfirst, hothers, rfl, htokens⟩ :=
        exists_of_readSeparated (yields_readSuffixed ih) hread
      refine ⟨.mk (eat? .bar located).isSome first others, fitsAnywhere_union hfirst hothers,
        (ofMembers_trees _ first others).symm, ?_⟩
      rw [eq_written_of_eat? .bar located, htokens, UnionPhrase.tokens,
        SuffixedPhrase.laterTokens_eq]
      simp

/-! ## Whole texts -/

theorem ofTokens_eq_ok_iff {expr : TypeExpr} : ofTokens located = .ok expr ↔
    ∃ phrase : UnionPhrase, phrase.tokens = located.map Located.token ∧
      (∀ depth ∈ phrase.depths 0, depth ≤ nestingLimit) ∧ phrase.tree = expr := by
  constructor
  · intro h
    obtain ⟨⟨_, rest⟩, hread, h⟩ := bind_eq_ok.mp h
    dsimp only at h
    split at h
    · obtain ⟨phrase, hfits, htree, htokens⟩ := yields_readUnion nestingLimit hread
      refine ⟨phrase, by simpa using htokens.symm, fun depth hdepth ↦ ?_,
        htree.trans (Except.ok.inj h)⟩
      simpa using hfits 0 depth hdepth
    · cases h
  · rintro ⟨phrase, htokens, hdepths, rfl⟩
    have hfits : Fits phrase.depths 0 nestingLimit := fun depth hdepth ↦ by
      simpa using hdepths depth hdepth
    obtain ⟨later, hread, hlater⟩ :=
      reads_phrase phrase hfits (by simpa using htokens.symm) (by simp [Avoids] : Avoids _ [])
    rw [List.map_eq_nil_iff] at hlater
    simp [ofTokens, hread, hlater, bind, Except.bind, pure, Except.pure]

/-- A text that falls into tokens is read exactly when these have a derivation which stays within
the limit.  No other derivation has the same tokens, and what is read is its tree. -/
theorem parse_eq_ok_iff {expression : String} (h : tokens 0 expression.toList = .ok located) :
    (∀ expr, parse expression = .ok expr ↔
      ∃ phrase : UnionPhrase, phrase.tokens = located.map Located.token ∧
        (∀ depth ∈ phrase.depths 0, depth ≤ nestingLimit) ∧ phrase.tree = expr) ∧
    ∀ phrase other : UnionPhrase, phrase.tokens = located.map Located.token →
      other.tokens = located.map Located.token → phrase = other := by
  refine ⟨fun expr ↦ ?_, fun phrase other hphrase hother ↦
    UnionPhrase.eq_of_tokens_eq (hphrase.trans hother.symm)⟩
  have hparse : parse expression = (ofTokens located).mapError (ParseFault.toError expression) := by
    rw [parse, h]
  rw [hparse, ← ofTokens_eq_ok_iff]
  cases ofTokens located <;> simp [Except.mapError]

set_option maxRecDepth 2000 in
/-- The bar in front and the parentheses leave no trace. -/
theorem parse_barred_union :
    ∃ located, tokens 0 "|[A][]|{x?:(B)}".toList = .ok located ∧
      parse "|[A][]|{x?:(B)}" =
        .ok (.union [.array (.tuple [.named "A" []]), .shape [⟨"x", true, .named "B" []⟩]]) := by
  have htokens : tokens 0 "|[A][]|{x?:(B)}".toList =
      .ok [⟨0, .mark .bar⟩, ⟨1, .mark .openBracket⟩, ⟨2, .word "A"⟩, ⟨3, .mark .closeBracket⟩,
        ⟨4, .mark .openBracket⟩, ⟨5, .mark .closeBracket⟩, ⟨6, .mark .bar⟩,
        ⟨7, .mark .openBrace⟩, ⟨8, .word "x"⟩, ⟨9, .mark .question⟩, ⟨10, .mark .colon⟩,
        ⟨11, .mark .openParen⟩, ⟨12, .word "B"⟩, ⟨13, .mark .closeParen⟩,
        ⟨14, .mark .closeBrace⟩] := by
    cbv
  let bare (name : String) : UnionPhrase := .mk false (.mk (.word name) 0) []
  let phrase : UnionPhrase := .mk true (.mk (.tuple (bare "A") []) 1)
    [.mk (.shape [.mk false "x" true (.mk false (.mk (.parenthesized (bare "B")) 0) [])
      .nothing]) 0]
  exact ⟨_, htokens, ((parse_eq_ok_iff htokens).1 _).mpr ⟨phrase, rfl, by decide, rfl⟩⟩

end Wiring.TypeExpr
