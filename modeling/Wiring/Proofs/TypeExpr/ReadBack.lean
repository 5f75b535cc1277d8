import Wiring.Graph.Outline
import Wiring.Proofs.Lists
import Wiring.Proofs.TypeExpr.Spelled
import Wiring.Proofs.Types.Corresponding
import Wiring.Proofs.Types.Indexed

/-!
# Displayed types read back as themselves

The text of a type is itself a type expression: the names in it mean what they stand for, unions
stand in parentheses where suffixes would divide them, and parts, members and fields are listed in
the order in which they are interned.  So the expression is lowered to the type, and as all of its
parts are in the table already nothing is added.
-/

namespace Wiring

open TypeTable Lowering

namespace TypeTable

variable {table : TypeTable} {id : TypeId} {depth : ℕ}

theorem displayStep_congr (h : table.PartsDescend) (id : TypeId) {part other : TypeId → String}
    (hparts : ∀ below < id, other below = part below) :
    table.displayStep other (table.get id) = table.displayStep part (table.get id) :=
  (Grows.refl table).displayStep_eq (fun _ hpart ↦ h.lt_size hpart) fun below hbelow ↦
    hparts below (h id below hbelow)

theorem displayWithin_eq_display (h : table.PartsDescend) (hdepth : id < depth) :
    table.displayWithin depth id = table.display id := by
  induction id using Nat.strongRecOn generalizing depth with
  | _ id ih =>
      obtain ⟨depth, rfl⟩ := Nat.exists_eq_succ_of_ne_zero (Nat.ne_zero_of_lt hdepth)
      refine displayStep_congr h id fun below hbelow ↦ ?_
      rw [ih below hbelow (hbelow.trans_le (Nat.le_of_lt_succ hdepth)), ih below hbelow hbelow]

/-- The text of a type, by the texts of its parts. -/
theorem display_eq_step (h : table.PartsDescend) (id : TypeId) :
    table.display id = table.displayStep table.display (table.get id) :=
  displayStep_congr h id fun _ hbelow ↦ displayWithin_eq_display h hbelow

end TypeTable

theorem toList_quote {value : String} (h : Text.IsPlain value) :
    (Text.quote value).toList = '"' :: (value.toList ++ ['"']) := by
  have hchars : value.toList.flatMap (fun c ↦ (Text.escapeChar c).toList) = value.toList := by
    rw [List.flatMap_congr fun c hc ↦ by rw [h c hc, Char.toString, String.toList_singleton]]
    exact List.flatMap_singleton' value.toList
  simp [Text.quote, String.toList_join, List.flatMap_map, hchars]

theorem spelledBy_quote {value : String} (h : Text.IsPlain value) :
    (Token.text value).SpelledBy (Text.quote value).toList := by
  have hquote : ∀ c ∈ value.toList, (c != '"') = true := by
    rintro c hc
    rw [bne_iff_ne]
    rintro rfl
    exact absurd (h _ hc) (by decide)
  have htake : (value.toList ++ ['"']).takeWhile (· != '"') = value.toList := by
    rw [List.takeWhile_append_of_pos hquote]
    simp
  rw [toList_quote h]
  refine ⟨'"', value.toList ++ ['"'], rfl, by decide, ?_⟩
  have hmark : Mark.ofChar? '"' = none := rfl
  rw [Token.read?, hmark]
  simp [htake]

namespace Scope

/-- The text of the type falls into the tokens, and the tree is lowered to the type itself. -/
structure Shows (scope : Scope) (table : TypeTable) (id : TypeId) (read : List Token)
    (tree : TypeExpr) : Prop where
  text : FallsInto (table.display id).toList read
  means : (scope.lower tree).run table = (.ok id, table)

/-- The meaning that a scope gives to bare names. -/
abbrev bareMeaning (scope : Scope) : String → Lowering TypeId :=
  scope.lowerName scope.aliases.length []

variable {scope : Scope} {table : TypeTable} {id : TypeId} {ids : List TypeId}

theorem run_intern_get (h : table.Built) (hid : id < table.size) {descriptor : Descriptor}
    (hget : table.get id = descriptor) : (intern descriptor).run table = (.ok id, table) := by
  have hintern := h.intern_get hid
  rw [hget] at hintern
  change ((.ok (table.intern descriptor).1, (table.intern descriptor).2) :
    Except Error TypeId × TypeTable) = _
  rw [hintern]

theorem run_bare (h : table.Built) (hid : id < table.size) {name : String}
    (hunaliased : scope.definition? name = none)
    (hget : table.get id = scope.bareDescriptor name) :
    (scope.lower (.named name [])).run table = (.ok id, table) := by
  have hplain : scope.lower (.named name []) = scope.plain name := by
    rw [lower, lowerWith, lowerName_of_plain hunaliased]
  rw [hplain]
  exact run_intern_get h hid hget

/-- The expression is lowered to a type that the table holds. -/
def Means (scope : Scope) (table : TypeTable) (id : TypeId) (expr : TypeExpr) : Prop :=
  (scope.lower expr).run table = (.ok id, table)

theorem run_lowerAll {exprs : List TypeExpr} (h : List.Forall₂ (scope.Means table) ids exprs) :
    (scope.lowerAllWith scope.bareMeaning exprs).run table = (.ok ids, table) := by
  induction h with
  | nil => rfl
  | cons hfirst _ ih =>
      rw [lowerAllWith]
      exact (run_bind_of_ok hfirst).trans (run_bind_of_ok ih)

/-- A list of types is shown by a list of phrases with marks between them. -/
theorem exists_items {α : Type} {tokens : α → List Token} {tree : α → TypeExpr} {separator : String}
    {mark : Mark} (hseparator : Separates separator mark) (hne : ids ≠ [])
    (h : ∀ id ∈ ids, ∃ phrase, scope.Shows table id (tokens phrase) (tree phrase)) :
    ∃ first others,
      FallsInto (separator.intercalate (ids.map table.display)).toList
        (tokens first ++ laterTokens mark tokens others) ∧
      List.Forall₂ (scope.Means table) ids (tree first :: others.map tree) := by
  obtain ⟨id, ids, rfl⟩ := List.exists_cons_of_ne_nil hne
  obtain ⟨hfirst, hothers⟩ := List.forall_mem_cons.mp h
  obtain ⟨first, hfirst⟩ := hfirst
  obtain ⟨others, hothers⟩ := exists_forall₂ hothers
  refine ⟨first, others, ?_, .cons hfirst.means ?_⟩
  · refine hseparator.intercalate hfirst.text (List.forall₂_map_left_iff.mpr ?_)
    exact hothers.imp fun _ _ hshows ↦ hshows.text
  · exact List.forall₂_map_right_iff.mpr (hothers.imp fun _ _ hshows ↦ hshows.means)

theorem run_lowerFields {fields : List Field} {exprs : List FieldExpr}
    (h : List.Forall₂ (fun field expr ↦ ∃ type, expr = ⟨field.name, false, type⟩ ∧
      (scope.lower type).run table = (.ok field.type, table)) fields exprs) :
    (scope.lowerFieldsWith scope.bareMeaning exprs).run table = (.ok fields, table) := by
  induction h with
  | nil => rfl
  | cons hfirst _ ih =>
      obtain ⟨type, rfl, hrun⟩ := hfirst
      rw [lowerFieldsWith]
      refine (run_bind_of_ok ?_).trans (run_bind_of_ok ih)
      rw [lowerFieldWith]
      exact run_bind_of_ok hrun

/-- The text of a field. -/
def fieldText (table : TypeTable) (field : Field) : String :=
  field.name ++ ": " ++ table.display field.type

theorem fallsInto_field {field : Field} {type : UnionPhrase}
    (hname : (Token.word field.name).IsLexed)
    (htype : FallsInto (table.display field.type).toList type.tokens) (ending : FieldEnd)
    {rest : List Char} {more : List Token} (hrest : FallsInto rest (ending.tokens ++ more))
    (hstops : Stops rest) :
    FallsInto ((fieldText table field).toList ++ rest)
      ((FieldPhrase.mk false field.name false type ending).tokens ++ more) := by
  have hfield := hname.fallsInto.append (((htype.append hrest hstops).blank).mark .colon)
    (stops_mark .colon _)
  have htext : (fieldText table field).toList ++ rest =
      field.name.toList ++
        Mark.colon.char :: ' ' :: ((table.display field.type).toList ++ rest) := by
    simp [fieldText, Mark.char]
  rw [htext]
  simpa [fieldNameToken, written] using hfield

/-- Fields are shown by phrases with semicolons between them. -/
theorem exists_fields {fields : List Field} (hne : fields ≠ [])
    (hnames : ∀ field ∈ fields, (Token.word field.name).IsLexed)
    (h : ∀ field ∈ fields, ∃ phrase : UnionPhrase,
      scope.Shows table field.type phrase.tokens phrase.tree) :
    ∃ phrases : List FieldPhrase,
      FallsInto ("; ".intercalate (fields.map (fieldText table))).toList
        (FieldPhrase.allTokens phrases) ∧
      List.Forall₂ (fun field expr ↦ ∃ type, expr = ⟨field.name, false, type⟩ ∧
        (scope.lower type).run table = (.ok field.type, table)) fields
        (FieldPhrase.trees phrases) := by
  induction fields with
  | nil => exact absurd rfl hne
  | cons field fields ih =>
      obtain ⟨hname, hnames⟩ := List.forall_mem_cons.mp hnames
      obtain ⟨⟨type, htype⟩, hfields⟩ := List.forall_mem_cons.mp h
      cases fields with
      | nil =>
          refine ⟨[.mk false field.name false type .nothing], ?_,
            .cons ⟨type.tree, rfl, htype.means⟩ .nil⟩
          have hone := fallsInto_field hname htype.text .nothing fallsInto_nil stops_nil
          rw [List.append_nil] at hone
          exact hone
      | cons second others =>
          obtain ⟨phrases, htext, hmeans⟩ := ih (List.cons_ne_nil _ _) hnames hfields
          refine ⟨.mk false field.name false type .semicolon :: phrases, ?_,
            .cons ⟨type.tree, rfl, htype.means⟩ hmeans⟩
          have hone := fallsInto_field hname htype.text .semicolon (htext.blank.mark .semicolon)
            (stops_mark .semicolon _)
          have hlist :
              ("; ".intercalate ((field :: second :: others).map (fieldText table))).toList =
              (fieldText table field).toList ++ Mark.semicolon.char :: ' ' ::
                ("; ".intercalate ((second :: others).map (fieldText table))).toList := by
            simp [Mark.char]
          rw [hlist]
          exact hone

/-! ## Types of each kind -/

theorem Shows.suffixed {primary : PrimaryPhrase}
    (h : scope.Shows table id primary.tokens primary.tree) :
    scope.Shows table id (SuffixedPhrase.mk primary 0).tokens
      (SuffixedPhrase.mk primary 0).tree := by
  simpa [suffixTokens, suffixTree] using h

theorem Shows.union {phrase : SuffixedPhrase} (h : scope.Shows table id phrase.tokens phrase.tree) :
    scope.Shows table id (UnionPhrase.mk false phrase []).tokens
      (UnionPhrase.mk false phrase []).tree := by
  simpa [written, SuffixedPhrase.laterTokens, UnionPhrase.tree] using h

/-- The type is shown by a phrase, and a type that is no union by one that may stand in a union or
take a suffix. -/
structure Shown (scope : Scope) (table : TypeTable) (id : TypeId) : Prop where
  asUnion : ∃ phrase : UnionPhrase, scope.Shows table id phrase.tokens phrase.tree
  asWhole (whole : (table.get id).isUnion = false) :
    ∃ phrase : SuffixedPhrase, scope.Shows table id phrase.tokens phrase.tree

theorem shown_of_suffixed
    (h : ∃ phrase : SuffixedPhrase, scope.Shows table id phrase.tokens phrase.tree) :
    scope.Shown table id where
  asUnion := h.imp' (.mk false · []) fun _ ↦ .union
  asWhole _ := h

theorem shown_of_primary
    (h : ∃ phrase : PrimaryPhrase, scope.Shows table id phrase.tokens phrase.tree) :
    scope.Shown table id :=
  shown_of_suffixed (h.imp' (.mk · 0) fun _ ↦ .suffixed)

/-- Names that stand for a type without parts. -/
theorem shows_word (htable : table.Built) (hid : id < table.size) {name : String}
    (hword : (Token.word name).IsLexed) (htext : table.display id = name)
    (hunaliased : scope.definition? name = none)
    (hget : table.get id = scope.bareDescriptor name) :
    scope.Shows table id (PrimaryPhrase.word name).tokens (PrimaryPhrase.word name).tree where
  text := htext ▸ hword.fallsInto
  means := run_bare htable hid hunaliased hget

/-- Reserved names cannot be taken by aliases. -/
theorem shows_reserved (htable : table.Built) (hid : id < table.size) {name : String}
    (hword : (Token.word name).IsLexed) (htext : table.display id = name)
    (hreserved : reserved? name = some (table.get id)) :
    scope.Shows table id (PrimaryPhrase.word name).tokens (PrimaryPhrase.word name).tree := by
  refine shows_word htable hid hword htext ?_ ?_
  · rw [definition?, hreserved]
    rfl
  · rw [bareDescriptor, hreserved]
    rfl

theorem isLexed_keyword (kind : Primitive) : (Token.word kind.keyword).IsLexed := by
  cases kind <;> refine ⟨_, _, rfl, by decide +kernel, ?_⟩ <;> rfl

theorem isLexed_any : (Token.word "any").IsLexed :=
  ⟨'a', ['n', 'y'], rfl, by decide +kernel, rfl⟩

theorem reserved?_keyword (kind : Primitive) : reserved? kind.keyword = some (.primitive kind) := by
  cases kind <;> rfl

theorem shown_container (htable : table.Built) (hid : id < table.size) {name : String}
    (hget : table.get id = .generic name ids)
    (hnamed : (Descriptor.generic name ids).IsNamed scope)
    (h : ∀ part ∈ ids, scope.Shown table part) : scope.Shown table id := by
  obtain ⟨hword, hunaliased, hne, hcontainer⟩ := hnamed
  obtain ⟨first, others, htext, hmeans⟩ := exists_items separates_comma hne fun part hpart ↦
    (h part hpart).asUnion
  refine shown_of_primary ⟨.container name first others, ?_, ?_⟩
  · have hdisplay : (table.display id).toList = name.toList ++ Mark.less.char ::
        ((", ".intercalate (ids.map table.display)).toList ++ [Mark.greater.char]) := by
      rw [display_eq_step htable.partsDescend, hget, displayStep]
      · simp [Mark.char]
      · exact hne
    rw [hdisplay, PrimaryPhrase.tokens, UnionPhrase.laterTokens_eq, ← List.append_assoc]
    exact hword.fallsInto.append ((htext.append (fallsInto_nil.mark .greater)
      (stops_mark .greater _)).mark .less) (stops_mark .less _)
  · have halias : (scope.alias? name).isSome = false := by rw [hunaliased]; rfl
    rw [PrimaryPhrase.tree, UnionPhrase.trees_eq, lower, lowerWith, if_neg (by simp [halias])]
    cases hmeans with
    | cons hfirst hothers =>
        refine (run_bind_of_ok hfirst).trans ((run_bind_of_ok (run_lowerAll hothers)).trans ?_)
        exact run_intern_get htable hid (hget.trans hcontainer.symm)

theorem shown_tuple (htable : table.Built) (hid : id < table.size)
    (hget : table.get id = .tuple ids)
    (h : ∀ part ∈ ids, scope.Shown table part) : scope.Shown table id := by
  have hdisplay : (table.display id).toList = Mark.openBracket.char ::
      ((", ".intercalate (ids.map table.display)).toList ++ [Mark.closeBracket.char]) := by
    rw [display_eq_step htable.partsDescend, hget, displayStep]
    simp [Mark.char]
  by_cases hne : ids = []
  · subst hne
    refine shown_of_primary ⟨.emptyTuple, ?_, ?_⟩
    · rw [hdisplay]
      exact (fallsInto_nil.mark .closeBracket).mark .openBracket
    · exact run_intern_get htable hid hget
  · obtain ⟨first, others, htext, hmeans⟩ := exists_items separates_comma hne fun part hpart ↦
    (h part hpart).asUnion
    refine shown_of_primary ⟨.tuple first others, ?_, ?_⟩
    · rw [hdisplay, PrimaryPhrase.tokens, UnionPhrase.laterTokens_eq, ← List.append_assoc]
      exact (htext.append (fallsInto_nil.mark .closeBracket) (stops_mark .closeBracket _)).mark
        .openBracket
    · rw [PrimaryPhrase.tree, UnionPhrase.trees_eq, lower, lowerWith]
      exact (run_bind_of_ok (run_lowerAll hmeans)).trans (run_intern_get htable hid hget)

theorem shown_shape (htable : table.Built) (hid : id < table.size) {fields : List Field}
    (hget : table.get id = .shape fields)
    (hnames : ∀ field ∈ fields, (Token.word field.name).IsLexed)
    (h : ∀ part ∈ fields.map Field.type, scope.Shown table part) : scope.Shown table id := by
  by_cases hne : fields = []
  · subst hne
    refine shown_of_primary ⟨.shape [], ?_, run_intern_get htable hid hget⟩
    rw [display_eq_step htable.partsDescend, hget, displayStep]
    exact (fallsInto_nil.mark .closeBrace).mark .openBrace
  · have htypes : ∀ field ∈ fields, ∃ phrase : UnionPhrase,
        scope.Shows table field.type phrase.tokens phrase.tree := fun field hfield ↦
      (h field.type (List.mem_map_of_mem hfield)).asUnion
    obtain ⟨phrases, htext, hmeans⟩ := exists_fields hne hnames htypes
    refine shown_of_primary ⟨.shape phrases, ?_, ?_⟩
    · have hdisplay : (table.display id).toList = Mark.openBrace.char :: ' ' ::
          (("; ".intercalate (fields.map (fieldText table))).toList ++
            ' ' :: [Mark.closeBrace.char]) := by
        have hstep : table.displayStep table.display (.shape fields) =
            "\x7b " ++ "; ".intercalate (fields.map (fieldText table)) ++ " \x7d" := by
          rw [displayStep]
          · rfl
          · exact hne
        rw [display_eq_step htable.partsDescend, hget, hstep]
        simp [Mark.char]
      rw [hdisplay, PrimaryPhrase.tokens]
      exact (htext.append (fallsInto_nil.mark .closeBrace).blank (stops_blank _)).blank.mark
        .openBrace
    · rw [PrimaryPhrase.tree, lower, lowerWith]
      exact (run_bind_of_ok (run_lowerFields hmeans)).trans (run_intern_get htable hid hget)

theorem shown_literal (htable : table.Built) (hid : id < table.size) {value : Literal}
    (hget : table.get id = .literal value) (hnamed : (Descriptor.literal value).IsNamed scope)
    (hplain : (Descriptor.literal value).IsPlain) : scope.Shown table id := by
  have hdisplay : table.display id = literalText value := by
    rw [display_eq_step htable.partsDescend, hget, displayStep]
  cases value with
  | text value =>
      refine shown_of_primary ⟨.text value, ?_, run_intern_get htable hid hget⟩
      rw [hdisplay]
      exact (spelledBy_quote hplain).fallsInto
  | number spelling =>
      refine shown_of_primary ⟨.number spelling, ?_, run_intern_get htable hid hget⟩
      rw [hdisplay]
      exact hnamed.fallsInto

/-- A suffix behind a type without one, or behind a type with suffixes already. -/
theorem Shows.array (htable : table.Built) (hid : id < table.size) {element : TypeId}
    (hget : table.get id = .array element) {read : List Token} {tree : TypeExpr}
    {text : List Char} (hdisplay : (table.display id).toList = text ++ ['[', ']'])
    (htext : FallsInto text read) (hmeans : scope.Means table element tree) :
    scope.Shows table id (read ++ [.mark .openBracket, .mark .closeBracket]) (.array tree) where
  text := by
    rw [hdisplay]
    exact htext.append ((fallsInto_nil.mark .closeBracket).mark .openBracket)
      (stops_mark .openBracket _)
  means := by
    rw [lower, lowerWith]
    exact (run_bind_of_ok hmeans).trans (run_intern_get htable hid hget)

theorem suffixTokens_succ (suffixes : ℕ) : suffixTokens (suffixes + 1) =
    suffixTokens suffixes ++ [.mark .openBracket, .mark .closeBracket] := by
  induction suffixes with
  | zero => rfl
  | succ suffixes ih =>
      exact congrArg (fun more ↦ .mark .openBracket :: .mark .closeBracket :: more) ih

theorem suffixTree_succ (suffixes : ℕ) (element : TypeExpr) :
    suffixTree (suffixes + 1) element = .array (suffixTree suffixes element) := by
  induction suffixes generalizing element with
  | zero => rfl
  | succ suffixes ih => exact ih (.array element)

theorem shown_array (htable : table.Built) (hid : id < table.size) {element : TypeId}
    (hget : table.get id = .array element) (h : scope.Shown table element) :
    scope.Shown table id := by
  have hstep := display_eq_step htable.partsDescend id
  rw [hget, displayStep] at hstep
  obtain ⟨members, helement, -⟩ | ⟨helement, -⟩ := table.exists_union_or_whole element
  · -- The parentheses start over with the suffixes, whatever the union has inside.
    obtain ⟨phrase, htext, hmeans⟩ := h.asUnion
    have hdisplay : (table.display id).toList = (Mark.openParen.char ::
        ((table.display element).toList ++ [Mark.closeParen.char])) ++ ['[', ']'] := by
      rw [hstep, helement]
      simp [Mark.char]
    have hinner := (htext.append (fallsInto_nil.mark .closeParen) (stops_mark .closeParen _)).mark
      .openParen
    exact shown_of_suffixed
      ⟨.mk (.parenthesized phrase) 1, .array htable hid hget hdisplay hinner hmeans⟩
  · obtain ⟨⟨primary, suffixes⟩, htext, hmeans⟩ := h.asWhole helement
    have hdisplay : (table.display id).toList = (table.display element).toList ++ ['[', ']'] := by
      rw [hstep]
      split
      · next hunion =>
          rw [hunion] at helement
          cases helement
      · simp
    refine shown_of_suffixed ⟨.mk primary (suffixes + 1), ?_⟩
    rw [SuffixedPhrase.tokens, SuffixedPhrase.tree, suffixTokens_succ, suffixTree_succ,
      ← List.append_assoc]
    exact .array htable hid hget hdisplay htext hmeans

theorem shown_union (htable : table.Built) (hid : id < table.size)
    (hget : table.get id = .union ids) (hne : ids ≠ [])
    (h : ∀ part ∈ ids, scope.Shown table part) : scope.Shown table id := by
  have hnormal := htable.normal id
  rw [hget] at hnormal
  obtain ⟨-, hlength, hwhole⟩ := hnormal
  obtain ⟨first, others, htext, hmeans⟩ := exists_items separates_bar hne fun part hpart ↦
    (h part hpart).asWhole (hwhole part hpart)
  refine ⟨?_, fun hnone ↦ ?_⟩
  · cases others with
    | nil => exact absurd hmeans.length_eq hlength
    | cons second others =>
        refine ⟨.mk false first (second :: others), ?_, ?_⟩
        · rw [display_eq_step htable.partsDescend, hget, displayStep, UnionPhrase.tokens,
            SuffixedPhrase.laterTokens_eq]
          exact htext
        · rw [UnionPhrase.tree, SuffixedPhrase.trees_eq, lower, lowerWith]
          exact (run_bind_of_ok (run_lowerAll hmeans)).trans (run_intern_get htable hid hget)
  · rw [hget] at hnone
    cases hnone

theorem shown_bare (htable : table.Built) (hid : id < table.size) {name : String}
    (hnamed : (Token.word name).IsLexed ∧ scope.definition? name = none ∧
      scope.bareDescriptor name = table.get id) (htext : table.display id = name) :
    scope.Shown table id := by
  obtain ⟨hword, hunaliased, hbare⟩ := hnamed
  exact shown_of_primary ⟨_, shows_word htable hid hword htext hunaliased hbare.symm⟩

theorem shown_of_throughout (htable : table.Built) (hid : id < table.size)
    (h : table.Throughout (fun descriptor ↦ descriptor.IsNamed scope ∧ descriptor.IsPlain) id) :
    scope.Shown table id := by
  induction id using Nat.strongRecOn with
  | _ id ih =>
      obtain ⟨⟨hnamed, hplain⟩, hparts⟩ := everywhere_iff.mp h
      have hbelow : ∀ part ∈ (table.get id).parts, scope.Shown table part := fun part hpart ↦
        ih part (htable.partsDescend id part hpart) (htable.partsDescend.lt_size hpart)
          (hparts part hpart)
      -- Parts have smaller identities, so each kind of type is shown by what shows its parts.
      have hstep := display_eq_step htable.partsDescend id
      cases hget : table.get id with
      | dynamic =>
          rw [hget, displayStep] at hstep
          exact shown_of_primary ⟨_, shows_reserved htable hid isLexed_any hstep (hget ▸ rfl)⟩
      | primitive kind =>
          rw [hget, displayStep] at hstep
          exact shown_of_primary ⟨_, shows_reserved htable hid (isLexed_keyword kind) hstep
            (hget ▸ reserved?_keyword kind)⟩
      | literal value =>
          rw [hget] at hnamed hplain
          exact shown_literal htable hid hget hnamed hplain
      | enumeration name =>
          rw [hget, displayStep] at hstep
          rw [hget] at hnamed
          exact shown_bare htable hid (hget.symm ▸ hnamed) hstep
      | nominal name =>
          rw [hget, displayStep] at hstep
          rw [hget] at hnamed
          exact shown_bare htable hid (hget.symm ▸ hnamed) hstep
      | generic name arguments =>
          rw [hget] at hnamed hbelow
          exact shown_container htable hid hget hnamed hbelow
      | array element =>
          rw [hget] at hbelow
          exact shown_array htable hid hget (hbelow element (List.mem_singleton_self element))
      | tuple items =>
          rw [hget] at hbelow
          exact shown_tuple htable hid hget hbelow
      | shape fields =>
          rw [hget] at hplain hbelow
          exact shown_shape htable hid hget hplain hbelow
      | union members =>
          rw [hget] at hnamed hbelow
          exact shown_union htable hid hget hnamed hbelow

end Scope

/-! ## Reading back -/

namespace TypeExpr

/-- No derivation of the text is nested deeper than the limit. -/
def WithinLimit (text : String) : Prop :=
  ∀ phrase : UnionPhrase, phrase.Spells text → Fits phrase.depths 0 nestingLimit

theorem withinLimit_of_parse {text : String} {expr : TypeExpr} (h : parse text = .ok expr) :
    WithinLimit text := by
  obtain ⟨phrase, ⟨located, hlocated, htokens⟩, hfits, -⟩ := exists_phrase_of_parse h
  rintro other ⟨read, hread, hother⟩
  obtain rfl : located = read := Except.ok.inj (hlocated.symm.trans hread)
  rwa [UnionPhrase.eq_of_tokens_eq (hother.trans htokens.symm)]

/-- A text with the tokens of a phrase is read as its tree, if that stays within the limit. -/
theorem parse_eq_tree {text : String} (phrase : UnionPhrase)
    (htokens : (tokens 0 text.toList).map (List.map Located.token) = .ok phrase.tokens)
    (hdepths : ∀ depth ∈ phrase.depths 0, depth ≤ nestingLimit) :
    parse text = .ok phrase.tree := by
  cases hlocated : tokens 0 text.toList with
  | error problem =>
      rw [hlocated] at htokens
      cases htokens
  | ok located =>
      rw [hlocated] at htokens
      exact ((parse_eq_ok_iff hlocated).1 phrase.tree).mpr
        ⟨phrase, (Except.ok.inj htokens).symm, hdepths, rfl⟩

theorem parse_of_fallsInto {text : String} {phrase : UnionPhrase}
    (h : FallsInto text.toList phrase.tokens) (hlimit : WithinLimit text) :
    parse text = .ok phrase.tree := by
  obtain ⟨located, hlocated, htokens⟩ := h.tokens_eq
  have hfits := hlimit phrase ⟨located, hlocated, htokens.symm⟩
  refine parse_eq_tree phrase ?_ fun depth hdepth ↦ (hfits depth hdepth).trans_eq (Nat.zero_add _)
  rw [hlocated]
  exact congrArg Except.ok htokens

end TypeExpr

namespace Scope

variable {scope : Scope} {table : TypeTable} {id : TypeId}

theorem Shown.reads_back (h : scope.Shown table id)
    (hlimit : TypeExpr.WithinLimit (table.display id)) :
    (scope.resolve (table.display id)).run table = (.ok id, table) := by
  obtain ⟨phrase, htext, hmeans⟩ := h.asUnion
  exact (run_resolve_of_ok (TypeExpr.parse_of_fallsInto htext hlimit) table).trans hmeans

/-- What a table displays of a type that has been lowered reads back as the type and adds nothing.
Texts and names of fields have to be plain in the expression and in the aliases that it leads to. -/
theorem resolve_display (hscope : scope.IsRead) (htable : table.Built) {text : String}
    {expr : TypeExpr} (hparse : TypeExpr.parse text = .ok expr)
    (hwritten : Written table (scope.lower expr) id)
    (hplain : Everywhere scope.Leads TypeExpr.IsPlain expr)
    (hlimit : TypeExpr.WithinLimit (table.display id)) :
    (scope.resolve (table.display id)).run table = (.ok id, table) := by
  have hboth : Everywhere scope.Leads (fun sub ↦ sub.IsNamed ∧ sub.IsPlain) expr := fun sub hsub ↦
    ⟨hscope.everywhere_isNamed hparse sub hsub, hplain sub hsub⟩
  obtain ⟨hid, hthroughout⟩ := holdsType_of_written scope.carries_isPlain hboth hwritten
  exact (shown_of_throughout htable hid hthroughout).reads_back hlimit

/-- A type that a plain expression is lowered to, but its text is not. -/
def Misreads (scope : Scope) (text : String) (table : TypeTable) : Prop :=
  (∃ expr, TypeExpr.parse text = .ok expr ∧ Everywhere TypeExpr.HasPart TypeExpr.IsPlain expr) ∧
    (scope.resolve text).run .empty = (.ok 0, table) ∧ TypeExpr.WithinLimit (table.display 0) ∧
      (scope.resolve (table.display 0)).run table ≠ (.ok 0, table)

/-- An alias for the text of one backslash. -/
def slash : Scope := ⟨[("Slash", .text "\\")], []⟩

/-- An alias for a class with a name that is no word. -/
def brackets : Scope := ⟨[("Name", .named "A[]" [])], []⟩

/-- The text of an alias is escaped like any other, and a name that no text was read as is not read
from one now. -/
theorem aliases_misread : slash.IsRead ∧
    slash.Misreads "Slash" ⟨[.literal (.text "\\")], []⟩ ∧
    brackets.Misreads "Name" ⟨[.nominal "A[]"], []⟩ := by
  have hplain (name : String) :
      Everywhere TypeExpr.HasPart TypeExpr.IsPlain (.named name []) :=
    everywhere_iff.mpr ⟨trivial, List.forall_mem_nil _⟩
  have hread : TypeExpr.parse "'\\'" = .ok (.text "\\") :=
    TypeExpr.parse_eq_tree (.mk false (.mk (.text "\\") 0) []) (by decide +kernel) (by decide)
  have hslash : TypeExpr.parse "Slash" = .ok (.named "Slash" []) :=
    TypeExpr.parse_eq_tree (.mk false (.mk (.word "Slash") 0) []) (by decide +kernel) (by decide)
  have hname : TypeExpr.parse "Name" = .ok (.named "Name" []) :=
    TypeExpr.parse_eq_tree (.mk false (.mk (.word "Name") 0) []) (by decide +kernel) (by decide)
  have hquoted : TypeExpr.parse "\"\\\\\"" = .ok (.text "\\\\") :=
    TypeExpr.parse_eq_tree (.mk false (.mk (.text "\\\\") 0) []) (by decide +kernel) (by decide)
  have harray : TypeExpr.parse "A[]" = .ok (.array (.named "A" [])) :=
    TypeExpr.parse_eq_tree (.mk false (.mk (.word "A") 1) []) (by decide +kernel) (by decide)
  refine ⟨List.forall_mem_singleton.mpr ⟨_, hread⟩,
    ⟨⟨_, hslash, hplain _⟩, ?_, TypeExpr.withinLimit_of_parse hquoted, ?_⟩,
    ⟨⟨_, hname, hplain _⟩, ?_, TypeExpr.withinLimit_of_parse harray, ?_⟩⟩
  · rw [run_resolve_of_ok hslash]
    rfl
  · have hdisplay : TypeTable.display ⟨[.literal (.text "\\")], []⟩ 0 = "\"\\\\\"" := by
      decide +kernel
    rw [hdisplay, run_resolve_of_ok hquoted]
    rintro ⟨⟩
  · rw [run_resolve_of_ok hname]
    rfl
  · have hdisplay : TypeTable.display ⟨[.nominal "A[]"], []⟩ 0 = "A[]" := by
      decide +kernel
    rw [hdisplay, run_resolve_of_ok harray]
    rintro ⟨⟩

/-- An alias for an enumeration or a text. -/
def hues : Scope := ⟨[("Hue", .union [.named "Tint" [], .text "x"])], ["Tint"]⟩

def huePhrase : UnionPhrase :=
  .mk false (.mk (.word "Tint") 0) [.mk (.text "x") 0]

/-- The phrase of an object type with one field. -/
def atPhrase (type : SuffixedPhrase) : UnionPhrase :=
  .mk false (.mk (.shape [.mk false "at" false (.mk false type []) .nothing]) 0) []

/-- The types of `{ at: Hue[] }`. -/
def hueTypes : TypeTable :=
  ⟨[.enumeration "Tint", .literal (.text "x"), .union [0, 1], .array 2, .shape [⟨"at", 3⟩]], []⟩

theorem hues_read_back :
    hueTypes.display 4 = "\x7b at: (Tint | \"x\")[] \x7d" ∧
      (hues.resolve (hueTypes.display 4)).run hueTypes = (.ok 4, hueTypes) := by
  have hscope : hues.IsRead := List.forall_mem_singleton.mpr
    ⟨"Tint | 'x'", TypeExpr.parse_eq_tree huePhrase (by decide +kernel) (by decide)⟩
  have hparse : TypeExpr.parse "\x7b at: Hue[] \x7d" =
      .ok (.shape [⟨"at", false, .array (.named "Hue" [])⟩]) :=
    TypeExpr.parse_eq_tree (atPhrase (.mk (.word "Hue") 1)) (by decide +kernel) (by decide)
  have hrun : (hues.lower (.shape [⟨"at", false, .array (.named "Hue" [])⟩])).run .empty =
      (.ok 4, hueTypes) := rfl
  have hdisplay : hueTypes.display 4 = "\x7b at: (Tint | \"x\")[] \x7d" := by
    decide +kernel
  have hback : TypeExpr.parse (hueTypes.display 4) = .ok (.shape [⟨"at", false,
      .array (.union [.named "Tint" [], .text "x"])⟩]) := by
    rw [hdisplay]
    exact TypeExpr.parse_eq_tree (atPhrase (.mk (.parenthesized huePhrase) 1)) (by decide +kernel)
      (by decide)
  have htable : hueTypes.Built :=
    ((steady_resolve hues _).develops .empty ((run_resolve_of_ok hparse _).trans hrun)).1.built
  have htext : Everywhere hues.Leads TypeExpr.IsPlain (.text "x") :=
    everywhere_of_parts (List.forall_mem_singleton.mpr (by decide +kernel)) nofun nofun
  have hname : Everywhere hues.Leads TypeExpr.IsPlain (.named "Tint" []) :=
    everywhere_of_bare trivial nofun
  have hunion : Everywhere hues.Leads TypeExpr.IsPlain (.union [.named "Tint" [], .text "x"]) :=
    everywhere_of_parts trivial nofun
      (List.forall_mem_cons.mpr ⟨hname, List.forall_mem_singleton.mpr htext⟩)
  have halias : Everywhere hues.Leads TypeExpr.IsPlain (.named "Hue" []) := by
    refine everywhere_of_bare trivial ?_
    rintro _ ⟨⟩
    exact hunion
  have harray : Everywhere hues.Leads TypeExpr.IsPlain (.array (.named "Hue" [])) :=
    everywhere_of_parts trivial nofun (List.forall_mem_singleton.mpr halias)
  have hplain : Everywhere hues.Leads TypeExpr.IsPlain
      (.shape [⟨"at", false, .array (.named "Hue" [])⟩]) :=
    everywhere_of_parts (List.forall_mem_singleton.mpr ⟨_, _, rfl, by decide, by rfl⟩) nofun
      (List.forall_mem_singleton.mpr harray)
  exact ⟨hdisplay, resolve_display hscope htable hparse
    ⟨.empty, hueTypes, .empty, hrun, .refl _⟩ hplain (TypeExpr.withinLimit_of_parse hback)⟩

end Scope

end Wiring
