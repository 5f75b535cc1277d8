import Wiring.Proofs.TypeExpr.Phrase

/-!
# Phrases are determined by their tokens

What follows a phrase tells where the phrase ends, by its first token alone: nothing that may
follow a complete phrase could have continued it.  So no token list has two derivations.
-/

namespace Wiring

/-- The tokens do not start with any of the marks. -/
def Avoids (marks : List Mark) (tokens : List Token) : Prop :=
  ∀ mark ∈ marks, tokens.head? ≠ some (.mark mark)

/-- The marks that would continue a primary type, a type with suffixes, a union and a field. -/
def primaryFollow : List Mark := [.less]

def suffixedFollow : List Mark := .openBracket :: primaryFollow

def unionFollow : List Mark := .bar :: suffixedFollow

def fieldFollow : List Mark := .semicolon :: .comma :: unionFollow

section

variable {marks : List Mark} {token : Token} {rest : List Token}

theorem avoids_nil (marks : List Mark) : Avoids marks [] := by
  simp [Avoids]

theorem Avoids.tail {mark : Mark} (h : Avoids (mark :: marks) rest) : Avoids marks rest :=
  fun other hother ↦ h other (List.mem_cons_of_mem _ hother)

theorem avoids_cons_of_ne (h : ∀ mark ∈ marks, token ≠ .mark mark) :
    Avoids marks (token :: rest) :=
  fun mark hmark hhead ↦ h mark hmark (Option.some.inj hhead)

theorem ne_mark_of_opensType (h : token.opensType = true) {mark : Mark}
    (hmark : (Token.mark mark).opensType = false) : token ≠ .mark mark := by
  rintro rfl
  rw [h] at hmark
  exact Bool.noConfusion hmark

theorem Avoids.later {α : Type} {separator : Mark} (h : Avoids (separator :: marks) rest)
    (hseparator : separator ∉ marks) (tokens : α → List Token) (items : List α) :
    Avoids marks (laterTokens separator tokens items ++ rest) := by
  cases items with
  | nil => exact h.tail
  | cons item items =>
      refine avoids_cons_of_ne fun mark hmark heq ↦ hseparator ?_
      rwa [Token.mark.inj heq]

theorem Avoids.separators (h : Avoids fieldFollow rest) : Avoids [.semicolon, .comma] rest :=
  fun mark hmark ↦ h mark (List.mem_append_left unionFollow hmark)

theorem Avoids.ending (h : Avoids fieldFollow rest) (ending : FieldEnd) :
    Avoids unionFollow (ending.tokens ++ rest) := by
  cases ending with
  | nothing => exact h.tail.tail
  | semicolon => exact avoids_cons_of_ne (by simp [unionFollow, suffixedFollow, primaryFollow])
  | comma => exact avoids_cons_of_ne (by simp [unionFollow, suffixedFollow, primaryFollow])

theorem Avoids.suffixes (h : Avoids suffixedFollow rest) (suffixes : ℕ) :
    Avoids primaryFollow (suffixTokens suffixes ++ rest) := by
  cases suffixes with
  | zero => exact h.tail
  | succ suffixes => exact avoids_cons_of_ne (by simp [primaryFollow])

theorem Avoids.brackets (h : Avoids suffixedFollow rest) : Avoids [.openBracket] rest :=
  List.forall_mem_singleton.mpr (h .openBracket List.mem_cons_self)

theorem fieldNameToken_ne_mark (quoted : Bool) (name : String) (mark : Mark) :
    fieldNameToken quoted name ≠ .mark mark := by
  cases quoted <;> simp [fieldNameToken]

theorem fieldNameToken_inj {quoted quoted' : Bool} {name name' : String}
    (h : fieldNameToken quoted name = fieldNameToken quoted' name') :
    quoted = quoted' ∧ name = name' := by
  cases quoted <;> cases quoted' <;> simp_all [fieldNameToken]

/-- Behind a field stands another one or the end of the object type. -/
theorem avoids_fields (marks : List Mark) (hmarks : Mark.closeBrace ∉ marks)
    (fields : List FieldPhrase) (rest : List Token) :
    Avoids marks (fields.flatMap FieldPhrase.tokens ++ .mark .closeBrace :: rest) := by
  cases fields with
  | nil =>
      refine avoids_cons_of_ne fun mark hmark heq ↦ hmarks ?_
      rwa [Token.mark.inj heq]
  | cons field fields =>
      obtain ⟨quoted, name, optional, type, ending⟩ := field
      exact avoids_cons_of_ne fun mark _ ↦ fieldNameToken_ne_mark quoted name mark

end

/-- What is read off the front of a token list, where it ends in front of none of the marks, can
only be this one. -/
def Determined {α : Type} (follow : List Mark) (tokens : α → List Token) (a : α) : Prop :=
  ∀ ⦃b : α⦄ ⦃rest other : List Token⦄, tokens a ++ rest = tokens b ++ other → Avoids follow rest →
    Avoids follow other → a = b ∧ rest = other

theorem written_inj {bar bar' : Bool} {mark : Mark} {rest other : List Token}
    (h : written bar mark ++ rest = written bar' mark ++ other)
    (hrest : rest.head? ≠ some (.mark mark)) (hother : other.head? ≠ some (.mark mark)) :
    bar = bar' ∧ rest = other := by
  cases bar <;> cases bar' <;> simp [written] at h
  · exact ⟨rfl, h⟩
  · simp [h] at hrest
  · simp [← h] at hother
  · exact ⟨rfl, h⟩

theorem determined_suffixes (suffixes : ℕ) :
    Determined [.openBracket] suffixTokens suffixes := by
  induction suffixes with
  | zero =>
      intro suffixes rest other h hrest _
      cases suffixes with
      | zero => exact ⟨rfl, h⟩
      | succ suffixes =>
          obtain rfl : rest = _ := h
          exact (hrest .openBracket List.mem_cons_self rfl).elim
  | succ suffixes ih =>
      intro suffixes' rest other h hrest hother
      cases suffixes' with
      | zero =>
          obtain rfl : _ = other := h
          exact (hother .openBracket List.mem_cons_self rfl).elim
      | succ suffixes' =>
          have htail : suffixTokens suffixes ++ rest = suffixTokens suffixes' ++ other := by
            simpa [suffixTokens] using h
          obtain ⟨rfl, rfl⟩ := ih htail hrest hother
          exact ⟨rfl, rfl⟩

theorem determined_ending (ending : FieldEnd) :
    Determined [.semicolon, .comma] FieldEnd.tokens ending := by
  intro other rest later h hrest hlater
  cases ending <;> cases other <;> grind [FieldEnd.tokens, Avoids]

theorem determined_later {α : Type} {follow : List Mark} {tokens : α → List Token}
    {separator : Mark} (hseparator : separator ∉ follow) {items : List α}
    (h : ∀ item ∈ items, Determined follow tokens item) :
    Determined (separator :: follow) (laterTokens separator tokens) items := by
  induction items with
  | nil =>
      intro others rest other heq hrest _
      cases others with
      | nil => exact ⟨rfl, heq⟩
      | cons item items =>
          obtain rfl : rest = _ := heq
          exact (hrest separator List.mem_cons_self rfl).elim
  | cons item items ih =>
      obtain ⟨hitem, hitems⟩ := List.forall_mem_cons.mp h
      intro others rest other heq hrest hother
      cases others with
      | nil =>
          obtain rfl : _ = other := heq
          exact (hother separator List.mem_cons_self rfl).elim
      | cons item' items' =>
          have htail : tokens item ++ (laterTokens separator tokens items ++ rest) =
              tokens item' ++ (laterTokens separator tokens items' ++ other) := by
            simpa [laterTokens] using heq
          obtain ⟨rfl, hlater⟩ := hitem htail (hrest.later hseparator _ _)
            (hother.later hseparator _ _)
          obtain ⟨rfl, rfl⟩ := ih hitems hlater hrest hother
          exact ⟨rfl, rfl⟩

theorem determined_fields {fields : List FieldPhrase}
    (h : ∀ field ∈ fields, Determined fieldFollow FieldPhrase.tokens field)
    {others : List FieldPhrase} {rest other : List Token}
    (heq : fields.flatMap FieldPhrase.tokens ++ .mark .closeBrace :: rest =
      others.flatMap FieldPhrase.tokens ++ .mark .closeBrace :: other) :
    fields = others ∧ rest = other := by
  induction fields generalizing others with
  | nil =>
      cases others with
      | nil => exact ⟨rfl, (List.cons.inj heq).2⟩
      | cons field fields =>
          obtain ⟨quoted, name, optional, type, ending⟩ := field
          exact (fieldNameToken_ne_mark quoted name _ (List.cons.inj heq).1.symm).elim
  | cons field fields ih =>
      obtain ⟨hfield, hfields⟩ := List.forall_mem_cons.mp h
      cases others with
      | nil =>
          obtain ⟨quoted, name, optional, type, ending⟩ := field
          exact (fieldNameToken_ne_mark quoted name _ (List.cons.inj heq).1).elim
      | cons field' fields' =>
          rw [List.flatMap_cons, List.flatMap_cons, List.append_assoc, List.append_assoc] at heq
          obtain ⟨rfl, hrest⟩ := hfield heq (avoids_fields _ (by decide) _ _)
            (avoids_fields _ (by decide) _ _)
          obtain ⟨rfl, rfl⟩ := ih hfields hrest
          exact ⟨rfl, rfl⟩

/-! ## Phrases -/

theorem determined_union {bar : Bool} {first : SuffixedPhrase} {others : List SuffixedPhrase}
    (hfirst : Determined suffixedFollow SuffixedPhrase.tokens first)
    (hothers : ∀ other ∈ others, Determined suffixedFollow SuffixedPhrase.tokens other) :
    Determined unionFollow UnionPhrase.tokens (.mk bar first others) := by
  have hnoBar (phrase : SuffixedPhrase) (rest : List Token) :
      (phrase.tokens ++ rest).head? ≠ some (.mark .bar) := by
    obtain ⟨token, later, htokens, hopens⟩ := phrase.tokens_eq_cons
    rw [htokens]
    exact fun h ↦ ne_mark_of_opensType hopens rfl (Option.some.inj h)
  rintro ⟨bar', first', others'⟩ rest other h hrest hother
  rw [UnionPhrase.tokens, UnionPhrase.tokens, SuffixedPhrase.laterTokens_eq,
    SuffixedPhrase.laterTokens_eq, List.append_assoc, List.append_assoc, List.append_assoc,
    List.append_assoc] at h
  obtain ⟨rfl, hmembers⟩ := written_inj h (hnoBar _ _) (hnoBar _ _)
  obtain ⟨rfl, hlater⟩ := hfirst hmembers (hrest.later (by decide) _ _)
    (hother.later (by decide) _ _)
  obtain ⟨rfl, rfl⟩ := determined_later (by decide) hothers hlater hrest hother
  exact ⟨rfl, rfl⟩

theorem determined_suffixed {primary : PrimaryPhrase}
    (hprimary : Determined primaryFollow PrimaryPhrase.tokens primary) (suffixes : ℕ) :
    Determined suffixedFollow SuffixedPhrase.tokens (.mk primary suffixes) := by
  rintro ⟨primary', suffixes'⟩ rest other h hrest hother
  rw [SuffixedPhrase.tokens, SuffixedPhrase.tokens, List.append_assoc, List.append_assoc] at h
  obtain ⟨rfl, hlater⟩ := hprimary h (hrest.suffixes _) (hother.suffixes _)
  obtain ⟨rfl, rfl⟩ := determined_suffixes _ hlater hrest.brackets hother.brackets
  exact ⟨rfl, rfl⟩

theorem determined_field {type : UnionPhrase}
    (htype : Determined unionFollow UnionPhrase.tokens type) (quoted : Bool) (name : String)
    (optional : Bool) (ending : FieldEnd) :
    Determined fieldFollow FieldPhrase.tokens (.mk quoted name optional type ending) := by
  rintro ⟨quoted', name', optional', type', ending'⟩ rest other h hrest hother
  rw [FieldPhrase.tokens, FieldPhrase.tokens, List.cons_append, List.cons_append] at h
  obtain ⟨hname, htail⟩ := List.cons.inj h
  obtain ⟨rfl, rfl⟩ := fieldNameToken_inj hname
  rw [List.append_assoc, List.append_assoc] at htail
  obtain ⟨rfl, hcolon⟩ := written_inj htail (by simp) (by simp)
  rw [List.cons_append, List.cons_append] at hcolon
  obtain ⟨-, hunion⟩ := List.cons.inj hcolon
  rw [List.append_assoc, List.append_assoc] at hunion
  obtain ⟨rfl, hlater⟩ := htype hunion (hrest.ending _) (hother.ending _)
  obtain ⟨rfl, rfl⟩ := determined_ending _ hlater hrest.separators hother.separators
  exact ⟨rfl, rfl⟩

/-- Items in front of a closing mark. -/
theorem determined_items {closing : Mark} (hclosing : closing ∉ Mark.comma :: unionFollow)
    {first : UnionPhrase} {others : List UnionPhrase}
    (hfirst : Determined unionFollow UnionPhrase.tokens first)
    (hothers : ∀ other ∈ others, Determined unionFollow UnionPhrase.tokens other)
    {first' : UnionPhrase} {others' : List UnionPhrase} {rest other : List Token}
    (h : first.tokens ++ (UnionPhrase.laterTokens others ++ .mark closing :: rest) =
      first'.tokens ++ (UnionPhrase.laterTokens others' ++ .mark closing :: other)) :
    first = first' ∧ others = others' ∧ rest = other := by
  have hstop (tail : List Token) : Avoids (.comma :: unionFollow) (.mark closing :: tail) := by
    refine avoids_cons_of_ne fun mark hmark heq ↦ hclosing ?_
    rwa [Token.mark.inj heq]
  rw [UnionPhrase.laterTokens_eq, UnionPhrase.laterTokens_eq] at h
  obtain ⟨rfl, hlater⟩ := hfirst h ((hstop _).later (by decide) _ _)
    ((hstop _).later (by decide) _ _)
  obtain ⟨rfl, htail⟩ := determined_later (by decide) hothers hlater (hstop _) (hstop _)
  exact ⟨rfl, rfl, (List.cons.inj htail).2⟩

theorem determined_word (name : String) :
    Determined primaryFollow PrimaryPhrase.tokens (.word name) := by
  intro phrase rest other h hrest _
  cases phrase with
  | word name' =>
      obtain ⟨hname, htail⟩ := List.cons.inj h
      exact ⟨congrArg _ (Token.word.inj hname), htail⟩
  | container name' first others =>
      obtain rfl : rest = _ := (List.cons.inj h).2
      exact (hrest .less List.mem_cons_self rfl).elim
  | _ => simp at h

theorem determined_container {first : UnionPhrase} {others : List UnionPhrase}
    (hfirst : Determined unionFollow UnionPhrase.tokens first)
    (hothers : ∀ other ∈ others, Determined unionFollow UnionPhrase.tokens other) (name : String) :
    Determined primaryFollow PrimaryPhrase.tokens (.container name first others) := by
  intro phrase rest other h _ hother
  cases phrase with
  | word name' =>
      obtain rfl : _ = other := (List.cons.inj h).2
      exact (hother .less List.mem_cons_self rfl).elim
  | container name' first' others' =>
      obtain ⟨hname, htail⟩ := List.cons.inj h
      obtain rfl := Token.word.inj hname
      have hitems := (List.cons.inj htail).2
      simp only [List.append_eq, List.append_assoc, List.cons_append, List.nil_append] at hitems
      obtain ⟨rfl, rfl, rfl⟩ := determined_items (by decide) hfirst hothers hitems
      exact ⟨rfl, rfl⟩
  | _ => simp at h

theorem closeBracket_ne_tokens (phrase : UnionPhrase) (rest later : List Token) :
    .mark .closeBracket :: later ≠ phrase.tokens ++ rest := by
  obtain ⟨token, tail, htokens, rfl | hopens⟩ := phrase.tokens_eq_cons
  · simp [htokens]
  · rw [htokens]
    exact fun h ↦ ne_mark_of_opensType hopens rfl (List.cons.inj h).1.symm

theorem determined_emptyTuple : Determined primaryFollow PrimaryPhrase.tokens .emptyTuple := by
  intro phrase rest other h _ _
  cases phrase with
  | emptyTuple => simpa using h
  | tuple first others =>
      have hitems := (List.cons.inj h).2
      simp only [List.append_eq, List.append_assoc, List.cons_append] at hitems
      exact (closeBracket_ne_tokens _ _ _ hitems).elim
  | _ => simp at h

theorem determined_tuple {first : UnionPhrase} {others : List UnionPhrase}
    (hfirst : Determined unionFollow UnionPhrase.tokens first)
    (hothers : ∀ other ∈ others, Determined unionFollow UnionPhrase.tokens other) :
    Determined primaryFollow PrimaryPhrase.tokens (.tuple first others) := by
  intro phrase rest other h _ _
  cases phrase with
  | emptyTuple =>
      have hitems := (List.cons.inj h).2
      simp only [List.append_eq, List.append_assoc, List.cons_append] at hitems
      exact (closeBracket_ne_tokens _ _ _ hitems.symm).elim
  | tuple first' others' =>
      have hitems := (List.cons.inj h).2
      simp only [List.append_eq, List.append_assoc, List.cons_append, List.nil_append] at hitems
      obtain ⟨rfl, rfl, rfl⟩ := determined_items (by decide) hfirst hothers hitems
      exact ⟨rfl, rfl⟩
  | _ => simp at h

theorem determined_shape {fields : List FieldPhrase}
    (hfields : ∀ field ∈ fields, Determined fieldFollow FieldPhrase.tokens field) :
    Determined primaryFollow PrimaryPhrase.tokens (.shape fields) := by
  intro phrase rest other h _ _
  cases phrase with
  | shape fields' =>
      have hinside := (List.cons.inj h).2
      simp only [FieldPhrase.allTokens_eq, List.append_eq, List.append_assoc, List.cons_append,
        List.nil_append] at hinside
      obtain ⟨rfl, rfl⟩ := determined_fields hfields hinside
      exact ⟨rfl, rfl⟩
  | _ => simp at h

theorem determined_parenthesized {inner : UnionPhrase}
    (hinner : Determined unionFollow UnionPhrase.tokens inner) :
    Determined primaryFollow PrimaryPhrase.tokens (.parenthesized inner) := by
  have hstop (tail : List Token) : Avoids unionFollow (.mark .closeParen :: tail) :=
    avoids_cons_of_ne (by simp [unionFollow, suffixedFollow, primaryFollow])
  intro phrase rest other h _ _
  cases phrase with
  | parenthesized inner' =>
      have hinside := (List.cons.inj h).2
      simp only [List.append_eq, List.append_assoc, List.cons_append, List.nil_append] at hinside
      obtain ⟨rfl, htail⟩ := hinner hinside (hstop _) (hstop _)
      exact ⟨rfl, (List.cons.inj htail).2⟩
  | _ => simp at h

theorem determined_text (value : String) :
    Determined primaryFollow PrimaryPhrase.tokens (.text value) := by
  intro phrase rest other h _ _
  cases phrase <;> simp_all

theorem determined_number (spelling : String) :
    Determined primaryFollow PrimaryPhrase.tokens (.number spelling) := by
  intro phrase rest other h _ _
  cases phrase <;> simp_all

theorem UnionPhrase.determined (phrase : UnionPhrase) :
    Determined unionFollow UnionPhrase.tokens phrase :=
  @UnionPhrase.induct (Determined unionFollow UnionPhrase.tokens)
    (Determined suffixedFollow SuffixedPhrase.tokens)
    (Determined primaryFollow PrimaryPhrase.tokens) (Determined fieldFollow FieldPhrase.tokens)
    (fun _ _ _ ↦ determined_union) (fun _ suffixes h ↦ determined_suffixed h suffixes)
    determined_word (fun name _ _ hfirst hothers ↦ determined_container hfirst hothers name)
    determined_emptyTuple (fun _ _ ↦ determined_tuple) (fun _ ↦ determined_shape)
    (fun _ ↦ determined_parenthesized) determined_text determined_number
    (fun quoted name optional _ ending h ↦ determined_field h quoted name optional ending) phrase

/-- No token list has two derivations. -/
theorem UnionPhrase.eq_of_tokens_eq {phrase other : UnionPhrase}
    (h : phrase.tokens = other.tokens) : phrase = other := by
  have htokens : phrase.tokens ++ [] = other.tokens ++ [] := by rw [h]
  exact (phrase.determined htokens (avoids_nil _) (avoids_nil _)).1

end Wiring
