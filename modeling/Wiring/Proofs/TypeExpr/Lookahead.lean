import Wiring.Proofs.TypeExpr.Accepted

/-!
# One token of lookahead

A reader goes by the tokens that it passes and by the one that stands behind them.  So it ends in
the same way and at the same place whatever else follows, and if it did not run out of room, then
with more room as well.
-/

namespace Wiring.TypeExpr

variable {α β : Type} {located later : List Located} {mark : Mark} {room more : ℕ}

theorem length_eq_of_map {tokens : List Token}
    (h : located.map Located.token = tokens ++ later.map Located.token) :
    located.length = tokens.length + later.length := by
  simpa using congrArg List.length h

theorem length_lt_of_eat? (h : eat? mark located = some later) :
    later.length < located.length := by
  have hlength : located.length = [Token.mark mark].length + later.length :=
    length_eq_of_map (eq_cons_of_eat? h)
  rw [hlength, List.length_singleton]
  omega

def nextToken (rest : List Located) : Option Token :=
  (rest.map Located.token).head?

theorem nextToken_append (passed : List Located) {rest rest' : List Located}
    (h : nextToken rest = nextToken rest') :
    nextToken (passed ++ rest) = nextToken (passed ++ rest') := by
  cases passed with
  | nil => exact h
  | cons first passed => rfl

/-- The outcome is settled by the tokens that have been passed and the next one: the reader comes
to it wherever these stand.  Nothing is said of what it does beyond the limit on nesting. -/
inductive Settles (reader : Reader α) (located : List Located) :
    Except ParseFault (α × List Located) → Prop where
  | read {a : α} {passed rest : List Located} (split : located = passed ++ rest)
      (same : ∀ rest', nextToken rest = nextToken rest' →
        reader (passed ++ rest') = .ok (a, rest')) : Settles reader located (.ok (a, rest))
  | refused {wanted : Wanted} {passed rest : List Located} (split : located = passed ++ rest)
      (same : ∀ rest', nextToken rest = nextToken rest' →
        reader (passed ++ rest') = .error (.expected wanted rest')) :
      Settles reader located (.error (.expected wanted rest))
  | stopped {rest : List Located} (suffix : rest <:+ located) :
      Settles reader located (.error (.tooDeep rest))

namespace Settles

variable {reader other : Reader α} {outcome : Except ParseFault (α × List Located)}

theorem done (a : α) (located : List Located) :
    Settles (fun rest ↦ .ok (a, rest)) located (.ok (a, located)) :=
  read (List.nil_append located).symm fun _ _ ↦ rfl

theorem refuse (wanted : Wanted) (located : List Located) :
    Settles (fun rest ↦ (.error (.expected wanted rest) : Except ParseFault (α × List Located)))
      located (.error (.expected wanted located)) :=
  refused (List.nil_append located).symm fun _ _ ↦ rfl

/-- Another reader that does the same in front of the next token. -/
theorem congr (h : Settles other located outcome)
    (hsame : ∀ located', nextToken located = nextToken located' →
      reader located' = other located') : Settles reader located outcome := by
  cases h with
  | read split same =>
      subst split
      exact read rfl fun rest' hnext ↦ (hsame _ (nextToken_append _ hnext)).trans (same rest' hnext)
  | refused split same =>
      subst split
      exact refused rfl fun rest' hnext ↦
        (hsame _ (nextToken_append _ hnext)).trans (same rest' hnext)
  | stopped suffix => exact stopped suffix

/-- A reader that passes a token first. -/
theorem cons (first : Located) (h : Settles other later outcome)
    (hstep : ∀ rest, reader (first :: rest) = other rest) :
    Settles reader (first :: later) outcome := by
  cases h with
  | @read a passed rest split same =>
      subst split
      exact @read _ _ _ a (first :: passed) rest rfl fun rest' hnext ↦
        (hstep _).trans (same rest' hnext)
  | @refused wanted passed rest split same =>
      subst split
      exact @refused _ _ _ wanted (first :: passed) rest rfl fun rest' hnext ↦
        (hstep _).trans (same rest' hnext)
  | stopped suffix => exact stopped (List.suffix_cons_iff.mpr (.inr suffix))

theorem bind {next next' : α × List Located → Except ParseFault (β × List Located)}
    (h : Settles other located outcome) (hnext : ∀ a later, outcome = .ok (a, later) →
      Settles (fun rest ↦ next' (a, rest)) later (next (a, later))) :
    Settles (fun rest ↦ other rest >>= next') located (outcome >>= next) := by
  cases h with
  | @read a passed rest split same =>
      subst split
      have hrest := hnext a rest rfl
      change Settles _ _ (next (a, rest))
      generalize next (a, rest) = final at hrest
      cases hrest with
      | @read b taken last split' same' =>
          subst split'
          rw [← List.append_assoc]
          refine read rfl fun last' hlast ↦ ?_
          rw [List.append_assoc, same _ (nextToken_append taken hlast)]
          exact same' last' hlast
      | @refused wanted taken last split' same' =>
          subst split'
          rw [← List.append_assoc]
          refine refused rfl fun last' hlast ↦ ?_
          rw [List.append_assoc, same _ (nextToken_append taken hlast)]
          exact same' last' hlast
      | stopped suffix => exact stopped (suffix.trans (List.suffix_append passed rest))
  | refused split same =>
      subst split
      refine refused rfl fun rest' hrest ↦ ?_
      rw [same rest' hrest]
      rfl
  | stopped suffix => exact stopped suffix

theorem map (f : α → β) (h : Settles other located outcome) :
    Settles (fun rest ↦ other rest >>= fun read ↦ .ok (f read.1, read.2)) located
      (outcome >>= fun read ↦ .ok (f read.1, read.2)) :=
  h.bind fun a later _ ↦ done (f a) later

end Settles

/-- What the first reader comes to is settled for the second. -/
def Foretells (reader other : Reader α) : Prop :=
  ∀ located, Settles other located (reader located)

namespace Foretells

variable {reader other : Reader α} {passed rest rest' : List Located}

theorem suffix_of_ok (h : Foretells reader other) {a : α}
    (hread : reader located = .ok (a, rest)) : rest <:+ located := by
  have hsettles := h located
  rw [hread] at hsettles
  cases hsettles with
  | @read _ passed _ split _ => exact ⟨passed, split.symm⟩

theorem suffix_of_error (h : Foretells reader other) {fault : ParseFault}
    (hread : reader located = .error fault) : fault.rest <:+ located := by
  have hsettles := h located
  rw [hread] at hsettles
  cases hsettles with
  | @refused _ passed _ split _ => exact ⟨passed, split.symm⟩
  | stopped suffix => exact suffix

theorem read (h : Foretells reader other) {a : α}
    (hread : reader (passed ++ rest) = .ok (a, rest)) (hnext : nextToken rest = nextToken rest') :
    other (passed ++ rest') = .ok (a, rest') := by
  have hsettles := h (passed ++ rest)
  rw [hread] at hsettles
  cases hsettles with
  | read split same =>
      obtain rfl := List.append_cancel_right split
      exact same rest' hnext

theorem refused (h : Foretells reader other) {wanted : Wanted}
    (hread : reader (passed ++ rest) = .error (.expected wanted rest))
    (hnext : nextToken rest = nextToken rest') :
    other (passed ++ rest') = .error (.expected wanted rest') := by
  have hsettles := h (passed ++ rest)
  rw [hread] at hsettles
  cases hsettles with
  | refused split same =>
      obtain rfl := List.append_cancel_right split
      exact same rest' hnext

end Foretells

/-- What is left by the reader is no more than there was. -/
def Shrinks (reader : Reader α) : Prop :=
  ∀ ⦃located : List Located⦄ ⦃a : α⦄ ⦃later : List Located⦄, reader located = .ok (a, later) →
    later.length ≤ located.length

/-! ## Marks -/

theorem eq_cons_or_ne (mark : Mark) (located : List Located) :
    (∃ offset later, located = ⟨offset, .mark mark⟩ :: later) ∨
      nextToken located ≠ some (.mark mark) := by
  rcases located with _ | ⟨⟨offset, token⟩, later⟩
  · exact .inr nofun
  · by_cases htoken : token = .mark mark
    · exact .inl ⟨offset, later, by rw [htoken]⟩
    · exact .inr fun h ↦ htoken (Option.some.inj h)

@[simp] theorem eat?_cons (mark : Mark) (offset : ℕ) (later : List Located) :
    eat? mark (⟨offset, .mark mark⟩ :: later) = some later := by
  simp [eat?]

@[simp] theorem expect_cons (mark : Mark) (offset : ℕ) (later : List Located) :
    expect mark (⟨offset, .mark mark⟩ :: later) = .ok later := by
  simp [expect]

theorem expect_of_ne (h : nextToken located ≠ some (.mark mark)) :
    expect mark located = .error (.expected (.mark mark) located) := by
  rw [expect.eq_def]
  split
  · next found _ =>
      rw [if_neg]
      rintro rfl
      exact h rfl
  · rfl

theorem Settles.expect {next next' : Reader α}
    (h : ∀ later, Settles next' later (next later)) :
    Settles (fun rest ↦ expect mark rest >>= next') located (expect mark located >>= next) := by
  rcases eq_cons_or_ne mark located with ⟨offset, later, rfl⟩ | hne
  · rw [expect_cons]
    refine (h later).cons _ fun rest ↦ ?_
    rw [expect_cons]
    rfl
  · rw [expect_of_ne hne]
    refine (refuse (.mark mark) located).congr fun located' hsame ↦ ?_
    rw [expect_of_ne (hsame ▸ hne)]
    rfl

/-- The reader goes on in the one way behind the mark, and in the other where it does not stand. -/
structure Branches (mark : Mark) (reader behind without : Reader α) : Prop where
  cons (offset : ℕ) (later : List Located) :
    reader (⟨offset, .mark mark⟩ :: later) = behind later
  of_ne {located : List Located} (h : nextToken located ≠ some (.mark mark)) :
    reader located = without located

theorem Foretells.of_branches {reader other behind behind' without without' : Reader α}
    (h : Branches mark reader behind without) (h' : Branches mark other behind' without')
    (hbehind : Foretells behind behind') (hwithout : Foretells without without') :
    Foretells reader other := by
  intro located
  rcases eq_cons_or_ne mark located with ⟨offset, later, rfl⟩ | hne
  · rw [h.cons]
    exact (hbehind later).cons _ (h'.cons offset)
  · rw [h.of_ne hne]
    exact (hwithout located).congr fun _ hsame ↦ h'.of_ne (hsame ▸ hne)

theorem foretells_done (a : α) : Foretells (fun rest ↦ .ok (a, rest)) fun rest ↦ .ok (a, rest) :=
  Settles.done a

section

variable {separator : Mark} {item other : Reader TypeExpr}

/-- More rounds than there are tokens change nothing. -/
theorem readSeparated_eq_of_lt (hitem : Shrinks item) {rounds rounds' : ℕ}
    (h : located.length < rounds) (h' : located.length < rounds') :
    readSeparated separator item rounds located = readSeparated separator item rounds' located := by
  induction rounds generalizing located rounds' with
  | zero => omega
  | succ rounds ih =>
      obtain ⟨rounds', rfl⟩ := Nat.exists_eq_succ_of_ne_zero (Nat.ne_zero_of_lt h')
      rw [readSeparated, readSeparated]
      cases hread : item located with
      | error fault => rfl
      | ok read =>
          obtain ⟨first, later⟩ := read
          have hlater := hitem hread
          dsimp only [bind, Except.bind]
          cases heat : eat? separator later with
          | none => rfl
          | some start =>
              have hstart := length_lt_of_eat? heat
              have hrest := @ih start rounds' (by omega) (by omega)
              dsimp only
              rw [hrest]

theorem readItems_eq (hitem : Shrinks item) (separator : Mark) (located : List Located) :
    readItems separator item located = item located >>= fun read ↦
      match eat? separator read.2 with
      | none => .ok ([read.1], read.2)
      | some start => readItems separator item start >>= fun others ↦
        .ok (read.1 :: others.1, others.2) := by
  rw [readItems, readSeparated]
  cases hread : item located with
  | error fault => rfl
  | ok read =>
      obtain ⟨first, later⟩ := read
      have hlater := hitem hread
      dsimp only [bind, Except.bind]
      cases heat : eat? separator later with
      | none => rfl
      | some start =>
          have hstart := length_lt_of_eat? heat
          have hrounds : readSeparated separator item located.length start =
              readItems separator item start :=
            readSeparated_eq_of_lt hitem (by omega) (Nat.lt_succ_self _)
          dsimp only
          rw [hrounds]
          rfl

theorem foretells_readItems (hitem : Shrinks item) (hother : Shrinks other)
    (h : Foretells item other) (separator : Mark) :
    Foretells (readItems separator item) (readItems separator other) := by
  intro located
  induction hlength : located.length using Nat.strongRecOn generalizing located with
  | _ length ih =>
      subst hlength
      rw [readItems_eq hitem]
      refine Settles.congr ?_ fun located' _ ↦ readItems_eq hother separator located'
      refine (h located).bind fun first later hread ↦ ?_
      have hlater := hitem hread
      rcases eq_cons_or_ne separator later with ⟨offset, start, rfl⟩ | hne
      · -- The separator uses up a token, so there are fewer for the items behind it.
        rw [eat?_cons]
        have hstart : start.length < located.length := hlater
        have hothers : Settles
            (fun rest ↦ readItems separator other rest >>= fun read ↦
              .ok (first :: read.1, read.2)) start
            (readItems separator item start >>= fun read ↦ .ok (first :: read.1, read.2)) :=
          (ih _ hstart start rfl).map (List.cons first)
        refine hothers.cons _ fun rest ↦ ?_
        rw [eat?_cons]
      · rw [eat?_eq_none hne]
        refine (Settles.done [first] later).congr fun later' hsame ↦ ?_
        rw [eat?_eq_none (fun hhead ↦ hne (hsame.trans hhead))]

end

/-- Items up to a closing mark. -/
def readItemsTo (closing : Mark) (union : Reader TypeExpr) : Reader (List TypeExpr) := fun rest ↦ do
  let (items, rest) ← readItems .comma union rest
  let rest ← expect closing rest
  return (items, rest)

section

variable {union other : Reader TypeExpr}

theorem foretells_readItemsTo (hunion : Shrinks union) (hother : Shrinks other)
    (h : Foretells union other) (closing : Mark) :
    Foretells (readItemsTo closing union) (readItemsTo closing other) := fun located ↦
  (foretells_readItems hunion hother h .comma located).bind fun items _ _ ↦
    Settles.expect fun last ↦ Settles.done items last

theorem branches_readArguments (union : Reader TypeExpr) :
    Branches .less (readArguments union) (readItemsTo .greater union)
      fun rest ↦ .ok ([], rest) where
  cons _ _ := rfl
  of_ne h := by rw [readArguments, eat?_eq_none h]

theorem branches_readTuple (union : Reader TypeExpr) :
    Branches .closeBracket (readTuple union) (fun rest ↦ .ok ([], rest))
      (readItemsTo .closeBracket union) where
  cons _ _ := rfl
  of_ne h := by
    rw [readTuple, eat?_eq_none h]
    rfl

theorem foretells_readArguments (hunion : Shrinks union) (hother : Shrinks other)
    (h : Foretells union other) : Foretells (readArguments union) (readArguments other) :=
  .of_branches (branches_readArguments union) (branches_readArguments other)
    (foretells_readItemsTo hunion hother h .greater) (foretells_done [])

theorem foretells_readTuple (hunion : Shrinks union) (hother : Shrinks other)
    (h : Foretells union other) : Foretells (readTuple union) (readTuple other) :=
  .of_branches (branches_readTuple union) (branches_readTuple other) (foretells_done [])
    (foretells_readItemsTo hunion hother h .closeBracket)

/-- The type of a field after its name, and what stands behind it. -/
def readFieldAfter (name : String) (optional : Bool) (union : Reader TypeExpr) :
    Reader FieldExpr := fun rest ↦ do
  let rest ← expect .colon rest
  let (type, rest) ← union rest
  return (⟨name, optional, type⟩, skipSeparator rest)

theorem settles_skipSeparator (a : α) (located : List Located) :
    Settles (fun rest ↦ .ok (a, skipSeparator rest)) located (.ok (a, skipSeparator located)) := by
  rcases eq_cons_or_ne .semicolon located with ⟨offset, later, rfl⟩ | hsemicolon
  · exact (Settles.done a later).cons _ fun _ ↦ rfl
  rcases eq_cons_or_ne .comma located with ⟨offset, later, rfl⟩ | hcomma
  · exact (Settles.done a later).cons _ fun _ ↦ rfl
  have hkeep : ∀ rest, nextToken located = nextToken rest → skipSeparator rest = rest := by
    intro rest hsame
    rw [skipSeparator, eat?_eq_none (fun h ↦ hsemicolon (hsame.trans h)),
      eat?_eq_none (fun h ↦ hcomma (hsame.trans h))]
    rfl
  rw [hkeep located rfl]
  exact (Settles.done a located).congr fun rest hsame ↦ by rw [hkeep rest hsame]

theorem foretells_readFieldAfter (h : Foretells union other) (name : String) (optional : Bool) :
    Foretells (readFieldAfter name optional union) (readFieldAfter name optional other) :=
  fun _ ↦ Settles.expect fun later ↦ (h later).bind fun type last _ ↦
    settles_skipSeparator (FieldExpr.mk name optional type) last

/-- A field behind its name. -/
def readFieldNamed (name : String) (union : Reader TypeExpr) : Reader FieldExpr := fun rest ↦
  readFieldAfter name (eat? .question rest).isSome union ((eat? .question rest).getD rest)

theorem branches_readFieldNamed (name : String) (union : Reader TypeExpr) :
    Branches .question (readFieldNamed name union) (readFieldAfter name true union)
      (readFieldAfter name false union) where
  cons _ _ := rfl
  of_ne h := by
    rw [readFieldNamed, eat?_eq_none h]
    rfl

theorem foretells_readFieldNamed (h : Foretells union other) (name : String) :
    Foretells (readFieldNamed name union) (readFieldNamed name other) :=
  .of_branches (branches_readFieldNamed name union) (branches_readFieldNamed name other)
    (foretells_readFieldAfter h name true) (foretells_readFieldAfter h name false)

theorem fieldName?_eq_none
    (h : ∀ quoted name, nextToken located ≠ some (fieldNameToken quoted name)) :
    fieldName? located = none := by
  rw [fieldName?.eq_def]
  split
  · next name _ => exact absurd rfl (h false name)
  · next name _ => exact absurd rfl (h true name)
  · rfl

theorem readField_cons (union : Reader TypeExpr) (offset : ℕ) (quoted : Bool) (name : String)
    (later : List Located) :
    readField union (⟨offset, fieldNameToken quoted name⟩ :: later) =
      readFieldNamed name union later := by
  cases quoted <;> rfl

theorem readField_of_ne (union : Reader TypeExpr)
    (h : ∀ quoted name, nextToken located ≠ some (fieldNameToken quoted name)) :
    readField union located = .error (.expected .fieldOrClose located) := by
  rw [readField, fieldName?_eq_none h]

theorem foretells_readField (h : Foretells union other) :
    Foretells (readField union) (readField other) := by
  intro located
  by_cases hname : ∃ quoted name, nextToken located = some (fieldNameToken quoted name)
  · obtain ⟨quoted, name, hhead⟩ := hname
    rcases located with _ | ⟨⟨offset, token⟩, later⟩
    · cases hhead
    obtain rfl : token = fieldNameToken quoted name := Option.some.inj hhead
    rw [readField_cons]
    exact (foretells_readFieldNamed h name later).cons _ (readField_cons other offset quoted name)
  · have hne : ∀ quoted name, nextToken located ≠ some (fieldNameToken quoted name) :=
      fun quoted name hhead ↦ hname ⟨quoted, name, hhead⟩
    rw [readField_of_ne union hne]
    exact (Settles.refuse _ located).congr fun _ hsame ↦ readField_of_ne other (hsame ▸ hne)

theorem length_lt_of_readField (hunion : Shrinks union) {field : FieldExpr}
    (h : readField union located = .ok (field, later)) : later.length < located.length := by
  rw [readField] at h
  split at h
  · cases h
  · next name named hname =>
      obtain ⟨start, hexpect, h⟩ := bind_eq_ok.mp h
      obtain ⟨⟨type, final⟩, htype, h⟩ := bind_eq_ok.mp h
      obtain ⟨rfl, rfl⟩ := Prod.mk.inj (Except.ok.inj h)
      obtain ⟨quoted, hquoted⟩ := exists_quoted_of_fieldName? hname
      obtain ⟨ending, hending⟩ := exists_ending final
      have hnamed := congrArg List.length hquoted
      have hoptional := length_eq_of_map (eq_written_of_eat? .question named)
      have hcolon := congrArg List.length (eq_cons_of_expect hexpect)
      have hfinal := hunion htype
      have hskipped := length_eq_of_map hending
      simp only [List.length_map, List.length_cons] at hnamed hcolon
      omega

/-- More rounds than there are tokens change nothing. -/
theorem readFieldsWithin_eq_of_lt (hunion : Shrinks union) {rounds rounds' : ℕ}
    (h : located.length < rounds) (h' : located.length < rounds') :
    readFieldsWithin union rounds located = readFieldsWithin union rounds' located := by
  induction rounds generalizing located rounds' with
  | zero => omega
  | succ rounds ih =>
      obtain ⟨rounds', rfl⟩ := Nat.exists_eq_succ_of_ne_zero (Nat.ne_zero_of_lt h')
      rw [readFieldsWithin, readFieldsWithin]
      cases eat? .closeBrace located with
      | some later => rfl
      | none =>
          cases hread : readField union located with
          | error fault => rfl
          | ok read =>
              have hlater := length_lt_of_readField hunion hread
              have hrest := @ih read.2 rounds' (by omega) (by omega)
              dsimp only [bind, Except.bind]
              rw [hrest]

theorem branches_readFields (hunion : Shrinks union) :
    Branches .closeBrace (readFields union) (fun rest ↦ .ok ([], rest)) fun rest ↦
      readField union rest >>= fun first ↦ readFields union first.2 >>= fun others ↦
        .ok (first.1 :: others.1, others.2) where
  cons _ _ := rfl
  of_ne {located} h := by
    rw [readFields, readFieldsWithin, eat?_eq_none h]
    cases hread : readField union located with
    | error fault => rfl
    | ok read =>
        have hlater := length_lt_of_readField hunion hread
        have hrounds : readFieldsWithin union located.length read.2 = readFields union read.2 :=
          readFieldsWithin_eq_of_lt hunion hlater (Nat.lt_succ_self _)
        dsimp only [bind, Except.bind]
        rw [hrounds]
        rfl

theorem foretells_readFields (hunion : Shrinks union) (hother : Shrinks other)
    (h : Foretells union other) : Foretells (readFields union) (readFields other) := by
  intro located
  induction hlength : located.length using Nat.strongRecOn generalizing located with
  | _ length ih =>
      subst hlength
      rcases eq_cons_or_ne .closeBrace located with ⟨offset, later, rfl⟩ | hne
      · exact (Settles.done [] later).cons _ ((branches_readFields hother).cons offset)
      · rw [(branches_readFields hunion).of_ne hne]
        refine Settles.congr ?_ fun located' hsame ↦
          (branches_readFields hother).of_ne (hsame ▸ hne)
        refine (foretells_readField h located).bind fun first later hread ↦ ?_
        exact (ih _ (length_lt_of_readField hunion hread) later rfl).map (List.cons first)

theorem readPrimary_of_ne (union : Reader TypeExpr)
    (h : ∀ token, nextToken located = some token → token.opensType = false) :
    readPrimary union located = .error (.expected .type located) := by
  rw [readPrimary.eq_def]
  split
  case h_7 => rfl
  all_goals cases h _ rfl

theorem foretells_readPrimary (hunion : Shrinks union) (hother : Shrinks other)
    (h : Foretells union other) : Foretells (readPrimary union) (readPrimary other) := by
  intro located
  by_cases hopens : ∃ token, nextToken located = some token ∧ token.opensType = true
  · obtain ⟨token, hhead, hopens⟩ := hopens
    rcases located with _ | ⟨⟨offset, first⟩, later⟩
    · cases hhead
    obtain rfl : first = token := Option.some.inj hhead
    cases first with
    | word name =>
        exact ((foretells_readArguments hunion hother h later).map (TypeExpr.named name)).cons _
          fun _ ↦ rfl
    | text value => exact (Settles.done (TypeExpr.text value) later).cons _ fun _ ↦ rfl
    | number spelling => exact (Settles.done (TypeExpr.number spelling) later).cons _ fun _ ↦ rfl
    | mark mark =>
        cases mark with
        | openBracket =>
            exact ((foretells_readTuple hunion hother h later).map TypeExpr.tuple).cons _
              fun _ ↦ rfl
        | openBrace =>
            exact ((foretells_readFields hunion hother h later).map TypeExpr.shape).cons _
              fun _ ↦ rfl
        | openParen =>
            have hinner : Settles
                (fun rest ↦ other rest >>= fun inner ↦
                  expect .closeParen inner.2 >>= fun last ↦ .ok (inner.1, last)) later
                (union later >>= fun inner ↦
                  expect .closeParen inner.2 >>= fun last ↦ .ok (inner.1, last)) :=
              (h later).bind fun inner _ _ ↦ Settles.expect fun last ↦ Settles.done inner last
            exact hinner.cons _ fun _ ↦ rfl
        | _ => cases hopens
  · have hne : ∀ token, nextToken located = some token → token.opensType = false :=
      fun token hhead ↦ Bool.eq_false_iff.mpr fun htrue ↦ hopens ⟨token, hhead, htrue⟩
    rw [readPrimary_of_ne union hne]
    exact (Settles.refuse .type located).congr fun _ hsame ↦ readPrimary_of_ne other (hsame ▸ hne)

end

/-! ## Unions -/

/-- What follows a pair of brackets. -/
def readSuffixesAfter : ℕ → TypeExpr → Reader TypeExpr
  | 0, _ => fun rest ↦ .error (.tooDeep rest)
  | room + 1, element => readSuffixes room (.array element)

theorem branches_readSuffixes (room : ℕ) (element : TypeExpr) :
    Branches .openBracket (readSuffixes room element)
      (fun rest ↦ expect .closeBracket rest >>= readSuffixesAfter room element)
      fun rest ↦ .ok (element, rest) where
  cons _ _ := by cases room <;> rfl
  of_ne h := by rw [readSuffixes, eat?_eq_none h]

theorem foretells_readSuffixes (hroom : room ≤ more) (element : TypeExpr) :
    Foretells (readSuffixes room element) (readSuffixes more element) := by
  induction room generalizing more element with
  | zero =>
      refine .of_branches (branches_readSuffixes 0 element) (branches_readSuffixes more element)
        (fun _ ↦ Settles.expect fun rest ↦ ?_) (foretells_done element)
      exact .stopped (List.suffix_refl rest)
  | succ room ih =>
      obtain ⟨more, rfl⟩ := Nat.exists_eq_succ_of_ne_zero (Nat.ne_zero_of_lt hroom)
      refine .of_branches (branches_readSuffixes (room + 1) element)
        (branches_readSuffixes (more + 1) element) (fun _ ↦ Settles.expect fun rest ↦ ?_)
        (foretells_done element)
      exact ih (Nat.le_of_succ_le_succ hroom) (.array element) rest

theorem Yields.shrinks {tokens : β → List Token} {tree : β → α} {condition : β → Prop}
    {reader : Reader α} (h : Yields reader tokens tree condition) : Shrinks reader := by
  intro located a later hread
  obtain ⟨phrase, -, -, htokens⟩ := h hread
  rw [length_eq_of_map htokens]
  omega

theorem shrinks_readUnion (room : ℕ) : Shrinks (readUnion room) :=
  (yields_readUnion room).shrinks

theorem shrinks_readSuffixed (room : ℕ) : Shrinks (readSuffixed room (readUnion room)) :=
  (yields_readSuffixed (yields_readUnion room)).shrinks

/-- The members of a union behind the bar in front of them. -/
def readMembers (room : ℕ) : Reader TypeExpr := fun rest ↦
  readItems .bar (readSuffixed room (readUnion room)) rest >>= fun members ↦
    .ok (ofMembers members.1, members.2)

theorem branches_readUnion (room : ℕ) :
    Branches .bar (readUnion (room + 1)) (readMembers room) (readMembers room) where
  cons _ _ := rfl
  of_ne h := by
    rw [readUnion, eat?_eq_none h]
    rfl

theorem foretells_readUnion (hroom : room ≤ more) :
    Foretells (readUnion room) (readUnion more) := by
  induction room generalizing more with
  | zero => exact fun located ↦ .stopped (List.suffix_refl located)
  | succ room ih =>
      obtain ⟨more, rfl⟩ := Nat.exists_eq_succ_of_ne_zero (Nat.ne_zero_of_lt hroom)
      have hroom := Nat.le_of_succ_le_succ hroom
      have hsuffixed : Foretells (readSuffixed room (readUnion room))
          (readSuffixed more (readUnion more)) := fun located ↦
        (foretells_readPrimary (shrinks_readUnion room) (shrinks_readUnion more) (ih hroom)
          located).bind fun element later _ ↦ foretells_readSuffixes hroom element later
      have hmembers : Foretells (readMembers room) (readMembers more) := fun located ↦
        (foretells_readItems (shrinks_readSuffixed room) (shrinks_readSuffixed more) hsuffixed .bar
          located).map ofMembers
      exact .of_branches (branches_readUnion room) (branches_readUnion more) hmembers hmembers

end Wiring.TypeExpr
