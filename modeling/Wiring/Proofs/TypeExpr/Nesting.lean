import Mathlib.Algebra.BigOperators.Intervals
import Wiring.Proofs.TypeExpr.Accepted

/-!
# How deep accepted types are

Unions use up the room of a reader for all that is inside them, and so does everything with items
or fields.  Array suffixes use up room only until the type that they stand behind is complete: then
the types around it have the room again.  So each level of groups may have suffixes of its own, and
the arrays of a path add up.
-/

namespace Wiring

/-- What a path from the root of a type to one of its leaves passes through. -/
inductive TypeLevel where
  | array
  | arguments
  | tuple
  | shape
  deriving DecidableEq

/-- The paths that pass through one level more; where there is nothing inside, that level alone. -/
def through (level : TypeLevel) : List (List TypeLevel) → List (List TypeLevel)
  | [] => [[level]]
  | paths => paths.map (level :: ·)

mutual

/-- The levels on each path to a leaf, the outermost first. -/
def TypeExpr.paths : TypeExpr → List (List TypeLevel)
  | .named _ [] => [[]]
  | .named _ (first :: others) => through .arguments (first.paths ++ TypeExpr.pathsOfAll others)
  | .array element => through .array element.paths
  | .tuple items => through .tuple (TypeExpr.pathsOfAll items)
  | .shape fields => through .shape (FieldExpr.pathsOfAll fields)
  | .union members => TypeExpr.pathsOfAll members
  | .text _ => [[]]
  | .number _ => [[]]

def FieldExpr.paths : FieldExpr → List (List TypeLevel)
  | .mk _ _ type => type.paths

def TypeExpr.pathsOfAll : List TypeExpr → List (List TypeLevel)
  | [] => []
  | expr :: exprs => expr.paths ++ TypeExpr.pathsOfAll exprs

def FieldExpr.pathsOfAll : List FieldExpr → List (List TypeLevel)
  | [] => []
  | field :: fields => field.paths ++ FieldExpr.pathsOfAll fields

end

theorem TypeExpr.mem_pathsOfAll {path : List TypeLevel} {exprs : List TypeExpr} :
    path ∈ TypeExpr.pathsOfAll exprs ↔ ∃ expr ∈ exprs, path ∈ expr.paths := by
  induction exprs with
  | nil => simp [TypeExpr.pathsOfAll]
  | cons expr exprs ih => simp [TypeExpr.pathsOfAll, ih]

theorem FieldExpr.mem_pathsOfAll {path : List TypeLevel} {fields : List FieldExpr} :
    path ∈ FieldExpr.pathsOfAll fields ↔ ∃ field ∈ fields, path ∈ field.paths := by
  induction fields with
  | nil => simp [FieldExpr.pathsOfAll]
  | cons field fields ih => simp [FieldExpr.pathsOfAll, ih]

/-- The levels that are groups: arrays are not. -/
def groups (path : List TypeLevel) : List TypeLevel :=
  path.filter (· ≠ .array)

/-- No path has more levels, and none has more groups. -/
def AtMost (levels around : ℕ) (paths : List (List TypeLevel)) : Prop :=
  ∀ path ∈ paths, path.length ≤ levels ∧ (groups path).length ≤ around

section

variable {levels around : ℕ} {paths : List (List TypeLevel)}

theorem AtMost.mono (h : AtMost levels around paths) {more wider : ℕ} (hlevels : levels ≤ more)
    (haround : around ≤ wider) : AtMost more wider paths := by
  intro path hpath
  obtain ⟨hlength, hgroups⟩ := h path hpath
  exact ⟨hlength.trans hlevels, hgroups.trans haround⟩

theorem AtMost.through (h : AtMost levels around paths) (level : TypeLevel) :
    AtMost (levels + 1) (around + 1) (Wiring.through level paths) := by
  intro path hpath
  rw [Wiring.through.eq_def] at hpath
  split at hpath
  · obtain rfl := List.mem_singleton.mp hpath
    have hgroups : (groups [level]).length ≤ 1 := List.length_filter_le _ _
    exact ⟨Nat.le_add_left _ _, hgroups.trans (Nat.le_add_left _ _)⟩
  · obtain ⟨inner, hinner, rfl⟩ := List.mem_map.mp hpath
    obtain ⟨hlength, hgroups⟩ := h inner hinner
    refine ⟨Nat.succ_le_succ hlength, ?_⟩
    rw [groups, List.filter_cons]
    split_ifs
    · exact Nat.succ_le_succ hgroups
    · exact Nat.le_succ_of_le hgroups

theorem AtMost.array (h : AtMost levels around paths) :
    AtMost (levels + 1) around (Wiring.through .array paths) := by
  intro path hpath
  rw [Wiring.through.eq_def] at hpath
  split at hpath
  · obtain rfl := List.mem_singleton.mp hpath
    exact ⟨Nat.le_add_left _ _, Nat.zero_le _⟩
  · obtain ⟨inner, hinner, rfl⟩ := List.mem_map.mp hpath
    obtain ⟨hlength, hgroups⟩ := h inner hinner
    exact ⟨Nat.succ_le_succ hlength, hgroups⟩

theorem AtMost.suffixes {element : TypeExpr} (h : AtMost levels around element.paths)
    (suffixes : ℕ) : AtMost (levels + suffixes) around (suffixTree suffixes element).paths := by
  induction suffixes generalizing levels element with
  | zero => exact h
  | succ suffixes ih =>
      have harray : AtMost (levels + 1) around (TypeExpr.array element).paths := by
        rw [TypeExpr.paths]
        exact h.array
      exact (ih harray).mono (by omega) le_rfl

theorem atMost_append {more : List (List TypeLevel)} (h : AtMost levels around paths)
    (hmore : AtMost levels around more) : AtMost levels around (paths ++ more) :=
  List.forall_mem_append.mpr ⟨h, hmore⟩

theorem atMost_pathsOfAll {exprs : List TypeExpr}
    (h : ∀ expr ∈ exprs, AtMost levels around expr.paths) :
    AtMost levels around (TypeExpr.pathsOfAll exprs) := by
  intro path hpath
  obtain ⟨expr, hexpr, hpath⟩ := TypeExpr.mem_pathsOfAll.mp hpath
  exact h expr hexpr path hpath

theorem atMost_leaf (levels around : ℕ) : AtMost levels around [[]] :=
  List.forall_mem_singleton.mpr ⟨Nat.zero_le _, Nat.zero_le _⟩

end

def suffixMarks : ℕ → List Mark
  | 0 => []
  | suffixes + 1 => .openBracket :: .closeBracket :: suffixMarks suffixes

theorem suffixTokens_eq (suffixes : ℕ) :
    suffixTokens suffixes = (suffixMarks suffixes).map Token.mark := by
  induction suffixes with
  | zero => rfl
  | succ suffixes ih => rw [suffixTokens, ih]; rfl

theorem mem_through_of_mem {level : TypeLevel} {path : List TypeLevel}
    {paths : List (List TypeLevel)} (h : path ∈ paths) : level :: path ∈ through level paths := by
  cases paths with
  | nil => exact absurd h List.not_mem_nil
  | cons first others => exact List.mem_map_of_mem h

theorem mem_paths_suffixTree {element : TypeExpr} {path : List TypeLevel} (suffixes : ℕ)
    (h : path ∈ element.paths) :
    List.replicate suffixes .array ++ path ∈ (suffixTree suffixes element).paths := by
  induction suffixes generalizing element path with
  | zero => exact h
  | succ suffixes ih =>
      have harray : TypeLevel.array :: path ∈ (TypeExpr.array element).paths := by
        rw [TypeExpr.paths]
        exact mem_through_of_mem h
      rw [List.replicate_succ', List.append_assoc]
      exact ih harray

/-- The levels that a reader has room for: in each group inside it there is room for one suffix
less, and the group itself is a level. -/
def capacity (room : ℕ) : ℕ :=
  room * (room + 1) / 2

theorem capacity_succ (room : ℕ) : capacity (room + 1) = capacity room + (room + 1) := by
  have hsucc := Nat.triangle_succ (room + 1)
  rw [Nat.add_sub_cancel, Nat.add_sub_cancel, Nat.mul_comm, Nat.mul_comm (room + 1) room] at hsucc
  exact hsucc

namespace TypeExpr

/-- The paths of a phrase that fits into the room. -/
theorem atMost_capacity (phrase : UnionPhrase) : ∀ {around room : ℕ},
    Fits phrase.depths around room → AtMost (capacity room) room phrase.tree.paths := by
  refine @UnionPhrase.induct
    (fun phrase ↦ ∀ {around room : ℕ}, Fits phrase.depths around room →
      AtMost (capacity room) room phrase.tree.paths)
    (fun phrase ↦ ∀ {around room : ℕ}, Fits phrase.depths around room →
      AtMost (capacity (room + 1)) (room + 1) phrase.tree.paths)
    (fun phrase ↦ ∀ {around room : ℕ}, Fits phrase.depths around room →
      AtMost (capacity room + 1) (room + 1) phrase.tree.paths)
    (fun field ↦ ∀ {around room : ℕ}, Fits field.depths around room →
      AtMost (capacity room) room field.tree.paths)
    ?union ?suffixed (fun _ _ _ _ ↦ atMost_leaf _ _) ?container ?emptyTuple ?tuple ?shape
    ?parenthesized (fun _ _ _ _ ↦ atMost_leaf _ _) (fun _ _ _ _ ↦ atMost_leaf _ _) ?field phrase
  case union =>
    intro bar first others hfirst hothers around room h
    obtain ⟨inner, rfl, hfits, hothersFit⟩ := exists_room_of_fits h
    have hmembers := fun other hother ↦ hothers other hother (hothersFit other hother)
    cases others with
    | nil => exact hfirst hfits
    | cons second others =>
        obtain ⟨hsecond, hmembers⟩ := List.forall_mem_cons.mp hmembers
        rw [UnionPhrase.tree, SuffixedPhrase.trees_eq, paths, pathsOfAll, pathsOfAll]
        exact atMost_append (hfirst hfits) (atMost_append hsecond
          (atMost_pathsOfAll (List.forall_mem_map.mpr hmembers)))
  case suffixed =>
    intro primary suffixes hprimary around room h
    obtain ⟨hroom, hfits⟩ := fits_of_fits_suffixed h
    have hcapacity := capacity_succ room
    exact ((hprimary hfits).suffixes suffixes).mono (by omega) le_rfl
  case container =>
    intro name first others hfirst hothers around room h
    obtain ⟨hfits, hothersFit⟩ := fits_items h
    rw [PrimaryPhrase.tree, UnionPhrase.trees_eq, paths]
    refine (atMost_append (hfirst hfits) (atMost_pathsOfAll ?_)).through .arguments
    exact List.forall_mem_map.mpr fun other hother ↦
      hothers other hother (hothersFit other hother)
  case emptyTuple =>
    intro around room _
    have hnone : AtMost (capacity room) room (pathsOfAll []) := List.forall_mem_nil _
    exact hnone.through .tuple
  case tuple =>
    intro first others hfirst hothers around room h
    obtain ⟨hfits, hothersFit⟩ := fits_items h
    rw [PrimaryPhrase.tree, UnionPhrase.trees_eq, paths, pathsOfAll]
    refine (atMost_append (hfirst hfits) (atMost_pathsOfAll ?_)).through .tuple
    exact List.forall_mem_map.mpr fun other hother ↦
      hothers other hother (hothersFit other hother)
  case shape =>
    intro fields hfields around room h
    rw [PrimaryPhrase.tree, FieldPhrase.trees_eq, paths]
    refine AtMost.through (fun path hpath ↦ ?_) .shape
    obtain ⟨_, hmem, hpath⟩ := FieldExpr.mem_pathsOfAll.mp hpath
    obtain ⟨field, hfield, rfl⟩ := List.mem_map.mp hmem
    refine hfields field hfield (fun depth hdepth ↦ h depth ?_) path hpath
    exact FieldPhrase.mem_allDepths.mpr ⟨field, hfield, hdepth⟩
  case parenthesized =>
    intro inner hinner around room h
    exact (hinner h).mono (Nat.le_succ _) (Nat.le_succ _)
  case field =>
    intro quoted name optional type ending htype around room h
    exact htype h

/-! ## Types that use all the room -/

/-- The bounds are reached: each group holds the next one and has as many suffixes as there is room
for. -/
theorem exists_phrase_of_capacity (room : ℕ) : ∃ (phrase : UnionPhrase) (marks : List Mark),
    phrase.tokens = marks.map Token.mark ∧ (∀ around, Fits phrase.depths around (room + 1)) ∧
      ∃ path ∈ phrase.tree.paths,
        path.length = capacity (room + 1) ∧ (groups path).length = room + 1 := by
  induction room with
  | zero =>
      refine ⟨.mk false (.mk .emptyTuple 0) [], [.openBracket, .closeBracket], rfl,
        fun around depth hdepth ↦ ?_, [.tuple], by decide, rfl, rfl⟩
      have honly : depth = around + 1 := by simpa [SuffixedPhrase.allDepths] using hdepth
      omega
  | succ room ih =>
      obtain ⟨inner, marks, htokens, hfits, path, hpath, hlength, hgroups⟩ := ih
      refine ⟨.mk false (.mk (.tuple inner []) (room + 1)) [], .openBracket :: (marks ++
        .closeBracket :: suffixMarks (room + 1)), ?_, fun around depth hdepth ↦ ?_,
        List.replicate (room + 1) .array ++ .tuple :: path, ?_, ?_, ?_⟩
      · simp [htokens, written, SuffixedPhrase.laterTokens, UnionPhrase.laterTokens,
          suffixTokens_eq]
      · have hcases : depth ∈ inner.depths (around + 1) ∨
            ∃ before ≤ room + 1, around + 1 + before = depth := by
          simpa [SuffixedPhrase.allDepths, UnionPhrase.allDepths] using hdepth
        rcases hcases with hinner | ⟨before, hbefore, rfl⟩
        · have hle := hfits (around + 1) depth hinner
          omega
        · omega
      · refine mem_paths_suffixTree (room + 1) ?_
        rw [PrimaryPhrase.tree, UnionPhrase.trees, paths, pathsOfAll, pathsOfAll]
        exact mem_through_of_mem (List.mem_append_left [] hpath)
      · rw [List.length_append, List.length_replicate, List.length_cons, hlength,
          capacity_succ (room + 1)]
        omega
      · rw [groups, List.filter_append, List.filter_replicate, List.filter_cons, ← groups]
        simp [hgroups]

end TypeExpr

theorem tokens_mark_cons (mark : Mark) (rest : List Char) (offset : ℕ) :
    tokens offset (mark.char :: rest) =
      (tokens (offset + mark.char.utf8Size) rest).map (⟨offset, .mark mark⟩ :: ·) := by
  have hblank : Text.isBlank mark.char = false := by cases mark <;> decide
  have hread : Token.read? mark.char rest = .ok (.mark mark, 1) := by
    rw [Token.read?, Mark.ofChar?_char]
  rw [tokens, hblank, hread]
  simp only [Bool.false_eq_true, if_false, Nat.sub_self, List.take_zero, List.drop_zero]
  have hlength : byteLength [mark.char] = mark.char.utf8Size := rfl
  rw [hlength]
  cases tokens (offset + mark.char.utf8Size) rest <;> rfl

theorem exists_tokens_marks (marks : List Mark) (offset : ℕ) : ∃ located,
    tokens offset (marks.map Mark.char) = .ok located ∧
      located.map Located.token = marks.map Token.mark := by
  induction marks generalizing offset with
  | nil => exact ⟨[], by simp [tokens], rfl⟩
  | cons mark marks ih =>
      obtain ⟨located, hlocated, htokens⟩ := ih (offset + mark.char.utf8Size)
      refine ⟨⟨offset, .mark mark⟩ :: located, ?_, congrArg (List.cons _) htokens⟩
      rw [List.map_cons, tokens_mark_cons, hlocated]
      rfl

/-- The text falls into the tokens of the phrase. -/
def UnionPhrase.Spells (phrase : UnionPhrase) (text : String) : Prop :=
  ∃ located, Wiring.tokens 0 text.toList = .ok located ∧
    phrase.tokens = located.map Located.token

namespace TypeExpr

theorem parse_marks {phrase : UnionPhrase} {marks : List Mark}
    (htokens : phrase.tokens = marks.map Token.mark) (hfits : Fits phrase.depths 0 nestingLimit) :
    parse (String.ofList (marks.map Mark.char)) = .ok phrase.tree := by
  obtain ⟨located, hlocated, hmarks⟩ := exists_tokens_marks marks 0
  have hread : ofTokens located = .ok phrase.tree := by
    refine ofTokens_eq_ok_iff.mpr ⟨phrase, htokens.trans hmarks.symm, fun depth hdepth ↦ ?_, rfl⟩
    exact (hfits depth hdepth).trans_eq (Nat.zero_add _)
  simp [parse, hlocated, hread, Except.mapError]

theorem exists_phrase_of_parse {text : String} {expr : TypeExpr} (h : parse text = .ok expr) :
    ∃ phrase : UnionPhrase, phrase.Spells text ∧ Fits phrase.depths 0 nestingLimit ∧
      phrase.tree = expr := by
  rw [parse] at h
  split at h
  · cases h
  · next located hlocated =>
      have hread : ofTokens located = .ok expr := by
        cases hread : ofTokens located with
        | error fault => rw [hread] at h; cases h
        | ok tree => rw [hread] at h; cases h; rfl
      obtain ⟨phrase, htokens, hdepths, htree⟩ := ofTokens_eq_ok_iff.mp hread
      refine ⟨phrase, ⟨located, hlocated, htokens⟩, fun depth hdepth ↦ ?_, htree⟩
      simpa using hdepths depth hdepth

/-- The paths of the types that are accepted. -/
def acceptedPaths : Set (List TypeLevel) :=
  {path | ∃ text expr, parse text = .ok expr ∧ path ∈ expr.paths}

/-- The limit bounds the groups around a point, but not the levels: what it leaves for arrays is
there again in each group. -/
theorem isGreatest_levels_of_parse :
    IsGreatest (List.length '' acceptedPaths) (capacity nestingLimit) ∧
      IsGreatest ((fun path ↦ (groups path).length) '' acceptedPaths) nestingLimit := by
  have hbounds : ∀ path ∈ acceptedPaths,
      path.length ≤ capacity nestingLimit ∧ (groups path).length ≤ nestingLimit := by
    rintro path ⟨text, expr, hparse, hpath⟩
    obtain ⟨phrase, -, hfits, rfl⟩ := exists_phrase_of_parse hparse
    exact atMost_capacity phrase hfits path hpath
  obtain ⟨path, haccepted, hlength, hgroups⟩ : ∃ path ∈ acceptedPaths,
      path.length = capacity nestingLimit ∧ (groups path).length = nestingLimit := by
    obtain ⟨phrase, marks, htokens, hfits, path, hpath, hreached⟩ := exists_phrase_of_capacity 255
    exact ⟨path, ⟨_, _, parse_marks htokens (hfits 0), hpath⟩, hreached⟩
  refine ⟨⟨⟨path, haccepted, hlength⟩, ?_⟩, ⟨path, haccepted, hgroups⟩, ?_⟩
  · rintro _ ⟨other, hother, rfl⟩
    exact (hbounds other hother).1
  · rintro _ ⟨other, hother, rfl⟩
    exact (hbounds other hother).2

end TypeExpr

end Wiring
