import Wiring.Proofs.TypeExpr.Nesting

/-!
# What a reader has counted at a leaf

At a leaf of a phrase the reader has counted the unions around it and the suffixes of the leaf
itself.  The suffixes behind the groups around the leaf are levels too, but they are not counted
there, while the outermost union and those in parentheses are counted and are no levels.  A path is
within the limit when the former are no more than the latter and the room that is left together.
-/

namespace Wiring

/-- The levels on the way to a leaf, and what of them a reader has counted there. -/
structure PhraseLeaf where
  path : List TypeLevel
  /-- The unions around the leaf and the suffixes of the leaf itself. -/
  counted : ℕ
  /-- Levels that are not counted: suffixes behind what is around the leaf, and the leaf itself
  where it is an empty tuple or shape. -/
  forgotten : ℕ
  /-- Parentheses around the leaf, which are counted and are no levels. -/
  parentheses : ℕ

namespace PhraseLeaf

def single (suffixes : ℕ) : PhraseLeaf :=
  ⟨List.replicate suffixes .array, suffixes, 0, 0⟩

def empty (suffixes : ℕ) (level : TypeLevel) : PhraseLeaf :=
  ⟨List.replicate suffixes .array ++ [level], suffixes, 1, 0⟩

/-- The leaf as one of a union. -/
def inUnion (leaf : PhraseLeaf) : PhraseLeaf :=
  { leaf with counted := leaf.counted + 1 }

/-- The leaf inside a level that has suffixes behind it. -/
def inLevel (suffixes : ℕ) (level : TypeLevel) (leaf : PhraseLeaf) : PhraseLeaf :=
  { leaf with
    path := List.replicate suffixes .array ++ level :: leaf.path
    forgotten := leaf.forgotten + suffixes }

/-- The leaf inside parentheses that have suffixes behind them. -/
def inParentheses (suffixes : ℕ) (leaf : PhraseLeaf) : PhraseLeaf :=
  { leaf with
    path := List.replicate suffixes .array ++ leaf.path
    forgotten := leaf.forgotten + suffixes
    parentheses := leaf.parentheses + 1 }

end PhraseLeaf

mutual

/-- The leaves of a phrase, in the order of their paths. -/
def UnionPhrase.leaves : UnionPhrase → List PhraseLeaf
  | .mk _ first others => (first.leaves ++ SuffixedPhrase.allLeaves others).map .inUnion

def SuffixedPhrase.leaves : SuffixedPhrase → List PhraseLeaf
  | .mk primary suffixes => primary.leaves suffixes

def PrimaryPhrase.leaves (suffixes : ℕ) : PrimaryPhrase → List PhraseLeaf
  | .word _ => [.single suffixes]
  | .container _ first others =>
    (first.leaves ++ UnionPhrase.allLeaves others).map (.inLevel suffixes .arguments)
  | .emptyTuple => [.empty suffixes .tuple]
  | .tuple first others =>
    (first.leaves ++ UnionPhrase.allLeaves others).map (.inLevel suffixes .tuple)
  | .shape [] => [.empty suffixes .shape]
  | .shape (first :: others) =>
    (first.leaves ++ FieldPhrase.allLeaves others).map (.inLevel suffixes .shape)
  | .parenthesized inner => inner.leaves.map (.inParentheses suffixes)
  | .text _ => [.single suffixes]
  | .number _ => [.single suffixes]

def FieldPhrase.leaves : FieldPhrase → List PhraseLeaf
  | .mk _ _ _ type _ => type.leaves

def SuffixedPhrase.allLeaves : List SuffixedPhrase → List PhraseLeaf
  | [] => []
  | phrase :: phrases => phrase.leaves ++ SuffixedPhrase.allLeaves phrases

def UnionPhrase.allLeaves : List UnionPhrase → List PhraseLeaf
  | [] => []
  | phrase :: phrases => phrase.leaves ++ UnionPhrase.allLeaves phrases

def FieldPhrase.allLeaves : List FieldPhrase → List PhraseLeaf
  | [] => []
  | field :: fields => field.leaves ++ FieldPhrase.allLeaves fields

end

theorem SuffixedPhrase.allLeaves_eq (phrases : List SuffixedPhrase) :
    SuffixedPhrase.allLeaves phrases = phrases.flatMap leaves := by
  induction phrases with
  | nil => rfl
  | cons phrase phrases ih => rw [SuffixedPhrase.allLeaves, ih, List.flatMap_cons]

theorem UnionPhrase.allLeaves_eq (phrases : List UnionPhrase) :
    UnionPhrase.allLeaves phrases = phrases.flatMap leaves := by
  induction phrases with
  | nil => rfl
  | cons phrase phrases ih => rw [UnionPhrase.allLeaves, ih, List.flatMap_cons]

theorem FieldPhrase.allLeaves_eq (fields : List FieldPhrase) :
    FieldPhrase.allLeaves fields = fields.flatMap leaves := by
  induction fields with
  | nil => rfl
  | cons field fields ih => rw [FieldPhrase.allLeaves, ih, List.flatMap_cons]

theorem SuffixedPhrase.subset_allDepths {around : ℕ} {phrase : SuffixedPhrase}
    {phrases : List SuffixedPhrase} (h : phrase ∈ phrases) :
    phrase.depths around ⊆ SuffixedPhrase.allDepths around phrases :=
  fun _ hdepth ↦ mem_allDepths.mpr ⟨phrase, h, hdepth⟩

theorem UnionPhrase.subset_allDepths {around : ℕ} {phrase : UnionPhrase}
    {phrases : List UnionPhrase} (h : phrase ∈ phrases) :
    phrase.depths around ⊆ UnionPhrase.allDepths around phrases :=
  fun _ hdepth ↦ mem_allDepths.mpr ⟨phrase, h, hdepth⟩

/-- Leaves of a list of phrases are leaves of its first one or of another. -/
theorem forall_leaves_cons {α : Type} {leaves : α → List PhraseLeaf} {P : PhraseLeaf → Prop}
    {first : α} {others : List α} (hfirst : ∀ leaf ∈ leaves first, P leaf)
    (hothers : ∀ other ∈ others, ∀ leaf ∈ leaves other, P leaf) :
    ∀ leaf ∈ leaves first ++ others.flatMap leaves, P leaf := by
  refine List.forall_mem_append.mpr ⟨hfirst, fun leaf hleaf ↦ ?_⟩
  obtain ⟨other, hother, hleaf⟩ := List.mem_flatMap.mp hleaf
  exact hothers other hother leaf hleaf

theorem through_of_ne_nil {level : TypeLevel} {paths : List (List TypeLevel)} (h : paths ≠ []) :
    through level paths = paths.map (level :: ·) := by
  cases paths with
  | nil => exact absurd rfl h
  | cons first others => rfl

theorem paths_suffixTree {element : TypeExpr} (suffixes : ℕ) (h : element.paths ≠ []) :
    (suffixTree suffixes element).paths =
      element.paths.map (List.replicate suffixes .array ++ ·) := by
  induction suffixes generalizing element with
  | zero => simp [suffixTree]
  | succ suffixes ih =>
      have harray : (TypeExpr.array element).paths = element.paths.map (.array :: ·) := by
        rw [TypeExpr.paths, through_of_ne_nil h]
      have hne : (TypeExpr.array element).paths ≠ [] := by
        rwa [harray, ne_eq, List.map_eq_nil_iff]
      rw [suffixTree, ih hne, harray, List.map_map]
      exact List.map_congr_left fun path _ ↦ by simp [List.replicate_succ']

theorem paths_inLevel {paths : List (List TypeLevel)} {leaves : List PhraseLeaf}
    (h : paths = leaves.map PhraseLeaf.path) (hleaves : leaves ≠ []) (level : TypeLevel) :
    through level paths ≠ [] ∧ ∀ suffixes,
      (through level paths).map (List.replicate suffixes .array ++ ·) =
        (leaves.map (.inLevel suffixes level)).map PhraseLeaf.path := by
  have hne : paths ≠ [] := by
    rwa [h, ne_eq, List.map_eq_nil_iff]
  rw [through_of_ne_nil hne]
  refine ⟨by rwa [ne_eq, List.map_eq_nil_iff], fun suffixes ↦ ?_⟩
  rw [h, List.map_map, List.map_map, List.map_map]
  rfl

theorem TypeExpr.pathsOfAll_map {α : Type} {tree : α → TypeExpr} {leaves : α → List PhraseLeaf}
    {phrases : List α}
    (h : ∀ phrase ∈ phrases, (tree phrase).paths = (leaves phrase).map PhraseLeaf.path) :
    TypeExpr.pathsOfAll (phrases.map tree) = (phrases.flatMap leaves).map PhraseLeaf.path := by
  induction phrases with
  | nil => rfl
  | cons phrase phrases ih =>
      obtain ⟨hphrase, hphrases⟩ := List.forall_mem_cons.mp h
      rw [List.map_cons, TypeExpr.pathsOfAll, hphrase, ih hphrases, List.flatMap_cons,
        List.map_append]

theorem FieldExpr.pathsOfAll_map {fields : List FieldPhrase}
    (h : ∀ field ∈ fields, field.tree.paths = field.leaves.map PhraseLeaf.path) :
    FieldExpr.pathsOfAll (fields.map FieldPhrase.tree) =
      (fields.flatMap FieldPhrase.leaves).map PhraseLeaf.path := by
  induction fields with
  | nil => rfl
  | cons field fields ih =>
      obtain ⟨hfield, hfields⟩ := List.forall_mem_cons.mp h
      rw [List.map_cons, FieldExpr.pathsOfAll, hfield, ih hfields, List.flatMap_cons,
        List.map_append]

namespace UnionPhrase

theorem leaves_ne_nil (phrase : UnionPhrase) : phrase.leaves ≠ [] := by
  refine @UnionPhrase.induct (fun phrase ↦ phrase.leaves ≠ []) (fun phrase ↦ phrase.leaves ≠ [])
    (fun phrase ↦ ∀ suffixes, phrase.leaves suffixes ≠ []) (fun field ↦ field.leaves ≠ [])
    ?union ?suffixed ?word ?container ?emptyTuple ?tuple ?shape ?parenthesized ?text ?number
    ?field phrase
  case union =>
    intro bar first others hfirst _
    simp [leaves, hfirst]
  case suffixed => exact fun inner suffixes hinner ↦ hinner suffixes
  case container =>
    intro name first others hfirst _ suffixes
    simp [PrimaryPhrase.leaves, hfirst]
  case tuple =>
    intro first others hfirst _ suffixes
    simp [PrimaryPhrase.leaves, hfirst]
  case shape =>
    intro fields hfields suffixes
    cases fields with
    | nil => exact List.cons_ne_nil _ _
    | cons first others => simp [PrimaryPhrase.leaves, (List.forall_mem_cons.mp hfields).1]
  case parenthesized =>
    intro inner hinner suffixes
    simp [PrimaryPhrase.leaves, hinner]
  case field => exact fun _ _ _ type _ htype ↦ htype
  case emptyTuple => exact fun _ ↦ List.cons_ne_nil _ _
  all_goals exact fun _ _ ↦ List.cons_ne_nil _ _

theorem paths_items {first : UnionPhrase} {others : List UnionPhrase}
    (hfirst : first.tree.paths = first.leaves.map PhraseLeaf.path)
    (hothers : ∀ other ∈ others, other.tree.paths = other.leaves.map PhraseLeaf.path)
    (level : TypeLevel) :
    through level (TypeExpr.pathsOfAll ((first :: others).map tree)) ≠ [] ∧ ∀ suffixes,
      (through level (TypeExpr.pathsOfAll ((first :: others).map tree))).map
          (List.replicate suffixes .array ++ ·) =
        (((first :: others).flatMap leaves).map (.inLevel suffixes level)).map PhraseLeaf.path := by
  refine paths_inLevel (TypeExpr.pathsOfAll_map ?_) (by simp [first.leaves_ne_nil]) level
  exact List.forall_mem_cons.mpr ⟨hfirst, hothers⟩

theorem paths_tree (phrase : UnionPhrase) :
    phrase.tree.paths = phrase.leaves.map PhraseLeaf.path := by
  have hsingle : ∀ suffixes, [[]].map (List.replicate suffixes TypeLevel.array ++ ·) =
      [PhraseLeaf.single suffixes].map PhraseLeaf.path := fun suffixes ↦ by
    simp [PhraseLeaf.single]
  refine @UnionPhrase.induct
    (fun phrase ↦ phrase.tree.paths = phrase.leaves.map PhraseLeaf.path)
    (fun phrase ↦ phrase.tree.paths = phrase.leaves.map PhraseLeaf.path)
    (fun phrase ↦ phrase.tree.paths ≠ [] ∧ ∀ suffixes,
      phrase.tree.paths.map (List.replicate suffixes .array ++ ·) =
        (phrase.leaves suffixes).map PhraseLeaf.path)
    (fun field ↦ field.tree.paths = field.leaves.map PhraseLeaf.path)
    ?union ?suffixed ?word ?container ?emptyTuple ?tuple ?shape ?parenthesized ?text ?number
    ?field phrase
  case union =>
    intro bar first others hfirst hothers
    have hinUnion : PhraseLeaf.path ∘ PhraseLeaf.inUnion = PhraseLeaf.path := rfl
    rw [leaves, List.map_map, hinUnion, SuffixedPhrase.allLeaves_eq, List.map_append, ← hfirst,
      ← TypeExpr.pathsOfAll_map hothers]
    cases others with
    | nil => rw [tree, List.map_nil, TypeExpr.pathsOfAll, List.append_nil]
    | cons second others =>
        rw [tree, SuffixedPhrase.trees_eq, TypeExpr.paths, TypeExpr.pathsOfAll, List.map_cons]
  case suffixed =>
    rintro primary suffixes ⟨hne, hprimary⟩
    rw [SuffixedPhrase.tree, SuffixedPhrase.leaves, paths_suffixTree suffixes hne, hprimary]
  case word => exact fun _ ↦ ⟨List.cons_ne_nil _ _, hsingle⟩
  case container =>
    intro name first others hfirst hothers
    rw [PrimaryPhrase.tree, UnionPhrase.trees_eq]
    simp only [PrimaryPhrase.leaves, UnionPhrase.allLeaves_eq]
    exact paths_items hfirst hothers .arguments
  case emptyTuple => exact ⟨List.cons_ne_nil _ _, fun _ ↦ rfl⟩
  case tuple =>
    intro first others hfirst hothers
    rw [PrimaryPhrase.tree, UnionPhrase.trees_eq]
    simp only [PrimaryPhrase.leaves, UnionPhrase.allLeaves_eq]
    exact paths_items hfirst hothers .tuple
  case shape =>
    intro fields hfields
    rw [PrimaryPhrase.tree, FieldPhrase.trees_eq]
    cases fields with
    | nil => exact ⟨List.cons_ne_nil _ _, fun _ ↦ rfl⟩
    | cons first others =>
        obtain ⟨quoted, name, optional, type, ending⟩ := first
        have hne : (FieldPhrase.mk quoted name optional type ending :: others).flatMap
            FieldPhrase.leaves ≠ [] := by
          simp [FieldPhrase.leaves, type.leaves_ne_nil]
        have hlevel := paths_inLevel (FieldExpr.pathsOfAll_map hfields) hne .shape
        simp only [PrimaryPhrase.leaves, FieldPhrase.allLeaves_eq]
        exact hlevel
  case parenthesized =>
    intro inner hinner
    have hne : inner.tree.paths ≠ [] := by
      rw [hinner, ne_eq, List.map_eq_nil_iff]
      exact inner.leaves_ne_nil
    refine ⟨hne, fun suffixes ↦ ?_⟩
    rw [PrimaryPhrase.tree, hinner, PrimaryPhrase.leaves, List.map_map, List.map_map]
    rfl
  case text => exact fun _ ↦ ⟨List.cons_ne_nil _ _, hsingle⟩
  case number => exact fun _ ↦ ⟨List.cons_ne_nil _ _, hsingle⟩
  case field => exact fun _ _ _ type _ htype ↦ htype

/-! ## Counts -/

/-- What holds of single leaves, and of a leaf by what it is inside, holds of all leaves. -/
theorem forall_leaves {ofUnion ofSuffixed : PhraseLeaf → Prop}
    (single : ∀ suffixes, ofSuffixed (.single suffixes))
    (empty : ∀ suffixes level, ofSuffixed (.empty suffixes level))
    (inUnion : ∀ leaf, ofSuffixed leaf → ofUnion leaf.inUnion)
    (inLevel : ∀ suffixes level leaf, ofUnion leaf → ofSuffixed (leaf.inLevel suffixes level))
    (inParentheses : ∀ suffixes leaf, ofUnion leaf → ofSuffixed (leaf.inParentheses suffixes))
    (phrase : UnionPhrase) : ∀ leaf ∈ phrase.leaves, ofUnion leaf := by
  refine @UnionPhrase.induct (fun phrase ↦ ∀ leaf ∈ phrase.leaves, ofUnion leaf)
    (fun phrase ↦ ∀ leaf ∈ phrase.leaves, ofSuffixed leaf)
    (fun phrase ↦ ∀ suffixes, ∀ leaf ∈ phrase.leaves suffixes, ofSuffixed leaf)
    (fun field ↦ ∀ leaf ∈ field.leaves, ofUnion leaf)
    ?union ?suffixed ?word ?container ?emptyTuple ?tuple ?shape ?parenthesized ?text ?number
    ?field phrase
  case union =>
    intro bar first others hfirst hothers
    rw [leaves, SuffixedPhrase.allLeaves_eq]
    exact List.forall_mem_map.mpr fun leaf hleaf ↦
      inUnion leaf (forall_leaves_cons hfirst hothers leaf hleaf)
  case suffixed => exact fun primary suffixes hprimary ↦ hprimary suffixes
  case container =>
    intro name first others hfirst hothers suffixes
    rw [PrimaryPhrase.leaves, allLeaves_eq]
    exact List.forall_mem_map.mpr fun leaf hleaf ↦
      inLevel suffixes .arguments leaf (forall_leaves_cons hfirst hothers leaf hleaf)
  case emptyTuple => exact fun suffixes ↦ List.forall_mem_singleton.mpr (empty suffixes .tuple)
  case tuple =>
    intro first others hfirst hothers suffixes
    rw [PrimaryPhrase.leaves, allLeaves_eq]
    exact List.forall_mem_map.mpr fun leaf hleaf ↦
      inLevel suffixes .tuple leaf (forall_leaves_cons hfirst hothers leaf hleaf)
  case shape =>
    intro fields hfields suffixes
    cases fields with
    | nil => exact List.forall_mem_singleton.mpr (empty suffixes .shape)
    | cons first others =>
        obtain ⟨hfirst, hothers⟩ := List.forall_mem_cons.mp hfields
        rw [PrimaryPhrase.leaves, FieldPhrase.allLeaves_eq]
        exact List.forall_mem_map.mpr fun leaf hleaf ↦
          inLevel suffixes .shape leaf (forall_leaves_cons hfirst hothers leaf hleaf)
  case parenthesized =>
    intro inner hinner suffixes
    exact List.forall_mem_map.mpr fun leaf hleaf ↦ inParentheses suffixes leaf (hinner leaf hleaf)
  case field => exact fun _ _ _ type _ htype ↦ htype
  all_goals exact fun _ suffixes ↦ List.forall_mem_singleton.mpr (single suffixes)

/-- What is not counted, and what is counted and is no level. -/
theorem balanced (phrase : UnionPhrase) : ∀ leaf ∈ phrase.leaves,
    leaf.path.length + leaf.parentheses + 1 = leaf.counted + leaf.forgotten := by
  refine @forall_leaves _
    (fun leaf ↦ leaf.path.length + leaf.parentheses = leaf.counted + leaf.forgotten)
    (fun suffixes ↦ ?single) (fun suffixes level ↦ ?empty) (fun leaf h ↦ ?inUnion)
    (fun suffixes level leaf h ↦ ?inLevel) (fun suffixes leaf h ↦ ?inParentheses) phrase
  case single => simp [PhraseLeaf.single]
  case empty => simp [PhraseLeaf.empty]
  case inUnion =>
    simp only [PhraseLeaf.inUnion]
    omega
  case inLevel =>
    simp only [PhraseLeaf.inLevel, List.length_append, List.length_replicate, List.length_cons]
    omega
  case inParentheses =>
    simp only [PhraseLeaf.inParentheses, List.length_append, List.length_replicate]
    omega

/-- What is counted in a list of phrases is counted in its first one or in another. -/
theorem counted_mem_append {α : Type} {leaves : α → List PhraseLeaf} {depths : α → List ℕ}
    {all : List ℕ} {around : ℕ} {first : α} {others : List α}
    (hfirst : ∀ leaf ∈ leaves first, around + leaf.counted ∈ depths first)
    (hothers : ∀ other ∈ others, ∀ leaf ∈ leaves other, around + leaf.counted ∈ depths other)
    (hall : ∀ other ∈ others, depths other ⊆ all) :
    ∀ leaf ∈ leaves first ++ others.flatMap leaves,
      around + leaf.counted ∈ depths first ++ all :=
  forall_leaves_cons (fun leaf hleaf ↦ List.mem_append_left all (hfirst leaf hleaf))
    fun other hother leaf hleaf ↦
      List.mem_append_right _ (hall other hother (hothers other hother leaf hleaf))

/-- What is counted at a leaf is a depth of the phrase. -/
theorem counted_mem_depths (phrase : UnionPhrase) : ∀ around, ∀ leaf ∈ phrase.leaves,
    around + leaf.counted ∈ phrase.depths around := by
  refine @UnionPhrase.induct
    (fun phrase ↦ ∀ around, ∀ leaf ∈ phrase.leaves,
      around + leaf.counted ∈ phrase.depths around)
    (fun phrase ↦ ∀ around, ∀ leaf ∈ phrase.leaves,
      around + leaf.counted ∈ phrase.depths around)
    (fun phrase ↦ ∀ around suffixes, ∀ leaf ∈ phrase.leaves suffixes,
      leaf.counted = suffixes ∨ around + leaf.counted ∈ phrase.depths around)
    (fun field ↦ ∀ around, ∀ leaf ∈ field.leaves,
      around + leaf.counted ∈ field.depths around)
    ?union ?suffixed ?word ?container ?emptyTuple ?tuple ?shape ?parenthesized ?text ?number
    ?field phrase
  case union =>
    intro bar first others hfirst hothers around
    rw [leaves, SuffixedPhrase.allLeaves_eq, depths]
    have hmembers := counted_mem_append (hfirst (around + 1))
      (fun other hother ↦ hothers other hother (around + 1))
      fun other hother ↦ SuffixedPhrase.subset_allDepths hother
    refine List.forall_mem_map.mpr fun leaf hleaf ↦ ?_
    rw [PhraseLeaf.inUnion, Nat.add_comm leaf.counted, ← Nat.add_assoc]
    exact hmembers leaf hleaf
  case suffixed =>
    intro primary suffixes hprimary around leaf hleaf
    rw [SuffixedPhrase.depths, List.mem_append]
    refine (hprimary around suffixes leaf hleaf).symm.imp_right fun hcounted ↦ ?_
    exact List.mem_map.mpr ⟨leaf.counted, List.mem_range.mpr (by omega), rfl⟩
  case container =>
    intro name first others hfirst hothers around suffixes
    rw [PrimaryPhrase.leaves, allLeaves_eq]
    have hitems := counted_mem_append (hfirst around)
      (fun other hother ↦ hothers other hother around) fun other hother ↦ subset_allDepths hother
    exact List.forall_mem_map.mpr fun leaf hleaf ↦ .inr (hitems leaf hleaf)
  case tuple =>
    intro first others hfirst hothers around suffixes
    rw [PrimaryPhrase.leaves, allLeaves_eq]
    have hitems := counted_mem_append (hfirst around)
      (fun other hother ↦ hothers other hother around) fun other hother ↦ subset_allDepths hother
    exact List.forall_mem_map.mpr fun leaf hleaf ↦ .inr (hitems leaf hleaf)
  case shape =>
    intro fields hfields around suffixes
    cases fields with
    | nil => exact List.forall_mem_singleton.mpr (.inl rfl)
    | cons first others =>
        rw [PrimaryPhrase.leaves, FieldPhrase.allLeaves_eq, ← List.flatMap_cons]
        refine List.forall_mem_map.mpr fun leaf hleaf ↦ .inr ?_
        obtain ⟨field, hfield, hleaf⟩ := List.mem_flatMap.mp hleaf
        exact FieldPhrase.mem_allDepths.mpr ⟨field, hfield, hfields field hfield around leaf hleaf⟩
  case parenthesized =>
    intro inner hinner around suffixes
    exact List.forall_mem_map.mpr fun leaf hleaf ↦ .inr (hinner around leaf hleaf)
  case field => exact fun _ _ _ type _ htype ↦ htype
  case emptyTuple => exact fun _ _ ↦ List.forall_mem_singleton.mpr (.inl rfl)
  all_goals exact fun _ _ _ ↦ List.forall_mem_singleton.mpr (.inl rfl)

end UnionPhrase

namespace TypeExpr

/-- What is counted at a leaf is within the limit.  So an accepted type is within it exactly when
the levels that are not counted at a leaf find room there: the room that is left, and what is
counted and is no level.  In any case there are as many groups as the limit at most, and as many
levels as it has capacity for. -/
theorem levels_le_iff_of_parse {text : String} {expr : TypeExpr} (h : parse text = .ok expr) :
    (∀ path ∈ expr.paths,
      (groups path).length ≤ nestingLimit ∧ path.length ≤ capacity nestingLimit) ∧
    ∃ phrase : UnionPhrase, phrase.Spells text ∧ phrase.tree = expr ∧
      (∀ leaf ∈ phrase.leaves, leaf.counted ≤ nestingLimit) ∧
      ((∀ path ∈ expr.paths, path.length ≤ nestingLimit) ↔ ∀ leaf ∈ phrase.leaves,
        leaf.forgotten ≤ nestingLimit - leaf.counted + (leaf.parentheses + 1)) := by
  obtain ⟨phrase, hspells, hfits, rfl⟩ := exists_phrase_of_parse h
  have hcounted : ∀ leaf ∈ phrase.leaves, leaf.counted ≤ nestingLimit := by
    intro leaf hleaf
    have hdepth := hfits _ (phrase.counted_mem_depths 0 leaf hleaf)
    omega
  refine ⟨fun path hpath ↦ (atMost_capacity phrase hfits path hpath).symm, phrase, hspells, rfl,
    hcounted, ?_⟩
  rw [phrase.paths_tree, List.forall_mem_map]
  refine forall₂_congr fun leaf hleaf ↦ ?_
  have hbalanced := phrase.balanced leaf hleaf
  have hroom := hcounted leaf hleaf
  omega

theorem levels_of_suffixed_parentheses :
    parse "([][])[]" = .ok (.array (.array (.tuple []))) ∧
      (∀ path ∈ (TypeExpr.array (.array (.tuple []))).paths,
        (groups path).length ≤ nestingLimit ∧ path.length ≤ capacity nestingLimit) ∧
      ∃ phrase : UnionPhrase, phrase.Spells "([][])[]" ∧
        phrase.tree = .array (.array (.tuple [])) ∧
        (∀ leaf ∈ phrase.leaves, leaf.counted ≤ nestingLimit) ∧
        ((∀ path ∈ (TypeExpr.array (.array (.tuple []))).paths, path.length ≤ nestingLimit) ↔
          ∀ leaf ∈ phrase.leaves,
            leaf.forgotten ≤ nestingLimit - leaf.counted + (leaf.parentheses + 1)) := by
  have hparse : parse "([][])[]" = .ok (.array (.array (.tuple []))) := by cbv
  exact ⟨hparse, levels_le_iff_of_parse hparse⟩

/-- The suffix in the parentheses is forgotten when they close, so an array of arrays is deeper than
the limit. -/
theorem levels_of_parenthesized_array : ∃ expr,
    parse (String.ofList ("([][])".toList ++ (suffixMarks 255).map Mark.char)) = .ok expr ∧
      ∃ path ∈ expr.paths, nestingLimit < path.length := by
  let inner : UnionPhrase := .mk false (.mk .emptyTuple 1) []
  let phrase : UnionPhrase := .mk false (.mk (.parenthesized inner) 255) []
  let marks : List Mark :=
    [.openParen, .openBracket, .closeBracket, .openBracket, .closeBracket, .closeParen]
  have htext : "([][])".toList ++ (suffixMarks 255).map Mark.char =
      (marks ++ suffixMarks 255).map Mark.char := by
    rw [List.map_append]
    rfl
  have htokens : phrase.tokens = (marks ++ suffixMarks 255).map Token.mark := by
    have hone : suffixTokens 1 = [.mark .openBracket, .mark .closeBracket] := rfl
    rw [List.map_append, ← suffixTokens_eq]
    simp [phrase, inner, marks, written, SuffixedPhrase.laterTokens, hone]
  have hfits : Fits phrase.depths 0 nestingLimit := by
    intro depth hdepth
    have hcases : (∃ before ≤ 1, 2 + before = depth) ∨ ∃ before < 256, 1 + before = depth := by
      simpa [phrase, inner, SuffixedPhrase.allDepths] using hdepth
    rw [nestingLimit]
    omega
  have hinner : [.array, .tuple] ∈ inner.tree.paths := by decide
  have hpath := mem_paths_suffixTree 255 hinner
  refine ⟨phrase.tree, ?_, _, hpath, ?_⟩
  · rw [htext]
    exact parse_marks htokens hfits
  · rw [List.length_append, List.length_replicate]
    decide

end TypeExpr

end Wiring
