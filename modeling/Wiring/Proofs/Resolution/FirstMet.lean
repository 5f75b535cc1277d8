import Wiring.Proofs.Resolution.Instances

/-!
# What a resolution keeps

The nodes of the plans of all resolvers, in the order of the walk, are the reference for what a
resolution stores: of the nodes with one key the first, every set, and of the modules that own
these plans each one where it is first met.
-/

namespace Wiring

section

variable {α β κ : Type} [DecidableEq κ] {key : α → κ} {items : List α}

/-- The items whose key no earlier item has. -/
def firstMet (key : α → κ) : List α → List α
  | [] => []
  | item :: items => item :: (firstMet key items).filter fun other ↦ key other ≠ key item

theorem mem_of_mem_firstMet {item : α} (h : item ∈ firstMet key items) : item ∈ items := by
  induction items with
  | nil => exact h
  | cons first items ih =>
      rcases List.mem_cons.mp h with rfl | hlater
      · exact List.mem_cons_self
      · exact List.mem_cons_of_mem _ (ih (List.mem_of_mem_filter hlater))

theorem nodup_firstMet (key : α → κ) (items : List α) : ((firstMet key items).map key).Nodup := by
  induction items with
  | nil => exact List.nodup_nil
  | cons first items ih =>
      rw [firstMet, List.map_cons, List.nodup_cons]
      refine ⟨by simp, ih.sublist ?_⟩
      exact List.filter_sublist.map key

/-- A condition on keys selects the same before and after. -/
theorem filter_firstMet (key : α → κ) (condition : κ → Bool) (items : List α) :
    (firstMet key items).filter (fun item ↦ condition (key item)) =
      firstMet key (items.filter fun item ↦ condition (key item)) := by
  induction items with
  | nil => rfl
  | cons first items ih =>
      cases hfirst : condition (key first) with
      | true => simp only [firstMet, List.filter_cons, hfirst, if_true, ← ih, List.filter_comm]
      | false =>
          have himplied : ∀ other ∈ firstMet key items,
              (condition (key other) && decide (key other ≠ key first)) =
                condition (key other) := by
            intro other _
            by_cases hkey : key other = key first
            · simp [hkey, hfirst]
            · simp [hkey]
          rw [List.filter_cons_of_neg (by simp [hfirst]), ← ih, firstMet,
            List.filter_cons_of_neg (by simp [hfirst]), List.filter_filter,
            List.filter_congr himplied]

theorem firstMet_eq_self (h : (items.map key).Nodup) : firstMet key items = items := by
  induction items with
  | nil => rfl
  | cons first items ih =>
      obtain ⟨hfresh, hrest⟩ := List.nodup_cons.mp h
      have hkept : items.filter (fun other ↦ key other ≠ key first) = items := by
        refine List.filter_eq_self.mpr fun other hother ↦ decide_eq_true fun heq ↦ hfresh ?_
        exact heq ▸ List.mem_map_of_mem hother
      rw [firstMet, ih hrest, hkept]

/-- What the key of an item determines is met first on the first items. -/
theorem firstMet_map_firstMet [DecidableEq β] {value : α → β}
    (h : ∀ item ∈ items, ∀ other ∈ items, key item = key other → value item = value other) :
    firstMet id ((firstMet key items).map value) = firstMet id (items.map value) := by
  induction items with
  | nil => rfl
  | cons first items ih =>
      have hinner : firstMet id ((firstMet key items).map value) = firstMet id (items.map value) :=
        ih fun item hitem other hother ↦
          h item (List.mem_cons_of_mem _ hitem) other (List.mem_cons_of_mem _ hother)
      -- Whatever has another value than the first item has another key too.
      have hdetermined : ∀ other ∈ firstMet key items,
          (decide (value other ≠ value first) && decide (key other ≠ key first)) =
            decide (value other ≠ value first) := by
        intro other hother
        by_cases hkey : key other = key first
        · have hmem := List.mem_cons_of_mem first (mem_of_mem_firstMet hother)
          simp [h other hmem first List.mem_cons_self hkey]
        · simp [hkey]
      have hsame :
          (((firstMet key items).filter fun other ↦ key other ≠ key first).map value).filter
            (fun other ↦ other ≠ value first) =
          ((firstMet key items).map value).filter fun other ↦ other ≠ value first := by
        rw [List.filter_map, List.filter_map, List.filter_filter]
        exact congrArg _ (List.filter_congr hdetermined)
      have houter := fun values : List β ↦
        filter_firstMet id (fun other ↦ decide (other ≠ value first)) values
      simp only [firstMet, List.map_cons, id] at houter ⊢
      rw [houter, hsame, ← houter, hinner]

/-- The items kept so far and one more, unless its key is among theirs. -/
def keepUnmet (key : α → κ) (kept : List α) (item : α) : List α :=
  if key item ∈ kept.map key then kept else kept ++ [item]

theorem foldl_keepUnmet (kept : List α) : items.foldl (keepUnmet key) kept =
    kept ++ (firstMet key items).filter fun item ↦ key item ∉ kept.map key := by
  induction items generalizing kept with
  | nil => simp [firstMet]
  | cons item items ih =>
      rw [List.foldl_cons, ih, keepUnmet, firstMet]
      split_ifs with hmet
      · have hunmet : ∀ other ∈ firstMet key items, decide (key other ∉ kept.map key) =
            (decide (key other ∉ kept.map key) && decide (key other ≠ key item)) := by
          intro other _
          by_cases hkey : key other = key item
          · simp [hkey, List.mem_map.mp hmet]
          · simp [hkey]
        rw [List.filter_cons_of_neg (by simpa using hmet), List.filter_filter,
          List.filter_congr hunmet]
      · have hunmet : ∀ other ∈ firstMet key items, decide (key other ∉ (kept ++ [item]).map key) =
            (decide (key other ∉ kept.map key) && decide (key other ≠ key item)) := by
          intro other _
          simp
        rw [List.filter_cons_of_pos (by simpa using hmet), List.filter_filter,
          List.filter_congr hunmet, List.append_assoc, List.singleton_append]

end

namespace Needs

theorem plans_visit_eq (needs : Needs) (plan : Plan) :
    (needs.visit plan).plans = keepUnmet Plan.key needs.plans plan := by
  simp [plans_visit, keepUnmet]

theorem modules_visit_eq (needs : Needs) (plan : Plan) :
    (needs.visit plan).modules = keepUnmet id needs.modules plan.owner := by
  simp [modules_visit, keepUnmet]

theorem plans_ofResolvers (resolvers : List ResolvedResolver) :
    (ofResolvers resolvers).plans =
      firstMet Plan.key (resolvers.flatMap fun resolver ↦ resolver.plan.walk) := by
  rw [ofResolvers_eq_foldl,
    ← List.foldl_hom Needs.plans fun needs plan ↦ (plans_visit_eq needs plan).symm,
    foldl_keepUnmet]
  simp

theorem modules_ofResolvers (resolvers : List ResolvedResolver) :
    (ofResolvers resolvers).modules =
      firstMet id ((resolvers.flatMap fun resolver ↦ resolver.plan.walk).map Plan.owner) := by
  have hfold (walked : List Plan) (needs : Needs) : (walked.foldl visit needs).modules =
      walked.foldl (fun kept plan ↦ keepUnmet id kept plan.owner) needs.modules :=
    (List.foldl_hom Needs.modules fun needs plan ↦ (modules_visit_eq needs plan).symm).symm
  rw [ofResolvers_eq_foldl, hfold, ← List.foldl_map, foldl_keepUnmet]
  simp

end Needs

/-- The plan collects a set. -/
def Plan.isSet (plan : Plan) : Bool :=
  plan.key.setId?.isSome

namespace Graph

variable {graph : Graph} {component : ComponentId} {resolution : Resolution}

theorem nodup_keys_sets (h : graph.resolution component = .ok resolution) :
    ((resolution.walk.filter Plan.isSet).map Plan.key).Nodup := by
  have hids : (resolution.walk.filterMap fun node ↦ node.key.setId?).Nodup := by
    have hsame : (resolution.walk.filterMap fun node ↦ node.key.setId?) =
        resolution.resolvers.flatMap fun item ↦ item.plan.setIds := List.filterMap_flatMap
    have hnodup := nodup_setIds_of_resolution h
    rwa [List.flatMap_map, ← hsame] at hnodup
  rw [List.Nodup, List.pairwise_filterMap] at hids
  rw [List.Nodup, List.pairwise_map, List.pairwise_filter]
  refine hids.imp fun {node other} hdiffer hnode hother hkey ↦ ?_
  obtain ⟨number, hnumber⟩ := Option.isSome_iff_exists.mp hnode
  exact hdiffer number hnumber number (hkey ▸ hnumber) rfl

/-- Nodes with one key are inside one module. -/
theorem owner_eq_of_key_eq (h : graph.resolution component = .ok resolution) :
    ∀ node ∈ resolution.walk, ∀ other ∈ resolution.walk, node.key = other.key →
      node.owner = other.owner := by
  intro node hnode other hother hkey
  cases node with
  | provide type owner provider arguments async =>
      cases other with
      | provide _ _ _ _ _ => exact (PlanKey.provide.inj hkey).1
      | collect _ _ _ _ _ => exact PlanKey.noConfusion hkey
  | collect number type owner elements async =>
      have hset : other.isSet = true := by
        rw [Plan.isSet, ← hkey]
        rfl
      exact congrArg Plan.owner (List.inj_on_of_nodup_map (nodup_keys_sets h)
        (List.mem_filter.mpr ⟨hnode, rfl⟩) (List.mem_filter.mpr ⟨hother, hset⟩) hkey)

/-- The resolution of a component is determined by the walks of the plans of its resolvers, one
behind the other in the order of their declaration.  It stores the first node of each key, in the
order of the walk.  Sets are never merged: each set of the walk is stored.  A child of a stored plan
has its key among the stored ones.  The modules are the owners of the stored plans, each one where
it is first met. -/
theorem resolution_eq_firstMet (h : graph.resolution component = .ok resolution) :
    resolution.resolvers.map ResolvedResolver.name =
      (graph.getComponent component).resolvers.map Resolver.name ∧
    resolution.plans =
      firstMet Plan.key (resolution.resolvers.flatMap fun item ↦ item.plan.walk) ∧
    resolution.plans.filter Plan.isSet =
      (resolution.resolvers.flatMap fun item ↦ item.plan.walk).filter Plan.isSet ∧
    (∀ plan ∈ resolution.plans, ∀ child ∈ plan.children,
      child.key ∈ resolution.plans.map Plan.key) ∧
    resolution.modules = firstMet id (resolution.plans.map Plan.owner) := by
  have hnames := (forall₂_of_resolveAll (resolution_eq_ok h).1).flip.imp
    fun _ _ hresolver ↦ hresolver.1
  have hplans : resolution.plans = firstMet Plan.key resolution.walk := by
    rw [(resolution_eq_ok h).2, Needs.plans_ofResolvers]
  have hmodules : resolution.modules = firstMet id (resolution.walk.map Plan.owner) := by
    rw [modules_of_resolution h, Needs.modules_ofResolvers]
  refine ⟨map_eq_map_iff_forall₂.mpr hnames, hplans, ?_, ?_, ?_⟩
  · rw [hplans]
    exact (filter_firstMet Plan.key (fun key : PlanKey ↦ key.setId?.isSome) resolution.walk).trans
      (firstMet_eq_self (nodup_keys_sets h))
  · intro plan hplan child hchild
    obtain ⟨item, hitem, hnode⟩ := List.mem_flatMap.mp (mem_of_mem_firstMet (hplans ▸ hplan))
    have hwalk : child ∈ resolution.walk :=
      List.mem_flatMap.mpr ⟨item, hitem, Plan.child_mem_walk hnode hchild⟩
    rw [(resolution_eq_ok h).2]
    exact Needs.mem_keys_ofResolvers.mpr (List.mem_map_of_mem hwalk)
  · rw [hmodules, hplans]
    exact (firstMet_map_firstMet (owner_eq_of_key_eq h)).symm

/-- An index and a catalog are each made from a set of the files of an included module. -/
def library : Graph where
  types := (((TypeTable.empty.intern (.nominal "File")).2.intern (.generic "Set" [0])).2.intern
    (.nominal "Index")).2.intern (.nominal "Catalog") |>.2
  modules := [⟨"Root", ⟨"root.ts"⟩, [0, 1], [1], []⟩, ⟨"Files", ⟨"files.ts"⟩, [2], [], []⟩]
  providers := [⟨"index", 0, [1], 2, false⟩, ⟨"catalog", 0, [1], 3, false⟩,
    ⟨"file", 1, [], 0, false⟩]
  components := [⟨"App", ⟨"app.ts"⟩, 0, [⟨"index", 2⟩, ⟨"catalog", 3⟩]⟩]

def libraryResolution : Resolution :=
  let file : Plan := .provide 0 1 2 [] false
  let filesOf (id : SetId) : Plan := .collect id 1 0 [file] false
  let index : Plan := .provide 2 0 0 [filesOf 0] false
  let catalog : Plan := .provide 3 0 1 [filesOf 1] false
  { component := 0
    resolvers := [⟨"index", index⟩, ⟨"catalog", catalog⟩]
    modules := [0, 1]
    plans := [index, filesOf 0, file, catalog, filesOf 1] }

/-- The file is met again inside the second set, which is stored as well. -/
theorem library_eq_firstMet : library.resolution 0 = .ok libraryResolution ∧
    libraryResolution.walk.length = 6 ∧
    (firstMet Plan.key libraryResolution.walk).map Plan.key =
      [.provide 0 0, .collect 0, .provide 1 2, .provide 0 1, .collect 1] ∧
    firstMet id (libraryResolution.plans.map Plan.owner) = [0, 1] := by
  have hresolution : library.resolution 0 = .ok libraryResolution := by cbv
  obtain ⟨-, hplans, -, -, hmodules⟩ := resolution_eq_firstMet hresolution
  exact ⟨hresolution, by decide, hplans ▸ rfl, hmodules ▸ rfl⟩

end Graph

end Wiring
