import Wiring.Proofs.Code.Emitted
import Wiring.Proofs.Resolution.FirstMet
import Wiring.Proofs.Search.History

/-!
# Numbers of set accessors

The accessors of sets are numbered in the order in which they are first named, whatever numbers the
search gave the sets.  So other numbers for the sets of a resolution make the same implementation,
and where each stored plan is named the numbers are those below the number of sets.
-/

namespace Wiring

section

variable {α β κ : Type} [DecidableEq κ] {key : α → κ} {items : List α}

theorem exists_firstMet {item : α} (h : item ∈ items) :
    ∃ first ∈ firstMet key items, key first = key item := by
  induction items with
  | nil => exact (List.not_mem_nil h).elim
  | cons head items ih =>
      by_cases hsame : key head = key item
      · exact ⟨head, List.mem_cons_self, hsame⟩
      · have hlater : item ∈ items :=
          (List.mem_cons.mp h).resolve_left fun heq ↦ hsame (congrArg key heq.symm)
        obtain ⟨first, hfirst, hkey⟩ := ih hlater
        have hother : key first ≠ key head := fun heq ↦ hsame (heq.symm.trans hkey)
        exact ⟨first, List.mem_cons_of_mem _ (List.mem_filter.mpr ⟨hfirst, by simpa using hother⟩),
          hkey⟩

end

theorem firstMet_map {α β : Type} [DecidableEq α] [DecidableEq β] {f : α → β} {items : List α}
    (hf : Set.InjOn f {item | item ∈ items}) :
    firstMet id (items.map f) = (firstMet id items).map f := by
  induction items with
  | nil => rfl
  | cons first items ih =>
      have hsame : ∀ item ∈ firstMet id items,
          decide (f item ≠ f first) = decide (item ≠ first) := by
        intro item hitem
        have hmem := List.mem_cons_of_mem first (mem_of_mem_firstMet hitem)
        exact decide_eq_decide.mpr (hf.ne_iff hmem List.mem_cons_self)
      have hrest : Set.InjOn f {item | item ∈ items} :=
        hf.mono fun item hitem ↦ List.mem_cons_of_mem first hitem
      simp only [firstMet, List.map_cons, ih hrest, List.filter_map, Function.comp_def, id]
      rw [List.filter_congr hsame]

theorem idxOf_map {α β : Type} [DecidableEq α] [DecidableEq β] {f : α → β} {item : α}
    {items : List α} (hf : ∀ other ∈ items, f other = f item → other = item) :
    (items.map f).idxOf (f item) = items.idxOf item := by
  induction items with
  | nil => rfl
  | cons first items ih =>
      have hrest := ih fun other hother ↦ hf other (List.mem_cons_of_mem _ hother)
      have hfirst : f first = f item ↔ first = item :=
        ⟨hf first List.mem_cons_self, congrArg f⟩
      have hsame : (f first == f item) = (first == item) := by
        rw [Bool.eq_iff_iff, beq_iff_eq, beq_iff_eq, hfirst]
      rw [List.map_cons, List.idxOf_cons, List.idxOf_cons, hrest, hsame]

theorem map_idxOf_eq_range {α : Type} [DecidableEq α] {items : List α} (h : items.Nodup) :
    items.map items.idxOf = List.range items.length := by
  refine List.ext_getElem (by simp) fun index hindex _ ↦ ?_
  rw [List.getElem_map, List.getElem_range, h.idxOf_getElem]

namespace Plan

variable (f : SetId → SetId) (plan : Plan)

@[simp] theorem owner_mapSets : (plan.mapSets f).owner = plan.owner := by
  cases plan <;> rfl

@[simp] theorem children_mapSets : (plan.mapSets f).children = plan.children.map (mapSets f) := by
  cases plan <;> simp [mapSets, children, mapSetsAll_eq_map]

@[simp] theorem setId?_mapSets : (plan.mapSets f).key.setId? = plan.key.setId?.map f := by
  cases plan <;> rfl

end Plan

def ResolvedResolver.mapSets (f : SetId → SetId) (item : ResolvedResolver) : ResolvedResolver :=
  ⟨item.name, item.plan.mapSets f⟩

/-- The resolution with other numbers for its sets. -/
def Resolution.mapSets (f : SetId → SetId) (resolution : Resolution) : Resolution :=
  { resolution with
    resolvers := resolution.resolvers.map (ResolvedResolver.mapSets f)
    plans := resolution.plans.map (Plan.mapSets f) }

namespace Resolution

/-- The plans in the order in which their accessors are named. -/
def named (resolution : Resolution) : List Plan :=
  resolution.resolvers.map ResolvedResolver.plan ++
    resolution.plans.flatMap fun plan ↦ plan :: plan.children

def namedSets (resolution : Resolution) : List SetId :=
  resolution.named.filterMap fun plan ↦ plan.key.setId?

theorem named_mapSets (f : SetId → SetId) (resolution : Resolution) :
    (resolution.mapSets f).named = resolution.named.map (Plan.mapSets f) := by
  simp [named, mapSets, ResolvedResolver.mapSets, List.flatMap_map, List.map_flatMap,
    Function.comp_def]

theorem namedSets_mapSets (f : SetId → SetId) (resolution : Resolution) :
    (resolution.mapSets f).namedSets = resolution.namedSets.map f := by
  rw [namedSets, named_mapSets, List.filterMap_map, namedSets, List.map_filterMap]
  exact List.filterMap_congr fun plan _ ↦ plan.setId?_mapSets f

theorem mem_namedSets {resolution : Resolution} {plan : Plan} (hplan : plan ∈ resolution.named)
    {number : SetId} (hkey : plan.key = .collect number) : number ∈ resolution.namedSets :=
  List.mem_filterMap.mpr ⟨plan, hplan, hkey ▸ rfl⟩

end Resolution

namespace Numbering

variable {α β : Type} {numbering : Numbering}

theorem number_snd (numbering : Numbering) (number : SetId) :
    (numbering.number number).2 = keepUnmet id numbering number := by
  rw [number_eq, keepUnmet]
  simp

theorem each_snd {write : α → Numbering → β × Numbering} {ids : α → List SetId}
    (h : ∀ item numbering, (write item numbering).2 = (ids item).foldl (keepUnmet id) numbering)
    (items : List α) (numbering : Numbering) :
    (each write items numbering).2 = (items.flatMap ids).foldl (keepUnmet id) numbering := by
  induction items generalizing numbering with
  | nil => rfl
  | cons item items ih =>
      rw [List.flatMap_cons, List.foldl_append, ← h, ← ih]
      rfl

end Numbering

namespace Graph

open Code Wiring.Numbering

variable {graph : Graph} {component : ComponentId} {resolution : Resolution} {plan : Plan}

theorem accessorName_snd (graph : Graph) (plan : Plan) (numbering : Numbering) :
    (graph.accessorName plan numbering).2 =
      plan.key.setId?.toList.foldl (keepUnmet id) numbering := by
  cases plan with
  | provide type owner provider arguments async => rfl
  | collect number type owner elements async => exact number_snd numbering number

theorem accessor_snd (graph : Graph) (plan : Plan) (numbering : Numbering) :
    (graph.accessor plan numbering).2 =
      ((plan :: plan.children).flatMap fun node ↦ node.key.setId?.toList).foldl (keepUnmet id)
        numbering := by
  have hvalues : ∀ plan numbering, (graph.accessorValue plan numbering).2 =
      plan.key.setId?.toList.foldl (keepUnmet id) numbering := graph.accessorName_snd
  rw [List.flatMap_cons, List.foldl_append, ← accessorName_snd graph, ← each_snd hvalues,
    ← accessorValues_eq_each]
  rfl

/-- The sets have their numbers in the order in which they are first named. -/
theorem lastNumbering_eq (graph : Graph) (resolution : Resolution) :
    graph.lastNumbering resolution = firstMet id resolution.namedSets := by
  have hoverrides : ∀ (item : ResolvedResolver) numbering, (graph.override item numbering).2 =
      item.plan.key.setId?.toList.foldl (keepUnmet id) numbering :=
    fun item ↦ graph.accessorName_snd item.plan
  have hsets : resolution.namedSets =
      (resolution.resolvers.flatMap fun item ↦ item.plan.key.setId?.toList) ++
        resolution.plans.flatMap fun plan ↦
          (plan :: plan.children).flatMap fun node ↦ node.key.setId?.toList := by
    rw [Resolution.namedSets, List.filterMap_eq_flatMap_toList, Resolution.named,
      List.flatMap_append, List.flatMap_map, List.flatMap_assoc]
  rw [lastNumbering, accessors_eq_each, overrides_eq_each, each_snd graph.accessor_snd,
    each_snd hoverrides, ← List.foldl_append, ← hsets, foldl_keepUnmet]
  simp

/-! ## Other numbers for the sets -/

theorem nameIn_of_collect {number : SetId} (h : plan.key = .collect number) :
    graph.nameIn resolution plan = graph.moduleField plan.owner ++ "_synthetic_" ++
      toString ((firstMet id resolution.namedSets).idxOf number) := by
  rw [nameIn, lastNumbering_eq]
  cases plan with
  | provide type owner provider arguments async => exact PlanKey.noConfusion h
  | collect other type owner elements async =>
      obtain rfl := PlanKey.collect.inj h
      rw [accessorName, number_eq]
      rfl

theorem nameIn_mapSets {f : SetId → SetId} (hf : Set.InjOn f {id | id ∈ resolution.namedSets})
    (hplan : plan ∈ resolution.named) :
    graph.nameIn (resolution.mapSets f) (plan.mapSets f) = graph.nameIn resolution plan := by
  cases hkey : plan.key with
  | provide owner provider =>
      have hsame : (plan.mapSets f).key = .provide owner provider := by
        cases plan <;> simp_all [Plan.mapSets, Plan.key]
      rw [nameIn_of_provide hkey, nameIn_of_provide hsame]
  | collect number =>
      have hsame : (plan.mapSets f).key = .collect (f number) := by
        cases plan <;> simp_all [Plan.mapSets, Plan.key]
      have hnumber : ∀ other ∈ firstMet id resolution.namedSets,
          f other = f number → other = number := fun other hother ↦
        hf (mem_of_mem_firstMet hother) (Resolution.mem_namedSets hplan hkey)
      rw [nameIn_of_collect hkey, nameIn_of_collect hsame, Resolution.namedSets_mapSets,
        firstMet_map hf, idxOf_map hnumber, Plan.owner_mapSets]

theorem implementation_eq (graph : Graph) (resolution : Resolution) :
    graph.implementation resolution =
      { name := (graph.getComponent resolution.component).name ++ "Impl"
        base := (graph.getComponent resolution.component).name
        members :=
          (resolution.resolvers.map (graph.overrideIn resolution)).map .method ++
            resolution.modules.map (fun id ↦ .field (graph.instanceField id)) ++
            [.constructor (graph.constructorBody resolution.modules)] ++
            (resolution.plans.map (graph.accessorIn resolution)).map .method } := by
  rw [← overrides_eq_map, ← accessors_eq_map]
  rfl

theorem accessorBody_mapSets (graph : Graph) (f : SetId → SetId) (plan : Plan)
    (values : List Expression) :
    graph.accessorBody (plan.mapSets f) values = graph.accessorBody plan values := by
  cases plan <;> rfl

theorem accessorIn_mapSets {f : SetId → SetId} (hf : Set.InjOn f {id | id ∈ resolution.namedSets})
    (hplan : plan ∈ resolution.plans) :
    graph.accessorIn (resolution.mapSets f) (plan.mapSets f) =
      graph.accessorIn resolution plan := by
  have hnamed : ∀ node ∈ plan :: plan.children, graph.nameIn (resolution.mapSets f)
      (node.mapSets f) = graph.nameIn resolution node := by
    intro node hnode
    exact nameIn_mapSets hf
      (List.mem_append_right _ (List.mem_flatMap.mpr ⟨plan, hplan, hnode⟩))
  rw [accessorIn, accessorIn, hnamed plan List.mem_cons_self, Plan.isAsync_mapSets,
    accessorBody_mapSets, Plan.children_mapSets, List.map_map]
  refine congrArg _ (congrArg _ (List.map_congr_left fun child hchild ↦ ?_))
  rw [Function.comp_apply, hnamed child (List.mem_cons_of_mem _ hchild), Plan.isAsync_mapSets]

theorem implementation_mapSets (graph : Graph) {f : SetId → SetId}
    (hf : Set.InjOn f {id | id ∈ resolution.namedSets}) :
    graph.implementation (resolution.mapSets f) = graph.implementation resolution := by
  have hoverrides : (resolution.mapSets f).resolvers.map (graph.overrideIn (resolution.mapSets f)) =
      resolution.resolvers.map (graph.overrideIn resolution) := by
    rw [Resolution.mapSets, List.map_map]
    refine List.map_congr_left fun item hitem ↦ ?_
    have hnamed : item.plan ∈ resolution.named :=
      List.mem_append_left _ (List.mem_map_of_mem hitem)
    rw [Function.comp_apply, overrideIn, overrideIn, ResolvedResolver.mapSets,
      Plan.isAsync_mapSets, ← nameIn_mapSets hf hnamed]
    rfl
  have haccessors : (resolution.mapSets f).plans.map (graph.accessorIn (resolution.mapSets f)) =
      resolution.plans.map (graph.accessorIn resolution) := by
    rw [Resolution.mapSets, List.map_map]
    exact List.map_congr_left fun plan hplan ↦ accessorIn_mapSets hf hplan
  rw [implementation_eq, hoverrides, haccessors, implementation_eq]
  rfl

theorem mem_walk_of_mem_named (h : graph.resolution component = .ok resolution)
    (hplan : plan ∈ resolution.named) : plan ∈ resolution.walk := by
  rcases List.mem_append.mp hplan with hresolver | hstored
  · exact mem_walk_of_mem_called h (List.mem_append_left _ hresolver)
  · obtain ⟨stored, hstored, hnode⟩ := List.mem_flatMap.mp hstored
    rcases List.mem_cons.mp hnode with rfl | hchild
    · exact mem_walk_of_mem_plans h hstored
    · exact mem_walk_of_mem_called h (mem_called_of_mem_children hstored hchild)

theorem mem_setIds_plans {number : SetId} :
    number ∈ (resolution.plans.filterMap fun plan ↦ plan.key.setId?) ↔
      ∃ plan ∈ resolution.plans, plan.key = .collect number := by
  rw [List.mem_filterMap]
  refine exists_congr fun plan ↦ and_congr_right fun _ ↦ ?_
  cases plan.key <;> simp [PlanKey.setId?]

theorem nodup_setIds_plans (h : graph.resolution component = .ok resolution) :
    (resolution.plans.filterMap fun plan ↦ plan.key.setId?).Nodup := by
  have hsets : (resolution.plans.filterMap fun plan ↦ plan.key.setId?) =
      (resolution.plans.map Plan.key).filterMap PlanKey.setId? := by
    rw [List.filterMap_map]
    rfl
  rw [hsets]
  refine (shared_of_resolution h).nodup.filterMap fun key other number hkey hother ↦ ?_
  cases key <;> cases other <;> simp_all [PlanKey.setId?]

/-- Each set that is named is stored, and each set that is stored is named. -/
theorem perm_namedSets (h : graph.resolution component = .ok resolution) :
    (resolution.plans.filterMap fun plan ↦ plan.key.setId?).Perm
      (firstMet id resolution.namedSets) := by
  have hnamed : (firstMet id resolution.namedSets).Nodup := by
    simpa using nodup_firstMet id resolution.namedSets
  refine (List.perm_ext_iff_of_nodup (nodup_setIds_plans h) hnamed).mpr fun number ↦ ?_
  rw [mem_setIds_plans]
  constructor
  · rintro ⟨plan, hplan, hkey⟩
    have hmem : plan ∈ resolution.named := List.mem_append_right _
      (List.mem_flatMap.mpr ⟨plan, hplan, List.mem_cons_self⟩)
    have hnumber := Resolution.mem_namedSets hmem hkey
    obtain ⟨first, hfirst, rfl⟩ : ∃ first ∈ firstMet id resolution.namedSets, first = number :=
      exists_firstMet hnumber
    exact hfirst
  · intro hnumber
    obtain ⟨plan, hplan, hkey⟩ := List.mem_filterMap.mp (mem_of_mem_firstMet hnumber)
    obtain ⟨stored, hstored⟩ := (shared_of_resolution h).exists_stored
      (mem_walk_of_mem_named h hplan)
    obtain ⟨hmem, hsame⟩ := firstAt_eq_some hstored
    exact mem_setIds_plans.mp (List.mem_filterMap.mpr ⟨stored, hmem, hsame ▸ hkey⟩)

/-- Which numbers the sets of a resolution have does not matter, as long as they are different:
with other ones the implementation is the same.  The search may leave out numbers, for sets that it
gave up, but the accessors of the sets that a component needs are numbered without gaps: as many
numbers from zero on as there are sets, and each of them once. -/
theorem implementation_numbers (graph : Graph) :
    (∀ resolution f, Set.InjOn f {id | id ∈ resolution.namedSets} →
      graph.implementation (resolution.mapSets f) = graph.implementation resolution) ∧
    ∀ component resolution, graph.resolution component = .ok resolution →
      (graph.implementation resolution).hiddenMethods =
        resolution.plans.map (graph.emitted resolution) ∧
      ∃ number : SetId → ℕ,
        (∀ plan ∈ resolution.walk, ∀ id, plan.key = .collect id →
          (graph.emitted resolution plan).name =
            graph.moduleField plan.owner ++ "_synthetic_" ++ toString (number id)) ∧
        ((resolution.plans.filterMap fun plan ↦ plan.key.setId?).map number).Perm
          (List.range (resolution.plans.countP Plan.isSet)) := by
  refine ⟨fun resolution f hf ↦ implementation_mapSets graph hf, fun component resolution h ↦ ?_⟩
  refine ⟨?_, (firstMet id resolution.namedSets).idxOf, fun plan hplan id hkey ↦ ?_, ?_⟩
  · rw [hiddenMethods_implementation]
    exact List.map_congr_left fun plan hplan ↦ (emitted_of_mem h hplan).symm
  · rw [name_emitted h hplan, nameIn_of_collect hkey]
  · have hnamed : (firstMet id resolution.namedSets).Nodup := by
      simpa using nodup_firstMet id resolution.namedSets
    have hcount : resolution.plans.countP Plan.isSet =
        (firstMet id resolution.namedSets).length := by
      rw [← (perm_namedSets h).length_eq, List.length_filterMap_eq_countP]
      rfl
    rw [hcount, ← map_idxOf_eq_range hnamed]
    exact (perm_namedSets h).map _

/-- There is no editor, so that the draft of an index is given up after its files are collected. -/
def drafts : Graph where
  types := ((((TypeTable.empty.intern (.nominal "File")).2.intern (.generic "Set" [0])).2.intern
    (.nominal "Editor")).2.intern (.nominal "Index")).2.intern (.nominal "Catalog") |>.2
  modules := [⟨"Root", ⟨"root.ts"⟩, [0, 1, 2, 3], [], []⟩]
  providers := [⟨"file", 0, [], 0, false⟩, ⟨"draft", 0, [1, 2], 3, false⟩,
    ⟨"index", 0, [1], 3, false⟩, ⟨"catalog", 0, [1], 4, false⟩]
  components := [⟨"App", ⟨"app.ts"⟩, 0, [⟨"index", 3⟩, ⟨"catalog", 4⟩]⟩]

def draftsResolution : Resolution :=
  let file : Plan := .provide 0 0 0 [] false
  let filesOf (id : SetId) : Plan := .collect id 1 0 [file] false
  let index : Plan := .provide 3 0 2 [filesOf 1] false
  let catalog : Plan := .provide 4 0 3 [filesOf 2] false
  { component := 0
    resolvers := [⟨"index", index⟩, ⟨"catalog", catalog⟩]
    modules := [0]
    plans := [index, filesOf 1, file, catalog, filesOf 2] }

/-- The sets have the numbers one and two, and their accessors the numbers zero and one. -/
theorem drafts_numbers : drafts.resolution 0 = .ok draftsResolution ∧
    draftsResolution.namedSets = [1, 1, 2, 2] ∧
    drafts.implementation (draftsResolution.mapSets (3 - ·)) =
      drafts.implementation draftsResolution ∧
    (drafts.implementation draftsResolution).hiddenMethods =
      draftsResolution.plans.map (drafts.emitted draftsResolution) ∧
    ∃ number : SetId → ℕ, ([1, 2].map number).Perm (List.range 2) ∧
      (drafts.emitted draftsResolution (.collect 2 1 0 [.provide 0 0 0 [] false] false)).name =
        "_Root_synthetic_" ++ toString (number 2) := by
  have hresolution : drafts.resolution 0 = .ok draftsResolution := by cbv
  have hsets : draftsResolution.namedSets = [1, 1, 2, 2] := by decide
  have hbound : ∀ id ∈ draftsResolution.namedSets, id ≤ 3 := by decide
  have hdiffer : Set.InjOn (3 - ·) {id | id ∈ draftsResolution.namedSets} :=
    fun id hid other hother ↦ (tsub_right_inj (hbound id hid) (hbound other hother)).mp
  obtain ⟨hother, hnumbered⟩ := implementation_numbers drafts
  obtain ⟨hmethods, number, hname, hperm⟩ := hnumbered 0 draftsResolution hresolution
  refine ⟨hresolution, hsets, hother draftsResolution _ hdiffer, hmethods, number, hperm, ?_⟩
  exact hname _ (by simp [draftsResolution, Plan.walk, Plan.walkAll]) 2 rfl

end Graph

end Wiring
