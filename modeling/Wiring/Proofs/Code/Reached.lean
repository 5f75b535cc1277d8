import Mathlib.Data.Fintype.Card
import Wiring.Proofs.Code.Emitted
import Wiring.Proofs.Resolution.FirstMet

/-!
# Accessors that are used

An accessor is used when it is reached from the override of a resolver by following calls.  Every
node of the plans of all resolvers is stored under its key, and the first node of a key alone says
what the accessor of the key calls.  So there may be accessors that nothing calls, for what stands
below a later node: a provider that only the later node has among its arguments, or the set that
was collected once more for the later node.
-/

namespace Wiring

open Code

/-- The override of a resolver calls the accessor of the key, directly or through others. -/
def Resolution.Reaches (resolution : Resolution) (key : PlanKey) : Prop :=
  ∃ item ∈ resolution.resolvers,
    Relation.ReflTransGen (Delegates resolution.plans) item.plan.key key

/-- Above the node there is a call of a provider, and the accessor of this provider does not call
what leads from there down to the node. -/
def Plan.Detached (plans : List Plan) (plan node : Plan) : Prop :=
  ∃ above ∈ plan.walk, (∃ owner id, above.key = .provide owner id) ∧
    ∃ child ∈ above.children, node ∈ child.walk ∧ ¬ Delegates plans above.key child.key

theorem Plan.Detached.of_child {plans : List Plan} {plan child node : Plan}
    (h : child.Detached plans node) (hchild : child ∈ plan.children) :
    plan.Detached plans node := by
  obtain ⟨above, habove, hbelow⟩ := h
  exact ⟨above, Plan.mem_walk_of_mem_child hchild habove, hbelow⟩

namespace Resolution

variable {resolution : Resolution} {key other : PlanKey}

theorem Reaches.of_resolver {item : ResolvedResolver} (hitem : item ∈ resolution.resolvers) :
    resolution.Reaches item.plan.key :=
  ⟨item, hitem, .refl⟩

theorem Reaches.delegate (h : resolution.Reaches key)
    (hcall : Delegates resolution.plans key other) : resolution.Reaches other := by
  obtain ⟨item, hitem, hchain⟩ := h
  exact ⟨item, hitem, hchain.tail hcall⟩

theorem Reaches.exists_called (h : resolution.Reaches key) :
    ∃ plan ∈ resolution.called, plan.key = key := by
  obtain ⟨item, hitem, hchain⟩ := h
  rcases Relation.ReflTransGen.cases_tail hchain with rfl | ⟨caller, -, hcall⟩
  · exact ⟨item.plan, List.mem_append_left _ (List.mem_map_of_mem hitem), rfl⟩
  · obtain ⟨plan, hplan, -, child, hchild, hkey⟩ := hcall
    exact ⟨child, List.mem_append_right _ (List.mem_flatMap.mpr ⟨plan, hplan, hchild⟩), hkey⟩

end Resolution

section

variable {plans : List Plan} {key other : PlanKey} {stored tree : Plan}

theorem delegates_iff (hnodup : (plans.map Plan.key).Nodup)
    (hstored : firstAt plans key = some stored) :
    Delegates plans key other ↔ ∃ child ∈ stored.children, child.key = other := by
  obtain ⟨hmem, hkey⟩ := firstAt_eq_some hstored
  constructor
  · rintro ⟨plan, hplan, rfl, hchild⟩
    have hsame := hstored.symm.trans (firstAt_of_nodup hnodup hplan)
    rwa [Option.some.inj hsame]
  · intro hchild
    exact ⟨stored, hmem, hkey, hchild⟩

/-- The keys in the tree that unfolds from a key are those that its accessor calls, directly or
through other accessors. -/
theorem Unfolds.mem_keys_iff (hnodup : (plans.map Plan.key).Nodup) (h : Unfolds plans key tree) :
    other ∈ tree.walk.map Plan.key ↔ Relation.ReflTransGen (Delegates plans) key other := by
  induction h with
  | @intro key stored subtrees found length each ih =>
      have hroot : (stored.withChildren subtrees).key = key := by
        rw [← (firstAt_eq_some found).2]
        cases stored <;> rfl
      rw [Relation.ReflTransGen.cases_head_iff, Plan.walk_eq, Plan.children_withChildren,
        List.map_cons, List.mem_cons, hroot, eq_comm, List.map_flatMap, List.mem_flatMap]
      refine or_congr_right ⟨?_, ?_⟩
      · rintro ⟨subtree, hsubtree, hother⟩
        obtain ⟨child, hpair⟩ := exists_mem_zip_of_mem_right length hsubtree
        have hchild := (List.of_mem_zip hpair).1
        exact ⟨child.key, (delegates_iff hnodup found).mpr ⟨child, hchild, rfl⟩,
          (ih _ hpair).mp hother⟩
      · rintro ⟨next, hcall, hchain⟩
        obtain ⟨child, hchild, rfl⟩ := (delegates_iff hnodup found).mp hcall
        obtain ⟨subtree, hpair⟩ := exists_mem_zip_of_mem_left length hchild
        exact ⟨subtree, (List.of_mem_zip hpair).2, (ih _ hpair).mpr hchain⟩

end

namespace Graph

variable {graph : Graph} {id : ComponentId} {resolution : Resolution}

theorem exists_delegates_of_collect (h : graph.resolution id = .ok resolution) {node child : Plan}
    (hnode : node ∈ resolution.walk) {number : SetId} (hkey : node.key = .collect number)
    (hchild : child ∈ node.children) : Delegates resolution.plans node.key child.key := by
  have hshared := shared_of_resolution h
  obtain ⟨stored, hstored⟩ := hshared.exists_stored hnode
  obtain rfl := hshared.eq_of_collect hnode hkey hstored
  exact (delegates_iff hshared.nodup hstored).mpr ⟨child, hchild, rfl⟩

theorem reaches_or_detached (h : graph.resolution id = .ok resolution) {plan node : Plan}
    (hplan : plan ∈ resolution.walk) (hreached : resolution.Reaches plan.key)
    (hnode : node ∈ plan.walk) :
    resolution.Reaches node.key ∨ plan.Detached resolution.plans node := by
  induction plan using Plan.induct with
  | step plan ih =>
      rcases Plan.mem_walk.mp hnode with rfl | ⟨child, hchild, hbelow⟩
      · exact Or.inl hreached
      · by_cases hcall : Delegates resolution.plans plan.key child.key
        · have hwalk := (shared_of_resolution h).children plan hplan child hchild
          refine (ih child hchild hwalk (hreached.delegate hcall) hbelow).imp_right ?_
          exact fun hdetached ↦ hdetached.of_child hchild
        · right
          refine ⟨plan, plan.self_mem_walk, ?_, child, hchild, hbelow, hcall⟩
          cases hkey : plan.key with
          | provide owner provider => exact ⟨owner, provider, rfl⟩
          | collect number => exact (hcall (exists_delegates_of_collect h hplan hkey hchild)).elim

/-- As accessors do not call each other in a cycle, it is enough that each of them is called. -/
theorem reaches_all_iff (h : graph.resolution id = .ok resolution) :
    (∀ plan ∈ resolution.plans, resolution.Reaches plan.key) ↔
      ∀ plan ∈ resolution.plans, ∃ called ∈ resolution.called, called.key = plan.key := by
  refine ⟨fun hall plan hplan ↦ (hall plan hplan).exists_called, fun hcalled ↦ ?_⟩
  let Stored := {key // key ∈ resolution.plans.map Plan.key}
  let Above (key other : Stored) : Prop :=
    Relation.TransGen (Delegates resolution.plans) key.1 other.1
  have : IsTrans Stored Above := ⟨fun _ _ _ ↦ Relation.TransGen.trans⟩
  have : Std.Irrefl Above := ⟨fun key ↦ accessors_acyclic h key.1⟩
  have hall : ∀ key : Stored, resolution.Reaches key.1 := by
    intro key
    induction key using (Finite.wellFounded_of_trans_of_irrefl Above).induction with
    | _ key ih =>
        obtain ⟨plan, hplan, hkey⟩ := List.mem_map.mp key.2
        obtain ⟨called, hmem, hsame⟩ := hcalled plan hplan
        rw [← hkey, ← hsame]
        rcases List.mem_append.mp hmem with hresolver | hchild
        · obtain ⟨item, hitem, rfl⟩ := List.mem_map.mp hresolver
          exact .of_resolver hitem
        · obtain ⟨caller, hcaller, hchild⟩ := List.mem_flatMap.mp hchild
          have hcall : Delegates resolution.plans caller.key called.key :=
            ⟨caller, hcaller, rfl, called, hchild, rfl⟩
          refine (ih ⟨caller.key, List.mem_map_of_mem hcaller⟩ ?_).delegate hcall
          exact .single (hkey ▸ hsame ▸ hcall)
  exact fun plan hplan ↦ hall ⟨plan.key, List.mem_map_of_mem hplan⟩

/-- The hidden methods of an implementation are the accessors of the stored plans, and each of these
is a node of the plan of a resolver.  An override calls the accessor of its plan, and an accessor
those of the children of the stored plan.  What is reached by following these calls are the keys of
the trees that unfold from the resolvers.  A node of the plan of a resolver has an accessor that is
reached, unless it is below a provider with an accessor that calls something else in its place.  All
accessors are reached exactly if each of them is called, and always if the nodes of one key have
children of the same keys. -/
theorem accessors_reached (h : graph.resolution id = .ok resolution) :
    (graph.implementation resolution).hiddenMethods =
      resolution.plans.map (graph.emitted resolution) ∧
    (∀ plan ∈ resolution.plans, ∃ item ∈ resolution.resolvers, plan ∈ item.plan.walk) ∧
    (∀ item ∈ resolution.resolvers, (graph.overrideIn resolution item).body =
      (graph.emitted resolution item.plan).invoked) ∧
    (∀ plan ∈ resolution.plans, (graph.emitted resolution plan).body =
      graph.accessorBody plan (plan.children.map fun child ↦
        (graph.emitted resolution child).invoked.awaitIf child.isAsync)) ∧
    (∀ key, resolution.Reaches key ↔ ∃ item ∈ resolution.resolvers, ∃ tree,
      Unfolds resolution.plans item.plan.key tree ∧ key ∈ tree.walk.map Plan.key) ∧
    (∀ item ∈ resolution.resolvers, ∀ node ∈ item.plan.walk,
      resolution.Reaches node.key ∨ item.plan.Detached resolution.plans node) ∧
    ((∀ plan ∈ resolution.plans, resolution.Reaches plan.key) ↔
      ∀ plan ∈ resolution.plans, ∃ called ∈ resolution.called, called.key = plan.key) ∧
    ((∀ node ∈ resolution.walk, ∀ other ∈ resolution.walk, node.key = other.key →
        node.children.map Plan.key = other.children.map Plan.key) →
      ∀ plan ∈ resolution.plans, resolution.Reaches plan.key) := by
  have hshared := shared_of_resolution h
  have hmem : ∀ item ∈ resolution.resolvers, item.plan ∈ resolution.walk := fun item hitem ↦
    mem_walk_of_mem_called h (mem_called_of_mem_resolvers hitem)
  have hcontained : ∀ plan ∈ resolution.plans,
      ∃ item ∈ resolution.resolvers, plan ∈ item.plan.walk :=
    fun plan hplan ↦ List.mem_flatMap.mp (mem_walk_of_mem_plans h hplan)
  have hnodes : ∀ item ∈ resolution.resolvers, ∀ node ∈ item.plan.walk,
      resolution.Reaches node.key ∨ item.plan.Detached resolution.plans node :=
    fun item hitem node hnode ↦
      reaches_or_detached h (hmem item hitem) (.of_resolver hitem) hnode
  refine ⟨?_, hcontained, fun item hitem ↦ ?_, fun plan hplan ↦ body_emitted h hplan,
    fun key ↦ ⟨?_, ?_⟩, hnodes, reaches_all_iff h, fun halike plan hplan ↦ ?_⟩
  · rw [hiddenMethods_implementation]
    exact List.map_congr_left fun plan hplan ↦ (emitted_of_mem h hplan).symm
  · rw [Method.invoked, name_emitted h (hmem item hitem), overrideIn]
  · rintro ⟨item, hitem, hchain⟩
    have hsettled := settled_of_resolution h item hitem item.plan item.plan.self_mem_walk
    obtain ⟨tree, htree⟩ := hshared.exists_unfolds hsettled ⟨item.plan, hmem item hitem, rfl⟩
    exact ⟨item, hitem, tree, htree, (htree.mem_keys_iff hshared.nodup).mpr hchain⟩
  · rintro ⟨item, hitem, tree, htree, hkey⟩
    exact ⟨item, hitem, (htree.mem_keys_iff hshared.nodup).mp hkey⟩
  · obtain ⟨item, hitem, hnode⟩ := hcontained plan hplan
    refine (hnodes item hitem plan hnode).resolve_right ?_
    rintro ⟨above, habove, -, child, hchild, -, hcall⟩
    have hwalk : above ∈ resolution.walk := List.mem_flatMap.mpr ⟨item, hitem, habove⟩
    obtain ⟨stored, hstored⟩ := hshared.exists_stored hwalk
    obtain ⟨hfirst, hkey⟩ := hshared.of_firstAt hstored
    have hkeys := halike above hwalk stored hfirst hkey.symm
    have hmapped : child.key ∈ stored.children.map Plan.key :=
      hkeys ▸ List.mem_map_of_mem hchild
    obtain ⟨twin, htwin, hsame⟩ := List.mem_map.mp hmapped
    exact hcall ((delegates_iff hshared.nodup hstored).mpr ⟨twin, htwin, hsame⟩)

/-- In the library each accessor is called, so that all of them are reached. -/
theorem library_reached : library.resolution 0 = .ok libraryResolution ∧
    ∀ plan ∈ libraryResolution.plans, libraryResolution.Reaches plan.key := by
  have hresolution : library.resolution 0 = .ok libraryResolution := by cbv
  obtain ⟨-, -, -, -, -, -, hall, -⟩ := accessors_reached hresolution
  exact ⟨hresolution, hall.mpr (by decide)⟩

/-- A search and a report are made from one index, and the index from the set of all files. -/
def sharedIndex : Graph where
  types := ((((TypeTable.empty.intern (.nominal "File")).2.intern (.generic "Set" [0])).2.intern
    (.nominal "Index")).2.intern (.nominal "Search")).2.intern (.nominal "Report") |>.2
  modules := [⟨"Root", ⟨"root.ts"⟩, [0, 1, 2, 3], [], []⟩]
  providers := [⟨"file", 0, [], 0, false⟩, ⟨"index", 0, [1], 2, false⟩,
    ⟨"search", 0, [2], 3, false⟩, ⟨"report", 0, [2], 4, false⟩]
  components := [⟨"App", ⟨"app.ts"⟩, 0, [⟨"search", 3⟩, ⟨"report", 4⟩]⟩]

theorem sharedIndex_built : sharedIndex.Built := by
  have htypes := ((((Built.empty.intern (.nominal "File") (by decide)).intern (.generic "Set" [0])
    (by decide)).intern (.nominal "Index") (by decide)).intern (.nominal "Search")
    (by decide)).intern (.nominal "Report") (by decide)
  have hroot := htypes.addModule "Root" ⟨"root.ts"⟩ rfl
  have hindex := (hroot.addProvider 0 "file" [] 0 false (by decide) (by decide)
    (by decide)).addProvider 0 "index" [1] 2 false (by decide) (by decide) (by decide)
  have hreport := (hindex.addProvider 0 "search" [2] 3 false (by decide) (by decide)
    (by decide)).addProvider 0 "report" [2] 4 false (by decide) (by decide) (by decide)
  have happ := hreport.addComponent "App" ⟨"app.ts"⟩ 0 (by decide) rfl
  exact (happ.addResolver 0 "search" 3 (by decide) (by decide)).addResolver 0 "report" 4
    (by decide) (by decide)

def sharedIndexResolution : Resolution :=
  let file : Plan := .provide 0 0 0 [] false
  let filesOf (id : SetId) : Plan := .collect id 1 0 [file] false
  let indexOf (id : SetId) : Plan := .provide 2 0 1 [filesOf id] false
  let search : Plan := .provide 3 0 2 [indexOf 0] false
  let report : Plan := .provide 4 0 3 [indexOf 1] false
  { component := 0
    resolvers := [⟨"search", search⟩, ⟨"report", report⟩]
    modules := [0]
    plans := [search, indexOf 0, filesOf 0, file, report, filesOf 1] }

theorem sharedIndex_resolution : sharedIndex.resolution 0 = .ok sharedIndexResolution := by
  cbv

/-- The files are collected once more below the report, and there is an accessor for this second
set.  The accessor of the index calls the one for the first set, and no call goes to the other. -/
theorem sharedIndex_unreached : sharedIndex.Built ∧
    sharedIndex.resolution 0 = .ok sharedIndexResolution ∧
    (sharedIndex.implementation sharedIndexResolution).hiddenMethods.map Method.name =
      ["_Root_search", "_Root_index", "_Root_synthetic_0", "_Root_file", "_Root_report",
        "_Root_synthetic_1"] ∧
    sharedIndexResolution.called.map (sharedIndex.nameIn sharedIndexResolution) =
      ["_Root_search", "_Root_report", "_Root_index", "_Root_synthetic_0", "_Root_file",
        "_Root_index", "_Root_file"] ∧
    ∃ plan ∈ sharedIndexResolution.plans, ¬ sharedIndexResolution.Reaches plan.key := by
  refine ⟨sharedIndex_built, sharedIndex_resolution, by cbv, by cbv, ?_⟩
  refine ⟨.collect 1 1 0 [.provide 0 0 0 [] false] false, by simp [sharedIndexResolution], ?_⟩
  intro hreached
  obtain ⟨called, hcalled, hkey⟩ := hreached.exists_called
  revert called
  decide

end Graph

end Wiring
