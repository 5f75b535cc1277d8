import Wiring.Proofs.Resolution.Resolvers
import Wiring.Proofs.Search.Found

/-!
# Requests for sets

Where no provider delivers a set, a request for it finds one set in every module that it comes to,
and it comes to a module by every path along includes.  So the root of a component answers for
itself alone exactly when it includes no other module.
-/

namespace Wiring.Graph

variable {graph : Graph} {type : TypeId} {root : ModuleId}

theorem FoundAt.forall₂_sets {places : List (List ModuleId)} {plans : List Plan}
    (h : graph.FoundAt type places plans) (hset : (graph.types.setElement? type).isSome)
    (hnone : ∀ place ∈ places, ∀ owner ∈ place.head?,
      graph.serving type (graph.getModule owner).providers = []) :
    List.Forall₂ (fun place plan ↦ place.head? = some plan.owner ∧ plan.provider? = none)
      places plans := by
  obtain ⟨parts, hparts, rfl⟩ := h
  obtain ⟨element, helement⟩ := Option.isSome_iff_exists.mp hset
  induction hparts with
  | nil => exact .nil
  | cons hpart _ ih =>
      obtain ⟨hplace, hplaces⟩ := List.forall_mem_cons.mp hnone
      obtain ⟨owner, howner, hfound⟩ := hpart
      obtain ⟨ids, hids, hproviders⟩ := hfound.called
      obtain rfl : ids = [] := List.sublist_nil.mp (hplace owner howner ▸ hids)
      rw [helement] at hproviders
      obtain ⟨plan, rfl, hplan⟩ := List.map_eq_singleton_iff.mp hproviders
      have hsame := hfound.owner_eq plan (List.mem_singleton_self plan)
      exact .cons ⟨hsame ▸ howner, hplan⟩ (ih hplaces)

/-- A request made in the root comes to the root first. -/
theorem owner_head?_of_sets {depth : ℕ} {plans : List Plan}
    (h : List.Forall₂ (fun place plan ↦ place.head? = some plan.owner ∧ plan.provider? = none)
      (graph.visits type (depth + 1) [root] []) plans) :
    plans.head?.map Plan.owner = some root := by
  rw [visits_of_fresh List.not_mem_nil, List.cons_append] at h
  obtain ⟨plan, plans, ⟨howner, -⟩, -, rfl⟩ := List.forall₂_cons_left_iff.mp h
  exact howner.symm

theorem includePath_root : graph.IncludePath root [root] :=
  ⟨.refl, List.nodup_singleton root⟩

theorem eq_of_includePath (h : ∀ included ∈ (graph.getModule root).includes, included = root)
    {path : List ModuleId} (hpath : graph.IncludePath root path) : path = [root] := by
  obtain ⟨hwalk, hnodup⟩ := hpath
  rcases Relation.ReflTransGen.cases_head hwalk with heq | ⟨_, hstep, hrest⟩
  · exact heq.symm
  · obtain ⟨included, visible, rfl⟩ := exists_included_of_extends hstep
    have hpair := hnodup.sublist (suffix_of_extends hrest).sublist
    simp [h included visible] at hpair

theorem length_paths_eq_one_iff {paths : List (List ModuleId)} (hnodup : paths.Nodup)
    (hpaths : ∀ path, path ∈ paths ↔ graph.IncludePath root path) :
    paths.length = 1 ↔ ∀ included ∈ (graph.getModule root).includes, included = root := by
  constructor
  · intro hlength included visible
    by_contra hne
    obtain ⟨only, rfl⟩ := List.length_eq_one_iff.mp hlength
    have hroot := List.mem_singleton.mp ((hpaths [root]).mpr includePath_root)
    have hlonger : graph.IncludePath root [included, root] :=
      ⟨IncludeWalk.push .refl visible, by simpa using hne⟩
    have hsame := List.mem_singleton.mp ((hpaths _).mpr hlonger)
    simp [← hroot] at hsame
  · intro hself
    have hmem : ∀ path, path ∈ paths ↔ path ∈ [[root]] := by
      intro path
      rw [hpaths, List.mem_singleton]
      refine ⟨eq_of_includePath hself, ?_⟩
      rintro rfl
      exact includePath_root
    exact ((List.perm_ext_iff_of_nodup hnodup (List.nodup_singleton _)).mpr hmem).length_eq

/-- Where no provider that a root sees delivers a set, every candidate for the set is a set itself,
and there is one for each path along includes from the root, in the module where the path ends.  The
first is the set of the root.  So there is only one, and a resolver for the set is not ambiguous,
exactly when the root includes nothing but itself. -/
theorem sets_along_includePaths (hbuilt : graph.Built) {state : Search} (hidle : graph.Idle state)
    (hroot : root < graph.modules.length) (htype : type < graph.types.size) {element : TypeId}
    (hset : graph.types.setElement? type = some element)
    (hnone : ∀ owner, graph.Sees root owner → ∀ id ∈ (graph.getModule owner).providers,
      graph.serves (graph.getProvider id).returns type = false) :
    (∃ paths : List (List ModuleId), paths.Nodup ∧
      (∀ path, path ∈ paths ↔ graph.IncludePath root path) ∧
      List.Forall₂ (fun path plan ↦ path.head? = some plan.owner ∧ ∃ id, plan.key = .collect id)
        paths (graph.candidates root type state).1) ∧
    (graph.candidates root type state).1.head?.map Plan.owner = some root ∧
    ((graph.candidates root type state).1.length = 1 ↔
      ∀ included ∈ (graph.getModule root).includes, included = root) ∧
    ∀ component resolver,
      (graph.onlyPlan component resolver (graph.candidates root type state).1 =
          .error (.ambiguous component.name resolver.name (graph.types.display resolver.returns)
            (graph.candidates root type state).1.length) ↔
        ∃ included ∈ (graph.getModule root).includes, included ≠ root) := by
  have hdepth : graph.modules.length < graph.searchDepth := by
    have hrows : graph.modules.length * 1 ≤ graph.modules.length * graph.types.size :=
      Nat.mul_le_mul_left _ (Nat.lt_of_le_of_lt (Nat.zero_le type) htype)
    rw [searchDepth]
    omega
  have hnodup : (graph.visits type graph.searchDepth [root] []).Nodup :=
    nodup_visits hbuilt.unrepeated
  have hpaths : ∀ path, path ∈ graph.visits type graph.searchDepth [root] [] ↔
      graph.IncludePath root path :=
    fun path ↦ mem_visits_iff_includePath hbuilt.closed hroot hdepth
  have hfound := graph.foundAt_candidates hidle.guarded_eq_nil root type
  have hsets := hfound.forall₂_sets (Option.isSome_of_eq_some hset) fun path hpath owner howner ↦
    List.filter_eq_nil_iff.mpr fun id hid ↦ by
      have hsees := ((hpaths path).mp hpath).1.sees owner howner
      simp [hnone owner hsees id hid]
  have hone := length_paths_eq_one_iff hnodup hpaths
  rw [hsets.length_eq] at hone
  have hroots : [root] ∈ graph.visits type graph.searchDepth [root] [] :=
    (hpaths [root]).mpr includePath_root
  have hsome : 1 ≤ (graph.candidates root type state).1.length :=
    hsets.length_eq ▸ List.length_pos_of_mem hroots
  refine ⟨⟨_, hnodup, hpaths, hsets.imp fun path plan h ↦
    ⟨h.1, Plan.provider?_eq_none_iff.mp h.2⟩⟩, owner_head?_of_sets hsets, hone,
    fun component resolver ↦ ?_⟩
  have hseveral : 2 ≤ (graph.candidates root type state).1.length ↔
      ¬ (graph.candidates root type state).1.length = 1 := by omega
  rw [onlyPlan_eq_ambiguous_iff, hseveral, hone]
  simp

/-- The handlers of the root are those of the plugins that it includes. -/
def handlers : Graph where
  types := ((TypeTable.empty.intern (.nominal "Handler")).2.intern (.generic "Set" [0])).2
  modules := [⟨"Root", ⟨"root.ts"⟩, [], [1], []⟩, ⟨"Plugins", ⟨"plugins.ts"⟩, [0], [], []⟩]
  providers := [⟨"handle", 1, [], 0, false⟩]
  components := [⟨"App", ⟨"app.ts"⟩, 0, [⟨"handlers", 1⟩]⟩]

theorem handlers_built : handlers.Built := by
  have htypes := (Built.empty.intern (.nominal "Handler") (by decide)).intern (.generic "Set" [0])
    (by decide)
  have hmodules := (htypes.addModule "Root" ⟨"root.ts"⟩ rfl).addModule "Plugins" ⟨"plugins.ts"⟩ rfl
  have hincludes := hmodules.addInclude 0 1 (by decide) (by decide)
  have hhandle := hincludes.addProvider 1 "handle" [] 0 false (by decide) (by decide) (by decide)
  have happ := hhandle.addComponent "App" ⟨"app.ts"⟩ 0 (by decide) rfl
  exact happ.addResolver 0 "handlers" 1 (by decide) (by decide)

theorem handlers_serving (owner : ModuleId) :
    ∀ id ∈ (handlers.getModule owner).providers,
      handlers.serves (handlers.getProvider id).returns 1 = false := by
  match owner with
  | 0 => decide
  | 1 => decide +kernel
  | owner + 2 => exact List.forall_mem_nil _

/-- The root collects the handlers, and so do the plugins: the resolver has two candidates. -/
theorem handlers_ambiguous : handlers.Built ∧ handlers.types.setElement? 1 = some 0 ∧
    (∀ owner, ∀ id ∈ (handlers.getModule owner).providers,
      handlers.serves (handlers.getProvider id).returns 1 = false) ∧
    (handlers.candidates 0 1 .start).1.length = 2 ∧
    handlers.resolution 0 = .error (.ambiguous "App" "handlers" "Set<Handler>" 2) := by
  refine ⟨handlers_built, rfl, handlers_serving, ?_, ?_⟩
  · decide +kernel
  · cbv

theorem handlers_sets_along_includePaths : handlers.Idle .start ∧
    handlers.types.setElement? 1 = some 0 ∧
    (∀ owner, handlers.Sees 0 owner → ∀ id ∈ (handlers.getModule owner).providers,
      handlers.serves (handlers.getProvider id).returns 1 = false) ∧
    ∃ paths : List (List ModuleId), paths.Nodup ∧
      (∀ path, path ∈ paths ↔ handlers.IncludePath 0 path) ∧
      List.Forall₂ (fun path plan ↦ path.head? = some plan.owner ∧ ∃ id, plan.key = .collect id)
        paths (handlers.candidates 0 1 .start).1 := by
  have hnone : ∀ owner, handlers.Sees 0 owner → ∀ id ∈ (handlers.getModule owner).providers,
      handlers.serves (handlers.getProvider id).returns 1 = false :=
    fun owner _ ↦ handlers_serving owner
  have hset : handlers.types.setElement? 1 = some 0 := rfl
  exact ⟨.fresh, hset, hnone,
    (sets_along_includePaths handlers_built .fresh (by decide) (by decide) hset hnone).1⟩

end Wiring.Graph
