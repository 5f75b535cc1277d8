import Wiring.Proofs.Resolution.Gathered
import Wiring.Proofs.Resolution.Unresolved
import Wiring.Proofs.Search.Apart

/-!
# Candidates that are offered twice

A plan is offered once for every path along includes from the root to its module.  Where there is
one path only to each module, no two candidates are the same plan, and a component is refused for
an ambiguous resolver only if different plans produce what the resolver asks for.
-/

namespace Wiring.Graph

variable {graph : Graph}

theorem exists_of_two_le {plans : List Plan} (hnodup : (plans.map Plan.skeleton).Nodup)
    (hlength : 2 ≤ plans.length) :
    ∃ plan ∈ plans, ∃ other ∈ plans, plan.skeleton ≠ other.skeleton := by
  match plans with
  | first :: second :: rest =>
      refine ⟨first, List.mem_cons_self, second, List.mem_cons_of_mem _ List.mem_cons_self, ?_⟩
      intro hsame
      simp [hsame] at hnodup

theorem foundApart_candidates (hgraph : graph.Unrepeated) {state : Search}
    (hidle : graph.Idle state) (root : ModuleId) (type : TypeId) :
    FoundApart (graph.IncludePath root) (graph.candidates root type state).1 := by
  have hfound := graph.foundAt_candidates hidle.guarded_eq_nil root type
  exact (hfound.foundApart hgraph (nodup_visits hgraph)).imp fun _ ↦ includePath_of_mem_visits

theorem exists_ambiguous {id : ComponentId} {component resolver type : String} {count : ℕ}
    (h : graph.resolution id = .error (.ambiguous component resolver type count)) :
    ∃ declared ∈ (graph.getComponent id).resolvers, declared.name = resolver ∧
      ∃ state, graph.Idle state ∧ 2 ≤
        (graph.candidates (graph.getComponent id).root declared.returns state).1.length := by
  obtain ⟨declared, hdeclared, state, hidle, hplan⟩ :=
    exists_refused .fresh (resolution_eq_error h)
  obtain ⟨hlength, -, hname, -, -⟩ := onlyPlan_eq_ambiguous_iff.mp hplan
  exact ⟨declared, hdeclared, hname.symm, state, hidle, hlength⟩

/-- The candidates for a request stand at the ends of paths along includes from the root, and no two
of them are the same plan at the end of the same path.  The elements of every set in them stand at
the ends of walks along includes in the same way.  So if there is only one path to each module, no
two candidates are the same plan, and an ambiguous resolver has different candidates.  If there is
only one walk, no set has an element twice, neither as a plan nor by the accessors that it calls. -/
theorem candidates_foundApart (hbuilt : graph.Built) (root : ModuleId) :
    (∀ state, graph.Idle state → ∀ type,
      FoundApart (graph.IncludePath root) (graph.candidates root type state).1 ∧
      ∀ plan ∈ (graph.candidates root type state).1, ∀ node ∈ plan.walk, ∀ id,
        node.key = .collect id → FoundApart (graph.IncludeWalk root) node.children) ∧
    (OneWay (graph.IncludePath root) →
      (∀ state, graph.Idle state → ∀ type,
        ((graph.candidates root type state).1.map Plan.skeleton).Nodup) ∧
      ∀ id component resolver type count, (graph.getComponent id).root = root →
        graph.resolution id = .error (.ambiguous component resolver type count) →
        ∃ declared ∈ (graph.getComponent id).resolvers, declared.name = resolver ∧
          ∃ state, graph.Idle state ∧
          ∃ plan ∈ (graph.candidates root declared.returns state).1,
          ∃ other ∈ (graph.candidates root declared.returns state).1,
            plan.skeleton ≠ other.skeleton) ∧
    (OneWay (graph.IncludeWalk root) → ∀ state, graph.Idle state → ∀ type,
      ∀ plan ∈ (graph.candidates root type state).1, ∀ node ∈ plan.walk, ∀ id,
        node.key = .collect id →
        (node.children.map Plan.skeleton).Nodup ∧ (node.children.map Plan.callee).Nodup) := by
  have hgraph := hbuilt.unrepeated
  have helements : ∀ state type, ∀ plan ∈ (graph.candidates root type state).1,
      ∀ node ∈ plan.walk, ∀ id, node.key = .collect id →
        FoundApart (graph.IncludeWalk root) node.children := by
    intro state type plan hplan
    have hwalk : graph.IncludeWalk root [root] := .refl
    have hlookup : plan ∈ (graph.lookupWithin graph.searchDepth .every type
        { state with stack := [root] }).1 := hplan
    exact elements_foundApart hgraph (fun _ ↦ hwalk) plan hlookup
  refine ⟨fun state hidle type ↦ ⟨foundApart_candidates hgraph hidle root type,
    helements state type⟩, fun hone ↦ ?_, ?_⟩
  · have hnodup : ∀ state, graph.Idle state → ∀ type,
        ((graph.candidates root type state).1.map Plan.skeleton).Nodup := fun state hidle type ↦
      Plan.nodup_skeleton ((foundApart_candidates hgraph hidle root type).nodup_callee hone)
    refine ⟨hnodup, ?_⟩
    rintro id component resolver type count rfl herror
    obtain ⟨declared, hdeclared, hname, state, hidle, hlength⟩ := exists_ambiguous herror
    exact ⟨declared, hdeclared, hname, state, hidle,
      exists_of_two_le (hnodup state hidle declared.returns) hlength⟩
  · intro hone state _ type plan hplan node hnode id hkey
    have hnodup := (helements state type plan hplan node hnode id hkey).nodup_callee hone
    exact ⟨Plan.nodup_skeleton hnodup, hnodup⟩

theorem handlers_includeWalk {walk : List ModuleId} (h : handlers.IncludeWalk 0 walk) :
    walk = [0] ∨ walk = [1, 0] := by
  induction h with
  | refl => exact .inl rfl
  | tail _ hstep ih =>
      rcases ih with rfl | rfl
      · obtain ⟨included, visible, rfl⟩ := exists_included_of_extends hstep
        obtain rfl := List.mem_singleton.mp visible
        exact .inr rfl
      · obtain ⟨included, visible, -⟩ := exists_included_of_extends hstep
        exact (List.not_mem_nil visible).elim

theorem handlers_oneWay : OneWay (handlers.IncludeWalk 0) := by
  intro walk other hwalk hother hends
  rcases handlers_includeWalk hwalk with rfl | rfl <;>
    rcases handlers_includeWalk hother with rfl | rfl <;> first | rfl | simp at hends

theorem handlers_differ : handlers.Built ∧ OneWay (handlers.IncludeWalk 0) ∧
    ((handlers.candidates 0 1 .start).1.map Plan.skeleton).Nodup ∧
    ∃ declared ∈ (handlers.getComponent 0).resolvers, declared.name = "handlers" ∧
      ∃ state, handlers.Idle state ∧
      ∃ plan ∈ (handlers.candidates 0 declared.returns state).1,
      ∃ other ∈ (handlers.candidates 0 declared.returns state).1,
        plan.skeleton ≠ other.skeleton := by
  have hpaths : OneWay (handlers.IncludePath 0) :=
    fun _ _ hpath hother ↦ handlers_oneWay _ _ hpath.1 hother.1
  obtain ⟨-, hdiffer, -⟩ := candidates_foundApart handlers_built 0
  obtain ⟨hnodup, hambiguous⟩ := hdiffer hpaths
  have herror : handlers.resolution 0 = .error (.ambiguous "App" "handlers" "Set<Handler>" 2) := by
    cbv
  exact ⟨handlers_built, handlers_oneWay, hnodup .start .fresh 1, hambiguous _ _ _ _ _ rfl herror⟩

/-- A reader and a writer share a storage, and the root includes both. -/
def sharedStorage : Graph where
  types := (((TypeTable.empty.intern (.nominal "File")).2.intern (.generic "Set" [0])).2.intern
    (.nominal "Index")).2
  modules := [⟨"Root", ⟨"root.ts"⟩, [1], [1, 2], []⟩, ⟨"Reader", ⟨"reader.ts"⟩, [], [3], []⟩,
    ⟨"Writer", ⟨"writer.ts"⟩, [], [3], []⟩, ⟨"Storage", ⟨"storage.ts"⟩, [0], [], []⟩]
  providers := [⟨"file", 3, [], 0, false⟩, ⟨"index", 0, [1], 2, false⟩]
  components := [⟨"App", ⟨"app.ts"⟩, 0, [⟨"file", 0⟩]⟩]

theorem sharedStorage_built : sharedStorage.Built := by
  have htypes := ((Built.empty.intern (.nominal "File") (by decide)).intern (.generic "Set" [0])
    (by decide)).intern (.nominal "Index") (by decide)
  have hmodules := (((htypes.addModule "Root" ⟨"root.ts"⟩ rfl).addModule "Reader" ⟨"reader.ts"⟩
    rfl).addModule "Writer" ⟨"writer.ts"⟩ rfl).addModule "Storage" ⟨"storage.ts"⟩ rfl
  have hroot := (hmodules.addInclude 0 1 (by decide) (by decide)).addInclude 0 2 (by decide)
    (by decide)
  have hincludes := (hroot.addInclude 1 3 (by decide) (by decide)).addInclude 2 3 (by decide)
    (by decide)
  have hfile := hincludes.addProvider 3 "file" [] 0 false (by decide) (by decide) (by decide)
  have hindex := hfile.addProvider 0 "index" [1] 2 false (by decide) (by decide) (by decide)
  have happ := hindex.addComponent "App" ⟨"app.ts"⟩ 0 (by decide) rfl
  exact happ.addResolver 0 "file" 0 (by decide) (by decide)

/-- The one way to get a file is offered twice, and it is twice in the set for the index. -/
theorem sharedStorage_offers_twice : sharedStorage.Built ∧
    (sharedStorage.candidates 0 0 .start).1 = [.provide 0 3 0 [] false, .provide 0 3 0 [] false] ∧
    sharedStorage.resolution 0 = .error (.ambiguous "App" "file" "File" 2) ∧
    (sharedStorage.candidates 0 2 .start).1 = [.provide 2 0 1
      [.collect 0 1 0 [.provide 0 3 0 [] false, .provide 0 3 0 [] false] false] false] := by
  refine ⟨sharedStorage_built, ?_, ?_, ?_⟩
  · cbv
  · cbv
  · cbv

end Wiring.Graph
