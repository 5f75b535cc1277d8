import Wiring.Proofs.Resolution.Unresolved
import Wiring.Proofs.Search.History
import Wiring.Proofs.Search.Produced

/-!
# Asynchrony of plans and resolvers

The mark of a node says whether a deferred provider is called at the node or anywhere below it.  A
component is therefore refused for a mismatch of asynchrony only where the one plan of a resolver
calls a deferred provider, and it is never resolved with such a plan unless a promise was asked for.
-/

namespace Wiring

namespace Graph

variable {graph : Graph} {stack : List ModuleId} {guarded : List (ModuleId × TypeId)}
  {type : TypeId} {plan node : Plan}

/-- A deferred provider is called at the root of the plan or below. -/
def CallsDeferred (graph : Graph) (plan : Plan) : Prop :=
  ∃ node ∈ plan.walk, ∃ owner provider, node.key = .provide owner provider ∧
    (graph.getProvider provider).deferred = true

theorem defers_eq_true_iff {key : PlanKey} : graph.defers key = true ↔
    ∃ owner provider, key = .provide owner provider ∧
      (graph.getProvider provider).deferred = true := by
  cases key with
  | provide owner provider =>
      constructor
      · intro hdeferred
        exact ⟨owner, provider, rfl, hdeferred⟩
      · rintro ⟨_, _, hkey, hdeferred⟩
        obtain ⟨rfl, rfl⟩ := PlanKey.provide.inj hkey
        exact hdeferred
  | collect id => simp [defers]

theorem Produces.isAsync_iff (h : graph.Produces stack guarded type plan)
    (hnode : node ∈ plan.walk) : node.isAsync = true ↔ graph.CallsDeferred node := by
  have hmarks : ∀ below ∈ node.walk,
      below.isAsync = (graph.defers below.key || below.children.any Plan.isAsync) :=
    fun below hbelow ↦ h.isAsync_eq ((Plan.walk_sublist hnode).subset hbelow)
  rw [isAsync_iff_of_walk hmarks, CallsDeferred]
  exact exists_congr fun below ↦ and_congr_right fun _ ↦ defers_eq_true_iff

theorem onlyPlan_eq_asynchronous {component : Component} {resolver : Resolver} {plans : List Plan}
    {componentName resolverName typeName : String}
    (h : graph.onlyPlan component resolver plans =
      .error (.asynchronous componentName resolverName typeName)) :
    componentName = component.name ∧ resolverName = resolver.name ∧
      typeName = graph.types.display resolver.returns ∧
      graph.types.isPromise resolver.returns = false ∧
      ∃ plan, plans = [plan] ∧ plan.isAsync = true := by
  match plans with
  | [] => simp [onlyPlan] at h
  | [only] =>
      rw [onlyPlan] at h
      split_ifs at h with hmismatch
      obtain ⟨hasync, hdeclared⟩ := Bool.and_eq_true_iff.mp hmismatch
      obtain ⟨rfl, rfl, rfl⟩ := Error.asynchronous.inj (Except.error.inj h)
      exact ⟨rfl, rfl, rfl, by simpa using hdeclared, only, rfl, hasync⟩
  | _ :: _ :: _ => simp [onlyPlan] at h

theorem candidates_eq_map_of_idle {state : Search} (hidle : graph.Idle state) (root : ModuleId)
    (type : TypeId) : (graph.candidates root type state).1 =
      (graph.candidates root type .start).1.map (Plan.mapSets (state.nextSet + ·)) := by
  obtain ⟨stack, guarded, nextSet⟩ := state
  obtain rfl : guarded = [] := hidle.guarded_eq_nil
  exact congrArg Prod.fst (candidates_later nextSet root type .start)

/-- Where one engine has a single candidate, every engine has, and it is as asynchronous. -/
theorem exists_single_of_idle {state other : Search} (hidle : graph.Idle state)
    (hother : graph.Idle other) {root : ModuleId}
    (h : (graph.candidates root type state).1 = [plan]) :
    ∃ single, (graph.candidates root type other).1 = [single] ∧ single.isAsync = plan.isAsync := by
  rw [candidates_eq_map_of_idle hidle, List.map_eq_singleton_iff] at h
  obtain ⟨fresh, hfresh, rfl⟩ := h
  refine ⟨fresh.mapSets (other.nextSet + ·), ?_, ?_⟩
  · rw [candidates_eq_map_of_idle hother, hfresh, List.map_singleton]
  · rw [Plan.isAsync_mapSets, Plan.isAsync_mapSets]

/-- Every node of a candidate is marked asynchronous exactly if a deferred provider is called there
or below, whatever the engine was asked before.  So a resolver of a resolved component that is not
declared to return a promise has a plan that calls none.  And a component is refused for a mismatch
only because of a resolver that is declared otherwise and whose single candidate, in every engine,
calls a deferred provider. -/
theorem asynchrony_exact (graph : Graph) :
    (∀ root type state, ∀ plan ∈ (graph.candidates root type state).1, ∀ node ∈ plan.walk,
      (node.isAsync = true ↔ graph.CallsDeferred node)) ∧
    (∀ id resolution, graph.resolution id = .ok resolution →
      List.Forall₂ (fun resolver item ↦ item.name = resolver.name ∧
        (graph.types.isPromise resolver.returns = false → ¬ graph.CallsDeferred item.plan))
        (graph.getComponent id).resolvers resolution.resolvers) ∧
    ∀ id component resolver type,
      graph.resolution id = .error (.asynchronous component resolver type) →
      component = (graph.getComponent id).name ∧
      ∃ declared ∈ (graph.getComponent id).resolvers, declared.name = resolver ∧
        graph.types.display declared.returns = type ∧
        graph.types.isPromise declared.returns = false ∧
        ∀ state, graph.Idle state → ∃ plan,
          (graph.candidates (graph.getComponent id).root declared.returns state).1 = [plan] ∧
          graph.CallsDeferred plan := by
  have hcandidates : ∀ root type state, ∀ plan ∈ (graph.candidates root type state).1,
      ∀ node ∈ plan.walk, (node.isAsync = true ↔ graph.CallsDeferred node) :=
    fun root type state plan hplan node hnode ↦
      (produces_of_mem_candidates hplan).isAsync_iff hnode
  refine ⟨hcandidates, ?_, ?_⟩
  · intro id resolution h
    refine (forall₂_of_resolveAll (resolution_eq_ok h).1).imp ?_
    rintro resolver item ⟨hname, hproduces, hdeclared⟩
    refine ⟨hname, fun hplain hcalls ↦ ?_⟩
    have hasync := (hproduces.isAsync_iff item.plan.self_mem_walk).mpr hcalls
    rw [hdeclared hasync] at hplain
    exact Bool.noConfusion hplain
  · intro id component resolver type h
    obtain ⟨declared, hmem, idle, hidle, hrefused⟩ := exists_refused .fresh (resolution_eq_error h)
    obtain ⟨hcomponent, hresolver, htype, hplain, plan, hsingle, hasync⟩ :=
      onlyPlan_eq_asynchronous hrefused
    refine ⟨hcomponent, declared, hmem, hresolver.symm, htype.symm, hplain, ?_⟩
    intro state hstate
    obtain ⟨single, hfound, hsame⟩ := exists_single_of_idle hidle hstate hsingle
    have hmark := hcandidates _ _ state single (hfound ▸ List.mem_singleton_self single) single
      single.self_mem_walk
    exact ⟨single, hfound, hmark.mp (hsame.trans hasync)⟩

/-- A feed that is wanted at once is made from a clock that comes later. -/
def impatient : Graph where
  types := ((TypeTable.empty.intern (.nominal "Clock")).2.intern (.generic "Promise" [0])).2.intern
    (.nominal "Feed") |>.2
  modules := [⟨"Root", ⟨"root.ts"⟩, [0, 1], [], []⟩]
  providers := [⟨"clock", 0, [], 1, true⟩, ⟨"feed", 0, [0], 2, false⟩]
  components := [⟨"App", ⟨"app.ts"⟩, 0, [⟨"feed", 2⟩]⟩]

theorem impatient_refused : impatient.Idle .start ∧
    impatient.resolution 0 = .error (.asynchronous "App" "feed" "Feed") ∧
    ∃ plan, (impatient.candidates 0 2 .start).1 = [plan] ∧ plan.isAsync = true ∧
      impatient.CallsDeferred plan := by
  have hrefused : impatient.resolution 0 = .error (.asynchronous "App" "feed" "Feed") := by cbv
  obtain ⟨hcandidates, -, hreports⟩ := asynchrony_exact impatient
  obtain ⟨-, declared, hdeclared, -, -, -, hsingle⟩ := hreports _ _ _ _ hrefused
  obtain rfl := List.mem_singleton.mp hdeclared
  obtain ⟨plan, hplan, hcalls⟩ := hsingle .start .fresh
  have hmem : plan ∈ (impatient.candidates 0 2 .start).1 := hplan ▸ List.mem_singleton_self plan
  have hasync := (hcandidates 0 2 .start plan hmem plan plan.self_mem_walk).mpr hcalls
  exact ⟨.fresh, hrefused, plan, hplan, hasync, hcalls⟩

end Graph

end Wiring
