import Wiring.Plan.Resolution
import Wiring.Proofs.Lists
import Wiring.Proofs.Search.Produced

/-!
# Plans of resolvers

Every resolver of a resolved component has a plan that the rules allow inside the root module.
No two sets in all these plans have the same number, because one search hands out the numbers.
-/

namespace Wiring

namespace Graph

variable {graph : Graph} {component : Component} {resolver : Resolver} {resolvers : List Resolver}
  {state : Search} {resolved : List ResolvedResolver}

theorem onlyPlan_eq_ok {plans : List Plan} {plan : Plan}
    (h : graph.onlyPlan component resolver plans = .ok plan) : plans = [plan] := by
  match plans with
  | [] => simp [onlyPlan] at h
  | [only] =>
      rw [onlyPlan] at h
      split_ifs at h
      obtain rfl := Except.ok.inj h
      rfl
  | _ :: _ :: _ => simp [onlyPlan] at h

theorem isPromise_of_onlyPlan {plans : List Plan} {plan : Plan}
    (h : graph.onlyPlan component resolver plans = .ok plan) (hasync : plan.isAsync = true) :
    graph.types.isPromise resolver.returns = true := by
  rw [onlyPlan_eq_ok h, onlyPlan] at h
  split_ifs at h with hmismatch
  simpa [hasync] using hmismatch

theorem onlyPlan_eq_ambiguous_iff {plans : List Plan} {componentName resolverName type : String}
    {count : ℕ} :
    graph.onlyPlan component resolver plans =
        .error (.ambiguous componentName resolverName type count) ↔
      2 ≤ plans.length ∧ componentName = component.name ∧ resolverName = resolver.name ∧
        type = graph.types.display resolver.returns ∧ count = plans.length := by
  match plans with
  | [] => simp [onlyPlan]
  | [only] =>
      rw [onlyPlan]
      split_ifs <;> simp
  | first :: second :: rest => simp [onlyPlan, eq_comm]

theorem resolveAll_cons (graph : Graph) (component : Component) (resolver : Resolver)
    (resolvers : List Resolver) (state : Search) :
    graph.resolveAll component (resolver :: resolvers) state =
      (graph.onlyPlan component resolver
        (graph.candidates component.root resolver.returns state).1).bind fun plan ↦
      (graph.resolveAll component resolvers
        (graph.candidates component.root resolver.returns state).2).bind fun rest ↦
      .ok (⟨resolver.name, plan⟩ :: rest) := rfl

theorem resolveAll_cons_eq_ok
    (h : graph.resolveAll component (resolver :: resolvers) state = .ok resolved) :
    ∃ plan rest, (graph.candidates component.root resolver.returns state).1 = [plan] ∧
      graph.resolveAll component resolvers
        (graph.candidates component.root resolver.returns state).2 = .ok rest ∧
      resolved = ⟨resolver.name, plan⟩ :: rest := by
  rw [resolveAll_cons] at h
  obtain ⟨plan, hplan, h⟩ := bind_eq_ok.mp h
  obtain ⟨rest, hrest, h⟩ := bind_eq_ok.mp h
  exact ⟨plan, rest, onlyPlan_eq_ok hplan, hrest, (Except.ok.inj h).symm⟩

theorem resolveAll_cons_eq_error {problem : Error}
    (h : graph.resolveAll component (resolver :: resolvers) state = .error problem) :
    graph.onlyPlan component resolver
        (graph.candidates component.root resolver.returns state).1 = .error problem ∨
      graph.resolveAll component resolvers
        (graph.candidates component.root resolver.returns state).2 = .error problem := by
  rw [resolveAll_cons] at h
  rcases bind_eq_error.mp h with hplan | ⟨plan, _, h⟩
  · exact Or.inl hplan
  · rcases bind_eq_error.mp h with hrest | ⟨rest, _, h⟩
    · exact Or.inr hrest
    · simp at h

/-- The resolvers of a resolution are those of the component, in order, and those with an
asynchronous plan are declared to return a promise. -/
theorem forall₂_of_resolveAll (h : graph.resolveAll component resolvers state = .ok resolved) :
    List.Forall₂ (fun resolver item ↦ item.name = resolver.name ∧
      graph.Produces [component.root] state.guarded resolver.returns item.plan ∧
      (item.plan.isAsync = true → graph.types.isPromise resolver.returns = true))
      resolvers resolved := by
  induction resolvers generalizing state resolved with
  | nil =>
      obtain rfl : [] = resolved := Except.ok.inj h
      exact .nil
  | cons resolver resolvers ih =>
      rw [resolveAll_cons] at h
      obtain ⟨plan, hplan, h⟩ := bind_eq_ok.mp h
      obtain ⟨rest, hrest, h⟩ := bind_eq_ok.mp h
      obtain rfl := Except.ok.inj h
      have hmem : plan ∈ (graph.candidates component.root resolver.returns state).1 := by
        rw [onlyPlan_eq_ok hplan]
        exact List.mem_cons_self
      have htidy := graph.tidy_candidates component.root resolver.returns state
      refine .cons ⟨rfl, produces_of_mem_candidates hmem, isPromise_of_onlyPlan hplan⟩ ?_
      exact htidy.context.2 ▸ ih hrest

theorem produces_of_resolveAll (h : graph.resolveAll component resolvers state = .ok resolved) :
    ∀ item ∈ resolved, ∃ type, graph.Produces [component.root] state.guarded type item.plan := by
  intro item hitem
  obtain ⟨resolver, -, -, hproduces, -⟩ :=
    exists_of_mem_forall₂ (forall₂_of_resolveAll h).flip hitem
  exact ⟨resolver.returns, hproduces⟩

theorem numbered_of_resolveAll (h : graph.resolveAll component resolvers state = .ok resolved) :
    ∃ high, state.nextSet ≤ high ∧
      Numbered state.nextSet high (resolved.map ResolvedResolver.plan) := by
  induction resolvers generalizing state resolved with
  | nil =>
      obtain rfl : [] = resolved := Except.ok.inj h
      exact ⟨state.nextSet, Nat.le_refl _, .nil⟩
  | cons resolver resolvers ih =>
      obtain ⟨plan, rest, hplan, hrest, rfl⟩ := resolveAll_cons_eq_ok h
      have htidy := graph.tidy_candidates component.root resolver.returns state
      obtain ⟨high, hhigh, hnumbered⟩ := ih hrest
      refine ⟨high, Nat.le_trans htidy.nextSet_le hhigh, ?_⟩
      rw [hplan] at htidy
      exact htidy.numbered.append hnumbered htidy.nextSet_le hhigh

theorem resolution_def (graph : Graph) (id : ComponentId) :
    graph.resolution id =
      (graph.resolveAll (graph.getComponent id) (graph.getComponent id).resolvers .start).bind
        fun resolvers ↦ .ok ⟨id, resolvers, (Needs.ofResolvers resolvers).modules,
          (Needs.ofResolvers resolvers).plans⟩ := rfl

theorem resolution_eq_ok {id : ComponentId} {resolution : Resolution}
    (h : graph.resolution id = .ok resolution) :
    graph.resolveAll (graph.getComponent id) (graph.getComponent id).resolvers .start =
        .ok resolution.resolvers ∧
      resolution.plans = (Needs.ofResolvers resolution.resolvers).plans := by
  rw [resolution_def] at h
  obtain ⟨resolved, hresolved, h⟩ := bind_eq_ok.mp h
  obtain rfl := Except.ok.inj h
  exact ⟨hresolved, rfl⟩

theorem resolution_eq_error {id : ComponentId} {problem : Error}
    (h : graph.resolution id = .error problem) :
    graph.resolveAll (graph.getComponent id) (graph.getComponent id).resolvers .start =
      .error problem := by
  rw [resolution_def] at h
  rcases bind_eq_error.mp h with hresolvers | ⟨_, _, hok⟩
  · exact hresolvers
  · cases hok

theorem nodup_setIds_of_resolution {id : ComponentId} {resolution : Resolution}
    (h : graph.resolution id = .ok resolution) :
    ((resolution.resolvers.map ResolvedResolver.plan).flatMap Plan.setIds).Nodup := by
  obtain ⟨high, _, hnumbered⟩ := numbered_of_resolveAll (resolution_eq_ok h).1
  exact hnumbered.nodup

theorem unnested_of_resolution {id : ComponentId} {resolution : Resolution}
    (h : graph.resolution id = .ok resolution) :
    ∀ item ∈ resolution.resolvers, item.plan.Unnested := by
  intro item hitem
  obtain ⟨type, hproduces⟩ := produces_of_resolveAll (resolution_eq_ok h).1 item hitem
  refine hproduces.unnested ((nodup_setIds_of_resolution h).sublist ?_)
  rw [List.flatMap_def]
  exact List.sublist_flatten_of_mem (List.mem_map_of_mem (List.mem_map_of_mem hitem))

end Graph

end Wiring
