import Wiring.Proofs.Resolution.Resolvers
import Wiring.Proofs.Search.Derivable

/-!
# Resolvers without a plan

An engine finds a plan for exactly the derivable requests, whatever it was asked before.  So a
component fails for want of a plan only if one of its resolvers asks for a type that is not
derivable inside the root module.
-/

namespace Wiring.Graph

variable {graph : Graph}

theorem onlyPlan_eq_unresolved {component : Component} {resolver : Resolver} {plans : List Plan}
    {componentName resolverName type : String}
    (h : graph.onlyPlan component resolver plans =
      .error (.unresolved componentName resolverName type)) :
    plans = [] ∧ componentName = component.name ∧ resolverName = resolver.name ∧
      type = graph.types.display resolver.returns := by
  match plans with
  | [] =>
      rw [onlyPlan] at h
      obtain ⟨rfl, rfl, rfl⟩ := Error.unresolved.inj (Except.error.inj h)
      exact ⟨rfl, rfl, rfl, rfl⟩
  | [only] =>
      rw [onlyPlan] at h
      split_ifs at h
      exact Error.noConfusion (Except.error.inj h)
  | _ :: _ :: _ => simp [onlyPlan] at h

/-- An error comes from the first resolver that has no single plan. -/
theorem exists_refused {component : Component} {resolvers : List Resolver} {state : Search}
    (hidle : graph.Idle state) {problem : Error}
    (h : graph.resolveAll component resolvers state = .error problem) :
    ∃ resolver ∈ resolvers, ∃ idle, graph.Idle idle ∧ graph.onlyPlan component resolver
      (graph.candidates component.root resolver.returns idle).1 = .error problem := by
  induction resolvers generalizing state with
  | nil => cases h
  | cons resolver resolvers ih =>
      rcases resolveAll_cons_eq_error h with hplan | hrest
      · exact ⟨resolver, List.mem_cons_self, state, hidle, hplan⟩
      · obtain ⟨other, hother, hrefused⟩ := ih (hidle.served _ _) hrest
        exact ⟨other, List.mem_cons_of_mem _ hother, hrefused⟩

theorem resolveAll_eq_unresolved {component : Component} {resolvers : List Resolver}
    {state : Search} (hidle : graph.Idle state) {componentName resolverName type : String}
    (h : graph.resolveAll component resolvers state =
      .error (.unresolved componentName resolverName type)) :
    componentName = component.name ∧ ∃ resolver ∈ resolvers, resolver.name = resolverName ∧
      graph.types.display resolver.returns = type ∧
      ∃ idle, graph.Idle idle ∧ (graph.candidates component.root resolver.returns idle).1 = [] := by
  obtain ⟨resolver, hresolver, idle, hidle, hplan⟩ := exists_refused hidle h
  obtain ⟨hnil, hcomponent, hname, htype⟩ := onlyPlan_eq_unresolved hplan
  exact ⟨hcomponent, resolver, hresolver, hname.symm, htype.symm, idle, hidle, hnil⟩

/-- In a graph that is built by declarations, an engine that is asked for a type inside a root
module finds a plan exactly when the request is derivable, whatever it was asked before.  A
component is reported to have no plan for a resolver only when the resolver asks for a type that
is not derivable inside the root module of the component. -/
theorem finds_exactly_derivable (hbuilt : graph.Built) :
    (∀ state, graph.Idle state → ∀ root < graph.modules.length, ∀ type < graph.types.size,
      ((graph.candidates root type state).1 ≠ [] ↔ graph.Derivable [root] type ∅)) ∧
    ∀ id component resolver type,
      graph.resolution id = .error (.unresolved component resolver type) →
      component = (graph.getComponent id).name ∧
      ∃ declared ∈ (graph.getComponent id).resolvers, declared.name = resolver ∧
        graph.types.display declared.returns = type ∧
        ¬ graph.Derivable [(graph.getComponent id).root] declared.returns ∅ := by
  have hclosed := hbuilt.closed
  refine ⟨fun state hidle root hroot type htype ↦
    candidates_ne_nil_iff hclosed hidle.guarded_eq_nil hroot htype, ?_⟩
  intro id component resolver type herror
  obtain ⟨hcomponent, declared, hdeclared, hname, hdisplay, idle, hidle, hnil⟩ :=
    resolveAll_eq_unresolved .fresh (resolution_eq_error herror)
  refine ⟨hcomponent, declared, hdeclared, hname, hdisplay, fun hderivable ↦ ?_⟩
  obtain ⟨hroot, htype⟩ := hclosed.getComponent hdeclared
  exact (candidates_ne_nil_iff hclosed hidle.guarded_eq_nil hroot htype).mpr hderivable hnil

theorem circular_finds_exactly_derivable :
    circular.Built ∧ circular.Derivable [0] 1 ∅ ∧ ¬ circular.Derivable [0] 2 ∅ ∧
      ∃ declared ∈ (circular.getComponent 1).resolvers, declared.name = "missing" ∧
        ¬ circular.Derivable [(circular.getComponent 1).root] declared.returns ∅ := by
  obtain ⟨hfinds, hreports⟩ := finds_exactly_derivable circular_built
  have hfinal : (circular.candidates 0 1 .start).1.isEmpty = false := by decide +kernel
  have hmissing : (circular.candidates 0 2 .start).1.isEmpty = true := by decide +kernel
  have herror : circular.resolution 1 = .error (.unresolved "Broken" "missing" "Missing") := by
    have hmap : (circular.resolution 1).map (fun _ ↦ ()) =
        .error (.unresolved "Broken" "missing" "Missing") := by decide +kernel
    cases h : circular.resolution 1 with
    | ok resolution => simp [h, Except.map] at hmap
    | error problem => exact congrArg Except.error (by simpa [h, Except.map] using hmap)
  obtain ⟨-, declared, hdeclared, hname, -, hunderivable⟩ := hreports _ _ _ _ herror
  refine ⟨circular_built, ?_, ?_, declared, hdeclared, hname, hunderivable⟩
  · exact (hfinds .start .fresh 0 (by decide) 1 (by decide)).mp (by simpa using hfinal)
  · intro hderivable
    refine (hfinds .start .fresh 0 (by decide) 2 (by decide)).mpr hderivable ?_
    simpa using hmissing

end Wiring.Graph
