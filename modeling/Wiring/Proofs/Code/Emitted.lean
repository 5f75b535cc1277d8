import Wiring.Proofs.Code.Named
import Wiring.Proofs.Resolution.Unfolding

/-!
# Accessors of keys

An implementation has one accessor for each key that a resolution stores a plan under.  The
accessors that are called, by overrides and by other accessors, are all among them.
-/

namespace Wiring

open Code

def Code.Method.invoked (method : Method) : Expression :=
  .call (.thisProperty method.name) []

namespace Resolution

/-- The plans whose accessors are called: those of the resolvers and the children of the stored
ones. -/
def called (resolution : Resolution) : List Plan :=
  resolution.resolvers.map ResolvedResolver.plan ++ resolution.plans.flatMap Plan.children

end Resolution

namespace Graph

variable {graph : Graph} {id : ComponentId} {resolution : Resolution} {plan : Plan}

/-- The accessor that the implementation has for the key of a plan. -/
def emitted (graph : Graph) (resolution : Resolution) (plan : Plan) : Method :=
  graph.accessorIn resolution ((firstAt resolution.plans plan.key).getD plan)

theorem emitted_of_firstAt {stored : Plan}
    (h : firstAt resolution.plans plan.key = some stored) :
    graph.emitted resolution plan = graph.accessorIn resolution stored := by
  rw [emitted, h, Option.getD_some]

theorem accessorBody_inj {values more : List Expression} :
    graph.accessorBody plan values = graph.accessorBody plan more ↔ values = more := by
  cases plan <;> simp [accessorBody]

theorem nameIn_of_provide {owner : ModuleId} {provider : ProviderId}
    (h : plan.key = .provide owner provider) : graph.nameIn resolution plan =
      graph.moduleField owner ++ "_" ++ (graph.getProvider provider).name := by
  cases plan with
  | provide type owner provider arguments async =>
      obtain ⟨rfl, rfl⟩ := PlanKey.provide.inj h
      rfl
  | collect number type owner elements async => exact PlanKey.noConfusion h

theorem name_emitted (h : graph.resolution id = .ok resolution) (hplan : plan ∈ resolution.walk) :
    (graph.emitted resolution plan).name = graph.nameIn resolution plan := by
  have hshared := shared_of_resolution h
  obtain ⟨stored, hstored⟩ := hshared.exists_stored hplan
  rw [emitted_of_firstAt hstored]
  cases hkey : plan.key with
  | provide owner provider =>
      have hsame : stored.key = .provide owner provider := (firstAt_eq_some hstored).2.trans hkey
      exact (nameIn_of_provide hsame).trans (nameIn_of_provide hkey).symm
  | collect number => rw [hshared.eq_of_collect hplan hkey hstored, accessorIn]

theorem mem_walk_of_mem_plans (h : graph.resolution id = .ok resolution)
    (hplan : plan ∈ resolution.plans) : plan ∈ resolution.walk :=
  have hshared := shared_of_resolution h
  (hshared.of_firstAt (hshared.firstAt_of_mem hplan)).1

theorem mem_walk_of_mem_called (h : graph.resolution id = .ok resolution)
    (hplan : plan ∈ resolution.called) : plan ∈ resolution.walk := by
  rcases List.mem_append.mp hplan with hresolver | hchild
  · obtain ⟨item, hitem, rfl⟩ := List.mem_map.mp hresolver
    exact List.mem_flatMap.mpr ⟨item, hitem, item.plan.self_mem_walk⟩
  · obtain ⟨stored, hstored, hplan⟩ := List.mem_flatMap.mp hchild
    have hnode := mem_walk_of_mem_plans h hstored
    exact (shared_of_resolution h).children stored hnode plan hplan

theorem mem_called_of_mem_resolvers {item : ResolvedResolver}
    (hitem : item ∈ resolution.resolvers) : item.plan ∈ resolution.called :=
  List.mem_append_left _ (List.mem_map_of_mem hitem)

theorem mem_called_of_mem_children {child : Plan} (hplan : plan ∈ resolution.plans)
    (hchild : child ∈ plan.children) : child ∈ resolution.called :=
  List.mem_append_right _ (List.mem_flatMap.mpr ⟨plan, hplan, hchild⟩)

theorem emitted_of_mem (h : graph.resolution id = .ok resolution)
    (hplan : plan ∈ resolution.plans) :
    graph.emitted resolution plan = graph.accessorIn resolution plan :=
  emitted_of_firstAt ((shared_of_resolution h).firstAt_of_mem hplan)

theorem body_emitted (h : graph.resolution id = .ok resolution)
    (hplan : plan ∈ resolution.plans) :
    (graph.emitted resolution plan).body = graph.accessorBody plan (plan.children.map fun child ↦
      (graph.emitted resolution child).invoked.awaitIf child.isAsync) := by
  rw [emitted_of_mem h hplan, accessorIn]
  refine accessorBody_inj.mpr (List.map_congr_left fun child hchild ↦ ?_)
  have hcalled := mem_walk_of_mem_called h (mem_called_of_mem_children hplan hchild)
  rw [Method.invoked, name_emitted h hcalled]

end Graph

end Wiring
