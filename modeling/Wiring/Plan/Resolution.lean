import Wiring.Error
import Wiring.Graph.Outline
import Wiring.Plan.Search

/-!
# Resolutions of components

A component is resolved when each of its resolvers has exactly one plan, and one that matches the
asynchrony of its type.  The resolution gathers the plans that need an accessor, one for each
key, and the modules that need an instance.
-/

namespace Wiring

structure ResolvedResolver where
  name : String
  plan : Plan

structure Resolution where
  component : ComponentId
  resolvers : List ResolvedResolver
  /-- Modules that own a plan, in the order in which they are first met. -/
  modules : List ModuleId
  /-- The first plan met of every key, in that order. -/
  plans : List Plan

/-- What the plans of a component need, as far as they have been walked. -/
structure Needs where
  modules : List ModuleId
  plans : List Plan

namespace Needs

def visit (needs : Needs) (plan : Plan) : Needs where
  modules :=
    if needs.modules.contains plan.owner then needs.modules else needs.modules ++ [plan.owner]
  plans :=
    if needs.plans.any (·.key == plan.key) then needs.plans else needs.plans ++ [plan]

def visitAll (needs : Needs) (plan : Plan) : Needs :=
  plan.walk.foldl visit needs

def ofResolvers (resolvers : List ResolvedResolver) : Needs :=
  resolvers.foldl (fun needs resolver ↦ needs.visitAll resolver.plan) ⟨[], []⟩

end Needs

namespace Graph

def onlyPlan (graph : Graph) (component : Component) (resolver : Resolver) :
    List Plan → Except Error Plan
  | [] => .error (.unresolved component.name resolver.name (graph.types.display resolver.returns))
  | [plan] =>
    if plan.isAsync && !graph.types.isPromise resolver.returns then
      .error (.asynchronous component.name resolver.name (graph.types.display resolver.returns))
    else .ok plan
  | plans =>
    .error (.ambiguous component.name resolver.name (graph.types.display resolver.returns)
      plans.length)

/-- Resolves resolvers one after the other in one search. -/
def resolveAll (graph : Graph) (component : Component) :
    List Resolver → Search → Except Error (List ResolvedResolver)
  | [], _ => .ok []
  | resolver :: resolvers, state => do
    let (found, state) := graph.candidates component.root resolver.returns state
    let plan ← graph.onlyPlan component resolver found
    let rest ← graph.resolveAll component resolvers state
    return ⟨resolver.name, plan⟩ :: rest

/-- The resolution of a component, or the error of its first resolver that has none. -/
def resolution (graph : Graph) (id : ComponentId) : Except Error Resolution := do
  let component := graph.getComponent id
  let resolvers ← graph.resolveAll component component.resolvers .start
  let needs := Needs.ofResolvers resolvers
  return ⟨id, resolvers, needs.modules, needs.plans⟩

end Graph

end Wiring
