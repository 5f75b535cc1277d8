import Wiring.Code.Basic
import Wiring.Plan.Resolution

/-!
# Implementation classes

The class that implements a component: one override for each resolver, one field for each module
instance, a constructor that creates the instances, and one hidden accessor for each plan.

Accessors of providers are named after module and provider.  Accessors of sets are numbered in
the order in which their names are first asked for, whatever identities the search gave them.
-/

namespace Wiring

/-- The sets that have a number, in the order of their numbers. -/
abbrev Numbering := List SetId

namespace Numbering

/-- The number of a set, the next free one when it has none yet. -/
def number (numbering : Numbering) (id : SetId) : Nat × Numbering :=
  match numbering.idxOf? id with
  | some index => (index, numbering)
  | none => (numbering.length, numbering ++ [id])

end Numbering

namespace Graph

def moduleField (graph : Graph) (id : ModuleId) : String :=
  "_" ++ (graph.getModule id).name

def accessorName (graph : Graph) (plan : Plan) (numbering : Numbering) : String × Numbering :=
  match plan with
  | .provide _ owner provider _ _ =>
    (graph.moduleField owner ++ "_" ++ (graph.getProvider provider).name, numbering)
  | .collect id _ owner _ _ =>
    let (number, numbering) := numbering.number id
    (graph.moduleField owner ++ "_synthetic_" ++ toString number, numbering)

open Code

def accessorCall (graph : Graph) (plan : Plan) (numbering : Numbering) : Expression × Numbering :=
  let (name, numbering) := graph.accessorName plan numbering
  (.call (.thisProperty name) [], numbering)

/-- The value of a plan inside another accessor: a call, awaited when the plan is asynchronous. -/
def accessorValue (graph : Graph) (plan : Plan) (numbering : Numbering) :
    Expression × Numbering :=
  let (call, numbering) := graph.accessorCall plan numbering
  (call.awaitIf plan.isAsync, numbering)

def accessorValues (graph : Graph) : List Plan → Numbering → List Expression × Numbering
  | [], numbering => ([], numbering)
  | plan :: plans, numbering =>
    let (first, numbering) := graph.accessorValue plan numbering
    let (rest, numbering) := graph.accessorValues plans numbering
    (first :: rest, numbering)

/-- What an accessor returns, given the values of the plans below. -/
def accessorBody (graph : Graph) (plan : Plan) (values : List Expression) : Expression :=
  match plan with
  | .provide _ owner provider _ _ =>
    .call (.property (.thisProperty (graph.moduleField owner)) (graph.getProvider provider).name)
      values
  | .collect .. => .construct TypeTable.setName [.array values]

def accessor (graph : Graph) (plan : Plan) (numbering : Numbering) : Method × Numbering :=
  let (name, numbering) := graph.accessorName plan numbering
  let (values, numbering) := graph.accessorValues plan.children numbering
  (⟨name, .hidden, plan.isAsync, graph.accessorBody plan values⟩, numbering)

def accessors (graph : Graph) : List Plan → Numbering → List Method × Numbering
  | [], numbering => ([], numbering)
  | plan :: plans, numbering =>
    let (first, numbering) := graph.accessor plan numbering
    let (rest, numbering) := graph.accessors plans numbering
    (first :: rest, numbering)

def override (graph : Graph) (resolver : ResolvedResolver) (numbering : Numbering) :
    Method × Numbering :=
  let (call, numbering) := graph.accessorCall resolver.plan numbering
  (⟨resolver.name, .exposed, resolver.plan.isAsync, call⟩, numbering)

def overrides (graph : Graph) : List ResolvedResolver → Numbering → List Method × Numbering
  | [], numbering => ([], numbering)
  | resolver :: resolvers, numbering =>
    let (first, numbering) := graph.override resolver numbering
    let (rest, numbering) := graph.overrides resolvers numbering
    (first :: rest, numbering)

def instanceField (graph : Graph) (id : ModuleId) : MemberField :=
  ⟨graph.moduleField id, .hidden⟩

def instanceAssignment (graph : Graph) (id : ModuleId) : Statement :=
  .assign (.thisProperty (graph.moduleField id)) (.construct (graph.getModule id).name [])

def constructorBody (graph : Graph) (modules : List ModuleId) : List Statement :=
  .superCall :: modules.map graph.instanceAssignment

def implementation (graph : Graph) (resolution : Resolution) : Code.Class :=
  let component := graph.getComponent resolution.component
  let (overrides, numbering) := graph.overrides resolution.resolvers []
  let (accessors, _) := graph.accessors resolution.plans numbering
  { name := component.name ++ "Impl"
    base := component.name
    members :=
      overrides.map .method ++ resolution.modules.map (fun id ↦ .field (graph.instanceField id)) ++
        [.constructor (graph.constructorBody resolution.modules)] ++ accessors.map .method }

end Graph

end Wiring
