import Wiring.Graph.Basic
import Wiring.Types.Compare

/-!
# Plans and the search for them

A plan says how one requested type is produced: by calling a provider with arguments that have
plans of their own, or by collecting elements into a set.  Plans of one key share the accessor
that is generated for them.

A request is answered inside a stack of modules, innermost first.  Four rules are tried in order
and their candidates are listed in that order:

* a provider of the innermost module whose product serves the request, each parameter taking the
  first candidate found for it;
* for a set, the one plan that collects every candidate for its element;
* everything found in each included module;
* everything found in the enclosing module, when the innermost one requires the type.

While a request is under way its module and type are guarded, and the same request met again
below it finds nothing.  A search for a first candidate stops as soon as it has one.
-/

namespace Wiring

/-- Sets are told apart by the order in which the search started to collect them. -/
abbrev SetId := Nat

inductive Plan where
  | provide (type : TypeId) (owner : ModuleId) (provider : ProviderId) (arguments : List Plan)
      (async : Bool)
  | collect (id : SetId) (type : TypeId) (owner : ModuleId) (elements : List Plan) (async : Bool)

inductive PlanKey where
  | provide (owner : ModuleId) (provider : ProviderId)
  | collect (id : SetId)
  deriving DecidableEq

namespace Plan

def type : Plan → TypeId
  | provide type .. => type
  | collect _ type .. => type

def owner : Plan → ModuleId
  | provide _ owner .. => owner
  | collect _ _ owner .. => owner

def isAsync : Plan → Bool
  | provide _ _ _ _ async => async
  | collect _ _ _ _ async => async

def children : Plan → List Plan
  | provide _ _ _ arguments _ => arguments
  | collect _ _ _ elements _ => elements

def key : Plan → PlanKey
  | provide _ owner provider .. => .provide owner provider
  | collect id .. => .collect id

mutual

/-- A plan and all plans below it, parents before children. -/
def walk : Plan → List Plan
  | provide type owner provider arguments async =>
    provide type owner provider arguments async :: walkAll arguments
  | collect id type owner elements async => collect id type owner elements async :: walkAll elements

def walkAll : List Plan → List Plan
  | [] => []
  | plan :: plans => walk plan ++ walkAll plans

end

theorem walkAll_eq_flatMap (plans : List Plan) : walkAll plans = plans.flatMap walk := by
  induction plans with
  | nil => rfl
  | cons plan plans ih => simp [walkAll, ih]

theorem walk_eq (plan : Plan) : plan.walk = plan :: plan.children.flatMap walk := by
  cases plan <;> simp [walk, children, walkAll_eq_flatMap]

end Plan

/-- What a search remembers: the modules it is in, the requests under way, and the number of sets
it has started to collect. -/
structure Search where
  stack : List ModuleId
  guarded : List (ModuleId × TypeId)
  nextSet : SetId
  deriving DecidableEq

def Search.start : Search := ⟨[], [], 0⟩

inductive Demand where
  | every
  | first
  deriving DecidableEq

/-- A part of the search: the plans it finds and the state it leaves. -/
abbrev Probe := Search → List Plan × Search

abbrev Lookup := Demand → TypeId → Probe

def Demand.isMet : Demand → List Plan → Bool
  | every, _ => false
  | first, plans => !plans.isEmpty

def inOrder (demand : Demand) : List Probe → Probe
  | [], state => ([], state)
  | probe :: probes, state =>
    let (found, state) := probe state
    if demand.isMet found then (found, state)
    else
      let (more, state) := inOrder demand probes state
      (found ++ more, state)

namespace Graph

/-- Whether a provider of the one type serves a request for the other: either may be a promise
of the other. -/
def serves (graph : Graph) (returns requested : TypeId) : Bool :=
  graph.types.isEquivalent returns requested ||
    graph.types.isEquivalent returns (graph.types.awaited requested) ||
    graph.types.isEquivalent (graph.types.awaited returns) requested

/-- The first candidate for each of the types, none when one of them has no candidate. -/
def chooseArguments (lookup : Lookup) : List TypeId → Search → Option (List Plan) × Search
  | [], state => (some [], state)
  | type :: types, state =>
    let (found, state) := lookup .first type state
    match found.head? with
    | none => (none, state)
    | some plan =>
      let (rest, state) := chooseArguments lookup types state
      (rest.map (plan :: ·), state)

def providerProbe (graph : Graph) (lookup : Lookup) (type : TypeId) (owner : ModuleId)
    (id : ProviderId) : Probe := fun state ↦
  let provider := graph.getProvider id
  if graph.serves provider.returns type then
    let (chosen, state) := chooseArguments lookup provider.parameters state
    match chosen with
    | none => ([], state)
    | some arguments =>
      ([.provide type owner id arguments (provider.deferred || arguments.any Plan.isAsync)], state)
  else ([], state)

def setProbe (graph : Graph) (lookup : Lookup) (type : TypeId) (owner : ModuleId) : Probe :=
  fun state ↦
  match graph.types.setElement? type with
  | none => ([], state)
  | some element =>
    let id := state.nextSet
    let (elements, state) := lookup .every element { state with nextSet := id + 1 }
    ([.collect id type owner elements (elements.any Plan.isAsync)], state)

def includeProbe (lookup : Lookup) (demand : Demand) (type : TypeId) (included : ModuleId) :
    Probe := fun state ↦
  let (found, state) := lookup demand type { state with stack := included :: state.stack }
  (found, { state with stack := state.stack.tail })

def enclosingProbe (graph : Graph) (lookup : Lookup) (demand : Demand) (type : TypeId)
    (owner : ModuleId) : Probe := fun state ↦
  if (graph.getModule owner).requires.contains type then
    match state.stack with
    | [] => ([], state)
    | current :: enclosing =>
      let (found, state) := lookup demand type { state with stack := enclosing }
      (found, { state with stack := current :: state.stack })
  else ([], state)

def rules (graph : Graph) (lookup : Lookup) (demand : Demand) (type : TypeId) (owner : ModuleId) :
    List Probe :=
  (graph.getModule owner).providers.map (graph.providerProbe lookup type owner) ++
    [graph.setProbe lookup type owner] ++
    (graph.getModule owner).includes.map (includeProbe lookup demand type) ++
    [graph.enclosingProbe lookup demand type owner]

def lookupStep (graph : Graph) (lookup : Lookup) : Lookup := fun demand type state ↦
  match state.stack with
  | [] => ([], state)
  | owner :: _ =>
    if state.guarded.contains (owner, type) then ([], state)
    else
      let (found, state) := inOrder demand (graph.rules lookup demand type owner)
        { state with guarded := (owner, type) :: state.guarded }
      (found, { state with guarded := state.guarded.erase (owner, type) })

def lookupWithin (graph : Graph) : Nat → Lookup
  | 0 => fun _ _ state ↦ ([], state)
  | depth + 1 => graph.lookupStep (graph.lookupWithin depth)

/-- No search goes deeper: every request that applies the rules guards another pair of a module
and a type, and one more request finds its pair guarded. -/
def searchDepth (graph : Graph) : Nat :=
  graph.modules.length * graph.types.size + 1

def lookup (graph : Graph) : Lookup :=
  graph.lookupWithin graph.searchDepth

/-- Every candidate for a type inside a root module. -/
def candidates (graph : Graph) (root : ModuleId) (type : TypeId) : Probe := fun state ↦
  let (found, state) := graph.lookup .every type { state with stack := [root] }
  (found, { state with stack := [] })

end Graph

end Wiring
