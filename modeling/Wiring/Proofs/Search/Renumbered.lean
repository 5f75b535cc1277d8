import Wiring.Plan.Search
import Wiring.Proofs.Types.Renumbered

/-!
# Searches in graphs with the same declarations

Two graphs that declare the same things in different orders differ in their numbers only.  A search
takes the same course in both: it finds the same plans in the same order, under other numbers, and
numbers the sets alike.
-/

namespace Wiring

/-- New numbers for the types, modules and providers of a graph. -/
structure Renumbering where
  types : Equiv.Perm TypeId
  modules : Equiv.Perm ModuleId
  providers : Equiv.Perm ProviderId

def Provider.rename (r : Renumbering) (provider : Provider) : Provider where
  name := provider.name
  owner := r.modules provider.owner
  parameters := provider.parameters.map r.types
  returns := r.types provider.returns
  deferred := provider.deferred

def ModuleDecl.rename (r : Renumbering) (decl : ModuleDecl) : ModuleDecl where
  name := decl.name
  source := decl.source
  providers := decl.providers.map r.providers
  includes := decl.includes.map r.modules
  requires := ascending (decl.requires.map r.types)

def Resolver.rename (r : Renumbering) (resolver : Resolver) : Resolver :=
  ⟨resolver.name, r.types resolver.returns⟩

def Component.rename (r : Renumbering) (component : Component) : Component where
  name := component.name
  source := component.source
  root := r.modules component.root
  resolvers := component.resolvers.map (Resolver.rename r)

namespace Graph

/-- The second graph declares what the first one does, under other numbers. -/
structure Renumbered (r : Renumbering) (graph other : Graph) : Prop where
  types : graph.types.Renumbered r.types other.types
  size : other.modules.length = graph.modules.length
  getModule : ∀ id, other.getModule (r.modules id) = (graph.getModule id).rename r
  getProvider : ∀ owner, ∀ id ∈ (graph.getModule owner).providers,
    other.getProvider (r.providers id) = (graph.getProvider id).rename r
  providerName : ∀ id, (other.getProvider (r.providers id)).name = (graph.getProvider id).name
  components : other.components = graph.components.map (Component.rename r)

variable {r : Renumbering} {graph other : Graph}

theorem Renumbered.serves (h : Renumbered r graph other) (returns requested : TypeId) :
    other.serves (r.types returns) (r.types requested) = graph.serves returns requested := by
  rw [Graph.serves, Graph.serves, h.types.awaited, h.types.awaited, h.types.isEquivalent,
    h.types.isEquivalent, h.types.isEquivalent]

theorem Renumbered.requires (h : Renumbered r graph other) (owner : ModuleId) (type : TypeId) :
    (other.getModule (r.modules owner)).requires.contains (r.types type) =
      (graph.getModule owner).requires.contains type := by
  rw [h.getModule, Bool.eq_iff_iff]
  simp [ModuleDecl.rename]

theorem Renumbered.searchDepth (h : Renumbered r graph other) :
    other.searchDepth = graph.searchDepth := by
  rw [Graph.searchDepth, Graph.searchDepth, h.size, h.types.size]

end Graph

variable {r : Renumbering}

/-! ## Renumbered plans and searches -/

mutual

def Plan.rename (r : Renumbering) : Plan → Plan
  | .provide type owner provider arguments async =>
    .provide (r.types type) (r.modules owner) (r.providers provider)
      (Plan.renameAll r arguments) async
  | .collect id type owner elements async =>
    .collect id (r.types type) (r.modules owner) (Plan.renameAll r elements) async

def Plan.renameAll (r : Renumbering) : List Plan → List Plan
  | [] => []
  | plan :: plans => Plan.rename r plan :: Plan.renameAll r plans

end

theorem Plan.renameAll_eq_map (r : Renumbering) (plans : List Plan) :
    Plan.renameAll r plans = plans.map (Plan.rename r) := by
  induction plans with
  | nil => rfl
  | cons plan plans ih => rw [Plan.renameAll, ih, List.map_cons]

@[simp] theorem Plan.isAsync_rename (r : Renumbering) (plan : Plan) :
    (plan.rename r).isAsync = plan.isAsync := by
  cases plan <;> rfl

theorem any_isAsync_rename (r : Renumbering) (plans : List Plan) :
    (plans.map (Plan.rename r)).any Plan.isAsync = plans.any Plan.isAsync := by
  rw [List.any_map]
  exact congrArg plans.any (funext (Plan.isAsync_rename r))

/-- A request in other numbers. -/
def Renumbering.request (r : Renumbering) (request : ModuleId × TypeId) : ModuleId × TypeId :=
  (r.modules request.1, r.types request.2)

theorem Renumbering.request_injective (r : Renumbering) : Function.Injective r.request := by
  rintro ⟨owner, type⟩ ⟨owner', type'⟩ h
  obtain ⟨howner, htype⟩ := Prod.mk.inj h
  exact Prod.ext (r.modules.injective howner) (r.types.injective htype)

def Search.rename (r : Renumbering) (state : Search) : Search where
  stack := state.stack.map r.modules
  guarded := state.guarded.map r.request
  nextSet := state.nextSet

/-- Run in other numbers, the second probe does what the first one does. -/
def Probe.Renumbered (r : Renumbering) (probe other : Probe) : Prop :=
  ∀ state, other (state.rename r) =
    ((probe state).1.map (Plan.rename r), (probe state).2.rename r)

def Lookup.Renumbered (r : Renumbering) (lookup other : Lookup) : Prop :=
  ∀ demand type, Probe.Renumbered r (lookup demand type) (other demand (r.types type))

theorem Demand.isMet_map (demand : Demand) (r : Renumbering) (plans : List Plan) :
    demand.isMet (plans.map (Plan.rename r)) = demand.isMet plans := by
  cases demand with
  | every => rfl
  | first => rw [Demand.isMet, Demand.isMet, List.isEmpty_map]

theorem renumbered_inOrder (demand : Demand) {probes others : List Probe}
    (h : List.Forall₂ (Probe.Renumbered r) probes others) :
    Probe.Renumbered r (inOrder demand probes) (inOrder demand others) := by
  induction h with
  | nil => exact fun _ ↦ rfl
  | cons hprobe _ ih =>
      intro state
      rw [inOrder, inOrder, hprobe state]
      dsimp only
      rw [Demand.isMet_map]
      split_ifs
      · rfl
      · rw [ih, List.map_append]

namespace Graph

variable {graph other : Graph} {lookup otherLookup : Lookup}

theorem renumbered_chooseArguments (h : Lookup.Renumbered r lookup otherLookup)
    (types : List TypeId) (state : Search) :
    chooseArguments otherLookup (types.map r.types) (state.rename r) =
      ((chooseArguments lookup types state).1.map (List.map (Plan.rename r)),
        (chooseArguments lookup types state).2.rename r) := by
  induction types generalizing state with
  | nil => rfl
  | cons type types ih =>
      rw [List.map_cons, chooseArguments, chooseArguments, h .first type state]
      dsimp only
      rw [List.head?_map]
      cases (lookup .first type state).1.head? with
      | none => rfl
      | some plan =>
          dsimp only [Option.map_some]
          rw [ih, Option.map_map, Option.map_map]
          rfl

theorem renumbered_providerProbe (hgraph : graph.Renumbered r other)
    (h : Lookup.Renumbered r lookup otherLookup) (type : TypeId) {owner : ModuleId}
    {id : ProviderId} (hid : id ∈ (graph.getModule owner).providers) :
    Probe.Renumbered r (graph.providerProbe lookup type owner id)
      (other.providerProbe otherLookup (r.types type) (r.modules owner) (r.providers id)) := by
  intro state
  rw [providerProbe, providerProbe, hgraph.getProvider owner id hid]
  simp only [Provider.rename, hgraph.serves]
  split_ifs
  · rw [renumbered_chooseArguments h]
    cases (chooseArguments lookup (graph.getProvider id).parameters state).1 with
    | none => rfl
    | some plans =>
        dsimp only [Option.map_some]
        rw [any_isAsync_rename, List.map_singleton, Plan.rename, Plan.renameAll_eq_map]
  · rfl

theorem renumbered_setProbe (hgraph : graph.Renumbered r other)
    (h : Lookup.Renumbered r lookup otherLookup) (type : TypeId) (owner : ModuleId) :
    Probe.Renumbered r (graph.setProbe lookup type owner)
      (other.setProbe otherLookup (r.types type) (r.modules owner)) := by
  intro state
  rw [setProbe, setProbe, hgraph.types.setElement?]
  cases graph.types.setElement? type with
  | none => rfl
  | some element =>
      dsimp only [Option.map_some]
      have hcollect := h .every element { state with nextSet := state.nextSet + 1 }
      rw [Search.rename] at hcollect ⊢
      rw [hcollect]
      dsimp only
      rw [any_isAsync_rename, List.map_singleton, Plan.rename, Plan.renameAll_eq_map]

theorem renumbered_includeProbe (h : Lookup.Renumbered r lookup otherLookup) (demand : Demand)
    (type : TypeId) (included : ModuleId) :
    Probe.Renumbered r (includeProbe lookup demand type included)
      (includeProbe otherLookup demand (r.types type) (r.modules included)) := by
  intro state
  have hinside : otherLookup demand (r.types type)
      { state.rename r with stack := r.modules included :: (state.rename r).stack } = _ :=
    h demand type { state with stack := included :: state.stack }
  rw [includeProbe, includeProbe, hinside]
  simp only [Search.rename, List.map_tail]

theorem renumbered_enclosingProbe (hgraph : graph.Renumbered r other)
    (h : Lookup.Renumbered r lookup otherLookup) (demand : Demand) (type : TypeId)
    (owner : ModuleId) :
    Probe.Renumbered r (graph.enclosingProbe lookup demand type owner)
      (other.enclosingProbe otherLookup demand (r.types type) (r.modules owner)) := by
  intro state
  simp only [enclosingProbe, hgraph.requires]
  split_ifs
  · cases hstack : state.stack with
    | nil => simp [Search.rename, hstack]
    | cons current enclosing =>
        have houtside := h demand type { state with stack := enclosing }
        rw [Search.rename] at houtside
        simp only [Search.rename, hstack, List.map_cons]
        rw [houtside]
        rfl
  · rfl

theorem renumbered_rules (hgraph : graph.Renumbered r other)
    (h : Lookup.Renumbered r lookup otherLookup) (demand : Demand) (type : TypeId)
    (owner : ModuleId) :
    List.Forall₂ (Probe.Renumbered r) (graph.rules lookup demand type owner)
      (other.rules otherLookup demand (r.types type) (r.modules owner)) := by
  rw [rules, rules, hgraph.getModule]
  refine List.rel_append (List.rel_append (List.rel_append ?_ ?_) ?_) ?_
  · rw [ModuleDecl.rename, List.map_map]
    exact forall₂_map_of_forall fun id hid ↦ renumbered_providerProbe hgraph h type hid
  · exact .cons (renumbered_setProbe hgraph h type owner) .nil
  · rw [ModuleDecl.rename, List.map_map]
    exact forall₂_map_of_forall fun included _ ↦ renumbered_includeProbe h demand type included
  · exact .cons (renumbered_enclosingProbe hgraph h demand type owner) .nil

theorem renumbered_lookupStep (hgraph : graph.Renumbered r other)
    (h : Lookup.Renumbered r lookup otherLookup) :
    Lookup.Renumbered r (graph.lookupStep lookup) (other.lookupStep otherLookup) := by
  intro demand type state
  obtain ⟨stack, guarded, nextSet⟩ := state
  cases stack with
  | nil => rfl
  | cons owner enclosing =>
      have hguard : (guarded.map r.request).contains (r.modules owner, r.types type) =
          guarded.contains (owner, type) := by
        rw [Bool.eq_iff_iff, List.contains_iff_mem, List.contains_iff_mem]
        exact List.mem_map_of_injective r.request_injective (a := (owner, type))
      have hinside :
          inOrder demand (other.rules otherLookup demand (r.types type) (r.modules owner))
          ⟨r.modules owner :: enclosing.map r.modules,
            (r.modules owner, r.types type) :: guarded.map r.request, nextSet⟩ = _ :=
        renumbered_inOrder demand (renumbered_rules hgraph h demand type owner)
          ⟨owner :: enclosing, (owner, type) :: guarded, nextSet⟩
      simp only [lookupStep, Search.rename, List.map_cons, hguard, hinside]
      split_ifs
      · rfl
      · simp only [List.map_erase r.request_injective, Renumbering.request]

theorem renumbered_lookupWithin (hgraph : graph.Renumbered r other) (depth : ℕ) :
    Lookup.Renumbered r (graph.lookupWithin depth) (other.lookupWithin depth) := by
  induction depth with
  | zero => exact fun _ _ _ ↦ rfl
  | succ depth ih => exact renumbered_lookupStep hgraph ih

theorem Renumbered.candidates (hgraph : graph.Renumbered r other) (root : ModuleId)
    (type : TypeId) :
    Probe.Renumbered r (graph.candidates root type)
      (other.candidates (r.modules root) (r.types type)) := by
  intro state
  have hfound : other.lookupWithin graph.searchDepth .every (r.types type)
      { state.rename r with stack := [r.modules root] } = _ :=
    renumbered_lookupWithin hgraph graph.searchDepth .every type { state with stack := [root] }
  rw [Graph.candidates, Graph.candidates, lookup, lookup, hgraph.searchDepth, hfound]
  rfl

end Graph

end Wiring
