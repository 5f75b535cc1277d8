import Wiring.Proofs.Graph.Elsewhere
import Wiring.Proofs.Lists
import Wiring.Proofs.Resolution.Unresolved

/-!
# Resolutions beside declarations elsewhere

A search for a component stays inside the modules that the component reaches, and asks for types
that the graph held before.  So it takes the same course after declarations elsewhere, although the
graph has more modules, providers and types then, and the search more depth.

What a component does not reach cannot change its resolution.  Neither more declarations elsewhere
nor more types make it succeed or fail, and it comes to the same plans or to the same error.
-/

namespace Wiring

variable {graph later : Graph} {id : ComponentId} {guarded : List (ModuleId × TypeId)}
  {lookup other : Lookup} {type : TypeId} {owner : ModuleId}

/-- The search is inside modules that the component reaches, with these requests under way. -/
structure Search.Within (graph : Graph) (id : ComponentId) (guarded : List (ModuleId × TypeId))
    (state : Search) : Prop where
  stack : ∀ owner ∈ state.stack, graph.Reaches id owner
  guarded : state.guarded = guarded

theorem Search.Within.of_sameContext {state after : Search} (h : state.Within graph id guarded)
    (hafter : after.SameContext state) : after.Within graph id guarded :=
  ⟨hafter.1 ▸ h.stack, hafter.2.trans h.guarded⟩

/-- The second probe does what the first one does, inside modules that the component reaches. -/
def Probe.SameWithin (graph : Graph) (id : ComponentId) (guarded : List (ModuleId × TypeId))
    (probe other : Probe) : Prop :=
  ∀ state : Search, state.Within graph id guarded → other state = probe state

/-- The same for every type that the graph holds. -/
def Lookup.SameWithin (graph : Graph) (id : ComponentId) (guarded : List (ModuleId × TypeId))
    (lookup other : Lookup) : Prop :=
  ∀ demand, ∀ type < graph.types.size,
    Probe.SameWithin graph id guarded (lookup demand type) (other demand type)

theorem sameWithin_inOrder (demand : Demand) {probes others : List Probe}
    (horderly : ∀ probe ∈ probes, Orderly probe)
    (h : List.Forall₂ (Probe.SameWithin graph id guarded) probes others) :
    Probe.SameWithin graph id guarded (inOrder demand probes) (inOrder demand others) := by
  induction h with
  | nil => exact fun _ _ ↦ rfl
  | @cons probe _ _ _ hprobe _ ih =>
      intro state hstate
      have hafter := hstate.of_sameContext (horderly probe List.mem_cons_self state).context
      have hrest := ih (fun more hmore ↦ horderly more (List.mem_cons_of_mem _ hmore)) _ hafter
      rw [inOrder_cons, inOrder_cons, hprobe state hstate, hrest]

namespace Graph

theorem SameReach.serves (h : graph.SameReach later id) (hgraph : graph.Closed)
    {returns requested : TypeId} (hreturns : returns < graph.types.size)
    (hrequested : requested < graph.types.size) :
    later.serves returns requested = graph.serves returns requested := by
  have hparts := hgraph.types.partsDescend
  rw [Graph.serves, Graph.serves, h.types.grows.awaited_eq hreturns,
    h.types.grows.awaited_eq hrequested, h.types.isEquivalent_eq hgraph.types hreturns hrequested,
    h.types.isEquivalent_eq hgraph.types hreturns (hparts.awaited_lt hrequested),
    h.types.isEquivalent_eq hgraph.types (hparts.awaited_lt hreturns) hrequested]

theorem chooseArguments_sameWithin (horderly : ∀ demand type, Orderly (lookup demand type))
    (h : Lookup.SameWithin graph id guarded lookup other) {types : List TypeId}
    (htypes : ∀ type ∈ types, type < graph.types.size) {state : Search}
    (hstate : state.Within graph id guarded) :
    chooseArguments other types state = chooseArguments lookup types state := by
  induction types generalizing state with
  | nil => rfl
  | cons type types ih =>
      have hafter := hstate.of_sameContext (horderly .first type state).context
      have hrest := ih (fun more hmore ↦ htypes more (List.mem_cons_of_mem _ hmore)) hafter
      rw [chooseArguments_cons, chooseArguments_cons,
        h .first type (htypes type List.mem_cons_self) state hstate, hrest]

section Rules

variable (hsame : graph.SameReach later id) (hgraph : graph.Built)
  (h : Lookup.SameWithin graph id guarded lookup other)

include hsame hgraph h

theorem sameWithin_providerProbe (horderly : ∀ demand type, Orderly (lookup demand type))
    (htype : type < graph.types.size) (owner : ModuleId) {provider : ProviderId}
    (hprovider : provider < graph.providers.length) :
    Probe.SameWithin graph id guarded (graph.providerProbe lookup type owner provider)
      (later.providerProbe other type owner provider) := by
  intro state hstate
  have hreturns : (graph.getProvider provider).returns < graph.types.size := by
    rw [Graph.getProvider, List.getD_eq_getElem _ _ hprovider]
    exact hgraph.returns_lt _ (List.getElem_mem hprovider)
  rw [providerProbe, providerProbe, hsame.getProvider hprovider,
    hsame.serves hgraph.closed hreturns htype,
    chooseArguments_sameWithin horderly h (hgraph.closed.parameters_lt provider) hstate]

theorem sameWithin_setProbe (htype : type < graph.types.size) (owner : ModuleId) :
    Probe.SameWithin graph id guarded (graph.setProbe lookup type owner)
      (later.setProbe other type owner) := by
  intro state hstate
  have hset : later.types.setElement? type = graph.types.setElement? type :=
    hsame.types.grows.argumentOf?_eq htype TypeTable.setName
  rw [setProbe, setProbe, hset]
  cases helement : graph.types.setElement? type with
  | none => rfl
  | some element =>
      have hlt : element < graph.types.size :=
        hgraph.closed.types.partsDescend.argumentOf?_lt helement
      have hcollect := h .every element hlt { state with nextSet := state.nextSet + 1 }
        ⟨hstate.stack, hstate.guarded⟩
      dsimp only
      rw [hcollect]

omit hsame hgraph in
theorem sameWithin_includeProbe (demand : Demand) (htype : type < graph.types.size)
    {included : ModuleId} (hincluded : graph.Reaches id included) :
    Probe.SameWithin graph id guarded (includeProbe lookup demand type included)
      (includeProbe other demand type included) := by
  intro state hstate
  have hinside := h demand type htype { state with stack := included :: state.stack }
    ⟨List.forall_mem_cons.mpr ⟨hincluded, hstate.stack⟩, hstate.guarded⟩
  rw [includeProbe, includeProbe, hinside]

omit hgraph in
theorem sameWithin_enclosingProbe (demand : Demand) (htype : type < graph.types.size)
    (howner : graph.Reaches id owner) :
    Probe.SameWithin graph id guarded (graph.enclosingProbe lookup demand type owner)
      (later.enclosingProbe other demand type owner) := by
  intro state hstate
  obtain ⟨stack, under, nextSet⟩ := state
  rw [enclosingProbe, enclosingProbe, hsame.getModule owner howner]
  cases stack with
  | nil => rfl
  | cons current enclosing =>
      have houtside := h demand type htype ⟨enclosing, under, nextSet⟩
        ⟨fun outer houter ↦ hstate.stack outer (List.mem_cons_of_mem _ houter), hstate.guarded⟩
      dsimp only
      rw [houtside]

theorem sameWithin_rules (horderly : ∀ demand type, Orderly (lookup demand type))
    (demand : Demand) (htype : type < graph.types.size) (howner : graph.Reaches id owner) :
    List.Forall₂ (Probe.SameWithin graph id guarded) (graph.rules lookup demand type owner)
      (later.rules other demand type owner) := by
  rw [rules, rules, hsame.getModule owner howner]
  refine List.rel_append (List.rel_append (List.rel_append ?_ ?_) ?_) ?_
  · refine forall₂_map_of_forall fun provider hprovider ↦ ?_
    exact sameWithin_providerProbe hsame hgraph h horderly htype owner
      (hgraph.unrepeated.declared_lt owner provider hprovider)
  · exact .cons (sameWithin_setProbe hsame hgraph h htype owner) .nil
  · exact forall₂_map_of_forall fun included visible ↦
      sameWithin_includeProbe h demand htype (howner.tail visible)
  · exact .cons (sameWithin_enclosingProbe hsame h demand htype howner) .nil

end Rules

theorem lookupStep_sameWithin (hsame : graph.SameReach later id) (hgraph : graph.Built)
    (horderly : ∀ demand type, Orderly (lookup demand type)) {state : Search}
    (hstack : ∀ owner ∈ state.stack, graph.Reaches id owner) (htype : type < graph.types.size)
    (h : ∀ owner enclosing, state.stack = owner :: enclosing → (owner, type) ∉ state.guarded →
      Lookup.SameWithin graph id ((owner, type) :: state.guarded) lookup other) (demand : Demand) :
    later.lookupStep other demand type state = graph.lookupStep lookup demand type state := by
  obtain ⟨stack, under, nextSet⟩ := state
  cases stack with
  | nil => rfl
  | cons owner enclosing =>
      by_cases hguarded : (owner, type) ∈ under
      · simp [lookupStep, hguarded]
      · have hrules := sameWithin_rules hsame hgraph (h owner enclosing rfl hguarded) horderly
          demand htype (hstack owner List.mem_cons_self)
        have hinside := sameWithin_inOrder demand (orderly_rules horderly demand type owner) hrules
          (guarding ⟨owner :: enclosing, under, nextSet⟩ owner type) ⟨hstack, rfl⟩
        rw [lookupStep_of_fresh rfl hguarded, lookupStep_of_fresh rfl hguarded, hinside]

/-- The two searches have different depths left, and both have enough. -/
theorem lookupWithin_sameReach (hsame : graph.SameReach later id) (hgraph : graph.Built)
    (hid : id < graph.components.length) {depth further : ℕ} {state : Search}
    (hready : graph.Ready depth state) (hlater : later.Ready further state)
    (hstack : ∀ owner ∈ state.stack, graph.Reaches id owner) (htype : type < graph.types.size)
    (demand : Demand) : later.lookupWithin further demand type state =
      graph.lookupWithin depth demand type state := by
  induction depth generalizing further state type demand with
  | zero =>
      obtain ⟨_, hdepth⟩ := hready.exists_depth
      exact (Nat.succ_ne_zero _ hdepth.symm).elim
  | succ depth ih =>
      obtain ⟨further, rfl⟩ := hlater.exists_depth
      refine lookupStep_sameWithin hsame hgraph (orderly_lookupWithin depth) hstack htype ?_ demand
      intro owner enclosing howner hfresh demand' type' htype' inner hinner
      have hinside : ∀ id ∈ inner.stack, id < graph.modules.length :=
        fun other hother ↦ (hinner.stack other hother).lt_length hgraph.closed hid
      refine ih ?_ ?_ hinner.stack htype' demand'
      · exact (hready.guarding howner htype hfresh).of_guarded_eq hinner.guarded hinside
      · exact (hlater.guarding howner (htype.trans_le hsame.types.grows.size_le)
          hfresh).of_guarded_eq hinner.guarded fun other hother ↦
            (hinside other hother).trans_le hsame.modules

/-- An engine finds the same plans for the component. -/
theorem SameReach.candidates (hsame : graph.SameReach later id) (hgraph : graph.Built)
    (hid : id < graph.components.length) {state : Search} (hstate : state.guarded = [])
    (htype : type < graph.types.size) :
    later.candidates (graph.getComponent id).root type state =
      graph.candidates (graph.getComponent id).root type state := by
  have hreached : graph.Reaches id (graph.getComponent id).root := .refl
  have hroot := hreached.lt_length hgraph.closed hid
  have hlookup : later.lookup .every type
      { state with stack := [(graph.getComponent id).root] } = _ :=
    lookupWithin_sameReach hsame hgraph hid (ready_root hstate hroot)
      (ready_root hstate (hroot.trans_le hsame.modules))
      (List.forall_mem_singleton.mpr hreached) htype .every
  rw [Graph.candidates, Graph.candidates, hlookup, lookup]

theorem onlyPlan_of_develops {component : Component} {resolver : Resolver}
    (hgraph : graph.types.Built) (h : graph.types.Develops later.types)
    (hreturns : resolver.returns < graph.types.size) (plans : List Plan) :
    later.onlyPlan component resolver plans = graph.onlyPlan component resolver plans := by
  have hdisplay := h.grows.display_eq hgraph.partsDescend hreturns
  match plans with
  | [] => rw [onlyPlan, onlyPlan, hdisplay]
  | [plan] => rw [onlyPlan, onlyPlan, hdisplay, h.grows.isPromise_eq hreturns]
  | _ :: _ :: _ => rw [onlyPlan, onlyPlan, hdisplay] <;> simp

theorem resolveAll_sameReach (hsame : graph.SameReach later id) (hgraph : graph.Built)
    (hid : id < graph.components.length) {resolvers : List Resolver}
    (hresolvers : ∀ resolver ∈ resolvers, resolver.returns < graph.types.size) {state : Search}
    (hstate : state.guarded = []) :
    later.resolveAll (graph.getComponent id) resolvers state =
      graph.resolveAll (graph.getComponent id) resolvers state := by
  induction resolvers generalizing state with
  | nil => rfl
  | cons resolver resolvers ih =>
      have hreturns := hresolvers resolver List.mem_cons_self
      have hafter := (graph.tidy_candidates (graph.getComponent id).root resolver.returns
        state).context.2.trans hstate
      have hrest := ih (fun other hother ↦ hresolvers other (List.mem_cons_of_mem _ hother)) hafter
      rw [resolveAll_cons, resolveAll_cons, hsame.candidates hgraph hid hstate hreturns,
        onlyPlan_of_develops hgraph.closed.types hsame.types hreturns, hrest]

/-- Declarations that a component does not reach have no influence on it: its resolution afterwards
is the one before, or fails with the same error.  Nor do they make a further module reachable. -/
theorem resolution_of_extendedElsewhere (hbuilt : graph.Built)
    (hid : id < graph.components.length) (h : graph.ExtendedElsewhere id later) :
    later.resolution id = graph.resolution id ∧
      later.Built ∧ ∀ owner, later.Reaches id owner ↔ graph.Reaches id owner := by
  have hsame := h.sameReach hbuilt hid
  have hresolvers : ∀ resolver ∈ (graph.getComponent id).resolvers,
      resolver.returns < graph.types.size :=
    fun _ hresolver ↦ (hbuilt.closed.getComponent hresolver).2
  refine ⟨?_, hsame.built, fun owner ↦ hsame.reaches_iff⟩
  rw [resolution, resolution, hsame.getComponent,
    resolveAll_sameReach hsame hbuilt hid hresolvers rfl]

/-- `circular` with another module, which includes the root and offers all that its components ask
for, and with another component. -/
def crowded : Graph where
  types := (circular.types.intern (.generic "Set" [2])).2
  modules := circular.modules ++ [⟨"Extra", ⟨"extra.ts"⟩, [3], [0], [1]⟩]
  providers := circular.providers ++ [⟨"invent", 2, [3], 2, false⟩]
  components := circular.components ++ [⟨"Other", ⟨"other.ts"⟩, 2, [⟨"all", 3⟩]⟩]

/-- The missing type has a provider now, but none that the component reaches. -/
theorem crowded_resolution : circular.Built ∧ 1 < circular.components.length ∧
    circular.ExtendedElsewhere 1 crowded ∧ crowded.resolution 1 = circular.resolution 1 ∧
      ¬ crowded.Reaches 1 2 := by
  have hunreached : ¬ circular.Reaches 1 2 := fun hreached ↦
    absurd (hreached.lt_length circular_built.closed (by decide)) (by decide)
  have htypes : circular.ExtendedElsewhere 1 _ :=
    .intern .unchanged (.generic "Set" [2]) (by decide)
  have hmodule := htypes.addModule "Extra" ⟨"extra.ts"⟩ rfl
  have hprovider := hmodule.addProvider 2 "invent" [3] 2 false hunreached (by decide) (by decide)
    (by decide)
  have hrequired := (hprovider.addInclude 2 0 hunreached (by decide) (by decide)).addRequired 2 1
    hunreached (by decide) (by decide)
  have hcomponent := hrequired.addComponent "Other" ⟨"other.ts"⟩ 2 (by decide) rfl
  have hcrowded : circular.ExtendedElsewhere 1 crowded :=
    hcomponent.addResolver 2 "all" 3 (by decide) (by decide) (by decide)
  obtain ⟨hsame, -, hreaches⟩ :=
    resolution_of_extendedElsewhere circular_built (by decide) hcrowded
  exact ⟨circular_built, by decide, hcrowded, hsame, fun h ↦ hunreached ((hreaches 2).mp h)⟩

end Graph

end Wiring
