import Wiring.Proofs.Code.Awaited
import Wiring.Proofs.Graph.Deferred
import Wiring.Proofs.Resolution.Instances

/-!
# Promises

Whether something is a promise depends on the plan and not on the type that asks for it.  A method
is async when its plan calls a provider of a promise, and a value is awaited when its plan does.  So
a resolver of a promise may return the bare value, and a parameter that is declared as a promise is
given the bare value too, as long as the plan that stands there is as asynchronous as its accessor.
-/

namespace Wiring

open Code

/-- A call of an accessor that is awaited or not. -/
structure Code.Use where
  accessor : Method
  awaited : Bool

namespace Code.Use

def expression (use : Use) : Expression :=
  use.accessor.invoked.awaitIf use.awaited

/-- A call of an async method gives a promise, and await takes it away. -/
def IsPromise (use : Use) : Prop :=
  use.accessor.isAsync = true ∧ use.awaited = false

end Code.Use

namespace Graph

variable {graph : Graph} {id : ComponentId} {resolution : Resolution} {plan child : Plan}

/-- What stands for a plan inside the accessor of another one. -/
def use (graph : Graph) (resolution : Resolution) (child : Plan) : Use :=
  ⟨graph.emitted resolution child, child.isAsync⟩

/-- The plan is as asynchronous as the one that is stored under its key. -/
def StoredAlike (resolution : Resolution) (plan : Plan) : Prop :=
  ∀ stored ∈ resolution.plans, stored.key = plan.key → plan.isAsync = stored.isAsync

theorem not_isPromise_use (h : graph.resolution id = .ok resolution)
    (hchild : child ∈ resolution.walk) (halike : StoredAlike resolution child) :
    ¬ (graph.use resolution child).IsPromise := by
  rintro ⟨haccessor, hawaited⟩
  have hsame := (isAsync_eq_emitted_iff h hchild).mpr halike
  have hasync : child.isAsync = false := hawaited
  have hemitted : (graph.emitted resolution child).isAsync = true := haccessor
  rw [hasync, hemitted] at hsame
  exact Bool.noConfusion hsame

/-- Some provider that is called in the plan returns a promise. -/
def CallsPromise (graph : Graph) (plan : Plan) : Prop :=
  ∃ node ∈ plan.walk, ∃ owner provider, node.key = .provide owner provider ∧
    graph.types.isPromise (graph.getProvider provider).returns = true

/-- A provider that is called is one of the graph, so it is deferred if it returns a promise. -/
theorem defers_iff (hbuilt : graph.Built) (h : graph.resolution id = .ok resolution)
    {node : Plan} (hnode : node ∈ resolution.walk) : graph.defers node.key = true ↔
      ∃ owner provider, node.key = .provide owner provider ∧
        graph.types.isPromise (graph.getProvider provider).returns = true := by
  cases node with
  | collect number type owner elements async => simp [Plan.key, defers]
  | provide type owner provider arguments async =>
      have hlt := hbuilt.unrepeated.declared_lt owner provider (declared_of_mem_walk h hnode rfl).1
      have hmem : graph.getProvider provider ∈ graph.providers := by
        rw [getProvider, List.getD_eq_getElem _ _ hlt]
        exact List.getElem_mem hlt
      rw [Plan.key, defers, (hbuilt.deferring _ hmem).2]
      constructor
      · intro hpromise
        exact ⟨owner, provider, rfl, hpromise⟩
      · rintro ⟨_, _, hkey, hpromise⟩
        obtain ⟨-, rfl⟩ := PlanKey.provide.inj hkey
        exact hpromise

theorem isAsync_iff_callsPromise (hbuilt : graph.Built) (h : graph.resolution id = .ok resolution)
    (hplan : plan ∈ resolution.walk) : plan.isAsync = true ↔ graph.CallsPromise plan := by
  have hwalk : ∀ node ∈ plan.walk, node ∈ resolution.walk := by
    obtain ⟨item, hitem, hbelow⟩ := List.mem_flatMap.mp hplan
    intro node hnode
    exact List.mem_flatMap.mpr ⟨item, hitem, (Plan.walk_sublist hbelow).subset hnode⟩
  rw [isAsync_iff_of_walk fun node hnode ↦ isAsync_eq_of_mem_walk h (hwalk node hnode)]
  constructor
  · rintro ⟨node, hnode, hdefers⟩
    exact ⟨node, hnode, (defers_iff hbuilt h (hwalk node hnode)).mp hdefers⟩
  · rintro ⟨node, hnode, hpromise⟩
    exact ⟨node, hnode, (defers_iff hbuilt h (hwalk node hnode)).mpr hpromise⟩

/-- Each override is async exactly if its resolver is declared to return a promise, and each value
in an accessor is a promise exactly if the type that it stands for is one. -/
structure DeliversAsDeclared (graph : Graph) (resolution : Resolution) : Prop where
  overrides : List.Forall₂ (fun resolver item ↦
      (graph.overrideIn resolution item).isAsync = true ↔
        graph.types.isPromise resolver.returns = true)
    (graph.getComponent resolution.component).resolvers resolution.resolvers
  values : ∀ plan ∈ resolution.plans, graph.EachRequest (fun _ type child ↦
    (graph.use resolution child).IsPromise ↔ graph.types.isPromise type = true) plan

/-- The override of a resolver is async exactly if its plan calls a provider of a promise, and then
the resolver is declared to return one.  Every value in an accessor stands for a parameter or for an
element, and is awaited exactly if its plan calls a provider of a promise.  As long as a plan is as
asynchronous as the one that is stored under its key, its override returns no other promise, and its
value is none, whatever type it stands for.  This is so whenever no provider is called with
different arguments. -/
theorem promises_awaited (hbuilt : graph.Built) (h : graph.resolution id = .ok resolution) :
    (graph.implementation resolution).methods =
      resolution.resolvers.map (graph.overrideIn resolution) ++
        resolution.plans.map (graph.emitted resolution) ∧
    List.Forall₂ (fun resolver item ↦
      (graph.overrideIn resolution item).name = resolver.name ∧
      (graph.overrideIn resolution item).body = (graph.emitted resolution item.plan).invoked ∧
      ((graph.overrideIn resolution item).isAsync = true ↔ graph.CallsPromise item.plan) ∧
      ((graph.overrideIn resolution item).isAsync = true →
        graph.types.isPromise resolver.returns = true) ∧
      (StoredAlike resolution item.plan → (graph.emitted resolution item.plan).isAsync =
        (graph.overrideIn resolution item).isAsync))
      (graph.getComponent id).resolvers resolution.resolvers ∧
    (∀ plan ∈ resolution.plans,
      (graph.emitted resolution plan).body = graph.accessorBody plan
        (plan.children.map fun child ↦ (graph.use resolution child).expression) ∧
      graph.EachRequest (fun _ type child ↦ child.type = type ∧
        ((graph.use resolution child).awaited = true ↔ graph.CallsPromise child) ∧
        (StoredAlike resolution child → ¬ (graph.use resolution child).IsPromise)) plan) ∧
    (WiredAlike resolution.walk → ∀ plan ∈ resolution.called, StoredAlike resolution plan) := by
  refine ⟨?_, ?_, fun plan hplan ↦ ⟨?_, ?_⟩, fun halike plan hplan stored hstored hkey ↦ ?_⟩
  · rw [methods_implementation]
    exact congrArg _ (List.map_congr_left fun plan hplan ↦ (emitted_of_mem h hplan).symm)
  · have hresolvers := forall₂_mem (forall₂_of_resolveAll (resolution_eq_ok h).1)
    refine hresolvers.imp ?_
    rintro resolver item ⟨-, hitem, hname, -, hdeclared⟩
    have hplan := mem_walk_of_mem_called h (mem_called_of_mem_resolvers hitem)
    have hbody : (graph.overrideIn resolution item).body =
        (graph.emitted resolution item.plan).invoked := by
      rw [Method.invoked, name_emitted h hplan, overrideIn]
    exact ⟨hname, hbody, isAsync_iff_callsPromise hbuilt h hplan, hdeclared,
      fun halike ↦ ((isAsync_eq_emitted_iff h hplan).mpr halike).symm⟩
  · exact body_emitted h hplan
  · obtain ⟨_, -, hnode, _, hproduces⟩ :=
      exists_produces_of_mem_walk h (mem_walk_of_mem_plans h hplan)
    refine (hproduces.eachRequest hnode).imp_of_mem ?_
    rintro type child hchild ⟨_, _, hanswers⟩
    have hwalk := mem_walk_of_mem_called h (mem_called_of_mem_children hplan hchild)
    exact ⟨hanswers.type_eq, isAsync_iff_callsPromise hbuilt h hwalk, not_isPromise_use h hwalk⟩
  · exact isAsync_eq_of_key_eq h halike (mem_walk_of_mem_called h hplan)
      (mem_walk_of_mem_plans h hstored) hkey.symm

/-- A clock that is at hand is wanted as a promise, and so is a feed that comes later, by a resolver
and by the provider of a reader. -/
def promisedClock : Graph where
  types := (((((TypeTable.empty.intern (.nominal "Clock")).2.intern (.nominal "Feed")).2.intern
    (.generic "Promise" [1])).2.intern (.nominal "Reader")).2.intern
    (.generic "Promise" [0])).2.intern (.generic "Promise" [3]) |>.2
  modules := [⟨"Root", ⟨"root.ts"⟩, [0, 1, 2], [], []⟩]
  providers := [⟨"clock", 0, [], 0, false⟩, ⟨"feed", 0, [], 2, true⟩,
    ⟨"reader", 0, [2], 3, false⟩]
  components := [⟨"App", ⟨"app.ts"⟩, 0, [⟨"clock", 4⟩, ⟨"reader", 5⟩]⟩]

theorem promisedClock_built : promisedClock.Built := by
  have hfeed := ((Built.empty.intern (.nominal "Clock") (by decide)).intern (.nominal "Feed")
    (by decide)).intern (.generic "Promise" [1]) (by decide)
  have hreader := (hfeed.intern (.nominal "Reader") (by decide)).intern (.generic "Promise" [0])
    (by decide)
  have htypes := hreader.intern (.generic "Promise" [3]) (by decide)
  have hmodule := htypes.addModule "Root" ⟨"root.ts"⟩ rfl
  have hsources := (hmodule.addProvider 0 "clock" [] 0 false (by decide) (by decide)
    (by decide)).addProvider 0 "feed" [] 2 true (by decide) (by decide) (by decide)
  have hroot := hsources.addProvider 0 "reader" [2] 3 false (by decide) (by decide) (by decide)
  have happ := hroot.addComponent "App" ⟨"app.ts"⟩ 0 (by decide) rfl
  exact (happ.addResolver 0 "clock" 4 (by decide) (by decide)).addResolver 0 "reader" 5
    (by decide) (by decide)

def promisedClockResolution : Resolution :=
  let clock : Plan := .provide 4 0 0 [] false
  let feed : Plan := .provide 2 0 1 [] true
  let reader : Plan := .provide 5 0 2 [feed] true
  { component := 0
    resolvers := [⟨"clock", clock⟩, ⟨"reader", reader⟩]
    modules := [0]
    plans := [clock, reader, feed] }

theorem promisedClock_resolution : promisedClock.resolution 0 = .ok promisedClockResolution := by
  cbv

/-- The reader's plan calls the provider of the feed, and what the reader is given is no promise. -/
theorem promisedClock_feed_awaited : promisedClock.Built ∧
    promisedClock.resolution 0 = .ok promisedClockResolution ∧
    promisedClock.CallsPromise (.provide 5 0 2 [.provide 2 0 1 [] true] true) ∧
    ¬ (promisedClock.use promisedClockResolution (.provide 2 0 1 [] true)).IsPromise := by
  obtain ⟨-, hresolvers, hvalues, -⟩ :=
    promises_awaited promisedClock_built promisedClock_resolution
  refine ⟨promisedClock_built, promisedClock_resolution, ?_, ?_⟩
  · obtain ⟨⟨-, -, hasync, -⟩, -⟩ := List.forall₂_cons.mp (List.forall₂_cons.mp hresolvers).2
    exact hasync.mp rfl
  · have hreader : .provide 5 0 2 [.provide 2 0 1 [] true] true ∈ promisedClockResolution.plans :=
      List.mem_cons_of_mem _ List.mem_cons_self
    obtain ⟨-, -, hpromise⟩ := (List.forall₂_cons.mp (hvalues _ hreader).2).1
    have halike : StoredAlike promisedClockResolution (.provide 2 0 1 [] true) := by
      unfold StoredAlike
      decide
    exact hpromise halike

/-- The override of the clock is not async, and the reader is given the feed and not its promise,
though a promise is declared in both places. -/
theorem promisedClock_undelivered : promisedClock.Built ∧
    promisedClock.resolution 0 = .ok promisedClockResolution ∧
    (promisedClock.implementation promisedClockResolution).method? "clock" =
      some ⟨"clock", .exposed, false, .call (.thisProperty "_Root_clock") []⟩ ∧
    (promisedClock.implementation promisedClockResolution).method? "_Root_reader" =
      some ⟨"_Root_reader", .hidden, true, .call (.property (.thisProperty "_Root") "reader")
        [.await (.call (.thisProperty "_Root_feed") [])]⟩ ∧
    ¬ promisedClock.DeliversAsDeclared promisedClockResolution := by
  refine ⟨promisedClock_built, promisedClock_resolution, ?_, ?_, ?_⟩
  · cbv
  · cbv
  · intro hdelivers
    have hclock := (List.forall₂_cons.mp hdelivers.overrides).1
    exact Bool.noConfusion (hclock.mpr (by decide))

end Graph

end Wiring
