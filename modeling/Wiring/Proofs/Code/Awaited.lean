import Wiring.Proofs.Code.Emitted
import Wiring.Proofs.Search.Produced

/-!
# Await and async

An accessor is async when the plan that is stored for its key is asynchronous.  A call of it is
awaited when the plan that stands there is.  Both are the same for a set, and for a provider that
has the same arguments wherever it is called.  A provider whose arguments depend on the module
around it may be asynchronous at one call and not at another one, and it has one accessor only.
-/

namespace Wiring

open Code

/-- A call of the method, awaited when the method is async. -/
def Code.Method.awaited (method : Method) : Expression :=
  method.invoked.awaitIf method.isAsync

theorem Code.Method.awaitIf_invoked_inj {method : Method} {async other : Bool} :
    method.invoked.awaitIf async = method.invoked.awaitIf other ↔ async = other := by
  cases async <;> cases other <;> simp [Expression.awaitIf, invoked]

/-- Wherever a provider is called in the plans, it is called with the same arguments. -/
def WiredAlike (plans : List Plan) : Prop :=
  ∀ plan ∈ plans, ∀ other ∈ plans, ∀ owner id, plan.key = .provide owner id →
    other.key = .provide owner id → plan.children.map Plan.callee = other.children.map Plan.callee

theorem Plan.isAsync_eq_of_collect {plan other : Plan} (h : plan.callee = other.callee)
    {id : SetId} (hkey : plan.key = .collect id) : plan.isAsync = other.isAsync := by
  cases plan <;> cases other <;> simp_all [callee, key, isAsync]

namespace Graph

variable {graph : Graph} {id : ComponentId} {resolution : Resolution} {plan other : Plan}

theorem isAsync_eq_of_mem_walk (h : graph.resolution id = .ok resolution)
    (hplan : plan ∈ resolution.walk) :
    plan.isAsync = (graph.defers plan.key || plan.children.any Plan.isAsync) := by
  obtain ⟨item, hitem, hnode⟩ := List.mem_flatMap.mp hplan
  obtain ⟨type, hproduces⟩ := produces_of_resolveAll (resolution_eq_ok h).1 item hitem
  exact hproduces.isAsync_eq hnode

theorem isAsync_eq_of_callee_eq (h : graph.resolution id = .ok resolution)
    (halike : WiredAlike resolution.walk) (hplan : plan ∈ resolution.walk)
    (hother : other ∈ resolution.walk) (hcallee : plan.callee = other.callee) :
    plan.isAsync = other.isAsync := by
  have hchildren := (shared_of_resolution h).children
  -- A set shows its asynchrony where it is called, and a provider has its own from its arguments.
  induction plan using Plan.induct generalizing other with
  | step plan ih =>
      cases hkey : plan.key with
      | collect number => exact Plan.isAsync_eq_of_collect hcallee hkey
      | provide owner provider =>
          have hsame := Plan.provide_of_callee_eq hcallee.symm hkey
          have hcallees := halike plan hplan other hother owner provider hkey hsame
          have hpairs := forall₂_mem (map_eq_map_iff_forall₂.mp hcallees)
          have hasyncs : plan.children.map Plan.isAsync = other.children.map Plan.isAsync := by
            refine map_eq_map_iff_forall₂.mpr (hpairs.imp ?_)
            rintro child twin ⟨hchild, htwin, hsame⟩
            exact ih child hchild (hchildren plan hplan child hchild)
              (hchildren other hother twin htwin) hsame
          have hany : plan.children.any Plan.isAsync = other.children.any Plan.isAsync := by
            simpa [List.any_map, Function.comp_def] using
              congrArg (List.any · fun async ↦ async) hasyncs
          rw [isAsync_eq_of_mem_walk h hplan, isAsync_eq_of_mem_walk h hother, hkey, hsame, hany]

theorem isAsync_eq_of_key_eq (h : graph.resolution id = .ok resolution)
    (halike : WiredAlike resolution.walk) (hplan : plan ∈ resolution.walk)
    (hother : other ∈ resolution.walk) (hkey : plan.key = other.key) :
    plan.isAsync = other.isAsync := by
  cases hplanKey : plan.key with
  | provide owner provider =>
      refine isAsync_eq_of_callee_eq h halike hplan hother ?_
      rw [Plan.callee_of_provide hplanKey, Plan.callee_of_provide (hkey.symm.trans hplanKey)]
  | collect number =>
      rw [(shared_of_resolution h).sets plan hplan other hother number hplanKey
        (hkey.symm.trans hplanKey)]

theorem isAsync_eq_emitted_iff (h : graph.resolution id = .ok resolution)
    (hplan : plan ∈ resolution.walk) :
    plan.isAsync = (graph.emitted resolution plan).isAsync ↔
      ∀ stored ∈ resolution.plans, stored.key = plan.key → plan.isAsync = stored.isAsync := by
  have hshared := shared_of_resolution h
  obtain ⟨first, hfirst⟩ := hshared.exists_stored hplan
  rw [emitted_of_firstAt hfirst, accessorIn]
  constructor
  · intro hasync stored hstored hkey
    have hsame := hshared.firstAt_of_mem hstored
    rw [hkey, hfirst] at hsame
    rw [hasync, Option.some.inj hsame]
  · intro hasync
    exact hasync first (firstAt_eq_some hfirst).1 (firstAt_eq_some hfirst).2

/-- Each value in an accessor is a call of the accessor that the implementation has for it, awaited
exactly when this one is async, and each override is async exactly when the accessor is to which it
delegates. -/
structure AwaitAgrees (graph : Graph) (resolution : Resolution) : Prop where
  values : ∀ plan ∈ resolution.plans, (graph.emitted resolution plan).body =
    graph.accessorBody plan (plan.children.map fun child ↦
      (graph.emitted resolution child).awaited)
  overrides : ∀ item ∈ resolution.resolvers, (graph.overrideIn resolution item).isAsync =
    (graph.emitted resolution item.plan).isAsync

theorem awaitAgrees_iff_isAsync (h : graph.resolution id = .ok resolution) :
    graph.AwaitAgrees resolution ↔ ∀ plan ∈ resolution.called,
      plan.isAsync = (graph.emitted resolution plan).isAsync := by
  constructor
  · intro hagrees plan hplan
    rcases List.mem_append.mp hplan with hresolver | hchild
    · obtain ⟨item, hitem, rfl⟩ := List.mem_map.mp hresolver
      exact hagrees.overrides item hitem
    · obtain ⟨stored, hstored, hplan⟩ := List.mem_flatMap.mp hchild
      have hvalues := (body_emitted h hstored).symm.trans (hagrees.values stored hstored)
      have heach := List.map_inj_left.mp (accessorBody_inj.mp hvalues) plan hplan
      exact Method.awaitIf_invoked_inj.mp heach
  · intro hcalled
    refine ⟨fun plan hplan ↦ ?_, fun item hitem ↦ ?_⟩
    · rw [body_emitted h hplan]
      refine accessorBody_inj.mpr (List.map_congr_left fun child hchild ↦ ?_)
      exact Method.awaitIf_invoked_inj.mpr (hcalled child (mem_called_of_mem_children hplan hchild))
    · exact hcalled item.plan (mem_called_of_mem_resolvers hitem)

/-- An implementation has an override for each resolver and an accessor for each key.  An accessor
is async when the plan that is stored for its key is, and each of its values is awaited when the
plan that stands there is.  So await agrees with async exactly when each plan that is called is as
asynchronous as the one that is stored for its key.  This is so whenever no provider is called with
different arguments. -/
theorem awaitAgrees_iff (h : graph.resolution id = .ok resolution) :
    (graph.implementation resolution).methods =
      resolution.resolvers.map (graph.overrideIn resolution) ++
        resolution.plans.map (graph.emitted resolution) ∧
    (∀ item ∈ resolution.resolvers, graph.overrideIn resolution item =
      ⟨item.name, .exposed, item.plan.isAsync, (graph.emitted resolution item.plan).invoked⟩) ∧
    (∀ plan ∈ resolution.plans, (graph.emitted resolution plan).isAsync = plan.isAsync ∧
      (graph.emitted resolution plan).body = graph.accessorBody plan (plan.children.map fun child ↦
        (graph.emitted resolution child).invoked.awaitIf child.isAsync)) ∧
    (graph.AwaitAgrees resolution ↔ ∀ plan ∈ resolution.called, ∀ stored ∈ resolution.plans,
      stored.key = plan.key → plan.isAsync = stored.isAsync) ∧
    (WiredAlike resolution.walk → graph.AwaitAgrees resolution) := by
  have hagrees : graph.AwaitAgrees resolution ↔ ∀ plan ∈ resolution.called,
      ∀ stored ∈ resolution.plans, stored.key = plan.key → plan.isAsync = stored.isAsync :=
    (awaitAgrees_iff_isAsync h).trans <| forall₂_congr fun plan hplan ↦
      isAsync_eq_emitted_iff h (mem_walk_of_mem_called h hplan)
  refine ⟨?_, fun item hitem ↦ ?_, fun plan hplan ↦ ?_, hagrees, fun halike ↦ ?_⟩
  · rw [methods_implementation]
    exact congrArg _ (List.map_congr_left fun plan hplan ↦ (emitted_of_mem h hplan).symm)
  · have hname := name_emitted h (mem_walk_of_mem_called h (mem_called_of_mem_resolvers hitem))
    rw [Method.invoked, hname, overrideIn]
  · exact ⟨congrArg Method.isAsync (emitted_of_mem h hplan), body_emitted h hplan⟩
  · refine hagrees.mpr fun plan hplan stored hstored hkey ↦ ?_
    exact isAsync_eq_of_key_eq h halike (mem_walk_of_mem_called h hplan)
      (mem_walk_of_mem_plans h hstored) hkey.symm

/-- The storage is called with two sources, and await agrees with async all the same. -/
theorem twoSources_awaitAgrees : twoSources.resolution 0 = .ok twoSourcesResolution ∧
    twoSources.AwaitAgrees twoSourcesResolution := by
  refine ⟨twoSources_resolution, ?_⟩
  obtain ⟨-, -, -, hagrees, -⟩ := awaitAgrees_iff twoSources_resolution
  refine hagrees.mpr ?_
  decide

/-- A writer gets a store with a source that is copied later, and a reader gets the same store with
the source at hand. -/
def lateCopy : Graph where
  types := ((((((((TypeTable.empty.intern (.nominal "Source")).2.intern
    (.generic "Promise" [0])).2.intern (.nominal "Store")).2.intern (.nominal "Clock")).2.intern
    (.generic "Promise" [3])).2.intern (.nominal "Reader")).2.intern
    (.generic "Promise" [5])).2.intern (.nominal "Writer")).2.intern (.generic "Promise" [7]) |>.2
  modules := [⟨"Root", ⟨"root.ts"⟩, [0, 1, 2], [1, 2], []⟩,
    ⟨"Storage", ⟨"storage.ts"⟩, [3], [], [0]⟩, ⟨"Copies", ⟨"copies.ts"⟩, [4, 5], [1], []⟩]
  providers := [⟨"source", 0, [], 0, false⟩, ⟨"clock", 0, [], 4, true⟩,
    ⟨"reader", 0, [2, 3], 5, false⟩, ⟨"store", 1, [0], 2, false⟩, ⟨"copy", 2, [], 1, true⟩,
    ⟨"writer", 2, [2], 7, false⟩]
  components := [⟨"App", ⟨"app.ts"⟩, 0, [⟨"writer", 8⟩, ⟨"reader", 6⟩]⟩]

theorem lateCopy_built : lateCopy.Built := by
  have hsource := (Built.empty.intern (.nominal "Source") (by decide)).intern
    (.generic "Promise" [0]) (by decide)
  have hclock := ((hsource.intern (.nominal "Store") (by decide)).intern (.nominal "Clock")
    (by decide)).intern (.generic "Promise" [3]) (by decide)
  have hreader := (hclock.intern (.nominal "Reader") (by decide)).intern (.generic "Promise" [5])
    (by decide)
  have htypes := (hreader.intern (.nominal "Writer") (by decide)).intern (.generic "Promise" [7])
    (by decide)
  have hmodules := ((htypes.addModule "Root" ⟨"root.ts"⟩ rfl).addModule "Storage" ⟨"storage.ts"⟩
    rfl).addModule "Copies" ⟨"copies.ts"⟩ rfl
  have hincludes := ((hmodules.addInclude 0 1 (by decide) (by decide)).addInclude 0 2 (by decide)
    (by decide)).addInclude 2 1 (by decide) (by decide)
  have hrequired := hincludes.addRequired 1 0 (by decide) (by decide)
  have hroot := ((hrequired.addProvider 0 "source" [] 0 false (by decide) (by decide)
    (by decide)).addProvider 0 "clock" [] 4 true (by decide) (by decide) (by decide)).addProvider 0
    "reader" [2, 3] 5 false (by decide) (by decide) (by decide)
  have hstore := hroot.addProvider 1 "store" [0] 2 false (by decide) (by decide) (by decide)
  have hcopies := (hstore.addProvider 2 "copy" [] 1 true (by decide) (by decide)
    (by decide)).addProvider 2 "writer" [2] 7 false (by decide) (by decide) (by decide)
  have happ := hcopies.addComponent "App" ⟨"app.ts"⟩ 0 (by decide) rfl
  exact (happ.addResolver 0 "writer" 8 (by decide) (by decide)).addResolver 0 "reader" 6
    (by decide) (by decide)

def lateCopyResolution : Resolution :=
  let source : Plan := .provide 0 0 0 [] false
  let clock : Plan := .provide 3 0 1 [] true
  let copy : Plan := .provide 0 2 4 [] true
  let late : Plan := .provide 2 1 3 [copy] true
  let store : Plan := .provide 2 1 3 [source] false
  let writer : Plan := .provide 8 2 5 [late] true
  let reader : Plan := .provide 6 0 2 [store, clock] true
  { component := 0
    resolvers := [⟨"writer", writer⟩, ⟨"reader", reader⟩]
    modules := [2, 1, 0]
    plans := [writer, late, copy, reader, source, clock] }

theorem lateCopy_resolution : lateCopy.resolution 0 = .ok lateCopyResolution := by
  cbv

/-- The accessor of the store is async, and the accessor of the reader does not await it. -/
theorem lateCopy_store_not_awaited : lateCopy.Built ∧
    lateCopy.resolution 0 = .ok lateCopyResolution ∧
    (lateCopy.implementation lateCopyResolution).method? "_Storage_store" =
      some ⟨"_Storage_store", .hidden, true, .call (.property (.thisProperty "_Storage") "store")
        [.await (.call (.thisProperty "_Copies_copy") [])]⟩ ∧
    (lateCopy.implementation lateCopyResolution).method? "_Root_reader" =
      some ⟨"_Root_reader", .hidden, true, .call (.property (.thisProperty "_Root") "reader")
        [.call (.thisProperty "_Storage_store") [],
          .await (.call (.thisProperty "_Root_clock") [])]⟩ ∧
    ¬ lateCopy.AwaitAgrees lateCopyResolution := by
  refine ⟨lateCopy_built, lateCopy_resolution, ?_, ?_, ?_⟩
  · cbv
  · cbv
  · intro hagrees
    have hstore : Plan.provide 2 1 3 [.provide 0 0 0 [] false] false ∈
        lateCopyResolution.called := by
      simp [Resolution.called, lateCopyResolution, Plan.children]
    have hasync := (awaitAgrees_iff_isAsync lateCopy_resolution).mp hagrees _ hstore
    exact Bool.noConfusion hasync

end Graph

end Wiring
