import Mathlib.Data.Finset.Basic
import Mathlib.Logic.Relation
import Wiring.Proofs.Search.Course
import Wiring.Proofs.Search.Derivable
import Wiring.Proofs.Types.Equivalent

/-!
# Calls without a depth

A request that makes another one waits until it is answered.  Calling and answering like this with
no limit, an engine still comes to an end, because every request that waits guards another pair of
a module and a type.  What it ends with is what the search finds within its depth.
-/

namespace Wiring

/-- A request that waits, and how it goes on once it is answered. -/
structure Pending where
  request : Request
  next : Answer → Course Answer

/-- The innermost request with what is left of its course, and the requests that wait, the innermost
first. -/
structure Calls where
  request : Request
  course : Course Answer
  waiting : List Pending

namespace Calls

def requests (calls : Calls) : List Request :=
  calls.request :: calls.waiting.map (·.request)

/-- The guards of the requests under way that apply the rules, the innermost first. -/
def guards (calls : Calls) : List (Finset (ModuleId × TypeId)) :=
  (calls.requests.filterMap Request.guard?).map List.toFinset

end Calls

namespace Graph

/-- A request is called while others wait. -/
def call (graph : Graph) (request : Request) (waiting : List Pending) : Calls :=
  ⟨request, graph.course request, waiting⟩

/-- The innermost request calls another one, or its answer goes to the one that waits for it. -/
def step (graph : Graph) : Calls → Option Calls
  | ⟨outer, .ask inner next, waiting⟩ => some (graph.call inner (⟨outer, next⟩ :: waiting))
  | ⟨_, .done answer, ⟨outer, next⟩ :: waiting⟩ => some ⟨outer, next answer, waiting⟩
  | ⟨_, .done _, []⟩ => none

def Steps (graph : Graph) : Calls → Calls → Prop :=
  Relation.ReflTransGen fun calls next ↦ graph.step calls = some next

variable {graph : Graph} {request : Request} {calls : Calls}

/-- There is one run, so every part of it leads to where it ends. -/
theorem Steps.to_end {start final : Calls} (h : graph.Steps start final)
    (hfinal : graph.step final = none) (hcalls : graph.Steps start calls) :
    graph.Steps calls final := by
  have hunique : Relator.RightUnique fun calls next ↦ graph.step calls = some next :=
    fun _ _ _ hnext hother ↦ Option.some.inj (hnext.symm.trans hother)
  rcases Relation.ReflTransGen.total_of_right_unique hunique hcalls h with hend | hback
  · exact hend
  · rcases Relation.ReflTransGen.cases_head hback with rfl | ⟨next, hnext, -⟩
    · exact .refl
    · exact (Option.some_ne_none next (hnext.symm.trans hfinal)).elim

/-- The requests wait for the answer to the one inside of them. -/
inductive AwaitedBy (graph : Graph) : Request → List Pending → Prop where
  | nil {inner : Request} : AwaitedBy graph inner []
  | cons {inner outer : Request} {next : Answer → Course Answer} {waiting : List Pending}
      (admits : graph.Admits outer) (guard : outer.guard? = some inner.state.guarded)
      (goesOn : ∀ answer : Answer, answer.2.SameContext inner.state →
        graph.Obeys outer (next answer))
      (around : AwaitedBy graph outer waiting) : AwaitedBy graph inner (⟨outer, next⟩ :: waiting)

structure WellNested (graph : Graph) (calls : Calls) : Prop where
  admits : graph.Admits calls.request
  obeys : graph.Obeys calls.request calls.course
  awaited : graph.AwaitedBy calls.request calls.waiting

theorem WellNested.step (hclosed : graph.Closed) (h : graph.WellNested calls) {next : Calls}
    (hnext : graph.step calls = some next) : graph.WellNested next := by
  obtain ⟨request, course, waiting⟩ := calls
  obtain ⟨hadmits, hobeys, hawaited⟩ := h
  cases hobeys with
  | @ask inner goesOn made hgoesOn =>
      obtain rfl := Option.some.inj hnext
      exact ⟨made.admits, obeys_course hclosed made.admits,
        .cons hadmits made.guard hgoesOn hawaited⟩
  | @done answer ended =>
      cases hawaited with
      | nil => exact (Option.some_ne_none next hnext.symm).elim
      | cons houter _ hgoesOn haround =>
          obtain rfl := Option.some.inj hnext
          exact ⟨houter, hgoesOn answer ended, haround⟩

theorem WellNested.steps (hclosed : graph.Closed) (h : graph.WellNested calls) {later : Calls}
    (hlater : graph.Steps calls later) : graph.WellNested later := by
  induction hlater with
  | refl => exact h
  | tail _ hstep ih => exact ih.step hclosed hstep

theorem ssubset_guard {guard other : List (ModuleId × TypeId)}
    (hguard : request.guard? = some guard) (hother : other <:+ request.state.guarded) :
    other.toFinset ⊂ guard.toFinset := by
  obtain ⟨owner, enclosing, -, hfresh, rfl⟩ := Request.guard?_eq_some_iff.mp hguard
  rw [Finset.ssubset_iff_of_subset fun pair hpair ↦ ?_]
  · refine ⟨(owner, request.type), by simp, fun hpair ↦ hfresh ?_⟩
    exact hother.subset (List.mem_toFinset.mp hpair)
  · exact List.mem_toFinset.mpr
      (List.mem_cons_of_mem _ (hother.subset (List.mem_toFinset.mp hpair)))

namespace AwaitedBy

variable {waiting : List Pending}

/-- The requests that wait have guarded what is guarded inside of them, one pair each. -/
theorem guards_waiting (h : graph.AwaitedBy request waiting) :
    (∀ guard ∈ (waiting.map (·.request)).filterMap Request.guard?,
      guard <:+ request.state.guarded) ∧
    ((waiting.map (·.request)).filterMap Request.guard?).length ≤ request.state.guarded.length := by
  induction h with
  | nil => exact ⟨List.forall_mem_nil _, Nat.zero_le _⟩
  | cons _ hguard _ _ ih =>
      obtain ⟨hsuffix, hlength⟩ := ih
      obtain ⟨owner, enclosing, -, -, hguarded⟩ := Request.guard?_eq_some_iff.mp hguard
      rw [List.map_cons, List.filterMap_cons_some hguard]
      constructor
      · intro guard hmem
        rcases List.mem_cons.mp hmem with rfl | houter
        · exact List.suffix_rfl
        · rw [hguarded]
          exact (hsuffix guard houter).trans (List.suffix_cons _ _)
      · rw [hguarded, List.length_cons, List.length_cons]
        exact Nat.succ_le_succ hlength

theorem pairwise_guards (h : graph.AwaitedBy request waiting) :
    (((request :: waiting.map (·.request)).filterMap Request.guard?).map
      List.toFinset).Pairwise (· ⊃ ·) := by
  induction h with
  | @nil request => cases hguard : request.guard? <;> simp [hguard]
  | @cons request _ _ _ admits guard goesOn around ih =>
      have hsuffix := (AwaitedBy.cons admits guard goesOn around).guards_waiting.1
      rw [List.pairwise_map] at ih ⊢
      cases hguard : request.guard? with
      | none => rwa [List.filterMap_cons_none hguard]
      | some guard =>
          rw [List.filterMap_cons_some hguard, List.pairwise_cons]
          exact ⟨fun other hother ↦ ssubset_guard hguard (hsuffix other hother), ih⟩

theorem length_guards_le (h : graph.AwaitedBy request waiting) (hadmits : graph.Admits request) :
    ((request :: waiting.map (·.request)).filterMap Request.guard?).length ≤
      graph.modules.length * graph.types.size := by
  have hwaiting := h.guards_waiting.2
  cases hguard : request.guard? with
  | none =>
      rw [List.filterMap_cons_none hguard]
      exact hwaiting.trans hadmits.guarded.length_le
  | some guard =>
      have hlength := (hadmits.guard hguard).length_le
      obtain ⟨owner, enclosing, -, -, rfl⟩ := Request.guard?_eq_some_iff.mp hguard
      rw [List.filterMap_cons_some hguard, List.length_cons]
      exact (Nat.succ_le_succ hwaiting).trans hlength

end AwaitedBy

/-- If each request that a course makes is answered by the lookup, so is the request whose course it
is. -/
theorem steps_run {lookup : Lookup} (horderly : ∀ demand type, Orderly (lookup demand type))
    {course : Course Answer} {wanted : Answer → Prop}
    (hkeeps : course.Keeps (graph.Nests request) wanted)
    (hinner : ∀ inner, graph.Nests request inner → ∀ waiting, graph.Steps (graph.call inner waiting)
      ⟨inner, .done (lookup inner.demand inner.type inner.state), waiting⟩)
    (waiting : List Pending) :
    graph.Steps ⟨request, course, waiting⟩ ⟨request, .done (course.run lookup), waiting⟩ := by
  induction hkeeps with
  | done => exact .refl
  | @ask inner next made _ ih =>
      let answer := lookup inner.demand inner.type inner.state
      have hcontext : answer.2.SameContext inner.state :=
        (horderly inner.demand inner.type inner.state).context
      have hcalled : graph.Steps ⟨request, .ask inner next, waiting⟩
          ⟨inner, .done answer, ⟨request, next⟩ :: waiting⟩ :=
        .head rfl (hinner inner made _)
      exact (hcalled.tail rfl).trans (ih answer hcontext)

/-- With more depth left than there are unguarded pairs, a search within this depth finds what the
calls end with. -/
theorem steps_lookupWithin (hclosed : graph.Closed) {depth : ℕ} (h : graph.Admits request)
    (hdepth : graph.modules.length * graph.types.size < depth + request.state.guarded.length)
    (waiting : List Pending) :
    graph.Steps (graph.call request waiting)
      ⟨request, .done (graph.lookupWithin depth request.demand request.type request.state),
        waiting⟩ := by
  -- Each request inside of another one is under one more guarded pair, so one depth less will do.
  induction depth generalizing request waiting with
  | zero =>
      have hlength := h.guarded.length_le
      omega
  | succ depth ih =>
      rw [lookupWithin, ← run_course]
      apply steps_run (orderly_lookupWithin depth) (obeys_course hclosed h)
      intro inner hinner waiting
      apply ih hinner.admits
      obtain ⟨owner, enclosing, -, -, hguarded⟩ := Request.guard?_eq_some_iff.mp hinner.guard
      rw [hguarded, List.length_cons]
      omega

/-- An engine that is asked for a type inside a root comes to an end: from wherever it is in its
calls, it gets to the answer that the candidates are, and no depth cuts off the comparisons of types
in between.  All the way, each request that applies the rules does so under more guarded pairs than
the requests around it, so that there are never more of them inside each other than there are pairs
of a module and a type. -/
theorem calls_terminate (h : graph.Built) {state : Search} (hidle : graph.Idle state)
    {root : ModuleId} (hroot : root < graph.modules.length) {type : TypeId}
    (htype : type < graph.types.size) :
    let request : Request := ⟨.every, type, { state with stack := [root] }⟩
    (∃ answer : Answer,
      graph.candidates root type state = (answer.1, { answer.2 with stack := [] }) ∧
      ∀ calls, graph.Steps (graph.call request []) calls →
        graph.Steps calls ⟨request, .done answer, []⟩ ∧
        calls.guards.Pairwise (· ⊃ ·) ∧
        calls.guards.length ≤ graph.modules.length * graph.types.size) ∧
    ∀ a b,
      (∀ depth, graph.types.size < depth →
        graph.types.equivalentWithin depth a b = some (graph.types.isEquivalent a b)) ∧
      ∀ depth, graph.types.comparisonDepth ≤ depth →
        graph.types.assignableWithin depth [] a b = some (graph.types.isAssignable a b) := by
  intro request
  have htypes := h.closed.types
  have hready := ready_root hidle.guarded_eq_nil hroot
  have hadmits : graph.Admits request := ⟨htype, hready.stack, hready.guarded⟩
  have hend := steps_lookupWithin h.closed hadmits hready.depth []
  have hstart : graph.WellNested (graph.call request []) :=
    ⟨hadmits, obeys_course h.closed hadmits, .nil⟩
  refine ⟨⟨graph.lookup .every type request.state, rfl, fun calls hcalls ↦ ?_⟩, fun a b ↦ ?_⟩
  · have hnested := hstart.steps h.closed hcalls
    refine ⟨hend.to_end rfl hcalls, hnested.awaited.pairwise_guards, ?_⟩
    rw [Calls.guards, List.length_map]
    exact hnested.awaited.length_guards_le hnested.admits
  · exact ⟨fun depth hdepth ↦ TypeTable.equivalentWithin_eq_some htypes hdepth a b,
      fun depth hdepth ↦ TypeTable.assignableWithin_eq_some htypes hdepth a b⟩

theorem circular_calls_terminate : circular.Built ∧ circular.Idle .start ∧
    0 < circular.modules.length ∧ 1 < circular.types.size ∧
    ∃ answer : Answer, circular.candidates 0 1 .start = (answer.1, { answer.2 with stack := [] }) ∧
      ∀ calls, circular.Steps (circular.call ⟨.every, 1, ⟨[0], [], 0⟩⟩ []) calls →
        circular.Steps calls ⟨⟨.every, 1, ⟨[0], [], 0⟩⟩, .done answer, []⟩ ∧
        calls.guards.Pairwise (· ⊃ ·) ∧ calls.guards.length ≤ 2 * 3 := by
  have hroot : 0 < circular.modules.length := by decide
  have htype : 1 < circular.types.size := by decide
  exact ⟨circular_built, .fresh, hroot, htype,
    (calls_terminate circular_built .fresh hroot htype).1⟩

end Graph

end Wiring
