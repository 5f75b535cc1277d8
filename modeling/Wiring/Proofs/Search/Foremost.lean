import Mathlib
import Wiring.Proofs.Search.Calls

/-!
# First candidates

A search for one plan goes the way of a search for every plan and turns back at the first one.  The
rules behind it are not tried, so fewer sets are numbered, but until then both searches are in the
same states: a part that finds nothing runs to its end either way.
-/

namespace Wiring

/-- Of one request, the answer of a search that stops beside that of a search that does not. -/
structure Foremost (every first : Answer) : Prop where
  found : first.1 = every.1.head?.toList
  context : first.2.SameContext every.2
  /-- Where there is nothing to stop at, even the sets are counted alike. -/
  exhausted : every.1 = [] → first.2 = every.2

theorem Search.SameContext.symm {state other : Search} (h : state.SameContext other) :
    other.SameContext state :=
  ⟨h.1.symm, h.2.symm⟩

/-- Wherever they start, the one part stops at the first plan of the other one. -/
def Probe.Foremost (every first : Probe) : Prop :=
  ∀ state, Wiring.Foremost (every state) (first state)

namespace Foremost

variable {every first : Answer}

theorem of_length_le {answer : Answer} (h : answer.1.length ≤ 1) : Foremost answer answer := by
  refine ⟨?_, .refl _, fun _ ↦ rfl⟩
  obtain ⟨found, state⟩ := answer
  match found, h with
  | [], _ => rfl
  | [plan], _ => rfl

theorem eq_of_nil (h : Foremost every first) (hnone : every.1 = []) : first = every :=
  Prod.ext (by rw [h.found, hnone]; rfl) (h.exhausted hnone)

/-- Both searches go back into the context around their request in the same way. -/
theorem map_state (h : Foremost every first) (f : Search → Search)
    (hf : ∀ state other : Search, state.SameContext other → (f state).SameContext (f other)) :
    Foremost (every.1, f every.2) (first.1, f first.2) :=
  ⟨h.found, hf _ _ h.context, fun hnone ↦ congrArg f (h.exhausted hnone)⟩

end Foremost

theorem foremost_inOrder {everys firsts : List Probe}
    (h : List.Forall₂ Probe.Foremost everys firsts) (horderly : ∀ probe ∈ everys, Orderly probe) :
    Probe.Foremost (inOrder .every everys) (inOrder .first firsts) := by
  induction h with
  | nil => exact fun state ↦ .of_length_le (Nat.zero_le 1)
  | @cons every first everys firsts hprobe hprobes ih =>
      intro state
      have hothers : ∀ probe ∈ everys, Orderly probe :=
        fun other hother ↦ horderly other (List.mem_cons_of_mem _ hother)
      have hstate := hprobe state
      rw [inOrder_cons, inOrder_cons]
      cases hfound : (every state).1 with
      | nil =>
          -- There is nothing to stop at, so the rest starts in the same state.
          rw [hstate.eq_of_nil hfound, hfound]
          exact ih hothers (every state).2
      | cons plan plans =>
          have hone : (first state).1 = [plan] := by
            rw [hstate.found, hfound]
            rfl
          have hmet : Demand.first.isMet (first state).1 = true := by
            rw [hone]
            rfl
          have hrest : Orderly (inOrder .every everys) := orderly_inOrder hothers
          rw [if_pos hmet]
          exact ⟨hone, hstate.context.trans (hrest (every state).2).context.symm,
            fun hnone ↦ (List.cons_ne_nil _ _ hnone).elim⟩

namespace Graph

variable {graph : Graph} {lookup : Lookup}

theorem length_providerProbe_le (type : TypeId) (owner : ModuleId) (id : ProviderId)
    (state : Search) : (graph.providerProbe lookup type owner id state).1.length ≤ 1 := by
  simp only [providerProbe]
  split_ifs
  · split
    · exact Nat.zero_le 1
    · exact Nat.le_refl 1
  · exact Nat.zero_le 1

theorem length_setProbe_le (type : TypeId) (owner : ModuleId) (state : Search) :
    (graph.setProbe lookup type owner state).1.length ≤ 1 := by
  rw [setProbe]
  split
  · exact Nat.zero_le 1
  · exact Nat.le_refl 1

section Rules

variable (h : ∀ type, Probe.Foremost (lookup .every type) (lookup .first type)) (type : TypeId)
  (owner : ModuleId)

include h

theorem foremost_includeProbe (included : ModuleId) :
    Probe.Foremost (includeProbe lookup .every type included)
      (includeProbe lookup .first type included) := by
  intro state
  exact (h type { state with stack := included :: state.stack }).map_state
    (fun state ↦ { state with stack := state.stack.tail })
    fun _ _ hsame ↦ ⟨congrArg List.tail hsame.1, hsame.2⟩

theorem foremost_enclosingProbe :
    Probe.Foremost (graph.enclosingProbe lookup .every type owner)
      (graph.enclosingProbe lookup .first type owner) := by
  intro state
  simp only [enclosingProbe]
  split_ifs
  · split
    · exact .of_length_le (Nat.zero_le 1)
    · next current enclosing _ =>
        exact (h type { state with stack := enclosing }).map_state
          (fun state ↦ { state with stack := current :: state.stack })
          fun _ _ hsame ↦ ⟨congrArg (current :: ·) hsame.1, hsame.2⟩
  · exact .of_length_le (Nat.zero_le 1)

theorem foremost_rules :
    List.Forall₂ Probe.Foremost (graph.rules lookup .every type owner)
      (graph.rules lookup .first type owner) := by
  have hproviders : List.Forall₂ Probe.Foremost
      ((graph.getModule owner).providers.map (graph.providerProbe lookup type owner))
      ((graph.getModule owner).providers.map (graph.providerProbe lookup type owner)) :=
    List.forall₂_same.mpr (List.forall_mem_map.mpr fun id _ state ↦
      .of_length_le (length_providerProbe_le type owner id state))
  have hset : Probe.Foremost (graph.setProbe lookup type owner)
      (graph.setProbe lookup type owner) :=
    fun state ↦ .of_length_le (length_setProbe_le type owner state)
  have hincludes : List.Forall₂ Probe.Foremost
      ((graph.getModule owner).includes.map (includeProbe lookup .every type))
      ((graph.getModule owner).includes.map (includeProbe lookup .first type)) := by
    rw [List.forall₂_map_left_iff, List.forall₂_map_right_iff]
    exact List.forall₂_same.mpr fun included _ ↦ foremost_includeProbe h type included
  have henclosing : Probe.Foremost (graph.enclosingProbe lookup .every type owner)
      (graph.enclosingProbe lookup .first type owner) := foremost_enclosingProbe h type owner
  exact List.rel_append (List.rel_append (List.rel_append hproviders (.cons hset .nil)) hincludes)
    (.cons henclosing .nil)

end Rules

theorem foremost_lookupStep (h : ∀ type, Probe.Foremost (lookup .every type) (lookup .first type))
    (horderly : ∀ demand type, Orderly (lookup demand type)) (type : TypeId) :
    Probe.Foremost (graph.lookupStep lookup .every type) (graph.lookupStep lookup .first type) := by
  intro state
  simp only [lookupStep]
  split
  · exact .of_length_le (Nat.zero_le 1)
  · next owner _ _ =>
      split_ifs
      · exact .of_length_le (Nat.zero_le 1)
      · have hrules : Probe.Foremost (inOrder .every (graph.rules lookup .every type owner))
            (inOrder .first (graph.rules lookup .first type owner)) :=
          foremost_inOrder (foremost_rules h type owner) (orderly_rules horderly .every type owner)
        exact (hrules (guarding state owner type)).map_state
          (fun state ↦ { state with guarded := state.guarded.erase (owner, type) })
          fun _ _ hsame ↦ ⟨hsame.1, congrArg (·.erase (owner, type)) hsame.2⟩

theorem foremost_lookupWithin (depth : ℕ) (type : TypeId) :
    Probe.Foremost (graph.lookupWithin depth .every type)
      (graph.lookupWithin depth .first type) := by
  induction depth generalizing type with
  | zero => exact fun state ↦ .of_length_le (Nat.zero_le 1)
  | succ depth ih => exact foremost_lookupStep ih (orderly_lookupWithin depth) type

/-- The states in which requests are made while an engine answers one for a type of the graph inside
a root. -/
def Arises (graph : Graph) (state : Search) : Prop :=
  ∃ (idle : Search) (root : ModuleId) (type : TypeId) (calls : Calls), graph.Idle idle ∧
    root < graph.modules.length ∧ type < graph.types.size ∧
    graph.Steps (graph.call ⟨.every, type, { idle with stack := [root] }⟩ []) calls ∧
    calls.request.state = state

theorem Arises.admits (h : graph.Built) {state : Search} (hstate : graph.Arises state)
    {type : TypeId} (htype : type < graph.types.size) (demand : Demand) :
    graph.Admits ⟨demand, type, state⟩ := by
  obtain ⟨idle, root, asked, calls, hidle, hroot, hasked, hcalls, rfl⟩ := hstate
  have hready := ready_root hidle.guarded_eq_nil hroot
  have hadmits : graph.Admits ⟨.every, asked, { idle with stack := [root] }⟩ :=
    ⟨hasked, hready.stack, hready.guarded⟩
  have hstart : graph.WellNested (graph.call ⟨.every, asked, { idle with stack := [root] }⟩ []) :=
    ⟨hadmits, obeys_course h.closed hadmits, .nil⟩
  have hnested := (hstart.steps h.closed hcalls).admits
  exact ⟨htype, hnested.stack_lt, hnested.guarded⟩

/-- Taking the first candidate is enumerating all of them and taking the first one.  Asked from the
same state, whatever it is inside of, guards and has counted, a search that stops finds one plan
where a search that does not finds any, and this is its first, with the numbers of its sets.  Both
leave the stack of modules and the guarded requests as they were.  In the states that an engine of a
built graph comes to, what they find is what the calls end with when no depth limits them. -/
theorem first_eq_head_every (graph : Graph) (type : TypeId) (state : Search) :
    (∀ depth,
      let every := graph.lookupWithin depth .every type state
      let first := graph.lookupWithin depth .first type state
      first.1 = every.1.head?.toList ∧ every.2.SameContext state ∧ first.2.SameContext state) ∧
    (graph.Built → graph.Arises state → type < graph.types.size → ∀ demand waiting,
      graph.Steps (graph.call ⟨demand, type, state⟩ waiting)
        ⟨⟨demand, type, state⟩, .done (graph.lookup demand type state), waiting⟩) := by
  refine ⟨fun depth ↦ ⟨(foremost_lookupWithin depth type state).found,
    (orderly_lookupWithin depth .every type state).context,
    (orderly_lookupWithin depth .first type state).context⟩, ?_⟩
  intro hbuilt hstate htype demand waiting
  refine steps_lookupWithin hbuilt.closed (hstate.admits hbuilt htype demand) ?_ waiting
  rw [searchDepth]
  omega

/-- An index of all files is made in the root and again in the store that it includes. -/
def shelves : Graph where
  types := (((TypeTable.empty.intern (.nominal "File")).2.intern (.generic "Set" [0])).2.intern
    (.nominal "Index")).2.intern (.generic "Set" [2]) |>.2
  modules := [⟨"Root", ⟨"root.ts"⟩, [0], [1], []⟩, ⟨"Store", ⟨"store.ts"⟩, [1, 2], [], []⟩]
  providers := [⟨"catalog", 0, [1], 2, false⟩, ⟨"register", 1, [1], 2, false⟩,
    ⟨"file", 1, [], 0, false⟩]
  components := []

theorem shelves_built : shelves.Built := by
  have htypes := (((Built.empty.intern (.nominal "File") (by decide)).intern (.generic "Set" [0])
    (by decide)).intern (.nominal "Index") (by decide)).intern (.generic "Set" [2]) (by decide)
  have hroot := htypes.addModule "Root" ⟨"root.ts"⟩ rfl
  have hstore := hroot.addModule "Store" ⟨"store.ts"⟩ rfl
  have hcatalog := hstore.addProvider 0 "catalog" [1] 2 false (by decide) (by decide) (by decide)
  have hregister := hcatalog.addProvider 1 "register" [1] 2 false (by decide) (by decide)
    (by decide)
  have hfile := hregister.addProvider 1 "file" [] 0 false (by decide) (by decide) (by decide)
  exact hfile.addInclude 0 1 (by decide) (by decide)

def shelvesIndex (owner : ModuleId) (provider : ProviderId) (id : SetId) : Plan :=
  .provide 2 owner provider [.collect id 1 owner [.provide 0 1 2 [] false] false] false

/-- The set of all indexes has number 0.  The first index takes set 1, and a search for every index
goes on to set 2. -/
theorem shelves_first_eq_head :
    let state : Search := ⟨[0], [(0, 3)], 1⟩
    shelves.Built ∧ shelves.Arises state ∧ 2 < shelves.types.size ∧
      shelves.lookup .every 2 state =
        ([shelvesIndex 0 0 1, shelvesIndex 1 1 2], ⟨[0], [(0, 3)], 3⟩) ∧
      (shelves.lookup .first 2 state).2.nextSet = 2 ∧
      (shelves.lookup .first 2 state).1 = [shelvesIndex 0 0 1] ∧
      (shelves.lookup .first 2 state).2.SameContext state ∧
      ∀ demand waiting, shelves.Steps (shelves.call ⟨demand, 2, state⟩ waiting)
        ⟨⟨demand, 2, state⟩, .done (shelves.lookup demand 2 state), waiting⟩ := by
  intro state
  have harises : shelves.Arises state :=
    ⟨.start, 0, 3, _, .fresh, by decide, by decide, .single rfl, rfl⟩
  have hevery : shelves.lookup .every 2 state =
      ([shelvesIndex 0 0 1, shelvesIndex 1 1 2], ⟨[0], [(0, 3)], 3⟩) := by cbv
  have hcount : (shelves.lookup .first 2 state).2.nextSet = 2 := by cbv
  obtain ⟨hdepth, hcalls⟩ := first_eq_head_every shelves 2 state
  obtain ⟨hfound, -, hcontext⟩ := hdepth shelves.searchDepth
  have hfirst : (shelves.lookup .first 2 state).1 = [shelvesIndex 0 0 1] := by
    refine hfound.trans ?_
    rw [← lookup, hevery]
    rfl
  exact ⟨shelves_built, harises, by decide, hevery, hcount, hfirst, hcontext,
    hcalls shelves_built harises (by decide)⟩

end Graph

end Wiring
