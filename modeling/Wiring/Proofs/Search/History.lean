import Wiring.Proofs.Search.WellTyped

/-!
# Requests one after the other

A search hands out numbers for sets and keeps nothing else of the requests that it has answered.
Asked again later, it takes the same course and numbers its sets from where it has come to.
-/

namespace Wiring

mutual

/-- The plan with other numbers for its sets. -/
def Plan.mapSets (f : SetId → SetId) : Plan → Plan
  | .provide type owner provider arguments async =>
    .provide type owner provider (Plan.mapSetsAll f arguments) async
  | .collect id type owner elements async =>
    .collect (f id) type owner (Plan.mapSetsAll f elements) async

def Plan.mapSetsAll (f : SetId → SetId) : List Plan → List Plan
  | [] => []
  | plan :: plans => Plan.mapSets f plan :: Plan.mapSetsAll f plans

end

theorem Plan.mapSetsAll_eq_map (f : SetId → SetId) (plans : List Plan) :
    Plan.mapSetsAll f plans = plans.map (Plan.mapSets f) := by
  induction plans with
  | nil => rfl
  | cons plan plans ih => rw [Plan.mapSetsAll, ih, List.map_cons]

@[simp] theorem Plan.isAsync_mapSets (f : SetId → SetId) (plan : Plan) :
    (plan.mapSets f).isAsync = plan.isAsync := by
  cases plan <;> rfl

theorem any_isAsync_mapSets (f : SetId → SetId) (plans : List Plan) :
    (plans.map (Plan.mapSets f)).any Plan.isAsync = plans.any Plan.isAsync := by
  rw [List.any_map]
  exact congrArg plans.any (funext (Plan.isAsync_mapSets f))

/-- The state of a search that has handed out so many numbers before. -/
def Search.later (served : ℕ) (state : Search) : Search :=
  { state with nextSet := served + state.nextSet }

/-- Run after so many numbers have been handed out, the probe does what it does without them, and
gives its sets later numbers. -/
def Probe.Indifferent (served : ℕ) (probe : Probe) : Prop :=
  ∀ state, probe (state.later served) =
    ((probe state).1.map (Plan.mapSets (served + ·)), (probe state).2.later served)

def Lookup.Indifferent (served : ℕ) (lookup : Lookup) : Prop :=
  ∀ demand type, Probe.Indifferent served (lookup demand type)

variable {served : ℕ}

theorem Demand.isMet_mapSets (demand : Demand) (f : SetId → SetId) (plans : List Plan) :
    demand.isMet (plans.map (Plan.mapSets f)) = demand.isMet plans := by
  cases demand with
  | every => rfl
  | first => rw [Demand.isMet, Demand.isMet, List.isEmpty_map]

theorem indifferent_inOrder (demand : Demand) {probes : List Probe}
    (h : ∀ probe ∈ probes, Probe.Indifferent served probe) :
    Probe.Indifferent served (inOrder demand probes) := by
  induction probes with
  | nil => exact fun _ ↦ rfl
  | cons probe probes ih =>
      intro state
      have hprobe := h probe List.mem_cons_self state
      have hprobes := ih fun other hother ↦ h other (List.mem_cons_of_mem _ hother)
      rw [inOrder_cons, inOrder_cons, hprobe, Demand.isMet_mapSets]
      split_ifs
      · rfl
      · rw [hprobes, List.map_append]

namespace Graph

variable {graph : Graph} {lookup : Lookup}

theorem indifferent_chooseArguments (h : Lookup.Indifferent served lookup) (types : List TypeId)
    (state : Search) :
    chooseArguments lookup types (state.later served) =
      ((chooseArguments lookup types state).1.map (List.map (Plan.mapSets (served + ·))),
        (chooseArguments lookup types state).2.later served) := by
  induction types generalizing state with
  | nil => rfl
  | cons type types ih =>
      rw [chooseArguments_cons, chooseArguments_cons, h .first type state, List.head?_map]
      cases (lookup .first type state).1.head? with
      | none => rfl
      | some plan =>
          dsimp only [Option.map_some]
          rw [ih, Option.map_map, Option.map_map]
          rfl

theorem indifferent_providerProbe (h : Lookup.Indifferent served lookup) (type : TypeId)
    (owner : ModuleId) (id : ProviderId) :
    Probe.Indifferent served (graph.providerProbe lookup type owner id) := by
  intro state
  rw [providerProbe, providerProbe]
  dsimp only
  split_ifs
  · rw [indifferent_chooseArguments h]
    cases (chooseArguments lookup (graph.getProvider id).parameters state).1 with
    | none => rfl
    | some plans =>
        dsimp only [Option.map_some]
        rw [any_isAsync_mapSets, List.map_singleton, Plan.mapSets, Plan.mapSetsAll_eq_map]
  · rfl

theorem indifferent_setProbe (h : Lookup.Indifferent served lookup) (type : TypeId)
    (owner : ModuleId) : Probe.Indifferent served (graph.setProbe lookup type owner) := by
  intro state
  rw [setProbe, setProbe]
  cases graph.types.setElement? type with
  | none => rfl
  | some element =>
      have hcollect := h .every element { state with nextSet := state.nextSet + 1 }
      simp only [Search.later] at hcollect ⊢
      rw [Nat.add_assoc, hcollect]
      dsimp only
      rw [any_isAsync_mapSets, List.map_singleton, Plan.mapSets, Plan.mapSetsAll_eq_map]

theorem indifferent_includeProbe (h : Lookup.Indifferent served lookup) (demand : Demand)
    (type : TypeId) (included : ModuleId) :
    Probe.Indifferent served (includeProbe lookup demand type included) := by
  intro state
  have hinside : lookup demand type
      { state.later served with stack := included :: (state.later served).stack } = _ :=
    h demand type { state with stack := included :: state.stack }
  rw [includeProbe, includeProbe, hinside]
  rfl

theorem indifferent_enclosingProbe (h : Lookup.Indifferent served lookup) (demand : Demand)
    (type : TypeId) (owner : ModuleId) :
    Probe.Indifferent served (graph.enclosingProbe lookup demand type owner) := by
  intro state
  obtain ⟨stack, guarded, nextSet⟩ := state
  simp only [enclosingProbe, Search.later]
  split_ifs
  · cases stack with
    | nil => rfl
    | cons current enclosing =>
        have houtside := h demand type ⟨enclosing, guarded, nextSet⟩
        rw [Search.later] at houtside
        simp only [houtside]
        rfl
  · rfl

theorem indifferent_rules (h : Lookup.Indifferent served lookup) (demand : Demand)
    (type : TypeId) (owner : ModuleId) :
    ∀ probe ∈ graph.rules lookup demand type owner, Probe.Indifferent served probe := by
  intro probe hprobe
  obtain ⟨id, _, rfl⟩ | rfl | ⟨included, _, rfl⟩ | rfl := mem_rules.mp hprobe
  · exact indifferent_providerProbe h type owner id
  · exact indifferent_setProbe h type owner
  · exact indifferent_includeProbe h demand type included
  · exact indifferent_enclosingProbe h demand type owner

theorem indifferent_lookupStep (h : Lookup.Indifferent served lookup) :
    Lookup.Indifferent served (graph.lookupStep lookup) := by
  intro demand type state
  obtain ⟨stack, guarded, nextSet⟩ := state
  cases stack with
  | nil => rfl
  | cons owner enclosing =>
      have hrules : ∀ probe ∈ graph.rules lookup demand type owner, probe.Indifferent served :=
        indifferent_rules h demand type owner
      have hinside := indifferent_inOrder demand hrules
        ⟨owner :: enclosing, (owner, type) :: guarded, nextSet⟩
      rw [Search.later] at hinside
      simp only [lookupStep, Search.later, hinside]
      split_ifs
      · rfl
      · rfl

theorem indifferent_lookupWithin (depth : ℕ) :
    Lookup.Indifferent served (graph.lookupWithin depth) := by
  induction depth with
  | zero => exact fun _ _ _ ↦ rfl
  | succ depth ih => exact indifferent_lookupStep ih

theorem candidates_later (served : ℕ) (root : ModuleId) (type : TypeId) :
    Probe.Indifferent served (graph.candidates root type) := by
  intro state
  have hfound : graph.lookup .every type { state.later served with stack := [root] } = _ :=
    indifferent_lookupWithin graph.searchDepth .every type { state with stack := [root] }
  rw [candidates, candidates, hfound]
  rfl

/-- What an engine was asked before does not matter: it finds what a fresh engine finds, the
numbers of the sets counted on from those that it has handed out.  After the request it is inside
no module and guards nothing.  Every part of the request, run to its end or stopped at its first
plan, leaves the stack of modules and the guarded requests as it found them. -/
theorem candidates_of_idle {state : Search} (hidle : graph.Idle state) (root : ModuleId)
    (type : TypeId) :
    (graph.candidates root type state).1 =
      (graph.candidates root type .start).1.map (Plan.mapSets (state.nextSet + ·)) ∧
    (graph.candidates root type state).2 =
      ⟨[], [], state.nextSet + (graph.candidates root type .start).2.nextSet⟩ ∧
    ∀ depth demand requested inner,
      (graph.lookupWithin depth demand requested inner).2.stack = inner.stack ∧
      (graph.lookupWithin depth demand requested inner).2.guarded = inner.guarded := by
  have hstart : ({ state with stack := [] } : Search) = Search.start.later state.nextSet := by
    rw [Search.later, hidle.guarded_eq_nil]
    rfl
  have hsame : graph.candidates root type state = graph.candidates root type
      { state with stack := [] } := rfl
  have hlater : graph.candidates root type (Search.start.later state.nextSet) = _ :=
    candidates_later state.nextSet root type .start
  have hfresh := (graph.tidy_candidates root type .start).context
  rw [hsame, hstart, hlater]
  refine ⟨rfl, ?_, fun depth demand requested inner ↦
    (orderly_lookupWithin depth demand requested inner).context⟩
  rw [Search.later, hfresh.1, hfresh.2]
  rfl

theorem gathering_candidates_again :
    gathering.Idle (gathering.candidates 0 3 .start).2 ∧
    (gathering.candidates 0 3 (gathering.candidates 0 3 .start).2).1 =
      [gatheringPlan].map (Plan.mapSets (1 + ·)) ∧
    (gathering.candidates 0 3 (gathering.candidates 0 3 .start).2).2 = ⟨[], [], 2⟩ := by
  have hidle : gathering.Idle (gathering.candidates 0 3 .start).2 := .served .fresh 0 3
  have hserved : (gathering.candidates 0 3 .start).2.nextSet = 1 := by cbv
  obtain ⟨hfound, hleft, -⟩ := candidates_of_idle hidle 0 3
  rw [hserved, gathering_candidates] at hfound
  rw [hserved] at hleft
  exact ⟨hidle, hfound, hleft⟩

end Graph

end Wiring
