import Wiring.Proofs.Search.Foremost
import Wiring.Proofs.Search.Produced

/-!
# Numbers of sets

An engine numbers a set before it collects its elements and never numbers back, whatever becomes of
the set.  So however many requests it is asked, no two sets in all its answers have one number, and
a set has a smaller number than all sets inside of it.
-/

namespace Wiring

/-- Every set of the plan has a smaller number than the sets below it. -/
def Plan.SetsAscend (plan : Plan) : Prop :=
  ∀ node ∈ plan.walk, ∀ id, node.key = .collect id → ∀ child ∈ node.children,
    ∀ below ∈ child.setIds, id < below

theorem Plan.setsAscend_provide {type : TypeId} {owner : ModuleId} {id : ProviderId}
    {arguments : List Plan} {async : Bool} (h : ∀ argument ∈ arguments, argument.SetsAscend) :
    (Plan.provide type owner id arguments async).SetsAscend := by
  intro node hnode number hkey
  rcases Plan.mem_walk.mp hnode with rfl | ⟨argument, hargument, hnode⟩
  · exact PlanKey.noConfusion hkey
  · exact h argument hargument node hnode number hkey

theorem Plan.setsAscend_collect {id : SetId} {type : TypeId} {owner : ModuleId}
    {elements : List Plan} {async : Bool} (h : ∀ element ∈ elements, element.SetsAscend)
    (hlater : ∀ below ∈ elements.flatMap Plan.setIds, id < below) :
    (Plan.collect id type owner elements async).SetsAscend := by
  intro node hnode number hkey
  rcases Plan.mem_walk.mp hnode with rfl | ⟨element, helement, hnode⟩
  · obtain rfl := PlanKey.collect.inj hkey
    exact fun child hchild below hbelow ↦
      hlater below (List.mem_flatMap.mpr ⟨child, hchild, hbelow⟩)
  · exact h element helement node hnode number hkey

namespace Graph

variable {graph : Graph}

theorem setsAscend_of_mem_lookupWithin {depth : ℕ} {demand : Demand} {type : TypeId}
    {state : Search} {plan : Plan} (h : plan ∈ (graph.lookupWithin depth demand type state).1) :
    plan.SetsAscend := by
  induction depth generalizing demand type state plan with
  | zero => exact (List.not_mem_nil h).elim
  | succ depth ih =>
      obtain ⟨owner, enclosing, -, -, hfound⟩ :=
        foundBy_of_mem_lookupStep (orderly_lookupWithin depth) h
      cases hfound with
      | provide declared serves chosen =>
          refine Plan.setsAscend_provide fun argument hargument ↦ ?_
          obtain ⟨hlength, heach⟩ := List.forall₂_iff_zip.mp chosen
          obtain ⟨parameter, hpair⟩ := exists_mem_zip_of_mem_right hlength hargument
          obtain ⟨_, hmem⟩ := heach hpair
          exact ih hmem
      | @collect element id elements container found =>
          -- The elements are looked up when the number of the set has been handed out.
          have horderly : Orderly (graph.lookupWithin depth .every element) :=
            orderly_lookupWithin depth .every element
          refine Plan.setsAscend_collect (fun plan hplan ↦ ih (found ▸ hplan)) fun below hbelow ↦ ?_
          rw [found] at hbelow
          exact ((horderly _).numbered.bounds below hbelow).1
      | «include» visible found => exact ih found
      | enclose required found => exact ih found

/-- The candidates for requests that one engine is asked one after the other. -/
def candidatesInTurn (graph : Graph) : List (ModuleId × TypeId) → Search → List (List Plan) × Search
  | [], state => ([], state)
  | (root, type) :: requests, state =>
    let (found, state) := graph.candidates root type state
    let (rest, state) := candidatesInTurn graph requests state
    (found :: rest, state)

theorem numbered_candidatesInTurn (requests : List (ModuleId × TypeId)) (state : Search) :
    state.nextSet ≤ (graph.candidatesInTurn requests state).2.nextSet ∧
    Numbered state.nextSet (graph.candidatesInTurn requests state).2.nextSet
      (graph.candidatesInTurn requests state).1.flatten := by
  induction requests generalizing state with
  | nil => exact ⟨Nat.le_refl _, .nil⟩
  | cons request requests ih =>
      have htidy := graph.tidy_candidates request.1 request.2 state
      obtain ⟨hle, hrest⟩ := ih (graph.candidates request.1 request.2 state).2
      exact ⟨htidy.nextSet_le.trans hle, htidy.numbered.append hrest htidy.nextSet_le hle⟩

theorem setsAscend_candidatesInTurn (requests : List (ModuleId × TypeId)) (state : Search) :
    ∀ plan ∈ (graph.candidatesInTurn requests state).1.flatten, plan.SetsAscend := by
  induction requests generalizing state with
  | nil => exact List.forall_mem_nil _
  | cons request requests ih =>
      have hfirst : ∀ plan ∈ (graph.lookupWithin graph.searchDepth .every request.2
          { state with stack := [request.1] }).1, plan.SetsAscend :=
        fun plan hplan ↦ setsAscend_of_mem_lookupWithin hplan
      exact List.forall_mem_append.mpr ⟨hfirst, ih _⟩

/-- The numbers of sets are never used again.  Of all plans that a new engine gives in answer to a
sequence of requests, the sets at any depth have pairwise different numbers, each one smaller than
the engine's count in the end, and the number of a set is smaller than those of the sets below. -/
theorem setIds_candidatesInTurn (graph : Graph) (requests : List (ModuleId × TypeId)) :
    let answers := graph.candidatesInTurn requests .start
    (answers.1.flatten.flatMap Plan.setIds).Nodup ∧
    (∀ id ∈ answers.1.flatten.flatMap Plan.setIds, id < answers.2.nextSet) ∧
    ∀ found ∈ answers.1, ∀ plan ∈ found, ∀ node ∈ plan.walk, ∀ id, node.key = .collect id →
      ∀ child ∈ node.children, ∀ below ∈ child.walk, ∀ other, below.key = .collect other →
        id < other := by
  intro answers
  have hnumbered : Numbered 0 answers.2.nextSet answers.1.flatten :=
    (numbered_candidatesInTurn requests .start).2
  refine ⟨hnumbered.nodup, fun id hid ↦ (hnumbered.bounds id hid).2, ?_⟩
  intro found hfound plan hplan node hnode id hkey child hchild below hbelow other hother
  have hascend := setsAscend_candidatesInTurn requests .start plan
    (List.mem_flatten.mpr ⟨found, hfound, hplan⟩)
  exact hascend node hnode id hkey child hchild other (Plan.mem_setIds.mpr ⟨below, hbelow, hother⟩)

/-- The sets of all indexes, which the root and the store find, and then the indexes again. -/
def shelvesAnswers : List (List Plan) :=
  [[.collect 0 3 0 [shelvesIndex 0 0 1, shelvesIndex 1 1 2] false,
    .collect 3 3 1 [shelvesIndex 1 1 4] false], [shelvesIndex 0 0 5, shelvesIndex 1 1 6]]

/-- The second index of the first set has another set inside of it. -/
theorem shelves_setIds :
    shelves.candidatesInTurn [(0, 3), (0, 2)] .start = (shelvesAnswers, ⟨[], [], 7⟩) ∧
    shelvesAnswers.flatten.flatMap Plan.setIds = [0, 1, 2, 3, 4, 5, 6] ∧
    (shelvesAnswers.flatten.flatMap Plan.setIds).Nodup ∧
    (∀ id ∈ shelvesAnswers.flatten.flatMap Plan.setIds, id < 7) ∧
    ∃ found ∈ shelvesAnswers, ∃ plan ∈ found, ∃ node ∈ plan.walk, node.key = .collect 0 ∧
      ∃ child ∈ node.children, ∃ below ∈ child.walk, below.key = .collect 2 ∧ 0 < 2 := by
  have hanswers : shelves.candidatesInTurn [(0, 3), (0, 2)] .start =
      (shelvesAnswers, ⟨[], [], 7⟩) := by cbv
  obtain ⟨hnodup, hbound, hascend⟩ := setIds_candidatesInTurn shelves [(0, 3), (0, 2)]
  rw [hanswers] at hnodup hbound hascend
  have hchild := List.mem_cons_of_mem (shelvesIndex 0 0 1)
    (List.mem_singleton_self (shelvesIndex 1 1 2))
  have hbelow : Plan.collect 2 1 1 [.provide 0 1 2 [] false] false ∈ (shelvesIndex 1 1 2).walk :=
    List.mem_cons_of_mem _ List.mem_cons_self
  have hless := hascend _ List.mem_cons_self _ List.mem_cons_self _ (Plan.self_mem_walk _) 0 rfl
    _ hchild _ hbelow 2 rfl
  exact ⟨hanswers, rfl, hnodup, hbound, _, List.mem_cons_self, _, List.mem_cons_self, _,
    Plan.self_mem_walk _, rfl, _, hchild, _, hbelow, rfl, hless⟩

end Graph

end Wiring
