import Mathlib.Data.List.Lemmas
import Wiring.Proofs.Graph.Built
import Wiring.Proofs.Lists
import Wiring.Proofs.Search.Produced

/-!
# Which types have a plan

A request is derivable when the rules lead to a plan for it without meeting the same request twice
on the way.  A search with enough depth left finds a plan for every derivable request, and the
depth that a search starts with is enough.
-/

namespace Wiring

theorem inOrder_ne_nil {demand : Demand} {probes : List Probe} {state : Search}
    (horderly : ∀ probe ∈ probes, Orderly probe) {probe : Probe} (hprobe : probe ∈ probes)
    (hfinds : ∀ start : Search, start.SameContext state → (probe start).1 ≠ []) :
    (inOrder demand probes state).1 ≠ [] := by
  induction probes generalizing state with
  | nil => exact (List.not_mem_nil hprobe).elim
  | cons first probes ih =>
      rw [inOrder_cons]
      split_ifs with hmet
      · intro hnil
        cases demand <;> simp [Demand.isMet, hnil] at hmet
      · rcases List.mem_cons.mp hprobe with rfl | hrest
        · exact List.append_ne_nil_of_left_ne_nil (hfinds state (.refl state)) _
        · have hcontext := (horderly first List.mem_cons_self state).context
          refine List.append_ne_nil_of_right_ne_nil _ (ih ?_ hrest fun start hstart ↦ ?_)
          · exact fun other hother ↦ horderly other (List.mem_cons_of_mem _ hother)
          · exact hfinds start (hstart.trans hcontext)

namespace Graph

variable {graph : Graph} {lookup : Lookup}

theorem chooseArguments_ne_none (horderly : ∀ demand type, Orderly (lookup demand type))
    {types : List TypeId} {state : Search}
    (hfinds : ∀ type ∈ types, ∀ start : Search, start.SameContext state →
      (lookup .first type start).1 ≠ []) :
    (chooseArguments lookup types state).1 ≠ none := by
  induction types generalizing state with
  | nil => exact Option.some_ne_none []
  | cons type types ih =>
      rw [chooseArguments_cons]
      split
      · next hnone =>
          have hnil := List.head?_eq_none_iff.mp hnone
          exact (hfinds type List.mem_cons_self state (.refl state) hnil).elim
      · have hcontext := (horderly .first type state).context
        have hrest := ih fun other hother start hstart ↦
          hfinds other (List.mem_cons_of_mem _ hother) start (hstart.trans hcontext)
        simpa using hrest

/-- The requests of a type inside a stack of modules for which the rules lead to a plan that meets
none of the visited requests. -/
inductive Derivable (graph : Graph) :
    List ModuleId → TypeId → Set (ModuleId × TypeId) → Prop where
  | provider {owner : ModuleId} {enclosing : List ModuleId} {type : TypeId}
      {visited : Set (ModuleId × TypeId)} {id : ProviderId}
      (fresh : (owner, type) ∉ visited)
      (declared : id ∈ (graph.getModule owner).providers)
      (matching : graph.types.isEquivalent (graph.getProvider id).returns type = true ∨
        graph.types.isEquivalent (graph.getProvider id).returns
          (graph.types.awaited type) = true ∨
        graph.types.isEquivalent (graph.types.awaited (graph.getProvider id).returns)
          type = true)
      (parameters : ∀ parameter ∈ (graph.getProvider id).parameters,
        Derivable graph (owner :: enclosing) parameter (insert (owner, type) visited)) :
      Derivable graph (owner :: enclosing) type visited
  | set {owner : ModuleId} {enclosing : List ModuleId} {type : TypeId}
      {visited : Set (ModuleId × TypeId)}
      (fresh : (owner, type) ∉ visited)
      (container : (graph.types.setElement? type).isSome = true) :
      Derivable graph (owner :: enclosing) type visited
  | included {owner included : ModuleId} {enclosing : List ModuleId} {type : TypeId}
      {visited : Set (ModuleId × TypeId)}
      (fresh : (owner, type) ∉ visited)
      (visible : included ∈ (graph.getModule owner).includes)
      (below : Derivable graph (included :: owner :: enclosing) type
        (insert (owner, type) visited)) :
      Derivable graph (owner :: enclosing) type visited
  | enclosing {owner : ModuleId} {enclosing : List ModuleId} {type : TypeId}
      {visited : Set (ModuleId × TypeId)}
      (fresh : (owner, type) ∉ visited)
      (required : type ∈ (graph.getModule owner).requires)
      (outside : Derivable graph enclosing type (insert (owner, type) visited)) :
      Derivable graph (owner :: enclosing) type visited

theorem serves_iff {returns requested : TypeId} :
    graph.serves returns requested = true ↔
      graph.types.isEquivalent returns requested = true ∨
        graph.types.isEquivalent returns (graph.types.awaited requested) = true ∨
        graph.types.isEquivalent (graph.types.awaited returns) requested = true := by
  simp only [serves, Bool.or_eq_true, or_assoc]

theorem Produces.derivable {stack : List ModuleId} {guarded : List (ModuleId × TypeId)}
    {type : TypeId} {plan : Plan} (h : graph.Produces stack guarded type plan) :
    graph.Derivable stack type {pair | pair ∈ guarded} := by
  induction h with
  | provide fresh declared serves length _ ih =>
      refine .provider fresh declared (serves_iff.mp serves) fun parameter hparameter ↦ ?_
      obtain ⟨argument, hpair⟩ := exists_mem_zip_of_mem_left length hparameter
      rw [← List.setOfPred_mem_cons]
      exact ih _ hpair
  | collect fresh container _ _ => exact .set fresh (Option.isSome_of_eq_some container)
  | «include» fresh visible _ ih =>
      rw [List.setOfPred_mem_cons] at ih
      exact .included fresh visible ih
  | enclose fresh required _ ih =>
      rw [List.setOfPred_mem_cons] at ih
      exact .enclosing fresh required ih

/-- A search is inside modules of the graph, guards different requests of the graph, and has more
depth left than there are requests that it does not guard. -/
structure Ready (graph : Graph) (depth : ℕ) (state : Search) : Prop where
  stack : ∀ id ∈ state.stack, id < graph.modules.length
  guarded : DistinctBelow graph.modules.length graph.types.size state.guarded
  depth : graph.modules.length * graph.types.size < depth + state.guarded.length

namespace Ready

variable {depth : ℕ} {state start : Search} {owner : ModuleId} {enclosing : List ModuleId}
  {type : TypeId}

theorem guarding (h : graph.Ready (depth + 1) state) (hstack : state.stack = owner :: enclosing)
    (htype : type < graph.types.size) (hfresh : (owner, type) ∉ state.guarded) :
    graph.Ready depth (guarding state owner type) where
  stack := h.stack
  guarded := h.guarded.cons (h.stack owner (hstack ▸ List.mem_cons_self)) htype hfresh
  depth := by
    have hdepth := h.depth
    simp only [Graph.guarding, List.length_cons]
    omega

theorem exists_depth (h : graph.Ready depth state) : ∃ rest, depth = rest + 1 := by
  have hdepth := h.depth
  have hlength := h.guarded.length_le
  exact ⟨depth - 1, by omega⟩

theorem of_guarded_eq (h : graph.Ready depth state) (hguarded : start.guarded = state.guarded)
    (hstack : ∀ id ∈ start.stack, id < graph.modules.length) : graph.Ready depth start where
  stack := hstack
  guarded := hguarded ▸ h.guarded
  depth := hguarded ▸ h.depth

theorem of_sameContext (h : graph.Ready depth state) (hstart : start.SameContext state) :
    graph.Ready depth start :=
  h.of_guarded_eq hstart.2 (hstart.1 ▸ h.stack)

theorem withStack (h : graph.Ready depth state) {stack : List ModuleId}
    (hstack : ∀ id ∈ stack, id < graph.modules.length) :
    graph.Ready depth { state with stack := stack } :=
  h.of_guarded_eq rfl hstack

end Ready

theorem lookupStep_ne_nil (horderly : ∀ demand type, Orderly (lookup demand type))
    {demand : Demand} {type : TypeId} {state : Search} {owner : ModuleId}
    {enclosing : List ModuleId} (hstack : state.stack = owner :: enclosing)
    (hfresh : (owner, type) ∉ state.guarded) {probe : Probe}
    (hprobe : probe ∈ graph.rules lookup demand type owner)
    (hfinds : ∀ start : Search, start.SameContext (guarding state owner type) →
      (probe start).1 ≠ []) :
    (graph.lookupStep lookup demand type state).1 ≠ [] := by
  rw [lookupStep_of_fresh hstack hfresh]
  exact inOrder_ne_nil (orderly_rules horderly demand type owner) hprobe hfinds

theorem setOf_mem_of_eq_cons {pair : ModuleId × TypeId} {guarded more : List (ModuleId × TypeId)}
    (h : more = pair :: guarded) :
    {other | other ∈ more} = insert pair {other | other ∈ guarded} := by
  rw [h, List.setOfPred_mem_cons]

theorem lookupWithin_ne_nil (hclosed : graph.Closed) {stack : List ModuleId} {type : TypeId}
    {visited : Set (ModuleId × TypeId)} (h : graph.Derivable stack type visited) {depth : ℕ}
    {state : Search} (hready : graph.Ready depth state) (htype : type < graph.types.size)
    (hstack : state.stack = stack) (hvisited : {pair | pair ∈ state.guarded} = visited)
    (demand : Demand) : (graph.lookupWithin depth demand type state).1 ≠ [] := by
  induction h generalizing depth state demand with
  | @provider owner enclosing type visited id fresh declared matching _ ih =>
      subst hvisited
      obtain ⟨depth, rfl⟩ := hready.exists_depth
      have hbelow := hready.guarding hstack htype fresh
      have hprobe : graph.providerProbe (graph.lookupWithin depth) type owner id ∈
          graph.rules (graph.lookupWithin depth) demand type owner :=
        mem_rules.mpr (Or.inl ⟨id, declared, rfl⟩)
      refine lookupStep_ne_nil (orderly_lookupWithin depth) hstack fresh hprobe ?_
      intro start hstart
      have harguments : (chooseArguments (graph.lookupWithin depth)
          (graph.getProvider id).parameters start).1 ≠ none := by
        refine chooseArguments_ne_none (orderly_lookupWithin depth) ?_
        intro parameter hparameter inner hinner
        have hcontext := hinner.trans hstart
        exact ih parameter hparameter (hbelow.of_sameContext hcontext)
          (hclosed.parameters_lt id parameter hparameter) (hcontext.1.trans hstack)
          (setOf_mem_of_eq_cons hcontext.2) _
      obtain ⟨arguments, hsome⟩ := Option.ne_none_iff_exists'.mp harguments
      simp [providerProbe, serves_iff.mpr matching, hsome]
  | set fresh container =>
      subst hvisited
      obtain ⟨depth, rfl⟩ := hready.exists_depth
      obtain ⟨element, helement⟩ := Option.isSome_iff_exists.mp container
      refine lookupStep_ne_nil (orderly_lookupWithin depth) hstack fresh
        (mem_rules.mpr (Or.inr (Or.inl rfl))) ?_
      intro start _
      simp [setProbe, helement]
  | @included owner included enclosing type visited fresh visible _ ih =>
      subst hvisited
      obtain ⟨depth, rfl⟩ := hready.exists_depth
      have hbelow := hready.guarding hstack htype fresh
      refine lookupStep_ne_nil (orderly_lookupWithin depth) hstack fresh
        (mem_rules.mpr (Or.inr (Or.inr (Or.inl ⟨included, visible, rfl⟩)))) ?_
      intro start hstart
      have hmodules : ∀ id ∈ included :: start.stack, id < graph.modules.length :=
        List.forall_mem_cons.mpr ⟨hclosed.includes_lt owner included visible,
          (hbelow.of_sameContext hstart).stack⟩
      have hinside := congrArg (included :: ·) (hstart.1.trans hstack)
      exact ih ((hbelow.of_sameContext hstart).withStack hmodules) htype hinside
        (setOf_mem_of_eq_cons hstart.2) demand
  | @enclosing owner enclosing type visited fresh required _ ih =>
      subst hvisited
      obtain ⟨depth, rfl⟩ := hready.exists_depth
      have hbelow := hready.guarding hstack htype fresh
      refine lookupStep_ne_nil (orderly_lookupWithin depth) hstack fresh
        (mem_rules.mpr (Or.inr (Or.inr (Or.inr rfl)))) ?_
      intro start hstart
      have hcontext : start.stack = owner :: enclosing := hstart.1.trans hstack
      have hmodules : ∀ id ∈ enclosing, id < graph.modules.length := fun other hother ↦
        hready.stack other (hstack ▸ List.mem_cons_of_mem _ hother)
      have hfound := ih ((hbelow.of_sameContext hstart).withStack hmodules) htype rfl
        (setOf_mem_of_eq_cons hstart.2) demand
      simpa [enclosingProbe, required, hcontext] using hfound

/-- The states of an engine between two requests. -/
inductive Idle (graph : Graph) : Search → Prop where
  | fresh : Idle graph .start
  | served {state : Search} (idle : Idle graph state) (root : ModuleId) (type : TypeId) :
      Idle graph (graph.candidates root type state).2

theorem Idle.guarded_eq_nil {state : Search} (h : graph.Idle state) : state.guarded = [] := by
  induction h with
  | fresh => rfl
  | @served state _ root type ih => exact (graph.tidy_candidates root type state).context.2.trans ih

/-- The depth that a search starts with is enough. -/
theorem ready_root {state : Search} (hstate : state.guarded = []) {root : ModuleId}
    (hroot : root < graph.modules.length) :
    graph.Ready graph.searchDepth { state with stack := [root] } := by
  refine ⟨by simpa using hroot, ?_, ?_⟩
  · rw [hstate]
    exact .nil
  · rw [searchDepth]
    omega

theorem candidates_ne_nil_iff (hclosed : graph.Closed) {state : Search}
    (hstate : state.guarded = []) {root : ModuleId} {type : TypeId}
    (hroot : root < graph.modules.length) (htype : type < graph.types.size) :
    (graph.candidates root type state).1 ≠ [] ↔ graph.Derivable [root] type ∅ := by
  have hempty : {pair | pair ∈ state.guarded} = ∅ :=
    List.setOfPred_mem_eq_empty_iff.mpr hstate
  constructor
  · intro hfound
    obtain ⟨plan, hplan⟩ := List.exists_mem_of_ne_nil _ hfound
    have hderivable := (produces_of_mem_candidates hplan).derivable
    rwa [hempty] at hderivable
  · intro h
    exact lookupWithin_ne_nil hclosed h (ready_root hstate hroot) htype rfl hempty .every

end Graph

end Wiring
