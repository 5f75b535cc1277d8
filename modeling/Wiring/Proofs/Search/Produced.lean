import Wiring.Proofs.Lists
import Wiring.Proofs.Search.Orderly

/-!
# Plans that the rules allow

The rules of the search as a relation between a request and its plans, without the order in which
plans are found and without the numbers of sets.  Every plan that a search finds is allowed.  What
the guard keeps away from a plan is read off the relation: no provider is called below a call of
the same provider.  So is where promises come from: a plan is asynchronous because of the provider
that it calls or because of a plan directly below.
-/

namespace Wiring

theorem exists_of_mem_inOrder {demand : Demand} {probes : List Probe} {state : Search}
    {plan : Plan} (h : ∀ probe ∈ probes, Orderly probe)
    (hplan : plan ∈ (inOrder demand probes state).1) :
    ∃ probe ∈ probes, ∃ start : Search, start.SameContext state ∧ plan ∈ (probe start).1 := by
  induction probes generalizing state with
  | nil => exact (List.not_mem_nil hplan).elim
  | cons probe probes ih =>
      have hfirst : plan ∈ (probe state).1 → ∃ other ∈ probe :: probes,
          ∃ start : Search, start.SameContext state ∧ plan ∈ (other start).1 :=
        fun hmem ↦ ⟨probe, List.mem_cons_self, state, .refl state, hmem⟩
      rw [inOrder_cons] at hplan
      split_ifs at hplan
      · exact hfirst hplan
      · rcases List.mem_append.mp hplan with hmem | hmore
        · exact hfirst hmem
        · obtain ⟨other, hother, start, hstart, hmem⟩ :=
            ih (fun other hother ↦ h other (List.mem_cons_of_mem _ hother)) hmore
          exact ⟨other, List.mem_cons_of_mem _ hother, start,
            hstart.trans (h probe List.mem_cons_self state).context, hmem⟩

namespace Graph

variable {graph : Graph} {lookup : Lookup}

theorem forall₂_chooseArguments (h : ∀ demand type, Orderly (lookup demand type))
    {types : List TypeId} {state : Search} {arguments : List Plan}
    (hchosen : (chooseArguments lookup types state).1 = some arguments) :
    List.Forall₂ (fun type plan ↦ ∃ start : Search, start.SameContext state ∧
      plan ∈ (lookup .first type start).1) types arguments := by
  induction types generalizing state arguments with
  | nil =>
      obtain rfl : [] = arguments := Option.some.inj hchosen
      exact .nil
  | cons type types ih =>
      rw [chooseArguments_cons] at hchosen
      split at hchosen
      · simp at hchosen
      · next plan hplan =>
          obtain ⟨rest, hrest, rfl⟩ := Option.map_eq_some_iff.mp hchosen
          refine .cons ⟨state, .refl state, List.mem_of_mem_head? hplan⟩ ?_
          refine (ih hrest).imp fun other argument hfound ↦ ?_
          obtain ⟨start, hstart, hmem⟩ := hfound
          exact ⟨start, hstart.trans (h .first type state).context, hmem⟩

/-- How a plan comes out of the rules of a request.  What the rules look up, they look up with the
request guarded, at some count of the sets. -/
inductive FoundBy (graph : Graph) (lookup : Lookup) (demand : Demand) (type : TypeId)
    (owner : ModuleId) (enclosing : List ModuleId) (guarded : List (ModuleId × TypeId)) :
    Plan → Prop where
  | provide {id : ProviderId} {arguments : List Plan}
      (declared : id ∈ (graph.getModule owner).providers)
      (serves : graph.serves (graph.getProvider id).returns type = true)
      (chosen : List.Forall₂ (fun parameter argument ↦ ∃ nextSet,
        argument ∈ (lookup .first parameter ⟨owner :: enclosing, guarded, nextSet⟩).1)
        (graph.getProvider id).parameters arguments) :
      FoundBy graph lookup demand type owner enclosing guarded
        (.provide type owner id arguments
          ((graph.getProvider id).deferred || arguments.any Plan.isAsync))
  | collect {element : TypeId} {id : SetId} {elements : List Plan}
      (container : graph.types.setElement? type = some element)
      (found : elements = (lookup .every element ⟨owner :: enclosing, guarded, id + 1⟩).1) :
      FoundBy graph lookup demand type owner enclosing guarded
        (.collect id type owner elements (elements.any Plan.isAsync))
  | include {included : ModuleId} {nextSet : SetId} {plan : Plan}
      (visible : included ∈ (graph.getModule owner).includes)
      (found : plan ∈ (lookup demand type ⟨included :: owner :: enclosing, guarded, nextSet⟩).1) :
      FoundBy graph lookup demand type owner enclosing guarded plan
  | enclose {nextSet : SetId} {plan : Plan}
      (required : type ∈ (graph.getModule owner).requires)
      (found : plan ∈ (lookup demand type ⟨enclosing, guarded, nextSet⟩).1) :
      FoundBy graph lookup demand type owner enclosing guarded plan

theorem foundBy_of_mem_lookupStep (horderly : ∀ demand type, Orderly (lookup demand type))
    {demand : Demand} {type : TypeId} {state : Search} {plan : Plan}
    (hplan : plan ∈ (graph.lookupStep lookup demand type state).1) :
    ∃ owner enclosing, state.stack = owner :: enclosing ∧ (owner, type) ∉ state.guarded ∧
      graph.FoundBy lookup demand type owner enclosing ((owner, type) :: state.guarded) plan := by
  obtain hnothing | ⟨owner, enclosing, hstack, hfresh⟩ :=
    graph.lookupStep_eq_nothing_or lookup demand type state
  · rw [hnothing] at hplan
    exact (List.not_mem_nil hplan).elim
  refine ⟨owner, enclosing, hstack, hfresh, ?_⟩
  rw [lookupStep_of_fresh hstack hfresh] at hplan
  obtain ⟨probe, hprobe, ⟨stack, guarded, nextSet⟩, ⟨hsame, hguarded⟩, hfound⟩ :=
    exists_of_mem_inOrder (orderly_rules horderly demand type owner) hplan
  obtain rfl : stack = owner :: enclosing := hsame.trans hstack
  obtain rfl : guarded = (owner, type) :: state.guarded := hguarded
  obtain ⟨id, hid, rfl⟩ | rfl | ⟨included, hincluded, rfl⟩ | rfl := mem_rules.mp hprobe
  · simp only [providerProbe] at hfound
    split_ifs at hfound with hserves
    · split at hfound
      · exact (List.not_mem_nil hfound).elim
      · next arguments harguments =>
          obtain rfl := List.mem_singleton.mp hfound
          refine .provide hid hserves ((forall₂_chooseArguments horderly harguments).imp ?_)
          rintro parameter argument ⟨⟨_, _, nextSet⟩, ⟨rfl, rfl⟩, hmem⟩
          exact ⟨nextSet, hmem⟩
    · exact (List.not_mem_nil hfound).elim
  · rw [setProbe] at hfound
    split at hfound
    · exact (List.not_mem_nil hfound).elim
    · next element helement =>
        obtain rfl := List.mem_singleton.mp hfound
        exact .collect helement rfl
  · exact .include hincluded hfound
  · rw [enclosingProbe] at hfound
    split_ifs at hfound with hrequired
    · exact .enclose (by simpa using hrequired) hfound
    · exact (List.not_mem_nil hfound).elim

/-! ## The relation -/

/-- The plans for a request of a type inside a stack of modules, while other requests are
guarded. -/
inductive Produces (graph : Graph) :
    List ModuleId → List (ModuleId × TypeId) → TypeId → Plan → Prop where
  | provide {owner : ModuleId} {enclosing : List ModuleId} {guarded : List (ModuleId × TypeId)}
      {type : TypeId} {id : ProviderId} {arguments : List Plan}
      (fresh : (owner, type) ∉ guarded)
      (declared : id ∈ (graph.getModule owner).providers)
      (serves : graph.serves (graph.getProvider id).returns type = true)
      (length : (graph.getProvider id).parameters.length = arguments.length)
      (each : ∀ pair ∈ (graph.getProvider id).parameters.zip arguments,
        Produces graph (owner :: enclosing) ((owner, type) :: guarded) pair.1 pair.2) :
      Produces graph (owner :: enclosing) guarded type
        (.provide type owner id arguments
          ((graph.getProvider id).deferred || arguments.any Plan.isAsync))
  | collect {owner : ModuleId} {enclosing : List ModuleId} {guarded : List (ModuleId × TypeId)}
      {type element : TypeId} {id : SetId} {elements : List Plan}
      (fresh : (owner, type) ∉ guarded)
      (container : graph.types.setElement? type = some element)
      (each : ∀ plan ∈ elements,
        Produces graph (owner :: enclosing) ((owner, type) :: guarded) element plan) :
      Produces graph (owner :: enclosing) guarded type
        (.collect id type owner elements (elements.any Plan.isAsync))
  | include {owner included : ModuleId} {enclosing : List ModuleId}
      {guarded : List (ModuleId × TypeId)} {type : TypeId} {plan : Plan}
      (fresh : (owner, type) ∉ guarded)
      (visible : included ∈ (graph.getModule owner).includes)
      (below : Produces graph (included :: owner :: enclosing) ((owner, type) :: guarded) type
        plan) :
      Produces graph (owner :: enclosing) guarded type plan
  | enclose {owner : ModuleId} {enclosing : List ModuleId} {guarded : List (ModuleId × TypeId)}
      {type : TypeId} {plan : Plan}
      (fresh : (owner, type) ∉ guarded)
      (required : type ∈ (graph.getModule owner).requires)
      (outside : Produces graph enclosing ((owner, type) :: guarded) type plan) :
      Produces graph (owner :: enclosing) guarded type plan

theorem produces_of_mem_lookupWithin {depth : ℕ} {demand : Demand} {type : TypeId}
    {state : Search} {plan : Plan} (h : plan ∈ (graph.lookupWithin depth demand type state).1) :
    graph.Produces state.stack state.guarded type plan := by
  induction depth generalizing demand type state plan with
  | zero => exact (List.not_mem_nil h).elim
  | succ depth ih =>
      obtain ⟨owner, enclosing, hstack, hfresh, hfound⟩ :=
        foundBy_of_mem_lookupStep (orderly_lookupWithin depth) h
      rw [hstack]
      cases hfound with
      | provide declared serves chosen =>
          obtain ⟨hlength, heach⟩ := List.forall₂_iff_zip.mp chosen
          refine .provide hfresh declared serves hlength fun pair hpair ↦ ?_
          obtain ⟨_, hmem⟩ := heach hpair
          exact ih hmem
      | collect container found =>
          exact .collect hfresh container fun plan hplan ↦ ih (found ▸ hplan)
      | «include» visible found => exact .include hfresh visible (ih found)
      | enclose required found => exact .enclose hfresh required (ih found)

theorem produces_of_mem_candidates {root : ModuleId} {type : TypeId} {state : Search} {plan : Plan}
    (h : plan ∈ (graph.candidates root type state).1) :
    graph.Produces [root] state.guarded type plan := by
  have hlookup : plan ∈
      (graph.lookupWithin graph.searchDepth .every type { state with stack := [root] }).1 := h
  exact produces_of_mem_lookupWithin hlookup

namespace Produces

variable {stack : List ModuleId} {guarded : List (ModuleId × TypeId)} {type : TypeId} {plan : Plan}

theorem fresh_head {owner : ModuleId} {enclosing : List ModuleId}
    (h : graph.Produces (owner :: enclosing) guarded type plan) : (owner, type) ∉ guarded := by
  cases h <;> assumption

/-- A provider that is called somewhere in a plan had none of its parameters guarded, neither by
the requests around the plan nor by the request for the plan itself. -/
theorem parameter_fresh (h : graph.Produces stack guarded type plan) {node : Plan}
    (hnode : node ∈ plan.walk) {owner : ModuleId} {id : ProviderId}
    (hkey : node.key = .provide owner id) {parameter : TypeId}
    (hparameter : parameter ∈ (graph.getProvider id).parameters) :
    (owner, parameter) ∉ guarded ∧ (stack.head? = some owner → parameter ≠ type) := by
  -- In each case the pair is not even guarded once the request has guarded its own.
  have hsplit : ∀ {asked : ModuleId} {enclosing : List ModuleId}
      {guarded : List (ModuleId × TypeId)} {type : TypeId},
      (owner, parameter) ∉ (asked, type) :: guarded →
      (owner, parameter) ∉ guarded ∧
        ((asked :: enclosing).head? = some owner → parameter ≠ type) := by
    intro asked enclosing guarded type hfresh
    refine ⟨fun hmem ↦ hfresh (List.mem_cons_of_mem _ hmem), ?_⟩
    rintro hhead rfl
    obtain rfl : asked = owner := Option.some.inj hhead
    exact hfresh List.mem_cons_self
  induction h with
  | provide _ _ _ length each ih =>
      apply hsplit
      rcases Plan.mem_walk.mp hnode with rfl | ⟨argument, hargument, hnode⟩
      · obtain ⟨rfl, rfl⟩ := PlanKey.provide.inj hkey
        obtain ⟨argument, hpair⟩ := exists_mem_zip_of_mem_left length hparameter
        exact (each _ hpair).fresh_head
      · obtain ⟨wanted, hpair⟩ := exists_mem_zip_of_mem_right length hargument
        exact (ih _ hpair hnode).1
  | collect _ _ _ ih =>
      apply hsplit
      rcases Plan.mem_walk.mp hnode with rfl | ⟨element, helement, hnode⟩
      · exact PlanKey.noConfusion hkey
      · exact (ih element helement hnode).1
  | «include» _ _ _ ih => exact hsplit (ih hnode).1
  | enclose _ _ _ ih => exact hsplit (ih hnode).1

theorem provider_unnested (h : graph.Produces stack guarded type plan) {node below : Plan}
    (hnode : node ∈ plan.walk) {child : Plan} (hchild : child ∈ node.children)
    (hbelow : below ∈ child.walk) {owner : ModuleId} {id : ProviderId}
    (hkey : node.key = .provide owner id) : below.key ≠ .provide owner id := by
  intro hsame
  induction h with
  | provide _ _ _ length each ih =>
      rcases Plan.mem_walk.mp hnode with rfl | ⟨argument, hargument, hnode⟩
      · obtain ⟨rfl, rfl⟩ := PlanKey.provide.inj hkey
        obtain ⟨wanted, hpair⟩ := exists_mem_zip_of_mem_right length hchild
        have hwanted := (List.of_mem_zip hpair).1
        exact ((each _ hpair).parameter_fresh hbelow hsame hwanted).2 rfl rfl
      · obtain ⟨wanted, hpair⟩ := exists_mem_zip_of_mem_right length hargument
        exact ih _ hpair hnode
  | collect _ _ _ ih =>
      rcases Plan.mem_walk.mp hnode with rfl | ⟨element, helement, hnode⟩
      · exact PlanKey.noConfusion hkey
      · exact ih element helement hnode
  | «include» _ _ _ ih => exact ih hnode
  | enclose _ _ _ ih => exact ih hnode

theorem unnested (h : graph.Produces stack guarded type plan) (hsets : plan.setIds.Nodup) :
    plan.Unnested := by
  intro node hnode child hchild below hbelow
  cases hkey : node.key with
  | provide owner id => exact h.provider_unnested hnode hchild hbelow hkey
  | collect id => exact hkey ▸ Plan.key_ne_of_nodup_setIds hsets hnode hchild hbelow hkey

end Produces

variable {stack : List ModuleId} {guarded : List (ModuleId × TypeId)} {type : TypeId}
  {plan node : Plan}

/-- The provider of the key delivers a promise. -/
def defers (graph : Graph) : PlanKey → Bool
  | .provide _ id => (graph.getProvider id).deferred
  | .collect _ => false

theorem Produces.isAsync_eq (h : graph.Produces stack guarded type plan)
    (hnode : node ∈ plan.walk) :
    node.isAsync = (graph.defers node.key || node.children.any Plan.isAsync) := by
  induction h with
  | provide _ _ _ length _ ih =>
      rcases Plan.mem_walk.mp hnode with rfl | ⟨argument, hargument, hbelow⟩
      · rfl
      · obtain ⟨parameter, hpair⟩ := exists_mem_zip_of_mem_right length hargument
        exact ih _ hpair hbelow
  | collect _ _ _ ih =>
      rcases Plan.mem_walk.mp hnode with rfl | ⟨element, helement, hbelow⟩
      · rfl
      · exact ih element helement hbelow
  | «include» _ _ _ ih => exact ih hnode
  | enclose _ _ _ ih => exact ih hnode

theorem isAsync_iff_of_walk
    (h : ∀ node ∈ plan.walk,
      node.isAsync = (graph.defers node.key || node.children.any Plan.isAsync)) :
    plan.isAsync = true ↔ ∃ node ∈ plan.walk, graph.defers node.key = true := by
  induction plan using Plan.induct with
  | step plan ih =>
      have hbelow : ∀ child ∈ plan.children,
          (child.isAsync = true ↔ ∃ node ∈ child.walk, graph.defers node.key = true) :=
        fun child hchild ↦ ih child hchild fun node hnode ↦
          h node (Plan.mem_walk.mpr (.inr ⟨child, hchild, hnode⟩))
      rw [h plan plan.self_mem_walk, Bool.or_eq_true, List.any_eq_true]
      constructor
      · rintro (hown | ⟨child, hchild, hasync⟩)
        · exact ⟨plan, plan.self_mem_walk, hown⟩
        · obtain ⟨node, hnode, hdefers⟩ := (hbelow child hchild).mp hasync
          exact ⟨node, Plan.mem_walk.mpr (.inr ⟨child, hchild, hnode⟩), hdefers⟩
      · rintro ⟨node, hnode, hdefers⟩
        rcases Plan.mem_walk.mp hnode with rfl | ⟨child, hchild, hnode⟩
        · exact .inl hdefers
        · exact .inr ⟨child, hchild, (hbelow child hchild).mpr ⟨node, hnode, hdefers⟩⟩

end Graph

end Wiring
