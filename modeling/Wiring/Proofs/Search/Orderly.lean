import Wiring.Plan.Search
import Wiring.Proofs.Plan.Tree

/-!
# What a search leaves behind

Every part of a search leaves the stack of modules and the guarded requests as it found them,
whether it runs to its end or stops early.  It hands out numbers for sets in one direction, and
the sets of the plans that it finds have different numbers among those handed out.
-/

namespace Wiring

/-- The sets in the plans have different numbers from `low` on and before `high`. -/
structure Numbered (low high : SetId) (plans : List Plan) : Prop where
  nodup : (plans.flatMap Plan.setIds).Nodup
  bounds : ∀ id ∈ plans.flatMap Plan.setIds, low ≤ id ∧ id < high

namespace Numbered

variable {low middle high : SetId} {plans more : List Plan}

theorem nil : Numbered low high [] := ⟨List.nodup_nil, by simp⟩

theorem mono (h : Numbered low high plans) {lower higher : SetId} (hlow : lower ≤ low)
    (hhigh : high ≤ higher) : Numbered lower higher plans where
  nodup := h.nodup
  bounds := fun id hid ↦
    ⟨Nat.le_trans hlow (h.bounds id hid).1, Nat.lt_of_lt_of_le (h.bounds id hid).2 hhigh⟩

theorem append (h : Numbered low middle plans) (hmore : Numbered middle high more)
    (hlow : low ≤ middle) (hhigh : middle ≤ high) : Numbered low high (plans ++ more) where
  nodup := by
    rw [List.flatMap_append]
    refine h.nodup.append hmore.nodup fun id hid hid' ↦ ?_
    exact Nat.lt_irrefl _ (Nat.lt_of_lt_of_le (h.bounds id hid).2 (hmore.bounds id hid').1)
  bounds := by
    intro id hid
    rw [List.flatMap_append] at hid
    rcases List.mem_append.mp hid with hfirst | hsecond
    · exact (h.mono (Nat.le_refl _) hhigh).bounds id hfirst
    · exact (hmore.mono hlow (Nat.le_refl _)).bounds id hsecond

theorem head (h : Numbered low high plans) {plan : Plan} (hplan : plans.head? = some plan) :
    Numbered low high [plan] := by
  obtain ⟨rest, rfl⟩ : ∃ rest, plans = plan :: rest := by
    cases plans with
    | nil => simp at hplan
    | cons first rest => exact ⟨rest, by simp_all⟩
  have hsub : ([plan].flatMap Plan.setIds).Sublist ((plan :: rest).flatMap Plan.setIds) := by
    simp
  exact ⟨h.nodup.sublist hsub, fun id hid ↦ h.bounds id (hsub.subset hid)⟩

theorem provide (h : Numbered low high plans) (type : TypeId) (owner : ModuleId) (id : ProviderId)
    (async : Bool) : Numbered low high [.provide type owner id plans async] := by
  have hids : [Plan.provide type owner id plans async].flatMap Plan.setIds =
      plans.flatMap Plan.setIds := by
    simp [Plan.setIds_eq (.provide type owner id plans async), Plan.key, Plan.children,
      PlanKey.setId?]
  exact ⟨hids ▸ h.nodup, hids ▸ h.bounds⟩

theorem collect {id : SetId} (h : Numbered (id + 1) high plans) (hhigh : id < high)
    (type : TypeId) (owner : ModuleId) (async : Bool) :
    Numbered id high [.collect id type owner plans async] := by
  have hids : [Plan.collect id type owner plans async].flatMap Plan.setIds =
      id :: plans.flatMap Plan.setIds := by
    simp [Plan.setIds_eq (.collect id type owner plans async), Plan.key, Plan.children,
      PlanKey.setId?]
  refine ⟨?_, ?_⟩
  · rw [hids]
    exact List.nodup_cons.mpr ⟨fun hid ↦ Nat.lt_irrefl _ (h.bounds id hid).1, h.nodup⟩
  · rw [hids]
    intro other hother
    rcases List.mem_cons.mp hother with rfl | hbelow
    · exact ⟨Nat.le_refl _, hhigh⟩
    · exact (h.mono (Nat.le_succ id) (Nat.le_refl _)).bounds other hbelow

end Numbered

/-! ## Orderly parts -/

def Search.SameContext (state other : Search) : Prop :=
  state.stack = other.stack ∧ state.guarded = other.guarded

theorem Search.SameContext.refl (state : Search) : state.SameContext state := ⟨rfl, rfl⟩

theorem Search.SameContext.trans {first second third : Search} (h : first.SameContext second)
    (h' : second.SameContext third) : first.SameContext third :=
  ⟨h.1.trans h'.1, h.2.trans h'.2⟩

/-- What happens between two states of a search: the context is the same afterwards, and the sets
of the plans found in between have numbers handed out in between. -/
structure Tidy (before after : Search) (found : List Plan) : Prop where
  context : after.SameContext before
  nextSet_le : before.nextSet ≤ after.nextSet
  numbered : Numbered before.nextSet after.nextSet found

namespace Tidy

variable {first second third : Search} {plans more : List Plan}

theorem nothing (state : Search) : Tidy state state [] :=
  ⟨.refl state, Nat.le_refl _, .nil⟩

theorem append (h : Tidy first second plans) (hmore : Tidy second third more) :
    Tidy first third (plans ++ more) where
  context := hmore.context.trans h.context
  nextSet_le := Nat.le_trans h.nextSet_le hmore.nextSet_le
  numbered := h.numbered.append hmore.numbered h.nextSet_le hmore.nextSet_le

theorem forget (h : Tidy first second plans) : Tidy first second [] :=
  ⟨h.context, h.nextSet_le, .nil⟩

theorem head (h : Tidy first second plans) {plan : Plan} (hplan : plans.head? = some plan) :
    Tidy first second [plan] :=
  ⟨h.context, h.nextSet_le, h.numbered.head hplan⟩

end Tidy

/-- A part of a search that is tidy wherever it starts. -/
def Orderly (probe : Probe) : Prop :=
  ∀ state, Tidy state (probe state).2 (probe state).1

theorem inOrder_cons (demand : Demand) (probe : Probe) (probes : List Probe) (state : Search) :
    inOrder demand (probe :: probes) state =
      if demand.isMet (probe state).1 then probe state
      else ((probe state).1 ++ (inOrder demand probes (probe state).2).1,
        (inOrder demand probes (probe state).2).2) := rfl

theorem orderly_inOrder {demand : Demand} {probes : List Probe}
    (h : ∀ probe ∈ probes, Orderly probe) : Orderly (inOrder demand probes) := by
  induction probes with
  | nil => exact Tidy.nothing
  | cons probe probes ih =>
      intro state
      have hprobe := h probe List.mem_cons_self state
      have hprobes := ih fun other hother ↦ h other (List.mem_cons_of_mem _ hother)
      rw [inOrder_cons]
      split_ifs
      · exact hprobe
      · exact hprobe.append (hprobes _)

namespace Graph

variable {graph : Graph} {lookup : Lookup}

theorem chooseArguments_cons (lookup : Lookup) (type : TypeId) (types : List TypeId)
    (state : Search) :
    chooseArguments lookup (type :: types) state =
      match (lookup .first type state).1.head? with
      | none => (none, (lookup .first type state).2)
      | some plan =>
        ((chooseArguments lookup types (lookup .first type state).2).1.map (plan :: ·),
          (chooseArguments lookup types (lookup .first type state).2).2) := rfl

theorem tidy_chooseArguments (h : ∀ demand type, Orderly (lookup demand type))
    (types : List TypeId) (state : Search) :
    Tidy state (chooseArguments lookup types state).2
      ((chooseArguments lookup types state).1.getD []) := by
  induction types generalizing state with
  | nil => exact Tidy.nothing state
  | cons type types ih =>
      have hfirst := h .first type state
      rw [chooseArguments_cons]
      split
      · exact hfirst.forget
      · next plan hplan =>
          have hrest := ih (lookup .first type state).2
          cases hchosen : (chooseArguments lookup types (lookup .first type state).2).1 with
          | none => exact ((hfirst.head hplan).append hrest).forget
          | some rest =>
              rw [hchosen] at hrest
              exact (hfirst.head hplan).append hrest

theorem orderly_providerProbe (h : ∀ demand type, Orderly (lookup demand type)) (type : TypeId)
    (owner : ModuleId) (id : ProviderId) : Orderly (graph.providerProbe lookup type owner id) := by
  intro state
  have hchoose := tidy_chooseArguments h (graph.getProvider id).parameters state
  simp only [providerProbe]
  split_ifs
  · split
    · exact hchoose.forget
    · next arguments harguments =>
        rw [harguments] at hchoose
        exact ⟨hchoose.context, hchoose.nextSet_le, hchoose.numbered.provide _ _ _ _⟩
  · exact Tidy.nothing state

theorem orderly_setProbe (h : ∀ demand type, Orderly (lookup demand type)) (type : TypeId)
    (owner : ModuleId) : Orderly (graph.setProbe lookup type owner) := by
  intro state
  rw [setProbe]
  split
  · exact Tidy.nothing state
  · next element _ =>
      have helements := h .every element { state with nextSet := state.nextSet + 1 }
      exact ⟨helements.context, Nat.le_of_succ_le helements.nextSet_le,
        helements.numbered.collect helements.nextSet_le _ _ _⟩

theorem orderly_includeProbe (h : ∀ demand type, Orderly (lookup demand type)) (demand : Demand)
    (type : TypeId) (included : ModuleId) : Orderly (includeProbe lookup demand type included) := by
  intro state
  have hlookup := h demand type { state with stack := included :: state.stack }
  exact ⟨⟨congrArg List.tail hlookup.context.1, hlookup.context.2⟩, hlookup.nextSet_le,
    hlookup.numbered⟩

theorem orderly_enclosingProbe (h : ∀ demand type, Orderly (lookup demand type)) (demand : Demand)
    (type : TypeId) (owner : ModuleId) :
    Orderly (graph.enclosingProbe lookup demand type owner) := by
  intro state
  rw [enclosingProbe]
  split_ifs
  · split
    · exact Tidy.nothing state
    · next current enclosing hstate =>
        have hlookup := h demand type { state with stack := enclosing }
        exact ⟨⟨(congrArg (current :: ·) hlookup.context.1).trans hstate.symm,
          hlookup.context.2⟩, hlookup.nextSet_le, hlookup.numbered⟩
  · exact Tidy.nothing state

theorem mem_rules {demand : Demand} {type : TypeId} {owner : ModuleId} {probe : Probe} :
    probe ∈ graph.rules lookup demand type owner ↔
      (∃ id ∈ (graph.getModule owner).providers,
        probe = graph.providerProbe lookup type owner id) ∨
      probe = graph.setProbe lookup type owner ∨
      (∃ included ∈ (graph.getModule owner).includes,
        probe = includeProbe lookup demand type included) ∨
      probe = graph.enclosingProbe lookup demand type owner := by
  simp only [rules, List.mem_append, List.mem_map, List.mem_singleton, or_assoc, eq_comm]

theorem orderly_rules (h : ∀ demand type, Orderly (lookup demand type)) (demand : Demand)
    (type : TypeId) (owner : ModuleId) :
    ∀ probe ∈ graph.rules lookup demand type owner, Orderly probe := by
  intro probe hprobe
  obtain ⟨id, _, rfl⟩ | rfl | ⟨included, _, rfl⟩ | rfl := mem_rules.mp hprobe
  · exact orderly_providerProbe h type owner id
  · exact orderly_setProbe h type owner
  · exact orderly_includeProbe h demand type included
  · exact orderly_enclosingProbe h demand type owner

def guarding (state : Search) (owner : ModuleId) (type : TypeId) : Search :=
  { state with guarded := (owner, type) :: state.guarded }

theorem lookupStep_of_fresh {demand : Demand} {type : TypeId} {state : Search} {owner : ModuleId}
    {enclosing : List ModuleId} (hstack : state.stack = owner :: enclosing)
    (hfresh : (owner, type) ∉ state.guarded) :
    graph.lookupStep lookup demand type state =
      ((inOrder demand (graph.rules lookup demand type owner) (guarding state owner type)).1,
        { (inOrder demand (graph.rules lookup demand type owner) (guarding state owner type)).2 with
          guarded := (inOrder demand (graph.rules lookup demand type owner)
            (guarding state owner type)).2.guarded.erase (owner, type) }) := by
  obtain ⟨stack, guarded, nextSet⟩ := state
  subst hstack
  simp [lookupStep, hfresh, guarding]

/-- A request finds something only inside a module and when it is not guarded. -/
theorem lookupStep_eq_nothing_or (lookup : Lookup) (demand : Demand) (type : TypeId)
    (state : Search) : graph.lookupStep lookup demand type state = ([], state) ∨
      ∃ owner enclosing, state.stack = owner :: enclosing ∧ (owner, type) ∉ state.guarded := by
  rw [lookupStep]
  split
  · exact Or.inl rfl
  · next owner enclosing hstack =>
      split_ifs with hguarded
      · exact Or.inl rfl
      · exact Or.inr ⟨owner, enclosing, hstack, by simpa using hguarded⟩

theorem orderly_lookupStep (h : ∀ demand type, Orderly (lookup demand type)) (demand : Demand)
    (type : TypeId) : Orderly (graph.lookupStep lookup demand type) := by
  intro state
  obtain hnothing | ⟨owner, enclosing, hstack, hfresh⟩ :=
    graph.lookupStep_eq_nothing_or lookup demand type state
  · rw [hnothing]
    exact Tidy.nothing state
  · have horderly : Orderly (inOrder demand (graph.rules lookup demand type owner)) :=
      orderly_inOrder (orderly_rules h demand type owner)
    have hrules := horderly (guarding state owner type)
    rw [lookupStep_of_fresh hstack hfresh]
    refine ⟨⟨hrules.context.1, ?_⟩, hrules.nextSet_le, hrules.numbered⟩
    have herase := congrArg (·.erase (owner, type)) hrules.context.2
    simpa [guarding] using herase

theorem orderly_lookupWithin (depth : ℕ) (demand : Demand) (type : TypeId) :
    Orderly (graph.lookupWithin depth demand type) := by
  induction depth generalizing demand type with
  | zero => exact Tidy.nothing
  | succ depth ih => exact orderly_lookupStep ih demand type

theorem tidy_candidates (graph : Graph) (root : ModuleId) (type : TypeId) (state : Search) :
    Tidy { state with stack := [] } (graph.candidates root type state).2
      (graph.candidates root type state).1 := by
  have horderly : Orderly (graph.lookup .every type) :=
    orderly_lookupWithin graph.searchDepth .every type
  have hlookup := horderly { state with stack := [root] }
  exact ⟨⟨rfl, hlookup.context.2⟩, hlookup.nextSet_le, hlookup.numbered⟩

end Graph

end Wiring
