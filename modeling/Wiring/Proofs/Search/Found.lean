import Wiring.Proofs.Search.Visits

/-!
# What a request finds where

Wherever a request for every candidate comes to a module, it finds plans of different providers of
this module that serve the type, and the one set if the type is a set.  The candidates are what it
finds at the stacks by which it comes, one after the other.
-/

namespace Wiring

/-- The provider that a plan calls itself; a set calls none. -/
def Plan.provider? : Plan → Option ProviderId
  | .provide _ _ id _ _ => some id
  | .collect .. => none

theorem Plan.provider?_eq_none_iff {plan : Plan} :
    plan.provider? = none ↔ ∃ id, plan.key = .collect id := by
  cases plan <;> simp [provider?, key]

theorem inOrder_every_append (probes others : List Probe) (state : Search) :
    inOrder .every (probes ++ others) state =
      ((inOrder .every probes state).1 ++ (inOrder .every others (inOrder .every probes state).2).1,
        (inOrder .every others (inOrder .every probes state).2).2) := by
  induction probes generalizing state with
  | nil => rfl
  | cons probe probes ih =>
      have hgo : ¬ Demand.every.isMet (probe state).1 = true := Bool.false_ne_true
      rw [List.cons_append, inOrder_cons, inOrder_cons, if_neg hgo, if_neg hgo, ih,
        List.append_assoc]

@[simp] theorem inOrder_every_singleton (probe : Probe) (state : Search) :
    inOrder .every [probe] state = probe state :=
  Prod.ext (List.append_nil _) rfl

namespace Graph

variable {graph : Graph} {lookup : Lookup} {type : TypeId} {owner : ModuleId}

def serving (graph : Graph) (type : TypeId) (ids : List ProviderId) : List ProviderId :=
  ids.filter fun id ↦ graph.serves (graph.getProvider id).returns type

/-- The plans belong to the module: plans of some of its providers that serve the type, in order,
and the one set if the type is a set. -/
structure FoundIn (graph : Graph) (type : TypeId) (owner : ModuleId) (plans : List Plan) :
    Prop where
  owner_eq : ∀ plan ∈ plans, plan.owner = owner
  called : ∃ ids : List ProviderId,
    ids.Sublist (graph.serving type (graph.getModule owner).providers) ∧
    plans.map Plan.provider? =
      ids.map some ++ (graph.types.setElement? type).toList.map fun _ ↦ none

theorem found_providerProbe (lookup : Lookup) (type : TypeId) (owner : ModuleId)
    (id : ProviderId) (state : Search) :
    (graph.providerProbe lookup type owner id state).1 = [] ∨
      graph.serves (graph.getProvider id).returns type = true ∧ ∃ arguments async,
        (graph.providerProbe lookup type owner id state).1 =
          [.provide type owner id arguments async] := by
  simp only [providerProbe]
  split_ifs with hserves
  · split
    · exact Or.inl rfl
    · exact Or.inr ⟨hserves, _, _, rfl⟩
  · exact Or.inl rfl

theorem found_providerProbes (lookup : Lookup) (type : TypeId) (owner : ModuleId)
    (ids : List ProviderId) (state : Search) :
    (∀ plan ∈ (inOrder .every (ids.map (graph.providerProbe lookup type owner)) state).1,
      plan.owner = owner) ∧
    ∃ called : List ProviderId, called.Sublist (graph.serving type ids) ∧
      (inOrder .every (ids.map (graph.providerProbe lookup type owner)) state).1.map
        Plan.provider? = called.map some := by
  induction ids generalizing state with
  | nil => exact ⟨List.forall_mem_nil _, [], .slnil, rfl⟩
  | cons id ids ih =>
      have hgo : ∀ plans, ¬ Demand.every.isMet plans = true := fun _ ↦ Bool.false_ne_true
      obtain ⟨howners, called, hcalled, hplans⟩ :=
        ih (graph.providerProbe lookup type owner id state).2
      rw [List.map_cons, inOrder_cons, if_neg (hgo _)]
      rcases found_providerProbe lookup type owner id state with hnone | ⟨hserves, _, _, hone⟩
      · rw [hnone, List.nil_append]
        exact ⟨howners, called, hcalled.trans ((List.sublist_cons_self id ids).filter _), hplans⟩
      · rw [hone, List.singleton_append]
        refine ⟨List.forall_mem_cons.mpr ⟨rfl, howners⟩, id :: called, ?_, ?_⟩
        · have hserving : graph.serving type (id :: ids) = id :: graph.serving type ids :=
            List.filter_cons_of_pos hserves
          exact hserving ▸ hcalled.cons_cons id
        · rw [List.map_cons, List.map_cons, hplans, Plan.provider?]

theorem found_setProbe (lookup : Lookup) (type : TypeId) (owner : ModuleId) (state : Search) :
    (∀ plan ∈ (graph.setProbe lookup type owner state).1, plan.owner = owner) ∧
    (graph.setProbe lookup type owner state).1.map Plan.provider? =
      (graph.types.setElement? type).toList.map fun _ ↦ none := by
  rw [setProbe]
  split
  · next hnone => simp [hnone]
  · next element hsome => simp [hsome, Plan.owner, Plan.provider?]

/-- The rules that look no further than into the module itself. -/
def ownRules (graph : Graph) (lookup : Lookup) (type : TypeId) (owner : ModuleId) : List Probe :=
  (graph.getModule owner).providers.map (graph.providerProbe lookup type owner) ++
    [graph.setProbe lookup type owner]

theorem rules_eq (lookup : Lookup) (demand : Demand) (type : TypeId) (owner : ModuleId) :
    graph.rules lookup demand type owner =
      graph.ownRules lookup type owner ++
        ((graph.getModule owner).includes.map (includeProbe lookup demand type) ++
          [graph.enclosingProbe lookup demand type owner]) :=
  List.append_assoc ..

theorem foundIn_ownRules (lookup : Lookup) (type : TypeId) (owner : ModuleId) (state : Search) :
    graph.FoundIn type owner (inOrder .every (graph.ownRules lookup type owner) state).1 := by
  rw [ownRules, inOrder_every_append, inOrder_every_singleton]
  obtain ⟨howners, called, hcalled, hplans⟩ :=
    found_providerProbes lookup type owner (graph.getModule owner).providers state
  obtain ⟨hset, helement⟩ := found_setProbe lookup type owner (inOrder .every
    ((graph.getModule owner).providers.map (graph.providerProbe lookup type owner)) state).2
  refine ⟨List.forall_mem_append.mpr ⟨howners, hset⟩, called, hcalled, ?_⟩
  rw [List.map_append, hplans, helement]

/-- What is found at each of the stacks, in order. -/
def FoundAt (graph : Graph) (type : TypeId) (places : List (List ModuleId)) (plans : List Plan) :
    Prop :=
  ∃ parts, List.Forall₂ (fun stack part ↦ ∃ owner ∈ stack.head?, graph.FoundIn type owner part)
    places parts ∧ plans = parts.flatten

theorem FoundAt.nil : graph.FoundAt type [] [] := ⟨[], .nil, rfl⟩

theorem FoundAt.append {places others : List (List ModuleId)} {plans more : List Plan}
    (h : graph.FoundAt type places plans) (hmore : graph.FoundAt type others more) :
    graph.FoundAt type (places ++ others) (plans ++ more) := by
  obtain ⟨parts, hparts, rfl⟩ := h
  obtain ⟨rest, hrest, rfl⟩ := hmore
  exact ⟨parts ++ rest, List.rel_append hparts hrest, List.flatten_append.symm⟩

theorem FoundIn.foundAt {enclosing : List ModuleId} {plans : List Plan}
    (h : graph.FoundIn type owner plans) : graph.FoundAt type [owner :: enclosing] plans :=
  ⟨[plans], .cons ⟨owner, rfl, h⟩ .nil, List.flatten_singleton.symm⟩

/-- Parts that leave the context of the search alone find one after the other what each of them
finds in this context. -/
theorem foundAt_inOrder {α : Type} {probe : α → Probe} {places : α → List (List ModuleId)}
    {items : List α} {context : Search} (horderly : ∀ item ∈ items, Orderly (probe item))
    (h : ∀ item ∈ items, ∀ start : Search, start.SameContext context →
      graph.FoundAt type (places item) (probe item start).1)
    {state : Search} (hstate : state.SameContext context) :
    graph.FoundAt type (items.flatMap places) (inOrder .every (items.map probe) state).1 := by
  induction items generalizing state with
  | nil => exact .nil
  | cons item items ih =>
      have hgo : ¬ Demand.every.isMet (probe item state).1 = true := Bool.false_ne_true
      have hcontext := (horderly item List.mem_cons_self state).context.trans hstate
      rw [List.map_cons, inOrder_cons, if_neg hgo, List.flatMap_cons]
      refine (h item List.mem_cons_self state hstate).append (ih ?_ ?_ hcontext)
      · exact fun other hother ↦ horderly other (List.mem_cons_of_mem _ hother)
      · exact fun other hother ↦ h other (List.mem_cons_of_mem _ hother)

/-- The rules of a module find what it has itself, then what the included modules have, then what
is found outside. -/
theorem foundAt_rules (horderly : ∀ demand type, Orderly (lookup demand type))
    {enclosing : List ModuleId} {context : Search} {places : ModuleId → List (List ModuleId)}
    {outside : List (List ModuleId)}
    (hincluded : ∀ included ∈ (graph.getModule owner).includes, ∀ start : Search,
      start.SameContext context →
      graph.FoundAt type (places included) (includeProbe lookup .every type included start).1)
    (houtside : ∀ start : Search, start.SameContext context →
      graph.FoundAt type outside (graph.enclosingProbe lookup .every type owner start).1) :
    graph.FoundAt type
      ((owner :: enclosing) :: (graph.getModule owner).includes.flatMap places ++ outside)
      (inOrder .every (graph.rules lookup .every type owner) context).1 := by
  have hrules : ∀ probe ∈ graph.rules lookup .every type owner, Orderly probe :=
    orderly_rules horderly .every type owner
  rw [rules_eq] at hrules ⊢
  obtain ⟨hown, hfurther⟩ := List.forall_mem_append.mp hrules
  obtain ⟨hincludes, -⟩ := List.forall_mem_append.mp hfurther
  have hfirst : Orderly (inOrder .every (graph.ownRules lookup type owner)) :=
    orderly_inOrder hown
  have hsecond : Orderly (inOrder .every
      ((graph.getModule owner).includes.map (includeProbe lookup .every type))) :=
    orderly_inOrder hincludes
  have hcontext := (hfirst context).context
  have hcontext' := (hsecond _).context.trans hcontext
  rw [inOrder_every_append, inOrder_every_append, inOrder_every_singleton, List.cons_append,
    ← List.singleton_append]
  refine (foundIn_ownRules ..).foundAt.append (.append ?_ (houtside _ hcontext'))
  exact foundAt_inOrder (fun included _ ↦ orderly_includeProbe horderly .every type included)
    hincluded hcontext

/-- A request finds its candidates at the stacks by which it comes. -/
theorem foundAt_lookupWithin (depth : ℕ) (type : TypeId) (state : Search) :
    graph.FoundAt type (graph.visits type depth state.stack state.guarded)
      (graph.lookupWithin depth .every type state).1 := by
  induction depth generalizing state with
  | zero => exact .nil
  | succ depth ih =>
      obtain ⟨stack, guarded, nextSet⟩ := state
      cases stack with
      | nil => exact .nil
      | cons owner enclosing =>
          by_cases hguarded : (owner, type) ∈ guarded
          · have hnothing : graph.lookupWithin (depth + 1) .every type
                ⟨owner :: enclosing, guarded, nextSet⟩ =
                  ([], ⟨owner :: enclosing, guarded, nextSet⟩) := by
              simp [lookupWithin, lookupStep, hguarded]
            rw [visits_of_guarded hguarded, hnothing]
            exact .nil
          rw [visits_of_fresh hguarded, lookupWithin, lookupStep_of_fresh rfl hguarded]
          refine foundAt_rules (orderly_lookupWithin depth) ?_ ?_
          · rintro included _ ⟨_, _, nextSet⟩ ⟨rfl, rfl⟩
            exact ih ⟨included :: owner :: enclosing, (owner, type) :: guarded, nextSet⟩
          · rintro ⟨_, _, nextSet⟩ ⟨rfl, rfl⟩
            have houtside := ih ⟨enclosing, (owner, type) :: guarded, nextSet⟩
            simp only [enclosingProbe, List.contains_iff_mem]
            split_ifs
            · exact houtside
            · exact .nil

theorem foundAt_candidates {state : Search} (hstate : state.guarded = []) (root : ModuleId)
    (type : TypeId) :
    graph.FoundAt type (graph.visits type graph.searchDepth [root] [])
      (graph.candidates root type state).1 := by
  obtain ⟨stack, guarded, nextSet⟩ := state
  subst hstate
  exact graph.foundAt_lookupWithin graph.searchDepth type ⟨[root], [], nextSet⟩

end Graph

end Wiring
