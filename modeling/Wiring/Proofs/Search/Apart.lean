import Wiring.Proofs.Lists
import Wiring.Proofs.Plan.Tree
import Wiring.Proofs.Search.Found

/-!
# Plans that are found twice

A search may find the same plan again, by another walk along includes.  By one walk it finds no plan
twice, neither among the candidates for a request nor among the elements of a set.
-/

namespace Wiring

namespace Plan

@[simp] theorem owner_callee (plan : Plan) : plan.callee.owner = plan.owner := by
  cases plan <;> rfl

@[simp] theorem provider?_callee (plan : Plan) : plan.callee.provider? = plan.provider? := by
  cases plan <;> rfl

theorem callee_skeleton (plan : Plan) : plan.skeleton.callee = plan.callee := by
  induction plan using induct with
  | step plan ih =>
      cases plan with
      | provide type owner id arguments async => rfl
      | collect id type owner elements async =>
          have helements : elements.map (callee ∘ skeleton) = elements.map callee :=
            List.map_congr_left ih
          rw [skeleton, callee, callee, skeletonAll_eq_map, calleeAll_eq_map, calleeAll_eq_map,
            List.map_map, helements]

theorem nodup_skeleton {plans : List Plan} (h : (plans.map callee).Nodup) :
    (plans.map skeleton).Nodup := by
  refine List.Nodup.of_map callee ?_
  rwa [List.map_map, Function.comp_def, funext callee_skeleton]

end Plan

/-- The plans are found at the ends of walks, and those at the end of one walk are called
differently. -/
def FoundApart (reaches : List ModuleId → Prop) (plans : List Plan) : Prop :=
  ∃ found : List (List ModuleId × Plan), found.map Prod.snd = plans ∧
    (∀ pair ∈ found, reaches pair.1 ∧ pair.1.head? = some pair.2.owner) ∧
    (found.map fun pair ↦ (pair.1, pair.2.callee)).Nodup

/-- No two of the walks have the same end. -/
def OneWay (reaches : List ModuleId → Prop) : Prop :=
  ∀ walk other, reaches walk → reaches other → walk.head? = other.head? → walk = other

theorem FoundApart.imp {reaches others : List ModuleId → Prop} {plans : List Plan}
    (h : FoundApart reaches plans) (himp : ∀ walk, reaches walk → others walk) :
    FoundApart others plans := by
  obtain ⟨found, hplans, hfound, hnodup⟩ := h
  exact ⟨found, hplans, fun pair hpair ↦ ⟨himp _ (hfound pair hpair).1, (hfound pair hpair).2⟩,
    hnodup⟩

theorem FoundApart.nodup_callee {reaches : List ModuleId → Prop} {plans : List Plan}
    (h : FoundApart reaches plans) (hone : OneWay reaches) : (plans.map Plan.callee).Nodup := by
  obtain ⟨found, rfl, hfound, hnodup⟩ := h
  rw [List.Nodup, List.pairwise_map] at hnodup
  rw [List.map_map, List.Nodup, List.pairwise_map]
  refine hnodup.imp_of_mem fun {pair other} hpair hother hne hsame ↦ ?_
  obtain ⟨hwalk, hend⟩ := hfound pair hpair
  obtain ⟨hwalk', hend'⟩ := hfound other hother
  have howner : pair.2.owner = other.2.owner := by
    simpa using congrArg Plan.owner hsame
  have hends : pair.1.head? = other.1.head? := by rw [hend, hend', howner]
  exact hne (Prod.ext (hone _ _ hwalk hwalk' hends) hsame)

namespace Graph

variable {graph : Graph} {type : TypeId} {root owner : ModuleId}

theorem FoundIn.nodup_callee {plans : List Plan} (h : graph.FoundIn type owner plans)
    (hgraph : graph.Unrepeated) : (plans.map Plan.callee).Nodup := by
  obtain ⟨ids, hids, hproviders⟩ := h.called
  have hnodup : ids.Nodup := ((hgraph.nodup_providers owner).filter _).sublist hids
  refine List.Nodup.of_map Plan.provider? ?_
  rw [List.map_map, Function.comp_def, funext Plan.provider?_callee, hproviders]
  refine (hnodup.map (Option.some_injective _)).append ?_ ?_
  · cases graph.types.setElement? type <;> simp
  · intro called hcalled hset
    obtain ⟨id, _, rfl⟩ := List.mem_map.mp hcalled
    simp at hset

theorem FoundAt.foundApart {places : List (List ModuleId)} {plans : List Plan}
    (h : graph.FoundAt type places plans) (hgraph : graph.Unrepeated) (hplaces : places.Nodup) :
    FoundApart (· ∈ places) plans := by
  obtain ⟨parts, hparts, rfl⟩ := h
  induction hparts with
  | nil => exact ⟨[], rfl, List.forall_mem_nil _, List.nodup_nil⟩
  | @cons place part places _ hpart _ ih =>
      obtain ⟨hnew, hrest⟩ := List.nodup_cons.mp hplaces
      obtain ⟨owner, howner, hfound⟩ := hpart
      obtain ⟨found, hplans, hreached, hnodup⟩ := ih hrest
      refine ⟨part.map (place, ·) ++ found, ?_, List.forall_mem_append.mpr ⟨?_, ?_⟩, ?_⟩
      · rw [List.map_append, hplans, List.map_map, List.flatten_cons]
        exact congrArg (· ++ _) (List.map_id part)
      · intro pair hpair
        obtain ⟨plan, hplan, rfl⟩ := List.mem_map.mp hpair
        have hsame := hfound.owner_eq plan hplan
        exact ⟨List.mem_cons_self, hsame ▸ howner⟩
      · exact fun pair hpair ↦ ⟨List.mem_cons_of_mem _ (hreached pair hpair).1,
          (hreached pair hpair).2⟩
      · rw [List.map_append, List.map_map]
        refine List.Nodup.append ?_ hnodup ?_
        · have hcallee := (hfound.nodup_callee hgraph).map (Prod.mk_right_injective place)
          rwa [List.map_map] at hcallee
        · intro item hhere hthere
          obtain ⟨plan, _, rfl⟩ := List.mem_map.mp hhere
          obtain ⟨pair, hpair, heq⟩ := List.mem_map.mp hthere
          have hplace : pair.1 = place := congrArg Prod.fst heq
          exact hnew (hplace ▸ (hreached pair hpair).1)

/-- What a search finds inside stacks of some kind has a property, if the property passes to a call
from its arguments, and to a set that collects what a request inside such a stack finds from its
elements. -/
theorem of_mem_lookupWithin (inside : List ModuleId → Prop) (P : Plan → Prop)
    (hpush : ∀ {owner included enclosing}, inside (owner :: enclosing) →
      included ∈ (graph.getModule owner).includes → inside (included :: owner :: enclosing))
    (hpop : ∀ {owner enclosing}, inside (owner :: enclosing) → inside enclosing)
    (hprovide : ∀ {type owner id arguments async}, (∀ plan ∈ arguments, P plan) →
      P (.provide type owner id arguments async))
    (hcollect : ∀ {depth element start id type owner async}, inside start.stack →
      (∀ plan ∈ (graph.lookupWithin depth .every element start).1, P plan) →
      P (.collect id type owner (graph.lookupWithin depth .every element start).1 async))
    {depth : ℕ} {demand : Demand} {type : TypeId} {state : Search} (hinside : inside state.stack) :
    ∀ plan ∈ (graph.lookupWithin depth demand type state).1, P plan := by
  induction depth generalizing demand type state with
  | zero => exact List.forall_mem_nil _
  | succ depth ih =>
      intro plan hplan
      obtain ⟨owner, enclosing, hstack, -, hfound⟩ :=
        foundBy_of_mem_lookupStep (orderly_lookupWithin depth) hplan
      rw [hstack] at hinside
      cases hfound with
      | provide _ _ chosen =>
          refine hprovide fun argument hargument ↦ ?_
          obtain ⟨parameter, _, _, hmem⟩ := exists_of_mem_forall₂ chosen.flip hargument
          exact ih hinside argument hmem
      | collect _ found =>
          rw [found]
          exact hcollect hinside (ih hinside)
      | «include» visible found => exact ih (hpush hinside visible) plan found
      | enclose _ found => exact ih (hpop hinside) plan found

theorem foundApart_of_lookupWithin (hgraph : graph.Unrepeated) {depth : ℕ} {type : TypeId}
    {state : Search} (hwalk : state.stack ≠ [] → graph.IncludeWalk root state.stack) :
    FoundApart (graph.IncludeWalk root) (graph.lookupWithin depth .every type state).1 := by
  have hfound := graph.foundAt_lookupWithin depth type state
  refine (hfound.foundApart hgraph (nodup_visits hgraph)).imp fun walk hmem ↦ ?_
  obtain ⟨_, owner, enclosing, -, hstack⟩ := exists_cons_of_mem_visits hmem
  have hne : state.stack ≠ [] := hstack ▸ List.cons_ne_nil owner enclosing
  exact includeWalk_of_mem_visits (hwalk hne) hmem

/-- Inside a walk from a root, the elements of every set that a search finds are found at the ends
of walks from this root. -/
theorem elements_foundApart (hgraph : graph.Unrepeated) {depth : ℕ} {demand : Demand}
    {type : TypeId} {state : Search}
    (hwalk : state.stack ≠ [] → graph.IncludeWalk root state.stack) :
    ∀ plan ∈ (graph.lookupWithin depth demand type state).1, ∀ node ∈ plan.walk, ∀ id,
      node.key = .collect id → FoundApart (graph.IncludeWalk root) node.children := by
  refine of_mem_lookupWithin (fun stack ↦ stack ≠ [] → graph.IncludeWalk root stack) _
    ?_ ?_ ?_ ?_ hwalk
  · exact fun hinside visible _ ↦ (hinside (List.cons_ne_nil _ _)).push visible
  · exact fun hinside hne ↦ (hinside (List.cons_ne_nil _ _)).pop hne
  · intro type owner id arguments async harguments node hnode number hkey
    rcases Plan.mem_walk.mp hnode with rfl | ⟨argument, hargument, hbelow⟩
    · exact PlanKey.noConfusion hkey
    · exact harguments argument hargument node hbelow number hkey
  · intro depth element start id type owner async hinside helements node hnode number hkey
    rcases Plan.mem_walk.mp hnode with rfl | ⟨child, hchild, hbelow⟩
    · exact foundApart_of_lookupWithin hgraph hinside
    · exact helements child hchild node hbelow number hkey

end Graph

end Wiring
