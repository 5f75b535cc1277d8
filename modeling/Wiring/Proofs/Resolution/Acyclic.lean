import Mathlib.Logic.Relation
import Wiring.Proofs.Graph.Built
import Wiring.Proofs.Resolution.Resolvers
import Wiring.Proofs.Resolution.Stored

/-!
# Accessors do not call each other in a cycle

The accessor of a key calls those of the children of the plan that is stored for the key.  The
plans come from different trees, and within one tree no key is below itself.  Along the walk that
stores them every key calls keys that the walk settles: what stands before a tree is settled
already, and what stands in the tree is settled from its leaves up.
-/

namespace Wiring

/-- One accessor calls another one. -/
def Delegates (plans : List Plan) (key other : PlanKey) : Prop :=
  ∃ plan ∈ plans, plan.key = key ∧ ∃ child ∈ plan.children, child.key = other

/-- No chain of calls that starts at the key goes on for ever. -/
def Settled (plans : List Plan) (key : PlanKey) : Prop :=
  Acc (fun other key ↦ Delegates plans key other) key

theorem Settled.not_transGen {plans : List Plan} {key : PlanKey} (h : Settled plans key) :
    ¬ Relation.TransGen (Delegates plans) key key := by
  induction h with
  | intro key _ ih =>
      intro hcycle
      obtain ⟨other, hcall, hback⟩ := Relation.TransGen.head'_iff.mp hcycle
      exact ih other hcall (Relation.TransGen.tail' hback hcall)

/-- Every node of a part of the walk is settled, if the nodes before the part are, those with the
key of an ancestor of the part apart, and no ancestor's key occurs in the part. -/
def Settles (plans walked part : List Plan) : Prop :=
  ∀ (before after : List Plan) (ancestors : List PlanKey), walked = before ++ part ++ after →
    (∀ node ∈ before, node.key ∉ ancestors → Settled plans node.key) →
    (∀ node ∈ part, node.key ∉ ancestors) → ∀ node ∈ part, Settled plans node.key

section

variable {plans walked : List Plan}

theorem settles_flatMap {trees : List Plan}
    (h : ∀ tree ∈ trees, Settles plans walked tree.walk) :
    Settles plans walked (trees.flatMap Plan.walk) := by
  induction trees with
  | nil =>
      intro before after ancestors _ _ _ node hnode
      exact (List.not_mem_nil hnode).elim
  | cons tree trees ih =>
      intro before after ancestors hwalked hbefore hpart
      rw [List.flatMap_cons] at hwalked hpart ⊢
      obtain ⟨hhead, htail⟩ := List.forall_mem_append.mp hpart
      have htree := h tree List.mem_cons_self before (trees.flatMap Plan.walk ++ after) ancestors
        (by simpa using hwalked) hbefore hhead
      have htrees := ih (fun other hother ↦ h other (List.mem_cons_of_mem _ hother))
        (before ++ tree.walk) after ancestors (by simpa using hwalked)
        (List.forall_mem_append.mpr ⟨hbefore, fun node hnode _ ↦ htree node hnode⟩) htail
      exact List.forall_mem_append.mpr ⟨htree, htrees⟩

/-- What is stored for the key of a tree is either the tree itself or a plan that stands before
it on the walk. -/
theorem settled_root (hstored : ∀ plan ∈ plans, firstAt walked plan.key = some plan) {tree : Plan}
    {before after : List Plan} (hwalked : walked = before ++ tree.walk ++ after)
    (hbefore : ∀ node ∈ before, node.key = tree.key → Settled plans node.key)
    (hchildren : ∀ child ∈ tree.children, Settled plans child.key) : Settled plans tree.key := by
  by_cases hearlier : ∃ node ∈ before, node.key = tree.key
  · obtain ⟨node, hnode, hkey⟩ := hearlier
    rw [← hkey]
    exact hbefore node hnode hkey
  · have hnone : firstAt before tree.key = none :=
      firstAt_eq_none.mpr fun node hnode hsame ↦ hearlier ⟨node, hnode, hsame⟩
    have hfirst : firstAt walked tree.key = some tree := by
      rw [hwalked, tree.walk_eq, List.append_assoc, firstAt_append, hnone, Option.none_or,
        List.cons_append, firstAt_cons_self]
    refine Acc.intro _ fun other hcall ↦ ?_
    obtain ⟨plan, hplan, hkey, child, hchild, rfl⟩ := hcall
    have hsame := hstored plan hplan
    rw [hkey, hfirst] at hsame
    obtain rfl := Option.some.inj hsame
    exact hchildren child hchild

theorem settles_walk (hstored : ∀ plan ∈ plans, firstAt walked plan.key = some plan) {tree : Plan}
    (hunnested : tree.Unnested) : Settles plans walked tree.walk := by
  -- The key of the root joins the ancestors of the children, and the root is settled after them.
  induction tree using Plan.induct with
  | step tree ih =>
      intro before after ancestors hwalked hbefore hpart
      have hchildren : ∀ node ∈ tree.children.flatMap Plan.walk, Settled plans node.key := by
        refine settles_flatMap (fun child hchild ↦ ih child hchild (hunnested.child hchild))
          (before ++ [tree]) after (tree.key :: ancestors) ?_ ?_ ?_
        · rw [hwalked, tree.walk_eq]
          simp
        · refine List.forall_mem_append.mpr ⟨fun node hnode hkey ↦ ?_, ?_⟩
          · exact hbefore node hnode fun hmem ↦ hkey (List.mem_cons_of_mem _ hmem)
          · simp
        · intro node hnode
          obtain ⟨child, hchild, hbelow⟩ := List.mem_flatMap.mp hnode
          refine List.not_mem_cons_of_ne_of_not_mem ?_ ?_
          · exact hunnested tree tree.self_mem_walk child hchild node hbelow
          · exact hpart node (Plan.mem_walk_of_mem_child hchild hbelow)
      have hroot : Settled plans tree.key := by
        refine settled_root hstored hwalked (fun node hnode hkey ↦ ?_) fun child hchild ↦ ?_
        · exact hbefore node hnode (hkey ▸ hpart tree tree.self_mem_walk)
        · exact hchildren child (List.mem_flatMap.mpr ⟨child, hchild, child.self_mem_walk⟩)
      rw [tree.walk_eq]
      exact List.forall_mem_cons.mpr ⟨hroot, hchildren⟩

end

namespace Graph

variable {graph : Graph} {id : ComponentId} {resolution : Resolution}

theorem settled_of_resolution (h : graph.resolution id = .ok resolution) :
    ∀ item ∈ resolution.resolvers, ∀ node ∈ item.plan.walk,
      Settled resolution.plans node.key := by
  have hwalk : (resolution.resolvers.map ResolvedResolver.plan).flatMap Plan.walk =
      resolution.resolvers.flatMap fun item ↦ item.plan.walk := List.flatMap_map ..
  have hstored : ∀ plan ∈ resolution.plans,
      firstAt ((resolution.resolvers.map ResolvedResolver.plan).flatMap Plan.walk) plan.key =
        some plan := by
    rw [(resolution_eq_ok h).2, hwalk]
    exact fun plan ↦ Needs.firstAt_walk_of_mem
  have htrees : ∀ tree ∈ resolution.resolvers.map ResolvedResolver.plan, Settles resolution.plans
      ((resolution.resolvers.map ResolvedResolver.plan).flatMap Plan.walk) tree.walk := by
    intro tree htree
    obtain ⟨item, hitem, rfl⟩ := List.mem_map.mp htree
    exact settles_walk hstored (unnested_of_resolution h item hitem)
  have hall := settles_flatMap htrees [] [] [] (by simp) (by simp) (by simp)
  intro item hitem node hnode
  exact hall node (List.mem_flatMap.mpr ⟨item.plan, List.mem_map_of_mem hitem, hnode⟩)

/-- The accessors of a component never call each other in a cycle, whatever includes and
providers refer to each other in the graph. -/
theorem accessors_acyclic (h : graph.resolution id = .ok resolution) (key : PlanKey) :
    ¬ Relation.TransGen (Delegates resolution.plans) key key := by
  intro hcycle
  obtain ⟨_, ⟨plan, hplan, rfl, -⟩, -⟩ := Relation.TransGen.head'_iff.mp hcycle
  rw [(resolution_eq_ok h).2] at hplan
  obtain ⟨hmem, -⟩ := firstAt_eq_some (Needs.firstAt_walk_of_mem hplan)
  obtain ⟨item, hitem, hnode⟩ := List.mem_flatMap.mp hmem
  exact (settled_of_resolution h item hitem plan hnode).not_transGen hcycle

theorem circular_accessors_acyclic : ∃ resolution, circular.resolution 0 = .ok resolution ∧
    resolution.plans.map Plan.key = [.provide 1 2, .provide 0 1] ∧
    ∀ key, ¬ Relation.TransGen (Delegates resolution.plans) key key := by
  have hkeys : (circular.resolution 0).map (fun resolution ↦ resolution.plans.map Plan.key) =
      .ok [.provide 1 2, .provide 0 1] := by decide +kernel
  cases h : circular.resolution 0 with
  | error problem => simp [h, Except.map] at hkeys
  | ok resolution =>
      refine ⟨resolution, rfl, ?_, accessors_acyclic h⟩
      simpa [h, Except.map] using hkeys

end Graph

end Wiring
