import Wiring.Code.Implementation
import Wiring.Proofs.Graph.Unrepeated
import Wiring.Proofs.Resolution.Resolvers
import Wiring.Proofs.Resolution.Stored
import Wiring.Proofs.Search.WellTyped

/-!
# Instances of modules

A resolution names every module that owns one of its plans, each of them once.  In a graph that is
built by declarations they are modules of the graph, so their names tell them apart.
-/

namespace Wiring

namespace Needs

theorem modules_visit (needs : Needs) (plan : Plan) : (needs.visit plan).modules =
    if plan.owner ∈ needs.modules then needs.modules else needs.modules ++ [plan.owner] := by
  simp [visit]

theorem mem_modules_visitAll {needs : Needs} {walked : List Plan} {owner : ModuleId} :
    owner ∈ (walked.foldl visit needs).modules ↔
      owner ∈ needs.modules ∨ ∃ plan ∈ walked, plan.owner = owner := by
  induction walked generalizing needs with
  | nil => simp
  | cons plan walked ih =>
      have hvisit : owner ∈ (needs.visit plan).modules ↔
          owner ∈ needs.modules ∨ plan.owner = owner := by
        rw [modules_visit]
        split_ifs with hknown
        · exact (or_iff_left_of_imp fun heq ↦ heq ▸ hknown).symm
        · simp [eq_comm]
      rw [List.foldl_cons, ih, hvisit, or_assoc, List.exists_mem_cons_iff]

theorem nodup_modules_visitAll {needs : Needs} (h : needs.modules.Nodup) (walked : List Plan) :
    (walked.foldl visit needs).modules.Nodup := by
  induction walked generalizing needs with
  | nil => exact h
  | cons plan walked ih =>
      refine ih ?_
      rw [modules_visit]
      split_ifs with hknown
      · exact h
      · exact h.append (List.nodup_singleton _) (List.disjoint_singleton.mpr hknown)

end Needs

namespace Graph

variable {graph : Graph} {id : ComponentId} {resolution : Resolution} {owner : ModuleId}

theorem modules_of_resolution (h : graph.resolution id = .ok resolution) :
    resolution.modules = (Needs.ofResolvers resolution.resolvers).modules := by
  rw [resolution_def] at h
  obtain ⟨resolved, -, h⟩ := bind_eq_ok.mp h
  obtain rfl := Except.ok.inj h
  rfl

theorem mem_modules_iff (h : graph.resolution id = .ok resolution) :
    owner ∈ resolution.modules ↔ ∃ plan ∈ resolution.walk, plan.owner = owner := by
  rw [modules_of_resolution h, Needs.ofResolvers_eq_foldl, Needs.mem_modules_visitAll]
  exact or_iff_right List.not_mem_nil

theorem nodup_modules (h : graph.resolution id = .ok resolution) : resolution.modules.Nodup := by
  rw [modules_of_resolution h, Needs.ofResolvers_eq_foldl]
  have hempty : (Needs.mk [] []).modules.Nodup := List.nodup_nil
  exact Needs.nodup_modules_visitAll hempty _

theorem Produces.owner_lt {stack : List ModuleId} {guarded : List (ModuleId × TypeId)}
    {type : TypeId} {plan node : Plan} (h : graph.Produces stack guarded type plan)
    (hclosed : graph.Closed) (hstack : ∀ id ∈ stack, id < graph.modules.length)
    (hnode : node ∈ plan.walk) : node.owner < graph.modules.length := by
  induction h with
  | provide _ _ _ length _ ih =>
      rcases Plan.mem_walk.mp hnode with rfl | ⟨argument, hargument, hnode⟩
      · exact hstack _ List.mem_cons_self
      · obtain ⟨wanted, hpair⟩ := exists_mem_zip_of_mem_right length hargument
        exact ih _ hpair hstack hnode
  | collect _ _ _ ih =>
      rcases Plan.mem_walk.mp hnode with rfl | ⟨element, helement, hnode⟩
      · exact hstack _ List.mem_cons_self
      · exact ih element helement hstack hnode
  | «include» _ visible _ ih =>
      refine ih (List.forall_mem_cons.mpr ⟨hclosed.includes_lt _ _ visible, hstack⟩) hnode
  | enclose _ _ _ ih => exact ih (fun id hid ↦ hstack id (List.mem_cons_of_mem _ hid)) hnode

theorem root_lt_of_mem_resolvers (hclosed : graph.Closed) (h : graph.resolution id = .ok resolution)
    {item : ResolvedResolver} (hitem : item ∈ resolution.resolvers) :
    (graph.getComponent id).root < graph.modules.length := by
  obtain ⟨hresolved, -⟩ := resolution_eq_ok h
  cases hresolvers : (graph.getComponent id).resolvers with
  | nil =>
      rw [hresolvers] at hresolved
      have hnone : [] = resolution.resolvers := Except.ok.inj hresolved
      exact (List.not_mem_nil (hnone ▸ hitem)).elim
  | cons resolver resolvers =>
      exact (hclosed.getComponent (hresolvers ▸ List.mem_cons_self)).1

theorem exists_produces_of_mem_walk (h : graph.resolution id = .ok resolution)
    {plan : Plan} (hplan : plan ∈ resolution.walk) :
    ∃ item ∈ resolution.resolvers, plan ∈ item.plan.walk ∧ ∃ type,
      graph.Produces [(graph.getComponent id).root] Search.start.guarded type item.plan := by
  obtain ⟨item, hitem, hnode⟩ := List.mem_flatMap.mp hplan
  exact ⟨item, hitem, hnode, produces_of_resolveAll (resolution_eq_ok h).1 item hitem⟩

theorem owner_lt_of_mem_walk (hclosed : graph.Closed) (h : graph.resolution id = .ok resolution)
    {plan : Plan} (hplan : plan ∈ resolution.walk) : plan.owner < graph.modules.length := by
  obtain ⟨item, hitem, hnode, type, hproduces⟩ := exists_produces_of_mem_walk h hplan
  exact hproduces.owner_lt hclosed
    (List.forall_mem_singleton.mpr (root_lt_of_mem_resolvers hclosed h hitem)) hnode

theorem lt_of_mem_modules (hclosed : graph.Closed) (h : graph.resolution id = .ok resolution) :
    ∀ owner ∈ resolution.modules, owner < graph.modules.length := by
  intro owner howner
  obtain ⟨plan, hplan, rfl⟩ := (mem_modules_iff h).mp howner
  exact owner_lt_of_mem_walk hclosed h hplan

theorem declared_of_mem_walk (h : graph.resolution id = .ok resolution)
    {plan : Plan} (hplan : plan ∈ resolution.walk) {provider : ProviderId}
    (hkey : plan.key = .provide owner provider) :
    provider ∈ (graph.getModule owner).providers ∧ plan.owner = owner := by
  obtain ⟨item, hitem, hnode, type, hproduces⟩ := exists_produces_of_mem_walk h hplan
  cases plan with
  | provide nodeType nodeOwner nodeProvider arguments async =>
      obtain ⟨rfl, rfl⟩ := PlanKey.provide.inj hkey
      exact ⟨(hproduces.declared_and_serves hnode).1, rfl⟩
  | collect number nodeType nodeOwner elements async => exact PlanKey.noConfusion hkey

/-- The fields that hold the instances have different names. -/
theorem moduleField_inj (hbuilt : graph.Built) {other : ModuleId}
    (howner : owner < graph.modules.length) (hother : other < graph.modules.length)
    (hfield : graph.moduleField owner = graph.moduleField other) : owner = other :=
  hbuilt.eq_of_name_eq howner hother ((String.append_right_inj "_").mp hfield)

end Graph

end Wiring
