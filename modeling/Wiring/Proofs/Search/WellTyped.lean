import Mathlib
import Wiring.Proofs.Lists
import Wiring.Proofs.Search.Derivable

/-!
# What a plan is made of

Every node of a plan asked its module for the types of its children: a provider for the types of
its parameters, a set for the type of its elements.  The children are plans for just these
requests, so a plan is well typed at every depth, wherever the search found its parts.

A module sees its own providers and those of the modules that it includes, directly or not.  What
stands around it becomes visible only for the types that it requires.  A module that is included
may require a type itself and so turn the search back to the one that includes it, but there the
same request is guarded already.
-/

namespace Wiring.Graph

variable {graph : Graph} {stack : List ModuleId} {guarded : List (ModuleId × TypeId)}
  {type : TypeId} {plan node : Plan}

/-- Something holds of every request that a node made inside its module, and of the child that
answered it. -/
def EachRequest (graph : Graph) (P : ModuleId → TypeId → Plan → Prop) : Plan → Prop
  | .provide _ owner id arguments _ =>
    List.Forall₂ (P owner) (graph.getProvider id).parameters arguments
  | .collect _ type owner elements _ =>
    ∃ element, graph.types.setElement? type = some element ∧
      ∀ plan ∈ elements, P owner element plan

theorem EachRequest.imp_of_mem {P Q : ModuleId → TypeId → Plan → Prop}
    (h : graph.EachRequest P node)
    (hPQ : ∀ type, ∀ child ∈ node.children, P node.owner type child → Q node.owner type child) :
    graph.EachRequest Q node := by
  cases node with
  | provide _ owner id arguments _ =>
      refine (forall₂_mem h).imp ?_
      rintro type child ⟨-, hchild, hP⟩
      exact hPQ type child hchild hP
  | collect _ type owner elements _ =>
      obtain ⟨element, helement, heach⟩ := h
      exact ⟨element, helement, fun plan hplan ↦ hPQ element plan hplan (heach plan hplan)⟩

theorem EachRequest.imp {P Q : ModuleId → TypeId → Plan → Prop} (h : graph.EachRequest P node)
    (hPQ : ∀ type child, P node.owner type child → Q node.owner type child) :
    graph.EachRequest Q node :=
  h.imp_of_mem fun type child _ ↦ hPQ type child

/-- The plan answers a request for the type that was made directly inside the module. -/
def Answers (graph : Graph) (owner : ModuleId) (type : TypeId) (plan : Plan) : Prop :=
  ∃ enclosing guarded, graph.Produces (owner :: enclosing) guarded type plan

namespace Produces

theorem type_eq (h : graph.Produces stack guarded type plan) : plan.type = type := by
  induction h with
  | provide => rfl
  | collect => rfl
  | «include» _ _ _ ih => exact ih
  | enclose _ _ _ ih => exact ih

theorem eachRequest (h : graph.Produces stack guarded type plan) (hnode : node ∈ plan.walk) :
    graph.EachRequest graph.Answers node := by
  induction h with
  | provide _ _ _ length each ih =>
      rcases Plan.mem_walk.mp hnode with rfl | ⟨argument, hargument, hnode⟩
      · exact List.forall₂_iff_zip.mpr ⟨length, fun hpair ↦ ⟨_, _, each _ hpair⟩⟩
      · obtain ⟨parameter, hpair⟩ := exists_mem_zip_of_mem_right length hargument
        exact ih _ hpair hnode
  | collect _ container each ih =>
      rcases Plan.mem_walk.mp hnode with rfl | ⟨element, helement, hnode⟩
      · exact ⟨_, container, fun plan hplan ↦ ⟨_, _, each plan hplan⟩⟩
      · exact ih element helement hnode
  | «include» _ _ _ ih => exact ih hnode
  | enclose _ _ _ ih => exact ih hnode

/-- A provider that is called in a plan is one of its module and serves the type of its node. -/
theorem declared_and_serves (h : graph.Produces stack guarded type plan)
    {nodeType : TypeId} {owner : ModuleId} {id : ProviderId} {arguments : List Plan} {async : Bool}
    (hnode : .provide nodeType owner id arguments async ∈ plan.walk) :
    id ∈ (graph.getModule owner).providers ∧
      graph.serves (graph.getProvider id).returns nodeType = true := by
  induction h with
  | provide _ declared serves length _ ih =>
      rcases Plan.mem_walk.mp hnode with heq | ⟨argument, hargument, hnode⟩
      · obtain ⟨rfl, rfl, rfl, -, -⟩ := Plan.provide.inj heq
        exact ⟨declared, serves⟩
      · obtain ⟨parameter, hpair⟩ := exists_mem_zip_of_mem_right length hargument
        exact ih _ hpair hnode
  | collect _ _ _ ih =>
      rcases Plan.mem_walk.mp hnode with heq | ⟨element, helement, hnode⟩
      · exact Plan.noConfusion heq
      · exact ih element helement hnode
  | «include» _ _ _ ih => exact ih hnode
  | enclose _ _ _ ih => exact ih hnode

end Produces

/-- The types at a node fit together. -/
inductive WellTyped (graph : Graph) : Plan → Prop where
  | provide {type : TypeId} {owner : ModuleId} {id : ProviderId} {arguments : List Plan}
      {async : Bool}
      (declared : id ∈ (graph.getModule owner).providers)
      (matching : graph.types.isEquivalent (graph.getProvider id).returns type = true ∨
        graph.types.isEquivalent (graph.getProvider id).returns
          (graph.types.awaited type) = true ∨
        graph.types.isEquivalent (graph.types.awaited (graph.getProvider id).returns)
          type = true)
      (wanted : arguments.map Plan.type = (graph.getProvider id).parameters) :
      WellTyped graph (.provide type owner id arguments async)
  | collect {id : SetId} {type element : TypeId} {owner : ModuleId} {elements : List Plan}
      {async : Bool}
      (container : graph.types.get type = .generic TypeTable.setName [element])
      (wanted : ∀ plan ∈ elements, plan.type = element) :
      WellTyped graph (.collect id type owner elements async)

theorem Produces.wellTyped (h : graph.Produces stack guarded type plan)
    (hnode : node ∈ plan.walk) : graph.WellTyped node := by
  have hrequests : graph.EachRequest (fun _ type child ↦ child.type = type) node := by
    refine (h.eachRequest hnode).imp fun type child hchild ↦ ?_
    obtain ⟨_, _, hproduces⟩ := hchild
    exact hproduces.type_eq
  cases node with
  | provide nodeType owner id arguments async =>
      obtain ⟨hdeclared, hserves⟩ := h.declared_and_serves hnode
      refine .provide hdeclared (serves_iff.mp hserves) ?_
      rw [← List.forall₂_eq_eq_eq, List.forall₂_map_left_iff]
      exact List.Forall₂.flip hrequests
  | collect id nodeType owner elements async =>
      obtain ⟨element, helement, heach⟩ := hrequests
      exact .collect (TypeTable.get_of_argumentOf?_eq_some helement) heach

/-- Every plan that an engine finds for a type, whatever it was asked before, is a plan for this
type, and the types at each of its nodes fit together. -/
theorem candidates_wellTyped {root : ModuleId} {state : Search}
    (h : plan ∈ (graph.candidates root type state).1) :
    plan.type = type ∧ ∀ node ∈ plan.walk, graph.WellTyped node := by
  have hproduces := produces_of_mem_candidates h
  exact ⟨hproduces.type_eq, fun node hnode ↦ hproduces.wellTyped hnode⟩

/-- A server collects its handlers from a module that requires a configuration for one of them and
produces the other one asynchronously. -/
def gathering : Graph where
  types := ((((TypeTable.empty.intern (.nominal "Config")).2.intern (.nominal "Handler")).2.intern
    (.generic "Set" [1])).2.intern (.nominal "Server")).2.intern (.generic "Promise" [1]) |>.2
  modules := [⟨"Root", ⟨"root.ts"⟩, [0, 1], [1], []⟩, ⟨"Base", ⟨"base.ts"⟩, [2, 3], [], [0]⟩]
  providers := [⟨"config", 0, [], 0, false⟩, ⟨"serve", 0, [2], 3, false⟩,
    ⟨"handle", 1, [0], 1, false⟩, ⟨"later", 1, [], 4, true⟩]
  components := []

def gatheringPlan : Plan :=
  let handle : Plan := .provide 1 1 2 [.provide 0 0 0 [] false] false
  let later : Plan := .provide 1 1 3 [] true
  .provide 3 0 1 [.collect 0 2 0 [handle, later] true] true

theorem gathering_candidates : (gathering.candidates 0 3 .start).1 = [gatheringPlan] := by
  cbv

theorem gathering_wellTyped : gatheringPlan ∈ (gathering.candidates 0 3 .start).1 ∧
    gatheringPlan.type = 3 ∧ ∀ node ∈ gatheringPlan.walk, gathering.WellTyped node := by
  have hfound : gatheringPlan ∈ (gathering.candidates 0 3 .start).1 :=
    gathering_candidates ▸ List.mem_singleton_self gatheringPlan
  exact ⟨hfound, candidates_wellTyped hfound⟩

/-! ## Encapsulation -/

/-- The other module is the first one itself, or is included by it over any number of steps. -/
def Sees (graph : Graph) (owner other : ModuleId) : Prop :=
  Relation.ReflTransGen (fun including included ↦
    included ∈ (graph.getModule including).includes) owner other

/-- The way out of a module is closed for a type: the module does not require the type, or nothing
is around it, or the same request of the module around it is under way. -/
def ShutIn (graph : Graph) (guarded : List (ModuleId × TypeId)) (type : TypeId) :
    List ModuleId → Prop
  | [] => True
  | owner :: enclosing => type ∈ (graph.getModule owner).requires →
    ∀ outer ∈ enclosing.head?, (outer, type) ∈ guarded

namespace Produces

/-- A request that cannot leave its module is answered by a module that it sees. -/
theorem sees_owner {owner : ModuleId} {enclosing : List ModuleId}
    (h : graph.Produces (owner :: enclosing) guarded type plan)
    (hshut : graph.ShutIn guarded type (owner :: enclosing)) : graph.Sees owner plan.owner := by
  generalize hstack : owner :: enclosing = stack at h
  induction h generalizing owner enclosing with
  | provide =>
      obtain ⟨rfl, rfl⟩ := List.cons.inj hstack
      exact .refl
  | collect =>
      obtain ⟨rfl, rfl⟩ := List.cons.inj hstack
      exact .refl
  | «include» _ visible _ ih =>
      obtain ⟨rfl, rfl⟩ := List.cons.inj hstack
      -- The way back out of an included module leads to the request that is guarded here.
      exact .head visible (ih (fun _ _ houter ↦ by simp_all) rfl)
  | @enclose owner enclosing guarded type plan _ required outside _ =>
      obtain ⟨rfl, rfl⟩ := List.cons.inj hstack
      cases enclosing with
      | nil => cases outside
      | cons outer rest =>
          have hguarded : (outer, type) ∈ guarded := hshut required outer rfl
          exact (outside.fresh_head (List.mem_cons_of_mem _ hguarded)).elim

theorem sees_or_requires {owner : ModuleId} (h : graph.Answers owner type plan) :
    graph.Sees owner plan.owner ∨ type ∈ (graph.getModule owner).requires := by
  obtain ⟨enclosing, guarded, hproduces⟩ := h
  by_cases hrequired : type ∈ (graph.getModule owner).requires
  · exact Or.inr hrequired
  · exact Or.inl (hproduces.sees_owner fun h ↦ (hrequired h).elim)

end Produces

/-- Every plan that an engine finds inside a root module belongs to a module that the root sees.
Every node of the plan belongs to a module that sees the owners of the children, except where it
requires the very type that it asked for. -/
theorem candidates_encapsulated {root : ModuleId} {state : Search}
    (h : plan ∈ (graph.candidates root type state).1) :
    graph.Sees root plan.owner ∧
    ∀ node ∈ plan.walk, graph.EachRequest (fun owner type child ↦
      graph.Sees owner child.owner ∨ type ∈ (graph.getModule owner).requires) node := by
  have hproduces := produces_of_mem_candidates h
  refine ⟨hproduces.sees_owner (fun _ _ houter ↦ by simp at houter), fun node hnode ↦ ?_⟩
  exact (hproduces.eachRequest hnode).imp fun type child ↦ Produces.sees_or_requires

theorem gathering_encapsulated : gatheringPlan ∈ (gathering.candidates 0 3 .start).1 ∧
    gathering.Sees 0 gatheringPlan.owner ∧
    ∀ node ∈ gatheringPlan.walk, gathering.EachRequest (fun owner type child ↦
      gathering.Sees owner child.owner ∨ type ∈ (gathering.getModule owner).requires) node := by
  have hfound : gatheringPlan ∈ (gathering.candidates 0 3 .start).1 :=
    gathering_candidates ▸ List.mem_singleton_self gatheringPlan
  exact ⟨hfound, candidates_encapsulated hfound⟩

end Wiring.Graph
