import Wiring.Plan.Resolution
import Wiring.Proofs.Plan.Tree
import Wiring.Proofs.Search.Renumbered

/-!
# Resolutions in graphs with the same declarations

Components are resolved alike in two graphs that declare the same things, or they fail alike.  Only
the text of a type in an error may differ, since it lists the members of unions in the order of
their identities.
-/

namespace Wiring

/-- An error without the text of the type that it is about. -/
def Error.withoutType : Error → Error
  | unresolved component resolver _ => unresolved component resolver ""
  | ambiguous component resolver _ candidates => ambiguous component resolver "" candidates
  | asynchronous component resolver _ => asynchronous component resolver ""
  | error => error

/-- The second outcome is the image of the first one, or both are errors that differ at most in the
text of a type. -/
inductive SameOutcome {α β : Type} (image : α → β) : Except Error α → Except Error β → Prop where
  | ok (a : α) : SameOutcome image (.ok a) (.ok (image a))
  | error {left right : Error} (same : left.withoutType = right.withoutType) :
      SameOutcome image (.error left) (.error right)

namespace SameOutcome

variable {α β γ δ : Type} {image : α → β} {target : γ → δ}

theorem bind {x : Except Error α} {y : Except Error β} {f : α → Except Error γ}
    {g : β → Except Error δ} (h : SameOutcome image x y)
    (hrest : ∀ a, SameOutcome target (f a) (g (image a))) :
    SameOutcome target (x >>= f) (y >>= g) := by
  cases h with
  | ok a => exact hrest a
  | error same => exact .error same

theorem mapM {f : γ → Except Error α} {g : γ → Except Error β} {items : List γ}
    (h : ∀ item ∈ items, SameOutcome image (f item) (g item)) :
    SameOutcome (List.map image) (items.mapM f) (items.mapM g) := by
  induction items with
  | nil => exact .ok []
  | cons item items ih =>
      obtain ⟨hitem, hitems⟩ := List.forall_mem_cons.mp h
      rw [List.mapM_cons, List.mapM_cons]
      exact hitem.bind fun a ↦ (ih hitems).bind fun rest ↦ .ok (a :: rest)

end SameOutcome

variable {r : Renumbering}

def PlanKey.rename (r : Renumbering) : PlanKey → PlanKey
  | .provide owner provider => .provide (r.modules owner) (r.providers provider)
  | .collect id => .collect id

theorem PlanKey.rename_injective (r : Renumbering) : Function.Injective (PlanKey.rename r) := by
  intro key other h
  cases key <;> cases other <;> simp_all [PlanKey.rename]

namespace Plan

@[simp] theorem key_rename (r : Renumbering) (plan : Plan) :
    (plan.rename r).key = plan.key.rename r := by
  cases plan <;> rfl

@[simp] theorem owner_rename (r : Renumbering) (plan : Plan) :
    (plan.rename r).owner = r.modules plan.owner := by
  cases plan <;> rfl

@[simp] theorem children_rename (r : Renumbering) (plan : Plan) :
    (plan.rename r).children = plan.children.map (Plan.rename r) := by
  cases plan <;> exact renameAll_eq_map r _

theorem walk_rename (r : Renumbering) (plan : Plan) :
    (plan.rename r).walk = plan.walk.map (Plan.rename r) := by
  induction plan using induct with
  | step plan ih =>
      rw [walk_eq, plan.walk_eq, children_rename, List.flatMap_map, List.map_cons,
        List.map_flatMap]
      congr 1
      exact List.flatMap_congr ih

end Plan

def ResolvedResolver.rename (r : Renumbering) (resolver : ResolvedResolver) : ResolvedResolver :=
  ⟨resolver.name, resolver.plan.rename r⟩

def Needs.rename (r : Renumbering) (needs : Needs) : Needs :=
  ⟨needs.modules.map r.modules, needs.plans.map (Plan.rename r)⟩

def Resolution.rename (r : Renumbering) (resolution : Resolution) : Resolution where
  component := resolution.component
  resolvers := resolution.resolvers.map (ResolvedResolver.rename r)
  modules := resolution.modules.map r.modules
  plans := resolution.plans.map (Plan.rename r)

namespace Needs

theorem visit_rename (r : Renumbering) (needs : Needs) (plan : Plan) :
    (needs.rename r).visit (plan.rename r) = (needs.visit plan).rename r := by
  have hmodules : (needs.modules.map r.modules).contains (r.modules plan.owner) =
      needs.modules.contains plan.owner := by
    rw [Bool.eq_iff_iff, List.contains_iff_mem, List.contains_iff_mem]
    exact List.mem_map_of_injective r.modules.injective
  have hplans : (needs.plans.map (Plan.rename r)).any (·.key == (plan.rename r).key) =
      needs.plans.any (·.key == plan.key) := by
    rw [List.any_map]
    refine congrArg needs.plans.any (funext fun other ↦ ?_)
    rw [Bool.eq_iff_iff]
    simp [(PlanKey.rename_injective r).eq_iff]
  simp only [visit, rename, Plan.owner_rename, hmodules, hplans, Needs.mk.injEq]
  constructor
  · split_ifs <;> simp
  · split_ifs <;> simp

theorem visitAll_rename (r : Renumbering) (needs : Needs) (plan : Plan) :
    (needs.rename r).visitAll (plan.rename r) = (needs.visitAll plan).rename r := by
  rw [visitAll, visitAll, Plan.walk_rename, List.foldl_map]
  induction plan.walk generalizing needs with
  | nil => rfl
  | cons node nodes ih => rw [List.foldl_cons, List.foldl_cons, visit_rename, ih]

theorem ofResolvers_rename (r : Renumbering) (resolvers : List ResolvedResolver) :
    ofResolvers (resolvers.map (ResolvedResolver.rename r)) = (ofResolvers resolvers).rename r := by
  have hfold : ∀ needs : Needs,
      (resolvers.map (ResolvedResolver.rename r)).foldl
          (fun needs resolver ↦ needs.visitAll resolver.plan) (needs.rename r) =
        (resolvers.foldl (fun needs resolver ↦ needs.visitAll resolver.plan) needs).rename r := by
    induction resolvers with
    | nil => exact fun _ ↦ rfl
    | cons resolver resolvers ih =>
        intro needs
        rw [List.map_cons, List.foldl_cons, List.foldl_cons, ← ih, ResolvedResolver.rename,
          visitAll_rename]
  exact hfold ⟨[], []⟩

end Needs

namespace Graph

variable {graph other : Graph}

theorem renumbered_onlyPlan (h : graph.Renumbered r other) (component : Component)
    (resolver : Resolver) (plans : List Plan) :
    SameOutcome (Plan.rename r) (graph.onlyPlan component resolver plans)
      (other.onlyPlan (component.rename r) (resolver.rename r) (plans.map (Plan.rename r))) := by
  rcases plans with _ | ⟨plan, _ | ⟨second, rest⟩⟩
  · exact .error rfl
  · rw [List.map_singleton, onlyPlan, onlyPlan, Plan.isAsync_rename, Resolver.rename,
      h.types.isPromise]
    split_ifs
    · exact .error rfl
    · exact .ok plan
  · refine .error ?_
    simp only [Error.withoutType, List.length_cons, List.length_map]
    rfl

theorem renumbered_resolveAll (h : graph.Renumbered r other) (component : Component)
    (resolvers : List Resolver) (state : Search) :
    SameOutcome (List.map (ResolvedResolver.rename r)) (graph.resolveAll component resolvers state)
      (other.resolveAll (component.rename r) (resolvers.map (Resolver.rename r))
        (state.rename r)) := by
  induction resolvers generalizing state with
  | nil => exact .ok []
  | cons resolver resolvers ih =>
      rw [List.map_cons, resolveAll, resolveAll]
      have hfound : other.candidates (component.rename r).root (resolver.rename r).returns
          (state.rename r) = _ := h.candidates component.root resolver.returns state
      simp only [hfound]
      refine (renumbered_onlyPlan h component resolver _).bind fun plan ↦ ?_
      exact (ih _).bind fun rest ↦ .ok (⟨resolver.name, plan⟩ :: rest)

theorem Renumbered.getComponent (h : graph.Renumbered r other) {id : ComponentId}
    (hid : id < graph.components.length) :
    other.getComponent id = (graph.getComponent id).rename r := by
  have hlt : id < (graph.components.map (Component.rename r)).length := by rwa [List.length_map]
  rw [Graph.getComponent, Graph.getComponent, h.components, List.getD_eq_getElem _ _ hlt,
    List.getD_eq_getElem _ _ hid, List.getElem_map]

theorem Renumbered.resolution (h : graph.Renumbered r other) {id : ComponentId}
    (hid : id < graph.components.length) :
    SameOutcome (Resolution.rename r) (graph.resolution id) (other.resolution id) := by
  rw [Graph.resolution, Graph.resolution, h.getComponent hid]
  refine (renumbered_resolveAll h _ _ .start).bind fun resolvers ↦ ?_
  rw [Needs.ofResolvers_rename]
  exact .ok _

end Graph

end Wiring
