import Mathlib.Data.List.Nodup
import Wiring.Plan.Search

/-!
# Plans as trees

Induction over plans, the nodes that a walk meets, and the numbers of the sets among them.

The skeleton of a plan is the plan without the types that were asked for and without the numbers
of its sets.  The surface of a plan is what its own accessor says: the accessors that it calls for
its arguments, and the elements that it collects in place.
-/

namespace Wiring

def PlanKey.setId? : PlanKey → Option SetId
  | .provide _ _ => none
  | .collect id => some id

namespace Plan

/-- What holds of a plan when it holds of its children holds of every plan. -/
@[elab_as_elim] theorem induct {motive : Plan → Prop}
    (step : ∀ plan, (∀ child ∈ plan.children, motive child) → motive plan) (plan : Plan) :
    motive plan :=
  @Plan.rec motive (fun plans ↦ ∀ plan ∈ plans, motive plan)
    (fun _ _ _ _ _ ih ↦ step _ ih) (fun _ _ _ _ _ ih ↦ step _ ih)
    (fun _ h ↦ (List.not_mem_nil h).elim)
    (fun _ _ hhead htail plan hplan ↦ (List.mem_cons.mp hplan).elim (· ▸ hhead) (htail plan)) plan

theorem mem_walk {node plan : Plan} :
    node ∈ plan.walk ↔ node = plan ∨ ∃ child ∈ plan.children, node ∈ child.walk := by
  rw [walk_eq, List.mem_cons, List.mem_flatMap]

@[simp] theorem self_mem_walk (plan : Plan) : plan ∈ plan.walk :=
  mem_walk.mpr (Or.inl rfl)

theorem mem_walk_of_mem_child {node child plan : Plan} (hchild : child ∈ plan.children)
    (h : node ∈ child.walk) : node ∈ plan.walk :=
  mem_walk.mpr (Or.inr ⟨child, hchild, h⟩)

theorem walk_sublist {node plan : Plan} (h : node ∈ plan.walk) : node.walk.Sublist plan.walk := by
  induction plan using induct with
  | step plan ih =>
      rcases mem_walk.mp h with rfl | ⟨child, hchild, hnode⟩
      · exact List.Sublist.refl _
      · rw [plan.walk_eq]
        refine (ih child hchild hnode).trans (List.Sublist.cons _ ?_)
        exact List.sublist_flatten_of_mem (List.mem_map_of_mem hchild)

theorem child_mem_walk {node child plan : Plan} (h : node ∈ plan.walk)
    (hchild : child ∈ node.children) : child ∈ plan.walk :=
  (walk_sublist h).subset (mem_walk_of_mem_child hchild child.self_mem_walk)

/-- The numbers of the sets in a plan, in the order of the walk. -/
def setIds (plan : Plan) : List SetId :=
  plan.walk.filterMap fun node ↦ node.key.setId?

theorem mem_setIds {id : SetId} {plan : Plan} :
    id ∈ plan.setIds ↔ ∃ node ∈ plan.walk, node.key = .collect id := by
  rw [setIds, List.mem_filterMap]
  refine exists_congr fun node ↦ and_congr_right fun _ ↦ ?_
  cases node.key <;> simp [PlanKey.setId?]

theorem setIds_eq (plan : Plan) :
    plan.setIds = plan.key.setId?.toList ++ plan.children.flatMap setIds := by
  have hchildren : (plan.children.flatMap walk).filterMap (fun node ↦ node.key.setId?) =
      plan.children.flatMap setIds := List.filterMap_flatMap
  rw [setIds, walk_eq, List.filterMap_cons, hchildren]
  cases plan.key.setId? <;> rfl

theorem setIds_sublist {node plan : Plan} (h : node ∈ plan.walk) :
    node.setIds.Sublist plan.setIds :=
  (walk_sublist h).filterMap _

/-- No node occurs below another one of its key. -/
def Unnested (plan : Plan) : Prop :=
  ∀ node ∈ plan.walk, ∀ child ∈ node.children, ∀ below ∈ child.walk, below.key ≠ node.key

theorem Unnested.child {plan child : Plan} (h : plan.Unnested) (hchild : child ∈ plan.children) :
    child.Unnested :=
  fun node hnode ↦ h node (mem_walk_of_mem_child hchild hnode)

theorem key_ne_of_nodup_setIds {plan node child below : Plan} (h : plan.setIds.Nodup)
    (hnode : node ∈ plan.walk) (hchild : child ∈ node.children) (hbelow : below ∈ child.walk)
    {id : SetId} (hkey : node.key = .collect id) : below.key ≠ node.key := by
  intro hsame
  have hnodup : node.setIds.Nodup := h.sublist (setIds_sublist hnode)
  rw [setIds_eq, hkey] at hnodup
  have hfresh : id ∉ node.children.flatMap setIds := (List.nodup_cons.mp hnodup).1
  refine hfresh (List.mem_flatMap.mpr ⟨child, hchild, mem_setIds.mpr ⟨below, hbelow, ?_⟩⟩)
  rw [hsame, hkey]

/-! ## What plans have in common -/

def withChildren : Plan → List Plan → Plan
  | provide type owner id _ async, children => provide type owner id children async
  | collect id type owner _ async, children => collect id type owner children async

def bare : Plan → Plan
  | provide _ owner id _ async => provide 0 owner id [] async
  | collect _ _ owner _ async => collect 0 0 owner [] async

mutual

/-- The plan without the types and numbers in it. -/
def skeleton : Plan → Plan
  | provide _ owner id arguments async => provide 0 owner id (skeletonAll arguments) async
  | collect _ _ owner elements async => collect 0 0 owner (skeletonAll elements) async

def skeletonAll : List Plan → List Plan
  | [] => []
  | plan :: plans => skeleton plan :: skeletonAll plans

end

mutual

/-- What a plan with this child says about the child: a provider goes by its accessor, and a set
by its elements. -/
def callee : Plan → Plan
  | provide _ owner id _ _ => provide 0 owner id [] false
  | collect _ _ owner elements async => collect 0 0 owner (calleeAll elements) async

def calleeAll : List Plan → List Plan
  | [] => []
  | plan :: plans => callee plan :: calleeAll plans

end

/-- The plan with its children as they are called. -/
def surface (plan : Plan) : Plan :=
  plan.bare.withChildren (plan.children.map callee)

theorem skeletonAll_eq_map (plans : List Plan) : skeletonAll plans = plans.map skeleton := by
  induction plans with
  | nil => rfl
  | cons plan plans ih => rw [skeletonAll, ih, List.map_cons]

theorem calleeAll_eq_map (plans : List Plan) : calleeAll plans = plans.map callee := by
  induction plans with
  | nil => rfl
  | cons plan plans ih => rw [calleeAll, ih, List.map_cons]

theorem skeleton_eq (plan : Plan) :
    plan.skeleton = plan.bare.withChildren (plan.children.map skeleton) := by
  cases plan <;> rw [skeleton, skeletonAll_eq_map] <;> rfl

@[simp] theorem bare_withChildren (plan : Plan) (children : List Plan) :
    (plan.withChildren children).bare = plan.bare := by
  cases plan <;> rfl

@[simp] theorem children_withChildren (plan : Plan) (children : List Plan) :
    (plan.withChildren children).children = children := by
  cases plan <;> rfl

theorem bare_withChildren_inj {plan other : Plan} {children more : List Plan} :
    plan.bare.withChildren children = other.bare.withChildren more ↔
      plan.bare = other.bare ∧ children = more := by
  cases plan <;> cases other <;> simp [bare, withChildren] <;> tauto

theorem skeleton_inj {plan other : Plan} : plan.skeleton = other.skeleton ↔
    plan.bare = other.bare ∧ plan.children.map skeleton = other.children.map skeleton := by
  rw [skeleton_eq, skeleton_eq, bare_withChildren_inj]

theorem surface_inj {plan other : Plan} : plan.surface = other.surface ↔
    plan.bare = other.bare ∧ plan.children.map callee = other.children.map callee :=
  bare_withChildren_inj

theorem callee_of_provide {plan : Plan} {owner : ModuleId} {id : ProviderId}
    (h : plan.key = .provide owner id) : plan.callee = provide 0 owner id [] false := by
  cases plan <;> simp_all [key, callee]

theorem callee_of_collect {plan : Plan} {id : SetId} (h : plan.key = .collect id) :
    plan.callee = plan.surface := by
  cases plan with
  | provide type owner provider arguments async => exact PlanKey.noConfusion h
  | collect number type owner elements async =>
      rw [callee, calleeAll_eq_map]
      rfl

theorem provide_of_callee_eq {plan other : Plan} (h : plan.callee = other.callee)
    {owner : ModuleId} {id : ProviderId} (hkey : other.key = .provide owner id) :
    plan.key = .provide owner id := by
  rw [callee_of_provide hkey] at h
  cases plan <;> simp_all [key, callee]

theorem provide_of_bare_eq {plan other : Plan} (h : plan.bare = other.bare) {owner : ModuleId}
    {id : ProviderId} (hkey : other.key = .provide owner id) : plan.key = .provide owner id := by
  cases plan <;> cases other <;> simp_all [key, bare]

theorem collect_of_callee_eq {plan other : Plan} (h : plan.callee = other.callee) {id : SetId}
    (hkey : other.key = .collect id) : ∃ number, plan.key = .collect number := by
  cases plan <;> cases other <;> simp_all [key, callee]

theorem collect_of_bare_eq {plan other : Plan} (h : plan.bare = other.bare) {id : SetId}
    (hkey : other.key = .collect id) : ∃ number, plan.key = .collect number := by
  cases plan <;> cases other <;> simp_all [key, bare]

end Plan

end Wiring
