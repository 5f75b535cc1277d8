import Mathlib.Data.List.Dedup
import Mathlib.Data.List.Nodup
import Wiring.Plan.Resolution
import Wiring.Proofs.Plan.Tree

/-!
# Stored plans

The plans of the resolvers of a component are walked one after the other, parents before children.
A resolution stores the first plan of each key that is met on the way, and no key twice.
-/

namespace Wiring

/-- The first of the plans that has the key. -/
def firstAt (plans : List Plan) (key : PlanKey) : Option Plan :=
  plans.find? (·.key == key)

theorem firstAt_append (plans more : List Plan) (key : PlanKey) :
    firstAt (plans ++ more) key = (firstAt plans key).or (firstAt more key) :=
  List.find?_append

theorem firstAt_cons_self (plan : Plan) (plans : List Plan) :
    firstAt (plan :: plans) plan.key = some plan := by
  simp [firstAt]

theorem firstAt_eq_some {plans : List Plan} {key : PlanKey} {plan : Plan}
    (h : firstAt plans key = some plan) : plan ∈ plans ∧ plan.key = key :=
  ⟨List.mem_of_find?_eq_some h, by simpa using List.find?_some h⟩

theorem firstAt_eq_none {plans : List Plan} {key : PlanKey} :
    firstAt plans key = none ↔ ∀ plan ∈ plans, plan.key ≠ key := by
  simp [firstAt]

theorem exists_firstAt {plans : List Plan} {plan : Plan} (h : plan ∈ plans) :
    ∃ first, firstAt plans plan.key = some first := by
  cases hfirst : firstAt plans plan.key with
  | none => exact (firstAt_eq_none.mp hfirst plan h rfl).elim
  | some first => exact ⟨first, rfl⟩

theorem firstAt_of_nodup {plans : List Plan} (hkeys : (plans.map Plan.key).Nodup) {plan : Plan}
    (h : plan ∈ plans) : firstAt plans plan.key = some plan := by
  obtain ⟨first, hfirst⟩ := exists_firstAt h
  obtain ⟨hmem, hkey⟩ := firstAt_eq_some hfirst
  rw [hfirst, List.inj_on_of_nodup_map hkeys hmem h hkey]

namespace Needs

theorem plans_visit (needs : Needs) (plan : Plan) :
    (needs.visit plan).plans =
      if needs.plans.any (·.key == plan.key) then needs.plans else needs.plans ++ [plan] := rfl

theorem firstAt_visit (needs : Needs) (plan : Plan) (key : PlanKey) :
    firstAt (needs.visit plan).plans key = firstAt (needs.plans ++ [plan]) key := by
  rw [plans_visit]
  split_ifs with hany
  · obtain ⟨other, hother, hsame⟩ := List.any_eq_true.mp hany
    rw [firstAt_append]
    by_cases hkey : plan.key = key
    · subst hkey
      obtain ⟨first, hfirst⟩ := exists_firstAt hother
      rw [beq_iff_eq.mp hsame] at hfirst
      rw [hfirst, Option.some_or]
    · have hnone : firstAt [plan] key = none := firstAt_eq_none.mpr (by simpa using hkey)
      rw [hnone, Option.or_none]
  · rfl

theorem firstAt_visitAll (needs : Needs) (walked : List Plan) (key : PlanKey) :
    firstAt (walked.foldl visit needs).plans key = firstAt (needs.plans ++ walked) key := by
  induction walked generalizing needs with
  | nil => rw [List.foldl_nil, List.append_nil]
  | cons plan walked ih =>
      rw [List.foldl_cons, ih, firstAt_append, firstAt_visit, ← firstAt_append, List.append_assoc,
        List.singleton_append]

theorem nodup_visit {needs : Needs} (h : (needs.plans.map Plan.key).Nodup) (plan : Plan) :
    ((needs.visit plan).plans.map Plan.key).Nodup := by
  rw [plans_visit]
  split_ifs with hany
  · exact h
  · rw [List.map_append, List.map_singleton]
    refine h.append (List.nodup_singleton _) ?_
    rw [List.disjoint_singleton]
    intro hmem
    obtain ⟨other, hother, hkey⟩ := List.mem_map.mp hmem
    exact hany (List.any_eq_true.mpr ⟨other, hother, beq_iff_eq.mpr hkey⟩)

theorem nodup_visitAll {needs : Needs} (h : (needs.plans.map Plan.key).Nodup)
    (walked : List Plan) : ((walked.foldl visit needs).plans.map Plan.key).Nodup := by
  induction walked generalizing needs with
  | nil => exact h
  | cons plan walked ih => exact ih (nodup_visit h plan)

theorem ofResolvers_eq_foldl (resolvers : List ResolvedResolver) :
    ofResolvers resolvers =
      (resolvers.flatMap fun resolver ↦ resolver.plan.walk).foldl visit ⟨[], []⟩ :=
  List.foldl_flatMap.symm

theorem firstAt_ofResolvers (resolvers : List ResolvedResolver) (key : PlanKey) :
    firstAt (ofResolvers resolvers).plans key =
      firstAt (resolvers.flatMap fun resolver ↦ resolver.plan.walk) key := by
  rw [ofResolvers_eq_foldl, firstAt_visitAll, List.nil_append]

theorem nodup_ofResolvers (resolvers : List ResolvedResolver) :
    ((ofResolvers resolvers).plans.map Plan.key).Nodup := by
  have hempty : ((Needs.mk [] []).plans.map Plan.key).Nodup := List.nodup_nil
  rw [ofResolvers_eq_foldl]
  exact nodup_visitAll hempty _

theorem firstAt_walk_of_mem {resolvers : List ResolvedResolver} {plan : Plan}
    (h : plan ∈ (ofResolvers resolvers).plans) :
    firstAt (resolvers.flatMap fun resolver ↦ resolver.plan.walk) plan.key = some plan := by
  rw [← firstAt_ofResolvers]
  exact firstAt_of_nodup (nodup_ofResolvers _) h

end Needs

/-- The keys of the stored plans are those of all nodes. -/
theorem Needs.mem_keys_ofResolvers {resolvers : List ResolvedResolver} {key : PlanKey} :
    key ∈ (ofResolvers resolvers).plans.map Plan.key ↔
      key ∈ (resolvers.flatMap fun resolver ↦ resolver.plan.walk).map Plan.key := by
  have hkey : ∀ plans : List Plan, key ∈ plans.map Plan.key ↔ ¬ firstAt plans key = none := by
    intro plans
    rw [firstAt_eq_none, List.mem_map]
    push Not
    rfl
  rw [hkey, hkey, firstAt_ofResolvers]

/-- All nodes of the plans of the resolvers. -/
abbrev Resolution.walk (resolution : Resolution) : List Plan :=
  resolution.resolvers.flatMap fun item ↦ item.plan.walk

/-- The number of different keys among these nodes. -/
def Resolution.distinctPlans (resolution : Resolution) : ℕ :=
  (resolution.walk.map Plan.key).dedup.length

end Wiring
