import Mathlib.Data.List.Infix
import Wiring.Code.Implementation

/-!
# Settled names

Accessors are written while sets still get their numbers.  A number stays once it is given, so what
is written early is written the same way under the numbers that the sets have in the end, and the
methods of an implementation can be described one by one.
-/

namespace Wiring

namespace Numbering

variable {α β : Type} {numbering later : Numbering}

theorem number_eq (numbering : Numbering) (id : SetId) : numbering.number id =
    (numbering.idxOf id, if id ∈ numbering then numbering else numbering ++ [id]) := by
  rw [number, List.idxOf_eq_getD_idxOf?]
  cases h : numbering.idxOf? id with
  | none => rw [if_neg (List.idxOf?_eq_none_iff.mp h), Option.getD_none]
  | some index => rw [if_pos (List.isSome_idxOf?.mp (h ▸ rfl)), Option.getD_some]

theorem mem_number (numbering : Numbering) (id : SetId) : id ∈ (numbering.number id).2 := by
  rw [number_eq]
  split_ifs with hid
  · exact hid
  · exact List.mem_concat_self

/-- What is written extends the numbering, and it is written the same way under every numbering
that goes on from there. -/
structure Settles (write : Numbering → α × Numbering) : Prop where
  grows : ∀ numbering, numbering <+: (write numbering).2
  again : ∀ numbering later, (write numbering).2 <+: later →
    write later = ((write numbering).1, later)

namespace Settles

variable {write : Numbering → α × Numbering} {next : α → Numbering → β × Numbering}

theorem bind (h : Settles write) (hnext : ∀ a, Settles (next a)) :
    Settles fun numbering ↦ next (write numbering).1 (write numbering).2 where
  grows numbering := (h.grows numbering).trans ((hnext _).grows _)
  again numbering later hlater := by
    rw [h.again numbering later (((hnext _).grows _).trans hlater)]
    exact (hnext _).again _ later hlater

theorem map (h : Settles write) (f : α → β) :
    Settles fun numbering ↦ (f (write numbering).1, (write numbering).2) where
  grows := h.grows
  again numbering later hlater := by rw [h.again numbering later hlater]

end Settles

theorem settles_number (id : SetId) : Settles fun numbering ↦ numbering.number id where
  grows numbering := by
    rw [number_eq]
    split_ifs
    · exact List.prefix_rfl
    · exact List.prefix_append _ _
  again numbering later hlater := by
    have hmem := hlater.subset (mem_number numbering id)
    rw [number_eq, if_pos hmem, number_eq]
    rw [number_eq] at hlater
    obtain ⟨rest, rfl⟩ := hlater
    split_ifs with hid
    · rw [List.idxOf_append_of_mem hid]
    · rw [List.idxOf_append_of_mem List.mem_concat_self, List.idxOf_append, if_neg hid,
        List.idxOf_cons_self, Nat.zero_add, List.idxOf_eq_length hid]

/-- Writes one item after the other. -/
def each (write : α → Numbering → β × Numbering) : List α → Numbering → List β × Numbering
  | [], numbering => ([], numbering)
  | item :: items, numbering =>
    let (first, numbering) := write item numbering
    let (rest, numbering) := each write items numbering
    (first :: rest, numbering)

variable {write : α → Numbering → β × Numbering}

theorem settles_each (h : ∀ item, Settles (write item)) (items : List α) :
    Settles (each write items) := by
  induction items with
  | nil => exact ⟨fun _ ↦ List.prefix_rfl, fun _ _ _ ↦ rfl⟩
  | cons item items ih => exact (h item).bind fun first ↦ ih.map (first :: ·)

/-- Every item is written as it is under any numbering that goes on from the end. -/
theorem each_eq_map (h : ∀ item, Settles (write item)) {items : List α}
    (hlater : (each write items numbering).2 <+: later) :
    (each write items numbering).1 = items.map fun item ↦ (write item later).1 := by
  induction items generalizing numbering with
  | nil => rfl
  | cons item items ih =>
      have hfirst : (write item numbering).2 <+: later :=
        ((settles_each h items).grows _).trans hlater
      rw [List.map_cons, (h item).again numbering later hfirst, ← ih hlater]
      rfl

theorem prefix_of_mem_each (h : ∀ item, Settles (write item)) {items : List α} {item : α}
    (hitem : item ∈ items) (hlater : (each write items numbering).2 <+: later) :
    (write item later).2 <+: later := by
  induction items generalizing numbering with
  | nil => exact (List.not_mem_nil hitem).elim
  | cons first items ih =>
      rcases List.mem_cons.mp hitem with rfl | hrest
      · rw [(h item).again numbering later (((settles_each h items).grows _).trans hlater)]
      · exact ih hrest hlater

end Numbering

namespace Graph

open Code Wiring.Numbering

variable {graph : Graph} {numbering later : Numbering}

theorem settles_accessorName (graph : Graph) (plan : Plan) : Settles (graph.accessorName plan) := by
  cases plan with
  | provide type owner id arguments async => exact ⟨fun _ ↦ List.prefix_rfl, fun _ _ _ ↦ rfl⟩
  | collect id type owner elements async =>
      exact (settles_number id).map fun number ↦
        graph.moduleField owner ++ "_synthetic_" ++ toString number

theorem settles_accessorCall (graph : Graph) (plan : Plan) : Settles (graph.accessorCall plan) :=
  (graph.settles_accessorName plan).map fun name ↦ Expression.call (.thisProperty name) []

theorem settles_accessorValue (graph : Graph) (plan : Plan) : Settles (graph.accessorValue plan) :=
  (graph.settles_accessorCall plan).map fun call ↦ call.awaitIf plan.isAsync

theorem accessorValues_eq_each (graph : Graph) (plans : List Plan) :
    graph.accessorValues plans = each graph.accessorValue plans := by
  induction plans with
  | nil => rfl
  | cons plan plans ih =>
      funext numbering
      rw [accessorValues, each, ih]

theorem accessors_eq_each (graph : Graph) (plans : List Plan) :
    graph.accessors plans = each graph.accessor plans := by
  induction plans with
  | nil => rfl
  | cons plan plans ih =>
      funext numbering
      rw [accessors, each, ih]

theorem overrides_eq_each (graph : Graph) (resolvers : List ResolvedResolver) :
    graph.overrides resolvers = each graph.override resolvers := by
  induction resolvers with
  | nil => rfl
  | cons resolver resolvers ih =>
      funext numbering
      rw [overrides, each, ih]

theorem settles_accessorValues (graph : Graph) (plans : List Plan) :
    Settles (graph.accessorValues plans) :=
  accessorValues_eq_each graph plans ▸ settles_each graph.settles_accessorValue plans

theorem settles_accessor (graph : Graph) (plan : Plan) : Settles (graph.accessor plan) :=
  (graph.settles_accessorName plan).bind fun name ↦
    (graph.settles_accessorValues plan.children).map fun values ↦
      Method.mk name .hidden plan.isAsync (graph.accessorBody plan values)

theorem settles_override (graph : Graph) (resolver : ResolvedResolver) :
    Settles (graph.override resolver) :=
  (graph.settles_accessorCall resolver.plan).map fun call ↦
    Method.mk resolver.name .exposed resolver.plan.isAsync call

theorem accessor_eq {plan : Plan} (h : (graph.accessor plan numbering).2 <+: numbering) :
    (graph.accessor plan numbering).1 = ⟨(graph.accessorName plan numbering).1, .hidden,
      plan.isAsync, graph.accessorBody plan (plan.children.map fun child ↦
        (graph.accessorValue child numbering).1)⟩ := by
  have hvalues := graph.settles_accessorValues plan.children
  have hname : graph.accessorName plan numbering =
      ((graph.accessorName plan numbering).1, numbering) :=
    (graph.settles_accessorName plan).again _ _ ((hvalues.grows _).trans h)
  have hgrown : (graph.accessorValues plan.children numbering).2 <+: numbering := by
    have hlater : (graph.accessorValues plan.children
      (graph.accessorName plan numbering).2).2 <+: numbering := h
    rwa [hname] at hlater
  rw [accessorValues_eq_each] at hgrown
  rw [accessor, hname, ← each_eq_map graph.settles_accessorValue hgrown, ← accessorValues_eq_each]

/-- The numbers of the sets when the implementation is complete. -/
def lastNumbering (graph : Graph) (resolution : Resolution) : Numbering :=
  (graph.accessors resolution.plans (graph.overrides resolution.resolvers []).2).2

/-- The name that the accessor of a plan has in the implementation. -/
def nameIn (graph : Graph) (resolution : Resolution) (plan : Plan) : String :=
  (graph.accessorName plan (graph.lastNumbering resolution)).1

/-- The override of a resolver, as it stands in the implementation. -/
def overrideIn (graph : Graph) (resolution : Resolution) (item : ResolvedResolver) : Method :=
  ⟨item.name, .exposed, item.plan.isAsync,
    .call (.thisProperty (graph.nameIn resolution item.plan)) []⟩

/-- The accessor of a stored plan, as it stands in the implementation. -/
def accessorIn (graph : Graph) (resolution : Resolution) (plan : Plan) : Method :=
  ⟨graph.nameIn resolution plan, .hidden, plan.isAsync,
    graph.accessorBody plan (plan.children.map fun child ↦
      (Expression.call (.thisProperty (graph.nameIn resolution child)) []).awaitIf child.isAsync)⟩

theorem overrides_eq_map (graph : Graph) (resolution : Resolution) :
    (graph.overrides resolution.resolvers []).1 =
      resolution.resolvers.map (graph.overrideIn resolution) := by
  have hgrown : (each graph.override resolution.resolvers []).2 <+:
      graph.lastNumbering resolution := by
    rw [← overrides_eq_each, lastNumbering, accessors_eq_each]
    exact (settles_each graph.settles_accessor _).grows _
  rw [overrides_eq_each, each_eq_map graph.settles_override hgrown]
  rfl

theorem accessors_eq_map (graph : Graph) (resolution : Resolution) :
    (graph.accessors resolution.plans (graph.overrides resolution.resolvers []).2).1 =
      resolution.plans.map (graph.accessorIn resolution) := by
  have hgrown : (each graph.accessor resolution.plans
      (graph.overrides resolution.resolvers []).2).2 <+: graph.lastNumbering resolution := by
    rw [← accessors_eq_each]
    exact List.prefix_rfl
  rw [accessors_eq_each, each_eq_map graph.settles_accessor hgrown]
  refine List.map_congr_left fun plan hplan ↦ ?_
  rw [accessor_eq (prefix_of_mem_each graph.settles_accessor hplan hgrown)]
  rfl

/-- The methods of an implementation: the overrides, then the accessors of the stored plans. -/
theorem methods_implementation (graph : Graph) (resolution : Resolution) :
    (graph.implementation resolution).methods =
      resolution.resolvers.map (graph.overrideIn resolution) ++
        resolution.plans.map (graph.accessorIn resolution) := by
  rw [← overrides_eq_map, ← accessors_eq_map]
  simp [implementation, Class.methods, List.filterMap_map]

theorem fields_implementation (graph : Graph) (resolution : Resolution) :
    (graph.implementation resolution).fields = resolution.modules.map graph.instanceField := by
  simp [implementation, Class.fields, List.filterMap_map]

theorem hiddenMethods_implementation (graph : Graph) (resolution : Resolution) :
    (graph.implementation resolution).hiddenMethods =
      resolution.plans.map (graph.accessorIn resolution) := by
  have hoverrides : (resolution.resolvers.map (graph.overrideIn resolution)).filter
      (fun method ↦ method.visibility = .hidden) = [] := by
    simp [overrideIn]
  have haccessors : (resolution.plans.map (graph.accessorIn resolution)).filter
      (fun method ↦ method.visibility = .hidden) =
        resolution.plans.map (graph.accessorIn resolution) := by
    simp [accessorIn]
  rw [Class.hiddenMethods, methods_implementation, List.filter_append, hoverrides, haccessors,
    List.nil_append]

end Graph

end Wiring
