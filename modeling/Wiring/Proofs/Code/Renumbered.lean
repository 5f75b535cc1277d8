import Wiring.Code.Placement
import Wiring.Proofs.Resolution.Renumbered

/-!
# Code for graphs with the same declarations

Generated code names modules, providers and components and never tells their numbers, so two graphs
that declare the same things have the same implementations.
-/

namespace Wiring.Graph

variable {r : Renumbering} {graph other : Graph}

theorem Renumbered.moduleField (h : graph.Renumbered r other) (id : ModuleId) :
    other.moduleField (r.modules id) = graph.moduleField id := by
  rw [Graph.moduleField, Graph.moduleField, h.getModule]
  rfl

theorem Renumbered.accessorName (h : graph.Renumbered r other) (plan : Plan)
    (numbering : Numbering) :
    other.accessorName (plan.rename r) numbering = graph.accessorName plan numbering := by
  cases plan with
  | provide type owner provider arguments async =>
      rw [Plan.rename, Graph.accessorName, Graph.accessorName, h.moduleField, h.providerName]
  | collect id type owner elements async =>
      rw [Plan.rename, Graph.accessorName, Graph.accessorName, h.moduleField]

theorem Renumbered.accessorCall (h : graph.Renumbered r other) (plan : Plan)
    (numbering : Numbering) :
    other.accessorCall (plan.rename r) numbering = graph.accessorCall plan numbering := by
  rw [Graph.accessorCall, Graph.accessorCall, h.accessorName]

theorem Renumbered.accessorValues (h : graph.Renumbered r other) (plans : List Plan)
    (numbering : Numbering) :
    other.accessorValues (plans.map (Plan.rename r)) numbering =
      graph.accessorValues plans numbering := by
  induction plans generalizing numbering with
  | nil => rfl
  | cons plan plans ih =>
      rw [List.map_cons, Graph.accessorValues, Graph.accessorValues, accessorValue, accessorValue,
        h.accessorCall, Plan.isAsync_rename]
      simp only [ih]

theorem Renumbered.accessor (h : graph.Renumbered r other) (plan : Plan) (numbering : Numbering) :
    other.accessor (plan.rename r) numbering = graph.accessor plan numbering := by
  rw [Graph.accessor, Graph.accessor, h.accessorName, Plan.children_rename, Plan.isAsync_rename]
  simp only [h.accessorValues]
  cases plan with
  | provide type owner provider arguments async =>
      simp only [Plan.rename, accessorBody, h.moduleField, h.providerName]
  | collect id type owner elements async => rfl

theorem Renumbered.accessors (h : graph.Renumbered r other) (plans : List Plan)
    (numbering : Numbering) :
    other.accessors (plans.map (Plan.rename r)) numbering = graph.accessors plans numbering := by
  induction plans generalizing numbering with
  | nil => rfl
  | cons plan plans ih =>
      rw [List.map_cons, Graph.accessors, Graph.accessors, h.accessor]
      simp only [ih]

theorem Renumbered.overrides (h : graph.Renumbered r other) (resolvers : List ResolvedResolver)
    (numbering : Numbering) :
    other.overrides (resolvers.map (ResolvedResolver.rename r)) numbering =
      graph.overrides resolvers numbering := by
  induction resolvers generalizing numbering with
  | nil => rfl
  | cons resolver resolvers ih =>
      rw [List.map_cons, Graph.overrides, Graph.overrides, override, override,
        ResolvedResolver.rename, h.accessorCall, Plan.isAsync_rename]
      simp only [ih]

theorem Renumbered.component_same (h : graph.Renumbered r other) (id : ComponentId) :
    (other.getComponent id).name = (graph.getComponent id).name ∧
      (other.getComponent id).source = (graph.getComponent id).source := by
  by_cases hid : id < graph.components.length
  · rw [h.getComponent hid]
    exact ⟨rfl, rfl⟩
  · have hle := Nat.le_of_not_lt hid
    have hother : other.components.length ≤ id := by rwa [h.components, List.length_map]
    rw [Graph.getComponent, Graph.getComponent, List.getD_eq_default _ _ hle,
      List.getD_eq_default _ _ hother]
    exact ⟨rfl, rfl⟩

theorem Renumbered.implementation (h : graph.Renumbered r other) (resolution : Resolution) :
    other.implementation (resolution.rename r) = graph.implementation resolution := by
  have hassignment : ∀ id,
      other.instanceAssignment (r.modules id) = graph.instanceAssignment id := by
    intro id
    rw [instanceAssignment, instanceAssignment, h.moduleField, h.getModule]
    rfl
  simp only [Graph.implementation, Resolution.rename, h.overrides, h.accessors, List.map_map,
    constructorBody, instanceField, Function.comp_def, h.moduleField, hassignment,
    (h.component_same _).1]

theorem Renumbered.imports (h : graph.Renumbered r other) (resolution : Resolution)
    (directory : Path) :
    other.imports (resolution.rename r) directory = graph.imports resolution directory := by
  obtain ⟨hname, hsource⟩ := h.component_same resolution.component
  simp only [Graph.imports, Resolution.rename, hname, hsource, List.mapM_map, h.getModule,
    Function.comp_def]
  rfl

theorem Renumbered.place (h : graph.Renumbered r other) (files : List Code.File)
    (resolution : Resolution) :
    other.place files (resolution.rename r) = graph.place files resolution := by
  have hsource : (other.getComponent (resolution.rename r).component).source =
      (graph.getComponent resolution.component).source := (h.component_same _).2
  simp only [Graph.place, h.imports, h.implementation, hsource]

theorem Renumbered.filesOf (h : graph.Renumbered r other) (resolutions : List Resolution) :
    other.filesOf (resolutions.map (Resolution.rename r)) = graph.filesOf resolutions := by
  rw [Graph.filesOf, Graph.filesOf, List.foldlM_map]
  simp only [h.place]

/-- The implementations are the same, or both graphs have none for one reason. -/
theorem Renumbered.implementations (h : graph.Renumbered r other) :
    graph.implementations.mapError Error.withoutType =
      other.implementations.mapError Error.withoutType := by
  have hids : other.componentIds = graph.componentIds := by
    rw [componentIds, componentIds, h.components, List.length_map]
  have hresolutions : SameOutcome (List.map (Resolution.rename r))
      (graph.componentIds.mapM graph.resolution) (graph.componentIds.mapM other.resolution) :=
    .mapM fun id hid ↦ h.resolution (List.mem_range.mp hid)
  rw [Graph.implementations, Graph.implementations, hids]
  generalize graph.componentIds.mapM graph.resolution = resolved at hresolutions ⊢
  generalize graph.componentIds.mapM other.resolution = otherResolved at hresolutions ⊢
  cases hresolutions with
  | ok resolutions => exact congrArg _ (h.filesOf resolutions).symm
  | error same => exact congrArg Except.error same

end Wiring.Graph
