import Wiring.Proofs.Graph.Unrepeated
import Wiring.Proofs.Search.WellTyped
import Wiring.Proofs.Types.Corresponding

/-!
# Declarations elsewhere

A component reaches its root module and the modules that this one sees.  Further declarations that
change none of these modules leave everything that the component can come by as it is, and they make
no other module reachable.
-/

namespace Wiring

theorem getD_modify_of_ne {α : Type} {items : List α} {index other : ℕ} (h : index ≠ other)
    (f : α → α) (default : α) :
    (items.modify index f).getD other default = items.getD other default := by
  simp [List.getD_eq_getElem?_getD, h]

namespace Graph

variable {graph later next : Graph} {id : ComponentId} {owner : ModuleId}

theorem develops_delivered {types : TypeTable} (h : types.Built) {returns : TypeId}
    (hreturns : returns < types.size) (deferred : Bool) :
    types.Develops (delivered types returns deferred).2 ∧
      (delivered types returns deferred).1 < (delivered types returns deferred).2.size := by
  rw [delivered]
  split_ifs
  · exact ⟨h.develops (by simpa [Descriptor.parts] using hreturns), (types.add_spec _).1⟩
  · exact ⟨.refl h, hreturns⟩

theorem Built.returns_lt (h : graph.Built) :
    ∀ provider ∈ graph.providers, provider.returns < graph.types.size := by
  induction h with
  | empty => simp [Graph.empty]
  | intern _ descriptor _ ih =>
      exact fun provider hprovider ↦
        (ih provider hprovider).trans_le (TypeTable.size_le_size_intern _ _)
  | defineClass _ _ _ _ ih => exact ih
  | addModule _ _ _ added ih =>
      obtain ⟨-, -, rfl⟩ := addModule_eq_ok_iff.mp added
      exact ih
  | @addProvider graph built _ _ _ returns deferred _ _ product ih =>
      obtain ⟨hdevelops, hproduct⟩ := develops_delivered built.closed.types product deferred
      exact List.forall_mem_append.mpr
        ⟨fun provider hprovider ↦ (ih provider hprovider).trans_le hdevelops.grows.size_le,
          List.forall_mem_singleton.mpr hproduct⟩
  | addInclude _ _ _ _ _ ih => exact ih
  | addRequired _ _ _ _ _ ih => exact ih
  | addComponent _ _ _ _ _ added ih =>
      obtain ⟨-, -, rfl⟩ := addComponent_eq_ok_iff.mp added
      exact ih
  | addResolver _ _ _ _ _ _ ih => exact ih

/-- The component has the module as its root, or its root sees it. -/
def Reaches (graph : Graph) (id : ComponentId) (owner : ModuleId) : Prop :=
  graph.Sees (graph.getComponent id).root owner

theorem Reaches.lt_length (h : graph.Reaches id owner) (hclosed : graph.Closed)
    (hid : id < graph.components.length) : owner < graph.modules.length := by
  induction h with
  | refl =>
      rw [getComponent, List.getD_eq_getElem _ _ hid]
      exact hclosed.roots _ (List.getElem_mem hid)
  | tail _ visible _ => exact hclosed.includes_lt _ _ visible

/-- What a graph becomes by further declarations that define no class, change no module that the
component reaches and add no resolver to the component. -/
inductive ExtendedElsewhere (graph : Graph) (id : ComponentId) : Graph → Prop where
  | unchanged : ExtendedElsewhere graph id graph
  | intern {later : Graph} (extended : ExtendedElsewhere graph id later) (descriptor : Descriptor)
      (parts : ∀ part ∈ descriptor.parts, part < later.types.size) :
      ExtendedElsewhere graph id { later with types := (later.types.intern descriptor).2 }
  | addModule {later next : Graph} {added : ModuleId}
      (extended : ExtendedElsewhere graph id later) (name : String) (source : Path)
      (success : later.addModule name source = .ok (added, next)) : ExtendedElsewhere graph id next
  | addProvider {later : Graph} (extended : ExtendedElsewhere graph id later) (owner : ModuleId)
      (name : String) (parameters : List TypeId) (returns : TypeId) (deferred : Bool)
      (unreached : ¬ graph.Reaches id owner) (owned : owner < later.modules.length)
      (present : ∀ type ∈ parameters, type < later.types.size)
      (product : returns < later.types.size) :
      ExtendedElsewhere graph id (later.addProvider owner name parameters returns deferred).2
  | addInclude {later : Graph} (extended : ExtendedElsewhere graph id later)
      (owner included : ModuleId) (unreached : ¬ graph.Reaches id owner)
      (owned : owner < later.modules.length) (present : included < later.modules.length) :
      ExtendedElsewhere graph id (later.addInclude owner included)
  | addRequired {later : Graph} (extended : ExtendedElsewhere graph id later) (owner : ModuleId)
      (type : TypeId) (unreached : ¬ graph.Reaches id owner) (owned : owner < later.modules.length)
      (present : type < later.types.size) :
      ExtendedElsewhere graph id (later.addRequired owner type)
  | addComponent {later next : Graph} {added : ComponentId}
      (extended : ExtendedElsewhere graph id later) (name : String) (source : Path)
      (root : ModuleId) (present : root < later.modules.length)
      (success : later.addComponent name source root = .ok (added, next)) :
      ExtendedElsewhere graph id next
  | addResolver {later : Graph} (extended : ExtendedElsewhere graph id later)
      (component : ComponentId) (name : String) (returns : TypeId) (different : component ≠ id)
      (declared : component < later.components.length) (present : returns < later.types.size) :
      ExtendedElsewhere graph id (later.addResolver component name returns)

/-- All that the component of the one graph can come by stands in the other one as well. -/
structure SameReach (graph later : Graph) (id : ComponentId) : Prop where
  built : later.Built
  types : graph.types.Develops later.types
  modules : graph.modules.length ≤ later.modules.length
  components : graph.components.length ≤ later.components.length
  providers : graph.providers <+: later.providers
  getModule : ∀ owner, graph.Reaches id owner → later.getModule owner = graph.getModule owner
  getComponent : later.getComponent id = graph.getComponent id

namespace SameReach

theorem refl (h : graph.Built) : graph.SameReach graph id where
  built := h
  types := .refl h.closed.types
  modules := Nat.le_refl _
  components := Nat.le_refl _
  providers := List.prefix_refl _
  getModule := fun _ _ ↦ rfl
  getComponent := rfl

theorem withTypes (h : graph.SameReach later id) {types : TypeTable}
    (hbuilt : Built { later with types := types }) (htypes : later.types.Develops types) :
    graph.SameReach { later with types := types } id :=
  ⟨hbuilt, h.types.trans htypes, h.modules, h.components, h.providers, h.getModule,
    h.getComponent⟩

theorem getModule_modify (h : graph.SameReach later id) (unreached : ¬ graph.Reaches id owner)
    (f : ModuleDecl → ModuleDecl) : ∀ other, graph.Reaches id other →
      (later.modules.modify owner f).getD other ⟨"", ⟨""⟩, [], [], []⟩ = graph.getModule other := by
  intro other hreached
  have hne : owner ≠ other := fun heq ↦ unreached (heq ▸ hreached)
  exact (getD_modify_of_ne hne f _).trans (h.getModule other hreached)

theorem modifyModule (h : graph.SameReach later id) {f : ModuleDecl → ModuleDecl}
    (hbuilt : Built { later with modules := later.modules.modify owner f })
    (unreached : ¬ graph.Reaches id owner) :
    graph.SameReach { later with modules := later.modules.modify owner f } id where
  built := hbuilt
  types := h.types
  modules := h.modules.trans_eq (List.length_modify ..).symm
  components := h.components
  providers := h.providers
  getModule := h.getModule_modify unreached f
  getComponent := h.getComponent

theorem addModule (h : graph.SameReach later id) (hgraph : graph.Built)
    (hid : id < graph.components.length) {name : String} {source : Path} {added : ModuleId}
    (success : later.addModule name source = .ok (added, next)) : graph.SameReach next id := by
  have hbuilt : next.Built := h.built.addModule name source success
  obtain ⟨-, -, rfl⟩ := addModule_eq_ok_iff.mp success
  refine ⟨hbuilt, h.types, ?_, h.components, h.providers, ?_, h.getComponent⟩
  · rw [List.length_append]
    exact Nat.le_add_right_of_le h.modules
  · intro other hreached
    have hother := (hreached.lt_length hgraph.closed hid).trans_le h.modules
    exact (List.getD_append _ _ _ _ hother).trans (h.getModule other hreached)

theorem addProvider (h : graph.SameReach later id) {name : String} {parameters : List TypeId}
    {returns : TypeId} {deferred : Bool} (unreached : ¬ graph.Reaches id owner)
    (hbuilt : (later.addProvider owner name parameters returns deferred).2.Built)
    (product : returns < later.types.size) :
    graph.SameReach (later.addProvider owner name parameters returns deferred).2 id where
  built := hbuilt
  types := h.types.trans (develops_delivered h.built.closed.types product deferred).1
  modules := h.modules.trans_eq (List.length_modify ..).symm
  components := h.components
  providers := h.providers.trans (List.prefix_append _ _)
  getModule := h.getModule_modify unreached _
  getComponent := h.getComponent

theorem addComponent (h : graph.SameReach later id) (hid : id < graph.components.length)
    {name : String} {source : Path} {root : ModuleId} {added : ComponentId}
    (present : root < later.modules.length)
    (success : later.addComponent name source root = .ok (added, next)) :
    graph.SameReach next id := by
  have hbuilt : next.Built := h.built.addComponent name source root present success
  obtain ⟨-, -, rfl⟩ := addComponent_eq_ok_iff.mp success
  refine ⟨hbuilt, h.types, h.modules, ?_, h.providers, h.getModule, ?_⟩
  · rw [List.length_append]
    exact Nat.le_add_right_of_le h.components
  · exact (List.getD_append _ _ _ _ (hid.trans_le h.components)).trans h.getComponent

theorem addResolver (h : graph.SameReach later id) {component : ComponentId} {name : String}
    {returns : TypeId} (hbuilt : (later.addResolver component name returns).Built)
    (different : component ≠ id) :
    graph.SameReach (later.addResolver component name returns) id where
  built := hbuilt
  types := h.types
  modules := h.modules
  components := h.components.trans_eq (List.length_modify ..).symm
  providers := h.providers
  getModule := h.getModule
  getComponent := (getD_modify_of_ne different _ _).trans h.getComponent

end SameReach

/-- One declaration after the other. -/
theorem ExtendedElsewhere.sameReach (h : graph.ExtendedElsewhere id later) (hgraph : graph.Built)
    (hid : id < graph.components.length) : graph.SameReach later id := by
  induction h with
  | unchanged => exact .refl hgraph
  | intern _ descriptor parts ih =>
      exact ih.withTypes (ih.built.intern descriptor parts)
        (ih.built.closed.types.develops parts)
  | addModule _ name source success ih => exact ih.addModule hgraph hid success
  | addProvider _ owner name parameters returns deferred unreached owned present product ih =>
      exact ih.addProvider unreached (ih.built.addProvider owner name parameters returns deferred
        owned present product) product
  | addInclude _ owner included unreached owned present ih =>
      exact ih.modifyModule (ih.built.addInclude owner included owned present) unreached
  | addRequired _ owner type unreached owned present ih =>
      exact ih.modifyModule (ih.built.addRequired owner type owned present) unreached
  | addComponent _ name source root present success ih =>
      exact ih.addComponent hid present success
  | addResolver _ component name returns different declared present ih =>
      exact ih.addResolver (ih.built.addResolver component name returns declared present) different

namespace SameReach

/-- No further module has become reachable. -/
theorem reaches_iff (h : graph.SameReach later id) :
    later.Reaches id owner ↔ graph.Reaches id owner := by
  rw [Reaches, Reaches, h.getComponent]
  constructor
  · intro hsees
    induction hsees with
    | refl => exact .refl
    | tail _ visible ih => exact ih.tail (h.getModule _ ih ▸ visible)
  · intro hsees
    induction hsees with
    | refl => exact .refl
    | tail hreached visible ih => exact ih.tail ((h.getModule _ hreached).symm ▸ visible)

theorem getProvider (h : graph.SameReach later id) {provider : ProviderId}
    (hprovider : provider < graph.providers.length) :
    later.getProvider provider = graph.getProvider provider := by
  obtain ⟨more, hmore⟩ := h.providers
  rw [Graph.getProvider, Graph.getProvider, ← hmore, List.getD_append _ _ _ _ hprovider]

end SameReach

end Graph

end Wiring
