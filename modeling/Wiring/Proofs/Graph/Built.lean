import Wiring.Graph.Basic
import Wiring.Proofs.Types.Built

/-!
# Graphs built by declarations

A graph grows by interning types, defining classes and adding declarations that name types,
modules and components of the graph.  Every identity that occurs in such a graph is then one of
its own.
-/

namespace Wiring

theorem mem_modify {α : Type} {items : List α} {index : ℕ} {f : α → α} {item : α}
    (h : item ∈ items.modify index f) : item ∈ items ∨ ∃ old ∈ items, item = f old := by
  induction items generalizing index with
  | nil => simp at h
  | cons head tail ih =>
      cases index with
      | zero =>
          rcases List.mem_cons.mp h with rfl | htail
          · exact Or.inr ⟨head, List.mem_cons_self, rfl⟩
          · exact Or.inl (List.mem_cons_of_mem _ htail)
      | succ index =>
          rcases List.mem_cons.mp h with rfl | htail
          · exact Or.inl List.mem_cons_self
          · rcases ih htail with hold | ⟨old, hold, heq⟩
            · exact Or.inl (List.mem_cons_of_mem _ hold)
            · exact Or.inr ⟨old, List.mem_cons_of_mem _ hold, heq⟩

theorem map_modify {α β : Type} {f : α → α} {g : α → β} (hf : ∀ a, g (f a) = g a) (items : List α)
    (index : ℕ) : (items.modify index f).map g = items.map g := by
  induction items generalizing index with
  | nil => rw [List.modify_nil]
  | cons item items ih =>
      cases index with
      | zero => rw [List.modify_zero_cons, List.map_cons, List.map_cons, hf]
      | succ index => rw [List.modify_succ_cons, List.map_cons, List.map_cons, ih]

namespace Graph

def moduleNames (graph : Graph) : List String :=
  graph.modules.map ModuleDecl.name

theorem addModule_eq_ok_iff {graph next : Graph} {id : ModuleId} {name : String} {source : Path} :
    graph.addModule name source = .ok (id, next) ↔
      name ∉ graph.moduleNames ∧ id = graph.modules.length ∧
        next = { graph with modules := graph.modules ++ [⟨name, source, [], [], []⟩] } := by
  have hfind : (graph.findModule? name).isSome = true ↔ name ∈ graph.moduleNames := by
    simp [findModule?, moduleNames]
  rw [addModule]
  simp only [hfind]
  split_ifs with hknown
  · simp [hknown]
  · simp [hknown, eq_comm]

theorem addComponent_eq_ok_iff {graph next : Graph} {id : ComponentId} {name : String}
    {source : Path} {root : ModuleId} :
    graph.addComponent name source root = .ok (id, next) ↔
      name ∉ graph.components.map Component.name ∧ id = graph.components.length ∧
        next = { graph with components := graph.components ++ [⟨name, source, root, []⟩] } := by
  have hfind : (graph.findComponent? name).isSome = true ↔
      name ∈ graph.components.map Component.name := by
    simp [findComponent?]
  rw [addComponent]
  simp only [hfind]
  split_ifs with hknown
  · simp [hknown]
  · simp [hknown, eq_comm]

/-! ## Graphs and their identities -/

/-- The graphs that sequences of declarations lead to, all identities being those of the graph at
that moment.  A declaration that fails leaves no graph behind. -/
inductive Built : Graph → Prop where
  | empty : Built .empty
  | intern {graph : Graph} (built : Built graph) (descriptor : Descriptor)
      (parts : ∀ part ∈ descriptor.parts, part < graph.types.size) :
      Built { graph with types := (graph.types.intern descriptor).2 }
  | defineClass {graph : Graph} (built : Built graph) (name : String) (fields : List Field)
      (present : ∀ field ∈ fields, field.type < graph.types.size) :
      Built { graph with types := graph.types.defineClass name fields }
  | addModule {graph next : Graph} {id : ModuleId} (built : Built graph) (name : String)
      (source : Path) (added : graph.addModule name source = .ok (id, next)) : Built next
  | addProvider {graph : Graph} (built : Built graph) (owner : ModuleId) (name : String)
      (parameters : List TypeId) (returns : TypeId) (deferred : Bool)
      (owned : owner < graph.modules.length)
      (present : ∀ type ∈ parameters, type < graph.types.size)
      (product : returns < graph.types.size) :
      Built (graph.addProvider owner name parameters returns deferred).2
  | addInclude {graph : Graph} (built : Built graph) (owner included : ModuleId)
      (owned : owner < graph.modules.length) (present : included < graph.modules.length) :
      Built (graph.addInclude owner included)
  | addRequired {graph : Graph} (built : Built graph) (owner : ModuleId) (type : TypeId)
      (owned : owner < graph.modules.length) (present : type < graph.types.size) :
      Built (graph.addRequired owner type)
  | addComponent {graph next : Graph} {id : ComponentId} (built : Built graph) (name : String)
      (source : Path) (root : ModuleId) (present : root < graph.modules.length)
      (added : graph.addComponent name source root = .ok (id, next)) : Built next
  | addResolver {graph : Graph} (built : Built graph) (component : ComponentId) (name : String)
      (returns : TypeId) (declared : component < graph.components.length)
      (present : returns < graph.types.size) : Built (graph.addResolver component name returns)

/-- The identities that a search follows are those of the graph. -/
structure Closed (graph : Graph) : Prop where
  types : graph.types.Built
  parameters : ∀ provider ∈ graph.providers, ∀ type ∈ provider.parameters,
    type < graph.types.size
  includes : ∀ decl ∈ graph.modules, ∀ included ∈ decl.includes, included < graph.modules.length
  roots : ∀ component ∈ graph.components, component.root < graph.modules.length
  resolvers : ∀ component ∈ graph.components, ∀ resolver ∈ component.resolvers,
    resolver.returns < graph.types.size

namespace Closed

variable {graph : Graph}

theorem parameters_lt (h : graph.Closed) (id : ProviderId) :
    ∀ type ∈ (graph.getProvider id).parameters, type < graph.types.size := by
  intro type htype
  rw [getProvider, List.getD_eq_getElem?_getD] at htype
  cases hget : graph.providers[id]? with
  | none => simp [hget] at htype
  | some provider =>
      rw [hget] at htype
      exact h.parameters provider (List.mem_of_getElem? hget) type htype

theorem includes_lt (h : graph.Closed) (id : ModuleId) :
    ∀ included ∈ (graph.getModule id).includes, included < graph.modules.length := by
  intro included hincluded
  rw [getModule, List.getD_eq_getElem?_getD] at hincluded
  cases hget : graph.modules[id]? with
  | none => simp [hget] at hincluded
  | some decl =>
      rw [hget] at hincluded
      exact h.includes decl (List.mem_of_getElem? hget) included hincluded

theorem getComponent (hclosed : graph.Closed) {id : ComponentId} {resolver : Resolver}
    (hresolver : resolver ∈ (graph.getComponent id).resolvers) :
    (graph.getComponent id).root < graph.modules.length ∧
      resolver.returns < graph.types.size := by
  rw [Graph.getComponent, List.getD_eq_getElem?_getD] at hresolver ⊢
  cases hget : graph.components[id]? with
  | none => simp [hget] at hresolver
  | some component =>
      rw [hget] at hresolver
      have hcomponent := List.mem_of_getElem? hget
      exact ⟨hclosed.roots component hcomponent,
        hclosed.resolvers component hcomponent resolver hresolver⟩

theorem withTypes (h : graph.Closed) {types : TypeTable} (hbuilt : types.Built)
    (hsize : graph.types.size ≤ types.size) : Closed { graph with types := types } where
  types := hbuilt
  parameters := fun provider hprovider type htype ↦
    Nat.lt_of_lt_of_le (h.parameters provider hprovider type htype) hsize
  includes := h.includes
  roots := h.roots
  resolvers := fun component hcomponent resolver hresolver ↦
    Nat.lt_of_lt_of_le (h.resolvers component hcomponent resolver hresolver) hsize

theorem modifyModule (h : graph.Closed) (owner : ModuleId) (f : ModuleDecl → ModuleDecl)
    (hincludes : ∀ decl ∈ graph.modules, ∀ included ∈ (f decl).includes,
      included < graph.modules.length) :
    Closed { graph with modules := graph.modules.modify owner f } where
  types := h.types
  parameters := h.parameters
  includes := by
    intro decl hdecl included hincluded
    rw [List.length_modify]
    obtain hold | ⟨old, hold, rfl⟩ := mem_modify hdecl
    · exact h.includes decl hold included hincluded
    · exact hincludes old hold included hincluded
  roots := by simpa using h.roots
  resolvers := h.resolvers

theorem addModule (h : graph.Closed) {next : Graph} {id : ModuleId} {name : String}
    {source : Path} (added : graph.addModule name source = .ok (id, next)) : next.Closed := by
  obtain ⟨-, -, rfl⟩ := addModule_eq_ok_iff.mp added
  refine ⟨h.types, h.parameters, ?_, ?_, h.resolvers⟩
  · intro decl hdecl included hincluded
    rw [List.length_append]
    rcases List.mem_append.mp hdecl with hold | hnew
    · exact Nat.lt_add_right _ (h.includes decl hold included hincluded)
    · simp_all
  · intro component hcomponent
    rw [List.length_append]
    exact Nat.lt_add_right _ (h.roots component hcomponent)

theorem delivered_built {types : TypeTable} (h : types.Built) {returns : TypeId}
    (hreturns : returns < types.size) (deferred : Bool) :
    (delivered types returns deferred).2.Built ∧
      types.size ≤ (delivered types returns deferred).2.size := by
  rw [delivered]
  split_ifs
  · exact ⟨h.intern _ (by simpa [Descriptor.parts] using hreturns), types.size_le_size_intern _⟩
  · exact ⟨h, Nat.le_refl _⟩

theorem addProvider (h : graph.Closed) {returns : TypeId} (hreturns : returns < graph.types.size)
    {parameters : List TypeId} (hparameters : ∀ type ∈ parameters, type < graph.types.size)
    (owner : ModuleId) (name : String) (deferred : Bool) :
    (graph.addProvider owner name parameters returns deferred).2.Closed := by
  obtain ⟨hbuilt, hsize⟩ := delivered_built h.types hreturns deferred
  have htypes := h.withTypes hbuilt hsize
  have hmodules := htypes.modifyModule owner
    (fun decl ↦ { decl with providers := decl.providers ++ [graph.providers.length] })
    htypes.includes
  refine ⟨hmodules.types, ?_, hmodules.includes, hmodules.roots, hmodules.resolvers⟩
  intro provider hprovider type htype
  rcases List.mem_append.mp hprovider with hold | hnew
  · exact htypes.parameters provider hold type htype
  · obtain rfl := List.mem_singleton.mp hnew
    exact Nat.lt_of_lt_of_le (hparameters type htype) hsize

theorem addInclude (h : graph.Closed) {included : ModuleId}
    (hincluded : included < graph.modules.length) (owner : ModuleId) :
    (graph.addInclude owner included).Closed := by
  refine h.modifyModule owner _ fun decl hdecl other hother ↦ ?_
  split_ifs at hother
  · exact h.includes decl hdecl other hother
  · rcases List.mem_append.mp hother with hold | hnew
    · exact h.includes decl hdecl other hold
    · obtain rfl := List.mem_singleton.mp hnew
      exact hincluded

theorem addComponent (h : graph.Closed) {next : Graph} {id : ComponentId} {name : String}
    {source : Path} {root : ModuleId} (hroot : root < graph.modules.length)
    (added : graph.addComponent name source root = .ok (id, next)) : next.Closed := by
  obtain ⟨-, -, rfl⟩ := addComponent_eq_ok_iff.mp added
  refine ⟨h.types, h.parameters, h.includes, ?_, ?_⟩
  · intro component hcomponent
    rcases List.mem_append.mp hcomponent with hold | hnew
    · exact h.roots component hold
    · obtain rfl := List.mem_singleton.mp hnew
      exact hroot
  · intro component hcomponent resolver hresolver
    rcases List.mem_append.mp hcomponent with hold | hnew
    · exact h.resolvers component hold resolver hresolver
    · simp_all

theorem addResolver (h : graph.Closed) {returns : TypeId} (hreturns : returns < graph.types.size)
    (component : ComponentId) (name : String) :
    (graph.addResolver component name returns).Closed := by
  refine ⟨h.types, h.parameters, h.includes, ?_, ?_⟩
  · intro changed hchanged
    obtain hold | ⟨old, hold, rfl⟩ := mem_modify hchanged
    · exact h.roots changed hold
    · exact h.roots old hold
  · intro changed hchanged resolver hresolver
    obtain hold | ⟨old, hold, rfl⟩ := mem_modify hchanged
    · exact h.resolvers changed hold resolver hresolver
    · rcases List.mem_append.mp hresolver with hearlier | hnew
      · exact h.resolvers old hold resolver hearlier
      · obtain rfl := List.mem_singleton.mp hnew
        exact hreturns

end Closed

theorem Built.closed {graph : Graph} (h : graph.Built) : graph.Closed := by
  induction h with
  | empty =>
      exact ⟨.empty, by simp [Graph.empty], by simp [Graph.empty], by simp [Graph.empty],
        by simp [Graph.empty]⟩
  | intern _ descriptor parts ih =>
      exact ih.withTypes (ih.types.intern descriptor parts) (TypeTable.size_le_size_intern _ _)
  | defineClass _ name fields present ih =>
      exact ih.withTypes (ih.types.defineClass name fields present) (Nat.le_refl _)
  | addModule _ name source added ih => exact ih.addModule added
  | addProvider _ owner name parameters returns deferred _ present product ih =>
      exact ih.addProvider product present owner name deferred
  | addInclude _ owner included _ present ih => exact ih.addInclude present owner
  | addRequired _ owner type _ _ ih => exact ih.modifyModule owner _ ih.includes
  | addComponent _ name source root present added ih => exact ih.addComponent present added
  | addResolver _ component name returns _ present ih =>
      exact ih.addResolver present component name

/-- Two modules that include each other.  Two providers of the root ask for the product of the
other one. -/
def circular : Graph where
  types := ((((TypeTable.empty.intern (.nominal "Draft")).2).intern (.nominal "Final")).2.intern
    (.nominal "Missing")).2
  modules := [⟨"Root", ⟨"root.ts"⟩, [0, 1], [1], []⟩, ⟨"Base", ⟨"base.ts"⟩, [2], [0], []⟩]
  providers := [⟨"revise", 0, [1], 0, false⟩, ⟨"publish", 0, [0], 1, false⟩,
    ⟨"sketch", 1, [], 0, false⟩]
  components := [⟨"App", ⟨"app.ts"⟩, 0, [⟨"draft", 0⟩, ⟨"final", 1⟩]⟩,
    ⟨"Broken", ⟨"broken.ts"⟩, 0, [⟨"missing", 2⟩]⟩]

theorem circular_built : circular.Built := by
  have htypes := ((Built.empty.intern (.nominal "Draft") (by decide)).intern (.nominal "Final")
    (by decide)).intern (.nominal "Missing") (by decide)
  have hroot := htypes.addModule "Root" ⟨"root.ts"⟩ rfl
  have hbase := hroot.addModule "Base" ⟨"base.ts"⟩ rfl
  have hrevise := hbase.addProvider 0 "revise" [1] 0 false (by decide) (by decide) (by decide)
  have hpublish := hrevise.addProvider 0 "publish" [0] 1 false (by decide) (by decide) (by decide)
  have hsketch := hpublish.addProvider 1 "sketch" [] 0 false (by decide) (by decide) (by decide)
  have hincludes := (hsketch.addInclude 0 1 (by decide) (by decide)).addInclude 1 0 (by decide)
    (by decide)
  have happ := hincludes.addComponent "App" ⟨"app.ts"⟩ 0 (by decide) rfl
  have hresolvers := (happ.addResolver 0 "draft" 0 (by decide) (by decide)).addResolver 0 "final" 1
    (by decide) (by decide)
  have hbroken := hresolvers.addComponent "Broken" ⟨"broken.ts"⟩ 0 (by decide) rfl
  exact hbroken.addResolver 1 "missing" 2 (by decide) (by decide)

end Graph

end Wiring
