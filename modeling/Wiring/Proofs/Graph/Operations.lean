import Wiring.Proofs.Graph.Deferred
import Wiring.Proofs.Graph.Unrepeated
import Wiring.Proofs.Types.Normal

/-!
# Sequences of operations on a graph

An operation names identities that earlier ones have answered.  One that fails changes nothing, and
more may follow.  Wherever such a sequence stops, the lists of the graph refer to each other
consistently.
-/

namespace Wiring.Graph

theorem eq_of_getElem?_concat {α : Type} {items : List α} {last item : α} {index : ℕ}
    (h : (items ++ [last])[index]? = some item) :
    items[index]? = some item ∨ index = items.length ∧ item = last := by
  rcases Nat.lt_trichotomy index items.length with hlt | rfl | hgt
  · rw [List.getElem?_append_left hlt] at h
    exact Or.inl h
  · rw [List.getElem?_concat_length] at h
    exact Or.inr ⟨rfl, (Option.some.inj h).symm⟩
  · have hnone : (items ++ [last])[index]? = none := by
      rw [List.getElem?_eq_none_iff, List.length_append, List.length_singleton]
      exact hgt
    rw [hnone] at h
    cases h

/-- A provider is in the list of its owner and in no other list. -/
def Housed (graph : Graph) : Prop :=
  ∀ (id : ProviderId) (provider : Provider), graph.providers[id]? = some provider →
    provider.owner < graph.modules.length ∧
      ∀ (index : ModuleId) (decl : ModuleDecl), graph.modules[index]? = some decl →
        (id ∈ decl.providers ↔ index = provider.owner)

section

variable {graph : Graph}

theorem Housed.modifyModule (h : graph.Housed) (owner : ModuleId) (f : ModuleDecl → ModuleDecl)
    (hproviders : ∀ decl, (f decl).providers = decl.providers) :
    Housed { graph with modules := graph.modules.modify owner f } := by
  intro id provider hprovider
  obtain ⟨howner, hlists⟩ := h id provider hprovider
  refine ⟨by simpa using howner, fun index decl hdecl ↦ ?_⟩
  rw [List.getElem?_modify] at hdecl
  obtain ⟨old, hold, rfl⟩ := Option.map_eq_some_iff.mp hdecl
  have hsame : (if owner = index then f old else old).providers = old.providers := by
    split_ifs
    · exact hproviders old
    · rfl
  rw [hsame]
  exact hlists index old hold

theorem Housed.addModule (h : graph.Housed) {next : Graph} {id : ModuleId} {name : String}
    {source : Path} (added : graph.addModule name source = .ok (id, next)) : next.Housed := by
  obtain ⟨-, -, rfl⟩ := addModule_eq_ok_iff.mp added
  intro listed provider hprovider
  obtain ⟨howner, hlists⟩ := h listed provider hprovider
  refine ⟨by simpa using Nat.lt_succ_of_lt howner, fun index decl hdecl ↦ ?_⟩
  rcases eq_of_getElem?_concat hdecl with hold | ⟨rfl, rfl⟩
  · exact hlists index decl hold
  · simp [howner.ne']

theorem Housed.addProvider (h : graph.Housed) (hunrepeated : graph.Unrepeated) {owner : ModuleId}
    (howner : owner < graph.modules.length) (name : String) (parameters : List TypeId)
    (returns : TypeId) (deferred : Bool) :
    (graph.addProvider owner name parameters returns deferred).2.Housed := by
  intro id provider hprovider
  -- All that the lists gain is the new number, in the list of the owner.
  have hsplit : ∀ index decl, (graph.addProvider owner name parameters returns
      deferred).2.modules[index]? = some decl → ∃ old, graph.modules[index]? = some old ∧
        (id ∈ decl.providers ↔ id ∈ old.providers ∨
          index = owner ∧ id = graph.providers.length) := by
    intro index decl hdecl
    simp only [Graph.addProvider, List.getElem?_modify] at hdecl
    obtain ⟨old, hold, rfl⟩ := Option.map_eq_some_iff.mp hdecl
    refine ⟨old, hold, ?_⟩
    split_ifs with hindex
    · simp [hindex]
    · simp [Ne.symm hindex]
  have hlength : (graph.addProvider owner name parameters returns deferred).2.modules.length =
      graph.modules.length := List.length_modify ..
  rw [hlength]
  rcases eq_of_getElem?_concat hprovider with hold | ⟨rfl, rfl⟩
  · obtain ⟨hbound, hlists⟩ := h id provider hold
    have hlt : id < graph.providers.length := (List.getElem?_eq_some_iff.mp hold).1
    refine ⟨hbound, fun index decl hdecl ↦ ?_⟩
    obtain ⟨old, hmodule, hmem⟩ := hsplit index decl hdecl
    rw [hmem, hlists index old hmodule]
    exact or_iff_left fun hnew ↦ hlt.ne hnew.2
  · refine ⟨howner, fun index decl hdecl ↦ ?_⟩
    obtain ⟨old, hmodule, hmem⟩ := hsplit index decl hdecl
    have hunlisted : graph.providers.length ∉ old.providers := fun hlisted ↦
      Nat.lt_irrefl _ (hunrepeated.declared old (List.mem_of_getElem? hmodule) _ hlisted)
    simp [hmem, hunlisted]

theorem Built.housed (h : graph.Built) : graph.Housed := by
  induction h with
  | empty => simp [Housed, Graph.empty]
  | intern _ _ _ ih => exact ih
  | defineClass _ _ _ _ ih => exact ih
  | addModule _ _ _ added ih => exact ih.addModule added
  | addProvider built owner name parameters returns deferred owned _ _ ih =>
      exact ih.addProvider built.unrepeated owned name parameters returns deferred
  | addInclude _ owner _ _ _ ih =>
      exact ih.modifyModule owner _ fun decl ↦ by split_ifs <;> rfl
  | addRequired _ owner _ _ _ ih => exact ih.modifyModule owner _ fun _ ↦ rfl
  | addComponent _ _ _ _ _ added ih =>
      obtain ⟨-, -, rfl⟩ := addComponent_eq_ok_iff.mp added
      exact ih
  | addResolver _ _ _ _ _ _ ih => exact ih

def componentNames (graph : Graph) : List String :=
  graph.components.map Component.name

theorem Built.nodup_componentNames (h : graph.Built) : graph.componentNames.Nodup := by
  induction h with
  | empty => exact List.nodup_nil
  | intern _ _ _ ih => exact ih
  | defineClass _ _ _ _ ih => exact ih
  | addModule _ _ _ added ih =>
      obtain ⟨-, -, rfl⟩ := addModule_eq_ok_iff.mp added
      exact ih
  | addProvider _ _ _ _ _ _ _ _ _ ih => exact ih
  | addInclude _ _ _ _ _ ih => exact ih
  | addRequired _ _ _ _ _ ih => exact ih
  | addComponent _ name source root _ added ih =>
      obtain ⟨hnew, -, rfl⟩ := addComponent_eq_ok_iff.mp added
      rw [componentNames, List.map_append, List.map_singleton]
      exact ih.append (List.nodup_singleton _) (List.disjoint_singleton.mpr hnew)
  | @addResolver graph _ component name returns _ _ ih =>
      have hsame : (graph.addResolver component name returns).componentNames =
          graph.componentNames := map_modify (fun _ ↦ by rfl) graph.components component
      rw [hsame]
      exact ih

/-- The types that modules require are those of the graph. -/
def RequiresPresent (graph : Graph) : Prop :=
  ∀ decl ∈ graph.modules, ∀ type ∈ decl.requires, type < graph.types.size

theorem RequiresPresent.withTypes (h : graph.RequiresPresent) {types : TypeTable}
    (hsize : graph.types.size ≤ types.size) :
    RequiresPresent { graph with types := types } := fun decl hdecl type htype ↦
  Nat.lt_of_lt_of_le (h decl hdecl type htype) hsize

theorem RequiresPresent.modifyModule (h : graph.RequiresPresent) (owner : ModuleId)
    (f : ModuleDecl → ModuleDecl)
    (hrequires : ∀ decl, ∀ type ∈ (f decl).requires,
      type ∈ decl.requires ∨ type < graph.types.size) :
    RequiresPresent { graph with modules := graph.modules.modify owner f } := by
  intro decl hdecl type htype
  obtain hold | ⟨old, hold, rfl⟩ := mem_modify hdecl
  · exact h decl hold type htype
  · exact (hrequires old type htype).elim (h old hold type) id

theorem Built.requiresPresent (h : graph.Built) : graph.RequiresPresent := by
  induction h with
  | empty => exact List.forall_mem_nil _
  | intern _ descriptor _ ih => exact ih.withTypes (TypeTable.size_le_size_intern _ descriptor)
  | defineClass _ _ _ _ ih => exact ih
  | addModule _ _ _ added ih =>
      obtain ⟨-, -, rfl⟩ := addModule_eq_ok_iff.mp added
      exact List.forall_mem_append.mpr
        ⟨ih, List.forall_mem_singleton.mpr (List.forall_mem_nil _)⟩
  | addProvider built owner name parameters returns deferred _ _ product ih =>
      have hsize := (Closed.delivered_built built.closed.types product deferred).2
      exact (ih.withTypes hsize).modifyModule owner _ fun _ _ htype ↦ Or.inl htype
  | addInclude _ owner _ _ _ ih =>
      refine ih.modifyModule owner _ fun decl type htype ↦ Or.inl ?_
      split_ifs at htype <;> exact htype
  | addRequired _ owner required _ present ih =>
      refine ih.modifyModule owner _ fun decl type htype ↦ ?_
      rcases mem_insertAscending.mp htype with rfl | hold
      · exact Or.inr present
      · exact Or.inl hold
  | addComponent _ _ _ _ _ added ih =>
      obtain ⟨-, -, rfl⟩ := addComponent_eq_ok_iff.mp added
      exact ih
  | addResolver _ _ _ _ _ _ ih => exact ih

end

/-- What the search and the generator rely on when they follow identities. -/
structure WellFormed (graph : Graph) : Prop where
  moduleNames : graph.moduleNames.Nodup
  componentNames : graph.componentNames.Nodup
  owners : ∀ provider ∈ graph.providers, provider.owner < graph.modules.length
  /-- A provider is listed once by its owner, and by no other module. -/
  listedOnce : ∀ (id : ProviderId) (provider : Provider), graph.providers[id]? = some provider →
    ∀ (index : ModuleId) (decl : ModuleDecl), graph.modules[index]? = some decl →
      decl.providers.count id = if index = provider.owner then 1 else 0
  listed : ∀ decl ∈ graph.modules, ∀ id ∈ decl.providers, id < graph.providers.length
  includesOnce : ∀ decl ∈ graph.modules, decl.includes.Nodup
  includes : ∀ decl ∈ graph.modules, ∀ included ∈ decl.includes, included < graph.modules.length
  parameters : ∀ provider ∈ graph.providers, ∀ type ∈ provider.parameters,
    type < graph.types.size
  returns : ∀ provider ∈ graph.providers, provider.returns < graph.types.size
  requires : ∀ decl ∈ graph.modules, ∀ type ∈ decl.requires, type < graph.types.size
  roots : ∀ component ∈ graph.components, component.root < graph.modules.length
  resolvers : ∀ component ∈ graph.components, ∀ resolver ∈ component.resolvers,
    resolver.returns < graph.types.size
  deferred : ∀ provider ∈ graph.providers, provider.deferred = true ↔
    ∃ inner, graph.types.get provider.returns = .generic TypeTable.promiseName [inner]

theorem isPromise_iff {types : TypeTable} {id : TypeId} : types.isPromise id = true ↔
    ∃ inner, types.get id = .generic TypeTable.promiseName [inner] := by
  rw [TypeTable.isPromise, TypeTable.promised?, Option.isSome_iff_exists]
  constructor
  · rintro ⟨inner, hinner⟩
    exact ⟨inner, TypeTable.get_of_argumentOf?_eq_some hinner⟩
  · rintro ⟨inner, hget⟩
    exact ⟨inner, by rw [TypeTable.argumentOf?, hget]; rfl⟩

theorem Built.wellFormed {graph : Graph} (h : graph.Built) : graph.WellFormed where
  moduleNames := h.nodup_moduleNames
  componentNames := h.nodup_componentNames
  owners := by
    intro provider hprovider
    obtain ⟨id, hid⟩ := List.mem_iff_getElem?.mp hprovider
    exact (h.housed id provider hid).1
  listedOnce := by
    intro id provider hprovider index decl hdecl
    have hlisted := (h.housed id provider hprovider).2 index decl hdecl
    have honce := h.unrepeated.providers decl (List.mem_of_getElem? hdecl)
    split_ifs with howner
    · exact List.count_eq_one_of_mem honce (hlisted.mpr howner)
    · exact List.count_eq_zero_of_not_mem fun hmem ↦ howner (hlisted.mp hmem)
  listed := h.unrepeated.declared
  includesOnce := h.unrepeated.includes
  includes := h.closed.includes
  parameters := h.closed.parameters
  returns := fun provider hprovider ↦ (h.deferring provider hprovider).1
  requires := h.requiresPresent
  roots := h.closed.roots
  resolvers := h.closed.resolvers
  deferred := fun provider hprovider ↦ by
    rw [(h.deferring provider hprovider).2, isPromise_iff]

/-! ## Operations -/

inductive Identity where
  | type (id : TypeId)
  | ofModule (id : ModuleId)
  | provider (id : ProviderId)
  | component (id : ComponentId)
  deriving DecidableEq

/-- The identities of what is in the graph. -/
def Identity.Known (graph : Graph) : Identity → Prop
  | .type id => id < graph.types.size
  | .ofModule id => id < graph.modules.length
  | .provider id => id < graph.providers.length
  | .component id => id < graph.components.length

instance (graph : Graph) : DecidablePred (Identity.Known graph)
  | .type id => inferInstanceAs (Decidable (id < graph.types.size))
  | .ofModule id => inferInstanceAs (Decidable (id < graph.modules.length))
  | .provider id => inferInstanceAs (Decidable (id < graph.providers.length))
  | .component id => inferInstanceAs (Decidable (id < graph.components.length))

inductive Operation where
  | intern (descriptor : Descriptor)
  | defineClass (name : String) (fields : List Field)
  | addModule (name : String) (source : Path)
  | addProvider (owner : ModuleId) (name : String) (parameters : List TypeId) (returns : TypeId)
      (deferred : Bool)
  | addInclude (owner included : ModuleId)
  | addRequired (owner : ModuleId) (type : TypeId)
  | addComponent (name : String) (source : Path) (root : ModuleId)
  | addResolver (component : ComponentId) (name : String) (returns : TypeId)

namespace Operation

/-- The identities that an operation names. -/
def identities : Operation → List Identity
  | intern descriptor => descriptor.parts.map .type
  | defineClass _ fields => fields.map fun field ↦ .type field.type
  | addModule _ _ => []
  | addProvider owner _ parameters returns _ =>
    .ofModule owner :: .type returns :: parameters.map .type
  | addInclude owner included => [.ofModule owner, .ofModule included]
  | addRequired owner type => [.ofModule owner, .type type]
  | addComponent _ _ root => [.ofModule root]
  | addResolver component _ returns => [.component component, .type returns]

def Known (graph : Graph) (operation : Operation) : Prop :=
  ∀ identity ∈ operation.identities, identity.Known graph

instance (graph : Graph) (operation : Operation) : Decidable (operation.Known graph) :=
  inferInstanceAs (Decidable (∀ identity ∈ operation.identities, identity.Known graph))

end Operation

/-- What an operation answers, the identity of what it adds or the error, and the graph that it
leaves. -/
def perform (graph : Graph) : Operation → Except Error (Option Identity) × Graph
  | .intern descriptor =>
    let (id, types) := graph.types.intern descriptor
    (.ok (some (.type id)), { graph with types := types })
  | .defineClass name fields =>
    (.ok none, { graph with types := graph.types.defineClass name fields })
  | .addModule name source =>
    match graph.addModule name source with
    | .ok (id, next) => (.ok (some (.ofModule id)), next)
    | .error error => (.error error, graph)
  | .addProvider owner name parameters returns deferred =>
    let (id, next) := graph.addProvider owner name parameters returns deferred
    (.ok (some (.provider id)), next)
  | .addInclude owner included => (.ok none, graph.addInclude owner included)
  | .addRequired owner type => (.ok none, graph.addRequired owner type)
  | .addComponent name source root =>
    match graph.addComponent name source root with
    | .ok (id, next) => (.ok (some (.component id)), next)
    | .error error => (.error error, graph)
  | .addResolver component name returns =>
    (.ok none, graph.addResolver component name returns)

/-- All answers of a sequence, and the graph that it leaves. -/
def performAll (graph : Graph) :
    List Operation → List (Except Error (Option Identity)) × Graph
  | [] => ([], graph)
  | operation :: later =>
    let (answer, next) := graph.perform operation
    let (answers, last) := next.performAll later
    (answer :: answers, last)

/-- Each operation of a sequence names identities of the graph that it is performed on. -/
def KnownAll (graph : Graph) : List Operation → Prop
  | [] => True
  | operation :: later => operation.Known graph ∧ (graph.perform operation).2.KnownAll later

instance decidableKnownAll (graph : Graph) :
    (operations : List Operation) → Decidable (graph.KnownAll operations)
  | [] => .isTrue trivial
  | operation :: later =>
    have := decidableKnownAll (graph.perform operation).2 later
    inferInstanceAs (Decidable (operation.Known graph ∧ _))

section

variable {graph next : Graph} {operation : Operation}

theorem Built.perform (h : graph.Built) (known : operation.Known graph) :
    (graph.perform operation).2.Built := by
  cases operation with
  | intern descriptor => exact h.intern descriptor (List.forall_mem_map.mp known)
  | defineClass name fields => exact h.defineClass name fields (List.forall_mem_map.mp known)
  | addModule name source =>
      rw [Graph.perform]
      split
      · next added => exact h.addModule name source added
      · exact h
  | addProvider owner name parameters returns deferred =>
      obtain ⟨owned, known⟩ := List.forall_mem_cons.mp known
      obtain ⟨product, present⟩ := List.forall_mem_cons.mp known
      exact h.addProvider owner name parameters returns deferred owned
        (List.forall_mem_map.mp present) product
  | addInclude owner included =>
      obtain ⟨owned, present⟩ := List.forall_mem_cons.mp known
      exact h.addInclude owner included owned (present _ List.mem_cons_self)
  | addRequired owner type =>
      obtain ⟨owned, present⟩ := List.forall_mem_cons.mp known
      exact h.addRequired owner type owned (present _ List.mem_cons_self)
  | addComponent name source root =>
      rw [Graph.perform]
      split
      · next added =>
          exact h.addComponent name source root (known _ List.mem_cons_self) added
      · exact h
  | addResolver component name returns =>
      obtain ⟨declared, present⟩ := List.forall_mem_cons.mp known
      exact h.addResolver component name returns declared (present _ List.mem_cons_self)

theorem perform_of_error {error : Error} (h : (graph.perform operation).1 = .error error) :
    (graph.perform operation).2 = graph := by
  cases operation with
  | addModule name source =>
      rw [Graph.perform] at h ⊢
      split at h
      · cases h
      · rfl
  | addComponent name source root =>
      rw [Graph.perform] at h ⊢
      split at h
      · cases h
      · rfl
  | _ => cases h

/-- Nothing that has an identity is lost. -/
structure Keeps (graph next : Graph) : Prop where
  types : graph.types.size ≤ next.types.size
  modules : graph.modules.length ≤ next.modules.length
  providers : graph.providers.length ≤ next.providers.length
  components : graph.components.length ≤ next.components.length

theorem Identity.Known.mono {identity : Identity} (h : identity.Known graph)
    (hkeeps : graph.Keeps next) : identity.Known next := by
  cases identity with
  | type id => exact Nat.lt_of_lt_of_le h hkeeps.types
  | ofModule id => exact Nat.lt_of_lt_of_le h hkeeps.modules
  | provider id => exact Nat.lt_of_lt_of_le h hkeeps.providers
  | component id => exact Nat.lt_of_lt_of_le h hkeeps.components

theorem Keeps.refl (graph : Graph) : graph.Keeps graph :=
  ⟨Nat.le_refl _, Nat.le_refl _, Nat.le_refl _, Nat.le_refl _⟩

theorem Keeps.trans {last : Graph} (h : graph.Keeps next) (hlast : next.Keeps last) :
    graph.Keeps last :=
  ⟨h.types.trans hlast.types, h.modules.trans hlast.modules,
    h.providers.trans hlast.providers, h.components.trans hlast.components⟩

/-- An operation keeps what there is, and what it answers is in the graph that it leaves. -/
theorem keeps_perform (h : graph.Built) (known : operation.Known graph) :
    graph.Keeps (graph.perform operation).2 ∧
      ∀ identity, (graph.perform operation).1 = .ok (some identity) →
        identity.Known (graph.perform operation).2 := by
  cases operation with
  | intern descriptor =>
      refine ⟨⟨TypeTable.size_le_size_intern _ _, Nat.le_refl _, Nat.le_refl _, Nat.le_refl _⟩, ?_⟩
      rintro _ ⟨⟩
      exact h.closed.types.intern_lt_size (List.forall_mem_map.mp known)
  | defineClass name fields =>
      exact ⟨⟨Nat.le_refl _, Nat.le_refl _, Nat.le_refl _, Nat.le_refl _⟩, nofun⟩
  | addModule name source =>
      rw [Graph.perform]
      split
      · next id next added =>
          obtain ⟨-, rfl, rfl⟩ := addModule_eq_ok_iff.mp added
          refine ⟨⟨Nat.le_refl _, by simp, Nat.le_refl _, Nat.le_refl _⟩, ?_⟩
          rintro _ ⟨⟩
          simp [Identity.Known]
      · exact ⟨.refl graph, nofun⟩
  | addProvider owner name parameters returns deferred =>
      have hreturns : returns < graph.types.size :=
        known _ (List.mem_cons_of_mem _ List.mem_cons_self)
      have hsize := (Closed.delivered_built h.closed.types hreturns deferred).2
      refine ⟨⟨hsize, by simp [Graph.perform, Graph.addProvider],
        by simp [Graph.perform, Graph.addProvider], Nat.le_refl _⟩, ?_⟩
      rintro _ ⟨⟩
      simp [Identity.Known, Graph.perform, Graph.addProvider]
  | addInclude owner included =>
      exact ⟨⟨Nat.le_refl _, by simp [Graph.perform, Graph.addInclude], Nat.le_refl _,
        Nat.le_refl _⟩, nofun⟩
  | addRequired owner type =>
      exact ⟨⟨Nat.le_refl _, by simp [Graph.perform, Graph.addRequired], Nat.le_refl _,
        Nat.le_refl _⟩, nofun⟩
  | addComponent name source root =>
      rw [Graph.perform]
      split
      · next id next added =>
          obtain ⟨-, rfl, rfl⟩ := addComponent_eq_ok_iff.mp added
          refine ⟨⟨Nat.le_refl _, Nat.le_refl _, Nat.le_refl _, by simp⟩, ?_⟩
          rintro _ ⟨⟩
          simp [Identity.Known]
      · exact ⟨.refl graph, nofun⟩
  | addResolver component name returns =>
      exact ⟨⟨Nat.le_refl _, Nat.le_refl _, Nat.le_refl _,
        by simp [Graph.perform, Graph.addResolver]⟩, nofun⟩

end

theorem Built.performAll {graph : Graph} {operations : List Operation} (h : graph.Built)
    (known : graph.KnownAll operations) :
    (graph.performAll operations).2.Built ∧ graph.Keeps (graph.performAll operations).2 ∧
      ∀ identity, .ok (some identity) ∈ (graph.performAll operations).1 →
        identity.Known (graph.performAll operations).2 := by
  induction operations generalizing graph with
  | nil => exact ⟨h, .refl graph, fun _ hmem ↦ absurd hmem List.not_mem_nil⟩
  | cons operation later ih =>
      obtain ⟨hknown, hlater⟩ := known
      obtain ⟨hbuilt, hkeeps, hanswers⟩ := ih (h.perform hknown) hlater
      obtain ⟨hfirst, hanswer⟩ := keeps_perform h hknown
      refine ⟨hbuilt, hfirst.trans hkeeps, fun identity hmem ↦ ?_⟩
      rcases List.mem_cons.mp hmem with heq | hmem
      · exact (hanswer identity heq.symm).mono hkeeps
      · exact hanswers identity hmem

/-- Wherever a sequence of operations stops, whether or not some of them have failed, the graph is
consistent and holds all that was answered, and a next operation that fails leaves it as it is. -/
theorem wellFormed_of_knownAll {operations : List Operation}
    (known : Graph.empty.KnownAll operations) :
    (Graph.empty.performAll operations).2.WellFormed ∧
      (∀ identity, .ok (some identity) ∈ (Graph.empty.performAll operations).1 →
        identity.Known (Graph.empty.performAll operations).2) ∧
      ∀ operation error,
        ((Graph.empty.performAll operations).2.perform operation).1 = .error error →
          ((Graph.empty.performAll operations).2.perform operation).2 =
            (Graph.empty.performAll operations).2 := by
  obtain ⟨hbuilt, -, hanswers⟩ := Built.empty.performAll known
  exact ⟨hbuilt.wellFormed, hanswers, fun operation error ↦ perform_of_error⟩

/-- A module and a component are declared twice, and the second time fails. -/
def interrupted : List Operation :=
  [.intern (.nominal "Clock"), .addModule "Root" ⟨"root.ts"⟩, .addModule "Time" ⟨"time.ts"⟩,
    .addModule "Root" ⟨"other.ts"⟩, .addProvider 1 "clock" [] 0 true,
    .addProvider 0 "watch" [0] 1 false, .addInclude 0 1, .addInclude 0 1, .addRequired 1 0,
    .addComponent "App" ⟨"app.ts"⟩ 0, .addComponent "App" ⟨"app.ts"⟩ 1, .addResolver 0 "clock" 1]

theorem interrupted_wellFormed :
    Graph.empty.KnownAll interrupted ∧ (Graph.empty.performAll interrupted).2.WellFormed ∧
      .error (.manifest (.duplicateModule "Root")) ∈ (Graph.empty.performAll interrupted).1 ∧
      .ok (some (.provider 1)) ∈ (Graph.empty.performAll interrupted).1 ∧
      Identity.Known (Graph.empty.performAll interrupted).2 (.provider 1) := by
  have known : Graph.empty.KnownAll interrupted := by decide
  have hanswered : .ok (some (.provider 1)) ∈ (Graph.empty.performAll interrupted).1 := by decide
  obtain ⟨hwellFormed, hanswers, -⟩ := wellFormed_of_knownAll known
  exact ⟨known, hwellFormed, by decide, hanswered, hanswers _ hanswered⟩

end Wiring.Graph
