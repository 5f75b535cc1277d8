import Wiring.Proofs.Manifest.Filled

/-!
# What a manifest says about a graph

A declaration is as its entry says when it has the names of the entry and the types that the table
of the graph holds for what the entry writes.  It stays so while the graph grows.
-/

namespace Wiring

namespace Manifest

open TypeTable Lowering

variable {scope : Scope}

structure ProviderAs (scope : Scope) (types : TypeTable) (owner : ModuleId) (entry : ProviderEntry)
    (provider : Provider) : Prop where
  name : provider.name = entry.name
  owner : provider.owner = owner
  parameters : List.Forall₂ (Written types) (entry.parameters.map scope.resolve)
    provider.parameters
  returns : Written types (scope.product entry.returns entry.deferred) provider.returns
  deferred : provider.deferred = (entry.deferred || types.isPromise provider.returns)

theorem ProviderAs.grows {types later : TypeTable} {owner : ModuleId} {entry : ProviderEntry}
    {provider : Provider} (h : ProviderAs scope types owner entry provider)
    (hgrows : types.Grows later) : ProviderAs scope later owner entry provider where
  name := h.name
  owner := h.owner
  parameters := h.parameters.imp fun _ _ hparameter ↦ hparameter.grows hgrows
  returns := h.returns.grows hgrows
  deferred := by
    rw [h.deferred, hgrows.isPromise_eq (h.returns.lt_size (scope.steady_product _ _))]

theorem steady_of_mem_map_resolve {expressions : List String} :
    ∀ L ∈ expressions.map scope.resolve, Steady Twins L := by
  intro L hL
  obtain ⟨expression, -, rfl⟩ := List.mem_map.mp hL
  exact scope.steady_resolve expression

theorem steady_of_mem_flatMap {α : Type} {entries : List α} {lowerings : α → List (Lowering TypeId)}
    (h : ∀ entry, ∀ L ∈ lowerings entry, Steady Twins L) :
    ∀ L ∈ entries.flatMap lowerings, Steady Twins L := by
  intro L hL
  obtain ⟨entry, -, hL⟩ := List.mem_flatMap.mp hL
  exact h entry L hL

theorem ProviderEntry.steady_of_mem_lowerings (entry : ProviderEntry) :
    ∀ L ∈ entry.lowerings scope, Steady Twins L := by
  intro L hL
  rcases List.mem_append.mp hL with hparameter | hproduct
  · exact steady_of_mem_map_resolve L hparameter
  · rw [List.mem_singleton.mp hproduct]
    exact scope.steady_product _ _

theorem ModuleEntry.steady_of_mem_lowerings (entry : ModuleEntry) :
    ∀ L ∈ entry.lowerings scope, Steady Twins L := by
  intro L hL
  rcases List.mem_append.mp hL with hrequired | hprovided
  · exact steady_of_mem_map_resolve L hrequired
  · exact steady_of_mem_flatMap ProviderEntry.steady_of_mem_lowerings L hprovided

namespace Provides

variable {owner : ModuleId} {table last : TypeTable} {entries : List ProviderEntry}
  {providers : List Provider}

theorem interns (h : Provides scope owner table entries providers last) :
    ∃ ids, Interns table (entries.flatMap (ProviderEntry.lowerings scope)) ids last := by
  induction h with
  | nil table => exact ⟨[], .nil table⟩
  | cons arguments product _ ih =>
      obtain ⟨ids, hrest⟩ := ih
      exact ⟨_, (arguments.append (.singleton product)).append hrest⟩

theorem develops (h : Provides scope owner table entries providers last) (htable : table.Built) :
    table.Develops last := by
  obtain ⟨ids, hinterns⟩ := h.interns
  exact hinterns.develops (steady_of_mem_flatMap ProviderEntry.steady_of_mem_lowerings) htable

theorem providersAs (h : Provides scope owner table entries providers last)
    (htable : table.Built) : List.Forall₂ (ProviderAs scope last owner) entries providers := by
  induction h with
  | nil => exact .nil
  | cons arguments product rest ih =>
      have hmiddle := arguments.develops steady_of_mem_map_resolve htable
      obtain ⟨hlater, -⟩ := (scope.steady_product _ _).develops hmiddle.built product
      refine .cons (ProviderAs.grows ?_ (rest.develops hlater.built).grows) (ih hlater.built)
      exact {
        name := rfl
        owner := rfl
        parameters := (arguments.written steady_of_mem_map_resolve htable).imp
          fun _ _ hparameter ↦ hparameter.grows hlater.grows
        returns := ⟨_, _, hmiddle.built, product, Grows.refl _⟩
        deferred := rfl }

end Provides

theorem exists_provides (owner : ModuleId) {table : TypeTable} (htable : table.Built)
    {entries : List ProviderEntry}
    (h : ∀ L ∈ entries.flatMap (ProviderEntry.lowerings scope), Resolvable L) :
    ∃ providers last, Provides scope owner table entries providers last := by
  induction entries generalizing table with
  | nil => exact ⟨[], table, .nil table⟩
  | cons entry entries ih =>
      rw [List.flatMap_cons] at h
      have hentry : ∀ L ∈ entry.lowerings scope, Resolvable L :=
        fun L hL ↦ h L (List.mem_append_left _ hL)
      obtain ⟨parameters, middle, harguments⟩ :=
        (exists_interns_iff steady_of_mem_map_resolve htable).mpr
          fun L hL ↦ hentry L (List.mem_append_left _ hL)
      have hmiddle := harguments.develops steady_of_mem_map_resolve htable
      have hsteady := scope.steady_product entry.returns entry.deferred
      obtain ⟨returns, later, hproduct⟩ := (hsteady.exists_run_iff hmiddle.built).mpr
        (hentry _ (List.mem_append_right _ (List.mem_singleton_self _)))
      obtain ⟨hlater, -⟩ := hsteady.develops hmiddle.built hproduct
      obtain ⟨providers, last, hrest⟩ :=
        ih hlater.built fun L hL ↦ h L (List.mem_append_right _ hL)
      exact ⟨_, last, .cons harguments hproduct hrest⟩

/-- The list with the identities that are new to it, each of them once. -/
def distinct (ids : List ModuleId) : List ModuleId :=
  ids.foldl (fun found id ↦ if found.contains id then found else found ++ [id]) []

def moduleNames (manifest : Manifest) : List String :=
  manifest.modules.map ModuleEntry.name

/-- The number of the module of a name. -/
def moduleId (manifest : Manifest) (name : String) : ModuleId :=
  manifest.moduleNames.idxOf name

structure ModuleAs (manifest : Manifest) (base : Path) (scope : Scope) (types : TypeTable)
    (providers : List Provider) (entry : ModuleEntry) (decl : ModuleDecl) : Prop where
  name : decl.name = entry.name
  source : decl.source = manifest.sourceOf base entry.source
  includes : decl.includes = distinct (entry.includes.map manifest.moduleId)
  requires : ∃ ids, List.Forall₂ (Written types) (entry.requires.map scope.resolve) ids ∧
    decl.requires = ids.foldl (fun requires type ↦ insertAscending type requires) []
  providers : List.Forall₂ (fun item id ↦ ∃ provider, providers[id]? = some provider ∧
    ProviderAs scope types (manifest.moduleId entry.name) item provider) entry.providers
      decl.providers

theorem ModuleAs.grows {manifest : Manifest} {base : Path} {types later : TypeTable}
    {providers all : List Provider} {entry : ModuleEntry} {decl : ModuleDecl}
    (h : ModuleAs manifest base scope types providers entry decl) (hgrows : types.Grows later)
    (hproviders : providers <+: all) : ModuleAs manifest base scope later all entry decl where
  name := h.name
  source := h.source
  includes := h.includes
  requires := by
    obtain ⟨ids, hids, hrequires⟩ := h.requires
    exact ⟨ids, hids.imp fun _ _ hid ↦ hid.grows hgrows, hrequires⟩
  providers := by
    refine h.providers.imp fun entry id ⟨provider, hget, hprovider⟩ ↦
      ⟨provider, ?_, hprovider.grows hgrows⟩
    obtain ⟨more, rfl⟩ := hproviders
    obtain ⟨hlt, -⟩ := List.getElem?_eq_some_iff.mp hget
    rw [List.getElem?_append_left hlt, hget]

theorem ModuleAs.getProvider {manifest : Manifest} {base : Path} {types : TypeTable} {graph : Graph}
    {entry : ModuleEntry} {decl : ModuleDecl}
    (h : ModuleAs manifest base scope types graph.providers entry decl) :
    List.Forall₂ (ProviderAs scope types (manifest.moduleId entry.name)) entry.providers
      (decl.providers.map graph.getProvider) := by
  refine List.forall₂_map_right_iff.mpr (h.providers.imp fun item id hid ↦ ?_)
  obtain ⟨provider, hget, hprovider⟩ := hid
  rwa [Graph.getProvider, List.getD_eq_getElem?_getD, hget]

structure ComponentAs (manifest : Manifest) (base : Path) (scope : Scope) (types : TypeTable)
    (entry : ComponentEntry) (component : Component) : Prop where
  name : component.name = entry.name
  source : component.source = manifest.sourceOf base entry.source
  root : component.root = manifest.moduleId entry.root
  resolvers : List.Forall₂ (fun entry resolver ↦ resolver.name = entry.name ∧
    Written types (scope.resolve entry.returns) resolver.returns) entry.resolvers
    component.resolvers

theorem ComponentAs.grows {manifest : Manifest} {base : Path} {types later : TypeTable}
    {entry : ComponentEntry} {component : Component}
    (h : ComponentAs manifest base scope types entry component) (hgrows : types.Grows later) :
    ComponentAs manifest base scope later entry component where
  name := h.name
  source := h.source
  root := h.root
  resolvers := h.resolvers.imp fun _ _ hresolver ↦ ⟨hresolver.1, hresolver.2.grows hgrows⟩

/-- What is lowered for a component, in order. -/
def ComponentEntry.lowerings (scope : Scope) (entry : ComponentEntry) : List (Lowering TypeId) :=
  entry.resolvers.map fun resolver ↦ scope.resolve resolver.returns

theorem ComponentEntry.steady_of_mem_lowerings (entry : ComponentEntry) :
    ∀ L ∈ entry.lowerings scope, Steady Twins L := by
  intro L hL
  obtain ⟨resolver, -, rfl⟩ := List.mem_map.mp hL
  exact scope.steady_resolve resolver.returns

end Manifest

end Wiring
