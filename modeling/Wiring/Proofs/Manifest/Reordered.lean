import Mathlib
import Wiring.Proofs.Code.Renumbered
import Wiring.Proofs.Manifest.Declared

/-!
# The order of modules

A manifest whose modules are listed in another order declares the same things under other numbers.
It has a graph when the first one has, and the same implementations.
-/

namespace Wiring

open TypeTable Lowering

theorem ascending_eq_of_mem_iff {as bs : List TypeId} (h : ∀ id, id ∈ as ↔ id ∈ bs) :
    ascending as = ascending bs :=
  (pairwise_ascending as).eq_of_mem_iff (pairwise_ascending bs) fun id ↦ by
    rw [mem_ascending, mem_ascending, h]

theorem foldl_insertAscending (ids : List TypeId) :
    ids.foldl (fun found id ↦ insertAscending id found) [] = ascending ids := by
  rw [← List.foldr_reverse]
  exact ascending_eq_of_mem_iff fun _ ↦ List.mem_reverse

namespace Manifest

theorem distinct_map {f : ModuleId → ModuleId} (hf : Function.Injective f) (ids : List ModuleId) :
    distinct (ids.map f) = (distinct ids).map f := by
  have hfold : ∀ found : List ModuleId,
      (ids.map f).foldl (fun found id ↦ if found.contains id then found else found ++ [id])
          (found.map f) =
        (ids.foldl (fun found id ↦ if found.contains id then found else found ++ [id])
          found).map f := by
    induction ids with
    | nil => exact fun _ ↦ rfl
    | cons id ids ih =>
        intro found
        have hcontains : (found.map f).contains (f id) = found.contains id := by
          rw [Bool.eq_iff_iff, List.contains_iff_mem, List.contains_iff_mem]
          exact List.mem_map_of_injective hf
        rw [List.map_cons, List.foldl_cons, List.foldl_cons, hcontains, ← ih]
        split_ifs
        · rfl
        · rw [List.map_append, List.map_singleton]
  exact hfold []

/-- The manifests declare the same, their modules being listed in different orders. -/
structure Reordered (manifest another : Manifest) : Prop where
  source : another.source = manifest.source
  classes : another.classes = manifest.classes
  enums : another.enums = manifest.enums
  aliases : another.aliases = manifest.aliases
  components : another.components = manifest.components
  modules : manifest.modules.Perm another.modules

namespace Reordered

variable {manifest another : Manifest} {base : Path} {scope : Scope} {origin : TypeTable}
  {graph other : Graph} {r : Renumbering}

theorem symm (h : Reordered manifest another) : Reordered another manifest where
  source := h.source.symm
  classes := h.classes.symm
  enums := h.enums.symm
  aliases := h.aliases.symm
  components := h.components.symm
  modules := h.modules.symm

theorem moduleNames (h : Reordered manifest another) :
    manifest.moduleNames.Perm another.moduleNames :=
  h.modules.map ModuleEntry.name

theorem sourceOf (h : Reordered manifest another) (base : Path) (declared : Option Path) :
    another.sourceOf base declared = manifest.sourceOf base declared := by
  rw [Manifest.sourceOf, Manifest.sourceOf, h.source]

theorem starts (h : Reordered manifest another) (hstarts : Starts manifest scope origin) :
    Starts another scope origin := by
  obtain ⟨hscope, hclasses⟩ := hstarts
  rw [Manifest.scope, ← h.enums, ← h.aliases] at hscope
  rw [← h.classes] at hclasses
  exact ⟨hscope, hclasses⟩

theorem mem_lowerings (h : Reordered manifest another) {L : Lowering TypeId} :
    L ∈ another.lowerings scope ↔ L ∈ manifest.lowerings scope := by
  rw [lowerings, lowerings, List.mem_append, List.mem_append, h.components,
    (h.modules.flatMap_right (ModuleEntry.lowerings scope)).mem_iff]

theorem declarable (h : Reordered manifest another) (hdeclarable : Declarable manifest scope) :
    Declarable another scope where
  names := h.moduleNames.nodup_iff.mp hdeclarable.names
  includes := fun entry hentry name hname ↦ h.moduleNames.mem_iff.mp
    (hdeclarable.includes entry (h.modules.mem_iff.mpr hentry) name hname)
  componentNames := by
    rw [h.components]
    exact hdeclarable.componentNames
  roots := fun entry hentry ↦ h.moduleNames.mem_iff.mp
    (hdeclarable.roots entry (h.components ▸ hentry))
  resolvable := fun L hL ↦ hdeclarable.resolvable L (h.mem_lowerings.mp hL)

theorem exists_graph (h : Reordered manifest another)
    (hgraph : ∃ graph, manifest.graph base = .ok graph) :
    ∃ other, another.graph base = .ok other := by
  obtain ⟨scope, origin, hstarts, hdeclarable⟩ := exists_graph_iff.mp hgraph
  exact Manifest.exists_graph (h.starts hstarts) (h.declarable hdeclarable)

/-- What both tables have from the classes is its own twin.  The rest is written in both
manifests. -/
theorem exists_twin (h : Reordered manifest another) (horigin : origin.Built)
    (hgraph : Declares manifest base scope origin graph)
    (hother : Declares another base scope origin other) {id : TypeId}
    (hid : id < graph.types.size) : ∃ twin, graph.types.Twins other.types id twin := by
  by_cases hold : id < origin.size
  · exact ⟨id, twins_self_of_grows horigin (hgraph.develops horigin).grows
      (hother.develops horigin).grows hold⟩
  · obtain ⟨ids, hinterns⟩ := hgraph.interns
    have hwritten : ∀ L ∈ manifest.lowerings scope, ∃ image, Written other.types L image :=
      fun L hL ↦ hother.exists_written horigin (h.mem_lowerings.mpr hL)
    exact hinterns.exists_twin steady_of_mem_lowerings horigin hwritten hid (Nat.le_of_not_lt hold)

theorem exists_types (h : Reordered manifest another) (horigin : origin.Built)
    (hgraph : Declares manifest base scope origin graph)
    (hother : Declares another base scope origin other) :
    ∃ f, graph.types.Renumbered f other.types ∧
      ∀ a b, graph.types.Twins other.types a b → f a = b := by
  have hleft := hgraph.develops horigin
  have hright := hother.develops horigin
  refine exists_renumbered hleft.built hright.built (fun id ↦ h.exists_twin horigin hgraph hother)
    (fun id ↦ h.symm.exists_twin horigin hother hgraph) fun name ↦ ?_
  have hsame : graph.types.classFields name = origin.classFields name := by
    rw [classFields, hleft.classes, classFields]
  have hotherSame : other.types.classFields name = origin.classFields name := by
    rw [classFields, hright.classes, classFields]
  rw [hsame, hotherSame]
  exact List.forall₂_same.mpr fun field hfield ↦ ⟨rfl, twins_self_of_grows horigin hleft.grows
    hright.grows (horigin.fieldsPresent name field hfield)⟩

theorem map_idxOf_eq_range {names : List String} (h : names.Nodup) :
    names.map names.idxOf = List.range names.length := by
  refine List.ext_getElem (by simp) fun index hindex hindex' ↦ ?_
  rw [List.getElem_map, List.getElem_range, h.idxOf_getElem]

theorem exists_modules (h : Reordered manifest another) (hnames : manifest.moduleNames.Nodup) :
    ∃ f : Equiv.Perm ModuleId,
      (∀ name ∈ manifest.moduleNames, f (manifest.moduleId name) = another.moduleId name) ∧
      ∀ id, manifest.modules.length ≤ id → f id = id := by
  have hnumbers := map_idxOf_eq_range hnames
  have himage : (manifest.moduleNames.map another.moduleId).Perm
      (List.range manifest.moduleNames.length) := by
    rw [h.moduleNames.length_eq, ← map_idxOf_eq_range (h.moduleNames.nodup_iff.mp hnames)]
    exact h.moduleNames.map _
  obtain ⟨f, hf, houtside⟩ := exists_perm_map_eq (.of_eq hnumbers) himage
  rw [List.map_map] at hf
  refine ⟨f, List.map_inj_left.mp hf, fun id hid ↦ houtside id ?_⟩
  rwa [Manifest.moduleNames, List.length_map]

end Reordered

/-! ## Declarations by their entries -/

variable {manifest another : Manifest} {base : Path} {scope : Scope} {origin : TypeTable}
  {graph other : Graph} {r : Renumbering}

namespace Declares

theorem modules_eq (h : Declares manifest base scope origin graph)
    (hnames : manifest.moduleNames.Nodup) : graph.modules =
    manifest.modules.map fun entry ↦ graph.getModule (manifest.moduleId entry.name) := by
  have hlength := h.modules.length_eq
  refine List.ext_getElem (by simp [hlength]) fun index hindex hindex' ↦ ?_
  have hentry : index < manifest.moduleNames.length := by
    rwa [moduleNames, List.length_map, hlength]
  have hname : manifest.modules[index].name = manifest.moduleNames[index] := by
    simp [moduleNames]
  rw [List.getElem_map, hname, moduleId, hnames.idxOf_getElem, Graph.getModule,
    List.getD_eq_getElem]

theorem getModule (h : Declares manifest base scope origin graph)
    (hnames : manifest.moduleNames.Nodup) {entry : ModuleEntry}
    (hentry : entry ∈ manifest.modules) :
    ModuleAs manifest base scope graph.types graph.providers entry
      (graph.getModule (manifest.moduleId entry.name)) := by
  have hmodules := h.modules
  rw [h.modules_eq hnames] at hmodules
  exact List.forall₂_same.mp (List.forall₂_map_right_iff.mp hmodules) entry hentry

/-- The same entry in the order of another manifest. -/
theorem getModule_of_reordered (h : Declares another base scope origin other)
    (hreordered : Reordered manifest another) (hnames : manifest.moduleNames.Nodup)
    {entry : ModuleEntry} (hentry : entry ∈ manifest.modules) :
    ModuleAs another base scope other.types other.providers entry
      (other.getModule (another.moduleId entry.name)) :=
  h.getModule (hreordered.moduleNames.nodup_iff.mp hnames) (hreordered.modules.mem_iff.mp hentry)

theorem length_of_reordered (h : Declares another base scope origin other)
    (hgraph : Declares manifest base scope origin graph) (hreordered : Reordered manifest another) :
    other.modules.length = graph.modules.length := by
  rw [← h.modules.length_eq, ← hreordered.modules.length_eq, hgraph.modules.length_eq]

theorem exists_entry (h : Declares manifest base scope origin graph)
    (hnames : manifest.moduleNames.Nodup) {id : ModuleId} (hid : id < graph.modules.length) :
    ∃ entry ∈ manifest.modules, manifest.moduleId entry.name = id := by
  have hentry : id < manifest.modules.length := by rwa [h.modules.length_eq]
  refine ⟨manifest.modules[id], List.getElem_mem hentry, ?_⟩
  have hname : id < manifest.moduleNames.length := by rwa [moduleNames, List.length_map]
  have heq : manifest.modules[id].name = manifest.moduleNames[id] := by simp [moduleNames]
  rw [moduleId, heq, hnames.idxOf_getElem]

theorem providers_eq (h : Declares manifest base scope origin graph)
    (hnames : manifest.moduleNames.Nodup) :
    (manifest.modules.flatMap fun entry ↦
      (graph.getModule (manifest.moduleId entry.name)).providers) =
        List.range graph.providers.length := by
  rw [← h.owned, h.modules_eq hnames, List.flatMap_map]

end Declares

/-- New numbers for the types and modules of a graph, taken from another graph that declares the
same. -/
structure Follows (r : Renumbering) (manifest another : Manifest) (table other : TypeTable) :
    Prop where
  reordered : Reordered manifest another
  types : table.Renumbered r.types other
  twins : ∀ a b, table.Twins other a b → r.types a = b
  modules : ∀ name ∈ manifest.moduleNames,
    r.modules (manifest.moduleId name) = another.moduleId name

namespace Follows

variable {table later : TypeTable}

theorem written (h : Follows r manifest another table later) {Ls : List (Lowering TypeId)}
    {as bs : List TypeId} (hLs : ∀ L ∈ Ls, Steady Twins L)
    (has : List.Forall₂ (Written table) Ls as) (hbs : List.Forall₂ (Written later) Ls bs) :
    bs = as.map r.types :=
  eq_map_of_forall₂ has hbs fun L hL a b ha hb ↦ (h.twins a b (ha.twins hb (hLs L hL))).symm

theorem provider (h : Follows r manifest another table later) {owner number : ModuleId}
    {entry : ProviderEntry} {provider image : Provider}
    (howner : r.modules owner = number)
    (hprovider : ProviderAs scope table owner entry provider)
    (himage : ProviderAs scope later number entry image) : image = provider.rename r := by
  have hreturns : image.returns = r.types provider.returns :=
    (h.twins _ _ (hprovider.returns.twins himage.returns (scope.steady_product _ _))).symm
  have hdeferred : image.deferred = provider.deferred := by
    rw [himage.deferred, hprovider.deferred, hreturns, h.types.isPromise]
  obtain ⟨name, owner', parameters, returns, deferred⟩ := image
  rw [Provider.rename, hprovider.name, hprovider.owner, howner]
  congr 1
  · exact himage.name
  · exact himage.owner
  · exact h.written steady_of_mem_map_resolve hprovider.parameters himage.parameters

theorem module (h : Follows r manifest another table later) {providers others : List Provider}
    {entry : ModuleEntry} {decl image : ModuleDecl}
    (hincludes : ∀ name ∈ entry.includes, name ∈ manifest.moduleNames)
    (hdecl : ModuleAs manifest base scope table providers entry decl)
    (himage : ModuleAs another base scope later others entry image)
    (howned : image.providers = decl.providers.map r.providers) : image = decl.rename r := by
  have hsame : entry.includes.map another.moduleId =
      (entry.includes.map manifest.moduleId).map r.modules := by
    rw [List.map_map]
    exact List.map_congr_left fun name hname ↦ (h.modules name (hincludes name hname)).symm
  obtain ⟨ids, hids, hrequires⟩ := hdecl.requires
  obtain ⟨images, himages, hrequired⟩ := himage.requires
  obtain rfl := h.written steady_of_mem_map_resolve hids himages
  obtain ⟨name, source, owned, includes, requires⟩ := image
  rw [ModuleDecl.rename, hdecl.name, hdecl.source, hdecl.includes, hrequires,
    foldl_insertAscending]
  congr 1
  · exact himage.name
  · exact himage.source.trans (h.reordered.sourceOf _ _)
  · rw [← distinct_map r.modules.injective, ← hsame]
    exact himage.includes
  · refine hrequired.trans ?_
    rw [foldl_insertAscending]
    exact ascending_eq_of_mem_iff fun id ↦ by simp

theorem component (h : Follows r manifest another table later) {entry : ComponentEntry}
    {component image : Component} (hroot : entry.root ∈ manifest.moduleNames)
    (hcomponent : ComponentAs manifest base scope table entry component)
    (himage : ComponentAs another base scope later entry image) : image = component.rename r := by
  obtain ⟨name, source, root, resolvers⟩ := image
  rw [Component.rename, hcomponent.name, hcomponent.source, hcomponent.root, h.modules _ hroot]
  congr 1
  · exact himage.name
  · exact himage.source.trans (h.reordered.sourceOf _ _)
  · exact himage.root
  · refine eq_map_of_forall₂ hcomponent.resolvers himage.resolvers ?_
    rintro item - ⟨resolver, returns⟩ ⟨_, number⟩ ⟨rfl, hreturns⟩ ⟨rfl, hnumber⟩
    rw [Resolver.rename, h.twins returns number (hreturns.twins hnumber (scope.steady_resolve _))]

end Follows

/-- New numbers for all that a graph declares, taken from another graph that declares the same. -/
structure FollowsAll (r : Renumbering) (manifest another : Manifest) (graph other : Graph) : Prop
    extends Follows r manifest another graph.types other.types where
  providers : ∀ entry ∈ manifest.modules,
    (graph.getModule (manifest.moduleId entry.name)).providers.map r.providers =
      (other.getModule (another.moduleId entry.name)).providers
  providersLength : graph.providers.length = other.providers.length
  modulesBeyond : ∀ id, graph.modules.length ≤ id → r.modules id = id
  providersBeyond : ∀ id, graph.providers.length ≤ id → r.providers id = id

theorem Reordered.exists_followsAll (h : Reordered manifest another) (horigin : origin.Built)
    (hnames : manifest.moduleNames.Nodup) (hgraph : Declares manifest base scope origin graph)
    (hother : Declares another base scope origin other) :
    ∃ r, FollowsAll r manifest another graph other := by
  obtain ⟨types, htypes, htwins⟩ := h.exists_types horigin hgraph hother
  obtain ⟨modules, hmodules, hbeyond⟩ := h.exists_modules hnames
  rw [hgraph.modules.length_eq] at hbeyond
  have hlength : ∀ entry ∈ manifest.modules,
      (graph.getModule (manifest.moduleId entry.name)).providers.length =
        (other.getModule (another.moduleId entry.name)).providers.length := by
    intro entry hentry
    have hdecl := (hgraph.getModule hnames hentry).providers.length_eq
    have himage := (hother.getModule_of_reordered h hnames hentry).providers.length_eq
    exact hdecl.symm.trans himage
  obtain ⟨hsize, providers, hproviders, houtside⟩ := exists_perm_blocks h.modules
    (hgraph.providers_eq hnames)
    (hother.providers_eq (h.moduleNames.nodup_iff.mp hnames)) hlength
  exact ⟨⟨types, modules, providers⟩, ⟨h, htypes, htwins, hmodules⟩, hproviders, hsize, hbeyond,
    houtside⟩

namespace FollowsAll

theorem getModule (h : FollowsAll r manifest another graph other)
    (hdeclarable : Declarable manifest scope) (hgraph : Declares manifest base scope origin graph)
    (hother : Declares another base scope origin other) (id : ModuleId) :
    other.getModule (r.modules id) = (graph.getModule id).rename r := by
  have hnames := hdeclarable.names
  by_cases hid : id < graph.modules.length
  · obtain ⟨entry, hentry, rfl⟩ := hgraph.exists_entry hnames hid
    have himage := hother.getModule_of_reordered h.reordered hnames hentry
    rw [h.modules entry.name (List.mem_map_of_mem hentry)]
    exact h.module (hdeclarable.includes entry hentry) (hgraph.getModule hnames hentry) himage
      (h.providers entry hentry).symm
  · have hle := Nat.le_of_not_lt hid
    have hother : other.modules.length ≤ id := by
      rwa [hother.length_of_reordered hgraph h.reordered]
    rw [h.modulesBeyond id hle, Graph.getModule, Graph.getModule, List.getD_eq_default _ _ hle,
      List.getD_eq_default _ _ hother]
    rfl

theorem getProvider (h : FollowsAll r manifest another graph other)
    (hnames : manifest.moduleNames.Nodup) (hgraph : Declares manifest base scope origin graph)
    (hother : Declares another base scope origin other) {owner : ModuleId} {id : ProviderId}
    (hid : id ∈ (graph.getModule owner).providers) :
    other.getProvider (r.providers id) = (graph.getProvider id).rename r := by
  by_cases howner : owner < graph.modules.length
  · obtain ⟨entry, hentry, rfl⟩ := hgraph.exists_entry hnames howner
    have hproviders := (hgraph.getModule hnames hentry).getProvider
    have himages := (hother.getModule_of_reordered h.reordered hnames hentry).getProvider
    have heach := eq_map_of_forall₂ hproviders himages fun item _ provider image hprovider himage ↦
      h.provider (h.modules entry.name (List.mem_map_of_mem hentry)) hprovider himage
    rw [← h.providers entry hentry, List.map_map, List.map_map] at heach
    exact List.map_inj_left.mp heach id hid
  · rw [Graph.getModule, List.getD_eq_default _ _ (Nat.le_of_not_lt howner)] at hid
    exact absurd hid List.not_mem_nil

theorem providerName (h : FollowsAll r manifest another graph other)
    (hnames : manifest.moduleNames.Nodup) (hgraph : Declares manifest base scope origin graph)
    (hother : Declares another base scope origin other) (id : ProviderId) :
    (other.getProvider (r.providers id)).name = (graph.getProvider id).name := by
  by_cases hid : id < graph.providers.length
  · have hmem := List.mem_range.mpr hid
    rw [← hgraph.providers_eq hnames] at hmem
    obtain ⟨entry, -, howned⟩ := List.mem_flatMap.mp hmem
    rw [h.getProvider hnames hgraph hother howned]
    rfl
  · have hle := Nat.le_of_not_lt hid
    rw [h.providersBeyond id hle, Graph.getProvider, Graph.getProvider,
      List.getD_eq_default _ _ hle, List.getD_eq_default _ _ (h.providersLength ▸ hle)]

theorem renumbered (h : FollowsAll r manifest another graph other)
    (hdeclarable : Declarable manifest scope) (hgraph : Declares manifest base scope origin graph)
    (hother : Declares another base scope origin other) : graph.Renumbered r other where
  types := h.types
  size := hother.length_of_reordered hgraph h.reordered
  getModule := h.getModule hdeclarable hgraph hother
  getProvider := fun _ _ hid ↦ h.getProvider hdeclarable.names hgraph hother hid
  providerName := h.providerName hdeclarable.names hgraph hother
  components := by
    have hcomponents := hother.components
    rw [h.reordered.components] at hcomponents
    exact eq_map_of_forall₂ hgraph.components hcomponents fun entry hentry _ _ hcomponent himage ↦
      h.component (hdeclarable.roots entry hentry) hcomponent himage

end FollowsAll

theorem Starts.unique {scope' : Scope} {origin' : TypeTable} (h : Starts manifest scope origin)
    (h' : Starts manifest scope' origin') : scope' = scope ∧ origin' = origin := by
  obtain ⟨hscope, hclasses⟩ := h
  obtain ⟨hscope', hclasses'⟩ := h'
  obtain rfl := Except.ok.inj (hscope'.symm.trans hscope)
  have hsame := Except.ok.inj (hclasses'.symm.trans hclasses)
  exact ⟨rfl, congrArg (fun outcome ↦ outcome.2.types) hsame⟩

theorem Reordered.exists_renumbered (h : Reordered manifest another)
    (hgraph : manifest.graph base = .ok graph) (hother : another.graph base = .ok other) :
    ∃ r, graph.Renumbered r other := by
  obtain ⟨scope, origin, hstarts, hdeclarable, hdeclares⟩ := declared_of_graph hgraph
  obtain ⟨scope', origin', hstarts', -, hotherDeclares⟩ := declared_of_graph hother
  obtain ⟨rfl, rfl⟩ := (h.starts hstarts).unique hstarts'
  obtain ⟨r, hr⟩ :=
    h.exists_followsAll hstarts.built hdeclarable.names hdeclares hotherDeclares
  exact ⟨r, hr.renumbered hdeclarable hdeclares hotherDeclares⟩

/-- Neither whether a manifest has a graph nor what is generated for it depends on the order in
which its modules are listed. -/
theorem implementations_of_perm {modules : List ModuleEntry} (h : manifest.modules.Perm modules)
    (base : Path) :
    ((∃ graph, manifest.graph base = .ok graph) ↔
      ∃ other, { manifest with modules := modules }.graph base = .ok other) ∧
    ∀ graph other, manifest.graph base = .ok graph →
      { manifest with modules := modules }.graph base = .ok other →
      graph.implementations.mapError Error.withoutType =
        other.implementations.mapError Error.withoutType := by
  have hreordered : Reordered manifest { manifest with modules := modules } :=
    ⟨rfl, rfl, rfl, rfl, rfl, h⟩
  refine ⟨⟨hreordered.exists_graph, hreordered.symm.exists_graph⟩, ?_⟩
  intro graph other hgraph hother
  obtain ⟨r, hr⟩ := hreordered.exists_renumbered hgraph hother
  exact hr.implementations

/-- Two modules, the first of which includes the second and asks for what it provides. -/
def desk : Manifest where
  source := none
  classes := []
  enums := []
  aliases := []
  modules := [⟨"Pens", none, ["Inks"], [], [⟨"fill", ["Ink"], "Pen", false⟩]⟩,
    ⟨"Inks", none, [], [], [⟨"mix", [], "Ink", false⟩]⟩]
  components := [⟨"Desk", none, "Pens", [⟨"pen", "Pen"⟩]⟩]

set_option maxRecDepth 4000 in
theorem desk_declarable : Declarable desk .empty where
  names := by decide
  includes := by decide
  componentNames := by decide
  roots := by decide
  resolvable := by
    have hink : TypeExpr.parse "Ink" = .ok (.named "Ink" []) := by cbv
    have hpen : TypeExpr.parse "Pen" = .ok (.named "Pen" []) := by cbv
    have hlowerings : desk.lowerings .empty = [Scope.empty.resolve "Ink",
        Scope.empty.product "Pen" false, Scope.empty.product "Ink" false,
        Scope.empty.resolve "Pen"] := rfl
    rw [hlowerings]
    simp only [List.forall_mem_cons]
    refine ⟨⟨0, _, Scope.run_resolve_of_ok hink .empty⟩,
      ⟨0, _, run_product_eq_ok.mpr ⟨0, _, Scope.run_resolve_of_ok hpen .empty, rfl⟩⟩,
      ⟨0, _, run_product_eq_ok.mpr ⟨0, _, Scope.run_resolve_of_ok hink .empty, rfl⟩⟩,
      ⟨0, _, Scope.run_resolve_of_ok hpen .empty⟩, List.forall_mem_nil _⟩

theorem implementations_desk_of_swapped : ∃ graph other, desk.graph ⟨"src"⟩ = .ok graph ∧
    { desk with modules := desk.modules.reverse }.graph ⟨"src"⟩ = .ok other ∧
    graph.implementations.mapError Error.withoutType =
      other.implementations.mapError Error.withoutType := by
  have hperm : desk.modules.Perm desk.modules.reverse := (List.reverse_perm _).symm
  have hstarts : Starts desk .empty .empty := ⟨rfl, rfl⟩
  obtain ⟨hiff, hsame⟩ := implementations_of_perm hperm ⟨"src"⟩
  obtain ⟨graph, hgraph⟩ := exists_graph hstarts desk_declarable
  obtain ⟨other, hother⟩ := hiff.mp ⟨graph, hgraph⟩
  exact ⟨graph, other, hgraph, hother, hsame graph other hgraph hother⟩

end Manifest

end Wiring
