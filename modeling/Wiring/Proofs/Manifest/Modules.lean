import Wiring.Proofs.Manifest.Described

/-!
# The modules of a manifest

The names of all modules are declared before the first of them gets its content.
-/

namespace Wiring.Manifest

open TypeTable Lowering

variable {manifest : Manifest} {base : Path} {scope : Scope} {graph last : Graph}

/-- A module without content. -/
def fresh (manifest : Manifest) (base : Path) (entry : ModuleEntry) : ModuleDecl :=
  ⟨entry.name, manifest.sourceOf base entry.source, [], [], []⟩

theorem run_declareModule_eq_ok {entry : ModuleEntry} {id : ModuleId} :
    (manifest.declareModule base entry).run graph = .ok (id, last) ↔
      entry.name ∉ graph.moduleNames ∧ id = graph.modules.length ∧
        last = { graph with modules := graph.modules ++ [manifest.fresh base entry] } :=
  Graph.addModule_eq_ok_iff

theorem run_declareModules_eq_ok (hnames : graph.moduleNames.Nodup) {entries : List ModuleEntry}
    {ids : List ModuleId} :
    (entries.mapM (manifest.declareModule base)).run graph = .ok (ids, last) ↔
      (graph.moduleNames ++ entries.map ModuleEntry.name).Nodup ∧
        ids = List.range' graph.modules.length entries.length ∧
        last = { graph with
          modules := graph.modules ++ entries.map (manifest.fresh base) } := by
  induction entries generalizing graph ids with
  | nil =>
      rw [List.mapM_nil, run_pure_eq_ok]
      simp [hnames, eq_comm]
  | cons entry entries ih =>
      have hnext : Graph.moduleNames
          { graph with modules := graph.modules ++ [manifest.fresh base entry] } =
            graph.moduleNames ++ [entry.name] := List.map_append
      have hsplit : graph.moduleNames ++ [entry.name] ++ entries.map ModuleEntry.name =
          graph.moduleNames ++ (entry :: entries).map ModuleEntry.name := by
        rw [List.append_assoc, List.map_cons, List.singleton_append]
      have hnew : (graph.moduleNames ++ [entry.name]).Nodup ↔ entry.name ∉ graph.moduleNames := by
        rw [List.nodup_append_comm, List.singleton_append, List.nodup_cons, and_iff_left hnames]
      simp only [List.mapM_cons, run_bind_eq_ok, run_declareModule_eq_ok, run_pure_eq_ok]
      constructor
      · rintro ⟨_, _, ⟨hname, rfl, rfl⟩, _, _, hrest, rfl, rfl⟩
        obtain ⟨hnodup, rfl, rfl⟩ := (ih (hnext ▸ hnew.mpr hname)).mp hrest
        rw [hnext, hsplit] at hnodup
        refine ⟨hnodup, ?_, ?_⟩
        · rw [List.length_append, List.length_singleton, List.length_cons, List.range'_succ]
        · rw [List.append_assoc, List.map_cons, List.singleton_append]
      · rintro ⟨hnodup, rfl, rfl⟩
        rw [← hsplit] at hnodup
        have hfresh := (List.nodup_append.mp hnodup).1
        refine ⟨_, _, ⟨hnew.mp hfresh, rfl, rfl⟩, _, _,
          (ih (hnext ▸ hfresh)).mpr ⟨hnext ▸ hnodup, rfl, ?_⟩, ?_, rfl⟩
        · rw [List.append_assoc, List.map_cons, List.singleton_append]
        · rw [List.length_append, List.length_singleton, List.length_cons, List.range'_succ]

theorem modify_length_append {α : Type} (done : List α) (item : α) (rest : List α) (f : α → α) :
    (done ++ item :: rest).modify done.length f = done ++ f item :: rest := by
  induction done with
  | nil => rfl
  | cons first done ih =>
      rw [List.cons_append, List.length_cons, List.modify_succ_cons, ih, List.cons_append]

/-- Items that are put at the end of a list are found there by their positions. -/
theorem forall₂_range'_append {α β : Type} {R : α → β → Prop} (before : List β) {as : List α}
    {bs : List β} (h : List.Forall₂ R as bs) :
    List.Forall₂ (fun a index ↦ ∃ b, (before ++ bs)[index]? = some b ∧ R a b) as
      (List.range' before.length bs.length) := by
  induction h generalizing before with
  | nil => exact .nil
  | @cons a b as bs hab _ ih =>
      have hrest := ih (before ++ [b])
      rw [List.append_assoc, List.singleton_append, List.length_append, List.length_singleton]
        at hrest
      rw [List.length_cons, List.range'_succ]
      exact .cons ⟨b, by simp, hab⟩ hrest

theorem moduleId_eq (hnodup : manifest.moduleNames.Nodup) {before after : List String}
    {name : String} (h : manifest.moduleNames = before ++ name :: after) :
    manifest.moduleId name = before.length := by
  rw [h] at hnodup
  have hnew : name ∉ before := fun hmem ↦
    (List.nodup_append.mp hnodup).2.2 name hmem name List.mem_cons_self rfl
  rw [moduleId, h, List.idxOf_append_of_notMem hnew, List.idxOf_cons_self, Nat.add_zero]

/-- The module with the content that has been declared for it. -/
def content (manifest : Manifest) (base : Path) (entry : ModuleEntry) (requires : List TypeId)
    (providers : List ProviderId) : ModuleDecl :=
  (((manifest.fresh base entry).including (entry.includes.map manifest.moduleId)).requiring
    requires).providing providers

theorem moduleAs_content (manifest : Manifest) (base : Path) (before : List Provider)
    {entry : ModuleEntry} {table middle types : TypeTable} {ids : List TypeId}
    {providers : List Provider} (htable : table.Built)
    (hrequires : Interns table (entry.requires.map scope.resolve) ids middle)
    (hproviders :
      Provides scope (manifest.moduleId entry.name) middle entry.providers providers types) :
    ModuleAs manifest base scope types (before ++ providers) entry
      (manifest.content base entry ids (List.range' before.length providers.length)) := by
  have hmiddle := (hrequires.develops steady_of_mem_map_resolve htable).built
  have hgrows := (hproviders.develops hmiddle).grows
  have hwritten := hrequires.written steady_of_mem_map_resolve htable
  exact {
    name := rfl
    source := rfl
    includes := rfl
    requires := ⟨ids, hwritten.imp fun _ _ hid ↦ hid.grows hgrows, rfl⟩
    providers := forall₂_range'_append before (hproviders.providersAs hmiddle) }

/-- What has become of a graph when its last modules have got their contents. -/
structure Filled (manifest : Manifest) (base : Path) (scope : Scope) (graph : Graph)
    (done : List ModuleDecl) (entries : List ModuleEntry) (last : Graph) : Prop where
  components : last.components = graph.components
  includes : ∀ entry ∈ entries, ∀ name ∈ entry.includes, name ∈ manifest.moduleNames
  interns : ∃ ids, Interns graph.types (entries.flatMap (ModuleEntry.lowerings scope)) ids
    last.types
  contents : ∃ filled added, last.modules = done ++ filled ∧
    last.providers = graph.providers ++ added ∧
    List.Forall₂ (ModuleAs manifest base scope last.types last.providers) entries filled ∧
    filled.flatMap ModuleDecl.providers = List.range' graph.providers.length added.length

def fillModules (scope : Scope) (modules : List (ModuleId × ModuleEntry)) : Declaring PUnit :=
  modules.forM fun (id, entry) ↦ fillModule scope id entry

theorem filled_of_run (hnodup : manifest.moduleNames.Nodup) {entries : List ModuleEntry}
    {done : List ModuleDecl} {u : PUnit}
    (hmodules : graph.modules = done ++ entries.map (manifest.fresh base))
    (hnames : graph.moduleNames = manifest.moduleNames)
    (htypes : graph.types.Built)
    (hrun : (fillModules scope ((List.range' done.length entries.length).zip entries)).run graph =
      .ok (u, last)) : Filled manifest base scope graph done entries last := by
  induction entries generalizing graph done with
  | nil =>
      obtain rfl := run_forM_nil_eq_ok.mp hrun
      exact ⟨rfl, List.forall_mem_nil _, ⟨[], .nil _⟩, [], [], hmodules, by simp, .nil, rfl⟩
  | cons entry entries ih =>
      rw [List.length_cons, List.range'_succ, List.zip_cons_cons] at hrun
      obtain ⟨middle, hfirst, hrest⟩ := run_forM_cons_eq_ok.mp hrun
      obtain ⟨hincludes, ids, required, providers, types, hrequires, hproviders, rfl⟩ :=
        run_fillModule_eq_ok.mp hfirst
      have hrequired := hrequires.develops steady_of_mem_map_resolve htypes
      have hprovided := hproviders.develops hrequired.built
      rw [hnames] at hincludes
      have hsplit : manifest.moduleNames = done.map ModuleDecl.name ++ entry.name ::
          (entries.map (manifest.fresh base)).map ModuleDecl.name := by
        rw [← hnames, Graph.moduleNames, hmodules, List.map_append]
        rfl
      have howner : done.length = manifest.moduleId entry.name := by
        rw [moduleId_eq hnodup hsplit, List.length_map]
      have hfill : graph.modules.modify done.length (fun decl ↦
            ((decl.including (entry.includes.map graph.moduleNames.idxOf)).requiring ids).providing
              (List.range' graph.providers.length providers.length)) =
          done ++ manifest.content base entry ids
            (List.range' graph.providers.length providers.length) ::
              entries.map (manifest.fresh base) := by
        rw [hmodules, hnames, List.map_cons, modify_length_append]
        rfl
      rw [howner] at hproviders
      have hentry := moduleAs_content manifest base graph.providers htypes hrequires hproviders
      have hblock : (manifest.content base entry ids
          (List.range' graph.providers.length providers.length)).providers =
            List.range' graph.providers.length providers.length := rfl
      rw [hfill] at hrest
      generalize manifest.content base entry ids _ = decl at hentry hblock hrest
      have hnext : Graph.moduleNames ⟨types, done ++ decl :: entries.map (manifest.fresh base),
          graph.providers ++ providers, graph.components⟩ = manifest.moduleNames := by
        rw [← hnames, Graph.moduleNames, Graph.moduleNames, hmodules]
        simp [hentry.name, fresh]
      have hdone : done.length + 1 = (done ++ [decl]).length := by simp
      rw [hdone] at hrest
      obtain ⟨hcomponents, hlater, ⟨others, hinterns⟩, filled, added, hfilled, hadded, heach,
        hblocks⟩ := ih (List.append_cons done decl _) hnext hprovided.built hrest
      obtain ⟨first, hfirst⟩ := hproviders.interns
      have hlast := hinterns.develops
        (steady_of_mem_flatMap ModuleEntry.steady_of_mem_lowerings) hprovided.built
      refine ⟨hcomponents, List.forall_mem_cons.mpr ⟨hincludes, hlater⟩,
        ⟨_, (hrequires.append hfirst).append hinterns⟩, decl :: filled, providers ++ added, ?_, ?_,
        .cons (hentry.grows hlast.grows ?_) heach, ?_⟩
      · rw [hfilled, List.append_assoc, List.singleton_append]
      · rw [hadded, List.append_assoc]
      · rw [hadded]
        exact List.prefix_append _ _
      · rw [List.flatMap_cons, hblock, hblocks, List.length_append, List.length_append,
          List.range'_append_1]

theorem exists_run_fillModule (owner : ModuleId) {entry : ModuleEntry}
    (htypes : graph.types.Built) (hincludes : ∀ name ∈ entry.includes, name ∈ graph.moduleNames)
    (hresolvable : ∀ L ∈ entry.lowerings scope, Resolvable L) :
    ∃ last, (fillModule scope owner entry).run graph = .ok (⟨⟩, last) ∧ last.types.Built ∧
      last.moduleNames = graph.moduleNames := by
  obtain ⟨ids, middle, hrequires⟩ := (exists_interns_iff steady_of_mem_map_resolve htypes).mpr
    fun L hL ↦ hresolvable L (List.mem_append_left _ hL)
  have hmiddle := hrequires.develops steady_of_mem_map_resolve htypes
  obtain ⟨providers, types, hproviders⟩ := exists_provides owner hmiddle.built
    fun L hL ↦ hresolvable L (List.mem_append_right _ hL)
  refine ⟨_, run_fillModule_eq_ok.mpr
      ⟨hincludes, ids, middle, providers, types, hrequires, hproviders, rfl⟩,
    (hproviders.develops hmiddle.built).built, ?_⟩
  rw [Graph.moduleNames, Graph.moduleNames, map_modify]
  exact fun _ ↦ rfl

theorem exists_run_fillModules {modules : List (ModuleId × ModuleEntry)}
    (htypes : graph.types.Built)
    (hincludes : ∀ pair ∈ modules, ∀ name ∈ pair.2.includes, name ∈ graph.moduleNames)
    (hresolvable : ∀ pair ∈ modules, ∀ L ∈ pair.2.lowerings scope, Resolvable L) :
    ∃ last, (fillModules scope modules).run graph = .ok (⟨⟩, last) := by
  induction modules generalizing graph with
  | nil => exact ⟨graph, run_forM_nil_eq_ok.mpr rfl⟩
  | cons pair modules ih =>
      obtain ⟨hentry, hincludes⟩ := List.forall_mem_cons.mp hincludes
      obtain ⟨hlowered, hresolvable⟩ := List.forall_mem_cons.mp hresolvable
      obtain ⟨middle, hrun, hmiddle, hnames⟩ :=
        exists_run_fillModule pair.1 htypes hentry hlowered
      rw [← hnames] at hincludes
      obtain ⟨last, hrest⟩ := ih hmiddle hincludes hresolvable
      exact ⟨last, run_forM_cons_eq_ok.mpr ⟨middle, hrun, hrest⟩⟩

end Wiring.Manifest
