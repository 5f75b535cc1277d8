import Wiring.Proofs.Manifest.Modules
import Wiring.Proofs.TypeExpr.Compared

/-!
# When a manifest has a graph

A manifest has a graph exactly when the names of its modules and of its components are different,
every name of a module that it refers to is one of its own, and everything that it writes as a type
can be lowered.  The graph then declares what the manifest says.
-/

namespace Wiring.Manifest

open TypeTable Lowering

variable {manifest : Manifest} {base : Path} {scope : Scope} {graph last : Graph}

def Component.resolving (resolvers : List Resolver) (component : Component) : Component :=
  { component with resolvers := component.resolvers ++ resolvers }

theorem run_resolvers_eq_ok {entries : List ResolverEntry} {number : ComponentId} {u : PUnit} :
    (entries.forM fun resolver ↦ do
        let type ← resolveType scope resolver.returns
        modify fun graph ↦ graph.addResolver number resolver.name type :
          Declaring PUnit).run graph = .ok (u, last) ↔
      ∃ ids types,
        Interns graph.types (entries.map fun resolver ↦ scope.resolve resolver.returns) ids types ∧
        last = { graph with
          types := types
          components := graph.components.modify number
            (Component.resolving
              (List.zipWith (fun entry type ↦ ⟨entry.name, type⟩) entries ids)) } := by
  induction entries generalizing graph with
  | nil =>
      have hsame : graph.components.modify number (Component.resolving []) = graph.components := by
        have hid : Component.resolving [] = id := by
          funext component
          rw [Component.resolving, List.append_nil]
          rfl
        rw [hid, List.modify_id]
      rw [run_forM_nil_eq_ok]
      constructor
      · rintro rfl
        exact ⟨[], _, .nil _, by simp [hsame]⟩
      · rintro ⟨_, _, ⟨⟩, rfl⟩
        simp [hsame]
  | cons entry entries ih =>
      have hmodify : ∀ first rest,
          (graph.components.modify number (Component.resolving [first])).modify number
            (Component.resolving rest) =
          graph.components.modify number (Component.resolving (first :: rest)) := by
        intro first rest
        rw [List.modify_modify_eq]
        congr 1
        funext component
        simp [Component.resolving]
      simp only [run_forM_cons_eq_ok, run_bind_eq_ok, run_resolveType_eq_ok, run_modify_eq_ok, ih,
        List.map_cons]
      constructor
      · rintro ⟨_, ⟨type, _, ⟨later, head, rfl⟩, rfl⟩, ids, types, tail, rfl⟩
        refine ⟨type :: ids, types, .cons head tail, ?_⟩
        rw [List.zipWith_cons_cons, ← hmodify]
        rfl
      · rintro ⟨_, types, @⟨⟩ | ⟨head, tail⟩, rfl⟩
        refine ⟨_, ⟨_, _, ⟨_, head, rfl⟩, rfl⟩, _, types, tail, ?_⟩
        rw [List.zipWith_cons_cons, ← hmodify]
        rfl

theorem run_addComponent_eq_ok {name : String} {source : Path} {root : ModuleId}
    {number : ComponentId} :
    StateT.run (fun graph ↦ graph.addComponent name source root : Declaring ComponentId) graph =
        .ok (number, last) ↔
      name ∉ graph.components.map Component.name ∧ number = graph.components.length ∧
        last = { graph with components := graph.components ++ [⟨name, source, root, []⟩] } :=
  Graph.addComponent_eq_ok_iff

theorem run_declareComponent_eq_ok {entry : ComponentEntry} {u : PUnit} :
    (manifest.declareComponent scope base entry).run graph = .ok (u, last) ↔
      entry.root ∈ graph.moduleNames ∧ entry.name ∉ graph.components.map Component.name ∧
      ∃ ids types, Interns graph.types (entry.lowerings scope) ids types ∧
        last = { graph with
          types := types
          components := graph.components ++
            [⟨entry.name, manifest.sourceOf base entry.source, graph.moduleNames.idxOf entry.root,
              List.zipWith (fun entry type ↦ ⟨entry.name, type⟩) entry.resolvers ids⟩] } := by
  have hmodify : ∀ (component : Component) (resolvers : List Resolver),
      (graph.components ++ [component]).modify graph.components.length
        (Component.resolving resolvers) =
      graph.components ++ [{ component with resolvers := component.resolvers ++ resolvers }] :=
    fun component resolvers ↦ modify_length_append graph.components component [] _
  simp only [declareComponent, run_bind_eq_ok, run_lookupModule_eq_ok, run_addComponent_eq_ok,
    run_resolvers_eq_ok]
  constructor
  · rintro ⟨_, _, ⟨hroot, rfl, rfl⟩, _, _, ⟨hname, rfl, rfl⟩, ids, types, hinterns, rfl⟩
    exact ⟨hroot, hname, ids, types, hinterns, by rw [hmodify]; rfl⟩
  · rintro ⟨hroot, hname, ids, types, hinterns, rfl⟩
    exact ⟨_, _, ⟨hroot, rfl, rfl⟩, _, _, ⟨hname, rfl, rfl⟩, ids, types, hinterns,
      by rw [hmodify]; rfl⟩

/-- What has become of a graph when components have been added to it. -/
structure Composed (manifest : Manifest) (base : Path) (scope : Scope) (graph : Graph)
    (entries : List ComponentEntry) (last : Graph) : Prop where
  modules : last.modules = graph.modules
  providers : last.providers = graph.providers
  names : (graph.components.map Component.name ++ entries.map ComponentEntry.name).Nodup
  roots : ∀ entry ∈ entries, entry.root ∈ manifest.moduleNames
  interns : ∃ ids, Interns graph.types (entries.flatMap (ComponentEntry.lowerings scope)) ids
    last.types
  contents : ∃ added, last.components = graph.components ++ added ∧
    List.Forall₂ (ComponentAs manifest base scope last.types) entries added

theorem componentAs_declared (manifest : Manifest) (base : Path) {entry : ComponentEntry}
    {table types : TypeTable} {ids : List TypeId} (htable : table.Built)
    (hinterns : Interns table (entry.lowerings scope) ids types) :
    ComponentAs manifest base scope types entry
      ⟨entry.name, manifest.sourceOf base entry.source, manifest.moduleId entry.root,
        List.zipWith (fun entry type ↦ ⟨entry.name, type⟩) entry.resolvers ids⟩ where
  name := rfl
  source := rfl
  root := rfl
  resolvers := by
    have hwritten := hinterns.written entry.steady_of_mem_lowerings htable
    rw [ComponentEntry.lowerings, List.forall₂_map_left_iff] at hwritten
    clear hinterns
    generalize entry.resolvers = resolvers at hwritten ⊢
    induction hwritten with
    | nil => exact .nil
    | cons hfirst _ ih => exact .cons ⟨rfl, hfirst⟩ ih

theorem composed_of_run {entries : List ComponentEntry} {u : PUnit}
    (hnames : graph.moduleNames = manifest.moduleNames) (htypes : graph.types.Built)
    (hnodup : (graph.components.map Component.name).Nodup)
    (hrun : (entries.forM (manifest.declareComponent scope base)).run graph = .ok (u, last)) :
    Composed manifest base scope graph entries last := by
  induction entries generalizing graph with
  | nil =>
      obtain rfl := run_forM_nil_eq_ok.mp hrun
      exact ⟨rfl, rfl, by simpa using hnodup, List.forall_mem_nil _, ⟨[], .nil _⟩, [],
        (List.append_nil _).symm, .nil⟩
  | cons entry entries ih =>
      obtain ⟨middle, hfirst, hrest⟩ := run_forM_cons_eq_ok.mp hrun
      obtain ⟨hroot, hname, ids, types, hinterns, rfl⟩ := run_declareComponent_eq_ok.mp hfirst
      have hdevelops := hinterns.develops entry.steady_of_mem_lowerings htypes
      have hentry := componentAs_declared manifest base htypes hinterns
      rw [hnames] at hroot hrest
      rw [moduleId] at hentry
      generalize (⟨entry.name, _, _, _⟩ : Component) = component at hentry hrest
      have hnext : ((graph.components ++ [component]).map Component.name).Nodup := by
        rw [List.map_append, List.map_singleton, hentry.name, List.nodup_append_comm,
          List.singleton_append, List.nodup_cons]
        exact ⟨hname, hnodup⟩
      have hkept : Graph.moduleNames ⟨types, graph.modules, graph.providers,
          graph.components ++ [component]⟩ = manifest.moduleNames := hnames
      obtain ⟨hmodules, hproviders, hnames, hroots, ⟨others, hlater⟩, added, hadded, heach⟩ :=
        ih hkept hdevelops.built hnext hrest
      have hlast := hlater.develops (steady_of_mem_flatMap ComponentEntry.steady_of_mem_lowerings)
        hdevelops.built
      refine ⟨hmodules, hproviders, ?_, List.forall_mem_cons.mpr ⟨hroot, hroots⟩,
        ⟨_, hinterns.append hlater⟩, component :: added, ?_, .cons (hentry.grows hlast.grows) heach⟩
      · rw [List.map_append, List.map_singleton, hentry.name, List.append_assoc,
          List.singleton_append] at hnames
        exact hnames
      · rw [hadded, List.append_assoc, List.singleton_append]

theorem exists_run_components {entries : List ComponentEntry} (htypes : graph.types.Built)
    (hnames : (graph.components.map Component.name ++ entries.map ComponentEntry.name).Nodup)
    (hroots : ∀ entry ∈ entries, entry.root ∈ graph.moduleNames)
    (hresolvable : ∀ L ∈ entries.flatMap (ComponentEntry.lowerings scope), Resolvable L) :
    ∃ last, (entries.forM (manifest.declareComponent scope base)).run graph = .ok (⟨⟩, last) := by
  induction entries generalizing graph with
  | nil => exact ⟨graph, run_forM_nil_eq_ok.mpr rfl⟩
  | cons entry entries ih =>
      obtain ⟨hroot, hroots⟩ := List.forall_mem_cons.mp hroots
      rw [List.flatMap_cons] at hresolvable
      obtain ⟨ids, types, hinterns⟩ :=
        (exists_interns_iff entry.steady_of_mem_lowerings htypes).mpr
          fun L hL ↦ hresolvable L (List.mem_append_left _ hL)
      have hdevelops := hinterns.develops entry.steady_of_mem_lowerings htypes
      have hname : entry.name ∉ graph.components.map Component.name := fun hmem ↦
        (List.nodup_append.mp hnames).2.2 _ hmem _ List.mem_cons_self rfl
      let component : Component := ⟨entry.name, manifest.sourceOf base entry.source,
        graph.moduleNames.idxOf entry.root,
        List.zipWith (fun entry type ↦ ⟨entry.name, type⟩) entry.resolvers ids⟩
      have hnext : ((graph.components ++ [component]).map Component.name ++
          entries.map ComponentEntry.name).Nodup := by
        rw [List.map_append, List.append_assoc]
        exact hnames
      have hkept : ∀ entry ∈ entries, entry.root ∈ Graph.moduleNames
          ⟨types, graph.modules, graph.providers, graph.components ++ [component]⟩ := hroots
      obtain ⟨last, hrest⟩ := ih hdevelops.built hnext hkept
        fun L hL ↦ hresolvable L (List.mem_append_right _ hL)
      exact ⟨last, run_forM_cons_eq_ok.mpr ⟨_, run_declareComponent_eq_ok.mpr
        ⟨hroot, hname, ids, types, hinterns, rfl⟩, hrest⟩⟩

/-- The table of types that the classes of a manifest leave, before any module is declared. -/
def Starts (manifest : Manifest) (scope : Scope) (origin : TypeTable) : Prop :=
  manifest.scope = .ok scope ∧ (defineClasses scope [] manifest.classes).run .empty =
    .ok ((), { Graph.empty with types := origin })

theorem run_defineClass_eq_ok {entry : ClassEntry} {u : Unit}
    (hrun : (defineClass scope entry).run graph = .ok (u, last)) (htypes : graph.types.Built) :
    last = { graph with types := last.types } ∧ last.types.Built := by
  obtain ⟨exprs, -, hlowered⟩ := bind_eq_ok.mp hrun
  cases houtcome : (scope.lowerFields exprs).run graph.types with
  | mk result types =>
      rw [houtcome] at hlowered
      cases result with
      | error error => cases hlowered
      | ok fields =>
          cases hlowered
          obtain ⟨hbuilt, hpresent⟩ := Scope.present_of_lowerFields htypes houtcome
          exact ⟨rfl, hbuilt.defineClass entry.name fields hpresent⟩

theorem run_defineClasses_eq_ok {defined : List String} {entries : List ClassEntry} {u : Unit}
    (hrun : (defineClasses scope defined entries).run graph = .ok (u, last))
    (htypes : graph.types.Built) :
    last = { graph with types := last.types } ∧ last.types.Built := by
  induction entries generalizing graph defined with
  | nil =>
      obtain ⟨-, rfl⟩ := run_pure_eq_ok.mp hrun
      exact ⟨rfl, htypes⟩
  | cons entry entries ih =>
      rw [defineClasses] at hrun
      split_ifs at hrun
      · obtain ⟨_, _, hthrown, -⟩ := run_bind_eq_ok.mp hrun
        cases hthrown
      · obtain ⟨_, middle, hfirst, hrest⟩ := run_bind_eq_ok.mp hrun
        obtain ⟨hmiddle, hbuilt⟩ := run_defineClass_eq_ok hfirst htypes
        obtain ⟨hlast, hfinal⟩ := ih hrest hbuilt
        refine ⟨?_, hfinal⟩
        rw [hlast, hmiddle]

theorem Starts.built {origin : TypeTable} (h : Starts manifest scope origin) : origin.Built :=
  (run_defineClasses_eq_ok h.2 .empty).2

/-! ## The whole manifest -/

/-- What is lowered for the modules and the components of a manifest, in order. -/
def lowerings (manifest : Manifest) (scope : Scope) : List (Lowering TypeId) :=
  manifest.modules.flatMap (ModuleEntry.lowerings scope) ++
    manifest.components.flatMap (ComponentEntry.lowerings scope)

structure Declarable (manifest : Manifest) (scope : Scope) : Prop where
  names : manifest.moduleNames.Nodup
  includes : ∀ entry ∈ manifest.modules, ∀ name ∈ entry.includes, name ∈ manifest.moduleNames
  componentNames : (manifest.components.map ComponentEntry.name).Nodup
  roots : ∀ entry ∈ manifest.components, entry.root ∈ manifest.moduleNames
  resolvable : ∀ L ∈ manifest.lowerings scope, Resolvable L

/-- The graph declares what the manifest says, its types being interned into the table that the
classes have left. -/
structure Declares (manifest : Manifest) (base : Path) (scope : Scope) (origin : TypeTable)
    (graph : Graph) : Prop where
  interns : ∃ ids, Interns origin (manifest.lowerings scope) ids graph.types
  modules : List.Forall₂ (ModuleAs manifest base scope graph.types graph.providers)
    manifest.modules graph.modules
  owned : graph.modules.flatMap ModuleDecl.providers = List.range graph.providers.length
  components : List.Forall₂ (ComponentAs manifest base scope graph.types) manifest.components
    graph.components

theorem steady_of_mem_lowerings : ∀ L ∈ manifest.lowerings scope, Steady Twins L := by
  intro L hL
  rcases List.mem_append.mp hL with hmodule | hcomponent
  · exact steady_of_mem_flatMap ModuleEntry.steady_of_mem_lowerings L hmodule
  · exact steady_of_mem_flatMap ComponentEntry.steady_of_mem_lowerings L hcomponent

namespace Declares

variable {origin : TypeTable}

theorem develops (h : Declares manifest base scope origin graph) (horigin : origin.Built) :
    origin.Develops graph.types := by
  obtain ⟨ids, hinterns⟩ := h.interns
  exact hinterns.develops steady_of_mem_lowerings horigin

theorem exists_written (h : Declares manifest base scope origin graph) (horigin : origin.Built)
    {L : Lowering TypeId} (hL : L ∈ manifest.lowerings scope) : ∃ id, Written graph.types L id := by
  obtain ⟨ids, hinterns⟩ := h.interns
  obtain ⟨id, -, hid⟩ := exists_of_mem_forall₂ (hinterns.written steady_of_mem_lowerings horigin) hL
  exact ⟨id, hid⟩

end Declares

theorem run_lift_eq_ok {α : Type} {x : Except Error α} {a : α} :
    (liftM x : Declaring α).run graph = .ok (a, last) ↔ x = .ok a ∧ last = graph := by
  cases x with
  | error error =>
      constructor
      · intro h
        cases h
      · rintro ⟨h, -⟩
        cases h
  | ok found =>
      constructor
      · intro h
        cases h
        exact ⟨rfl, rfl⟩
      · rintro ⟨h, rfl⟩
        cases h
        rfl

theorem graph_eq_ok : manifest.graph base = .ok graph ↔
    ∃ u, (manifest.declare base).run .empty = .ok (u, graph) := by
  refine bind_eq_ok.trans ?_
  constructor
  · rintro ⟨⟨u, last⟩, hrun, hlast⟩
    cases hlast
    exact ⟨u, hrun⟩
  · rintro ⟨u, hrun⟩
    exact ⟨_, hrun, rfl⟩

/-- The graph whose modules have their names and no content yet. -/
def outset (manifest : Manifest) (base : Path) (origin : TypeTable) : Graph :=
  { Graph.empty with types := origin, modules := manifest.modules.map (manifest.fresh base) }

theorem run_declare_eq_ok {u : Unit} : (manifest.declare base).run .empty = .ok (u, graph) ↔
    ∃ scope origin middle, Starts manifest scope origin ∧ manifest.moduleNames.Nodup ∧
      (fillModules scope ((List.range' 0 manifest.modules.length).zip manifest.modules)).run
        (manifest.outset base origin) = .ok (u, middle) ∧
      (manifest.components.forM (manifest.declareComponent scope base)).run middle =
        .ok (u, graph) := by
  have hnone : ∀ types, (Graph.moduleNames { Graph.empty with types := types }).Nodup :=
    fun _ ↦ List.nodup_nil
  simp only [declare, run_bind_eq_ok, run_lift_eq_ok]
  constructor
  · rintro ⟨scope, _, ⟨hscope, rfl⟩, ⟨⟩, start, hclasses, ids, _, hnames, ⟨⟩, middle, hmodules,
      hcomponents⟩
    obtain ⟨hstart, -⟩ := run_defineClasses_eq_ok hclasses .empty
    rw [hstart] at hclasses hnames
    obtain ⟨hnodup, rfl, rfl⟩ := (run_declareModules_eq_ok (hnone _)).mp hnames
    exact ⟨scope, start.types, middle, ⟨hscope, hclasses⟩, hnodup, hmodules, hcomponents⟩
  · rintro ⟨scope, origin, middle, ⟨hscope, hclasses⟩, hnodup, hmodules, hcomponents⟩
    exact ⟨scope, _, ⟨hscope, rfl⟩, _, _, hclasses, _, _,
      (run_declareModules_eq_ok (hnone _)).mpr ⟨hnodup, rfl, rfl⟩, _, _, hmodules, hcomponents⟩

theorem moduleNames_outset (manifest : Manifest) (base : Path) (origin : TypeTable) :
    (manifest.outset base origin).moduleNames = manifest.moduleNames := by
  rw [Graph.moduleNames, moduleNames, outset, List.map_map]
  rfl

theorem moduleNames_eq {types : TypeTable} {providers : List Provider}
    (h : List.Forall₂ (ModuleAs manifest base scope types providers) manifest.modules
      graph.modules) : graph.moduleNames = manifest.moduleNames :=
  map_eq_map_iff_forall₂.mpr (h.flip.imp fun _ _ hentry ↦ hentry.name)

theorem declared_of_graph (h : manifest.graph base = .ok graph) :
    ∃ scope origin, Starts manifest scope origin ∧ Declarable manifest scope ∧
      Declares manifest base scope origin graph := by
  obtain ⟨⟨⟩, hrun⟩ := graph_eq_ok.mp h
  obtain ⟨scope, origin, middle, hstarts, hnodup, hmodules, hcomponents⟩ :=
    run_declare_eq_ok.mp hrun
  obtain ⟨hnone, hincludes, ⟨ids, hinterns⟩, filled, added, hfilled, hadded, heach, hblocks⟩ :=
    filled_of_run hnodup (List.nil_append _).symm (moduleNames_outset ..) hstarts.built hmodules
  obtain rfl : middle.modules = filled := hfilled
  obtain rfl : middle.providers = added := hadded
  have hmiddle := hinterns.develops (steady_of_mem_flatMap ModuleEntry.steady_of_mem_lowerings)
    hstarts.built
  have hnames := moduleNames_eq heach
  have hfresh : (middle.components.map Component.name).Nodup := by
    rw [hnone]
    exact List.nodup_nil
  obtain ⟨hsame, hkept, hcomposed, hroots, ⟨others, hlater⟩, declared, hdeclared, hlast⟩ :=
    composed_of_run hnames hmiddle.built hfresh hcomponents
  have hgrows := (hlater.develops (steady_of_mem_flatMap ComponentEntry.steady_of_mem_lowerings)
    hmiddle.built).grows
  rw [hnone] at hcomposed hdeclared
  obtain rfl : graph.components = declared := hdeclared
  have hall : Interns origin (manifest.lowerings scope) (ids ++ others) graph.types :=
    hinterns.append hlater
  refine ⟨scope, origin, hstarts, ⟨hnodup, hincludes, hcomposed, hroots, ?_⟩, ⟨_, hall⟩, ?_, ?_,
    hlast⟩
  · exact (exists_interns_iff steady_of_mem_lowerings hstarts.built).mp ⟨_, _, hall⟩
  · rw [hsame, hkept]
    exact heach.imp fun _ _ hentry ↦ hentry.grows hgrows (List.prefix_refl _)
  · rw [hsame, hkept, hblocks, List.range_eq_range']
    rfl

theorem exists_graph {origin : TypeTable} (hstarts : Starts manifest scope origin)
    (hdeclarable : Declarable manifest scope) : ∃ graph, manifest.graph base = .ok graph := by
  have hresolvable : ∀ pair ∈ (List.range' 0 manifest.modules.length).zip manifest.modules,
      ∀ L ∈ pair.2.lowerings scope, Resolvable L := fun pair hpair L hL ↦
    hdeclarable.resolvable L (List.mem_append_left _
      (List.mem_flatMap.mpr ⟨pair.2, (List.of_mem_zip hpair).2, hL⟩))
  have hincludes : ∀ pair ∈ (List.range' 0 manifest.modules.length).zip manifest.modules,
      ∀ name ∈ pair.2.includes, name ∈ (manifest.outset base origin).moduleNames := by
    intro pair hpair
    rw [moduleNames_outset]
    exact hdeclarable.includes pair.2 (List.of_mem_zip hpair).2
  have hbuilt : (manifest.outset base origin).types.Built := hstarts.built
  obtain ⟨middle, hmodules⟩ := exists_run_fillModules hbuilt hincludes hresolvable
  obtain ⟨hnone, -, ⟨ids, hinterns⟩, filled, added, hfilled, hadded, heach, -⟩ :=
    filled_of_run hdeclarable.names (List.nil_append _).symm (moduleNames_outset ..) hbuilt hmodules
  obtain rfl : middle.modules = filled := hfilled
  have hmiddle := hinterns.develops (steady_of_mem_flatMap ModuleEntry.steady_of_mem_lowerings)
    hbuilt
  obtain ⟨graph, hcomponents⟩ : ∃ graph,
      (manifest.components.forM (manifest.declareComponent scope base)).run middle =
        .ok (⟨⟩, graph) := by
    refine exists_run_components hmiddle.built ?_ ?_ fun L hL ↦
      hdeclarable.resolvable L (List.mem_append_right _ hL)
    · rw [hnone]
      exact hdeclarable.componentNames
    · rw [moduleNames_eq heach]
      exact hdeclarable.roots
  exact ⟨graph, graph_eq_ok.mpr ⟨⟨⟩, run_declare_eq_ok.mpr
    ⟨scope, origin, middle, hstarts, hdeclarable.names, hmodules, hcomponents⟩⟩⟩

/-- A manifest has a graph when its classes can be defined and nothing that follows is at fault. -/
theorem exists_graph_iff : (∃ graph, manifest.graph base = .ok graph) ↔
    ∃ scope origin, Starts manifest scope origin ∧ Declarable manifest scope := by
  constructor
  · rintro ⟨graph, h⟩
    obtain ⟨scope, origin, hstarts, hdeclarable, -⟩ := declared_of_graph h
    exact ⟨scope, origin, hstarts, hdeclarable⟩
  · rintro ⟨scope, origin, hstarts, hdeclarable⟩
    exact exists_graph hstarts hdeclarable

end Wiring.Manifest
