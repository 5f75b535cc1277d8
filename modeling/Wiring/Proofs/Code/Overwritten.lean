import Wiring.Proofs.Code.Received
import Wiring.Proofs.Files.Written
import Wiring.Proofs.Manifest.Declared

/-!
# Files that overwrite each other

Components share a file when their sources are the same path.  Sources that are different paths of
one place are told apart, so their components get different files at one place, and the file that is
written last replaces the other.  That cannot happen to sources that are written plainly.
-/

namespace Wiring

open Code

namespace Graph

variable {graph : Graph} {files : List File} {ids : List ComponentId}

/-- No two files denote the same place. -/
def LexicallyApart (files : List File) : Prop :=
  files.Pairwise fun a b ↦ a.path.lexical ≠ b.path.lexical

theorem exists_outputPath {path : Path} {id : ComponentId} (h : graph.goesInto path id = true) :
    ∃ own, outputPath (graph.getComponent id).source = .ok own ∧ path.same own = true := by
  cases hown : outputPath (graph.getComponent id).source with
  | ok own => exact ⟨own, rfl, goesInto_eq hown path ▸ h⟩
  | error problem => simp [goesInto, hown] at h

/-- Components share a file exactly if their sources are the same path. -/
theorem Houses.shared_iff (h : graph.Houses ids files) {id other : ComponentId} (hid : id ∈ ids)
    (hother : other ∈ ids) :
    (∃ file ∈ files, graph.goesInto file.path id = true ∧ graph.goesInto file.path other = true) ↔
      (graph.getComponent id).source.same (graph.getComponent other).source = true := by
  obtain ⟨file, hfile, hgoes⟩ := h.placed id hid
  obtain ⟨file', hfile', hgoes'⟩ := h.placed other hother
  obtain ⟨own, hown, hsame⟩ := exists_outputPath hgoes
  obtain ⟨own', hown', hsame'⟩ := exists_outputPath hgoes'
  rw [← Path.same_outputPath_iff hown hown']
  constructor
  · rintro ⟨shared, -, hleft, hright⟩
    rw [goesInto_eq hown] at hleft
    rw [goesInto_eq hown'] at hright
    exact Path.same_trans ((Path.same_comm own shared.path).trans hleft) hright
  · intro hsources
    refine ⟨file, hfile, hgoes, ?_⟩
    rw [goesInto_eq hown']
    exact Path.same_trans hsame hsources

/-- A relation between files that their sources decide holds of all files exactly if it holds of all
components whose sources are different paths. -/
theorem Houses.pairwise_iff {α : Type} (h : graph.Houses ids files) {place : Path → α}
    (hplace : ∀ a b p q, outputPath a = .ok p → outputPath b = .ok q →
      (place p = place q ↔ place a = place b))
    (hsame : ∀ a b : Path, a.same b = true → place a = place b) :
    files.Pairwise (fun a b ↦ place a.path ≠ place b.path) ↔
      ∀ id ∈ ids, ∀ other ∈ ids,
        place (graph.getComponent id).source = place (graph.getComponent other).source →
        (graph.getComponent id).source.same (graph.getComponent other).source = true := by
  constructor
  · intro hpairwise id hid other hother hsources
    obtain ⟨file, hfile, hgoes⟩ := h.placed id hid
    obtain ⟨file', hfile', hgoes'⟩ := h.placed other hother
    obtain ⟨own, hown, hsameOwn⟩ := exists_outputPath hgoes
    obtain ⟨own', hown', hsameOwn'⟩ := exists_outputPath hgoes'
    have hpaths : place file.path = place file'.path := by
      rw [hsame _ _ hsameOwn, hsame _ _ hsameOwn', hplace _ _ _ _ hown hown', hsources]
    have hsymm : Std.Symm fun a b : File ↦ place a.path ≠ place b.path :=
      ⟨fun _ _ hab ↦ hab.symm⟩
    have hone : file = file' := by
      by_contra hne
      exact hpairwise.forall hfile hfile' hne hpaths
    subst hone
    rw [← Path.same_outputPath_iff hown hown']
    exact Path.same_trans ((Path.same_comm own file.path).trans hsameOwn) hsameOwn'
  · intro hsources
    refine h.apart.imp_of_mem fun {a b} ha hb hab hpaths ↦ ?_
    obtain ⟨id, hid, hown⟩ := h.named a ha
    obtain ⟨other, hother, hown'⟩ := h.named b hb
    have hboth := hsources id hid other hother ((hplace _ _ _ _ hown hown').mp hpaths)
    rw [← Path.same_outputPath_iff hown hown', hab] at hboth
    exact Bool.noConfusion hboth

end Graph

namespace Manifest

variable {manifest : Manifest} {base : Path} {graph : Graph} {files : List File}

/-- The sources of the components as the manifest writes them. -/
def componentSources (manifest : Manifest) : List Path :=
  manifest.components.map fun entry ↦ entry.source.getD (manifest.source.getD defaultSource)

/-- What holds of the sources of the components of the graph. -/
theorem forall_source_iff (hgraph : manifest.graph base = .ok graph) {P : Path → Prop} :
    (∀ id ∈ graph.componentIds, P (graph.getComponent id).source) ↔
      ∀ written ∈ manifest.componentSources, P (base.join written) := by
  obtain ⟨scope, origin, -, -, hdeclares⟩ := declared_of_graph hgraph
  have hsources : graph.components.map Component.source =
      manifest.componentSources.map base.join := by
    rw [componentSources, List.map_map]
    exact map_eq_map_iff_forall₂.mpr (hdeclares.components.flip.imp fun _ _ hentry ↦ hentry.source)
  have hcomponents : (∀ id ∈ graph.componentIds, P (graph.getComponent id).source) ↔
      ∀ source ∈ graph.components.map Component.source, P source := by
    constructor
    · intro h source hsource
      obtain ⟨component, hcomponent, rfl⟩ := List.mem_map.mp hsource
      obtain ⟨id, hid, rfl⟩ := List.mem_iff_getElem.mp hcomponent
      have hown := h id (List.mem_range.mpr hid)
      rwa [Graph.getComponent, List.getD_eq_getElem _ _ hid] at hown
    · intro h id hid
      rw [Graph.getComponent, List.getD_eq_getElem _ _ (List.mem_range.mp hid)]
      exact h _ (List.mem_map_of_mem (List.getElem_mem _))
  rw [hcomponents, hsources, List.forall_mem_map]

/-- Sources from which the place of a file can be read off: they do not go upwards, a dot in front
of them is not the front of the whole path, and they are not absolute if the base goes back on
itself. -/
structure PlainlySourced (manifest : Manifest) (base : Path) : Prop where
  downwards : ∀ source ∈ manifest.componentSources, .up ∉ source.segments
  dotless : base.text = "" → ∀ source ∈ manifest.componentSources, .here ∉ source.segments
  below : base.isAbsolute = true → .up ∈ base.segments →
    ∀ source ∈ manifest.componentSources, source.isAbsolute = false

namespace PlainlySourced

variable {source other : Path}

theorem same_of_lexical_eq (h : manifest.PlainlySourced base)
    (hsource : source ∈ manifest.componentSources) (hother : other ∈ manifest.componentSources)
    (heq : (base.join source).lexical = (base.join other).lexical) :
    (base.join source).same (base.join other) = true :=
  Path.same_of_lexical_join_eq (h.downwards source hsource) (h.downwards other hother)
    (fun hbase ↦ ⟨h.dotless hbase source hsource, h.dotless hbase other hother⟩)
    (fun hbase hup ↦ ⟨h.below hbase hup source hsource, h.below hbase hup other hother⟩) heq

theorem same_of_place_eq (h : manifest.PlainlySourced base)
    (hrelative : ∀ source ∈ manifest.componentSources, source.isAbsolute = false)
    (hsource : source ∈ manifest.componentSources) (hother : other ∈ manifest.componentSources)
    {working : Location}
    (heq : (base.join source).place working = (base.join other).place working) :
    (base.join source).same (base.join other) = true := by
  have htrail := Path.trail_eq_of_place_join_eq (hrelative source hsource) (hrelative other hother)
    (h.downwards source hsource) (h.downwards other hother) heq
  exact Path.same_join_of_trail_eq (hrelative source hsource) (hrelative other hother)
    (fun hbase ↦ ⟨h.dotless hbase source hsource, h.dotless hbase other hother⟩) htrail

end PlainlySourced

/-- Whether files have different places is decided by the sources that the manifest writes. -/
theorem pairwise_iff {α : Type} (hgraph : manifest.graph base = .ok graph)
    (hfiles : graph.implementations = .ok files) {place : Path → α}
    (hplace : ∀ a b p q, outputPath a = .ok p → outputPath b = .ok q →
      (place p = place q ↔ place a = place b))
    (hsame : ∀ a b : Path, a.same b = true → place a = place b) :
    files.Pairwise (fun a b ↦ place a.path ≠ place b.path) ↔
      ∀ source ∈ manifest.componentSources, ∀ other ∈ manifest.componentSources,
        place (base.join source) = place (base.join other) →
        (base.join source).same (base.join other) = true := by
  rw [(Graph.houses_of_implementations hfiles).1.pairwise_iff hplace hsame]
  refine (forall_source_iff hgraph (P := fun source ↦ ∀ other ∈ graph.componentIds,
    place source = place (graph.getComponent other).source →
      source.same (graph.getComponent other).source = true)).trans ?_
  exact forall₂_congr fun source _ ↦ forall_source_iff hgraph
    (P := fun other ↦ place (base.join source) = place other →
      (base.join source).same other = true)

theorem emitAll_of_generate {σ : Type} {emit : Emitter (StateM σ)} {before after : σ}
    {report : Report} (hfiles : graph.implementations = .ok files)
    (h : (graph.generate emit).run.run before = (.ok report, after)) :
    (emitAll emit files).run.run before = (.ok (), after) := by
  rw [run_generate_of_ok hfiles] at h
  rcases hall : (emitAll emit files).run.run before with ⟨⟨problem⟩ | ⟨⟨⟩⟩, last⟩
  · rw [hall] at h
    cases h
  · rw [hall] at h
    cases h
    rfl

/-- In a run that succeeds, components share a file exactly if their sources are the same path.  The
files denote different places exactly if sources that denote the same place are the same path, as
they are when they are written plainly.  On every machine, files that denote the same place read as
the last of them, and relative sources that are written plainly lose no text. -/
theorem files_apart_iff (hgraph : manifest.graph base = .ok graph)
    (hfiles : graph.implementations = .ok files) :
    (∀ id ∈ graph.componentIds, ∀ other ∈ graph.componentIds,
      (∃ file ∈ files, graph.goesInto file.path id = true ∧ graph.goesInto file.path other = true) ↔
        (graph.getComponent id).source.same (graph.getComponent other).source = true) ∧
    (Graph.LexicallyApart files ↔
      ∀ source ∈ manifest.componentSources, ∀ other ∈ manifest.componentSources,
        (base.join source).lexical = (base.join other).lexical →
        (base.join source).same (base.join other) = true) ∧
    (manifest.PlainlySourced base → Graph.LexicallyApart files) ∧
    ∀ before after report,
      (graph.generate emitToFiles : Emission (StateM Machine) Report).run.run before =
        (.ok report, after) →
      (∀ file ∈ files, ∀ other ∈ files, file.path.lexical = other.path.lexical →
        after.read? file.path = after.read? other.path) ∧
      (manifest.PlainlySourced base →
        (∀ source ∈ manifest.componentSources, source.isAbsolute = false) →
        ∀ file ∈ files, after.read? file.path = some file.text) := by
  have hhouses := (Graph.houses_of_implementations hfiles).1
  have hapart : Graph.LexicallyApart files ↔ _ := pairwise_iff hgraph hfiles
    (fun _ _ _ _ ↦ Path.lexical_outputPath_iff) fun _ _ ↦ Path.lexical_eq_of_same
  refine ⟨fun id hid other hother ↦ hhouses.shared_iff hid hother, hapart, ?_, ?_⟩
  · intro hplain
    refine hapart.mpr fun source hsource other hother h ↦ ?_
    exact hplain.same_of_lexical_eq hsource hother h
  · intro before after report hrun
    have hwrote := wroteAll_of_emitAll (emitAll_of_generate hfiles hrun)
    refine ⟨fun file hfile other hother h ↦ ?_, fun hplain hrelative file hfile ↦ ?_⟩
    · rw [hwrote.read? hfile, hwrote.read? hother, Path.place_eq_of_lexical_eq h]
    · have hplaces := (pairwise_iff hgraph hfiles
        (fun _ _ _ _ hown hothers ↦ Path.place_outputPath_iff hown hothers before.working)
        fun _ _ hsame ↦ Path.place_eq_of_same hsame before.working).mpr
          fun source hsource other hother h ↦
            hplain.same_of_place_eq hrelative hsource hother h
      rw [hwrote.read? hfile, filesAt_of_pairwise hplaces hfile]
      rfl

/-! ## Two spellings of one source -/

/-- Two components with sources of their own. -/
def siteAndFeed (site feed : Path) : Manifest where
  source := none
  classes := []
  enums := []
  aliases := []
  modules := [⟨"Root", none, [], [], []⟩]
  components := [⟨"Site", some site, "Root", []⟩, ⟨"Feed", some feed, "Root", []⟩]

def siteAndFeedGraph (base site feed : Path) : Graph where
  types := .empty
  modules := [⟨"Root", base.join ⟨"index.ts"⟩, [], [], []⟩]
  providers := []
  components := [⟨"Site", base.join site, 0, []⟩, ⟨"Feed", base.join feed, 0, []⟩]

theorem graph_siteAndFeed (base site feed : Path) :
    (siteAndFeed site feed).graph base = .ok (siteAndFeedGraph base site feed) :=
  rfl

/-- Below a directory that has a name, a dot in front makes no difference. -/
theorem siteAndFeed_apart : (siteAndFeed ⟨"./app.ts"⟩ ⟨"app.ts"⟩).PlainlySourced ⟨"web"⟩ ∧
    ∃ graph files, (siteAndFeed ⟨"./app.ts"⟩ ⟨"app.ts"⟩).graph ⟨"web"⟩ = .ok graph ∧
      graph.implementations = .ok files ∧ files.map File.path = [⟨"web/gen/app.ts"⟩] ∧
      Graph.LexicallyApart files := by
  have hplain : (siteAndFeed ⟨"./app.ts"⟩ ⟨"app.ts"⟩).PlainlySourced ⟨"web"⟩ :=
    ⟨by decide, by decide, by decide⟩
  have hgraph := graph_siteAndFeed ⟨"web"⟩ ⟨"./app.ts"⟩ ⟨"app.ts"⟩
  have hfiles : ∃ files, (siteAndFeedGraph ⟨"web"⟩ ⟨"./app.ts"⟩ ⟨"app.ts"⟩).implementations =
      .ok files ∧ files.map File.path = [⟨"web/gen/app.ts"⟩] := ⟨_, rfl, rfl⟩
  obtain ⟨files, hfiles, hpaths⟩ := hfiles
  exact ⟨hplain, _, files, hgraph, hfiles, hpaths, (files_apart_iff hgraph hfiles).2.2.1 hplain⟩

/-- The graph when the manifest is in the working directory. -/
def besideGraph : Graph :=
  siteAndFeedGraph ⟨""⟩ ⟨"./app.ts"⟩ ⟨"app.ts"⟩

def besideSite : File :=
  ⟨⟨"./gen/app.ts"⟩, [⟨"Site", "../app.js"⟩], [besideGraph.implementation ⟨0, [], [], []⟩]⟩

def besideFeed : File :=
  ⟨⟨"gen/app.ts"⟩, [⟨"Feed", "../app.js"⟩], [besideGraph.implementation ⟨1, [], [], []⟩]⟩

/-- A machine with one file in the directory `gen`, or none and no such directory. -/
def genMachine (text : Option String) : Machine where
  files := match text with
    | none => .empty
    | some text => ⟨[(["gen"], .directory), (["gen", "app.ts"], .file text)]⟩
  working := []
  environment := []
  today := ""
  printed := ""

theorem run_besideSite :
    (emitToFiles besideSite : Emission (StateM Machine) Unit).run.run (genMachine none) =
      (.ok (), genMachine (some besideSite.text)) := by
  have hpath : besideSite.path = ⟨"./gen/app.ts"⟩ := rfl
  have hdirectory : (genMachine none).withDirectory ⟨"./gen/app.ts"⟩ =
      (true, { genMachine none with files := ⟨[(["gen"], .directory)]⟩ }) := by cbv
  rw [run_emitToFiles, hpath, hdirectory]
  generalize besideSite.text = text
  cbv

theorem run_besideFeed (text : String) :
    (emitToFiles besideFeed : Emission (StateM Machine) Unit).run.run (genMachine (some text)) =
      (.ok (), genMachine (some besideFeed.text)) := by
  have hpath : besideFeed.path = ⟨"gen/app.ts"⟩ := rfl
  have hdirectory : (genMachine (some text)).withDirectory ⟨"gen/app.ts"⟩ =
      (true, genMachine (some text)) := by cbv
  rw [run_emitToFiles, hpath, hdirectory]
  generalize besideFeed.text = other
  cbv

/-- Beside the manifest the dot stays: there are two files with one place, and the machine is left
with the text of the second only. -/
theorem siteAndFeed_overwritten :
    (siteAndFeed ⟨"./app.ts"⟩ ⟨"app.ts"⟩).graph ⟨""⟩ = .ok besideGraph ∧
    besideGraph.implementations = .ok [besideSite, besideFeed] ∧
    besideSite.path.lexical = besideFeed.path.lexical ∧
    (besideGraph.generate emitToFiles : Emission (StateM Machine) Report).run.run
      (genMachine none) = (.ok ⟨2, [⟨"./gen/app.ts"⟩, ⟨"gen/app.ts"⟩], 0⟩,
        genMachine (some besideFeed.text)) := by
  have hfiles : besideGraph.implementations = .ok [besideSite, besideFeed] := rfl
  refine ⟨rfl, hfiles, by decide, ?_⟩
  rw [run_generate_of_ok hfiles, run_emitAll_cons run_besideSite,
    run_emitAll_cons (run_besideFeed _)]
  rfl

end Manifest

end Wiring
