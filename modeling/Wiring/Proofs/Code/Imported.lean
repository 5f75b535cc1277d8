import Wiring.Proofs.Code.Closed
import Wiring.Proofs.Code.Grouped
import Wiring.Proofs.Resolution.FirstMet

/-!
# Imports of a file

A file has the imports of its first component as these are listed, and of each later component
those that it does not have yet.  So nothing is imported twice unless the first component by itself
repeats an import, and of components of a built graph that is one whose own class has the name and
the specifier of one of its modules.
-/

namespace Wiring

open Code

theorem nodup_firstMet_id {α : Type} [DecidableEq α] (items : List α) :
    (firstMet id items).Nodup := by
  simpa using nodup_firstMet id items

namespace Graph

variable {graph : Graph} {resolution : Resolution} {resolutions : List Resolution}
  {files last : List File} {own : Path} {first rest imports : List Import}

theorem mergeImports_eq_foldl (present more : List Import) :
    mergeImports present more = more.foldl (keepUnmet id) present := by
  have hstep : (fun (present : List Import) i ↦
      if present.contains i then present else present ++ [i]) = keepUnmet id := by
    funext present i
    simp [keepUnmet]
  rw [mergeImports, hstep]

theorem mergeImports_append (present more rest : List Import) :
    mergeImports (mergeImports present more) rest = mergeImports present (more ++ rest) := by
  simp only [mergeImports_eq_foldl, List.foldl_append]

theorem mergeImports_eq (present more : List Import) : mergeImports present more =
    present ++ (firstMet id more).filter fun i ↦ i ∉ present := by
  simp [mergeImports_eq_foldl, foldl_keepUnmet]

theorem nodup_mergeImports_iff : (mergeImports first rest).Nodup ↔ first.Nodup := by
  rw [mergeImports_eq]
  refine ⟨fun h ↦ h.sublist (List.sublist_append_left _ _), fun h ↦ ?_⟩
  refine h.append ((nodup_firstMet_id rest).filter _) fun i hi hmore ↦ ?_
  exact of_decide_eq_true (List.mem_filter.mp hmore).2 hi

theorem mergeImports_nil (more : List Import) : mergeImports [] more = firstMet id more := by
  simp [mergeImports_eq]

/-- Only the imports that come first may repeat each other. -/
theorem mergeImports_eq_firstMet_iff :
    mergeImports first rest = firstMet id (first ++ rest) ↔ first.Nodup := by
  constructor
  · intro h
    have hmerged : (mergeImports first rest).Nodup := h ▸ nodup_firstMet_id (first ++ rest)
    exact nodup_mergeImports_iff.mp hmerged
  · intro h
    have hfirst : firstMet id first = first := firstMet_eq_self (by rwa [List.map_id])
    rw [← mergeImports_nil, ← mergeImports_append, mergeImports_nil, hfirst]

/-! ## One more component -/

/-- The imports of a component as they are written in the directory of its own output path. -/
def ownImports (graph : Graph) (resolution : Resolution) : Except Error (List Import) := do
  let path ← outputPath (graph.getComponent resolution.component).source
  graph.imports resolution path.parent

theorem ownImports_eq (h : outputPath (graph.getComponent resolution.component).source = .ok own) :
    graph.ownImports resolution = graph.imports resolution own.parent := by
  rw [ownImports, h]
  rfl

theorem exists_ownImports_of_place (h : graph.place files resolution = .ok last) :
    ∃ own imports, outputPath (graph.getComponent resolution.component).source = .ok own ∧
      graph.ownImports resolution = .ok imports ∧
      last = placeClass own imports (graph.implementation resolution) files := by
  obtain ⟨own, hown, h⟩ := bind_eq_ok.mp h
  obtain ⟨imports, himports, h⟩ := bind_eq_ok.mp h
  exact ⟨own, imports, hown, (ownImports_eq hown).trans himports, (Except.ok.inj h).symm⟩

/-- The resolutions of components that go into a file of the path. -/
def sharing (graph : Graph) (path : Path) (resolutions : List Resolution) : List Resolution :=
  resolutions.filter fun resolution ↦ graph.goesInto path resolution.component

theorem sharing_concat (h : outputPath (graph.getComponent resolution.component).source = .ok own)
    (path : Path) : graph.sharing path (resolutions ++ [resolution]) =
      graph.sharing path resolutions ++ if path.same own then [resolution] else [] := by
  rw [sharing, List.filter_append, List.filter_singleton, goesInto_eq h, ← sharing]
  cases path.same own <;> rfl

/-- The files have the imports of the components in them. -/
structure Merged (graph : Graph) (resolutions : List Resolution) (files : List File) : Prop where
  apart : Apart files
  placed : ∀ resolution ∈ resolutions, ∃ file ∈ files,
    graph.goesInto file.path resolution.component = true
  /-- The imports of the first component, then those of the others that are not there yet. -/
  imports : ∀ file ∈ files, ∃ first rest,
    List.Forall₂ (fun resolution imports ↦ graph.ownImports resolution = .ok imports)
      (graph.sharing file.path resolutions) (first :: rest) ∧
    file.imports = mergeImports first rest.flatten

section Step

variable (h : graph.Merged resolutions files)
  (hown : outputPath (graph.getComponent resolution.component).source = .ok own)
  (himports : graph.ownImports resolution = .ok imports)

include h hown

theorem Merged.placed_concat (hpaths : ∀ file ∈ files, ∃ other ∈ last, other.path = file.path)
    (hlast : ∃ file ∈ last, file.path.same own = true) :
    ∀ other ∈ resolutions ++ [resolution], ∃ file ∈ last,
      graph.goesInto file.path other.component = true := by
  intro other hother
  rcases List.mem_append.mp hother with hold | hnew
  · obtain ⟨file, hfile, hgoes⟩ := h.placed other hold
    obtain ⟨kept, hkept, hpath⟩ := hpaths file hfile
    exact ⟨kept, hkept, hpath ▸ hgoes⟩
  · obtain ⟨file, hfile, hsame⟩ := hlast
    exact ⟨file, hfile, by rwa [List.mem_singleton.mp hnew, goesInto_eq hown]⟩

include himports

/-- The component goes into a file that is there. -/
theorem Merged.join (c : Code.Class) (hknown : ∃ file ∈ files, file.path.same own = true) :
    graph.Merged (resolutions ++ [resolution]) (files.map (addClass own imports c)) where
  apart := h.apart.map_addClass
  placed := by
    refine h.placed_concat hown (fun file hfile ↦ ?_) ?_
    · exact ⟨_, List.mem_map_of_mem hfile, path_addClass file⟩
    · obtain ⟨file, hfile, hsame⟩ := hknown
      exact ⟨_, List.mem_map_of_mem hfile, by rwa [path_addClass]⟩
  imports := by
    intro changed hchanged
    obtain ⟨file, hfile, rfl⟩ := List.mem_map.mp hchanged
    obtain ⟨first, rest, hlists, hfirst⟩ := h.imports file hfile
    rw [path_addClass, sharing_concat hown]
    by_cases hsame : file.path.same own = true
    · refine ⟨first, rest ++ [imports], ?_, ?_⟩
      · rw [if_pos hsame]
        exact forall₂_concat hlists himports
      · rw [addClass, if_pos hsame, hfirst, mergeImports_append, List.flatten_append,
          List.flatten_singleton]
    · rw [if_neg hsame, List.append_nil, addClass_of_not_same (Bool.eq_false_iff.mpr hsame)]
      exact ⟨first, rest, hlists, hfirst⟩

/-- The component gets a file of its own. -/
theorem Merged.concat (c : Code.Class) (hnew : ∀ file ∈ files, file.path.same own = false) :
    graph.Merged (resolutions ++ [resolution]) (files ++ [⟨own, imports, [c]⟩]) where
  apart := h.apart.concat hnew
  placed := by
    refine h.placed_concat hown (fun file hfile ↦ ?_) ?_
    · exact ⟨file, List.mem_append_left _ hfile, rfl⟩
    · exact ⟨_, List.mem_concat_self, Path.same_self own⟩
  imports := by
    intro file hfile
    rw [sharing_concat hown]
    rcases List.mem_append.mp hfile with hold | hlast
    · rw [hnew file hold]
      simpa using h.imports file hold
    · -- Whatever went into a file of this path before would be in a file of this path.
      have hnone : graph.sharing own resolutions = [] := by
        refine List.filter_eq_nil_iff.mpr fun other hother hgoes ↦ ?_
        obtain ⟨placed, hplaced, hinto⟩ := h.placed other hother
        have hsame := same_of_goesInto hinto hgoes
        rw [hnew placed hplaced] at hsame
        exact Bool.noConfusion hsame
      rw [List.mem_singleton.mp hlast, hnone, Path.same_self]
      exact ⟨imports, [], .cons himports .nil, rfl⟩

end Step

theorem Merged.place (h : graph.Merged resolutions files)
    (hplace : graph.place files resolution = .ok last) :
    graph.Merged (resolutions ++ [resolution]) last := by
  obtain ⟨own, imports, hown, himports, rfl⟩ := exists_ownImports_of_place hplace
  by_cases hknown : ∃ file ∈ files, file.path.same own = true
  · rw [placeClass_of_known h.apart hknown]
    exact h.join hown himports _ hknown
  · have hnew : ∀ file ∈ files, file.path.same own = false := fun file hfile ↦
      Bool.eq_false_iff.mpr fun hsame ↦ hknown ⟨file, hfile, hsame⟩
    rw [placeClass_of_new hnew]
    exact h.concat hown himports _ hnew

theorem Merged.foldlM {more : List Resolution} (h : graph.Merged resolutions files)
    (hlast : more.foldlM graph.place files = .ok last) :
    graph.Merged (resolutions ++ more) last := by
  induction more generalizing resolutions files with
  | nil =>
      obtain rfl : files = last := Except.ok.inj hlast
      rwa [List.append_nil]
  | cons resolution more ih =>
      rw [List.foldlM_cons] at hlast
      obtain ⟨middle, hmiddle, hlast⟩ := bind_eq_ok.mp hlast
      have hmerged := ih (h.place hmiddle) hlast
      rwa [List.append_assoc, List.singleton_append] at hmerged

theorem merged_of_filesOf (h : graph.filesOf resolutions = .ok files) :
    graph.Merged resolutions files := by
  have hempty : graph.Merged [] [] :=
    ⟨.nil, List.forall_mem_nil _, List.forall_mem_nil _⟩
  exact hempty.foldlM h

/-- Modules of a built graph have names of their own, so each of them has an import of its own. -/
theorem nodup_moduleImports (hbuilt : graph.Built) {id : ComponentId}
    (h : graph.resolution id = .ok resolution) {directory : Path} {others : List Import}
    (hothers : List.Forall₂ (fun owner i ↦ importOf directory (graph.getModule owner).name
      (graph.getModule owner).source = .ok i) resolution.modules others) : others.Nodup := by
  have hnames : others.map Import.name =
      resolution.modules.map fun owner ↦ (graph.getModule owner).name :=
    map_eq_map_iff_forall₂.mpr (hothers.flip.imp fun _ _ himport ↦ name_of_importOf himport)
  have hdistinct : (resolution.modules.map fun owner ↦ (graph.getModule owner).name).Nodup := by
    refine (nodup_modules h).map_on fun owner howner other hother hname ↦ ?_
    exact hbuilt.eq_of_name_eq (lt_of_mem_modules hbuilt.closed h owner howner)
      (lt_of_mem_modules hbuilt.closed h other hother) hname
  exact (hnames ▸ hdistinct).of_map _

/-- A module of the component has its name, and a source of the same specifier. -/
def HasNamesake (graph : Graph) (resolution : Resolution) : Prop :=
  ∃ owner ∈ resolution.modules,
    (graph.getModule owner).name = (graph.getComponent resolution.component).name ∧
    ∃ path, outputPath (graph.getComponent resolution.component).source = .ok path ∧
      importSpecifier path.parent (graph.getModule owner).source =
        importSpecifier path.parent (graph.getComponent resolution.component).source

theorem importOf_eq_ok_iff {directory source : Path} {name : String} {i : Import} :
    importOf directory name source = .ok i ↔
      i.name = name ∧ importSpecifier directory source = .ok i.specifier := by
  constructor
  · intro h
    obtain ⟨specifier, hspecifier, h⟩ := bind_eq_ok.mp h
    obtain rfl := Except.ok.inj h
    exact ⟨rfl, hspecifier⟩
  · rintro ⟨rfl, hspecifier⟩
    rw [importOf, hspecifier]
    rfl

/-- The import of its own class is the only one that a component can repeat. -/
theorem nodup_ownImports_iff (hbuilt : graph.Built) {id : ComponentId}
    (h : graph.resolution id = .ok resolution)
    (himports : graph.ownImports resolution = .ok imports) :
    imports.Nodup ↔ ¬ graph.HasNamesake resolution := by
  obtain ⟨path, hpath, himports⟩ := bind_eq_ok.mp himports
  obtain ⟨own, hown, himports⟩ := bind_eq_ok.mp himports
  obtain ⟨others, hothers, himports⟩ := bind_eq_ok.mp himports
  obtain rfl := Except.ok.inj himports
  have hmodules := forall₂_of_mapM_eq_ok hothers
  rw [List.nodup_cons, and_iff_left (nodup_moduleImports hbuilt h hmodules)]
  obtain ⟨hname, hspecifier⟩ := importOf_eq_ok_iff.mp hown
  refine not_congr ⟨fun hmem ↦ ?_, ?_⟩
  · obtain ⟨owner, howner, himport⟩ := exists_of_mem_forall₂ hmodules.flip hmem
    obtain ⟨hmodule, hsame⟩ := importOf_eq_ok_iff.mp himport
    exact ⟨owner, howner, hmodule.symm.trans hname, path, hpath, hsame.trans hspecifier.symm⟩
  · rintro ⟨owner, howner, hmodule, other, hother, hsame⟩
    obtain rfl := Except.ok.inj (hpath.symm.trans hother)
    obtain ⟨i, hi, himport⟩ := exists_of_mem_forall₂ hmodules howner
    have himport' := importOf_eq_ok_iff.mpr
      ⟨hname.trans hmodule.symm, hsame.trans hspecifier⟩
    rwa [Except.ok.inj (himport'.symm.trans himport)]

/-- The imports of a generated file, for all resolutions whose files can be generated.  A file has
the imports of the first resolution in it, as they are listed, and then those of the others in
order, each one where it is new.  That is the concatenation of all their lists with every repetition
dropped, and no import stands there twice, exactly if the first resolution repeats none in its own
list.  For the resolution of a component of a built graph this means that none of its modules has
the component's name and a source of the same specifier. -/
theorem imports_eq_firstMet_iff (h : graph.filesOf resolutions = .ok files) :
    ∀ file ∈ files, ∃ lead others first rest,
      (resolutions.filter fun resolution ↦ graph.goesInto file.path resolution.component) =
        lead :: others ∧
      List.Forall₂ (fun resolution imports ↦ graph.ownImports resolution = .ok imports)
        (lead :: others) (first :: rest) ∧
      file.imports = first ++ (firstMet id rest.flatten).filter (fun i ↦ i ∉ first) ∧
      (file.imports = firstMet id (first :: rest).flatten ↔ first.Nodup) ∧
      (file.imports.Nodup ↔ first.Nodup) ∧
      (graph.Built → ∀ id, graph.resolution id = .ok lead →
        (first.Nodup ↔ ¬ graph.HasNamesake lead)) := by
  intro file hfile
  obtain ⟨first, rest, hlists, himports⟩ := (merged_of_filesOf h).imports file hfile
  obtain ⟨lead, others, hlead, hothers, hsharing⟩ := List.forall₂_cons_right_iff.mp hlists
  rw [himports]
  refine ⟨lead, others, first, rest, hsharing, .cons hlead hothers, mergeImports_eq _ _,
    mergeImports_eq_firstMet_iff, nodup_mergeImports_iff, fun hbuilt id hid ↦ ?_⟩
  exact nodup_ownImports_iff hbuilt hid hlead

/-- Two components of one source, whose root module is declared in this source too. -/
def pagesOf (name : String) : Graph where
  types := (TypeTable.empty.intern (.nominal "Page")).2
  modules := [⟨"Pages", ⟨"site.ts"⟩, [0], [], []⟩]
  providers := [⟨"page", 0, [], 0, false⟩]
  components := [⟨name, ⟨"site.ts"⟩, 0, [⟨"page", 0⟩]⟩, ⟨"Help", ⟨"site.ts"⟩, 0, [⟨"page", 0⟩]⟩]

theorem pagesOf_built {name : String} (hname : "Help" ≠ name) : (pagesOf name).Built := by
  have htypes := Built.empty.intern (.nominal "Page") (by decide)
  have hmodule := htypes.addModule "Pages" ⟨"site.ts"⟩ rfl
  have hprovider := hmodule.addProvider 0 "page" [] 0 false (by decide) (by decide) (by decide)
  have hfirst := (hprovider.addComponent name ⟨"site.ts"⟩ 0 Nat.zero_lt_one rfl).addResolver 0
    "page" 0 Nat.zero_lt_one Nat.zero_lt_one
  have hnew : "Help" ∉ [name] := List.mem_singleton.not.mpr hname
  have hsecond := hfirst.addComponent "Help" ⟨"site.ts"⟩ 0 Nat.zero_lt_one
    (addComponent_eq_ok_iff.mpr ⟨hnew, rfl, rfl⟩)
  exact hsecond.addResolver 1 "page" 0 Nat.one_lt_two Nat.zero_lt_one

def pageResolution (id : ComponentId) : Resolution :=
  let page : Plan := .provide 0 0 0 [] false
  { component := id
    resolvers := [⟨"page", page⟩]
    modules := [0]
    plans := [page] }

theorem site_imports :
    ∃ file, (pagesOf "Site").filesOf [pageResolution 0, pageResolution 1] = .ok [file] ∧
      file.imports =
        [⟨"Site", "../site.js"⟩, ⟨"Pages", "../site.js"⟩, ⟨"Help", "../site.js"⟩] ∧
      file.imports.Nodup := by
  have hfiles : ∃ file, (pagesOf "Site").filesOf [pageResolution 0, pageResolution 1] =
      .ok [file] ∧ file.path = ⟨"gen/site.ts"⟩ ∧ file.imports =
        [⟨"Site", "../site.js"⟩, ⟨"Pages", "../site.js"⟩, ⟨"Help", "../site.js"⟩] :=
    ⟨_, rfl, rfl, rfl⟩
  obtain ⟨file, hfile, hpath, himports⟩ := hfiles
  refine ⟨file, hfile, himports, ?_⟩
  obtain ⟨lead, others, first, rest, hsharing, -, -, -, hnodup, hlead⟩ :=
    imports_eq_firstMet_iff hfile file (List.mem_singleton_self file)
  rw [hpath] at hsharing
  obtain rfl : pageResolution 0 = lead := (List.cons.inj hsharing).1
  have hresolution : (pagesOf "Site").resolution 0 = .ok (pageResolution 0) := by cbv
  refine hnodup.mpr ((hlead (pagesOf_built (by decide)) 0 hresolution).mpr ?_)
  rintro ⟨owner, howner, hname, -⟩
  obtain rfl := List.mem_singleton.mp howner
  exact absurd hname (by decide)

/-- A component whose root module has its name and its source imports the name twice. -/
theorem pages_imports :
    (pagesOf "Pages").Built ∧
      (pagesOf "Pages").resolution 0 = .ok (pageResolution 0) ∧
      (pagesOf "Pages").resolution 1 = .ok (pageResolution 1) ∧
      (pagesOf "Pages").ownImports (pageResolution 0) =
        .ok [⟨"Pages", "../site.js"⟩, ⟨"Pages", "../site.js"⟩] ∧
      (pagesOf "Pages").ownImports (pageResolution 1) =
        .ok [⟨"Help", "../site.js"⟩, ⟨"Pages", "../site.js"⟩] ∧
      ∃ file, (pagesOf "Pages").filesOf [pageResolution 0, pageResolution 1] = .ok [file] ∧
        file.imports =
          [⟨"Pages", "../site.js"⟩, ⟨"Pages", "../site.js"⟩, ⟨"Help", "../site.js"⟩] ∧
        ¬ file.imports.Nodup ∧
        file.imports ≠ firstMet id
          [⟨"Pages", "../site.js"⟩, ⟨"Pages", "../site.js"⟩, ⟨"Help", "../site.js"⟩,
            ⟨"Pages", "../site.js"⟩] := by
  have himports : ∃ file, (pagesOf "Pages").filesOf [pageResolution 0, pageResolution 1] =
      .ok [file] ∧ file.imports =
        [⟨"Pages", "../site.js"⟩, ⟨"Pages", "../site.js"⟩, ⟨"Help", "../site.js"⟩] :=
    ⟨_, rfl, rfl⟩
  obtain ⟨file, hfile, himports⟩ := himports
  refine ⟨pagesOf_built (by decide), by cbv, by cbv, by rfl, by rfl, file, hfile, himports, ?_⟩
  rw [himports]
  exact ⟨by decide, by decide⟩

end Graph

end Wiring
