import Mathlib
import Wiring.Code.Placement
import Wiring.Proofs.Code.Named
import Wiring.Proofs.Lists
import Wiring.Proofs.Resolution.Resolvers
import Wiring.Proofs.Resolution.Stored

/-!
# Components grouped into files

Components are placed one after the other, each into the file of its output path.  So the files are
the groups of components that have the same output path: no component is lost, none is placed
twice, and both the files and the classes in them stand in the order of the components.
-/

namespace Wiring

open Code

theorem Path.same_trans {a b c : Path} (hab : a.same b = true) (hbc : b.same c = true) :
    a.same c = true := by
  simp only [Path.same, decide_eq_true_eq] at hab hbc ⊢
  exact hab.trans hbc

namespace Graph

variable {graph : Graph} {id : ComponentId} {resolution : Resolution} {path : Path}
  {imports : List Import} {c : Code.Class} {files last : List File}

def addClass (path : Path) (imports : List Import) (c : Code.Class) (file : File) : File :=
  if file.path.same path then
    { file with imports := mergeImports file.imports imports, classes := file.classes ++ [c] }
  else file

@[simp] theorem path_addClass (file : File) : (addClass path imports c file).path = file.path := by
  rw [addClass]
  split_ifs <;> rfl

theorem classes_addClass_of_same {file : File} (h : file.path.same path = true) :
    (addClass path imports c file).classes = file.classes ++ [c] := by
  rw [addClass, if_pos h]

theorem addClass_of_not_same {file : File} (h : file.path.same path = false) :
    addClass path imports c file = file := by
  rw [addClass, h]
  rfl

/-- The files have different paths. -/
def Apart (files : List File) : Prop :=
  files.Pairwise fun a b ↦ a.path.same b.path = false

theorem Apart.map_addClass (h : Apart files) : Apart (files.map (addClass path imports c)) := by
  rw [Apart, List.pairwise_map]
  simp only [path_addClass]
  exact h

theorem Apart.concat (h : Apart files) {last : File}
    (hlast : ∀ file ∈ files, file.path.same last.path = false) : Apart (files ++ [last]) := by
  rw [Apart, List.pairwise_append]
  refine ⟨h, List.pairwise_singleton _ _, fun file hfile other hother ↦ ?_⟩
  rw [List.mem_singleton.mp hother]
  exact hlast file hfile

theorem placeClass_of_new (h : ∀ file ∈ files, file.path.same path = false) :
    placeClass path imports c files = files ++ [⟨path, imports, [c]⟩] := by
  induction files with
  | nil => rfl
  | cons file files ih =>
      obtain ⟨hfile, hrest⟩ := List.forall_mem_cons.mp h
      rw [placeClass, hfile, ih hrest]
      rfl

theorem placeClass_of_known (hapart : Apart files)
    (h : ∃ file ∈ files, file.path.same path = true) :
    placeClass path imports c files = files.map (addClass path imports c) := by
  induction files with
  | nil =>
      obtain ⟨file, hfile, -⟩ := h
      exact (List.not_mem_nil hfile).elim
  | cons file files ih =>
      obtain ⟨hfile, hrest⟩ := List.pairwise_cons.mp hapart
      rw [placeClass, List.map_cons]
      by_cases hsame : file.path.same path = true
      · -- No later file has the path too, because it would have that of this file.
        have hothers : ∀ other ∈ files, addClass path imports c other = other := by
          intro other hother
          apply addClass_of_not_same
          by_contra hother'
          have hpath : path.same other.path = true := by
            rw [Path.same_comm]
            exact eq_true_of_ne_false hother'
          have hfalse := hfile other hother
          rw [Path.same_trans hsame hpath] at hfalse
          exact Bool.noConfusion hfalse
        rw [if_pos hsame, List.map_congr_left hothers, List.map_id', addClass, if_pos hsame]
      · obtain ⟨other, hother, hpath⟩ := h
        have hmem : other ∈ files := (List.mem_cons.mp hother).resolve_left
          fun heq ↦ hsame (heq ▸ hpath)
        rw [if_neg hsame, ih hrest ⟨other, hmem, hpath⟩,
          addClass_of_not_same (Bool.eq_false_iff.mpr hsame)]

theorem accessorCount_placeClass (path : Path) (imports : List Import) (c : Code.Class)
    (files : List File) : accessorCount (placeClass path imports c files) =
      accessorCount files + c.hiddenMethods.length := by
  induction files with
  | nil => simp [placeClass, accessorCount]
  | cons file files ih =>
      rw [placeClass]
      split_ifs
      · simp only [accessorCount, List.flatMap_cons, List.flatMap_append, List.length_append,
          List.flatMap_nil, List.length_nil]
        omega
      · simp only [accessorCount, List.flatMap_cons, List.length_append] at ih ⊢
        omega

/-- Whether a path is the output path of the component. -/
def goesInto (graph : Graph) (path : Path) (id : ComponentId) : Bool :=
  match outputPath (graph.getComponent id).source with
  | .ok own => path.same own
  | .error _ => false

/-- The class is the implementation of the component. -/
def ImplementedBy (graph : Graph) (id : ComponentId) (c : Code.Class) : Prop :=
  ∃ resolution, graph.resolution id = .ok resolution ∧ c = graph.implementation resolution

/-- The files hold the implementations of some components, which are listed in order. -/
structure Houses (graph : Graph) (ids : List ComponentId) (files : List File) : Prop where
  apart : Apart files
  /-- Each component goes into one of the files, and into one only because these differ. -/
  placed : ∀ id ∈ ids, ∃ file ∈ files, graph.goesInto file.path id = true
  /-- A file has the classes of the components that go into it, in their order. -/
  classes : ∀ file ∈ files,
    List.Forall₂ graph.ImplementedBy (ids.filter (graph.goesInto file.path)) file.classes
  /-- A file is there because of a component. -/
  named : ∀ file ∈ files, ∃ id ∈ ids, outputPath (graph.getComponent id).source = .ok file.path
  /-- Before the first component of a file comes one of each earlier file. -/
  ordered : files.Pairwise fun a b ↦ ∃ first ∈ ids, graph.goesInto a.path first = true ∧
    ∀ id ∈ ids, graph.goesInto b.path id = true → first < id

theorem goesInto_eq {own : Path} {id : ComponentId}
    (h : outputPath (graph.getComponent id).source = .ok own) (path : Path) :
    graph.goesInto path id = path.same own := by
  rw [goesInto, h]

theorem goesInto_path {file : File} {id : ComponentId}
    (h : outputPath (graph.getComponent id).source = .ok file.path) :
    graph.goesInto file.path id = true := by
  rw [goesInto_eq h, Path.same_self]

theorem same_of_goesInto {path other : Path} {id : ComponentId}
    (hpath : graph.goesInto path id = true) (hother : graph.goesInto other id = true) :
    path.same other = true := by
  cases hown : outputPath (graph.getComponent id).source with
  | ok own =>
      rw [goesInto_eq hown] at hpath hother
      exact Path.same_trans hpath ((Path.same_comm own other).trans hother)
  | error problem => simp [goesInto, hown] at hpath

/-! ## One more component -/

section Step

variable {ids : List ComponentId} {next : ComponentId} {own : Path}

theorem filter_goesInto_concat (hown : outputPath (graph.getComponent next).source = .ok own)
    (path : Path) : (ids ++ [next]).filter (graph.goesInto path) =
      ids.filter (graph.goesInto path) ++ if path.same own then [next] else [] := by
  rw [List.filter_append, List.filter_singleton, goesInto_eq hown]
  cases path.same own <;> rfl

theorem first_of_concat (hlater : ∀ id ∈ ids, id < next) {path other : Path}
    (h : ∃ first ∈ ids, graph.goesInto path first = true ∧
      ∀ id ∈ ids, graph.goesInto other id = true → first < id) :
    ∃ first ∈ ids ++ [next], graph.goesInto path first = true ∧
      ∀ id ∈ ids ++ [next], graph.goesInto other id = true → first < id := by
  obtain ⟨first, hfirst, hgoes, hbefore⟩ := h
  refine ⟨first, List.mem_append_left _ hfirst, hgoes, fun id hid hother ↦ ?_⟩
  rcases List.mem_append.mp hid with hold | hnew
  · exact hbefore id hold hother
  · rw [List.mem_singleton.mp hnew]
    exact hlater first hfirst

/-- The component goes into a file that is there. -/
theorem Houses.join (h : graph.Houses ids files) (hlater : ∀ id ∈ ids, id < next)
    (hown : outputPath (graph.getComponent next).source = .ok own)
    (hc : graph.ImplementedBy next c) (hknown : ∃ file ∈ files, file.path.same own = true) :
    graph.Houses (ids ++ [next]) (files.map (addClass own imports c)) where
  apart := h.apart.map_addClass
  placed := by
    intro id hid
    rcases List.mem_append.mp hid with hold | hnew
    · obtain ⟨file, hfile, hgoes⟩ := h.placed id hold
      exact ⟨_, List.mem_map_of_mem hfile, by rwa [path_addClass]⟩
    · obtain ⟨file, hfile, hsame⟩ := hknown
      refine ⟨_, List.mem_map_of_mem hfile, ?_⟩
      rwa [path_addClass, List.mem_singleton.mp hnew, goesInto_eq hown]
  classes := by
    intro changed hchanged
    obtain ⟨file, hfile, rfl⟩ := List.mem_map.mp hchanged
    rw [path_addClass, filter_goesInto_concat hown]
    by_cases hsame : file.path.same own = true
    · rw [if_pos hsame, classes_addClass_of_same hsame]
      exact forall₂_concat (h.classes file hfile) hc
    · rw [if_neg hsame, List.append_nil, addClass_of_not_same (Bool.eq_false_iff.mpr hsame)]
      exact h.classes file hfile
  named := by
    intro changed hchanged
    obtain ⟨file, hfile, rfl⟩ := List.mem_map.mp hchanged
    obtain ⟨id, hid, hpath⟩ := h.named file hfile
    exact ⟨id, List.mem_append_left _ hid, by rwa [path_addClass]⟩
  ordered := by
    rw [List.pairwise_map]
    refine h.ordered.imp fun {a b} hab ↦ ?_
    rw [path_addClass, path_addClass]
    exact first_of_concat hlater hab

theorem Houses.not_goesInto (h : graph.Houses ids files)
    (hnew : ∀ file ∈ files, file.path.same own = false) :
    ∀ id ∈ ids, graph.goesInto own id = false := by
  intro id hid
  obtain ⟨file, hfile, hgoes⟩ := h.placed id hid
  by_contra hnot
  have hsame := same_of_goesInto hgoes (eq_true_of_ne_false hnot)
  rw [hnew file hfile] at hsame
  exact Bool.noConfusion hsame

/-- The component gets a file of its own. -/
theorem Houses.concat (h : graph.Houses ids files) (hlater : ∀ id ∈ ids, id < next)
    (hown : outputPath (graph.getComponent next).source = .ok own)
    (hc : graph.ImplementedBy next c) (hnew : ∀ file ∈ files, file.path.same own = false) :
    graph.Houses (ids ++ [next]) (files ++ [⟨own, imports, [c]⟩]) where
  apart := h.apart.concat hnew
  placed := by
    intro id hid
    rcases List.mem_append.mp hid with hold | hlast
    · obtain ⟨file, hfile, hgoes⟩ := h.placed id hold
      exact ⟨file, List.mem_append_left _ hfile, hgoes⟩
    · refine ⟨_, List.mem_concat_self, ?_⟩
      rw [List.mem_singleton.mp hlast, goesInto_eq hown, Path.same_self]
  classes := by
    intro file hfile
    rw [filter_goesInto_concat hown]
    rcases List.mem_append.mp hfile with hold | hlast
    · rw [hnew file hold]
      simpa using h.classes file hold
    · have hnone : ids.filter (graph.goesInto own) = [] :=
        List.filter_eq_nil_iff.mpr fun id hid ↦ by simp [h.not_goesInto hnew id hid]
      rw [List.mem_singleton.mp hlast, hnone, Path.same_self]
      exact .cons hc .nil
  named := by
    intro file hfile
    rcases List.mem_append.mp hfile with hold | hlast
    · obtain ⟨id, hid, hpath⟩ := h.named file hold
      exact ⟨id, List.mem_append_left _ hid, hpath⟩
    · exact ⟨next, List.mem_concat_self, (List.mem_singleton.mp hlast) ▸ hown⟩
  ordered := by
    rw [List.pairwise_append]
    refine ⟨h.ordered.imp fun hab ↦ first_of_concat hlater hab, List.pairwise_singleton _ _, ?_⟩
    intro file hfile other hother
    obtain ⟨first, hfirst, hpath⟩ := h.named file hfile
    refine ⟨first, List.mem_append_left _ hfirst, goesInto_path hpath, fun id hid hgoes ↦ ?_⟩
    rw [List.mem_singleton.mp hother] at hgoes
    rcases List.mem_append.mp hid with hold | hlast
    · rw [h.not_goesInto hnew id hold] at hgoes
      exact Bool.noConfusion hgoes
    · rw [List.mem_singleton.mp hlast]
      exact hlater first hfirst

theorem component_of_resolution {id : ComponentId} (h : graph.resolution id = .ok resolution) :
    resolution.component = id := by
  rw [resolution_def] at h
  obtain ⟨resolved, -, h⟩ := bind_eq_ok.mp h
  obtain rfl := Except.ok.inj h
  rfl

theorem place_eq_ok (h : graph.place files resolution = .ok last) :
    ∃ own imports, outputPath (graph.getComponent resolution.component).source = .ok own ∧
      last = placeClass own imports (graph.implementation resolution) files := by
  obtain ⟨own, hown, h⟩ := bind_eq_ok.mp h
  obtain ⟨imports, -, h⟩ := bind_eq_ok.mp h
  exact ⟨own, imports, hown, (Except.ok.inj h).symm⟩

theorem Houses.place (h : graph.Houses ids files) (hlater : ∀ id ∈ ids, id < next)
    (hresolution : graph.resolution next = .ok resolution)
    (hplace : graph.place files resolution = .ok last) : graph.Houses (ids ++ [next]) last := by
  obtain ⟨own, imports, hown, rfl⟩ := place_eq_ok hplace
  rw [component_of_resolution hresolution] at hown
  have hc : graph.ImplementedBy next (graph.implementation resolution) := ⟨_, hresolution, rfl⟩
  by_cases hknown : ∃ file ∈ files, file.path.same own = true
  · rw [placeClass_of_known h.apart hknown]
    exact h.join hlater hown hc hknown
  · have hnew : ∀ file ∈ files, file.path.same own = false := by
      intro file hfile
      exact Bool.eq_false_iff.mpr fun hsame ↦ hknown ⟨file, hfile, hsame⟩
    rw [placeClass_of_new hnew]
    exact h.concat hlater hown hc hnew

end Step

theorem length_plans (h : graph.resolution id = .ok resolution) :
    resolution.plans.length = resolution.distinctPlans := by
  rw [(resolution_eq_ok h).2]
  have hkeys := Needs.nodup_ofResolvers resolution.resolvers
  have hperm : ((Needs.ofResolvers resolution.resolvers).plans.map Plan.key).Perm
      (resolution.walk.map Plan.key).dedup := by
    rw [List.perm_ext_iff_of_nodup hkeys (List.nodup_dedup _)]
    intro key
    rw [List.mem_dedup]
    exact Needs.mem_keys_ofResolvers
  simpa [Resolution.distinctPlans] using hperm.length_eq

theorem accessorCount_foldlM {resolutions : List Resolution}
    (h : resolutions.foldlM graph.place files = .ok last) : accessorCount last =
      accessorCount files + (resolutions.map fun resolution ↦ resolution.plans.length).sum := by
  induction resolutions generalizing files with
  | nil =>
      obtain rfl : files = last := Except.ok.inj h
      rfl
  | cons resolution resolutions ih =>
      rw [List.foldlM_cons] at h
      obtain ⟨middle, hmiddle, h⟩ := bind_eq_ok.mp h
      obtain ⟨own, imports, -, rfl⟩ := place_eq_ok hmiddle
      rw [ih h, accessorCount_placeClass, hiddenMethods_implementation, List.length_map,
        List.map_cons, List.sum_cons, Nat.add_assoc]

theorem Houses.foldlM {ids rest : List ComponentId} {resolutions : List Resolution}
    (h : graph.Houses ids files) (hascending : (ids ++ rest).Pairwise (· < ·))
    (hresolutions : List.Forall₂ (fun id resolution ↦ graph.resolution id = .ok resolution) rest
      resolutions) (hlast : resolutions.foldlM graph.place files = .ok last) :
    graph.Houses (ids ++ rest) last := by
  induction hresolutions generalizing ids files with
  | nil =>
      obtain rfl : files = last := Except.ok.inj hlast
      rwa [List.append_nil]
  | @cons next resolution rest resolutions hresolution _ ih =>
      rw [List.foldlM_cons] at hlast
      obtain ⟨middle, hmiddle, hlast⟩ := bind_eq_ok.mp hlast
      have hlater : ∀ id ∈ ids, id < next := fun id hid ↦
        (List.pairwise_append.mp hascending).2.2 id hid next List.mem_cons_self
      have hnext := h.place hlater hresolution hmiddle
      have hsplit : ids ++ next :: rest = ids ++ [next] ++ rest := by
        rw [List.append_assoc, List.singleton_append]
      rw [hsplit] at hascending ⊢
      exact ih hnext hascending hlast

theorem houses_nil (graph : Graph) : graph.Houses [] [] where
  apart := .nil
  placed := List.forall_mem_nil _
  classes := List.forall_mem_nil _
  named := List.forall_mem_nil _
  ordered := .nil

theorem forall₂_of_implementations (h : graph.implementations = .ok files) :
    ∃ resolutions, graph.filesOf resolutions = .ok files ∧
      List.Forall₂ (fun id resolution ↦ graph.resolution id = .ok resolution) graph.componentIds
        resolutions := by
  obtain ⟨resolutions, hresolutions, h⟩ := bind_eq_ok.mp h
  exact ⟨resolutions, h, forall₂_of_mapM_eq_ok hresolutions⟩

/-- The generated files hold every component, and an accessor for each of its plans. -/
theorem houses_of_implementations (h : graph.implementations = .ok files) :
    graph.Houses graph.componentIds files ∧ ∃ resolutions, List.Forall₂
      (fun id resolution ↦ graph.resolution id = .ok resolution) graph.componentIds resolutions ∧
      accessorCount files = (resolutions.map Resolution.distinctPlans).sum := by
  obtain ⟨resolutions, hfiles, hresolutions⟩ := forall₂_of_implementations h
  have hascending : ([] ++ graph.componentIds).Pairwise (· < ·) := List.pairwise_lt_range
  have hlengths : resolutions.map (fun resolution ↦ resolution.plans.length) =
      resolutions.map Resolution.distinctPlans := by
    apply List.map_congr_left
    intro resolution hresolution
    obtain ⟨id, -, hid⟩ := exists_of_mem_forall₂ hresolutions.flip hresolution
    exact length_plans hid
  have hcount := accessorCount_foldlM hfiles
  have hempty : accessorCount [] = 0 := rfl
  rw [hlengths, hempty, Nat.zero_add] at hcount
  exact ⟨graph.houses_nil.foldlM hascending hresolutions hfiles, resolutions, hresolutions, hcount⟩

end Graph

end Wiring
