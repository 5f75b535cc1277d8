import Wiring.Command.Run
import Wiring.Host.Machine
import Wiring.Proofs.Path.Lexical

/-!
# Files that are written one after the other

A path that leads somewhere leads to its place, which its segments and the working directory alone
determine.  So of the files with one place that are written in a run the last one stays, and paths
with the same settled segments cannot hold different texts.
-/

namespace Wiring

/-- Where a segment leads. -/
def Segment.follow (here : Location) : Segment → Location
  | .root => []
  | .here => here
  | .up => here.dropLast
  | .name text => here ++ [text]

/-- The place that a path denotes when it is seen from a directory. -/
def Path.place (working : Location) (path : Path) : Location :=
  path.segments.foldl Segment.follow working

namespace Path

theorem foldl_follow_settle (here : Location) (before : List Segment) (segment : Segment) :
    (settle before segment).reverse.foldl Segment.follow here =
      Segment.follow (before.reverse.foldl Segment.follow here) segment := by
  have hpushed : ∀ segment, (segment :: before).reverse.foldl Segment.follow here =
      Segment.follow (before.reverse.foldl Segment.follow here) segment := by
    intro segment
    rw [List.reverse_cons, List.foldl_append]
    rfl
  cases segment with
  | root => exact hpushed .root
  | here => rfl
  | name text => exact hpushed (.name text)
  | up =>
      rcases before with _ | ⟨_ | _ | _ | name, earlier⟩
      all_goals try exact hpushed .up
      -- The name before the step upwards is where the step leads from.
      have hname : (Segment.name name :: earlier).reverse.foldl Segment.follow here =
          earlier.reverse.foldl Segment.follow here ++ [name] := by
        rw [List.reverse_cons, List.foldl_append]
        rfl
      rw [hname, Segment.follow, List.dropLast_concat]
      rfl

theorem foldl_follow_foldl_settle (here : Location) (segments before : List Segment) :
    (segments.foldl settle before).reverse.foldl Segment.follow here =
      segments.foldl Segment.follow (before.reverse.foldl Segment.follow here) := by
  induction segments generalizing before with
  | nil => rfl
  | cons segment segments ih => rw [List.foldl_cons, ih, foldl_follow_settle, List.foldl_cons]

theorem place_eq_of_lexical_eq {a b : Path} (h : a.lexical = b.lexical) (working : Location) :
    a.place working = b.place working := by
  have hsettled : ∀ path : Path, path.lexical.foldl Segment.follow working = path.place working :=
    fun path ↦ foldl_follow_foldl_settle working path.segments []
  rw [← hsettled, ← hsettled, h]

theorem place_eq_of_same {a b : Path} (h : a.same b = true) (working : Location) :
    a.place working = b.place working :=
  place_eq_of_lexical_eq (lexical_eq_of_same h) working

theorem place_eq (working : Location) (path : Path) : path.place working =
    path.trail.foldl Segment.follow (if path.isAbsolute then [] else working) := by
  have hhead : path.parts.head.toList.foldl Segment.follow working =
      if path.isAbsolute then [] else working := by
    by_cases h : path.isAbsolute = true
    · rw [if_pos h, head_of_isAbsolute h]
      rfl
    · rw [if_neg h]
      have hhere : ∀ segment ∈ path.parts.head.toList, segment = .here := by
        intro segment hsegment
        refine (head_cases path hsegment).resolve_left ?_
        rintro rfl
        exact h (root_mem_segments.mp (List.mem_append_left _ hsegment))
      generalize path.parts.head = head at hhere
      cases head with
      | none => rfl
      | some segment =>
          rw [hhere segment List.mem_cons_self]
          rfl
  rw [Path.place, Path.segments_eq_trail, List.foldl_append, hhead]

/-- Output paths have one place exactly if their sources have. -/
theorem place_outputPath_iff {source other own others : Path} (hown : outputPath source = .ok own)
    (hothers : outputPath other = .ok others) (working : Location) :
    own.place working = others.place working ↔ source.place working = other.place working := by
  obtain ⟨directory, name, hsource, hpath⟩ := segments_of_outputPath hown
  obtain ⟨directory', name', hother, hpath'⟩ := segments_of_outputPath hothers
  rw [place, place, place, place, hsource, hpath, hother, hpath']
  simp only [List.foldl_append, List.foldl_cons, List.foldl_nil, Segment.follow]
  constructor
  · intro h
    obtain ⟨hinner, hname⟩ := List.append_inj' h rfl
    rw [(List.append_inj' hinner rfl).1, hname]
  · intro h
    obtain ⟨hdirectory, hname⟩ := List.append_inj' h rfl
    rw [hdirectory, hname]

theorem exists_names_of_trail {path : Path} (h : .up ∉ path.segments) :
    ∃ names : List String, path.trail = names.map Segment.name := by
  have hnames : ∀ segment ∈ path.trail, .name segment.text = segment := by
    intro segment hsegment
    rcases isStep_of_mem_trail hsegment with rfl | ⟨name, -, rfl⟩
    · exact absurd hsegment (up_not_mem_trail h)
    · rfl
  refine ⟨path.trail.map Segment.text, ?_⟩
  have hmap := List.map_congr_left (g := id) hnames
  rw [List.map_map]
  exact (hmap.trans (List.map_id _)).symm

theorem foldl_follow_names (here : Location) (names : List String) :
    (names.map Segment.name).foldl Segment.follow here = here ++ names := by
  induction names generalizing here with
  | nil => exact (List.append_nil here).symm
  | cons name names ih =>
      rw [List.map_cons, List.foldl_cons, ih, Segment.follow, List.append_assoc,
        List.singleton_append]

/-- Below a base a relative path without steps upwards only adds its names. -/
theorem place_join_of_relative (base : Path) {path : Path} (hpath : path.isAbsolute = false)
    {names : List String} (hnames : path.trail = names.map Segment.name) (working : Location) :
    (base.join path).place working = base.place working ++ names := by
  by_cases hempty : base.text.toList = []
  · have hbase : base.place working = working := by
      rw [place, segments_of_empty hempty]
      rfl
    rw [join_of_empty hempty, place_eq, hpath, hnames, foldl_follow_names, hbase]
    rfl
  · rw [place, segments_join hempty hpath, List.foldl_append, hnames, foldl_follow_names]
    rfl

/-- Relative paths without steps upwards have one place below a base only if they are the same. -/
theorem trail_eq_of_place_join_eq {base path other : Path} {working : Location}
    (hpath : path.isAbsolute = false) (hother : other.isAbsolute = false)
    (hup : .up ∉ path.segments) (hothers : .up ∉ other.segments)
    (h : (base.join path).place working = (base.join other).place working) :
    path.trail = other.trail := by
  obtain ⟨names, hnames⟩ := exists_names_of_trail hup
  obtain ⟨names', hnames'⟩ := exists_names_of_trail hothers
  rw [place_join_of_relative base hpath hnames, place_join_of_relative base hother hnames'] at h
  rw [hnames, hnames', List.append_cancel_left h]

end Path

namespace FileTree

variable {tree later : FileTree} {here working location : Location} {path : Path}

theorem eq_of_walk {pieces : List (List Char)} (h : tree.walk here pieces = some location) :
    location = (Path.pieceSegments pieces).foldl Segment.follow here := by
  induction pieces generalizing here with
  | nil => exact (Option.some.inj h).symm
  | cons piece pieces ih =>
      rw [walk] at h
      rw [← List.singleton_append, Path.pieceSegments_append, List.foldl_append]
      dsimp only at h
      split_ifs at h with _ htrivial hup
      · have hnone : Path.pieceSegments [piece] = [] :=
          Path.pieceSegments_of_trivial (List.forall_mem_singleton.mpr htrivial)
        rw [hnone]
        exact ih h
      · subst hup
        exact ih h
      · rw [Path.pieceSegments_singleton (Bool.eq_false_iff.mpr htrivial), Segment.ofPiece,
          if_neg hup]
        exact ih h

theorem route?_eq_some {start : Location} {pieces : List (List Char)}
    (h : route? working path = some (start, pieces)) :
    Path.pieceSegments pieces = path.trail ∧
      start = if path.isAbsolute then [] else working := by
  rw [route?] at h
  split_ifs at h
  rw [Path.trail, Path.isAbsolute]
  split at h
  · cases h
  · rename_i rest htext
    cases h
    rw [htext]
    exact ⟨rfl, rfl⟩
  · rename_i cs hcs hroot
    cases h
    refine ⟨rfl, (if_neg ?_).symm⟩
    rw [decide_eq_true_eq, List.head?_eq_some_iff]
    rintro ⟨rest, hrest⟩
    exact hroot rest hrest

theorem eq_place_of_locate? (h : tree.locate? working path = some location) :
    location = path.place working := by
  obtain ⟨⟨start, pieces⟩, hroute, hwalk⟩ := Option.bind_eq_some_iff.mp h
  obtain ⟨hpieces, rfl⟩ := route?_eq_some hroute
  rw [eq_of_walk hwalk, hpieces, Path.place_eq]

/-- Directories stay directories. -/
def Keeps (tree later : FileTree) : Prop :=
  ∀ location, tree.isDirectory location = true → later.isDirectory location = true

theorem Keeps.walk (h : tree.Keeps later) {pieces : List (List Char)}
    (hwalk : tree.walk here pieces = some location) : later.walk here pieces = some location := by
  induction pieces generalizing here with
  | nil => exact hwalk
  | cons piece pieces ih =>
      rw [FileTree.walk] at hwalk ⊢
      by_cases hhere : tree.isDirectory here = true
      · rw [hhere] at hwalk
        rw [h here hhere]
        dsimp only at hwalk ⊢
        split_ifs at hwalk ⊢ with _ htrivial hup hname
        all_goals exact ih hwalk
      · simp [hhere] at hwalk

theorem Keeps.locate? (h : tree.Keeps later) (hpath : tree.locate? working path = some location) :
    later.locate? working path = some location := by
  obtain ⟨⟨start, pieces⟩, hroute, hwalk⟩ := Option.bind_eq_some_iff.mp hpath
  exact Option.bind_eq_some_iff.mpr ⟨_, hroute, h.walk hwalk⟩

/-- Creating directories changes nothing that is there. -/
theorem find?_createAlong {pieces : List (List Char)} {entry : FileEntry}
    (h : tree.find? location = some entry) :
    (tree.createAlong here pieces).2.find? location = some entry := by
  induction pieces generalizing tree here with
  | nil => exact h
  | cons piece pieces ih =>
      rw [createAlong]
      by_cases htrivial : Path.isTrivial piece = true
      · rw [if_pos htrivial]
        exact ih h
      rw [if_neg htrivial]
      by_cases hup : piece = ['.', '.']
      · rw [if_pos hup]
        exact ih h
      rw [if_neg hup]
      dsimp only
      split
      · exact ih h
      · rename_i hnone
        have hother : location ≠ here ++ [String.ofList piece] := by
          rintro rfl
          rw [hnone] at h
          cases h
        split_ifs
        · refine ih ?_
          rw [find?_put tree (List.append_ne_nil_of_right_ne_nil _ (List.cons_ne_nil _ _)),
            if_neg hother, h]
        · exact h
      · exact h

theorem find?_createDirectories {entry : FileEntry} (h : tree.find? location = some entry) :
    (tree.createDirectories working path).2.find? location = some entry := by
  rw [createDirectories]
  split
  · exact find?_createAlong h
  · exact h

end FileTree

/-! ## One file -/

/-- What writing a file has done to a machine. -/
structure Machine.Wrote (before after : Machine) (path : Path) (text : String) : Prop where
  working : after.working = before.working
  keeps : before.files.Keeps after.files
  located : after.files.locate? after.working path = some (path.place before.working)
  written : after.files.find? (path.place before.working) = some (.file text)
  /-- Everything else is as it was. -/
  others : ∀ location entry, location ≠ path.place before.working →
    before.files.find? location = some entry → after.files.find? location = some entry

section Run

variable {before after : Machine} {path : Path} {text : String}

theorem run_write (machine : Machine) (path : Path) (text : String) :
    (Host.write path text : StateM Machine Bool).run machine =
      match machine.files.write? machine.working path text with
      | some files => (true, { machine with files })
      | none => (false, machine) := by
  have hrun : (Host.write path text : StateM Machine Bool).run machine =
      (Machine.replace do
        return { machine with files := ← machine.files.write? machine.working path text }).run
          machine :=
    rfl
  rw [hrun]
  cases machine.files.write? machine.working path text <;> rfl

/-- What a host does is done before anything that depends on its answer. -/
theorem run_lift_bind {σ α β : Type} (x : StateM σ α) (rest : α → Emission (StateM σ) β)
    (world : σ) : ((liftM x : Emission (StateM σ) α) >>= rest).run.run world =
      (rest (x.run world).1).run.run (x.run world).2 :=
  rfl

/-- The machine after the directory of a file has been created, if it has one. -/
def Machine.withDirectory (machine : Machine) (path : Path) : Bool × Machine :=
  if path.parent.text = "" then (true, machine)
  else
    let (created, files) := machine.files.createDirectories machine.working path.parent
    (created, { machine with files })

theorem run_emitToFiles (file : Code.File) (machine : Machine) :
    (emitToFiles file : Emission (StateM Machine) Unit).run.run machine =
      match machine.withDirectory file.path with
      | (false, middle) => (.error (.io (.createDirectory file.path.parent)), middle)
      | (true, middle) =>
        match middle.files.write? middle.working file.path file.text with
        | some files => (.ok (), { middle with files })
        | none => (.error (.io (.writeFile file.path)), middle) := by
  have hwrite : ∀ middle : Machine,
      (do unless ← (Host.write file.path file.text : StateM Machine Bool) do
            throw (.io (.writeFile file.path)) : Emission (StateM Machine) Unit).run.run middle =
        match middle.files.write? middle.working file.path file.text with
        | some files => (.ok (), { middle with files })
        | none => (.error (.io (.writeFile file.path)), middle) := by
    intro middle
    rw [run_lift_bind, run_write]
    cases middle.files.write? middle.working file.path file.text <;> rfl
  rw [emitToFiles, Machine.withDirectory]
  by_cases hnone : file.path.parent.text = ""
  · rw [if_pos hnone]
    simp only [hnone]
    exact hwrite machine
  · rw [if_neg hnone, if_pos hnone, run_lift_bind]
    have hcreate : (Host.createDirectories file.path.parent : StateM Machine Bool).run machine =
        ((machine.files.createDirectories machine.working file.path.parent).1,
          { machine with
            files := (machine.files.createDirectories machine.working file.path.parent).2 }) :=
      rfl
    rw [hcreate]
    rcases machine.files.createDirectories machine.working file.path.parent with ⟨created, files⟩
    cases created with
    | false => rfl
    | true => exact hwrite _

theorem wrote_of_write? {middle : Machine} {files : FileTree}
    (hkept : ∀ location entry, before.files.find? location = some entry →
      middle.files.find? location = some entry) (hworking : middle.working = before.working)
    (hwrite : middle.files.write? before.working path text = some files) :
    before.Wrote { middle with files } path text := by
  obtain ⟨location, hlocated, hput⟩ := Option.bind_eq_some_iff.mp hwrite
  split_ifs at hput with hdirectory
  obtain rfl := Option.some.inj hput
  obtain rfl := FileTree.eq_place_of_locate? hlocated
  have hne : path.place before.working ≠ [] := by
    intro hnil
    rw [hnil] at hdirectory
    exact hdirectory (by simp [FileTree.isDirectory, FileTree.find?])
  have hothers : ∀ location entry, location ≠ path.place before.working →
      middle.files.find? location = some entry →
      (middle.files.put (path.place before.working) (.file text)).find? location = some entry := by
    intro location entry hother hentry
    rw [FileTree.find?_put middle.files hne, if_neg hother, hentry]
  have hkeeps : middle.files.Keeps (middle.files.put (path.place before.working) (.file text)) := by
    intro location hlocation
    have hother : location ≠ path.place before.working := by
      rintro rfl
      exact hdirectory hlocation
    rw [FileTree.isDirectory, decide_eq_true_eq] at hlocation ⊢
    exact hothers location _ hother hlocation
  refine ⟨hworking, fun location hlocation ↦ hkeeps location ?_, ?_, ?_, ?_⟩
  · rw [FileTree.isDirectory, decide_eq_true_eq] at hlocation ⊢
    exact hkept location _ hlocation
  · rw [hworking]
    exact hkeeps.locate? hlocated
  · rw [FileTree.find?_put middle.files hne, if_pos rfl]
  · intro location entry hother hentry
    exact hothers location entry hother (hkept location entry hentry)

theorem wrote_of_emitToFiles {file : Code.File} {u : Unit}
    (h : (emitToFiles file : Emission (StateM Machine) Unit).run.run before = (.ok u, after)) :
    before.Wrote after file.path file.text := by
  rw [run_emitToFiles] at h
  have hkept : ∀ location entry, before.files.find? location = some entry →
      (before.withDirectory file.path).2.files.find? location = some entry := by
    intro location entry hentry
    rw [Machine.withDirectory]
    split_ifs
    · exact hentry
    · exact FileTree.find?_createDirectories hentry
  have hworking : (before.withDirectory file.path).2.working = before.working := by
    rw [Machine.withDirectory]
    split_ifs <;> rfl
  generalize before.withDirectory file.path = prepared at h hkept hworking
  obtain ⟨created, middle⟩ := prepared
  cases created with
  | false => cases h
  | true =>
      dsimp only at h hkept hworking
      cases hwrite : middle.files.write? middle.working file.path file.text with
      | none =>
          rw [hwrite] at h
          cases h
      | some files =>
          rw [hwrite] at h
          cases h
          rw [hworking] at hwrite
          exact wrote_of_write? hkept hworking hwrite

end Run

/-- The files with a place, in order. -/
def filesAt (working place : Location) (files : List Code.File) : List Code.File :=
  files.filter fun file ↦ file.path.place working = place

theorem filesAt_cons (working place : Location) (file : Code.File) (files : List Code.File) :
    filesAt working place (file :: files) =
      (if file.path.place working = place then [file] else []) ++ filesAt working place files := by
  rw [filesAt, List.filter_cons]
  by_cases h : file.path.place working = place
  · simp [h, filesAt]
  · simp [h, filesAt]

theorem filesAt_of_pairwise {working : Location} {files : List Code.File} {file : Code.File}
    (h : files.Pairwise fun a b ↦ a.path.place working ≠ b.path.place working)
    (hfile : file ∈ files) : filesAt working (file.path.place working) files = [file] := by
  induction files with
  | nil => cases hfile
  | cons first files ih =>
      obtain ⟨hfirst, hrest⟩ := List.pairwise_cons.mp h
      rw [filesAt_cons]
      rcases List.mem_cons.mp hfile with rfl | hlater
      · have hnone : filesAt working (file.path.place working) files = [] :=
          List.filter_eq_nil_iff.mpr fun other hother ↦ by simpa using (hfirst other hother).symm
        rw [if_pos rfl, hnone, List.append_nil]
      · rw [if_neg (hfirst file hlater), ih hrest hlater, List.nil_append]

/-- What writing files one after the other has done to a machine. -/
structure Machine.WroteAll (before after : Machine) (files : List Code.File) : Prop where
  working : after.working = before.working
  keeps : before.files.Keeps after.files
  located : ∀ file ∈ files,
    after.files.locate? after.working file.path = some (file.path.place before.working)
  /-- The last file of a place stays. -/
  written : ∀ place last, (filesAt before.working place files).getLast? = some last →
    after.files.find? place = some (.file last.text)
  others : ∀ place entry, filesAt before.working place files = [] →
    before.files.find? place = some entry → after.files.find? place = some entry

theorem wroteAll_nil (machine : Machine) : machine.WroteAll machine [] where
  working := rfl
  keeps := fun _ h ↦ h
  located := List.forall_mem_nil _
  written := by
    intro place last h
    cases h
  others := fun _ _ _ h ↦ h

theorem Machine.Wrote.cons {before middle after : Machine} {file : Code.File}
    {files : List Code.File} (hfirst : before.Wrote middle file.path file.text)
    (hrest : middle.WroteAll after files) : before.WroteAll after (file :: files) where
  working := hrest.working.trans hfirst.working
  keeps := fun location h ↦ hrest.keeps location (hfirst.keeps location h)
  located := by
    have hworking := hrest.working
    have hlater := hrest.located
    rw [hfirst.working] at hworking hlater
    refine List.forall_mem_cons.mpr ⟨?_, hlater⟩
    have hown := hrest.keeps.locate? hfirst.located
    rw [hworking]
    rwa [hfirst.working] at hown
  written := by
    intro place last hlast
    have hwritten := hrest.written place
    have hothers := hrest.others place
    rw [hfirst.working] at hwritten hothers
    rw [filesAt_cons] at hlast
    by_cases hnone : filesAt before.working place files = []
    · rw [hnone, List.append_nil] at hlast
      split_ifs at hlast with hplace
      · obtain rfl := Option.some.inj hlast
        exact hothers _ hnone (hplace ▸ hfirst.written)
      · cases hlast
    · rw [List.getLast?_append, Option.or_of_isSome (List.getLast?_isSome.mpr hnone)] at hlast
      exact hwritten last hlast
  others := by
    intro place entry hnone hentry
    rw [filesAt_cons] at hnone
    obtain ⟨hown, hlater⟩ := List.append_eq_nil_iff.mp hnone
    split_ifs at hown with hplace
    rw [← hfirst.working] at hlater
    exact hrest.others place entry hlater (hfirst.others place entry (Ne.symm hplace) hentry)

theorem wroteAll_of_emitAll {files : List Code.File} {before after : Machine} {u : Unit}
    (h : (emitAll emitToFiles files : Emission (StateM Machine) Unit).run.run before =
      (.ok u, after)) : before.WroteAll after files := by
  induction files generalizing before with
  | nil =>
      cases h
      exact wroteAll_nil _
  | cons file files ih =>
      rw [emitAll, ExceptT.run_bind, StateT.run_bind] at h
      rcases hfirst : (emitToFiles file : Emission (StateM Machine) Unit).run.run before with
        ⟨⟨problem⟩ | ⟨⟨⟩⟩, middle⟩
      · rw [hfirst] at h
        cases h
      · rw [hfirst] at h
        exact (wrote_of_emitToFiles hfirst).cons (ih h)

/-- A file reads as the last one that was written to its place. -/
theorem Machine.WroteAll.read? {before after : Machine} {files : List Code.File}
    (h : before.WroteAll after files) {file : Code.File} (hfile : file ∈ files) :
    after.read? file.path =
      (filesAt before.working (file.path.place before.working) files).getLast?.map
        Code.File.text := by
  have hmem : file ∈ filesAt before.working (file.path.place before.working) files :=
    List.mem_filter.mpr ⟨hfile, decide_eq_true rfl⟩
  obtain ⟨last, hlast⟩ := Option.ne_none_iff_exists'.mp
    (List.getLast?_eq_none_iff.not.mpr (List.ne_nil_of_mem hmem))
  have hentry : after.entryAt? file.path = some (.file last.text) := by
    rw [Machine.entryAt?, FileTree.entryAt?, h.located file hfile]
    exact h.written _ last hlast
  rw [Machine.read?, hentry, hlast]
  rfl

end Wiring
