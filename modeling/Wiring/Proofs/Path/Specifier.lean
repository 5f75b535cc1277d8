import Mathlib.Data.List.TakeDrop
import Wiring.Proofs.Path.Stepwise

/-!
# Import specifiers

A specifier climbs out of the directory and goes down to the source.  It leads to the source as long
as it does not have to climb out of a step upwards.  Towards a source below the directory it goes
down only, and then it does not start with a dot.
-/

namespace Wiring.Path

theorem exists_common (leave enter : List String) : ∃ common,
    leave = common ++ (dropCommon leave enter).1 ∧
      enter = common ++ (dropCommon leave enter).2 := by
  induction leave generalizing enter with
  | nil => cases enter <;> exact ⟨[], rfl, rfl⟩
  | cons step leave ih =>
      cases enter with
      | nil => exact ⟨[], rfl, rfl⟩
      | cons other enter =>
          rw [dropCommon]
          split_ifs with heq
          · obtain ⟨common, hleave, henter⟩ := ih enter
            exact ⟨step :: common, congrArg (List.cons step) hleave,
              heq ▸ congrArg (List.cons step) henter⟩
          · exact ⟨[], rfl, rfl⟩

theorem dropCommon_append (common leave enter : List String) :
    dropCommon (common ++ leave) (common ++ enter) = dropCommon leave enter := by
  induction common with
  | nil => rfl
  | cons step common ih => rw [List.cons_append, List.cons_append, dropCommon, if_pos rfl, ih]

/-- A step of a normalised path. -/
def IsStep (step : String) : Prop :=
  step = "/" ∨ step = ".." ∨ IsName step

theorem Front.isStep {start : Location} {front : List String} (h : Front start front) :
    ∀ step ∈ front, IsStep step := by
  cases h with
  | root => exact List.forall_mem_singleton.mpr (.inl rfl)
  | up _ count => exact fun step hstep ↦ .inr (.inl (List.eq_of_mem_replicate hstep))

theorem isStep_of_mem_normalized {path : Path} {step : String} (h : step ∈ path.normalized) :
    IsStep step := by
  obtain ⟨front, names, hnormalized, hnames, hfront⟩ := exists_front [] path
  rw [hnormalized] at h
  rcases List.mem_append.mp h with hmem | hmem
  · exact hfront.isStep step hmem
  · exact .inr (.inr (hnames step hmem))

theorem foldl_follow_step {step : String} (h : IsStep step) (here : Location) :
    (trail ⟨step⟩).foldl Segment.follow here = descend here step := by
  rcases h with rfl | rfl | hname
  · rfl
  · exact (descend_up here).symm
  · have htrail : (Path.mk step).trail = [.name step] := by
      have hup : step.toList ≠ ['.', '.'] := fun heq ↦
        hname.up (String.toList_inj.mp heq)
      rw [trail, splitSlash_of_slash_not_mem hname.slash, pieceSegments_singleton hname.visible,
        Segment.ofPiece, if_neg hup, String.ofList_toList]
    rw [htrail, hname.descend]
    rfl

theorem trail_append_slash (before after : String) :
    trail ⟨before ++ "/" ++ after⟩ = trail ⟨before⟩ ++ trail ⟨after⟩ := by
  have htext : (before ++ "/" ++ after).toList = before.toList ++ '/' :: after.toList := by
    rw [String.toList_append, String.toList_append, List.append_assoc]
    rfl
  rw [trail, htext, splitSlash_append, pieceSegments_append]
  rfl

/-- Steps with slashes between them are read back. -/
theorem foldl_follow_intercalate {steps : List String} (h : ∀ step ∈ steps, IsStep step)
    (here : Location) :
    (trail ⟨"/".intercalate steps⟩).foldl Segment.follow here = steps.foldl descend here := by
  induction steps generalizing here with
  | nil => rfl
  | cons step steps ih =>
      obtain ⟨hstep, hsteps⟩ := List.forall_mem_cons.mp h
      cases steps with
      | nil =>
          rw [String.intercalate_singleton]
          exact foldl_follow_step hstep here
      | cons next later =>
          rw [String.intercalate_cons_cons, trail_append_slash, List.foldl_append,
            foldl_follow_step hstep, ih hsteps]
          rfl

/-! ## What a specifier consists of -/

/-- The steps from a directory to another one. -/
def between (directory target : Path) : List String :=
  (dropCommon directory.normalized target.normalized).1.map (fun _ ↦ "..") ++
    (dropCommon directory.normalized target.normalized).2

theorem relative_eq (directory target : Path) :
    directory.relative target = "/".intercalate (directory.between target) :=
  rfl

theorem isStep_of_mem_between {directory target : Path} {step : String}
    (h : step ∈ directory.between target) : IsStep step := by
  rcases List.mem_append.mp h with hup | hdown
  · obtain ⟨_, -, rfl⟩ := List.mem_map.mp hup
    exact .inr (.inl rfl)
  · obtain ⟨common, -, htarget⟩ := exists_common directory.normalized target.normalized
    have hmem : step ∈ target.normalized := by
      rw [htarget]
      exact List.mem_append_right common hdown
    exact isStep_of_mem_normalized hmem

theorem splitExtension_subset (name : List Char) : (splitExtension name).1 ⊆ name := by
  rw [splitExtension]
  split
  · exact List.Subset.refl name
  · exact List.Subset.refl name
  · next after dot before _ hsplit =>
      rw [List.span_eq_takeWhile_dropWhile] at hsplit
      have hdrop : name.reverse.dropWhile (· != '.') = dot :: before := congrArg Prod.snd hsplit
      intro c hc
      have hmem : c ∈ name.reverse.dropWhile (· != '.') :=
        hdrop ▸ List.mem_cons_of_mem dot (List.mem_reverse.mp hc)
      exact List.mem_reverse.mp ((List.dropWhile_sublist _).subset hmem)

theorem isName_of_fileStem? {source : Path} {stem : String} (h : source.fileStem? = some stem) :
    IsName (stem ++ ".js") := by
  obtain ⟨name, hname, rfl⟩ := Option.map_eq_some_iff.mp h
  obtain ⟨hslash, -, -⟩ := piece_of_fileName? hname
  generalize hstem : (splitExtension name.toList).1 = stem
  have htext : (String.ofList stem ++ ".js").toList = stem ++ ['.', 'j', 's'] := by
    rw [String.toList_append, String.toList_ofList]
    rfl
  have hlength : 3 ≤ (String.ofList stem ++ ".js").toList.length := by simp [htext]
  refine ⟨?_, ?_, ?_⟩
  · rw [htext, List.mem_append, not_or]
    exact ⟨fun hmem ↦ hslash (splitExtension_subset _ (hstem ▸ hmem)), by decide⟩
  · rw [isTrivial, Bool.or_eq_false_iff]
    refine ⟨decide_eq_false fun heq ↦ ?_, decide_eq_false fun heq ↦ ?_⟩ <;> simp [heq] at hlength
  · intro heq
    simp [heq] at hlength

theorem IsStep.toList_ne_nil {step : String} (h : IsStep step) : step.toList ≠ [] := by
  rcases h with rfl | rfl | hname
  · decide
  · decide
  · intro hnil
    have hvisible := hname.visible
    rw [hnil] at hvisible
    exact Bool.noConfusion hvisible

/-- A step is in front of the text, with a slash behind it. -/
theorem exists_intercalate_cons (step : String) (steps : List String) (file : String) :
    ∃ later, ("/".intercalate (step :: steps) ++ "/" ++ file).toList =
      step.toList ++ '/' :: later := by
  cases steps with
  | nil =>
      refine ⟨file.toList, ?_⟩
      rw [String.intercalate_singleton, String.toList_append, String.toList_append,
        List.append_assoc]
      rfl
  | cons next others =>
      refine ⟨("/".intercalate (next :: others) ++ "/" ++ file).toList, ?_⟩
      rw [String.intercalate_cons_cons, String.append_assoc, String.append_assoc,
        String.toList_append, String.toList_append, ← String.append_assoc, List.append_assoc]
      rfl

theorem importSpecifier_cases (directory : Path) {source : Path} {stem : String}
    (h : source.fileStem? = some stem) :
    directory.between source.parent = [] ∧
        importSpecifier directory source = .ok ("." ++ "/" ++ (stem ++ ".js")) ∨
      directory.between source.parent ≠ [] ∧ importSpecifier directory source =
        .ok ("/".intercalate (directory.between source.parent) ++ "/" ++ (stem ++ ".js")) := by
  rw [importSpecifier, h]
  dsimp only
  split
  · next hempty =>
      have hdot : "./" ++ stem ++ ".js" = "." ++ "/" ++ (stem ++ ".js") := String.append_assoc
      refine .inl ⟨?_, congrArg Except.ok hdot⟩
      by_contra hne
      obtain ⟨step, steps, hsteps⟩ := List.exists_cons_of_ne_nil hne
      have hstep : IsStep step := isStep_of_mem_between (hsteps ▸ List.mem_cons_self)
      obtain ⟨later, hlater⟩ := exists_intercalate_cons step steps ""
      rw [← hsteps, ← relative_eq, hempty] at hlater
      have hlength := congrArg List.length hlater
      have hpositive := List.length_pos_iff.mpr hstep.toList_ne_nil
      simp at hlength
      omega
  · next hne =>
      refine .inr ⟨fun hnil ↦ hne ?_, congrArg Except.ok String.append_assoc⟩
      rw [relative_eq, hnil]
      rfl

/-- A specifier is followed by its steps, with the file behind them. -/
theorem foldl_follow_of_importSpecifier {directory source : Path} {stem specifier : String}
    (hstem : source.fileStem? = some stem) (h : importSpecifier directory source = .ok specifier)
    (here : Location) : (trail ⟨specifier⟩).foldl Segment.follow here =
      (directory.between source.parent).foldl descend here ++ [stem ++ ".js"] := by
  have hfile : ∀ here, (trail ⟨stem ++ ".js"⟩).foldl Segment.follow here =
      here ++ [stem ++ ".js"] := by
    intro here
    have hname := isName_of_fileStem? hstem
    rw [foldl_follow_step (.inr (.inr hname)), hname.descend]
  rcases importSpecifier_cases directory hstem with ⟨hnil, htext⟩ | ⟨-, htext⟩
  · obtain rfl := Except.ok.inj (h.symm.trans htext)
    rw [hnil, trail_append_slash, List.foldl_append, hfile]
    rfl
  · obtain rfl := Except.ok.inj (h.symm.trans htext)
    rw [trail_append_slash, List.foldl_append, hfile,
      foldl_follow_intercalate fun _ ↦ isStep_of_mem_between]

/-- The specifier is relative to the file that it stands in, rather than the name of a package. -/
def Dotted (specifier : String) : Prop :=
  "./".toList <+: specifier.toList ∨ "../".toList <+: specifier.toList

instance (specifier : String) : Decidable (Dotted specifier) :=
  inferInstanceAs (Decidable (_ ∨ _))

/-- A path goes on downwards where the directory ends. -/
def Below (directory target : Path) : Prop :=
  ∃ step later, step ≠ ".." ∧ target.normalized = directory.normalized ++ step :: later

theorem normalized_of_between {directory target : Path} {step : String} {later : List String}
    (hstep : step ≠ "..") (h : directory.between target = step :: later) :
    target.normalized = directory.normalized ++ step :: later := by
  obtain ⟨common, hdirectory, htarget⟩ :=
    exists_common directory.normalized target.normalized
  rw [between] at h
  cases hleave : (dropCommon directory.normalized target.normalized).1 with
  | nil =>
      rw [hleave, List.map_nil, List.nil_append] at h
      rw [hleave, List.append_nil] at hdirectory
      rwa [h, ← hdirectory] at htarget
  | cons left leave =>
      rw [hleave, List.map_cons, List.cons_append] at h
      exact absurd (List.cons.inj h).1.symm hstep

theorem below_iff {directory target : Path} : Below directory target ↔
    ∃ step later, step ≠ ".." ∧ directory.between target = step :: later := by
  constructor
  · rintro ⟨step, later, hstep, hbelow⟩
    have hsplit := dropCommon_append directory.normalized [] (step :: later)
    rw [List.append_nil, ← hbelow] at hsplit
    exact ⟨step, later, hstep, by rw [between, hsplit]; rfl⟩
  · rintro ⟨step, later, hstep, hbetween⟩
    exact ⟨step, later, hstep, normalized_of_between hstep hbetween⟩

theorem not_dotted_of_step {step specifier : String} {later : List Char} (h : IsStep step)
    (hup : step ≠ "..") (htext : specifier.toList = step.toList ++ '/' :: later) :
    ¬ Dotted specifier := by
  rcases h with rfl | rfl | hname
  · rw [Dotted, htext]
    simp
  · exact absurd rfl hup
  · have hslash := hname.slash
    have hvisible := hname.visible
    have hdots : step.toList ≠ ['.', '.'] := fun heq ↦ hup (String.toList_inj.mp heq)
    rw [Dotted, htext]
    generalize step.toList = cs at hslash hvisible hdots
    -- Otherwise the name would have to be one dot or two dots.
    rintro (⟨rest, hrest⟩ | ⟨rest, hrest⟩)
    all_goals replace hrest := hrest.symm
    all_goals rcases cs with _ | ⟨c, _ | ⟨d, _ | ⟨e, cs⟩⟩⟩ <;> simp_all [isTrivial]

theorem dotted_iff {directory source : Path} {stem specifier : String}
    (hstem : source.fileStem? = some stem) (h : importSpecifier directory source = .ok specifier) :
    Dotted specifier ↔ ¬ Below directory source.parent := by
  rw [below_iff]
  rcases importSpecifier_cases directory hstem with ⟨hnil, htext⟩ | ⟨hne, htext⟩
  · obtain rfl := Except.ok.inj (h.symm.trans htext)
    have hdotted : Dotted ("." ++ "/" ++ (stem ++ ".js")) := by
      left
      rw [String.toList_append]
      exact List.prefix_append _ _
    exact iff_of_true hdotted (by simp [hnil])
  · obtain rfl := Except.ok.inj (h.symm.trans htext)
    obtain ⟨step, later, hsteps⟩ := List.exists_cons_of_ne_nil hne
    have hstep : IsStep step := isStep_of_mem_between (hsteps ▸ List.mem_cons_self)
    obtain ⟨more, hmore⟩ := exists_intercalate_cons step later (stem ++ ".js")
    rw [hsteps]
    by_cases hup : step = ".."
    · have hdotted : Dotted ("/".intercalate (step :: later) ++ "/" ++ (stem ++ ".js")) := by
        right
        rw [hmore, hup]
        exact ⟨more, rfl⟩
      exact iff_of_true hdotted (by simp [hup])
    · have hbare := not_dotted_of_step hstep hup hmore
      exact iff_of_false hbare (by simp [hup])

section

variable {directory target : Path} {working : Location}

theorem foldl_descend_between (here : Location) :
    (directory.between target).foldl descend here =
      (dropCommon directory.normalized target.normalized).2.foldl descend (here.take
        (here.length - (dropCommon directory.normalized target.normalized).1.length)) := by
  rw [between, List.map_const', List.foldl_append, foldl_descend_up]

/-- Out of names the steps lead back to where these start. -/
theorem between_of_names (hstart : directory.start working = target.start working)
    (hleave : ∀ step ∈ (dropCommon directory.normalized target.normalized).1, IsName step) :
    (directory.between target).foldl descend (directory.place working) =
      target.place working := by
  obtain ⟨common, hdirectory, htarget⟩ :=
    exists_common directory.normalized target.normalized
  rw [foldl_descend_between]
  generalize (dropCommon directory.normalized target.normalized).1 = leave at *
  generalize (dropCommon directory.normalized target.normalized).2 = enter at *
  have hplace : directory.place working =
      common.foldl descend (directory.start working) ++ leave := by
    rw [← foldl_descend_normalized, hdirectory, List.foldl_append, foldl_descend_names hleave]
  have hback : (directory.place working).take ((directory.place working).length - leave.length) =
      common.foldl descend (directory.start working) := by
    rw [hplace, List.length_append, Nat.add_sub_cancel, List.take_left]
  rw [hback, hstart, ← List.foldl_append, ← htarget, foldl_descend_normalized]

theorem Front.foldl_descend {start : Location} {front : List String} (h : Front start front)
    {steps : List String} (hsteps : steps ⊆ front) : steps.foldl descend [] = [] := by
  have hstay : ∀ step ∈ steps, descend [] step = [] := by
    intro step hstep
    have hmem := hsteps hstep
    cases h with
    | root => rw [List.mem_singleton.mp hmem]; rfl
    | up _ count => rw [List.eq_of_mem_replicate hmem]; rfl
  clear hsteps
  induction steps with
  | nil => rfl
  | cons step steps ih =>
      obtain ⟨hstep, hrest⟩ := List.forall_mem_cons.mp hstay
      rw [List.foldl_cons, hstep, ih hrest]

/-- From the root the steps lead back to the root at least, which is above everything. -/
theorem between_of_root (hdirectory : directory.start working = [])
    (htarget : target.start working = []) :
    (directory.between target).foldl descend (directory.place working) =
      target.place working := by
  obtain ⟨front, names, hnormalized, hnames, hfront⟩ := exists_front working directory
  obtain ⟨common, hleave, henter⟩ := exists_common directory.normalized target.normalized
  rcases List.append_eq_append_iff.mp (hnormalized.symm.trans hleave) with
    ⟨more, -, hmore⟩ | ⟨more, hmore, -⟩
  · exact between_of_names (hdirectory.trans htarget.symm) fun step hstep ↦
      hnames step (hmore ▸ List.mem_append_right more hstep)
  · have hcommon : common.foldl descend [] = [] :=
      hfront.foldl_descend (hmore ▸ List.subset_append_left common more)
    have hlength : (directory.place working).length ≤
        (dropCommon directory.normalized target.normalized).1.length := by
      rw [← foldl_descend_normalized, hdirectory, hleave, List.foldl_append, hcommon, ← hleave]
      simpa using length_foldl_descend_le
        (dropCommon directory.normalized target.normalized).1 []
    have hplace := foldl_descend_normalized working target
    rw [htarget, henter, List.foldl_append, hcommon] at hplace
    rw [foldl_descend_between, Nat.sub_eq_zero_of_le hlength, List.take_zero, hplace]

/-! ## Relative paths -/

/-- How many steps a path leads upwards before it leads anywhere else. -/
def rises (path : Path) : ℕ :=
  path.normalized.count ".."

theorem exists_names_of_relative {path : Path} (h : path.isAbsolute = false) : ∃ names,
    path.normalized = List.replicate path.rises ".." ++ names ∧ ∀ name ∈ names, IsName name := by
  obtain ⟨front, names, hnormalized, hnames, hfront⟩ := exists_front ["here"] path
  have hstart : path.start ["here"] = ["here"] := by rw [start, h]; rfl
  rw [hstart] at hfront
  cases hfront with
  | up _ count =>
      have hnone : names.count ".." = 0 :=
        List.count_eq_zero.mpr fun hmem ↦ (hnames _ hmem).up rfl
      have hrises : path.rises = count := by
        rw [rises, hnormalized, List.count_append, List.count_replicate_self, hnone]
        rfl
      exact ⟨names, hrises ▸ hnormalized, hnames⟩

theorem place_of_relative {path : Path} (h : path.isAbsolute = false) {names : List String}
    (hnormalized : path.normalized = List.replicate path.rises ".." ++ names)
    (hnames : ∀ name ∈ names, IsName name) (working : Location) :
    path.place working = working.take (working.length - path.rises) ++ names := by
  rw [← foldl_descend_normalized, start, h, hnormalized, List.foldl_append, foldl_descend_up,
    foldl_descend_names hnames]
  rfl

theorem dropCommon_up {leave enter : List String} (henter : ∀ name ∈ enter, IsName name) :
    dropCommon (".." :: leave) enter = (".." :: leave, enter) := by
  cases enter with
  | nil => rfl
  | cons name enter =>
      have hname := (henter name List.mem_cons_self).up
      rw [dropCommon, if_neg hname.symm]

/-- Out of a step upwards no step leads back. -/
theorem between_of_relative_iff (hdirectory : directory.isAbsolute = false)
    (htarget : target.isAbsolute = false) :
    (∀ working, (directory.between target).foldl descend (directory.place working) =
      target.place working) ↔ directory.rises ≤ target.rises := by
  obtain ⟨leave, hleave, hleaveNames⟩ := exists_names_of_relative hdirectory
  obtain ⟨enter, henter, henterNames⟩ := exists_names_of_relative htarget
  constructor
  · intro h
    by_contra hlt
    obtain ⟨more, hmore⟩ := Nat.exists_eq_add_of_lt (Nat.lt_of_not_le hlt)
    have hdrop : dropCommon directory.normalized target.normalized =
        (List.replicate (more + 1) ".." ++ leave, enter) := by
      rw [hleave, henter, hmore, Nat.add_assoc, ← List.replicate_append_replicate,
        List.append_assoc, dropCommon_append, List.replicate_succ, List.cons_append, dropCommon_up henterNames]
    have hlength := congrArg List.length
      (h (List.replicate (2 * directory.rises) "directory"))
    rw [foldl_descend_between, hdrop, foldl_descend_names henterNames,
      place_of_relative hdirectory hleave hleaveNames,
      place_of_relative htarget henter henterNames] at hlength
    simp at hlength
    omega
  · intro hle working
    refine between_of_names (by rw [start, start, hdirectory, htarget]) fun step hstep ↦ ?_
    obtain ⟨more, hmore⟩ := Nat.exists_eq_add_of_le hle
    rw [hleave, henter, hmore, ← List.replicate_append_replicate, List.append_assoc,
      dropCommon_append] at hstep
    obtain ⟨common, hcommon, -⟩ := exists_common leave (List.replicate more ".." ++ enter)
    exact hleaveNames step (hcommon ▸ List.mem_append_right common hstep)

theorem place_join (directory path : Path) (working : Location) :
    (directory.join path).place working = path.trail.foldl Segment.follow
      (if path.isAbsolute then [] else directory.place working) := by
  by_cases hpath : path.isAbsolute = true
  · rw [join_of_isAbsolute hpath, place_eq, if_pos hpath, if_pos hpath]
  · rw [if_neg hpath]
    by_cases hempty : directory.text.toList = []
    · have hhere : directory.place working = working := by
        rw [place, segments_of_empty hempty]
        rfl
      rw [join_of_empty hempty, place_eq, if_neg hpath, hhere]
    · rw [place, segments_join hempty (Bool.eq_false_iff.mpr hpath), List.foldl_append]
      rfl

theorem isAbsolute_of_root_mem {path : Path} (h : "/" ∈ path.normalized) :
    path.isAbsolute = true ∧ ∃ names, path.normalized = "/" :: names ∧
      ∀ name ∈ names, IsName name := by
  obtain ⟨front, names, hnormalized, hnames, hfront⟩ := exists_front ["here"] path
  have hmem : "/" ∈ front := by
    rw [hnormalized] at h
    exact (List.mem_append.mp h).resolve_right fun hmem ↦ (hnames _ hmem).ne_root rfl
  generalize hstart : path.start ["here"] = here at hfront
  cases hfront with
  | root =>
      refine ⟨?_, names, hnormalized, hnames⟩
      by_contra habsolute
      rw [start, if_neg habsolute] at hstart
      cases hstart
  | up _ count => exact absurd (List.eq_of_mem_replicate hmem) (by decide)

/-- Only from the root a specifier leads on by starting at the root. -/
theorem place_of_isAbsolute_importSpecifier {directory source : Path} {stem specifier : String}
    (hkind : directory.isAbsolute = source.parent.isAbsolute)
    (hstem : source.fileStem? = some stem) (h : importSpecifier directory source = .ok specifier)
    (habsolute : (Path.mk specifier).isAbsolute = true) (working : Location) :
    directory.place working = [] := by
  obtain ⟨rest, hrest⟩ := isAbsolute_iff.mp habsolute
  rcases importSpecifier_cases directory hstem with ⟨-, htext⟩ | ⟨hne, htext⟩
  · obtain rfl := Except.ok.inj (h.symm.trans htext)
    rw [String.toList_append] at hrest
    exact absurd (List.cons.inj hrest).1 (by decide)
  · obtain rfl := Except.ok.inj (h.symm.trans htext)
    obtain ⟨step, later, hsteps⟩ := List.exists_cons_of_ne_nil hne
    have hstep : IsStep step := isStep_of_mem_between (hsteps ▸ List.mem_cons_self)
    obtain ⟨more, hmore⟩ := exists_intercalate_cons step later (stem ++ ".js")
    rw [hsteps, hmore] at hrest
    have hroot : step = "/" := by
      obtain rfl | rfl | hname := hstep
      · rfl
      · exact absurd (List.cons.inj hrest).1 (by decide)
      · obtain ⟨c, cs, hc⟩ := List.exists_cons_of_ne_nil (IsStep.toList_ne_nil (.inr (.inr hname)))
        rw [hc] at hrest
        exact absurd (hc ▸ (List.cons.inj hrest).1 ▸ List.mem_cons_self) hname.slash
    subst hroot
    have htarget := normalized_of_between (by decide) hsteps
    have hmem : "/" ∈ source.parent.normalized :=
      htarget ▸ List.mem_append_right _ List.mem_cons_self
    obtain ⟨hfromRoot, names, hnormalized, hnames⟩ := isAbsolute_of_root_mem hmem
    have hnone : directory.normalized = [] := by
      rw [hnormalized] at htarget
      rcases List.cons_eq_append_iff.mp htarget with ⟨hnil, -⟩ | ⟨more, -, hmore⟩
      · exact hnil
      · have hinside : "/" ∈ names := hmore ▸ List.mem_append_right more List.mem_cons_self
        exact absurd rfl (hnames _ hinside).ne_root
    rw [← foldl_descend_normalized, hnone, start, if_pos (hkind.trans hfromRoot)]
    rfl

theorem place_join_importSpecifier {directory source : Path} {stem specifier : String}
    (hkind : directory.isAbsolute = source.parent.isAbsolute)
    (hstem : source.fileStem? = some stem) (h : importSpecifier directory source = .ok specifier)
    (working : Location) : (directory.join ⟨specifier⟩).place working =
      (directory.between source.parent).foldl descend (directory.place working) ++
        [stem ++ ".js"] := by
  rw [place_join, ← foldl_follow_of_importSpecifier hstem h]
  split_ifs with habsolute
  · rw [place_of_isAbsolute_importSpecifier hkind hstem h habsolute]
  · rfl

theorem isAbsolute_parent {source : Path} {name : String} (h : source.fileName? = some name) :
    source.parent.isAbsolute = source.isAbsolute := by
  rw [Bool.eq_iff_iff, ← root_mem_segments, ← root_mem_segments, segments_of_fileName? h]
  simp

/-- The specifier of a source starts with a dot unless the source is below the directory.  It leads
to the source from wherever both are seen, unless both are relative and the directory leads further
upwards than the source. -/
theorem importSpecifier_leads_iff {directory source : Path} {name : String}
    (hname : source.fileName? = some name) (hkind : directory.isAbsolute = source.isAbsolute) :
    ∃ stem specifier, source.fileStem? = some stem ∧
      importSpecifier directory source = .ok specifier ∧
      (Dotted specifier ↔ ¬ Below directory source.parent) ∧
      ((∀ working, (directory.join ⟨specifier⟩).place working =
          source.parent.place working ++ [stem ++ ".js"]) ↔
        directory.isAbsolute = true ∨ directory.rises ≤ source.parent.rises) := by
  obtain ⟨stem, hstem⟩ : ∃ stem, source.fileStem? = some stem := by
    rw [fileStem?, hname]
    exact ⟨_, rfl⟩
  obtain ⟨specifier, hspecifier⟩ : ∃ specifier,
      importSpecifier directory source = .ok specifier := by
    rcases importSpecifier_cases directory hstem with ⟨-, h⟩ | ⟨-, h⟩ <;> exact ⟨_, h⟩
  have hparent : directory.isAbsolute = source.parent.isAbsolute :=
    hkind.trans (isAbsolute_parent hname).symm
  refine ⟨stem, specifier, hstem, hspecifier, dotted_iff hstem hspecifier, ?_⟩
  simp only [place_join_importSpecifier hparent hstem hspecifier, List.append_cancel_right_eq]
  cases habsolute : directory.isAbsolute with
  | true =>
      rw [habsolute] at hparent
      refine iff_of_true (fun working ↦ ?_) (.inl rfl)
      exact between_of_root (if_pos habsolute) (if_pos hparent.symm)
  | false =>
      rw [habsolute] at hparent
      simpa using between_of_relative_iff habsolute hparent.symm

theorem modulesBeside_leads :
    ¬ Below ⟨"src/gen"⟩ (Path.mk "src/modules/storage.ts").parent ∧ ∀ working,
      (Path.join ⟨"src/gen"⟩ ⟨"../modules/storage.js"⟩).place working =
        (Path.mk "src/modules/storage.ts").parent.place working ++ ["storage.js"] := by
  have hname : (Path.mk "src/modules/storage.ts").fileName? = some "storage.ts" := by decide
  obtain ⟨stem, specifier, hstem, hspecifier, hdotted, hleads⟩ :=
    @importSpecifier_leads_iff ⟨"src/gen"⟩ _ _ hname (by decide)
  have hown : (Path.mk "src/modules/storage.ts").fileStem? = some "storage" := by decide
  have htext : importSpecifier ⟨"src/gen"⟩ ⟨"src/modules/storage.ts"⟩ =
      .ok "../modules/storage.js" := by decide
  obtain rfl := Option.some.inj (hown.symm.trans hstem)
  obtain rfl := Except.ok.inj (htext.symm.trans hspecifier)
  exact ⟨hdotted.mp (by decide), hleads.mpr (.inr (by decide))⟩

/-- Towards a source below the directory the specifier is the name of a package. -/
theorem importSpecifier_below :
    importSpecifier ⟨"src/gen"⟩ ⟨"src/gen/deep/mod.ts"⟩ = .ok "deep/mod.js" ∧
      ¬ Dotted "deep/mod.js" := by
  decide

/-- Out of a directory above the working one the specifier leads above it. -/
theorem importSpecifier_above :
    importSpecifier ⟨"../app/gen"⟩ ⟨"lib/mod.ts"⟩ = .ok "../../../lib/mod.js" ∧
      (Path.join ⟨"../app/gen"⟩ ⟨"../../../lib/mod.js"⟩).place ["home", "work"] =
        ["lib", "mod.js"] ∧
      (Path.mk "lib/mod.ts").parent.place ["home", "work"] = ["home", "work", "lib"] := by
  decide

end

end Wiring.Path
