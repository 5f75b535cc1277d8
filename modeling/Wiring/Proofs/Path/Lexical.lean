import Wiring.Proofs.Path.Segments

/-!
# Places of paths

Two paths may be different and denote the same place: dots do not lead anywhere, and a step upwards
leads back from the name before it.  Settling the segments of a path removes both, so paths with the
same settled segments denote the same place whatever the directories are.
-/

namespace Wiring

/-- Adds a segment to settled ones, the last of which comes first. -/
def Path.settle (before : List Segment) : Segment → List Segment
  | .here => before
  | .up =>
    match before with
    | .name _ :: earlier => earlier
    | _ => .up :: before
  | segment => segment :: before

/-- The segment leads to another directory than the root, upwards or by its name. -/
def Segment.IsStep (segment : Segment) : Prop :=
  segment = .up ∨ ∃ name, name ≠ ".." ∧ segment = .name name

/-- The segments of a path without dots and without names that are left again. -/
def Path.lexical (path : Path) : List Segment :=
  (path.segments.foldl Path.settle []).reverse

namespace Path

variable {base path other source : Path} {before segments : List Segment}

theorem lexical_eq_of_same {a b : Path} (h : a.same b = true) : a.lexical = b.lexical := by
  rw [same, decide_eq_true_eq] at h
  rw [lexical, lexical, h]

@[simp] theorem settle_name (before : List Segment) (name : String) :
    settle before (.name name) = .name name :: before :=
  rfl

theorem foldl_settle_of_plain (hup : .up ∉ segments) (hhere : .here ∉ segments) :
    segments.foldl settle before = segments.reverse ++ before := by
  induction segments generalizing before with
  | nil => rfl
  | cons segment segments ih =>
      obtain ⟨hup, hups⟩ := not_or.mp (List.mem_cons.not.mp hup)
      obtain ⟨hhere, hheres⟩ := not_or.mp (List.mem_cons.not.mp hhere)
      have hsettle : settle before segment = segment :: before := by
        cases segment with
        | up => exact absurd rfl hup
        | here => exact absurd rfl hhere
        | root => rfl
        | name text => rfl
      rw [List.foldl_cons, hsettle, ih hups hheres, List.reverse_cons, List.append_assoc,
        List.singleton_append]

theorem lexical_of_plain (hup : .up ∉ path.segments) (hhere : .here ∉ path.segments) :
    path.lexical = path.segments := by
  rw [lexical, foldl_settle_of_plain hup hhere, List.append_nil, List.reverse_reverse]

theorem root_mem_settle {segment : Segment} :
    .root ∈ settle before segment ↔ .root ∈ before ∨ segment = .root := by
  cases segment with
  | up =>
      rcases before with _ | ⟨last, earlier⟩
      · simp [settle]
      · cases last <;> simp [settle]
  | _ => simp [settle, or_comm, eq_comm]

/-- Settling does not lead out of the root. -/
theorem root_mem_foldl_settle : .root ∈ segments.foldl settle before ↔
    .root ∈ before ∨ .root ∈ segments := by
  induction segments generalizing before with
  | nil => simp
  | cons segment segments ih =>
      rw [List.foldl_cons, ih, root_mem_settle, List.mem_cons, or_assoc, @eq_comm _ Segment.root]

theorem root_mem_lexical : .root ∈ path.lexical ↔ .root ∈ path.segments := by
  rw [lexical, List.mem_reverse, root_mem_foldl_settle]
  simp

/-- Output paths denote the same place exactly if their sources do. -/
theorem lexical_outputPath_iff {own others : Path} (hown : outputPath source = .ok own)
    (hothers : outputPath other = .ok others) :
    own.lexical = others.lexical ↔ source.lexical = other.lexical := by
  obtain ⟨directory, name, hsource, hpath⟩ := segments_of_outputPath hown
  obtain ⟨directory', name', hother, hpath'⟩ := segments_of_outputPath hothers
  rw [lexical, lexical, lexical, lexical, List.reverse_inj, List.reverse_inj, hsource, hpath,
    hother, hpath']
  simp only [List.foldl_append, List.foldl_cons, List.foldl_nil, settle_name, List.cons.injEq,
    true_and]

theorem same_outputPath_iff {own others : Path} (hown : outputPath source = .ok own)
    (hothers : outputPath other = .ok others) :
    own.same others = true ↔ source.same other = true := by
  obtain ⟨directory, name, hsource, hpath⟩ := segments_of_outputPath hown
  obtain ⟨directory', name', hother, hpath'⟩ := segments_of_outputPath hothers
  rw [same, same, decide_eq_true_eq, decide_eq_true_eq, hsource, hpath, hother, hpath']
  constructor
  · intro h
    obtain ⟨hinner, hname⟩ := List.append_inj' h rfl
    rw [(List.append_inj' hinner rfl).1, hname]
  · intro h
    obtain ⟨hdirectory, hname⟩ := List.append_inj' h rfl
    rw [hdirectory, hname]

theorem isStep_of_mem_trail {segment : Segment} (h : segment ∈ path.trail) : segment.IsStep := by
  obtain ⟨piece, -, rfl⟩ := List.mem_map.mp h
  rw [Segment.ofPiece]
  split_ifs with hup
  · exact .inl rfl
  · refine .inr ⟨_, fun heq ↦ hup ?_, rfl⟩
    rw [← String.toList_ofList (l := piece), heq]
    rfl

theorem here_not_mem_trail (path : Path) : .here ∉ path.trail := by
  intro h
  rcases isStep_of_mem_trail h with hup | ⟨name, -, hname⟩
  · cases hup
  · cases hname

theorem root_not_mem_trail (path : Path) : .root ∉ path.trail := by
  intro h
  rcases isStep_of_mem_trail h with hup | ⟨name, -, hname⟩
  · cases hup
  · cases hname

theorem up_not_mem_trail (h : .up ∉ path.segments) : .up ∉ path.trail := fun htrail ↦
  h (segments_eq_trail path ▸ List.mem_append_right _ htrail)

/-- Behind a base that is not empty a dot in front is no segment any more, so that a relative path
without steps upwards only adds its names. -/
theorem lexical_join_of_relative (hbase : base.text.toList ≠ []) (hpath : path.isAbsolute = false)
    (hup : .up ∉ path.segments) : (base.join path).lexical = base.lexical ++ path.trail := by
  rw [lexical, segments_join hbase hpath, List.foldl_append,
    foldl_settle_of_plain (up_not_mem_trail hup) (here_not_mem_trail path), List.reverse_append,
    List.reverse_reverse]
  rfl

theorem head_of_isAbsolute (h : path.isAbsolute = true) : path.parts.head = some .root := by
  obtain ⟨rest, hrest⟩ := isAbsolute_iff.mp h
  rw [parts_of_root hrest]

theorem head_cases (path : Path) {segment : Segment} (h : segment ∈ path.parts.head.toList) :
    segment = .root ∨ segment = .here := by
  rcases text_cases path with ⟨rest, hroot⟩ | hdot | ⟨rest, hhere⟩ | hname
  · rw [parts_of_root hroot] at h
    exact .inl (List.mem_singleton.mp h)
  · rw [parts_of_dot hdot] at h
    exact .inr (List.mem_singleton.mp h)
  · rw [parts_of_here hhere] at h
    exact .inr (List.mem_singleton.mp h)
  · rw [parts_of_name hname] at h
    cases h

theorem root_mem_segments : .root ∈ path.segments ↔ path.isAbsolute = true := by
  constructor
  · intro h
    rw [segments_eq_trail] at h
    have hhead := (List.mem_append.mp h).resolve_right (root_not_mem_trail path)
    rw [isAbsolute_iff]
    rcases text_cases path with hroot | hdot | ⟨rest, hhere⟩ | hname
    · exact hroot
    · simp [parts_of_dot hdot] at hhead
    · simp [parts_of_here hhere] at hhead
    · simp [parts_of_name hname] at hhead
  · intro h
    rw [segments_eq_trail, head_of_isAbsolute h]
    exact List.mem_cons_self

theorem here_not_mem_of_isAbsolute (h : path.isAbsolute = true) : .here ∉ path.segments := by
  rw [segments_eq_trail, head_of_isAbsolute h]
  intro hmem
  rcases List.mem_cons.mp hmem with heq | htrail
  · cases heq
  · exact here_not_mem_trail path htrail

/-- An absolute source denotes the same place as another one below the base only if it is the same
path. -/
theorem same_of_lexical_eq_of_isAbsolute (habsolute : path.isAbsolute = true)
    (hbase : base.text.toList ≠ []) (hup : .up ∉ path.segments) (hothers : .up ∉ other.segments)
    (hroot : base.isAbsolute = true → .up ∉ base.segments)
    (h : path.lexical = (base.join other).lexical) : path.same (base.join other) = true := by
  have hjoined : (base.join other).isAbsolute = true := by
    rw [← root_mem_segments, ← root_mem_lexical, ← h, root_mem_lexical, root_mem_segments]
    exact habsolute
  have hplain : .up ∉ (base.join other).segments := by
    by_cases hother : other.isAbsolute = true
    · rwa [join_of_isAbsolute hother]
    · rw [← root_mem_segments] at hjoined
      rw [segments_join hbase (Bool.eq_false_iff.mpr hother), List.mem_append] at hjoined ⊢
      have hinside := root_mem_segments.mp (hjoined.resolve_right (root_not_mem_trail other))
      rintro (hleft | hright)
      · exact hroot hinside hleft
      · exact up_not_mem_trail hothers hright
  rw [lexical_of_plain hup (here_not_mem_of_isAbsolute habsolute),
    lexical_of_plain hplain (here_not_mem_of_isAbsolute hjoined)] at h
  rw [same, h, decide_eq_true_eq]

theorem segments_of_relative (hpath : path.isAbsolute = false) (hdot : .here ∉ path.segments) :
    path.segments = path.trail := by
  have hnone : path.parts.head.toList = [] := by
    rw [List.eq_nil_iff_forall_not_mem]
    intro segment hsegment
    have hmem : segment ∈ path.segments := List.mem_append_left _ hsegment
    rcases head_cases path hsegment with rfl | rfl
    · rw [root_mem_segments.mp hmem] at hpath
      exact Bool.noConfusion hpath
    · exact hdot hmem
  rw [segments_eq_trail, hnone, List.nil_append]

theorem same_join_of_trail_eq (hpath : path.isAbsolute = false) (hother : other.isAbsolute = false)
    (hdot : base.text = "" → .here ∉ path.segments ∧ .here ∉ other.segments)
    (h : path.trail = other.trail) : (base.join path).same (base.join other) = true := by
  rw [same, decide_eq_true_eq]
  by_cases hempty : base.text = ""
  · obtain ⟨hpathDot, hotherDot⟩ := hdot hempty
    have hnone : base.text.toList = [] := String.toList_eq_nil_iff.mpr hempty
    rw [join_of_empty hnone, join_of_empty hnone, segments_of_relative hpath hpathDot,
      segments_of_relative hother hotherDot, h]
  · have hbase : base.text.toList ≠ [] := String.toList_eq_nil_iff.not.mpr hempty
    rw [segments_join hbase hpath, segments_join hbase hother, h]

/-- Sources below one base denote the same place only if they are the same path, as long as none has
a step upwards, none has a dot in front that stays there, and an absolute source does not come with
a base that goes back on itself. -/
theorem same_of_lexical_join_eq (hpath : .up ∉ path.segments) (hother : .up ∉ other.segments)
    (hdot : base.text = "" → .here ∉ path.segments ∧ .here ∉ other.segments)
    (hroot : base.isAbsolute = true → .up ∈ base.segments →
      path.isAbsolute = false ∧ other.isAbsolute = false)
    (h : (base.join path).lexical = (base.join other).lexical) :
    (base.join path).same (base.join other) = true := by
  by_cases hempty : base.text = ""
  · obtain ⟨hpathDot, hotherDot⟩ := hdot hempty
    have hnone : base.text.toList = [] := String.toList_eq_nil_iff.mpr hempty
    rw [join_of_empty hnone, join_of_empty hnone] at h ⊢
    rw [lexical_of_plain hpath hpathDot, lexical_of_plain hother hotherDot] at h
    rw [same, h, decide_eq_true_eq]
  have hbase : base.text.toList ≠ [] := String.toList_eq_nil_iff.not.mpr hempty
  by_cases hleft : path.isAbsolute = true
  · have hinside : base.isAbsolute = true → .up ∉ base.segments := by
      intro habsolute hup
      rw [(hroot habsolute hup).1] at hleft
      exact Bool.noConfusion hleft
    rw [join_of_isAbsolute hleft] at h ⊢
    exact same_of_lexical_eq_of_isAbsolute hleft hbase hpath hother hinside h
  by_cases hright : other.isAbsolute = true
  · have hinside : base.isAbsolute = true → .up ∉ base.segments := by
      intro habsolute hup
      rw [(hroot habsolute hup).2] at hright
      exact Bool.noConfusion hright
    rw [join_of_isAbsolute hright] at h ⊢
    rw [same_comm]
    exact same_of_lexical_eq_of_isAbsolute hright hbase hother hpath hinside h.symm
  · have hleft := Bool.eq_false_iff.mpr hleft
    have hright := Bool.eq_false_iff.mpr hright
    rw [lexical_join_of_relative hbase hleft hpath, lexical_join_of_relative hbase hright hother]
      at h
    exact same_join_of_trail_eq hleft hright hdot (List.append_cancel_left h)

end Path

end Wiring
