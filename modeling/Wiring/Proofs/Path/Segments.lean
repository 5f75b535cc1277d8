import Mathlib.Data.List.TakeWhile
import Wiring.Code.Placement

/-!
# Segments of composed paths

Paths are composed as texts and compared by their segments.  The segments of a path that is put
behind another one follow the segments of that, but for a dot in front: it is a segment at the front
of the whole path only.
-/

namespace Wiring.Path

theorem splitSlash_ne_nil (cs : List Char) : splitSlash cs ≠ [] := by
  induction cs using splitSlash.induct with
  | case1 => simp [splitSlash]
  | case2 rest => simp [splitSlash]
  | case3 c rest hc hnil _ => simp [splitSlash, hnil]
  | case4 c rest hc piece pieces hpieces _ => simp [splitSlash, hpieces]

theorem splitSlash_append (cs rest : List Char) :
    splitSlash (cs ++ '/' :: rest) = splitSlash cs ++ splitSlash rest := by
  induction cs using splitSlash.induct with
  | case1 => rfl
  | case2 cs ih => simp [splitSlash, ih]
  | case3 c cs hc hnil => exact absurd hnil (splitSlash_ne_nil cs)
  | case4 c cs hc piece pieces hpieces ih => simp [splitSlash, hpieces, ih]

theorem slash_not_mem_of_mem_splitSlash {cs piece : List Char} (h : piece ∈ splitSlash cs) :
    '/' ∉ piece := by
  induction cs using splitSlash.induct generalizing piece with
  | case1 =>
      rw [List.mem_singleton.mp h]
      exact List.not_mem_nil
  | case2 cs ih =>
      rcases List.mem_cons.mp h with rfl | hlater
      · exact List.not_mem_nil
      · exact ih hlater
  | case3 c cs hc hnil => exact absurd hnil (splitSlash_ne_nil cs)
  | case4 c cs hc first pieces hpieces ih =>
      simp only [splitSlash, hpieces, List.mem_cons] at h
      rw [hpieces] at ih
      rcases h with rfl | hlater
      · rw [List.mem_cons, not_or]
        exact ⟨fun heq ↦ hc heq.symm, ih List.mem_cons_self⟩
      · exact ih (List.mem_cons_of_mem _ hlater)

theorem splitSlash_of_slash_not_mem {cs : List Char} (h : '/' ∉ cs) : splitSlash cs = [cs] := by
  induction cs with
  | nil => rfl
  | cons c cs ih =>
      obtain ⟨hc, hcs⟩ := not_or.mp (List.mem_cons.not.mp h)
      rw [splitSlash, ih hcs]
      exact fun heq ↦ hc heq.symm

theorem joinSlash_cons (piece : List Char) {pieces : List (List Char)} (h : pieces ≠ []) :
    joinSlash (piece :: pieces) = piece ++ '/' :: joinSlash pieces := by
  obtain ⟨next, others, rfl⟩ := List.exists_cons_of_ne_nil h
  rfl

theorem joinSlash_append {pieces more : List (List Char)} (hpieces : pieces ≠ [])
    (hmore : more ≠ []) :
    joinSlash (pieces ++ more) = joinSlash pieces ++ '/' :: joinSlash more := by
  induction pieces with
  | nil => exact absurd rfl hpieces
  | cons piece pieces ih =>
      by_cases hlast : pieces = []
      · rw [hlast, List.singleton_append, joinSlash_cons piece hmore]
        rfl
      · rw [List.cons_append, joinSlash_cons piece (List.append_ne_nil_of_left_ne_nil hlast more),
          ih hlast, joinSlash_cons piece hlast, List.append_assoc, List.cons_append]

theorem joinSlash_splitSlash (cs : List Char) : joinSlash (splitSlash cs) = cs := by
  induction cs using splitSlash.induct with
  | case1 => rfl
  | case2 cs ih => rw [splitSlash, joinSlash_cons [] (splitSlash_ne_nil cs), ih, List.nil_append]
  | case3 c cs hc hnil => exact absurd hnil (splitSlash_ne_nil cs)
  | case4 c cs hc piece pieces hpieces ih =>
      rw [hpieces] at ih
      simp only [splitSlash, hpieces]
      by_cases hlast : pieces = []
      · subst hlast
        exact congrArg (List.cons c) ih
      · rw [joinSlash_cons _ hlast] at ih ⊢
        exact congrArg (List.cons c) ih

theorem splitSlash_joinSlash {pieces : List (List Char)} (hne : pieces ≠ [])
    (h : ∀ piece ∈ pieces, '/' ∉ piece) : splitSlash (joinSlash pieces) = pieces := by
  induction pieces with
  | nil => exact absurd rfl hne
  | cons piece pieces ih =>
      obtain ⟨hpiece, hrest⟩ := List.forall_mem_cons.mp h
      by_cases hlast : pieces = []
      · subst hlast
        exact splitSlash_of_slash_not_mem hpiece
      · rw [joinSlash_cons piece hlast, splitSlash_append, splitSlash_of_slash_not_mem hpiece,
          ih hlast hrest, List.singleton_append]

/-- The segments of pieces; trivial ones make none. -/
def pieceSegments (pieces : List (List Char)) : List Segment :=
  (pieces.filter (!isTrivial ·)).map Segment.ofPiece

theorem pieceSegments_append (pieces more : List (List Char)) :
    pieceSegments (pieces ++ more) = pieceSegments pieces ++ pieceSegments more := by
  rw [pieceSegments, List.filter_append, List.map_append]
  rfl

theorem pieceSegments_of_trivial {pieces : List (List Char)}
    (h : ∀ piece ∈ pieces, isTrivial piece = true) : pieceSegments pieces = [] := by
  have hnone : pieces.filter (!isTrivial ·) = [] :=
    List.filter_eq_nil_iff.mpr fun piece hpiece ↦ by simp [h piece hpiece]
  rw [pieceSegments, hnone, List.map_nil]

theorem pieceSegments_singleton {piece : List Char} (h : isTrivial piece = false) :
    pieceSegments [piece] = [Segment.ofPiece piece] := by
  simp [pieceSegments, h]

theorem segments_def (path : Path) :
    path.segments = path.parts.head.toList ++ pieceSegments path.parts.pieces :=
  rfl

/-- The segments of a path that stands behind another one. -/
def trail (path : Path) : List Segment :=
  pieceSegments (splitSlash path.text.toList)

theorem parts_of_root {path : Path} {rest : List Char} (h : path.text.toList = '/' :: rest) :
    path.parts = ⟨some .root, splitSlash rest⟩ := by
  rw [parts, h]
  rfl

theorem parts_of_dot {path : Path} (h : path.text.toList = ['.']) :
    path.parts = ⟨some .here, [[]]⟩ := by
  rw [parts, h]
  rfl

theorem parts_of_here {path : Path} {rest : List Char} (h : path.text.toList = '.' :: '/' :: rest) :
    path.parts = ⟨some .here, [] :: splitSlash rest⟩ := by
  rw [parts, h]
  rfl

/-- Neither a slash nor a dot that is a piece is in front. -/
def startsWithName : List Char → Bool
  | '/' :: _ => false
  | ['.'] => false
  | '.' :: '/' :: _ => false
  | _ => true

theorem parts_of_name {path : Path} (h : startsWithName path.text.toList = true) :
    path.parts = ⟨none, splitSlash path.text.toList⟩ := by
  rw [parts]
  split <;> simp_all [startsWithName]

/-- How a path starts. -/
theorem text_cases (path : Path) :
    (∃ rest, path.text.toList = '/' :: rest) ∨ path.text.toList = ['.'] ∨
      (∃ rest, path.text.toList = '.' :: '/' :: rest) ∨
      startsWithName path.text.toList = true := by
  generalize path.text.toList = cs
  rw [startsWithName.eq_def]
  split <;> simp

theorem startsWithName_append {cs : List Char} (rest : List Char) (hne : cs ≠ [])
    (h : startsWithName cs = true) : startsWithName (cs ++ '/' :: rest) = true := by
  rcases cs with _ | ⟨c, _ | ⟨d, cs⟩⟩
  · exact absurd rfl hne
  · rw [startsWithName.eq_def]
    split <;> simp_all [startsWithName]
  · rw [startsWithName.eq_def]
    split <;> simp_all [startsWithName]

theorem segments_eq_trail (path : Path) : path.segments = path.parts.head.toList ++ path.trail := by
  rw [segments_def, trail]
  rcases text_cases path with ⟨rest, h⟩ | h | ⟨rest, h⟩ | h
  · rw [parts_of_root h, h]
    rfl
  · rw [parts_of_dot h, h]
    rfl
  · rw [parts_of_here h, h]
    rfl
  · rw [parts_of_name h]

theorem segments_of_empty {path : Path} (h : path.text.toList = []) : path.segments = [] := by
  have hname : startsWithName path.text.toList = true := by
    rw [h]
    rfl
  rw [segments_eq_trail, parts_of_name hname, trail, h]
  rfl

/-- What stands behind a slash adds pieces and changes nothing before it. -/
theorem parts_append_slash {path base : Path} {rest : List Char} (hbase : base.text.toList ≠ [])
    (htext : path.text.toList = base.text.toList ++ '/' :: rest) :
    path.parts = ⟨base.parts.head, base.parts.pieces ++ splitSlash rest⟩ := by
  rcases text_cases base with ⟨more, h⟩ | h | ⟨more, h⟩ | h
  · rw [h] at htext
    rw [parts_of_root h, parts_of_root htext, ← splitSlash_append]
    rfl
  · rw [h] at htext
    rw [parts_of_dot h, parts_of_here htext]
    rfl
  · rw [h] at htext
    rw [parts_of_here h, parts_of_here htext, List.cons_append, ← splitSlash_append]
    rfl
  · have hpath : startsWithName path.text.toList = true := by
      rw [htext]
      exact startsWithName_append rest hbase h
    rw [parts_of_name h, parts_of_name hpath, htext, splitSlash_append]

/-- A path whose text is that of another one and more behind a slash. -/
theorem segments_append_slash {path base : Path} {rest : List Char} (hbase : base.text.toList ≠ [])
    (htext : path.text.toList = base.text.toList ++ '/' :: rest) :
    path.segments = base.segments ++ pieceSegments (splitSlash rest) := by
  rw [segments_def, parts_append_slash hbase htext, pieceSegments_append, ← List.append_assoc]
  rfl

/-! ## Joining -/

theorem isAbsolute_iff {path : Path} :
    path.isAbsolute = true ↔ ∃ rest, path.text.toList = '/' :: rest := by
  rw [isAbsolute, decide_eq_true_eq, List.head?_eq_some_iff]

theorem join_of_isAbsolute {base path : Path} (h : path.isAbsolute = true) :
    base.join path = path := by
  rw [join, if_pos h]

theorem join_of_empty {base : Path} (h : base.text.toList = []) (path : Path) :
    base.join path = path := by
  rw [join]
  split_ifs with habsolute
  · rfl
  · have hempty : base.text = "" := String.toList_eq_nil_iff.mp h
    rw [hempty, String.empty_append]
  · simp_all

/-- A relative path behind a base that is not empty. -/
theorem segments_join {base path : Path} (hbase : base.text.toList ≠ [])
    (hpath : path.isAbsolute = false) :
    (base.join path).segments = base.segments ++ path.trail := by
  rw [join, hpath, if_neg Bool.false_ne_true, trail]
  split_ifs with hend
  · obtain ⟨before, hbefore⟩ := List.getLast?_eq_some_iff.mp (hend.resolve_left hbase)
    have htext : (Path.mk (base.text ++ path.text)).text.toList =
        before ++ '/' :: path.text.toList := by
      rw [String.toList_append, hbefore, List.append_assoc, List.singleton_append]
    by_cases hroot : before = []
    · subst hroot
      rw [segments_def, parts_of_root htext, segments_def, parts_of_root hbefore]
      rfl
    · -- The slash at the end of the base is the one that the path stands behind.
      have hfront : (Path.mk (String.ofList before)).text.toList = before := String.toList_ofList
      rw [← hfront] at hroot hbefore htext
      rw [segments_append_slash hroot hbefore, segments_append_slash hroot htext,
        List.append_assoc]
      rfl
  · exact segments_append_slash hbase (by simp)

/-- One more name behind a directory, which may be the empty path. -/
theorem segments_join_name (base : Path) {name : String} (hslash : '/' ∉ name.toList)
    (htrivial : isTrivial name.toList = false) :
    (base.join ⟨name⟩).segments = base.segments ++ [Segment.ofPiece name.toList] := by
  have htrail : (Path.mk name).trail = [Segment.ofPiece name.toList] := by
    rw [trail, splitSlash_of_slash_not_mem hslash, pieceSegments_singleton htrivial]
  have hrelative : (Path.mk name).isAbsolute = false := by
    rw [Bool.eq_false_iff, Ne, isAbsolute_iff]
    rintro ⟨rest, hrest⟩
    exact hslash (hrest ▸ List.mem_cons_self)
  by_cases hbase : base.text.toList = []
  · have hname : startsWithName name.toList = true := by
      rw [startsWithName.eq_def]
      split <;> simp_all [isTrivial]
    rw [join_of_empty hbase, segments_eq_trail, parts_of_name hname, htrail,
      segments_of_empty hbase]
    rfl
  · rw [segments_join hbase hrelative, htrail]

theorem toPath_parts (path : Path) : path.parts.toPath = path := by
  have htext : path.parts.headText ++ joinSlash path.parts.pieces = path.text.toList := by
    rcases text_cases path with ⟨rest, h⟩ | h | ⟨rest, h⟩ | h
    · rw [parts_of_root h, h]
      exact congrArg (List.cons '/') (joinSlash_splitSlash rest)
    · rw [parts_of_dot h, h]
      rfl
    · rw [parts_of_here h, h, joinSlash_cons [] (splitSlash_ne_nil rest), joinSlash_splitSlash]
      rfl
    · rw [parts_of_name h]
      exact joinSlash_splitSlash _
  rw [Parts.toPath, htext, String.ofList_toList]

theorem slash_not_mem_of_mem_pieces {path : Path} {piece : List Char}
    (h : piece ∈ path.parts.pieces) : '/' ∉ piece := by
  rcases text_cases path with ⟨rest, htext⟩ | htext | ⟨rest, htext⟩ | htext
  · rw [parts_of_root htext] at h
    exact slash_not_mem_of_mem_splitSlash h
  · rw [parts_of_dot htext] at h
    rw [List.mem_singleton.mp h]
    exact List.not_mem_nil
  · rw [parts_of_here htext] at h
    rcases List.mem_cons.mp h with rfl | hlater
    · exact List.not_mem_nil
    · exact slash_not_mem_of_mem_splitSlash hlater
  · rw [parts_of_name htext] at h
    exact slash_not_mem_of_mem_splitSlash h

/-- The text of the head alone is a path with no other segment. -/
theorem segments_toPath_head (path : Path) :
    (Parts.toPath ⟨path.parts.head, []⟩).segments = path.parts.head.toList := by
  have hroot : (Parts.toPath ⟨some .root, []⟩).segments = [.root] := by decide
  have hhere : (Parts.toPath ⟨some .here, []⟩).segments = [.here] := by decide
  have hnone : (Parts.toPath ⟨none, []⟩).segments = [] := by decide
  rcases text_cases path with ⟨rest, htext⟩ | htext | ⟨rest, htext⟩ | htext
  · rw [parts_of_root htext]
    exact hroot
  · rw [parts_of_dot htext]
    exact hhere
  · rw [parts_of_here htext]
    exact hhere
  · rw [parts_of_name htext]
    exact hnone

theorem isTrivial_of_dropWhile {pieces before : List (List Char)} {piece : List Char}
    (h : pieces.dropWhile isTrivial = piece :: before) : isTrivial piece = false := by
  have hhead := List.head?_dropWhile_not isTrivial pieces
  rw [h] at hhead
  exact hhead

/-- The pieces of a path before its file name, and those from there on, of which the name is the
only one that is a segment. -/
theorem pieces_eq_append {pieces before : List (List Char)} {last : List Char}
    (h : reversedPieces pieces = last :: before) :
    ∃ more, pieces = (before.dropWhile isTrivial).reverse ++ more ∧ more ≠ [] ∧
      pieceSegments more = [Segment.ofPiece last] := by
  rw [reversedPieces] at h
  have hreversed := List.takeWhile_append_dropWhile (p := isTrivial) (l := pieces.reverse)
  have hpieces := List.reverse_eq_iff.mp hreversed.symm
  have hbefore : before.reverse =
      (before.dropWhile isTrivial).reverse ++ (before.takeWhile isTrivial).reverse := by
    rw [← List.reverse_append, List.takeWhile_append_dropWhile]
  rw [h, List.reverse_append, List.reverse_cons, hbefore, List.append_assoc, List.append_assoc]
    at hpieces
  refine ⟨_, hpieces, by simp, ?_⟩
  have htrivial : ∀ others : List (List Char),
      pieceSegments (others.takeWhile isTrivial).reverse = [] := fun others ↦
    pieceSegments_of_trivial fun piece hpiece ↦ List.mem_takeWhile_imp (List.mem_reverse.mp hpiece)
  rw [pieceSegments_append, pieceSegments_append, htrivial, htrivial,
    pieceSegments_singleton (isTrivial_of_dropWhile h), List.nil_append, List.append_nil]

theorem joinSlash_eq_nil {pieces : List (List Char)} (h : joinSlash pieces = []) :
    ∀ piece ∈ pieces, piece = [] := by
  induction pieces with
  | nil => exact List.forall_mem_nil _
  | cons piece pieces ih =>
      by_cases hlast : pieces = []
      · subst hlast
        exact List.forall_mem_singleton.mpr h
      · simp [joinSlash_cons piece hlast] at h

/-- A path with a file name is its parent and the name. -/
theorem segments_of_fileName? {path : Path} {name : String} (h : path.fileName? = some name) :
    path.segments = path.parent.segments ++ [.name name] := by
  rw [fileName?] at h
  split at h
  case h_2 => cases h
  case h_1 last before hpieces =>
    split_ifs at h with hup
    obtain rfl := Option.some.inj h
    obtain ⟨more, hsplit, hmore, hlast⟩ := pieces_eq_append hpieces
    have hname : Segment.ofPiece last = .name (String.ofList last) := if_neg hup
    rw [hname] at hlast
    have hparent : path.parent =
        Parts.toPath ⟨path.parts.head, (before.dropWhile isTrivial).reverse⟩ := by
      rw [parent, parent?, hpieces]
      rfl
    by_cases hkept : before.dropWhile isTrivial = []
    · rw [hkept, List.reverse_nil] at hparent hsplit
      rw [hparent, segments_toPath_head, segments_def, hsplit, List.nil_append, hlast]
    · have htext : path.text.toList = path.parent.text.toList ++ '/' :: joinSlash more := by
        have hown : path.text.toList = path.parts.toPath.text.toList := by rw [toPath_parts]
        have hjoin := joinSlash_append (List.reverse_eq_nil_iff.not.mpr hkept) hmore
        rw [hown, hparent, Parts.toPath, Parts.toPath, String.toList_ofList, String.toList_ofList,
          hsplit, hjoin, List.append_assoc]
        rfl
      have hne : path.parent.text.toList ≠ [] := by
        rw [hparent, Parts.toPath, String.toList_ofList]
        intro hempty
        obtain ⟨piece, others, hothers⟩ := List.exists_cons_of_ne_nil hkept
        have hpiece := joinSlash_eq_nil (List.append_eq_nil_iff.mp hempty).2 piece
          (List.mem_reverse.mpr (hothers ▸ List.mem_cons_self))
        have hnot := isTrivial_of_dropWhile hothers
        rw [hpiece] at hnot
        exact Bool.noConfusion hnot
      have hslash : ∀ piece ∈ more, '/' ∉ piece := fun piece hpiece ↦
        slash_not_mem_of_mem_pieces (hsplit ▸ List.mem_append_right _ hpiece)
      rw [segments_append_slash hne htext, splitSlash_joinSlash hmore hslash, hlast]

theorem piece_of_fileName? {path : Path} {name : String} (h : path.fileName? = some name) :
    '/' ∉ name.toList ∧ isTrivial name.toList = false ∧ name.toList ≠ ['.', '.'] := by
  rw [fileName?] at h
  split at h
  case h_2 => cases h
  case h_1 last before hpieces =>
    split_ifs at h with hup
    obtain rfl := Option.some.inj h
    rw [String.toList_ofList]
    have hlast : last ∈ path.parts.pieces.reverse :=
      (List.dropWhile_sublist _).subset (hpieces ▸ List.mem_cons_self)
    have hslash := slash_not_mem_of_mem_pieces (List.mem_reverse.mp hlast)
    exact ⟨hslash, isTrivial_of_dropWhile hpieces, hup⟩

/-- The output path has one more directory between the directory of the source and its name. -/
theorem segments_of_outputPath {source path : Path} (h : outputPath source = .ok path) :
    ∃ directory name, source.segments = directory ++ [.name name] ∧
      path.segments = directory ++ [.name "gen"] ++ [.name name] := by
  rw [outputPath] at h
  split at h
  case h_1 => cases h
  case h_2 name hname =>
    obtain ⟨hslash, htrivial, hup⟩ := piece_of_fileName? hname
    have hpiece : Segment.ofPiece name.toList = .name name := by
      rw [Segment.ofPiece, if_neg hup, String.ofList_toList]
    have hgen : Segment.ofPiece "gen".toList = .name "gen" := by decide
    obtain rfl := Except.ok.inj h
    refine ⟨source.parent.segments, name, segments_of_fileName? hname, ?_⟩
    rw [segments_join_name _ hslash htrivial, segments_join_name _ (by decide) (by decide), hpiece,
      hgen]

end Wiring.Path
