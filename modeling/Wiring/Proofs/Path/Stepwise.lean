import Wiring.Proofs.Files.Written

/-!
# Normalised paths as steps

A normalised path is read from left to right: a name leads into a directory and a step upwards out
of one.  Steps upwards, or the root, are only in front, and whoever follows the steps comes to the
place that the path denotes.
-/

namespace Wiring.Path

/-- Where a step of a normalised path leads.  The root stands in front, where the place is the root
already. -/
def descend (here : Location) (step : String) : Location :=
  if step = "/" then here else if step = ".." then here.dropLast else here ++ [step]

theorem descend_up (here : Location) : descend here ".." = Segment.follow here .up := by
  rw [descend, if_neg (by decide), if_pos rfl]
  rfl

/-- A name of a directory or a file. -/
structure IsName (step : String) : Prop where
  slash : '/' ∉ step.toList
  visible : isTrivial step.toList = false
  up : step ≠ ".."

theorem IsName.ne_root {step : String} (h : IsName step) : step ≠ "/" := by
  rintro rfl
  exact h.slash (by decide)

theorem IsName.descend {step : String} (h : IsName step) (here : Location) :
    descend here step = here ++ [step] := by
  rw [Path.descend, if_neg h.ne_root, if_neg h.up]

theorem foldl_descend_names {names : List String} (h : ∀ name ∈ names, IsName name)
    (here : Location) : names.foldl descend here = here ++ names := by
  induction names generalizing here with
  | nil => exact (List.append_nil here).symm
  | cons name names ih =>
      obtain ⟨hname, hnames⟩ := List.forall_mem_cons.mp h
      rw [List.foldl_cons, hname.descend, ih hnames, List.append_assoc, List.singleton_append]

theorem foldl_descend_up (count : ℕ) (here : Location) :
    (List.replicate count "..").foldl descend here = here.take (here.length - count) := by
  induction count generalizing here with
  | zero => exact (List.take_length).symm
  | succ count ih =>
      have hup : descend here ".." = here.take (here.length - 1) := by
        rw [descend_up]
        exact List.dropLast_eq_take
      rw [List.replicate_succ, List.foldl_cons, hup, ih, List.length_take, List.take_take]
      congr 1
      omega

theorem length_foldl_descend_le (steps : List String) (here : Location) :
    (steps.foldl descend here).length ≤ here.length + steps.length := by
  induction steps generalizing here with
  | nil => exact Nat.le_refl _
  | cons step steps ih =>
      have hstep : (descend here step).length ≤ here.length + 1 := by
        rw [descend]
        split_ifs
        · exact Nat.le_succ _
        · simpa using Nat.le_add_right_of_le (Nat.sub_le here.length 1)
        · simp
      have hrest := ih (descend here step)
      rw [List.foldl_cons, List.length_cons]
      omega

/-- What is in front of the names of a normalised path that is seen from a directory. -/
inductive Front : Location → List String → Prop where
  | root : Front [] ["/"]
  | up (start : Location) (count : ℕ) : Front start (List.replicate count "..")

theorem eq_up_of_mem_trail {path : Path} {segment : Segment} (h : segment ∈ path.trail) :
    segment = .up ∨ ∃ name, IsName name ∧ segment = .name name := by
  obtain ⟨piece, hpiece, rfl⟩ := List.mem_map.mp h
  obtain ⟨hsplit, hvisible⟩ := List.mem_filter.mp hpiece
  rw [Segment.ofPiece]
  split_ifs with hup
  · exact .inl rfl
  · refine .inr ⟨_, ⟨?_, ?_, ?_⟩, rfl⟩
    · rw [String.toList_ofList]
      exact slash_not_mem_of_mem_splitSlash hsplit
    · rw [String.toList_ofList]
      simpa using hvisible
    · intro heq
      refine hup ?_
      rw [← String.toList_ofList (l := piece), heq]
      rfl

/-- Steps from a directory to a place, the last one first. -/
structure Settled (start here : Location) (before : List String) : Prop where
  shape : ∃ names front, before = names ++ front.reverse ∧ (∀ name ∈ names, IsName name) ∧
    Front start front
  place : before.reverse.foldl descend start = here

theorem Settled.cons {start here : Location} {before : List String} {step : String}
    (h : Settled start here before)
    (hshape : ∃ names front, step :: before = names ++ front.reverse ∧
      (∀ name ∈ names, IsName name) ∧ Front start front) :
    Settled start (descend here step) (step :: before) := by
  refine ⟨hshape, ?_⟩
  rw [List.reverse_cons, List.foldl_append, h.place, List.foldl_cons, List.foldl_nil]

theorem Settled.push {start here : Location} {before : List String} {segment : Segment}
    (h : Settled start here before)
    (hsegment : segment = .up ∨ ∃ name, IsName name ∧ segment = .name name) :
    Settled start (segment.follow here) (pushSegment before segment) := by
  obtain ⟨names, front, rfl, hnames, hfront⟩ := h.shape
  rcases hsegment with rfl | ⟨name, hname, rfl⟩
  · cases names with
    | nil =>
        cases hfront with
        | root =>
            -- Above the root is the root.
            obtain rfl : [] = here := h.place
            exact ⟨⟨[], [], rfl, hnames, .up [] 0⟩, rfl⟩
        | up _ count =>
            have hpushed : pushSegment ([] ++ (List.replicate count "..").reverse) .up =
                ".." :: ([] ++ (List.replicate count "..").reverse) := by
              rw [List.reverse_replicate, List.nil_append]
              cases count <;> rfl
            rw [hpushed, ← descend_up]
            refine h.cons ⟨[], List.replicate (count + 1) "..", ?_, hnames, .up start _⟩
            rw [List.reverse_replicate, List.reverse_replicate, List.replicate_succ]
            rfl
    | cons name names =>
        obtain ⟨hname, hnames⟩ := List.forall_mem_cons.mp hnames
        have hpushed : pushSegment (name :: names ++ front.reverse) .up =
            names ++ front.reverse := if_neg hname.up
        have hplace := h.place
        rw [List.cons_append, List.reverse_cons, List.foldl_append, List.foldl_cons,
          List.foldl_nil, hname.descend] at hplace
        rw [hpushed]
        refine ⟨⟨names, front, rfl, hnames, hfront⟩, ?_⟩
        rw [Segment.follow, ← hplace, List.dropLast_concat]
  · have hfollow : Segment.follow here (.name name) = descend here name :=
      (hname.descend here).symm
    rw [hfollow]
    exact h.cons ⟨name :: names, front, rfl, List.forall_mem_cons.mpr ⟨hname, hnames⟩, hfront⟩

theorem Settled.foldl {start here : Location} {before : List String} {segments : List Segment}
    (h : Settled start here before)
    (hsegments : ∀ segment ∈ segments, segment = .up ∨
      ∃ name, IsName name ∧ segment = .name name) :
    Settled start (segments.foldl Segment.follow here) (segments.foldl pushSegment before) := by
  induction segments generalizing here before with
  | nil => exact h
  | cons segment segments ih =>
      obtain ⟨hsegment, hrest⟩ := List.forall_mem_cons.mp hsegments
      exact ih (h.push hsegment) hrest

/-- Where the steps of a path start that is seen from a directory. -/
def start (working : Location) (path : Path) : Location :=
  if path.isAbsolute then [] else working

theorem settled_normalized (working : Location) (path : Path) :
    Settled (path.start working) (path.place working) path.normalized.reverse := by
  have hhead : Settled (path.start working) (path.start working)
      (path.parts.head.toList.foldl pushSegment []) := by
    by_cases h : path.isAbsolute = true
    · rw [start, if_pos h, head_of_isAbsolute h]
      exact ⟨⟨[], ["/"], rfl, List.forall_mem_nil _, .root⟩, rfl⟩
    · have hnone : path.parts.head.toList.foldl pushSegment [] = [] := by
        have hhere : ∀ segment ∈ path.parts.head.toList, segment = .here := by
          intro segment hsegment
          refine (head_cases path hsegment).resolve_left ?_
          rintro rfl
          exact h (root_mem_segments.mp (List.mem_append_left _ hsegment))
        generalize path.parts.head = head at hhere
        cases head with
        | none => rfl
        | some segment =>
            rw [hhere segment List.mem_cons_self]
            rfl
      rw [hnone]
      exact ⟨⟨[], [], rfl, List.forall_mem_nil _, .up _ 0⟩, rfl⟩
  have hnormalized : path.normalized.reverse =
      path.trail.foldl pushSegment (path.parts.head.toList.foldl pushSegment []) := by
    rw [normalized, segments_eq_trail, List.foldl_append, List.reverse_reverse]
  rw [place_eq, hnormalized]
  exact hhead.foldl fun segment hsegment ↦ eq_up_of_mem_trail hsegment

theorem exists_front (working : Location) (path : Path) : ∃ front names,
    path.normalized = front ++ names ∧ (∀ name ∈ names, IsName name) ∧
      Front (path.start working) front := by
  obtain ⟨names, front, hreversed, hnames, hfront⟩ := (settled_normalized working path).shape
  refine ⟨front, names.reverse, ?_, fun name hname ↦ hnames name (List.mem_reverse.mp hname),
    hfront⟩
  rw [← List.reverse_inj, hreversed, List.reverse_append, List.reverse_reverse]

/-- Whoever follows the steps of the normalised path comes to its place. -/
theorem foldl_descend_normalized (working : Location) (path : Path) :
    path.normalized.foldl descend (path.start working) = path.place working := by
  have hplace := (settled_normalized working path).place
  rwa [List.reverse_reverse] at hplace

end Wiring.Path
