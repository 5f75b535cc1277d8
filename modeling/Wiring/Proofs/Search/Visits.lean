import Wiring.Proofs.Graph.Unrepeated
import Wiring.Proofs.Search.WellTyped

/-!
# Where a request looks

A request looks into the innermost module of its stack, then into the modules that this one
includes, and then, where the module requires the type, into what is around it.  The stack of
modules tells how the search has come to a module.  From a root it is always a walk along includes,
and the search comes by no stack twice.
-/

namespace Wiring.Graph

variable {graph : Graph} {type : TypeId} {depth : ℕ} {root owner : ModuleId}
  {enclosing walk stack visited : List ModuleId} {guarded : List (ModuleId × TypeId)}

/-- The walk goes on into a module that its last one includes.  Walks are read backwards, the last
module in front. -/
def Extends (graph : Graph) (walk longer : List ModuleId) : Prop :=
  ∃ owner ∈ walk.head?, ∃ included ∈ (graph.getModule owner).includes, longer = included :: walk

/-- A walk from a root along includes. -/
def IncludeWalk (graph : Graph) (root : ModuleId) (walk : List ModuleId) : Prop :=
  Relation.ReflTransGen graph.Extends [root] walk

/-- A walk along includes that comes to no module twice. -/
def IncludePath (graph : Graph) (root : ModuleId) (walk : List ModuleId) : Prop :=
  graph.IncludeWalk root walk ∧ walk.Nodup

theorem extends_include {included : ModuleId}
    (visible : included ∈ (graph.getModule owner).includes) :
    graph.Extends (owner :: enclosing) (included :: owner :: enclosing) :=
  ⟨owner, rfl, included, visible, rfl⟩

theorem exists_included_of_extends {longer : List ModuleId}
    (h : graph.Extends (owner :: enclosing) longer) :
    ∃ included ∈ (graph.getModule owner).includes, longer = included :: owner :: enclosing := by
  obtain ⟨outer, houter, included, visible, rfl⟩ := h
  obtain rfl := Option.some.inj houter
  exact ⟨included, visible, rfl⟩

theorem suffix_of_extends {longer : List ModuleId}
    (h : Relation.ReflTransGen graph.Extends walk longer) : walk <:+ longer := by
  induction h with
  | refl => exact List.suffix_rfl
  | tail _ hstep ih =>
      obtain ⟨_, _, included, _, rfl⟩ := hstep
      exact ih.trans (List.suffix_cons included _)

namespace IncludeWalk

theorem push (h : graph.IncludeWalk root (owner :: enclosing)) {included : ModuleId}
    (visible : included ∈ (graph.getModule owner).includes) :
    graph.IncludeWalk root (included :: owner :: enclosing) :=
  h.tail (extends_include visible)

theorem pop (h : graph.IncludeWalk root (owner :: enclosing)) (hne : enclosing ≠ []) :
    graph.IncludeWalk root enclosing := by
  rcases Relation.ReflTransGen.cases_tail h with heq | ⟨before, hwalk, _, _, _, _, heq⟩
  · exact (hne (List.cons.inj heq).2).elim
  · obtain ⟨-, rfl⟩ := List.cons.inj heq
    exact hwalk

theorem sees (h : graph.IncludeWalk root walk) : ∀ owner ∈ walk.head?, graph.Sees root owner := by
  induction h with
  | refl =>
      intro owner howner
      obtain rfl := Option.some.inj howner
      exact .refl
  | tail _ hstep ih =>
      obtain ⟨outer, houter, included, visible, rfl⟩ := hstep
      intro owner howner
      obtain rfl := Option.some.inj howner
      exact (ih outer houter).tail visible

theorem lt_length (h : graph.IncludeWalk root walk) (hclosed : graph.Closed)
    (hroot : root < graph.modules.length) : ∀ id ∈ walk, id < graph.modules.length := by
  induction h with
  | refl => exact List.forall_mem_singleton.mpr hroot
  | tail _ hstep ih =>
      obtain ⟨outer, _, included, visible, rfl⟩ := hstep
      exact List.forall_mem_cons.mpr ⟨hclosed.includes_lt outer included visible, ih⟩

end IncludeWalk

/-! ## The stacks that a request comes by -/

/-- The stacks by which a request for a type comes to the modules that it looks into, in this
order. -/
def visits (graph : Graph) (type : TypeId) :
    ℕ → List ModuleId → List (ModuleId × TypeId) → List (List ModuleId)
  | 0, _, _ => []
  | _ + 1, [], _ => []
  | depth + 1, owner :: enclosing, guarded =>
    if (owner, type) ∈ guarded then []
    else
      (owner :: enclosing) ::
        ((graph.getModule owner).includes.flatMap fun included ↦
          graph.visits type depth (included :: owner :: enclosing) ((owner, type) :: guarded)) ++
        if type ∈ (graph.getModule owner).requires then
          graph.visits type depth enclosing ((owner, type) :: guarded)
        else []

theorem visits_of_guarded (h : (owner, type) ∈ guarded) :
    graph.visits type depth (owner :: enclosing) guarded = [] := by
  cases depth with
  | zero => rfl
  | succ depth => rw [visits, if_pos h]

theorem visits_of_fresh (h : (owner, type) ∉ guarded) :
    graph.visits type (depth + 1) (owner :: enclosing) guarded =
      (owner :: enclosing) ::
        ((graph.getModule owner).includes.flatMap fun included ↦
          graph.visits type depth (included :: owner :: enclosing) ((owner, type) :: guarded)) ++
        if type ∈ (graph.getModule owner).requires then
          graph.visits type depth enclosing ((owner, type) :: guarded)
        else [] := by
  rw [visits, if_neg h]

/-- How a request comes by a stack: it starts there, or goes on from its own stack into an included
module or out into the enclosing one. -/
theorem mem_visits_succ : visited ∈ graph.visits type (depth + 1) (owner :: enclosing) guarded ↔
    (owner, type) ∉ guarded ∧
      (visited = owner :: enclosing ∨
        (∃ included ∈ (graph.getModule owner).includes, visited ∈
          graph.visits type depth (included :: owner :: enclosing) ((owner, type) :: guarded)) ∨
        type ∈ (graph.getModule owner).requires ∧
          visited ∈ graph.visits type depth enclosing ((owner, type) :: guarded)) := by
  by_cases hguarded : (owner, type) ∈ guarded
  · simp [visits_of_guarded hguarded, hguarded]
  · rw [visits_of_fresh hguarded]
    simp only [List.cons_append, List.mem_cons, List.mem_append, List.mem_flatMap,
      List.mem_ite_nil_right, hguarded, not_false_eq_true, true_and]

theorem exists_cons_of_mem_visits (h : visited ∈ graph.visits type depth stack guarded) :
    ∃ rest owner enclosing, depth = rest + 1 ∧ stack = owner :: enclosing := by
  cases depth with
  | zero => exact (List.not_mem_nil h).elim
  | succ rest =>
      cases stack with
      | nil => exact (List.not_mem_nil h).elim
      | cons owner enclosing => exact ⟨rest, owner, enclosing, rfl, rfl⟩

theorem includeWalk_of_mem_visits (hstack : graph.IncludeWalk root stack)
    (h : visited ∈ graph.visits type depth stack guarded) : graph.IncludeWalk root visited := by
  induction depth generalizing stack guarded with
  | zero => exact (List.not_mem_nil h).elim
  | succ depth ih =>
      obtain ⟨_, owner, enclosing, -, rfl⟩ := exists_cons_of_mem_visits h
      obtain ⟨_, rfl | ⟨included, visible, hbelow⟩ | ⟨_, houtside⟩⟩ := mem_visits_succ.mp h
      · exact hstack
      · exact ih (hstack.push visible) hbelow
      · obtain ⟨_, _, _, -, hne⟩ := exists_cons_of_mem_visits houtside
        exact ih (hstack.pop (hne ▸ List.cons_ne_nil _ _)) houtside

/-- A request that cannot leave its module only goes further in. -/
theorem suffix_of_mem_visits (hshut : graph.ShutIn guarded type stack)
    (h : visited ∈ graph.visits type depth stack guarded) : stack <:+ visited := by
  induction depth generalizing stack guarded with
  | zero => exact (List.not_mem_nil h).elim
  | succ depth ih =>
      obtain ⟨_, owner, enclosing, -, rfl⟩ := exists_cons_of_mem_visits h
      obtain ⟨_, rfl | ⟨included, visible, hbelow⟩ | ⟨required, houtside⟩⟩ := mem_visits_succ.mp h
      · exact List.suffix_rfl
      · have hinside := ih (fun _ _ houter ↦ by simp_all) hbelow
        exact (List.suffix_cons included _).trans hinside
      · obtain ⟨_, outer, rest, -, rfl⟩ := exists_cons_of_mem_visits houtside
        have houter := List.mem_cons_of_mem (owner, type) (hshut required outer rfl)
        rw [visits_of_guarded houter] at houtside
        exact (List.not_mem_nil houtside).elim

theorem eq_of_cons_suffix {inner other : ModuleId} (h : inner :: stack <:+ visited)
    (h' : other :: stack <:+ visited) : inner = other := by
  have hsuffix := List.suffix_of_suffix_length_le h h' (Nat.le_refl _)
  exact (List.cons.inj (hsuffix.eq_of_length rfl)).1

/-- A request outside a module whose own request is guarded does not come by that module on its
way. -/
theorem not_suffix_of_mem_visits (hguarded : (owner, type) ∈ guarded)
    (h : visited ∈ graph.visits type depth enclosing guarded) :
    ¬ owner :: enclosing <:+ visited := by
  intro hsuffix
  induction depth generalizing owner enclosing guarded with
  | zero => exact (List.not_mem_nil h).elim
  | succ depth ih =>
      obtain ⟨_, outer, rest, -, rfl⟩ := exists_cons_of_mem_visits h
      obtain ⟨_, rfl | ⟨included, visible, hbelow⟩ | ⟨_, houtside⟩⟩ := mem_visits_succ.mp h
      · simpa using hsuffix.length_le
      · have hinside := suffix_of_mem_visits (fun _ _ houter ↦ by simp_all) hbelow
        obtain rfl := eq_of_cons_suffix hinside hsuffix
        rw [visits_of_guarded (List.mem_cons_of_mem _ hguarded)] at hbelow
        exact (List.not_mem_nil hbelow).elim
      · exact ih List.mem_cons_self houtside ((List.suffix_cons owner _).trans hsuffix)

/-- A request comes by no stack twice. -/
theorem nodup_visits (hgraph : graph.Unrepeated) :
    (graph.visits type depth stack guarded).Nodup := by
  induction depth generalizing stack guarded with
  | zero => exact List.nodup_nil
  | succ depth ih =>
      match stack with
      | [] => exact List.nodup_nil
      | owner :: enclosing =>
          by_cases hguarded : (owner, type) ∈ guarded
          · rw [visits_of_guarded hguarded]
            exact List.nodup_nil
          have hinside : ∀ included, ∀ visited ∈ graph.visits type depth
              (included :: owner :: enclosing) ((owner, type) :: guarded),
              included :: owner :: enclosing <:+ visited :=
            fun included visited hmem ↦
              suffix_of_mem_visits (fun _ _ houter ↦ by simp_all) hmem
          have houtside : ∀ visited ∈ (if type ∈ (graph.getModule owner).requires then
              graph.visits type depth enclosing ((owner, type) :: guarded) else []),
              ¬ owner :: enclosing <:+ visited := by
            intro visited hmem
            rw [List.mem_ite_nil_right] at hmem
            exact not_suffix_of_mem_visits List.mem_cons_self hmem.2
          rw [visits_of_fresh hguarded, List.cons_append, List.nodup_cons, List.mem_append]
          refine ⟨?_, List.Nodup.append ?_ ?_ ?_⟩
          · rintro (hbelow | hmem)
            · obtain ⟨included, _, hmem⟩ := List.mem_flatMap.mp hbelow
              simpa using (hinside included _ hmem).length_le
            · exact houtside _ hmem List.suffix_rfl
          · rw [List.nodup_flatMap]
            refine ⟨fun _ _ ↦ ih, (hgraph.nodup_includes owner).imp fun hne ↦ ?_⟩
            intro visited hmem hmem'
            exact hne (eq_of_cons_suffix (hinside _ _ hmem) (hinside _ _ hmem'))
          · split_ifs
            · exact ih
            · exact List.nodup_nil
          · intro visited hbelow hmem
            obtain ⟨included, _, hbelow⟩ := List.mem_flatMap.mp hbelow
            exact houtside _ hmem ((List.suffix_cons included _).trans (hinside _ _ hbelow))

/-- On its way further in, a request guards the modules of its stack and comes to none of them
again. -/
theorem nodup_of_mem_visits (hnodup : enclosing.Nodup)
    (h : visited ∈ graph.visits type depth (owner :: enclosing) (enclosing.map (·, type))) :
    visited.Nodup := by
  induction depth generalizing owner enclosing with
  | zero => exact (List.not_mem_nil h).elim
  | succ depth ih =>
      obtain ⟨hfresh, hvisited⟩ := mem_visits_succ.mp h
      have hnew : owner ∉ enclosing := fun hmem ↦ hfresh (List.mem_map_of_mem hmem)
      have hown : (owner :: enclosing).Nodup := List.nodup_cons.mpr ⟨hnew, hnodup⟩
      rcases hvisited with rfl | ⟨included, _, hbelow⟩ | ⟨_, houtside⟩
      · exact hown
      · exact ih hown hbelow
      · obtain ⟨_, outer, rest, -, rfl⟩ := exists_cons_of_mem_visits houtside
        have houter : (outer, type) ∈ (owner, type) :: (outer :: rest).map (·, type) := by simp
        rw [visits_of_guarded houter] at houtside
        exact (List.not_mem_nil houtside).elim

theorem mem_visits_of_extends
    (hwalk : Relation.ReflTransGen graph.Extends (owner :: enclosing) visited)
    (hnodup : visited.Nodup) {bound : ℕ} (hlt : ∀ id ∈ visited, id < bound)
    (hdepth : bound < depth + enclosing.length) :
    visited ∈ graph.visits type depth (owner :: enclosing) (enclosing.map (·, type)) := by
  induction depth generalizing owner enclosing with
  | zero =>
      have hsub : visited ⊆ List.range bound := fun id hid ↦ List.mem_range.mpr (hlt id hid)
      have hlength := (hnodup.subperm hsub).length_le
      have hprefix := (suffix_of_extends hwalk).length_le
      simp only [List.length_range, List.length_cons] at hlength hprefix
      omega
  | succ depth ih =>
      have hown : (owner :: enclosing).Nodup := hnodup.sublist (suffix_of_extends hwalk).sublist
      have hfresh : (owner, type) ∉ enclosing.map (·, type) := by
        simpa using (List.nodup_cons.mp hown).1
      refine mem_visits_succ.mpr ⟨hfresh, ?_⟩
      rcases Relation.ReflTransGen.cases_head hwalk with rfl | ⟨_, hstep, hrest⟩
      · exact Or.inl rfl
      · obtain ⟨included, visible, rfl⟩ := exists_included_of_extends hstep
        refine Or.inr (Or.inl ⟨included, visible, ih hrest ?_⟩)
        rw [List.length_cons]
        omega

theorem includePath_of_mem_visits (h : visited ∈ graph.visits type depth [root] []) :
    graph.IncludePath root visited :=
  ⟨includeWalk_of_mem_visits .refl h, nodup_of_mem_visits List.nodup_nil h⟩

/-- A request that starts in a root with enough depth comes by every path from it. -/
theorem mem_visits_iff_includePath (hclosed : graph.Closed) (hroot : root < graph.modules.length)
    (hdepth : graph.modules.length < depth) :
    visited ∈ graph.visits type depth [root] [] ↔ graph.IncludePath root visited := by
  refine ⟨includePath_of_mem_visits, fun ⟨hwalk, hnodup⟩ ↦ ?_⟩
  exact mem_visits_of_extends hwalk hnodup (hwalk.lt_length hclosed hroot) hdepth

end Wiring.Graph
