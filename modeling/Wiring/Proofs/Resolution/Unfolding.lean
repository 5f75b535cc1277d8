import Mathlib
import Wiring.Proofs.Lists
import Wiring.Proofs.Plan.Tree
import Wiring.Proofs.Resolution.Acyclic

/-!
# What the accessors of a component wire

One accessor is generated for each key, from the plan that is stored for it, and it calls the
accessors of the children of that plan.  Following these calls from the key of a resolver unfolds
a tree.  The tree is the plan of the resolver, up to types and the numbers of sets, exactly when
each provider in the plan is called with the arguments for which its accessor was generated.
-/

namespace Wiring

theorem eq_of_nodup_filterMap {α β : Type} {f : α → Option β} {as : List α}
    (h : (as.filterMap f).Nodup) {a b : α} (ha : a ∈ as) (hb : b ∈ as) {x : β}
    (hfa : f a = some x) (hfb : f b = some x) : a = b := by
  rw [List.Nodup, List.pairwise_filterMap] at h
  have : Std.Symm fun a b ↦ ∀ x, f a = some x → ∀ y, f b = some y → x ≠ y :=
    ⟨fun _ _ hne x hx y hy ↦ (hne y hy x hx).symm⟩
  by_contra hne
  exact h.forall ha hb hne x hfa x hfb rfl

/-- The tree that is read off the stored plans from a key on: the plan that is stored for the key,
each child replaced by what is read off from the key of the child. -/
inductive Unfolds (plans : List Plan) : PlanKey → Plan → Prop where
  | intro {key : PlanKey} {stored : Plan} {subtrees : List Plan}
      (found : firstAt plans key = some stored)
      (length : stored.children.length = subtrees.length)
      (each : ∀ pair ∈ stored.children.zip subtrees, Unfolds plans pair.1.key pair.2) :
      Unfolds plans key (stored.withChildren subtrees)

/-- Every node of the plan calls the accessors that the accessor of its key calls. -/
def CallsAsStored (plans : List Plan) (plan : Plan) : Prop :=
  ∀ node ∈ plan.walk, ∀ stored ∈ plans, stored.key = node.key → stored.surface = node.surface

theorem CallsAsStored.child {plans : List Plan} {plan child : Plan} (h : CallsAsStored plans plan)
    (hchild : child ∈ plan.children) : CallsAsStored plans child :=
  fun node hnode ↦ h node (Plan.mem_walk_of_mem_child hchild hnode)

theorem callsAsStored_iff {plans : List Plan} {plan : Plan} : CallsAsStored plans plan ↔
    (∀ stored ∈ plans, stored.key = plan.key → stored.surface = plan.surface) ∧
      ∀ child ∈ plan.children, CallsAsStored plans child := by
  refine ⟨fun h ↦ ⟨h plan plan.self_mem_walk, fun child ↦ h.child⟩, ?_⟩
  rintro ⟨hroot, hchildren⟩ node hnode
  rcases Plan.mem_walk.mp hnode with rfl | ⟨child, hchild, hbelow⟩
  · exact hroot
  · exact hchildren child hchild node hbelow

namespace Unfolds

variable {plans : List Plan} {key : PlanKey} {tree other : Plan}

theorem inv (h : Unfolds plans key tree) : ∃ stored subtrees, firstAt plans key = some stored ∧
    List.Forall₂ (fun child subtree ↦ Unfolds plans child.key subtree) stored.children subtrees ∧
    tree = stored.withChildren subtrees := by
  cases h with
  | intro found length each =>
      exact ⟨_, _, found, List.forall₂_iff_zip.mpr ⟨length, fun hpair ↦ each _ hpair⟩, rfl⟩

theorem of_firstAt {stored : Plan} {subtrees : List Plan} (h : firstAt plans key = some stored)
    (hsubtrees : List.Forall₂ (fun child subtree ↦ Unfolds plans child.key subtree)
      stored.children subtrees) : Unfolds plans key (stored.withChildren subtrees) := by
  obtain ⟨hlength, heach⟩ := List.forall₂_iff_zip.mp hsubtrees
  exact .intro h hlength fun pair hpair ↦ heach hpair

theorem unique (h : Unfolds plans key tree) (h' : Unfolds plans key other) : tree = other := by
  induction h generalizing other with
  | @intro key stored subtrees found length each ih =>
      obtain ⟨same, others, hsame, hothers, rfl⟩ := h'.inv
      obtain rfl : stored = same := Option.some.inj (found.symm.trans hsame)
      have hsubtrees : List.Forall₂ (fun subtree (child : Plan) ↦
          ∀ other, Unfolds plans child.key other → subtree = other) subtrees stored.children :=
        (List.forall₂_iff_zip.mpr ⟨length, fun hpair _ hother ↦ ih _ hpair hother⟩).flip
      have hequal : List.Forall₂ (· = ·) subtrees others :=
        forall₂_trans hsubtrees hothers fun _ _ other heq hother ↦ heq other hother
      rw [List.forall₂_eq_eq_eq] at hequal
      rw [hequal]

end Unfolds

/-- The plans are the first ones of their keys on a walk that goes down to the leaves and meets
no set twice. -/
structure Shared (plans walked : List Plan) : Prop where
  nodup : (plans.map Plan.key).Nodup
  stored : ∀ key, firstAt plans key = firstAt walked key
  children : ∀ node ∈ walked, ∀ child ∈ node.children, child ∈ walked
  sets : ∀ node ∈ walked, ∀ other ∈ walked, ∀ id, node.key = .collect id →
    other.key = .collect id → node = other

namespace Shared

variable {plans walked : List Plan} {key : PlanKey} {plan node stored tree : Plan}

theorem of_firstAt (h : Shared plans walked) (hstored : firstAt plans key = some stored) :
    stored ∈ walked ∧ stored.key = key :=
  firstAt_eq_some (h.stored key ▸ hstored)

theorem firstAt_of_mem (h : Shared plans walked) (hstored : stored ∈ plans) :
    firstAt plans stored.key = some stored :=
  firstAt_of_nodup h.nodup hstored

theorem exists_stored (h : Shared plans walked) (hnode : node ∈ walked) :
    ∃ stored, firstAt plans node.key = some stored := by
  obtain ⟨first, hfirst⟩ := exists_firstAt hnode
  exact ⟨first, (h.stored node.key).trans hfirst⟩

theorem eq_of_collect (h : Shared plans walked) (hnode : node ∈ walked) {id : SetId}
    (hkey : node.key = .collect id) (hstored : firstAt plans node.key = some stored) :
    stored = node := by
  obtain ⟨hmem, hsame⟩ := h.of_firstAt hstored
  exact h.sets stored hmem node hnode id (hsame.trans hkey) hkey

theorem exists_unfolds (h : Shared plans walked) (hsettled : Settled plans key)
    (hkey : ∃ node ∈ walked, node.key = key) : ∃ tree, Unfolds plans key tree := by
  induction hsettled with
  | intro key _ ih =>
      obtain ⟨node, hnode, rfl⟩ := hkey
      obtain ⟨stored, hstored⟩ := h.exists_stored hnode
      obtain ⟨hmem, hsame⟩ := h.of_firstAt hstored
      obtain ⟨hplan, _⟩ := firstAt_eq_some hstored
      have hsubtrees : ∀ child ∈ stored.children, ∃ tree, Unfolds plans child.key tree :=
        fun child hchild ↦ ih child.key ⟨stored, hplan, hsame, child, hchild, rfl⟩
          ⟨child, h.children stored hmem child hchild, rfl⟩
      obtain ⟨subtrees, hall⟩ := exists_forall₂ hsubtrees
      exact ⟨_, .of_firstAt hstored hall⟩

/-- What unfolds from a plan that is called like another one has the skeleton of the other one,
if each node of the other one calls the accessors that its accessor calls. -/
theorem skeleton_eq (h : Shared plans walked) (hnode : node ∈ walked)
    (hcallee : node.callee = plan.callee) (hcalls : CallsAsStored plans plan)
    (hunfolds : Unfolds plans node.key tree) : tree.skeleton = plan.skeleton := by
  induction plan using Plan.induct generalizing node tree with
  | step plan ih =>
      obtain ⟨hroot, hbelow⟩ := callsAsStored_iff.mp hcalls
      obtain ⟨stored, subtrees, hstored, hsubtrees, rfl⟩ := hunfolds.inv
      obtain ⟨hmem, hsame⟩ := h.of_firstAt hstored
      have hsurface : stored.surface = plan.surface := by
        cases hkey : plan.key with
        | provide owner id =>
            have hnodeKey := Plan.provide_of_callee_eq hcallee hkey
            exact hroot stored (firstAt_eq_some hstored).1 (hsame.trans (hnodeKey.trans hkey.symm))
        | collect id =>
            obtain ⟨number, hnumber⟩ := Plan.collect_of_callee_eq hcallee hkey
            rw [h.eq_of_collect hnode hnumber hstored, ← Plan.callee_of_collect hnumber, hcallee,
              Plan.callee_of_collect hkey]
      obtain ⟨hbare, hcallees⟩ := Plan.surface_inj.mp hsurface
      refine Plan.skeleton_inj.mpr ⟨(Plan.bare_withChildren _ _).trans hbare, ?_⟩
      rw [Plan.children_withChildren]
      have htwins := forall₂_mem (map_eq_map_iff_forall₂.mp hcallees)
      refine map_eq_map_iff_forall₂.mpr (forall₂_trans hsubtrees.flip htwins ?_)
      rintro subtree child twin hsubtree ⟨hchild, htwin, hcallee⟩
      exact ih twin htwin (h.children stored hmem child hchild) hcallee (hbelow twin htwin) hsubtree

/-- Conversely, only such a plan has the skeleton of what unfolds, and it is called like the plan
that was unfolded. -/
theorem callsAsStored (h : Shared plans walked) (hplan : plan ∈ walked) (hnode : node ∈ walked)
    (hunfolds : Unfolds plans node.key tree) (hskeleton : tree.skeleton = plan.skeleton) :
    node.callee = plan.callee ∧ CallsAsStored plans plan := by
  induction plan using Plan.induct generalizing node tree with
  | step plan ih =>
      obtain ⟨stored, subtrees, hstored, hsubtrees, rfl⟩ := hunfolds.inv
      obtain ⟨hmem, hsame⟩ := h.of_firstAt hstored
      obtain ⟨hbare, hskeletons⟩ := Plan.skeleton_inj.mp hskeleton
      rw [Plan.bare_withChildren] at hbare
      rw [Plan.children_withChildren] at hskeletons
      have hpairs : List.Forall₂ (fun child twin ↦ Plan.callee child = Plan.callee twin ∧
          CallsAsStored plans twin) stored.children plan.children := by
        refine forall₂_trans (forall₂_mem hsubtrees)
          (forall₂_mem (map_eq_map_iff_forall₂.mp hskeletons)) ?_
        rintro child subtree twin ⟨hchild, -, hsubtree⟩ ⟨-, htwin, hsame⟩
        exact ih twin htwin (h.children plan hplan twin htwin)
          (h.children stored hmem child hchild) hsubtree hsame
      have hsurface : stored.surface = plan.surface := Plan.surface_inj.mpr
        ⟨hbare, map_eq_map_iff_forall₂.mpr (hpairs.imp fun _ _ hpair ↦ hpair.1)⟩
      have hbelow : ∀ twin ∈ plan.children, CallsAsStored plans twin := by
        intro twin htwin
        obtain ⟨child, hpair⟩ := exists_mem_zip_of_mem_right hpairs.length_eq htwin
        exact (List.forall₂_zip hpairs hpair).2
      cases hkey : plan.key with
      | provide owner id =>
          have hnodeKey := hsame.symm.trans (Plan.provide_of_bare_eq hbare hkey)
          refine ⟨?_, callsAsStored_iff.mpr ⟨fun other hother hotherKey ↦ ?_, hbelow⟩⟩
          · rw [Plan.callee_of_provide hnodeKey, Plan.callee_of_provide hkey]
          · have hfirst := h.firstAt_of_mem hother
            rw [hotherKey, hkey, ← hnodeKey, hstored] at hfirst
            rw [← Option.some.inj hfirst, hsurface]
      | collect id =>
          obtain ⟨number, hnumber⟩ := Plan.collect_of_bare_eq hbare hkey
          have hnodeKey := hsame.symm.trans hnumber
          refine ⟨?_, callsAsStored_iff.mpr ⟨fun other hother hotherKey ↦ ?_, hbelow⟩⟩
          · rw [Plan.callee_of_collect hnodeKey, Plan.callee_of_collect hkey,
              ← h.eq_of_collect hnode hnodeKey hstored, hsurface]
          · have hfirst := h.firstAt_of_mem hother
            rw [hotherKey] at hfirst
            rw [h.eq_of_collect hplan hkey hfirst]

end Shared

/-! ## Resolutions -/

namespace Graph

variable {graph : Graph} {id : ComponentId} {resolution : Resolution}

theorem shared_of_resolution (h : graph.resolution id = .ok resolution) :
    Shared resolution.plans (resolution.resolvers.flatMap fun item ↦ item.plan.walk) where
  nodup := (resolution_eq_ok h).2 ▸ Needs.nodup_ofResolvers _
  stored := fun key ↦ (resolution_eq_ok h).2 ▸ Needs.firstAt_ofResolvers _ key
  children := by
    intro node hnode child hchild
    obtain ⟨item, hitem, hbelow⟩ := List.mem_flatMap.mp hnode
    exact List.mem_flatMap.mpr ⟨item, hitem, Plan.child_mem_walk hbelow hchild⟩
  sets := by
    intro node hnode other hother number hkey hotherKey
    have hnodup := nodup_setIds_of_resolution h
    have hids : (resolution.resolvers.map ResolvedResolver.plan).flatMap Plan.setIds =
        (resolution.resolvers.flatMap fun item ↦ item.plan.walk).filterMap
          fun node ↦ node.key.setId? := by
      rw [List.flatMap_map, List.filterMap_flatMap]
      rfl
    rw [hids] at hnodup
    exact eq_of_nodup_filterMap hnodup hnode hother (congrArg PlanKey.setId? hkey)
      (congrArg PlanKey.setId? hotherKey)

/-- A resolution stores no key twice, and for each key the plan that stands first on the walk
through its resolvers.  The key of every resolver unfolds to one tree.  This is the plan of the
resolver, up to types and the numbers of sets, exactly when every node of the plan calls the
accessors that the accessor of its key calls. -/
theorem unfolds_to_plan_iff (h : graph.resolution id = .ok resolution) :
    (resolution.plans.map Plan.key).Nodup ∧
    (∀ key, firstAt resolution.plans key =
      firstAt (resolution.resolvers.flatMap fun item ↦ item.plan.walk) key) ∧
    ∀ item ∈ resolution.resolvers, ∃ tree,
      (∀ other, Unfolds resolution.plans item.plan.key other ↔ other = tree) ∧
      (tree.skeleton = item.plan.skeleton ↔ CallsAsStored resolution.plans item.plan) := by
  have hshared := shared_of_resolution h
  refine ⟨hshared.nodup, hshared.stored, fun item hitem ↦ ?_⟩
  have hmem : item.plan ∈ resolution.resolvers.flatMap fun item ↦ item.plan.walk :=
    List.mem_flatMap.mpr ⟨item, hitem, item.plan.self_mem_walk⟩
  have hsettled := settled_of_resolution h item hitem item.plan item.plan.self_mem_walk
  obtain ⟨tree, htree⟩ := hshared.exists_unfolds hsettled ⟨item.plan, hmem, rfl⟩
  refine ⟨tree, fun other ↦ ⟨fun hother ↦ hother.unique htree, ?_⟩, ?_, ?_⟩
  · rintro rfl
    exact htree
  · exact fun hskeleton ↦ (hshared.callsAsStored hmem hmem htree hskeleton).2
  · exact fun hcalls ↦ hshared.skeleton_eq hmem rfl hcalls htree

/-- The root and one of the modules that it includes each have a source.  Both include a storage
that takes the source of the module around it. -/
def twoSources : Graph where
  types := ((((TypeTable.empty.intern (.nominal "Source")).2.intern (.nominal "Store")).2.intern
    (.nominal "Reader")).2.intern (.nominal "Writer")).2
  modules := [⟨"Root", ⟨"root.ts"⟩, [0, 1], [1, 2], []⟩,
    ⟨"Storage", ⟨"storage.ts"⟩, [2], [], [0]⟩, ⟨"Copies", ⟨"copies.ts"⟩, [3, 4], [1], []⟩]
  providers := [⟨"source", 0, [], 0, false⟩, ⟨"reader", 0, [1], 2, false⟩,
    ⟨"store", 1, [0], 1, false⟩, ⟨"copy", 2, [], 0, false⟩, ⟨"writer", 2, [1], 3, false⟩]
  components := [⟨"App", ⟨"app.ts"⟩, 0, [⟨"reader", 2⟩, ⟨"writer", 3⟩]⟩]

theorem twoSources_built : twoSources.Built := by
  have htypes := (((Built.empty.intern (.nominal "Source") (by decide)).intern (.nominal "Store")
    (by decide)).intern (.nominal "Reader") (by decide)).intern (.nominal "Writer") (by decide)
  have hmodules := ((htypes.addModule "Root" ⟨"root.ts"⟩ rfl).addModule "Storage" ⟨"storage.ts"⟩
    rfl).addModule "Copies" ⟨"copies.ts"⟩ rfl
  have hincludes := ((hmodules.addInclude 0 1 (by decide) (by decide)).addInclude 0 2 (by decide)
    (by decide)).addInclude 2 1 (by decide) (by decide)
  have hrequired := hincludes.addRequired 1 0 (by decide) (by decide)
  have hsource := hrequired.addProvider 0 "source" [] 0 false (by decide) (by decide) (by decide)
  have hreader := hsource.addProvider 0 "reader" [1] 2 false (by decide) (by decide) (by decide)
  have hstore := hreader.addProvider 1 "store" [0] 1 false (by decide) (by decide) (by decide)
  have hcopy := hstore.addProvider 2 "copy" [] 0 false (by decide) (by decide) (by decide)
  have hwriter := hcopy.addProvider 2 "writer" [1] 3 false (by decide) (by decide) (by decide)
  have happ := hwriter.addComponent "App" ⟨"app.ts"⟩ 0 (by decide) rfl
  exact (happ.addResolver 0 "reader" 2 (by decide) (by decide)).addResolver 0 "writer" 3
    (by decide) (by decide)

def twoSourcesResolution : Resolution :=
  let source : Plan := .provide 0 0 0 [] false
  let copy : Plan := .provide 0 2 3 [] false
  let storeOf (source : Plan) : Plan := .provide 1 1 2 [source] false
  let reader : Plan := .provide 2 0 1 [storeOf source] false
  let writer : Plan := .provide 3 2 4 [storeOf copy] false
  { component := 0
    resolvers := [⟨"reader", reader⟩, ⟨"writer", writer⟩]
    modules := [0, 1, 2]
    plans := [reader, storeOf source, source, writer, copy] }

theorem twoSources_resolution : twoSources.resolution 0 = .ok twoSourcesResolution := by
  cbv

/-- What the accessors wire is not always the plan: the writer gets the store with the source of
the root. -/
theorem twoSources_unfolds_otherwise : twoSources.Built ∧
    twoSources.resolution 0 = .ok twoSourcesResolution ∧
    ∃ item ∈ twoSourcesResolution.resolvers, ∃ tree,
      Unfolds twoSourcesResolution.plans item.plan.key tree ∧
      tree.skeleton ≠ item.plan.skeleton := by
  have hsource : Unfolds twoSourcesResolution.plans (.provide 0 0) (.provide 0 0 0 [] false) := by
    have hstored : firstAt twoSourcesResolution.plans (.provide 0 0) =
        some (.provide 0 0 0 [] false) := rfl
    exact .of_firstAt hstored .nil
  have hstore : Unfolds twoSourcesResolution.plans (.provide 1 2)
      (.provide 1 1 2 [.provide 0 0 0 [] false] false) := by
    have hstored : firstAt twoSourcesResolution.plans (.provide 1 2) =
        some (.provide 1 1 2 [.provide 0 0 0 [] false] false) := rfl
    exact .of_firstAt hstored (.cons hsource .nil)
  have hwriter : Unfolds twoSourcesResolution.plans (.provide 2 4)
      (.provide 3 2 4 [.provide 1 1 2 [.provide 0 0 0 [] false] false] false) := by
    have hstored : firstAt twoSourcesResolution.plans (.provide 2 4) =
        some (.provide 3 2 4 [.provide 1 1 2 [.provide 0 2 3 [] false] false] false) := rfl
    exact .of_firstAt hstored (.cons hstore .nil)
  refine ⟨twoSources_built, twoSources_resolution, _, List.mem_cons_of_mem _ List.mem_cons_self,
    _, hwriter, ?_⟩
  simp [Plan.skeleton, Plan.skeletonAll]

theorem twoSources_unfolds_to_plan : ∃ tree,
    Unfolds twoSourcesResolution.plans (.provide 0 1) tree ∧
    tree.skeleton = (Plan.provide 2 0 1 [.provide 1 1 2 [.provide 0 0 0 [] false] false]
      false).skeleton := by
  obtain ⟨-, -, hitems⟩ := unfolds_to_plan_iff twoSources_resolution
  obtain ⟨tree, hunique, hiff⟩ := hitems _ List.mem_cons_self
  refine ⟨tree, (hunique tree).mpr rfl, hiff.mpr ?_⟩
  intro node hnode stored hstored hkey
  simp only [Plan.walk, Plan.walkAll, List.append_nil, List.mem_cons, List.not_mem_nil,
    or_false] at hnode
  simp only [twoSourcesResolution, List.mem_cons, List.not_mem_nil, or_false] at hstored
  rcases hnode with rfl | rfl | rfl <;> rcases hstored with rfl | rfl | rfl | rfl | rfl <;>
    first | rfl | exact absurd hkey (by decide)

end Graph

end Wiring
