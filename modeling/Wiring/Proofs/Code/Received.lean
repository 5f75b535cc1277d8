import Wiring.Proofs.Code.Closed
import Wiring.Proofs.Code.Grouped

/-!
# What an emitter receives

A run hands nothing to the emitter before all files are there.  So an emitter that does not fail
itself has received nothing when the run fails, and all files in their order when it does not.
-/

namespace Wiring

open Code

section World

variable {σ : Type}

def Graph.reportOn (graph : Graph) (files : List File) : Report :=
  ⟨graph.components.length, files.map File.path, accessorCount files⟩

theorem run_emitAll_cons {emit : Emitter (StateM σ)} {file : File} {files : List File}
    {world next : σ} (h : (emit file).run.run world = (.ok (), next)) :
    (emitAll emit (file :: files)).run.run world = (emitAll emit files).run.run next := by
  rw [emitAll, ExceptT.run_bind, StateT.run_bind, h]
  rfl

/-- A graph whose files are there is reported on when the emitter has taken them. -/
theorem run_generate_of_ok {graph : Graph} {files : List File}
    (h : graph.implementations = .ok files) (emit : Emitter (StateM σ)) (world : σ) :
    (graph.generate emit).run.run world =
      match (emitAll emit files).run.run world with
      | (.error problem, after) => (.error problem, after)
      | (.ok (), after) => (.ok (graph.reportOn files), after) := by
  have hrun : (graph.generate emit).run.run world =
      (do
        emitAll emit files
        return graph.reportOn files : Emission (StateM σ) Report).run.run world := by
    rw [Graph.generate, h]
    rfl
  rw [hrun, ExceptT.run_bind, StateT.run_bind]
  rcases (emitAll emit files).run.run world with ⟨⟨problem⟩ | ⟨⟨⟩⟩, after⟩
  · rfl
  · rfl

/-- The emitter that changes a world with every file and does not fail. -/
def Emitter.infallible (receive : File → σ → σ) : Emitter (StateM σ) := fun file ↦
  modify (receive file)

theorem run_emitAll (receive : File → σ → σ) (files : List File) (world : σ) :
    (emitAll (Emitter.infallible receive) files).run.run world =
      (.ok (), files.foldl (fun world file ↦ receive file world) world) := by
  induction files generalizing world with
  | nil => rfl
  | cons file files ih => exact ih (receive file world)

theorem run_generate (graph : Graph) (receive : File → σ → σ) (world : σ) :
    (graph.generate (Emitter.infallible receive)).run.run world =
      match graph.implementations with
      | .error problem => (.error problem, world)
      | .ok files => (.ok (graph.reportOn files),
          files.foldl (fun world file ↦ receive file world) world) := by
  cases hfiles : graph.implementations with
  | error problem =>
      rw [Graph.generate, hfiles]
      rfl
  | ok files => rw [run_generate_of_ok hfiles, run_emitAll]

/-- What a run gives, and the world that it leaves. -/
theorem run_generateFrom (source : Emission (StateM σ) Graph) (receive : File → σ → σ)
    (world : σ) : (generateFrom source (Emitter.infallible receive)).run.run world =
      match source.run.run world with
      | (.error problem, after) => (.error problem, after)
      | (.ok graph, after) => (graph.generate (Emitter.infallible receive)).run.run after := by
  rw [generateFrom, ExceptT.run_bind, StateT.run_bind]
  rcases source.run.run world with ⟨loaded, after⟩
  cases loaded <;> rfl

theorem put_of_apart {path : Path} {text : String} {texts : EmittedTexts}
    (h : ∀ entry ∈ texts, entry.1.same path = false) :
    EmittedTexts.put path text texts = texts ++ [(path, text)] := by
  induction texts with
  | nil => rfl
  | cons entry texts ih =>
      obtain ⟨hentry, hrest⟩ := List.forall_mem_cons.mp h
      rw [EmittedTexts.put, hentry, ih hrest]
      rfl

/-- Files of different paths do not replace each other in memory. -/
theorem foldl_put_of_apart {files : List File} {texts : EmittedTexts} (hapart : Graph.Apart files)
    (hnew : ∀ entry ∈ texts, ∀ file ∈ files, entry.1.same file.path = false) :
    files.foldl (fun texts file ↦ EmittedTexts.put file.path file.text texts) texts =
      texts ++ files.map fun file ↦ (file.path, file.text) := by
  induction files generalizing texts with
  | nil => rw [List.foldl_nil, List.map_nil, List.append_nil]
  | cons file files ih =>
      obtain ⟨hfile, hrest⟩ := List.pairwise_cons.mp hapart
      rw [List.foldl_cons,
        put_of_apart fun entry hentry ↦ hnew entry hentry file List.mem_cons_self,
        ih hrest, List.append_assoc, List.map_cons, List.singleton_append]
      intro entry hentry later hlater
      rcases List.mem_append.mp hentry with hold | hlast
      · exact hnew entry hold later (List.mem_cons_of_mem _ hlater)
      · rw [List.mem_singleton.mp hlast]
        exact hfile later hlater

theorem run_generate_emitToMemory {graph : Graph} {files : List File}
    (h : graph.implementations = .ok files) : (graph.generate emitToMemory).run.run [] =
      (.ok (graph.reportOn files), files.map fun file ↦ (file.path, file.text)) := by
  have hrun := run_generate graph (fun file ↦ EmittedTexts.put file.path file.text) []
  rw [h] at hrun
  dsimp only at hrun
  have hapart := (Graph.houses_of_implementations h).1.apart
  rw [foldl_put_of_apart hapart (List.forall_mem_nil _)] at hrun
  exact hrun

/-- A run that fails leaves the world as it was when the graph had been loaded.  A run that succeeds
has handed over files of different paths, in which every component has its class once, in the file
of its output path; files and classes stand in the order of the components.  Memory that was empty
holds the text of each file, and the report counts the different plans of all components. -/
theorem generateFrom_all_or_nothing (source : Emission (StateM σ) Graph) (receive : File → σ → σ)
    (world : σ) :
    (∀ problem after, (generateFrom source (Emitter.infallible receive)).run.run world =
      (.error problem, after) → after = (source.run.run world).2) ∧
    ∀ report after, (generateFrom source (Emitter.infallible receive)).run.run world =
      (.ok report, after) → ∃ graph files resolutions,
        source.run.run world = (.ok graph, (source.run.run world).2) ∧
        graph.implementations = .ok files ∧
        after = files.foldl (fun world file ↦ receive file world) (source.run.run world).2 ∧
        graph.Houses graph.componentIds files ∧
        (graph.generate emitToMemory).run.run [] =
          (.ok report, files.map fun file ↦ (file.path, file.text)) ∧
        List.Forall₂ (fun id resolution ↦ graph.resolution id = .ok resolution)
          graph.componentIds resolutions ∧
        report = ⟨graph.components.length, files.map File.path,
          (resolutions.map Resolution.distinctPlans).sum⟩ := by
  rcases hloaded : source.run.run world with ⟨loaded, before⟩
  have hrun := run_generateFrom source receive world
  rw [hloaded] at hrun
  cases loaded with
  | error problem =>
      rw [hrun]
      refine ⟨fun _ after heq ↦ (Prod.mk.inj heq).2.symm, fun report after heq ↦ ?_⟩
      exact absurd (Prod.mk.inj heq).1 (by simp)
  | ok graph =>
      dsimp only at hrun
      rw [hrun, run_generate]
      cases hfiles : graph.implementations with
      | error problem =>
          refine ⟨fun _ after heq ↦ (Prod.mk.inj heq).2.symm, fun report after heq ↦ ?_⟩
          exact absurd (Prod.mk.inj heq).1 (by simp)
      | ok files =>
          obtain ⟨hhouses, resolutions, hresolutions, hcount⟩ :=
            Graph.houses_of_implementations hfiles
          refine ⟨fun problem after heq ↦ absurd (Prod.mk.inj heq).1 (by simp), ?_⟩
          intro report after heq
          obtain ⟨hreport, hafter⟩ := Prod.mk.inj heq
          obtain rfl := Except.ok.inj hreport
          refine ⟨graph, files, resolutions, rfl, hfiles, hafter.symm, hhouses,
            run_generate_emitToMemory hfiles, hresolutions, ?_⟩
          rw [Graph.reportOn, hcount]

end World

/-- The emitter that keeps the files as they come. -/
def keepFiles : Emitter (StateM (List File)) :=
  Emitter.infallible fun file received ↦ received ++ [file]

/-- Two components that share a file, and a graph with a component that cannot be resolved. -/
theorem siteAndTimer_received :
    (generateFrom (pure Graph.siteAndTimer) keepFiles).run.run [] =
      (.ok ⟨2, [⟨"gen/site.ts"⟩], 4⟩, [Graph.siteFile]) ∧
    Graph.siteAndTimer.Houses [0, 1] [Graph.siteFile] ∧
    (generateFrom (pure Graph.circular) keepFiles).run.run [] =
      (.error (.unresolved "Broken" "missing" "Missing"), []) := by
  have hfile : Graph.siteAndTimer.implementations = .ok [Graph.siteFile] := rfl
  have hreport : Graph.siteAndTimer.reportOn [Graph.siteFile] = ⟨2, [⟨"gen/site.ts"⟩], 4⟩ := rfl
  have hreceived : (generateFrom (pure Graph.siteAndTimer) keepFiles).run.run [] =
      (.ok ⟨2, [⟨"gen/site.ts"⟩], 4⟩, [Graph.siteFile]) := by
    refine (run_generateFrom (pure Graph.siteAndTimer) _ []).trans ((run_generate _ _ []).trans ?_)
    rw [hfile, ← hreport]
    rfl
  have hfailed : ∃ after, (generateFrom (pure Graph.circular) keepFiles).run.run [] =
      (.error (.unresolved "Broken" "missing" "Missing"), after) := ⟨_, by cbv⟩
  refine ⟨hreceived, ?_, ?_⟩
  · obtain ⟨graph, files, -, hgraph, hfiles, -, hhouses, -⟩ := (generateFrom_all_or_nothing
      (pure Graph.siteAndTimer) (fun file received ↦ received ++ [file]) []).2 _ _ hreceived
    have hsite : Graph.siteAndTimer = graph := Except.ok.inj (Prod.mk.inj hgraph).1
    subst hsite
    obtain rfl := Except.ok.inj (hfile.symm.trans hfiles)
    exact hhouses
  · obtain ⟨after, hafter⟩ := hfailed
    have hnone := (generateFrom_all_or_nothing (pure Graph.circular)
      (fun file received ↦ received ++ [file]) []).1 _ after hafter
    rw [hafter, hnone]
    rfl

end Wiring
