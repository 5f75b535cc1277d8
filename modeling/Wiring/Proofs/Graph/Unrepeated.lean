import Mathlib.Data.List.GetD
import Mathlib.Data.List.Nodup
import Wiring.Proofs.Graph.Built

/-!
# Declarations without repetition

A module of a graph that is built by declarations includes no module twice, and lists every provider
once.  No two modules have the same name.
-/

namespace Wiring.Graph

/-- No module lists an included module or a provider twice. -/
structure Unrepeated (graph : Graph) : Prop where
  includes : ∀ decl ∈ graph.modules, decl.includes.Nodup
  providers : ∀ decl ∈ graph.modules, decl.providers.Nodup
  declared : ∀ decl ∈ graph.modules, ∀ id ∈ decl.providers, id < graph.providers.length

namespace Unrepeated

variable {graph : Graph}

theorem nodup_includes (h : graph.Unrepeated) (id : ModuleId) :
    (graph.getModule id).includes.Nodup := by
  rw [getModule, List.getD_eq_getElem?_getD]
  cases hget : graph.modules[id]? with
  | none => exact List.nodup_nil
  | some decl => exact h.includes decl (List.mem_of_getElem? hget)

theorem nodup_providers (h : graph.Unrepeated) (id : ModuleId) :
    (graph.getModule id).providers.Nodup := by
  rw [getModule, List.getD_eq_getElem?_getD]
  cases hget : graph.modules[id]? with
  | none => exact List.nodup_nil
  | some decl => exact h.providers decl (List.mem_of_getElem? hget)

theorem declared_lt (h : graph.Unrepeated) (id : ModuleId) :
    ∀ provider ∈ (graph.getModule id).providers, provider < graph.providers.length := by
  rw [getModule, List.getD_eq_getElem?_getD]
  cases hget : graph.modules[id]? with
  | none => exact List.forall_mem_nil _
  | some decl => exact h.declared decl (List.mem_of_getElem? hget)

theorem modifyModule (h : graph.Unrepeated) (owner : ModuleId) (f : ModuleDecl → ModuleDecl)
    (hincludes : ∀ decl ∈ graph.modules, (f decl).includes.Nodup)
    (hproviders : ∀ decl, (f decl).providers = decl.providers) :
    Unrepeated { graph with modules := graph.modules.modify owner f } where
  includes := by
    intro decl hdecl
    obtain hold | ⟨old, hold, rfl⟩ := mem_modify hdecl
    · exact h.includes decl hold
    · exact hincludes old hold
  providers := by
    intro decl hdecl
    obtain hold | ⟨old, hold, rfl⟩ := mem_modify hdecl
    · exact h.providers decl hold
    · exact hproviders old ▸ h.providers old hold
  declared := by
    intro decl hdecl
    obtain hold | ⟨old, hold, rfl⟩ := mem_modify hdecl
    · exact h.declared decl hold
    · exact hproviders old ▸ h.declared old hold

theorem addModule (h : graph.Unrepeated) {next : Graph} {id : ModuleId} {name : String}
    {source : Path} (added : graph.addModule name source = .ok (id, next)) : next.Unrepeated := by
  obtain ⟨-, -, rfl⟩ := addModule_eq_ok_iff.mp added
  have hnew : ∀ decl ∈ [(⟨name, source, [], [], []⟩ : ModuleDecl)], decl.includes.Nodup ∧
      decl.providers.Nodup ∧ ∀ id ∈ decl.providers, id < graph.providers.length :=
    List.forall_mem_singleton.mpr ⟨List.nodup_nil, List.nodup_nil, List.forall_mem_nil _⟩
  exact ⟨List.forall_mem_append.mpr ⟨h.includes, fun decl hdecl ↦ (hnew decl hdecl).1⟩,
    List.forall_mem_append.mpr ⟨h.providers, fun decl hdecl ↦ (hnew decl hdecl).2.1⟩,
    List.forall_mem_append.mpr ⟨h.declared, fun decl hdecl ↦ (hnew decl hdecl).2.2⟩⟩

theorem addProvider (h : graph.Unrepeated) (owner : ModuleId) (name : String)
    (parameters : List TypeId) (returns : TypeId) (deferred : Bool) :
    (graph.addProvider owner name parameters returns deferred).2.Unrepeated := by
  refine ⟨fun decl hdecl ↦ ?_, fun decl hdecl ↦ ?_, fun decl hdecl id hid ↦ ?_⟩
  · obtain hold | ⟨old, hold, rfl⟩ := mem_modify hdecl
    · exact h.includes decl hold
    · exact h.includes old hold
  · obtain hold | ⟨old, hold, rfl⟩ := mem_modify hdecl
    · exact h.providers decl hold
    · have hnew : graph.providers.length ∉ old.providers :=
        fun hmem ↦ Nat.lt_irrefl _ (h.declared old hold _ hmem)
      exact (h.providers old hold).append (List.nodup_singleton _)
        (List.disjoint_singleton.mpr hnew)
  · have hlength : (graph.addProvider owner name parameters returns deferred).2.providers.length =
        graph.providers.length + 1 := List.length_append
    rw [hlength]
    obtain hold | ⟨old, hold, rfl⟩ := mem_modify hdecl
    · exact Nat.lt_succ_of_lt (h.declared decl hold id hid)
    · rcases List.mem_append.mp hid with hearlier | hnew
      · exact Nat.lt_succ_of_lt (h.declared old hold id hearlier)
      · exact (List.mem_singleton.mp hnew) ▸ Nat.lt_succ_self _

theorem addInclude (h : graph.Unrepeated) (owner included : ModuleId) :
    (graph.addInclude owner included).Unrepeated := by
  refine h.modifyModule owner _ (fun decl hdecl ↦ ?_) fun decl ↦ ?_
  · split_ifs with hpresent
    · exact h.includes decl hdecl
    · have hnew : included ∉ decl.includes := by simpa using hpresent
      exact (h.includes decl hdecl).append (List.nodup_singleton _)
        (List.disjoint_singleton.mpr hnew)
  · split_ifs <;> rfl

end Unrepeated

theorem Built.unrepeated {graph : Graph} (h : graph.Built) : graph.Unrepeated := by
  induction h with
  | empty => exact ⟨by simp [Graph.empty], by simp [Graph.empty], by simp [Graph.empty]⟩
  | intern _ _ _ ih => exact ⟨ih.includes, ih.providers, ih.declared⟩
  | defineClass _ _ _ _ ih => exact ⟨ih.includes, ih.providers, ih.declared⟩
  | addModule _ _ _ added ih => exact ih.addModule added
  | addProvider _ owner name parameters returns deferred _ _ _ ih =>
      exact ih.addProvider owner name parameters returns deferred
  | addInclude _ owner included _ _ ih => exact ih.addInclude owner included
  | addRequired _ owner _ _ _ ih => exact ih.modifyModule owner _ ih.includes fun _ ↦ rfl
  | addComponent _ name source root present added ih =>
      obtain ⟨-, -, rfl⟩ := addComponent_eq_ok_iff.mp added
      exact ⟨ih.includes, ih.providers, ih.declared⟩
  | addResolver _ _ _ _ _ _ ih => exact ⟨ih.includes, ih.providers, ih.declared⟩

theorem nodup_names_modify {graph : Graph} (h : graph.moduleNames.Nodup) (owner : ModuleId)
    {f : ModuleDecl → ModuleDecl} (hf : ∀ decl, (f decl).name = decl.name) :
    ((graph.modules.modify owner f).map ModuleDecl.name).Nodup := by
  rw [map_modify hf]
  exact h

theorem Built.nodup_moduleNames {graph : Graph} (h : graph.Built) : graph.moduleNames.Nodup := by
  induction h with
  | empty => exact List.nodup_nil
  | intern _ _ _ ih => exact ih
  | defineClass _ _ _ _ ih => exact ih
  | addModule _ name source added ih =>
      obtain ⟨hnew, -, rfl⟩ := addModule_eq_ok_iff.mp added
      rw [moduleNames, List.map_append, List.map_singleton]
      exact ih.append (List.nodup_singleton _) (List.disjoint_singleton.mpr hnew)
  | addProvider _ owner _ _ _ _ _ _ _ ih => exact nodup_names_modify ih owner fun _ ↦ rfl
  | addInclude _ owner _ _ _ ih =>
      exact nodup_names_modify ih owner fun decl ↦ by split_ifs <;> rfl
  | addRequired _ owner _ _ _ ih => exact nodup_names_modify ih owner fun _ ↦ rfl
  | addComponent _ name source root present added ih =>
      obtain ⟨-, -, rfl⟩ := addComponent_eq_ok_iff.mp added
      exact ih
  | addResolver _ _ _ _ _ _ ih => exact ih

theorem Built.eq_of_name_eq {graph : Graph} (h : graph.Built) {id other : ModuleId}
    (hid : id < graph.modules.length) (hother : other < graph.modules.length)
    (hname : (graph.getModule id).name = (graph.getModule other).name) : id = other := by
  rw [getModule, getModule, List.getD_eq_getElem _ _ hid, List.getD_eq_getElem _ _ hother] at hname
  have hlength : graph.moduleNames.length = graph.modules.length := List.length_map ..
  refine (List.getElem?_inj (hlength ▸ hid) h.nodup_moduleNames).mp ?_
  rw [moduleNames, List.getElem?_map, List.getElem?_map, List.getElem?_eq_getElem hid,
    List.getElem?_eq_getElem hother, Option.map_some, Option.map_some, hname]

end Wiring.Graph
