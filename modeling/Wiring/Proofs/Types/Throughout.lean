import Mathlib.Logic.Relation
import Wiring.Proofs.Types.Normal

/-!
# What holds throughout a type

A type consists of its parts and of theirs.  What holds throughout a type still does when the table
has grown.  What is interned adds one descriptor to those of its parts, or, where a union comes down
to one type, none.
-/

namespace Wiring

/-- The property holds wherever the steps lead. -/
def Everywhere {α : Type} (step : α → α → Prop) (P : α → Prop) (a : α) : Prop :=
  ∀ b, Relation.ReflTransGen step a b → P b

theorem everywhere_iff {α : Type} {step : α → α → Prop} {P : α → Prop} {a : α} :
    Everywhere step P a ↔ P a ∧ ∀ b, step a b → Everywhere step P b := by
  constructor
  · exact fun h ↦ ⟨h a .refl, fun b hb c hc ↦ h c (.head hb hc)⟩
  · rintro ⟨ha, hnext⟩ c hc
    rcases Relation.ReflTransGen.cases_head hc with rfl | ⟨b, hb, hrest⟩
    · exact ha
    · exact hnext b hb c hrest

theorem Everywhere.here {α : Type} {step : α → α → Prop} {P : α → Prop} {a : α}
    (h : Everywhere step P a) : P a :=
  h a .refl

theorem Everywhere.next {α : Type} {step : α → α → Prop} {P : α → Prop} {a b : α}
    (h : Everywhere step P a) (hb : step a b) : Everywhere step P b :=
  (everywhere_iff.mp h).2 b hb

namespace TypeTable

variable {table later : TypeTable} {P : Descriptor → Prop} {id : TypeId} {ids : List TypeId}

/-- The second type is a part of the first. -/
def HasPart (table : TypeTable) (whole part : TypeId) : Prop :=
  part ∈ (table.get whole).parts

/-- The property holds of the type, of its parts and of theirs. -/
def Throughout (table : TypeTable) (P : Descriptor → Prop) (id : TypeId) : Prop :=
  Everywhere table.HasPart (fun part ↦ P (table.get part)) id

theorem Throughout.grows (h : table.Throughout P id) (htable : table.PartsDescend)
    (hgrows : table.Grows later) (hid : id < table.size) : later.Throughout P id := by
  induction id using Nat.strongRecOn with
  | _ id ih =>
      obtain ⟨hhere, hparts⟩ := everywhere_iff.mp h
      refine everywhere_iff.mpr ⟨?_, fun part hpart ↦ ?_⟩
      · rwa [hgrows.get_eq hid]
      · rw [HasPart, hgrows.get_eq hid] at hpart
        exact ih part (htable id part hpart) (hparts part hpart) (htable.lt_size hpart)

theorem Throughout.member (h : table.Throughout P id) {member : TypeId}
    (hmember : member ∈ table.members id) : table.Throughout P member := by
  obtain ⟨members, hget, hmembers⟩ | ⟨-, hmembers⟩ := table.exists_union_or_whole id
  · refine h.next ?_
    rw [hmembers] at hmember
    rwa [HasPart, hget]
  · rw [hmembers, List.mem_singleton] at hmember
    exact hmember ▸ h

theorem throughout_add (htable : table.PartsDescend) {descriptor : Descriptor} (hnew : P descriptor)
    (hparts : ∀ part ∈ descriptor.parts, part < table.size ∧ table.Throughout P part) :
    (table.add descriptor).2.Throughout P (table.add descriptor).1 := by
  have hget := (table.add_spec descriptor).2.1
  refine everywhere_iff.mpr ⟨by rwa [hget], fun part hpart ↦ ?_⟩
  rw [HasPart, hget] at hpart
  obtain ⟨hlt, hthroughout⟩ := hparts part hpart
  exact hthroughout.grows htable (table.grows_add descriptor) hlt

/-- What no union without members has, a union of such types has throughout. -/
theorem throughout_intern_union (htable : table.PartsDescend) (hempty : ¬P (.union []))
    (hunion : ∀ members, members ≠ [] → P (.union members)) (hne : ids ≠ [])
    (hids : ∀ id ∈ ids, id < table.size ∧ table.Throughout P id) :
    (table.intern (.union ids)).2.Throughout P (table.intern (.union ids)).1 := by
  have hmember : ∀ member ∈ ascending (ids.flatMap table.members),
      member < table.size ∧ table.Throughout P member := by
    intro member hmember
    obtain ⟨id, hid, hmember⟩ := List.mem_flatMap.mp (mem_ascending.mp hmember)
    obtain ⟨hlt, hthroughout⟩ := hids id hid
    exact ⟨htable.members_lt hlt hmember, hthroughout.member hmember⟩
  rw [intern]
  split
  · next single hsingle => exact (hmember single (hsingle ▸ List.mem_singleton_self single)).2
  · refine throughout_add htable (hunion _ fun hnil ↦ ?_) hmember
    obtain ⟨id, hid⟩ := List.exists_mem_of_ne_nil ids hne
    have hnone : table.members id = [] := by
      refine List.eq_nil_iff_forall_not_mem.mpr fun member hmember ↦ ?_
      have hflat := mem_ascending.mpr (List.mem_flatMap.mpr ⟨id, hid, hmember⟩)
      rw [hnil] at hflat
      exact List.not_mem_nil hflat
    obtain ⟨members, hget, hmembers⟩ | ⟨-, hmembers⟩ := table.exists_union_or_whole id
    · have hP : P (.union members) := hget ▸ (hids id hid).2.here
      rw [hmembers] at hnone
      exact hempty (hnone ▸ hP)
    · simp [hmembers] at hnone

end TypeTable

end Wiring
