import Mathlib.Data.List.Forall2
import Mathlib.Data.List.Perm.Subperm
import Mathlib.Data.List.ProdSigma

/-!
# Lists

What a list of computations gives when all of them succeed, lists of one length whose items are
related in order, and lists of different pairs.  Both a comparison of types and a search for plans
keep the pairs that they are inside of; there are only so many, which bounds how deep either can go.
-/

namespace Wiring

theorem bind_eq_ok {ε α β : Type} {x : Except ε α} {f : α → Except ε β} {b : β} :
    x.bind f = .ok b ↔ ∃ a, x = .ok a ∧ f a = .ok b := by
  cases x <;> simp [Except.bind]

theorem bind_eq_error {ε α β : Type} {x : Except ε α} {f : α → Except ε β} {e : ε} :
    x.bind f = .error e ↔ x = .error e ∨ ∃ a, x = .ok a ∧ f a = .error e := by
  cases x <;> simp [Except.bind]

theorem forall₂_of_mapM_eq_ok {ε α β : Type} {f : α → Except ε β} {as : List α} {bs : List β}
    (h : as.mapM f = .ok bs) : List.Forall₂ (fun a b ↦ f a = .ok b) as bs := by
  induction as generalizing bs with
  | nil =>
      obtain rfl : [] = bs := Except.ok.inj h
      exact .nil
  | cons a as ih =>
      rw [List.mapM_cons] at h
      obtain ⟨b, hb, h⟩ := bind_eq_ok.mp h
      obtain ⟨rest, hrest, h⟩ := bind_eq_ok.mp h
      obtain rfl := Except.ok.inj h
      exact .cons hb (ih hrest)

variable {α β γ : Type}

theorem exists_mem_zip_of_mem_left {as : List α} {bs : List β}
    (hlength : as.length = bs.length) {a : α} (ha : a ∈ as) : ∃ b, (a, b) ∈ as.zip bs := by
  rw [← List.map_fst_zip (Nat.le_of_eq hlength)] at ha
  obtain ⟨⟨_, b⟩, hpair, rfl⟩ := List.mem_map.mp ha
  exact ⟨b, hpair⟩

theorem exists_mem_zip_of_mem_right {as : List α} {bs : List β}
    (hlength : as.length = bs.length) {b : β} (hb : b ∈ bs) : ∃ a, (a, b) ∈ as.zip bs := by
  rw [← List.map_snd_zip (Nat.le_of_eq hlength.symm)] at hb
  obtain ⟨⟨a, _⟩, hpair, rfl⟩ := List.mem_map.mp hb
  exact ⟨a, hpair⟩

theorem forall₂_mem {R : α → β → Prop} {as : List α} {bs : List β} (h : List.Forall₂ R as bs) :
    List.Forall₂ (fun a b ↦ a ∈ as ∧ b ∈ bs ∧ R a b) as bs := by
  obtain ⟨hlength, heach⟩ := List.forall₂_iff_zip.mp h
  refine List.forall₂_iff_zip.mpr ⟨hlength, fun {a b} hpair ↦ ?_⟩
  obtain ⟨ha, hb⟩ := List.of_mem_zip hpair
  exact ⟨ha, hb, heach hpair⟩

theorem forall₂_trans {R : α → β → Prop} {S : β → γ → Prop} {T : α → γ → Prop} {as : List α}
    {bs : List β} {cs : List γ} (hR : List.Forall₂ R as bs) (hS : List.Forall₂ S bs cs)
    (h : ∀ a b c, R a b → S b c → T a c) : List.Forall₂ T as cs := by
  induction hR generalizing cs with
  | nil =>
      cases hS
      exact .nil
  | cons hab _ ih =>
      obtain ⟨c, rest, hbc, hrest, rfl⟩ := List.forall₂_cons_left_iff.mp hS
      exact .cons (h _ _ _ hab hbc) (ih hrest)

theorem map_eq_map_iff_forall₂ {f : α → γ} {g : β → γ} {as : List α} {bs : List β} :
    as.map f = bs.map g ↔ List.Forall₂ (fun a b ↦ f a = g b) as bs := by
  rw [← List.forall₂_eq_eq_eq, List.forall₂_map_left_iff, List.forall₂_map_right_iff]

theorem exists_forall₂ {R : α → β → Prop} {as : List α} (h : ∀ a ∈ as, ∃ b, R a b) :
    ∃ bs, List.Forall₂ R as bs := by
  induction as with
  | nil => exact ⟨[], .nil⟩
  | cons a as ih =>
      obtain ⟨b, hb⟩ := h a List.mem_cons_self
      obtain ⟨bs, hbs⟩ := ih fun other hother ↦ h other (List.mem_cons_of_mem _ hother)
      exact ⟨b :: bs, .cons hb hbs⟩

theorem exists_of_mem_forall₂ {R : α → β → Prop} {as : List α} {bs : List β}
    (h : List.Forall₂ R as bs) {a : α} (ha : a ∈ as) : ∃ b ∈ bs, R a b := by
  induction h with
  | nil => exact absurd ha List.not_mem_nil
  | @cons head other _ others hhead _ ih =>
      rcases List.mem_cons.mp ha with rfl | htail
      · exact ⟨other, List.mem_cons_self, hhead⟩
      · obtain ⟨b, hb, hab⟩ := ih htail
        exact ⟨b, List.mem_cons_of_mem _ hb, hab⟩

theorem eq_of_forall₂ {R : α → β → Prop} {as : List α} {bs others : List β}
    (h : List.Forall₂ R as bs) (hothers : List.Forall₂ R as others)
    (hunique : ∀ a ∈ as, ∀ b other, R a b → R a other → b = other) : bs = others := by
  induction h generalizing others with
  | nil => exact (List.forall₂_nil_left_iff.mp hothers).symm
  | cons hab _ ih =>
      obtain ⟨other, rest, hother, hrest, rfl⟩ := List.forall₂_cons_left_iff.mp hothers
      obtain ⟨hhead, htail⟩ := List.forall_mem_cons.mp hunique
      rw [hhead _ _ hab hother, ih hrest htail]

theorem eq_map_of_forall₂ {R : α → β → Prop} {S : α → γ → Prop} {f : β → γ} {as : List α}
    {bs : List β} {cs : List γ} (hR : List.Forall₂ R as bs) (hS : List.Forall₂ S as cs)
    (h : ∀ a ∈ as, ∀ b c, R a b → S a c → c = f b) : cs = bs.map f := by
  induction hR generalizing cs with
  | nil => exact List.forall₂_nil_left_iff.mp hS
  | cons hab _ ih =>
      obtain ⟨c, rest, hac, hrest, rfl⟩ := List.forall₂_cons_left_iff.mp hS
      obtain ⟨hhead, htail⟩ := List.forall_mem_cons.mp h
      rw [List.map_cons, hhead _ _ hab hac, ih hrest htail]

theorem nodup_of_forall₂ {R : α → β → Prop} {as : List α} {bs : List β} (h : List.Forall₂ R as bs)
    (has : as.Nodup) (hunique : ∀ a other b, R a b → R other b → a = other) : bs.Nodup := by
  induction h with
  | nil => exact List.nodup_nil
  | @cons head image _ _ hhead hrest ih =>
      obtain ⟨hnew, htail⟩ := List.nodup_cons.mp has
      refine List.nodup_cons.mpr ⟨fun himage ↦ hnew ?_, ih htail⟩
      obtain ⟨other, hother, hsame⟩ := exists_of_mem_forall₂ hrest.flip himage
      rwa [hunique head other image hhead hsame]

theorem forall₂_map_right_of_forall {R : α → β → Prop} {f : α → β} {as : List α}
    (h : ∀ a ∈ as, R a (f a)) : List.Forall₂ R as (as.map f) :=
  List.forall₂_map_right_iff.mpr (List.forall₂_same.mpr h)

theorem forall₂_map_of_forall {R : β → γ → Prop} {f : α → β} {g : α → γ} {as : List α}
    (h : ∀ a ∈ as, R (f a) (g a)) : List.Forall₂ R (as.map f) (as.map g) :=
  List.forall₂_map_left_iff.mpr (forall₂_map_right_of_forall h)

theorem forall₂_concat {R : α → β → Prop} {as : List α} {bs : List β} {a : α} {b : β}
    (h : List.Forall₂ R as bs) (hab : R a b) : List.Forall₂ R (as ++ [a]) (bs ++ [b]) :=
  List.rel_append h (.cons hab .nil)

theorem of_forall₂_append_cons {R : α → β → Prop} {before after : List α} {others rest : List β}
    {a : α} {b : β} (hlength : before.length = others.length)
    (h : List.Forall₂ R (before ++ a :: after) (others ++ b :: rest)) : R a b := by
  induction before generalizing others with
  | nil =>
      obtain rfl : others = [] := List.length_eq_zero_iff.mp hlength.symm
      exact (List.forall₂_cons.mp h).1
  | cons first before ih =>
      cases others with
      | nil => simp at hlength
      | cons other others =>
          exact ih (Nat.succ.inj hlength) (List.forall₂_cons.mp h).2

theorem forall₂_append_cons {R : α → α → Prop} (hrefl : ∀ a, R a a)
    (before after : List α) {a b : α} (h : R a b) :
    List.Forall₂ R (before ++ a :: after) (before ++ b :: after) :=
  List.rel_append (List.forall₂_same.mpr fun _ _ ↦ hrefl _)
    (.cons h (List.forall₂_same.mpr fun _ _ ↦ hrefl _))

/-- Different pairs, with first parts below one bound and second parts below another. -/
structure DistinctBelow (rows columns : ℕ) (pairs : List (ℕ × ℕ)) : Prop where
  nodup : pairs.Nodup
  lt : ∀ pair ∈ pairs, pair.1 < rows ∧ pair.2 < columns

namespace DistinctBelow

variable {rows columns : ℕ} {pairs : List (ℕ × ℕ)}

theorem nil : DistinctBelow rows columns [] := ⟨List.nodup_nil, by simp⟩

theorem cons (h : DistinctBelow rows columns pairs) {row column : ℕ} (hrow : row < rows)
    (hcolumn : column < columns) (hnew : (row, column) ∉ pairs) :
    DistinctBelow rows columns ((row, column) :: pairs) where
  nodup := List.nodup_cons.mpr ⟨hnew, h.nodup⟩
  lt := by
    intro pair hpair
    rcases List.mem_cons.mp hpair with rfl | hold
    · exact ⟨hrow, hcolumn⟩
    · exact h.lt pair hold

theorem length_le (h : DistinctBelow rows columns pairs) : pairs.length ≤ rows * columns := by
  have hsub : pairs ⊆ List.range rows ×ˢ List.range columns := by
    intro pair hpair
    obtain ⟨hrow, hcolumn⟩ := h.lt pair hpair
    exact List.mem_product.mpr ⟨List.mem_range.mpr hrow, List.mem_range.mpr hcolumn⟩
  simpa only [List.length_product, List.length_range] using (h.nodup.subperm hsub).length_le

end DistinctBelow

end Wiring
