import Mathlib.Data.Finset.Card
import Mathlib.Data.Finset.Range

/-!
# Counting references

A finite set `D` of slots, each of which refers to one object or to none.  `refs D m f` is the
number of slots that refer to `f`; the lemmas say how it moves when one slot changes, and
what the counts `0` and `1` tell about the slots.
-/

set_option autoImplicit false

namespace RefCount

variable {κ φ : Type*} [DecidableEq φ]

/-- How many slots of `D` refer to `f`. -/
def refs (D : Finset κ) (m : κ → Option φ) (f : φ) : ℕ := (D.filter fun x => m x = some f).card

variable {D E : Finset κ} {m m' : κ → Option φ} {f g : φ} {x y : κ}

theorem refs_congr (h : ∀ x ∈ D, m x = m' x) : refs D m f = refs D m' f := by
  unfold refs
  congr 1
  exact Finset.filter_congr fun x hx => by rw [h x hx]

theorem refs_eq_zero : refs D m f = 0 ↔ ∀ x ∈ D, m x ≠ some f := by
  unfold refs
  rw [Finset.card_eq_zero, Finset.filter_eq_empty_iff]

theorem refs_pos (hx : x ∈ D) (hm : m x = some f) : 0 < refs D m f := by
  rw [Nat.pos_iff_ne_zero, Ne, refs_eq_zero]
  exact fun h => h x hx hm

/-- One reference: there is no second slot. -/
theorem eq_of_refs_le_one (h : refs D m f ≤ 1) (hx : x ∈ D) (hmx : m x = some f) (hy : y ∈ D)
    (hmy : m y = some f) : x = y :=
  Finset.card_le_one.mp h x (by simp [hx, hmx]) y (by simp [hy, hmy])

/-- Slots that do not refer to `f` do not count. -/
theorem refs_eq_of_subset (h : D ⊆ E) (hm : ∀ x ∈ E, x ∉ D → m x ≠ some f) :
    refs E m f = refs D m f := by
  unfold refs
  congr 1
  ext x
  simp only [Finset.mem_filter]
  constructor
  · rintro ⟨hx, hf⟩
    exact ⟨by_contra fun hD => hm x hx hD hf, hf⟩
  · rintro ⟨hx, hf⟩
    exact ⟨h hx, hf⟩

/-- Renaming the slots. -/
theorem refs_map {ι : Type*} (e : ι ↪ κ) (I : Finset ι) :
    refs (I.map e) m f = refs I (fun i => m (e i)) f := by
  unfold refs
  rw [Finset.filter_map, Finset.card_map]
  rfl

theorem refs_mono (h : D ⊆ E) : refs D m f ≤ refs E m f :=
  Finset.card_le_card (Finset.filter_subset_filter _ h)

/-! ## Changing one slot -/

variable [DecidableEq κ]

theorem refs_insert (hx : x ∉ D) :
    refs (insert x D) m f = refs D m f + if m x = some f then 1 else 0 := by
  unfold refs
  rw [Finset.filter_insert]
  split
  · rw [Finset.card_insert_of_notMem (by simp [hx])]
  · rfl

/-- A slot that refers to nothing does not count. -/
theorem refs_insert_none (hx : m x = none) : refs (insert x D) m f = refs D m f := by
  unfold refs
  rw [Finset.filter_insert, if_neg (by simp [hx])]

theorem refs_union (h : Disjoint D E) : refs (D ∪ E) m f = refs D m f + refs E m f := by
  unfold refs
  rw [Finset.filter_union, Finset.card_union_of_disjoint]
  exact Finset.disjoint_filter_filter h

theorem refs_union_none (h : ∀ x ∈ E, m x = none) : refs (D ∪ E) m f = refs D m f := by
  unfold refs
  rw [Finset.filter_union, Finset.filter_false_of_mem (s := E) fun x hx => by simp [h x hx],
    Finset.union_empty]

theorem refs_update (hx : x ∈ D) (v : Option φ) :
    refs D (Function.update m x v) f + (if m x = some f then 1 else 0) =
      refs D m f + if v = some f then 1 else 0 := by
  have hD : insert x (D.erase x) = D := Finset.insert_erase hx
  have h₁ : refs D (Function.update m x v) f = refs (D.erase x) m f + if v = some f then 1 else 0 := by
    rw [← hD, refs_insert (by simp), Function.update_self, Finset.erase_insert (by simp)]
    congr 1
    refine refs_congr fun y hy => Function.update_of_ne ?_ _ _
    exact (Finset.mem_erase.mp hy).1
  have h₂ : refs D m f = refs (D.erase x) m f + if m x = some f then 1 else 0 := by
    conv_lhs => rw [← hD]
    rw [refs_insert (by simp)]
  omega

/-- Pointing a slot somewhere else adds references to its new target only. -/
theorem refs_update_le (hx : x ∈ D) (hg : g ≠ f) :
    refs D (Function.update m x (some f)) g ≤ refs D m g := by
  have h := refs_update (m := m) (f := g) hx (some f)
  simp only [Option.some.injEq, hg.symm, if_false] at h
  omega

/-- The slots from 0 up to `n`, as a list of what they refer to. -/
theorem count_filterMap_range (m : ℕ → Option φ) (n : ℕ) (f : φ) :
    ((List.range n).filterMap m).count f = refs (Finset.range n) m f := by
  induction n with
  | zero => rfl
  | succ n ih =>
    rw [List.range_succ, List.filterMap_append, List.count_append, ih, Finset.range_add_one,
      refs_insert Finset.notMem_range_self]
    congr 1
    cases hm : m n with
    | none => simp [hm]
    | some g =>
      by_cases hgf : g = f
      · simp [hm, hgf]
      · simp [hm, hgf]

end RefCount
