import Yalnix.Memory.AddressSpace
import Yalnix.Lib.RefCount
import Mathlib.Data.Finset.Prod

/-!
# Reference counts

Every reference to a frame has a slot: the region-1 entries of the processes, their PCB frames,
and the entries of the kernel's own page table.  `Counted k D leak l` says that the free list is
`l` and that `frc_table` holds, for every frame, the number of slots of `D` that refer to it (plus
`leak`, references that were counted and then forgotten), as a signed 8-bit number.

* `freePageFrame_spec` — what giving back a counted reference does.
* `Counted.assign`, `Counted.extend`, `Counted.share` — a slot gets a new frame, or another
  reference to a frame in use.
* `Touches p k k' X` — the effect of an operation on the page table of `p`: everything else is
  left alone, but for the contents of the frames in `X`.
-/

set_option autoImplicit false

namespace Yalnix

open RefCount (refs)

/-- Counts as `frc_table` stores them: `r f` references to `f`, none to the frames of `l`. -/
structure Counts (frc : Nat → Int) (r : Nat → Nat) (l : List Nat) : Prop where
  free : ∀ f ∈ l, r f = 0
  count : ∀ f, frc f = char (r f)

variable {frc : Nat → Int} {r r' : Nat → Nat} {k k' k₁ : Kernel} {l X Y : List Nat} {f g : Nat}

theorem Counts.congr (h : Counts frc r l) (hr : ∀ g, r' g = r g) : Counts frc r' l :=
  ⟨fun g hg => (hr g).trans (h.free g hg), fun g => by rw [hr g]; exact h.count g⟩

/-- The count of a frame with at most 127 references is their number. -/
theorem Counts.exact (h : Counts frc r l) (hr : r f ≤ 127) : frc f = r f := by
  rw [h.count f]
  exact char_of_range (by omega) (by omega)

theorem Counts.take (h : Counts frc r (f :: l)) (hnd : (f :: l).Nodup)
    (hr : ∀ g, r' g = r g + if g = f then 1 else 0) : Counts (Function.update frc f 1) r' l := by
  refine ⟨fun g hg => ?_, fun g => ?_⟩
  · have hgf : g ≠ f := fun he => (List.nodup_cons.mp hnd).1 (he ▸ hg)
    rw [hr g, if_neg hgf, h.free g (List.mem_cons_of_mem _ hg)]
  · by_cases hgf : g = f
    · subst hgf
      rw [Function.update_self, hr g, if_pos rfl, h.free g List.mem_cons_self]
      exact (char_of_range (by omega) (by omega)).symm
    · rw [Function.update_of_ne hgf, hr g, if_neg hgf]
      exact h.count g

theorem Counts.share (h : Counts frc r l) (hf : f ∉ l)
    (hr : ∀ g, r' g = r g + if g = f then 1 else 0) :
    Counts (Function.update frc f (char (frc f + 1))) r' l := by
  refine ⟨fun g hg => ?_, fun g => ?_⟩
  · have hgf : g ≠ f := fun he => hf (he ▸ hg)
    rw [hr g, if_neg hgf, h.free g hg]
  · by_cases hgf : g = f
    · subst hgf
      rw [Function.update_self, hr g, if_pos rfl, h.count g, char_char_add]
      push_cast
      rfl
    · rw [Function.update_of_ne hgf, hr g, if_neg hgf]
      exact h.count g

/-- **Giving back one of at most 127 counted references: the frame goes to the front of the free
list if it was the last one, and stays off it otherwise.** -/
theorem freePageFrame_spec {t : Nat → Nat} (hl : FreeList k l) (hc : Counts k.frc_table r l) (hf : IsFrame k f)
    (h1 : 1 ≤ r f) (h127 : r f ≤ 127) (hr : ∀ g, t g + (if g = f then 1 else 0) = r g) :
    ∃ l', l' = (if r f = 1 then f :: l else l) ∧ FreeList (freePageFrame (pageAtIndex f) k) l' ∧
      Counts (freePageFrame (pageAtIndex f) k).frc_table t l' ∧
      Quiet k (freePageFrame (pageAtIndex f) k) l' := by
  have hfl : f ∉ l := fun hm => by
    have := hc.free f hm
    omega
  have hcount : char (k.frc_table f - 1) = r f - 1 := by
    rw [hc.exact h127]
    exact char_of_range (by omega) (by omega)
  have hcounts : ∀ g, Function.update k.frc_table f (char (k.frc_table f - 1)) g = char (t g) := by
    intro g
    have hg := hr g
    by_cases hgf : g = f
    · subst hgf
      rw [if_pos rfl] at hg
      rw [Function.update_self, hcount, char_of_range (by omega) (by omega)]
      omega
    · rw [if_neg hgf] at hg
      rw [Function.update_of_ne hgf, hc.count g, ← hg]
      rfl
  refine ⟨_, rfl, ?_⟩
  by_cases h : r f = 1
  · rw [if_pos h]
    obtain ⟨hl', hfrc, hq⟩ := freePageFrame_last hl hf hfl (by omega)
    refine ⟨hl', ⟨fun g hg => ?_, fun g => by rw [hfrc]; exact hcounts g⟩, hq⟩
    have hrg := hr g
    rcases List.mem_cons.mp hg with rfl | hg
    · rw [if_pos rfl] at hrg
      omega
    · rw [hc.free g hg] at hrg
      omega
  · rw [if_neg h, freePageFrame_shared (by omega)]
    refine ⟨hl.of_eq rfl rfl rfl, ⟨fun g hg => ?_, fun g => hcounts g⟩, Quiet.setFrc f _ l⟩
    have hrg := hr g
    rw [hc.free g hg] at hrg
    omega

/-! ## Slots -/

/-- Slot `(p, i)` of process `p`: entry `i` of its region-1 table for `i < 128`, then its PCB
frames.  No process has number 0: its slots stand for the kernel's page table below the frame
windows. -/
abbrev Slot := Nat × Nat

/-- The frame a slot refers to. -/
def mapping (k : Kernel) (x : Slot) : Option Nat :=
  if x.1 = 0 then (if x.2 < 123 then (k.kernel_page_table x.2).frame else none)
  else if x.2 < 128 then (k.table x.1 x.2).frame
  else if (k.proc x.1).pcb then some (frameOf ((k.proc x.1).pcb_frames (x.2 - 128))) else none

/-- The slots of the processes up to `n`, and of the kernel. -/
def slots (n : Nat) : Finset Slot := Finset.range (n + 1) ×ˢ Finset.range 130

theorem mem_slots {n : Nat} {x : Slot} : x ∈ slots n ↔ x.1 ≤ n ∧ x.2 < 130 := by
  simp [slots, Nat.lt_succ_iff]

theorem mapping_table {p i : Nat} (hp : p ≠ 0) (hi : i < 128) :
    mapping k (p, i) = (k.table p i).frame := by
  unfold mapping
  rw [if_neg hp, if_pos hi]

/-- A valid entry is a reference to the frame it maps. -/
theorem mapping_of_valid {p i : Nat} (hp : p ≠ 0) (hi : i < 128) (hv : (k.table p i).valid = true) :
    mapping k (p, i) = some (k.table p i).pfn := by
  rw [mapping_table hp hi]
  exact frame_eq_some.mpr ⟨hv, rfl⟩

/-! ## What an operation on one page table leaves alone -/

structure Touches (p : Nat) (k k' : Kernel) (X : List Nat) : Prop where
  proc : ∀ q, q ≠ p → k'.proc q = k.proc q
  self : k'.proc p = { k.proc p with page_table := k'.table p }
  max_pid : k'.max_pid = k.max_pid
  addr : k'.frame_head_addr = k.frame_head_addr
  kpt : ∀ i, i < 123 ∨ 126 ≤ i → k'.kernel_page_table i = k.kernel_page_table i
  pmem : ∀ f, f ∉ X → k'.pmem f = k.pmem f

variable {p q : Nat} {x : Slot}

theorem Quiet.touches (h : Quiet k k' X) (p : Nat) : Touches p k k' X :=
  ⟨fun q _ => by rw [h.proc], by rw [Kernel.table, h.proc], h.max_pid, h.addr, h.kpt, h.pmem⟩

theorem Touches.refl (p : Nat) (k : Kernel) (X : List Nat) : Touches p k k X :=
  ⟨fun _ _ => rfl, rfl, rfl, rfl, fun _ _ => rfl, fun _ _ => rfl⟩

theorem Touches.trans (h : Touches p k k₁ X) (h' : Touches p k₁ k' X) : Touches p k k' X :=
  ⟨fun q hq => (h'.proc q hq).trans (h.proc q hq), by rw [h'.self, h.self],
    h'.max_pid.trans h.max_pid, h'.addr.trans h.addr, fun i hi => (h'.kpt i hi).trans (h.kpt i hi),
    fun f hf => (h'.pmem f hf).trans (h.pmem f hf)⟩

theorem Touches.mono (h : Touches p k k' X) (hX : ∀ f ∈ X, f ∈ Y) : Touches p k k' Y :=
  ⟨h.proc, h.self, h.max_pid, h.addr, h.kpt, fun f hf => h.pmem f fun hx => hf (hX f hx)⟩

theorem Touches.putEntry (p i : Nat) (e : PTE) (X : List Nat) :
    Touches p k (k.modify p (Kernel.putEntry i e)) X := by
  refine ⟨fun q hq => by simp [hq], ?_, rfl, rfl, fun _ _ => rfl, fun _ _ => rfl⟩
  simp [Kernel.table, Kernel.putEntry]

theorem Touches.table_ne (h : Touches p k k' X) (hq : q ≠ p) : k'.table q = k.table q := by
  unfold Kernel.table
  rw [h.proc q hq]

/-- Only the region-1 slots of `p` can have changed. -/
theorem Touches.mapping (h : Touches p k k' X) (hx : x.1 ≠ p ∨ 128 ≤ x.2) :
    mapping k' x = mapping k x := by
  unfold Yalnix.mapping
  by_cases h0 : x.1 = 0
  · rw [if_pos h0, if_pos h0]
    split
    · rw [h.kpt _ (by omega)]
    · rfl
  · rw [if_neg h0, if_neg h0]
    by_cases hxp : x.1 = p
    · have h128 : ¬ x.2 < 128 := by
        rcases hx with hx | hx
        · exact absurd hxp hx
        · omega
      rw [if_neg h128, if_neg h128, hxp, h.self]
    · rw [h.table_ne hxp, h.proc _ hxp]

/-- One entry of the table of `p` changes, and with it one slot. -/
theorem mapping_putEntry (hp : p ≠ 0) {i : Nat} (hi : i < 128) (e : PTE) :
    mapping (k.modify p (Kernel.putEntry i e)) = Function.update (mapping k) (p, i) e.frame := by
  funext x
  by_cases hx : x = (p, i)
  · subst hx
    rw [Function.update_self, mapping_table hp hi, Kernel.table_putEntry_self,
      Function.update_self]
  · rw [Function.update_of_ne hx]
    by_cases hxp : x.1 ≠ p ∨ 128 ≤ x.2
    · exact (Touches.putEntry p i e []).mapping hxp
    · obtain ⟨q, j⟩ := x
      simp only [not_or, not_not, Nat.not_le] at hxp
      obtain ⟨rfl, hj⟩ := hxp
      have hji : j ≠ i := fun he => hx (by rw [he])
      rw [mapping_table hp hj, mapping_table hp hj, Kernel.table_putEntry_self,
        Function.update_of_ne hji]

/-- An operation that changes one entry of the table of `p` changes one slot. -/
theorem Touches.mapping_update (h : Touches p k k' X) (hp : p ≠ 0) {i : Nat} (hi : i < 128) {e : PTE}
    (ht : k'.table p = Function.update (k.table p) i e) :
    Yalnix.mapping k' = Function.update (Yalnix.mapping k) (p, i) e.frame := by
  funext x
  by_cases hxp : x.1 ≠ p ∨ 128 ≤ x.2
  · rw [h.mapping hxp, Function.update_of_ne]
    rintro rfl
    simp only [ne_eq, not_true_eq_false, false_or] at hxp
    omega
  · obtain ⟨q, j⟩ := x
    simp only [not_or, not_not, Nat.not_le] at hxp
    obtain ⟨rfl, hj⟩ := hxp
    rw [mapping_table hp hj, ht]
    by_cases hji : j = i
    · subst hji
      rw [Function.update_self, Function.update_self]
    · have hne : (q, j) ≠ (q, i) := fun he => hji (Prod.mk.inj he).2
      rw [Function.update_of_ne hji, Function.update_of_ne hne, mapping_table hp hj]

/-- Repacking an entry with the same frame changes no reference. -/
theorem mapping_putEntry_same (hp : p ≠ 0) {i : Nat} (hi : i < 128) {e : PTE}
    (he : e.frame = (k.table p i).frame) : mapping (k.modify p (Kernel.putEntry i e)) = mapping k := by
  rw [mapping_putEntry hp hi, he, ← mapping_table hp hi, Function.update_eq_self]

theorem Quiet.mapping (h : Quiet k k' X) : mapping k' = mapping k := by
  funext x
  by_cases h0 : x.1 = 0
  · have h01 : x.1 ≠ 1 := by omega
    exact (h.touches 1).mapping (.inl h01)
  · exact (h.touches 0).mapping (.inl h0)

/-! ## Counted references -/

structure Counted (k : Kernel) (D : Finset Slot) (leak : Nat → Nat) (l : List Nat) : Prop where
  list : FreeList k l
  counts : Counts k.frc_table (fun f => refs D (mapping k) f + leak f) l
  frame : ∀ x ∈ D, x.1 ≠ 0 → ∀ f, mapping k x = some f → IsFrame k f

variable {D : Finset Slot} {leak : Nat → Nat}

/-- A frame some slot refers to is not free. -/
theorem Counted.not_free (h : Counted k D leak l) (hx : x ∈ D) (hm : mapping k x = some f) :
    f ∉ l := by
  intro hf
  have h0 := h.counts.free f hf
  have := RefCount.refs_pos hx hm
  omega

theorem Counted.unmapped (h : Counted k D leak l) (hf : f ∈ l) (hx : x ∈ D) :
    mapping k x ≠ some f := fun hm => h.not_free hx hm hf

/-- Only the list, the counts and the references of the slots of `D` matter. -/
theorem Counted.congr (h : Counted k D leak l) (hl : FreeList k' l)
    (hfrc : k'.frc_table = k.frc_table) (ha : k'.frame_head_addr = k.frame_head_addr)
    (hm : ∀ x ∈ D, mapping k' x = mapping k x) : Counted k' D leak l := by
  refine ⟨hl, ?_, fun x hx hp f hf => ?_⟩
  · rw [hfrc]
    exact h.counts.congr fun g => by
      rw [RefCount.refs_congr hm]
  · unfold IsFrame
    rw [ha]
    exact h.frame x hx hp f (hm x hx ▸ hf)

/-- A slot outside `D` that refers to nothing may be counted as well. -/
theorem Counted.extend_none (h : Counted k D leak l) (hm : mapping k x = none) :
    Counted k (insert x D) leak l := by
  refine ⟨h.list, h.counts.congr fun g => by
    rw [RefCount.refs_insert_none hm], fun y hy hp f hf => ?_⟩
  rcases Finset.mem_insert.mp hy with rfl | hy
  · rw [hm] at hf
    cases hf
  · exact h.frame y hy hp f hf

section Take

/-! What an allocation leaves behind: the first free frame is off the list, with count 1. -/

variable (h : Counted k D leak (f :: l)) (hl : FreeList k' l)
  (hfrc : k'.frc_table = Function.update k.frc_table f 1)
  (ha : k'.frame_head_addr = k.frame_head_addr)

include h hl hfrc ha

/-- The frame goes to a slot that was not counted yet. -/
theorem Counted.extend (hx : x ∉ D) (hmx : mapping k' x = some f)
    (hm : ∀ y ∈ D, mapping k' y = mapping k y) : Counted k' (insert x D) leak l := by
  refine ⟨hl, ?_, fun y hy hp g hg => ?_⟩
  · rw [hfrc]
    refine h.counts.take h.list.nodup fun g => ?_
    rw [RefCount.refs_insert hx, RefCount.refs_congr hm, hmx]
    simp only [Option.some.injEq, eq_comm (a := f)]
    omega
  · unfold IsFrame
    rw [ha]
    rcases Finset.mem_insert.mp hy with rfl | hy
    · rw [hmx, Option.some.injEq] at hg
      exact hg ▸ h.list.frame f List.mem_cons_self
    · exact h.frame y hy hp g (hm y hy ▸ hg)

/-- The frame replaces what a slot referred to; that reference is forgotten, not given back. -/
theorem Counted.assign (hx : x ∈ D) (hm : ∀ y ∈ D, mapping k' y =
    Function.update (mapping k) x (some f) y) :
    Counted k' D (fun g => leak g + if mapping k x = some g then 1 else 0) l := by
  refine ⟨hl, ?_, fun y hy hp g hg => ?_⟩
  · rw [hfrc]
    refine h.counts.take h.list.nodup fun g => ?_
    have hup := RefCount.refs_update (m := mapping k) (f := g) hx (some f)
    change refs D (mapping k') g + (leak g + _) = refs D (mapping k) g + leak g + _
    rw [RefCount.refs_congr hm]
    simp only [Option.some.injEq, eq_comm (a := f)] at hup ⊢
    omega
  · unfold IsFrame
    rw [ha]
    rw [hm y hy] at hg
    by_cases hyx : y = x
    · subst hyx
      rw [Function.update_self, Option.some.injEq] at hg
      exact hg ▸ h.list.frame f List.mem_cons_self
    · rw [Function.update_of_ne hyx] at hg
      exact h.frame y hy hp g hg

end Take

/-- One more slot refers to a frame that is already in use. -/
theorem Counted.share (h : Counted k D leak l) (hl : FreeList k' l)
    (hfrc : k'.frc_table = Function.update k.frc_table f (char (k.frc_table f + 1)))
    (ha : k'.frame_head_addr = k.frame_head_addr) (hx : x ∉ D) (hmx : mapping k' x = some f)
    (hf : ∃ y ∈ D, y.1 ≠ 0 ∧ mapping k y = some f) (hm : ∀ y ∈ D, mapping k' y = mapping k y) :
    Counted k' (insert x D) leak l := by
  obtain ⟨z, hz, hz0, hzf⟩ := hf
  refine ⟨hl, ?_, fun y hy hp g hg => ?_⟩
  · rw [hfrc]
    refine h.counts.share (h.not_free hz hzf) fun g => ?_
    rw [RefCount.refs_insert hx, RefCount.refs_congr hm, hmx]
    simp only [Option.some.injEq, eq_comm (a := f)]
    omega
  · unfold IsFrame
    rw [ha]
    rcases Finset.mem_insert.mp hy with rfl | hy
    · rw [hmx, Option.some.injEq] at hg
      exact hg ▸ h.frame z hz hz0 f hzf
    · exact h.frame y hy hp g (hm y hy ▸ hg)

/-- A slot gives up one of several references to a frame and gets a free frame instead. -/
theorem Counted.move {o : Nat} (h : Counted k D leak (f :: l)) (hl : FreeList k' l)
    (hfrc : k'.frc_table =
      Function.update (Function.update k.frc_table o (char (k.frc_table o - 1))) f 1)
    (ha : k'.frame_head_addr = k.frame_head_addr) (hx : x ∈ D) (hmx : mapping k x = some o)
    (h127 : refs D (mapping k) o + leak o ≤ 127)
    (hm : ∀ y ∈ D, mapping k' y = Function.update (mapping k) x (some f) y) :
    Counted k' D leak l := by
  have hof : o ≠ f := fun he => h.not_free hx hmx (he ▸ List.mem_cons_self)
  have hpos := RefCount.refs_pos hx hmx
  have hdec : Counts (Function.update k.frc_table o (char (k.frc_table o - 1)))
      (fun g => refs D (mapping k) g + leak g - if g = o then 1 else 0) (f :: l) := by
    refine ⟨fun g hg => ?_, fun g => ?_⟩
    · have := h.counts.free g hg
      omega
    · by_cases hgo : g = o
      · subst hgo
        rw [Function.update_self, h.counts.exact h127, if_pos rfl]
        congr 1
        omega
      · rw [Function.update_of_ne hgo, if_neg hgo]
        exact h.counts.count g
  refine ⟨hl, ?_, fun y hy hp g hg => ?_⟩
  · rw [hfrc]
    refine hdec.take h.list.nodup fun g => ?_
    have hup := RefCount.refs_update (m := mapping k) (f := g) hx (some f)
    rw [RefCount.refs_congr hm]
    rw [hmx] at hup
    simp only [Option.some.injEq, eq_comm (a := f), eq_comm (a := o)] at hup
    by_cases hgo : g = o
    · subst hgo
      rw [if_pos rfl, if_neg hof] at hup
      rw [if_pos rfl, if_neg hof]
      omega
    · rw [if_neg hgo] at hup
      rw [if_neg hgo]
      omega
  · unfold IsFrame
    rw [ha]
    rw [hm y hy] at hg
    by_cases hyx : y = x
    · subst hyx
      rw [Function.update_self, Option.some.injEq] at hg
      exact hg ▸ h.list.frame f List.mem_cons_self
    · rw [Function.update_of_ne hyx] at hg
      exact h.frame y hy hp g hg

/-- The reference of a slot is given back, and the slot no longer counted. -/
theorem Counted.forget (h : Counted k (insert x D) leak l) (hx : x ∉ D) (hx0 : x.1 ≠ 0)
    (hmx : mapping k x = some f) (h127 : refs (insert x D) (mapping k) f + leak f ≤ 127) :
    ∃ l', (∀ g ∈ l', g ∈ l ∨ g = f) ∧ (∀ g ∈ l, g ∈ l') ∧
      Counted (freePageFrame (pageAtIndex f) k) D leak l' ∧
      Quiet k (freePageFrame (pageAtIndex f) k) l' := by
  have hpos := RefCount.refs_pos (Finset.mem_insert_self x D) hmx
  obtain ⟨l', hl', hlist, hcounts, hquiet⟩ := freePageFrame_spec h.list h.counts
    (h.frame x (Finset.mem_insert_self x D) hx0 f hmx) (by omega) h127
    (t := fun g => refs D (mapping k) g + leak g) fun g => by
      rw [RefCount.refs_insert hx, hmx]
      simp only [Option.some.injEq, eq_comm (a := f)]
      omega
  refine ⟨l', fun g hg => ?_, fun g hg => ?_, ⟨hlist, ?_, fun y hy hp g hg => ?_⟩, hquiet⟩
  · rw [hl'] at hg
    split at hg
    · exact (List.mem_cons.mp hg).symm
    · exact .inl hg
  · rw [hl']
    split
    · exact List.mem_cons_of_mem _ hg
    · exact hg
  · exact hcounts.congr fun g => by rw [hquiet.mapping]
  · unfold IsFrame
    rw [hquiet.addr]
    rw [hquiet.mapping] at hg
    exact h.frame y (Finset.mem_insert_of_mem hy) hp g hg

end Yalnix
