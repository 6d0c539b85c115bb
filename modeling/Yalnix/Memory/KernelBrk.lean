import Yalnix.Lib.Transition
import Yalnix.Memory.Allocator
import Yalnix.Memory.Init
import Yalnix.Memory.Supply

/-!
# The heap of the kernel

`SetKernelBrk` once virtual memory is enabled, with `increaseKernelBrk` and `decreaseKernelBrk`.

* `KernelHeap` — the pages below the break have a frame each, those from the break to the frame windows
  have none, and no counted reference has been forgotten.
* `KernelHeap.raise`, `KernelHeap.lower` — what the two loops keep of it.
* `kernel_heap_run` — it holds after every run of calls that can be rounded and do not run out of frames
  half-way; `kernel_heap_half_way` is a call that does.
-/

set_option autoImplicit false

namespace Yalnix

open RefCount (refs)
open Transition (Run)

variable {k k' k₁ : Kernel} {m m' : KernelMemory} {D : Finset Slot} {leak : Nat → Nat} {l l' : List Nat}
  {f g n i j : Nat} {a r data_end : Int}

/-! ## The code -/

namespace Kernel

/-- An entry of the kernel's page table; there is none outside the table. -/
def kernelEntry (k : Kernel) (i : Int) : Except Stop PTE :=
  if 0 ≤ i ∧ i < MAX_PT_LEN then .ok (k.kernel_page_table i.toNat) else .error .fault

/-- The kernel's page table with one entry replaced. -/
def putKernelEntry (k : Kernel) (i : Nat) (e : PTE) : Kernel :=
  { k with kernel_page_table := Function.update k.kernel_page_table i e }

/-- `kernel_page_table.entries[i] = e`. -/
def setKernelEntry (k : Kernel) (i : Int) (e : PTE) : Except Stop Kernel :=
  if 0 ≤ i ∧ i < MAX_PT_LEN then .ok (k.putKernelEntry i.toNat e) else .error .fault

theorem kernelEntry_ok (hi : i < 128) : k.kernelEntry i = .ok (k.kernel_page_table i) := by
  unfold kernelEntry
  rw [if_pos (by unfold MAX_PT_LEN; omega), Int.toNat_natCast]

theorem setKernelEntry_ok (hi : i < 128) (e : PTE) :
    k.setKernelEntry i e = .ok (k.putKernelEntry i e) := by
  unfold setKernelEntry
  rw [if_pos (by unfold MAX_PT_LEN; omega), Int.toNat_natCast]

end Kernel

/-- The loop of `increaseKernelBrk`: `n` more pages, from `index` on. -/
def increaseKernelLoop : Nat → Int → Kernel → Except Stop (Int × Kernel)
  | 0, _, k => .ok (0, k)
  | n + 1, index, k =>
    let (frame, k) := allocatePageFrame k
    if frame = 0 then .ok (-1, k)
    else do
      let k ← k.setKernelEntry index (createPTEWithOptions data_options (frameOf frame))
      increaseKernelLoop n (index + 1) k

def increaseKernelBrk (address : Int) (m : KernelMemory) : Except Stop (Int × KernelMemory) := do
  let frames_needed := indexOfPage (long (UP_TO_PAGE address - m.KERNEL_BRK))
  let (status, k) ← increaseKernelLoop frames_needed.toNat (indexOfPage m.KERNEL_BRK) m.kernel
  if status = -1 then .ok (-1, { m with kernel := k })
  else .ok (0, { m with kernel := k, KERNEL_BRK := UP_TO_PAGE address })

def decreaseKernelBrk (address : Int) (m : KernelMemory) : Except Stop (Int × KernelMemory) := do
  let frames_freed := indexOfPage (long (m.KERNEL_BRK - UP_TO_PAGE address))
  let k ← Loop.forRange 0 frames_freed (fun i k => do
    let pte_index := indexOfPage (UP_TO_PAGE address) + i
    let entry ← k.kernelEntry pte_index
    let k := freePageFrame (pageAtIndex entry.pfn) k
    k.setKernelEntry pte_index (createPTEWithOptions 0 0)) m.kernel
  .ok (0, { m with kernel := k, KERNEL_BRK := UP_TO_PAGE address })

/-- `SetKernelBrk` after virtual memory is enabled. -/
def SetKernelBrk (address : Int) (m : KernelMemory) : Except Stop (Int × KernelMemory) :=
  if UP_TO_PAGE address ≥ FRAME_WINDOW_BASE then .ok (-1, m)
  else if UP_TO_PAGE address = m.KERNEL_BRK then .ok (0, m)
  else do
    let (status, m) ←
      if UP_TO_PAGE address > m.KERNEL_BRK then increaseKernelBrk address m
      else decreaseKernelBrk address m
    if status = -1 then .ok (-1, m) else .ok (0, m)

/-! ## The invariant -/

/-- The heap of the kernel, with its data up to `data_end`: the slots of `D` hold the references to
frames, apart from those that `leak` stands for. -/
structure KernelHeap (D : Finset Slot) (leak : Nat → Nat) (data_end : Int) (m : KernelMemory) : Prop where
  aligned : m.KERNEL_BRK % 8192 = 0
  start : 0 ≤ m.KERNEL_DATA
  data : m.KERNEL_DATA ≤ data_end
  above : data_end ≤ m.KERNEL_BRK
  windows : m.KERNEL_BRK ≤ FRAME_WINDOW_BASE
  /-- A page below the break has a frame of its own. -/
  mapped : ∀ i : Nat, indexOfPage m.KERNEL_DATA ≤ i → (i : Int) * 8192 < m.KERNEL_BRK →
    ∃ f, mapping m.kernel (0, i) = some f ∧ refs D (mapping m.kernel) f + leak f = 1
  unmapped : ∀ i : Nat, m.KERNEL_BRK ≤ (i : Int) * 8192 → i < 123 → mapping m.kernel (0, i) = none
  /-- A frame above the kernel's data can go on the free list. -/
  heap : ∀ i : Nat, data_end ≤ (i : Int) * 8192 → (i : Int) * 8192 < m.KERNEL_BRK →
    ∀ f, mapping m.kernel (0, i) = some f → IsFrame m.kernel f
  counted : ∃ l, Counted m.kernel D leak l

/-- The pages of the kernel are slots. -/
def KernelSlots (D : Finset Slot) : Prop := ∀ i < 123, (0, i) ∈ D

/-- A page of the kernel, as the machine sees it: mapped to a frame with count 1 that nothing else
refers to. -/
def OwnPage (D : Finset Slot) (k : Kernel) (i : Nat) : Prop :=
  ∃ f, (k.kernel_page_table i).frame = some f ∧ k.frc_table f = 1 ∧ ∀ x ∈ D, mapping k x = some f → x = (0, i)

/-- Every page of data and heap is mapped, to a frame with count 1 that nothing else refers to. -/
theorem KernelHeap.own (h : KernelHeap D leak data_end m) (hD : KernelSlots D)
    (hlo : indexOfPage m.KERNEL_DATA ≤ i) (hi : (i : Int) * 8192 < m.KERNEL_BRK) :
    OwnPage D m.kernel i := by
  have hwin := h.windows
  unfold FRAME_WINDOW_BASE KERNEL_STACK_BASE PAGESIZE at hwin
  have hi123 : i < 123 := by omega
  obtain ⟨f, hf, hone⟩ := h.mapped i hlo hi
  obtain ⟨l, hc⟩ := h.counted
  refine ⟨f, ?_, ?_, fun x hx hm => ?_⟩
  · unfold mapping at hf
    rwa [if_pos rfl, if_pos hi123] at hf
  · rw [hc.counts.exact (by omega), hone]
    rfl
  · exact RefCount.eq_of_refs_le_one (by omega) hx hm (hD i hi123) hf

/-! ## One page -/

/-- One entry of the kernel's table changes, and with it one slot. -/
theorem mapping_putKernelEntry (hi : i < 123) (e : PTE) :
    mapping (k.putKernelEntry i e) = Function.update (mapping k) (0, i) e.frame := by
  funext x
  by_cases hx : x = (0, i)
  · subst hx
    rw [Function.update_self]
    unfold mapping Kernel.putKernelEntry
    rw [if_pos rfl, if_pos hi]
    dsimp only
    rw [Function.update_self]
  · rw [Function.update_of_ne hx]
    unfold mapping
    by_cases h0 : x.1 = 0
    · rw [if_pos h0, if_pos h0]
      have hxi : x.2 ≠ i := fun hxi => hx (Prod.ext h0 hxi)
      unfold Kernel.putKernelEntry
      dsimp only
      rw [Function.update_of_ne hxi]
    · rw [if_neg h0, if_neg h0]
      rfl

/-- A page that is not mapped gets the first free frame. -/
theorem map_kernel_page (h : Counted k D leak (f :: l)) (hD : KernelSlots D) (hi : i < 123)
    (hnone : mapping k (0, i) = none) : ∃ k₁, allocatePageFrame k = (pageAtIndex f, k₁) ∧
      Counted (k₁.putKernelEntry i (createPTEWithOptions data_options f)) D leak l ∧
      mapping (k₁.putKernelEntry i (createPTEWithOptions data_options f)) =
        Function.update (mapping k) (0, i) (some f) ∧
      k₁.frame_head_addr = k.frame_head_addr := by
  obtain ⟨k₁, halloc, hlist, hfrc, hquiet⟩ := allocatePageFrame_cons h.list
  have hframe : (createPTEWithOptions data_options f).frame = some f :=
    frame_eq_some.mpr ⟨(data_flags f).1, rfl⟩
  have hmap : mapping (k₁.putKernelEntry i (createPTEWithOptions data_options f)) =
      Function.update (mapping k) (0, i) (some f) := by
    rw [mapping_putKernelEntry hi, hquiet.mapping, hframe]
  refine ⟨k₁, halloc, ?_, hmap, hquiet.addr⟩
  have hassign : Counted (k₁.putKernelEntry i (createPTEWithOptions data_options f)) D
      (fun g => leak g + if mapping k (0, i) = some g then 1 else 0) l :=
    h.assign (hlist.of_eq rfl rfl rfl) hfrc hquiet.addr (hD i hi) fun y _ => by rw [hmap]
  simpa [hnone] using hassign

/-- A page is given back. -/
theorem unmap_kernel_page (h : Counted k D leak l) (hD : KernelSlots D) (hi : i < 123)
    (hm : mapping k (0, i) = some f) (hf : IsFrame k f) (h127 : refs D (mapping k) f + leak f ≤ 127) :
    ∃ l', Counted ((freePageFrame (pageAtIndex f) k).putKernelEntry i PTE.clear) D leak l' ∧
      mapping ((freePageFrame (pageAtIndex f) k).putKernelEntry i PTE.clear) =
        Function.update (mapping k) (0, i) none ∧
      (freePageFrame (pageAtIndex f) k).frame_head_addr = k.frame_head_addr := by
  have hpos := RefCount.refs_pos (hD i hi) hm
  have hup : ∀ g, refs D (Function.update (mapping k) (0, i) none) g + (if g = f then 1 else 0) =
      refs D (mapping k) g := by
    intro g
    have hup := RefCount.refs_update (m := mapping k) (f := g) (hD i hi) none
    rw [hm] at hup
    simp only [reduceCtorEq, if_false, Option.some.injEq, Nat.add_zero] at hup
    rw [← hup]
    simp only [eq_comm (a := f)]
  obtain ⟨l', -, hlist, hcounts, hquiet⟩ := freePageFrame_spec h.list h.counts hf (by omega) h127
    (t := fun g => refs D (Function.update (mapping k) (0, i) none) g + leak g) fun g => by
      have := hup g
      omega
  have hmap : mapping ((freePageFrame (pageAtIndex f) k).putKernelEntry i PTE.clear) =
      Function.update (mapping k) (0, i) none := by
    rw [mapping_putKernelEntry hi, hquiet.mapping, frame_clear]
  refine ⟨l', ⟨hlist.of_eq rfl rfl rfl, ?_, fun x hx hx0 g hg => ?_⟩, hmap, hquiet.addr⟩
  · exact hcounts.congr fun g => by rw [hmap]
  · rw [hmap] at hg
    have hne : x ≠ (0, i) := fun he => hx0 (by rw [he])
    rw [Function.update_of_ne hne] at hg
    unfold IsFrame
    change _ ∧ _ ∧ _ ≠ (freePageFrame (pageAtIndex f) k).frame_head_addr
    rw [hquiet.addr]
    exact h.frame x hx hx0 g hg

/-! ## Raising the break -/

/-- The page at the break is mapped, and the break moves past it. -/
theorem KernelHeap.grow (h : KernelHeap D leak data_end m) (hD : KernelSlots D)
    (hlt : m.KERNEL_BRK < FRAME_WINDOW_BASE) (hc : Counted m.kernel D leak (f :: l))
    (hbrk : m.KERNEL_BRK = (i : Int) * 8192) : ∃ k₁, allocatePageFrame m.kernel = (pageAtIndex f, k₁) ∧
      Counted (k₁.putKernelEntry i (createPTEWithOptions data_options f)) D leak l ∧
      KernelHeap D leak data_end { m with
        kernel := k₁.putKernelEntry i (createPTEWithOptions data_options f)
        KERNEL_BRK := m.KERNEL_BRK + 8192 } := by
  have hstart := h.start
  have habove := h.above
  unfold FRAME_WINDOW_BASE KERNEL_STACK_BASE PAGESIZE at hlt
  have hi : i < 123 := by omega
  have hnone := h.unmapped i hbrk.le hi
  obtain ⟨k₁, halloc, hcounted, hmap, haddr⟩ := map_kernel_page hc hD hi hnone
  have hrefs : ∀ g, refs D (Function.update (mapping m.kernel) (0, i) (some f)) g =
      refs D (mapping m.kernel) g + if g = f then 1 else 0 := by
    intro g
    have hup := RefCount.refs_update (m := mapping m.kernel) (f := g) (hD i hi) (some f)
    rw [hnone] at hup
    simp only [reduceCtorEq, if_false, Nat.add_zero, Option.some.injEq] at hup
    rw [hup]
    simp only [eq_comm (a := f)]
  have hfree := hc.counts.free f List.mem_cons_self
  refine ⟨k₁, halloc, hcounted, ?_, hstart, h.data, ?_, ?_, fun j hlo hj => ?_, fun j hj hj' => ?_,
    fun j hlo hj g hg => ?_, l, hcounted⟩
  · have := h.aligned
    dsimp only
    omega
  · dsimp only
    omega
  · dsimp only
    unfold FRAME_WINDOW_BASE KERNEL_STACK_BASE PAGESIZE
    omega
  · dsimp only at hlo hj ⊢
    rw [hmap]
    by_cases hji : j = i
    · subst hji
      refine ⟨f, Function.update_self _ _ _, ?_⟩
      rw [hrefs, if_pos rfl]
      omega
    · obtain ⟨g, hg, hone⟩ := h.mapped j hlo (by omega)
      have hgf : g ≠ f := by
        rintro rfl
        omega
      refine ⟨g, ?_, ?_⟩
      · rw [Function.update_of_ne (by simp [hji])]
        exact hg
      · rw [hrefs, if_neg hgf]
        exact hone
  · dsimp only at hj ⊢
    rw [hmap, Function.update_of_ne (by simp only [ne_eq, Prod.mk.injEq, true_and]; omega)]
    exact h.unmapped j (by omega) hj'
  · dsimp only at hj hg ⊢
    unfold IsFrame
    change _ ∧ _ ∧ _ ≠ k₁.frame_head_addr
    rw [haddr]
    rw [hmap] at hg
    by_cases hji : j = i
    · subst hji
      rw [Function.update_self, Option.some.injEq] at hg
      subst hg
      exact hc.list.frame _ List.mem_cons_self
    · rw [Function.update_of_ne (by simp [hji])] at hg
      exact h.heap j hlo (by omega) g hg

/-- The loop of `increaseKernelBrk` with a frame for every page. -/
theorem KernelHeap.increaseLoop (hD : KernelSlots D) (hlen : n ≤ l.length)
    (h : KernelHeap D leak data_end m) (hc : Counted m.kernel D leak l)
    (hbrk : m.KERNEL_BRK = (i : Int) * 8192) (hwin : m.KERNEL_BRK + n * 8192 ≤ FRAME_WINDOW_BASE) :
    ∃ k', increaseKernelLoop n i m.kernel = .ok (0, k') ∧
      KernelHeap D leak data_end { m with kernel := k', KERNEL_BRK := m.KERNEL_BRK + n * 8192 } := by
  induction n generalizing m l i with
  | zero =>
    refine ⟨m.kernel, rfl, ?_⟩
    rw [show m.KERNEL_BRK + (0 : Nat) * 8192 = m.KERNEL_BRK by omega]
    exact h
  | succ n ih =>
    cases l with
    | nil => simp at hlen
    | cons f l =>
      have hf0 := (hc.list.frame f List.mem_cons_self).1
      have hstart := h.start
      have hi : i < 123 := by
        unfold FRAME_WINDOW_BASE KERNEL_STACK_BASE PAGESIZE at hwin
        omega
      obtain ⟨k₁, halloc, hcounted, hgrown⟩ := h.grow hD (by omega) hc hbrk
      obtain ⟨k', hrun, hheap⟩ := ih (by simpa using hlen) hgrown hcounted (i := i + 1)
        (by dsimp only; omega) (by dsimp only; omega)
      dsimp only at hrun hheap
      refine ⟨k', ?_, ?_⟩
      · unfold increaseKernelLoop
        simp only [halloc, frameOf_pageAtIndex]
        rw [if_neg (by rw [pageAtIndex_eq_zero]; omega), Kernel.setKernelEntry_ok (by omega)]
        exact_mod_cast hrun
      · rw [show m.KERNEL_BRK + (n + 1 : Nat) * 8192 = m.KERNEL_BRK + 8192 + n * 8192 by omega]
        exact hheap

/-! ## Lowering the break -/

/-- The pages from `i` to `j - 1` have been given back. -/
structure Emptied (D : Finset Slot) (leak : Nat → Nat) (k k' : Kernel) (i j : Nat) : Prop where
  counted : ∃ l, Counted k' D leak l
  mapping : ∀ x, mapping k' x = if x.1 = 0 ∧ i ≤ x.2 ∧ x.2 < j then none else Yalnix.mapping k x
  refs : ∀ f, refs D (Yalnix.mapping k') f ≤ RefCount.refs D (Yalnix.mapping k) f
  addr : k'.frame_head_addr = k.frame_head_addr

/-- The loop of `decreaseKernelBrk`. -/
theorem KernelHeap.decreaseLoop (h : KernelHeap D leak data_end m) (hD : KernelSlots D)
    (hbrk : m.KERNEL_BRK = (j : Int) * 8192) (hlo : data_end ≤ (i : Int) * 8192) (hij : i ≤ j) :
    ∃ k', Loop.forRange 0 ((j : Int) - i) (fun d k => do
        let pte_index := (i : Int) + d
        let entry ← k.kernelEntry pte_index
        let k := freePageFrame (pageAtIndex entry.pfn) k
        k.setKernelEntry pte_index (createPTEWithOptions 0 0)) m.kernel = .ok k' ∧
      Emptied D leak m.kernel k' i j := by
  have hwin := h.windows
  have hdata := h.data
  unfold FRAME_WINDOW_BASE KERNEL_STACK_BASE PAGESIZE at hwin
  have hloop := Loop.forRange_ok (a := 0) (b := (j : Int) - i) (s := m.kernel)
    (P := fun d k' => Emptied D leak m.kernel k' i (i + d.toNat))
    (g := fun d k => do
      let pte_index := (i : Int) + d
      let entry ← k.kernelEntry pte_index
      let k := freePageFrame (pageAtIndex entry.pfn) k
      k.setKernelEntry pte_index (createPTEWithOptions 0 0)) (by omega) ?_ ?_
  · obtain ⟨k', hrun, hempty⟩ := hloop
    rw [show i + ((j : Int) - i).toNat = j by omega] at hempty
    exact ⟨k', hrun, hempty⟩
  · exact ⟨h.counted, fun x => by rw [if_neg (by simp only [Int.toNat_zero]; omega)], fun f => le_rfl, rfl⟩
  · rintro d k hd hdj ⟨⟨l, hc⟩, hmap, hrefs, haddr⟩
    obtain ⟨d, rfl⟩ := Int.eq_ofNat_of_zero_le hd
    have hi : i + d < 123 := by omega
    obtain ⟨f, hf, hone⟩ := h.mapped (i + d) (by unfold indexOfPage; omega) (by push_cast; omega)
    have hframe := h.heap (i + d) (by push_cast; omega) (by push_cast; omega) f hf
    have hfk : Yalnix.mapping k (0, i + d) = some f := by
      rw [hmap, if_neg (by simp only [Int.toNat_natCast]; omega)]
      exact hf
    have hle := hrefs f
    obtain ⟨l', hcounted, hmap', haddr'⟩ := unmap_kernel_page hc hD hi hfk
      (by unfold IsFrame; rw [haddr]; exact hframe) (by omega)
    have hentry : (k.kernel_page_table (i + d)).frame = some f := by
      unfold Yalnix.mapping at hfk
      rwa [if_pos rfl, if_pos hi] at hfk
    have hpfn := (frame_eq_some.mp hentry).2
    refine ⟨(freePageFrame (pageAtIndex f) k).putKernelEntry (i + d) PTE.clear, ?_, ⟨l', hcounted⟩,
      fun x => ?_, fun g => ?_, haddr'.trans haddr⟩
    · have hcast : (i : Int) + (d : Int) = ((i + d : Nat) : Int) := by push_cast; rfl
      simp only [hcast, Kernel.kernelEntry_ok (show i + d < 128 by omega), bind, Except.bind, hpfn,
        Kernel.setKernelEntry_ok (show i + d < 128 by omega), create_zero]
    · rw [hmap', show ((d : Int) + 1).toNat = d + 1 by omega]
      by_cases hx : x = (0, i + d)
      · subst hx
        rw [Function.update_self, if_pos (by simp only [true_and]; omega)]
      · rw [Function.update_of_ne hx, hmap, Int.toNat_natCast]
        have hx' : ¬ (x.1 = 0 ∧ x.2 = i + d) := fun he => hx (Prod.ext he.1 he.2)
        by_cases hin : x.1 = 0 ∧ i ≤ x.2 ∧ x.2 < i + d
        · rw [if_pos hin, if_pos (by omega)]
        · rw [if_neg hin, if_neg (by omega)]
    · have hup := RefCount.refs_update (m := Yalnix.mapping k) (f := g) (hD (i + d) hi) none
      rw [← hmap'] at hup
      simp only [reduceCtorEq, if_false, Nat.add_zero] at hup
      have := hrefs g
      omega

/-- The break moves down to the first of the pages. -/
theorem KernelHeap.lowered (h : KernelHeap D leak data_end m) (hD : KernelSlots D)
    (hbrk : m.KERNEL_BRK = (j : Int) * 8192) (hlo : data_end ≤ (i : Int) * 8192) (hij : i ≤ j)
    (he : Emptied D leak m.kernel k' i j) :
    KernelHeap D leak data_end { m with kernel := k', KERNEL_BRK := (i : Int) * 8192 } := by
  have hwin := h.windows
  unfold FRAME_WINDOW_BASE KERNEL_STACK_BASE PAGESIZE at hwin
  refine ⟨?_, h.start, h.data, hlo, ?_, fun b hb hbi => ?_, fun b hb hb123 => ?_, fun b hb hbi f hf => ?_,
    he.counted⟩
  · dsimp only
    omega
  · dsimp only
    unfold FRAME_WINDOW_BASE KERNEL_STACK_BASE PAGESIZE
    omega
  · dsimp only at hb hbi ⊢
    obtain ⟨f, hf, hone⟩ := h.mapped b hb (by omega)
    have hf' : mapping k' (0, b) = some f := by
      rw [he.mapping, if_neg (by simp only [true_and]; omega)]
      exact hf
    refine ⟨f, hf', ?_⟩
    have hpos := RefCount.refs_pos (hD b (by omega)) hf'
    have := he.refs f
    omega
  · dsimp only at hb ⊢
    rw [he.mapping]
    split
    · rfl
    · rename_i hout
      simp only [true_and] at hout
      exact h.unmapped b (by omega) hb123
  · dsimp only at hb hbi hf ⊢
    rw [he.mapping, if_neg (by simp only [true_and]; omega)] at hf
    unfold IsFrame
    rw [he.addr]
    exact h.heap b hb (by omega) f hf

/-! ## Calls and runs -/

/-- A call of `SetKernelBrk` with an address that is not below the end of the kernel's data. -/
structure KernelBrkStep (data_end : Int) (m : KernelMemory) (address : Int) (m' : KernelMemory) : Prop where
  above : data_end ≤ address % 2 ^ 32
  run : ∃ r, SetKernelBrk address m = .ok (r, m')

/-- The address can be rounded up as a `long`, and a break that is raised finds a frame for every page or
none at all. -/
structure KernelRoom (m : KernelMemory) (address : Int) : Prop where
  nonneg : 0 ≤ address
  rounds : address ≤ LONG_MAX - 8191
  frames : m.KERNEL_BRK < UP_TO_PAGE address → UP_TO_PAGE address < FRAME_WINDOW_BASE →
    OutOfFrames m.kernel ∨ Enough (indexOfPage (UP_TO_PAGE address - m.KERNEL_BRK)).toNat m.kernel

/-- A call with enough room. -/
structure RoomyKernelStep (data_end : Int) (m : KernelMemory) (address : Int) (m' : KernelMemory) :
    Prop where
  step : KernelBrkStep data_end m address m'
  room : KernelRoom m address

/-- The break is raised, or stays where it is. -/
theorem KernelHeap.raise (h : KernelHeap D leak data_end m) (hD : KernelSlots D) (hroom : KernelRoom m a)
    (hlt : m.KERNEL_BRK < UP_TO_PAGE a) (hwin : UP_TO_PAGE a < FRAME_WINDOW_BASE) :
    ∃ r m', increaseKernelBrk a m = .ok (r, m') ∧ KernelHeap D leak data_end m' := by
  have hstart := h.start
  have hdata := h.data
  have habove := h.above
  have haligned := h.aligned
  have hup : UP_TO_PAGE a % 8192 = 0 := DOWN_TO_PAGE_dvd _
  have hframes := hroom.frames hlt hwin
  obtain ⟨l, hc⟩ := h.counted
  obtain ⟨i, hi⟩ : ∃ i : Nat, m.KERNEL_BRK = (i : Int) * 8192 := by
    obtain ⟨i, hi⟩ := Int.eq_ofNat_of_zero_le (a := m.KERNEL_BRK / 8192) (by omega)
    exact ⟨i, by omega⟩
  obtain ⟨n, hn⟩ : ∃ n : Nat, UP_TO_PAGE a = m.KERNEL_BRK + (n : Int) * 8192 := by
    obtain ⟨n, hn⟩ := Int.eq_ofNat_of_zero_le (a := (UP_TO_PAGE a - m.KERNEL_BRK) / 8192) (by omega)
    exact ⟨n, by omega⟩
  have hneeded : indexOfPage (UP_TO_PAGE a - m.KERNEL_BRK) = n := by
    unfold indexOfPage
    omega
  have hlong : long (UP_TO_PAGE a - m.KERNEL_BRK) = UP_TO_PAGE a - m.KERNEL_BRK := by
    unfold FRAME_WINDOW_BASE KERNEL_STACK_BASE PAGESIZE at hwin
    exact long_of_range (by omega) (by omega)
  have hindex : indexOfPage m.KERNEL_BRK = i := by
    unfold indexOfPage
    omega
  unfold increaseKernelBrk
  simp only [hlong, hneeded, hindex, Int.toNat_natCast]
  rw [hneeded, Int.toNat_natCast] at hframes
  rcases hframes with hnone | henough
  · -- the first allocation fails
    obtain ⟨n, rfl⟩ : ∃ b, n = b + 1 := ⟨n - 1, by omega⟩
    have hloop : increaseKernelLoop (n + 1) i m.kernel = .ok (-1, m.kernel) := by
      have halloc : allocatePageFrame m.kernel = (0, m.kernel) := if_pos hnone
      unfold increaseKernelLoop
      rw [halloc]
      rfl
    rw [hloop]
    exact ⟨-1, m, rfl, h⟩
  · rw [hc.list.enough_iff] at henough
    obtain ⟨k', hloop, hheap⟩ := KernelHeap.increaseLoop hD henough h hc hi (by omega)
    rw [← hn] at hheap
    rw [hloop]
    exact ⟨0, _, rfl, hheap⟩

/-- The break is lowered. -/
theorem KernelHeap.lower (h : KernelHeap D leak data_end m) (hD : KernelSlots D) (hlo : data_end ≤ a)
    (hroom : KernelRoom m a) (hlt : UP_TO_PAGE a < m.KERNEL_BRK) :
    ∃ r m', decreaseKernelBrk a m = .ok (r, m') ∧ KernelHeap D leak data_end m' := by
  have hstart := h.start
  have hdata := h.data
  have haligned := h.aligned
  have hwin := h.windows
  have hnonneg := hroom.nonneg
  have hrange := UP_TO_PAGE_range ⟨(by omega : -2147483648 ≤ a), hroom.rounds⟩
  unfold FRAME_WINDOW_BASE KERNEL_STACK_BASE PAGESIZE at hwin
  obtain ⟨i, hi⟩ : ∃ i : Nat, UP_TO_PAGE a = (i : Int) * 8192 := by
    obtain ⟨i, hi⟩ := Int.eq_ofNat_of_zero_le (a := UP_TO_PAGE a / 8192) (by omega)
    exact ⟨i, by omega⟩
  obtain ⟨j, hj⟩ : ∃ j : Nat, m.KERNEL_BRK = (j : Int) * 8192 := by
    obtain ⟨j, hj⟩ := Int.eq_ofNat_of_zero_le (a := m.KERNEL_BRK / 8192) (by omega)
    exact ⟨j, by omega⟩
  have hfreed : indexOfPage (long (m.KERNEL_BRK - UP_TO_PAGE a)) = (j : Int) - i := by
    rw [long_of_range (by omega) (by omega)]
    unfold indexOfPage
    omega
  have hindex : indexOfPage (UP_TO_PAGE a) = i := by
    unfold indexOfPage
    omega
  obtain ⟨k', hloop, hempty⟩ := h.decreaseLoop hD hj (i := i) (by omega) (by omega)
  have hheap := h.lowered hD hj (by omega) (by omega) hempty
  rw [← hi] at hheap
  unfold decreaseKernelBrk
  simp only [hfreed, hindex]
  rw [hloop]
  exact ⟨0, _, rfl, hheap⟩

/-- **A call with enough room returns, and keeps the heap in order.** -/
theorem KernelHeap.setBrk (h : KernelHeap D leak data_end m) (hD : KernelSlots D) (hlo : data_end ≤ a)
    (hroom : KernelRoom m a) :
    ∃ r m', SetKernelBrk a m = .ok (r, m') ∧ KernelHeap D leak data_end m' := by
  have hend : ∀ r m', (if r = -1 then Except.ok (-1, m') else .ok (0, m') :
      Except Stop (Int × KernelMemory)) = .ok (if r = -1 then -1 else 0, m') := by
    intro r m'
    split
    · rfl
    · rfl
  unfold SetKernelBrk
  by_cases hwin : UP_TO_PAGE a ≥ FRAME_WINDOW_BASE
  · rw [if_pos hwin]
    exact ⟨_, m, rfl, h⟩
  · rw [if_neg hwin]
    by_cases heq : UP_TO_PAGE a = m.KERNEL_BRK
    · rw [if_pos heq]
      exact ⟨_, m, rfl, h⟩
    · rw [if_neg heq]
      by_cases hgt : UP_TO_PAGE a > m.KERNEL_BRK
      · obtain ⟨r, m', hrun, hheap⟩ := h.raise hD hroom hgt (by omega)
        rw [if_pos hgt, hrun]
        exact ⟨_, m', hend r m', hheap⟩
      · obtain ⟨r, m', hrun, hheap⟩ := h.lower hD hlo hroom (by omega)
        rw [if_neg hgt, hrun]
        exact ⟨_, m', hend r m', hheap⟩

theorem KernelHeap.step (h : KernelHeap D leak data_end m) (hD : KernelSlots D)
    (hstep : RoomyKernelStep data_end m a m') : KernelHeap D leak data_end m' := by
  obtain ⟨⟨habove, r, hrun⟩, hroom⟩ := hstep
  have hnonneg := hroom.nonneg
  have hrounds := hroom.rounds
  unfold LONG_MAX at hrounds
  norm_num at habove
  obtain ⟨r', m₁, hrun', hheap⟩ := h.setBrk hD (a := a) (by omega) hroom
  rw [hrun] at hrun'
  cases hrun'
  exact hheap

/-- **After every run of calls with enough room the pages of the kernel's data and heap have a frame of
their own with count 1, those above have none, and no counted reference has been forgotten.** -/
theorem kernel_heap_run {m₀ : KernelMemory} {as : List Int} (hD : KernelSlots D)
    (h₀ : KernelHeap D leak data_end m₀) (hrun : Run (RoomyKernelStep data_end) m₀ as m) :
    KernelHeap D leak data_end m ∧ ∀ i : Nat, indexOfPage m.KERNEL_DATA ≤ i →
      (i : Int) * 8192 < m.KERNEL_BRK → OwnPage D m.kernel i := by
  have h := hrun.invariant (P := KernelHeap D leak data_end) (fun _ _ _ h hstep => h.step hD hstep) h₀
  exact ⟨h, fun i hlo hi => h.own hD hlo hi⟩

/-! ## One free frame -/

/-- A kernel without a heap, for which all frames but one are in use elsewhere. -/
def smallMemory : KernelMemory := ⟨0x2000, 0x2000, 0x200000, freePageFrame (pageAtIndex 5) fullKernel⟩

/-- The slots of the kernel. -/
def kernelSlots : Finset Slot := {0} ×ˢ Finset.range 123

theorem mem_kernelSlots : KernelSlots kernelSlots := fun i hi => by
  unfold kernelSlots
  rw [Finset.mem_product, Finset.mem_singleton, Finset.mem_range]
  exact ⟨rfl, hi⟩

theorem smallMemory_heap :
    KernelHeap kernelSlots (fun f => if f = 5 then 0 else 1) 0x2000 smallMemory := by
  have hframe : IsFrame fullKernel 5 := ⟨by decide, by decide, by decide⟩
  obtain ⟨hlist, hfrc, hquiet⟩ := freePageFrame_last fullKernel_refines.list hframe (by simp) (by decide)
  have hnone : ∀ x ∈ kernelSlots, mapping smallMemory.kernel x = none := by
    intro x hx
    unfold smallMemory
    rw [hquiet.mapping]
    unfold kernelSlots at hx
    rw [Finset.mem_product, Finset.mem_singleton, Finset.mem_range] at hx
    unfold mapping
    rw [if_pos hx.1, if_pos hx.2]
    rfl
  have hrefs : ∀ f, refs kernelSlots (mapping smallMemory.kernel) f = 0 := by
    intro f
    rw [RefCount.refs_eq_zero]
    intro x hx
    rw [hnone x hx]
    simp
  refine ⟨by decide, by decide, by decide, by decide, by decide, fun i hi hi' => ?_,
    fun i _ hi => hnone _ (mem_kernelSlots i hi), fun i hi hi' => ?_, [5], hlist, ⟨fun f hf => ?_, fun f => ?_⟩,
    fun x hx _ f hf => ?_⟩
  · have hdata : smallMemory.KERNEL_DATA = 0x2000 := rfl
    have hbrk : smallMemory.KERNEL_BRK = 0x2000 := rfl
    unfold indexOfPage at hi
    omega
  · have hbrk : smallMemory.KERNEL_BRK = 0x2000 := rfl
    omega
  · rw [hrefs, List.mem_singleton.mp hf]
    rfl
  · rw [hrefs]
    unfold smallMemory
    dsimp only
    rw [hfrc]
    by_cases hf : f = 5
    · subst hf
      decide
    · rw [Function.update_of_ne hf, if_neg hf]
      rfl
  · rw [hnone x hx] at hf
    cases hf

/-- `kernel_heap_run` for a call that takes the frame. -/
theorem kernel_heap_run_small : ∃ m, SetKernelBrk 0x4000 smallMemory = .ok (0, m) ∧
    m.KERNEL_BRK = 0x4000 ∧ OwnPage kernelSlots m.kernel 1 := by
  obtain ⟨m, hrun⟩ : ∃ m, SetKernelBrk 0x4000 smallMemory = .ok (0, m) ∧ m.KERNEL_DATA = 0x2000 ∧
    m.KERNEL_BRK = 0x4000 := ⟨_, rfl, by decide, by decide⟩
  have hroom : KernelRoom smallMemory 0x4000 :=
    ⟨by decide, by decide, fun _ _ => .inr ⟨by decide, True.intro⟩⟩
  refine ⟨m, hrun.1, hrun.2.2, (kernel_heap_run mem_kernelSlots smallMemory_heap
    (.single ⟨⟨by decide, 0, hrun.1⟩, hroom⟩)).2 1 ?_ ?_⟩
  · rw [hrun.2.1]
    decide
  · rw [hrun.2.2]
    decide

/-- **With one free frame a break two pages higher fails, and leaves a page mapped above the break.** -/
theorem kernel_heap_half_way : KernelHeap kernelSlots (fun f => if f = 5 then 0 else 1) 0x2000 smallMemory ∧
    ∃ m, KernelBrkStep 0x2000 smallMemory 0x6000 m ∧ m.KERNEL_BRK = 0x2000 ∧
      (m.kernel.kernel_page_table 1).frame = some 5 ∧
      ∀ leak, ¬ KernelHeap kernelSlots leak 0x2000 m := by
  refine ⟨smallMemory_heap, _, ⟨by decide, -1, rfl⟩, by decide, by decide, fun leak h => ?_⟩
  have hnone := h.unmapped 1 (by decide) (by decide)
  revert hnone
  decide

end Yalnix
