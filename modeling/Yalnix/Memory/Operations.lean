import Yalnix.Memory.Counts
import Mathlib.Order.Interval.Finset.Nat

/-!
# What the operations on an address space do

One specification for each function of `Yalnix.Memory.AddressSpace`, on states whose references
are counted: what happens to the page table, to the references, and to the contents of frames.

* `handleMemoryTrap_cow` — a write to a copy-on-write page ends with a writable entry for a frame
  that has the old contents and no other reference.
* `decreaseBrk_spec`, `freeAddressSpace_spec` — pages are unmapped, and only frames without a
  reference go to the free list.
* `setCopyOnWrite_parent` — entries below the stack pointer lose their write bit, in place.
-/

set_option autoImplicit false

namespace Yalnix

open RefCount (refs)

variable {k k' k₁ : Kernel} {l l' X : List Nat} {f g p i : Nat} {a : Int} {D : Finset Slot}
  {leak : Nat → Nat}

/-- The page-table index the memory trap computes for an address of region 1. -/
theorem trap_index (hlo : VMEM_1_BASE ≤ a) (hhi : a < VMEM_1_LIMIT) :
    indexOfPage (long (DOWN_TO_PAGE a - VMEM_1_BASE)) = (userPage a : Int) ∧ userPage a < 128 := by
  unfold VMEM_1_BASE at hlo
  unfold VMEM_1_LIMIT at hhi
  unfold DOWN_TO_PAGE VMEM_1_BASE userPage indexOfPage VMEM_1_BASE
  rw [long_of_range (by omega) (by omega)]
  omega

/-- Filling a frame through window 0. -/
theorem Quiet.fillWindow (h : Quiet k k' X) (hf : f ∈ X) (page : Word.Page) :
    Quiet k ((k'.setWindow 0 f).setWindowPage 0 page) X := by
  refine ⟨h.proc, h.max_pid, h.addr, fun i hi => ?_, fun g hg => ?_⟩
  · exact (Kernel.kpt_setWindow k' f (by omega) hi).trans (h.kpt i hi)
  · have hgf : g ≠ f := fun he => hg (he ▸ hf)
    rw [Kernel.pmem_setWindowPage, Kernel.windowFrame_setWindow, Function.update_of_ne hgf]
    exact h.pmem g hg

/-! ## The memory trap -/

/-- **A trap on a copy-on-write page gives the process a writable entry for a frame of its own
with the old contents: the old frame if this was its last reference, a fresh one otherwise.** -/
theorem handleMemoryTrap_cow (h : Counted k D leak l) (hp : p ≠ 0) (hlo : VMEM_1_BASE ≤ a)
    (hhi : a < VMEM_1_LIMIT) (hx : (p, userPage a) ∈ D)
    (hv : (k.table p (userPage a)).valid = true) (hr : (k.table p (userPage a)).readable = true)
    (hcow : (k.table p (userPage a)).cow = true)
    (h127 : refs D (mapping k) (k.table p (userPage a)).pfn + leak (k.table p (userPage a)).pfn ≤ 127)
    (hl : 1 < refs D (mapping k) (k.table p (userPage a)).pfn + leak (k.table p (userPage a)).pfn →
      l ≠ []) :
    ∃ k' l' f, handleMemoryTrap p a k = .ok k' ∧ Counted k' D leak l' ∧ Touches p k k' l ∧
      k'.table p = Function.update (k.table p) (userPage a) ((k.table p (userPage a)).unprotect f) ∧
      k'.pmem f = k.pmem (k.table p (userPage a)).pfn ∧ (∀ g ∈ l', g ∈ l) ∧
      refs D (mapping k') f + leak f = 1 := by
  obtain ⟨hidx, hi⟩ := trap_index hlo hhi
  generalize he : k.table p (userPage a) = e at *
  have hmap : mapping k (p, userPage a) = some e.pfn := he ▸ mapping_of_valid hp hi (by rw [he]; exact hv)
  have hpos := RefCount.refs_pos hx hmap
  have hexact : k.frc_table e.pfn = refs D (mapping k) e.pfn + leak e.pfn := h.counts.exact h127
  unfold handleMemoryTrap
  simp only [hidx, Kernel.entry_ok hi, he, bind, Except.bind, hcow, if_true]
  by_cases hshared : 1 < refs D (mapping k) e.pfn + leak e.pfn
  · -- other references: this one moves to a fresh frame
    rw [if_pos (by omega)]
    cases l with
    | nil => exact absurd rfl (hl hshared)
    | cons f l =>
      have hof : e.pfn ≠ f := fun hef => h.not_free hx hmap (hef ▸ List.mem_cons_self)
      have hf0 := (h.list.frame f List.mem_cons_self).1
      obtain ⟨k₂, halloc, hlist, hfrc, hquiet⟩ := allocatePageFrame_cons
        (k := k.setFrc e.pfn (char (k.frc_table e.pfn - 1))) (h.list.of_eq rfl rfl rfl)
      have hq : Quiet k k₂ l := (Quiet.setFrc _ _ l).trans hquiet
      simp only [halloc, frameOf_pageAtIndex]
      rw [if_neg (by rw [pageAtIndex_eq_zero]; omega)]
      have hread : (k₂.setWindow 0 f).readPage p (userPage a) = .ok (k.pmem e.pfn) := by
        have ht : (k₂.setWindow 0 f).table p (userPage a) = e := by
          rw [Kernel.table_setWindow, hq.table, he]
        rw [Kernel.readPage_ok hi (by rw [ht]; exact hv) (by rw [ht]; exact hr), ht]
        exact congrArg _ (hq.pmem _ fun hm => h.not_free hx hmap (List.mem_cons_of_mem _ hm))
      simp only [hread, Kernel.setEntry_ok hi]
      have hfill : Quiet k ((k₂.setWindow 0 f).setWindowPage 0 (k.pmem e.pfn)) (f :: l) :=
        (hq.mono fun g hg => List.mem_cons_of_mem _ hg).fillWindow List.mem_cons_self _
      have hmapping : ∀ y ∈ D, mapping (((k₂.setWindow 0 f).setWindowPage 0 (k.pmem e.pfn)).modify p
          (Kernel.putEntry (userPage a) (e.unprotect f))) y =
            Function.update (mapping k) (p, userPage a) (some f) y := by
        intro y _
        rw [mapping_putEntry hp hi, hfill.mapping, unprotect_frame]
      have hcounted : Counted (((k₂.setWindow 0 f).setWindowPage 0 (k.pmem e.pfn)).modify p
          (Kernel.putEntry (userPage a) (e.unprotect f))) D leak l := by
        refine h.move ?_ hfrc hfill.addr hx hmap h127 hmapping
        refine hlist.congr rfl rfl fun g hg => ?_
        have hgf : g ≠ f := fun he => (List.nodup_cons.mp h.list.nodup).1 (he ▸ hg)
        rw [Kernel.pmem_modify, Kernel.pmem_setWindowPage, Kernel.windowFrame_setWindow,
          Function.update_of_ne hgf]
        rfl
      have htouch := (hfill.touches p).trans
        (Touches.putEntry p (userPage a) (e.unprotect f) (f :: l))
      refine ⟨_, l, f, rfl, hcounted, htouch, ?_, ?_, fun g hg => List.mem_cons_of_mem _ hg, ?_⟩
      · rw [Kernel.table_putEntry_self, hfill.table]
      · rw [Kernel.pmem_modify, Kernel.pmem_setWindowPage, Kernel.windowFrame_setWindow,
          Function.update_self]
      · have hup := RefCount.refs_update (m := mapping k) (f := f) hx (some f)
        have hfree := h.counts.free f List.mem_cons_self
        rw [RefCount.refs_congr hmapping]
        rw [hmap] at hup
        simp only [Option.some.injEq, hof, if_false, if_true] at hup
        omega
  · -- the last reference: the write bit is given back in place
    rw [if_neg (by omega), Kernel.setEntry_ok hi]
    have hsame := mapping_putEntry_same (k := k) hp hi (e := e.unprotect e.pfn)
      (by rw [unprotect_frame, he, frame_eq_some.mpr ⟨hv, rfl⟩])
    refine ⟨_, l, e.pfn, rfl, ?_, Touches.putEntry p _ _ l, ?_, rfl, fun g hg => hg, ?_⟩
    · exact h.congr (h.list.of_eq rfl rfl rfl) rfl rfl fun x _ => by rw [hsame]
    · rw [Kernel.table_putEntry_self]
    · rw [hsame]
      omega

/-- A shared copy-on-write page and no free frame: the kernel halts. -/
theorem handleMemoryTrap_halt (h : FreeList k []) (hlo : VMEM_1_BASE ≤ a) (hhi : a < VMEM_1_LIMIT)
    (hcow : (k.table p (userPage a)).cow = true)
    (hshared : k.frc_table (k.table p (userPage a)).pfn > 1) :
    handleMemoryTrap p a k = .error .halt := by
  obtain ⟨hidx, hi⟩ := trap_index hlo hhi
  have halloc := allocatePageFrame_nil (k := k.setFrc (k.table p (userPage a)).pfn
    (char (k.frc_table (k.table p (userPage a)).pfn - 1))) (h.of_eq rfl rfl rfl)
  unfold handleMemoryTrap
  simp only [hidx, Kernel.entry_ok hi, bind, Except.bind, hcow, if_true, if_pos hshared, halloc]

/-! ## Mapping pages -/

/-- **A fresh frame goes to an entry; the reference the entry may have held is forgotten.** -/
theorem map_page (h : Counted k D leak (f :: l)) (hp : p ≠ 0) (hi : i < 128) (hx : (p, i) ∈ D) :
    ∃ k₁, allocatePageFrame k = (pageAtIndex f, k₁) ∧ k₁.proc = k.proc ∧
      Counted (k₁.modify p (Kernel.putEntry i (createPTEWithOptions data_options f))) D
        (fun g => leak g + if mapping k (p, i) = some g then 1 else 0) l ∧
      Touches p k (k₁.modify p (Kernel.putEntry i (createPTEWithOptions data_options f))) l ∧
      (k₁.modify p (Kernel.putEntry i (createPTEWithOptions data_options f))).table p =
        Function.update (k.table p) i (createPTEWithOptions data_options f) := by
  obtain ⟨k₁, halloc, hlist, hfrc, hquiet⟩ := allocatePageFrame_cons h.list
  have hframe : (createPTEWithOptions data_options f).frame = some f :=
    frame_eq_some.mpr ⟨(data_flags f).1, rfl⟩
  refine ⟨k₁, halloc, hquiet.proc, ?_, (hquiet.touches p).trans (Touches.putEntry p i _ l), ?_⟩
  · refine h.assign (hlist.of_eq rfl rfl rfl) hfrc hquiet.addr hx fun y _ => ?_
    rw [mapping_putEntry hp hi, hquiet.mapping, hframe]
  · rw [Kernel.table_putEntry_self, hquiet.table]

/-- A trap on a page that is not copy-on-write, at or above the stack pointer: the stack grows. -/
theorem handleMemoryTrap_stack (hlo : VMEM_1_BASE ≤ a) (hhi : a < VMEM_1_LIMIT)
    (hcow : (k.table p (userPage a)).cow = false)
    (hsp : DOWN_TO_PAGE (k.proc p).user_context.sp ≤ a) (hf : 0 < f)
    (halloc : allocatePageFrame k = (pageAtIndex f, k₁)) : handleMemoryTrap p a k =
      .ok (k₁.modify p (Kernel.putEntry (userPage a) (createPTEWithOptions data_options f))) := by
  obtain ⟨hidx, hi⟩ := trap_index hlo hhi
  unfold handleMemoryTrap
  simp only [hidx, Kernel.entry_ok hi, bind, Except.bind, hcow, Bool.false_eq_true, if_false,
    if_pos hsp, halloc, frameOf_pageAtIndex]
  rw [if_neg (by rw [pageAtIndex_eq_zero]; omega), Kernel.setEntry_ok hi]

/-- No frame is left for the stack. -/
theorem handleMemoryTrap_full (h : FreeList k []) (hlo : VMEM_1_BASE ≤ a) (hhi : a < VMEM_1_LIMIT)
    (hcow : (k.table p (userPage a)).cow = false)
    (hsp : DOWN_TO_PAGE (k.proc p).user_context.sp ≤ a) :
    handleMemoryTrap p a k = .error .halt := by
  obtain ⟨hidx, hi⟩ := trap_index hlo hhi
  unfold handleMemoryTrap
  simp only [hidx, Kernel.entry_ok hi, bind, Except.bind, hcow, Bool.false_eq_true, if_false,
    if_pos hsp, allocatePageFrame_nil h, if_true]

/-- Any other trap changes nothing. -/
theorem handleMemoryTrap_other (hlo : VMEM_1_BASE ≤ a) (hhi : a < VMEM_1_LIMIT)
    (hcow : (k.table p (userPage a)).cow = false)
    (hsp : ¬ DOWN_TO_PAGE (k.proc p).user_context.sp ≤ a) : handleMemoryTrap p a k = .ok k := by
  obtain ⟨hidx, hi⟩ := trap_index hlo hhi
  unfold handleMemoryTrap
  simp only [hidx, Kernel.entry_ok hi, bind, Except.bind, hcow, Bool.false_eq_true, if_false,
    if_neg hsp]

/-! ## Unmapping pages -/

/-- Giving back the frame of a page and clearing its entry. -/
theorem unmap_page (h : Counted k D leak l) (hp : p ≠ 0) (hi : i < 128) (hx : (p, i) ∈ D)
    (hv : (k.table p i).valid = true) (h127 : ∀ f, refs D (mapping k) f + leak f ≤ 127)
    (hk' : (freePageFrame (pageAtIndex (k.table p i).pfn) k).modify p
      (Kernel.putEntry i PTE.clear) = k') :
    ∃ l', (∀ g ∈ l, g ∈ l') ∧ Counted k' D leak l' ∧ Touches p k k' l' ∧
      k'.table p = Function.update (k.table p) i PTE.clear ∧
      ∀ f, refs D (mapping k') f ≤ refs D (mapping k) f := by
  have hD : insert (p, i) (D.erase (p, i)) = D := Finset.insert_erase hx
  have hmap := mapping_of_valid hp hi hv
  obtain ⟨l', -, hsub, hcounted, hquiet⟩ := (hD.symm ▸ h).forget (by simp) hp hmap
    (by rw [hD]; exact h127 _)
  have hmapping := mapping_putEntry (k := freePageFrame (pageAtIndex (k.table p i).pfn) k) hp hi
    PTE.clear
  rw [hquiet.mapping, frame_clear, hk'] at hmapping
  have hcleared : Counted k' (D.erase (p, i)) leak l' := by
    refine hcounted.congr ?_ ?_ ?_ fun y hy => ?_
    · exact hcounted.list.of_eq (by rw [← hk']; rfl) (by rw [← hk']; rfl) (by rw [← hk']; rfl)
    · rw [← hk']; rfl
    · rw [← hk']; rfl
    · rw [hmapping, hquiet.mapping, Function.update_of_ne (Finset.mem_erase.mp hy).1]
  refine ⟨l', hsub, hD ▸ hcleared.extend_none ?_, ?_, ?_, fun f => ?_⟩
  · rw [hmapping, Function.update_self]
  · rw [← hk']
    exact (hquiet.touches p).trans (Touches.putEntry p i _ l')
  · rw [← hk', Kernel.table_putEntry_self, hquiet.table]
  · have hup := RefCount.refs_update (m := mapping k) (f := f) hx none
    rw [hmapping]
    simp only [reduceCtorEq, if_false] at hup
    omega

/-- **`decreaseBrk` unmaps the pages between the new and the old break.** -/
theorem decreaseBrk_spec {b : Nat} (h : Counted k D leak l) (hp : p ≠ 0)
    (hnew : indexOfPage (long (UP_TO_PAGE a - VMEM_1_BASE)) = (i : Int))
    (hfreed : indexOfPage (long ((k.proc p).info.current_brk - UP_TO_PAGE a)) = (b : Int) - i)
    (hib : i ≤ b) (hb : b ≤ 128) (hx : ∀ j < 128, (p, j) ∈ D)
    (hv : ∀ j, i ≤ j → j < b → (k.table p j).valid = true)
    (h127 : ∀ f, refs D (mapping k) f + leak f ≤ 127) :
    ∃ k' l', decreaseBrk p a k = .ok k' ∧ (∀ g ∈ l, g ∈ l') ∧ Counted k' D leak l' ∧
      Touches p k k' l' ∧
      (∀ j, k'.table p j = if i ≤ j ∧ j < b then PTE.clear else k.table p j) ∧
      ∀ f, refs D (mapping k') f ≤ refs D (mapping k) f := by
  unfold decreaseBrk
  simp only [hnew, hfreed]
  have hloop := Loop.forRange_ok (a := 0) (b := (b : Int) - i) (s := k)
    (P := fun m k' => ∃ l', (∀ g ∈ l, g ∈ l') ∧ Counted k' D leak l' ∧ Touches p k k' l' ∧
      (∀ j : Nat, k'.table p j = if i ≤ j ∧ (j : Int) < i + m then PTE.clear else k.table p j) ∧
      ∀ f, refs D (mapping k') f ≤ refs D (mapping k) f)
    (g := fun m k => do
      let pte_index := (i : Int) + m
      let entry ← k.entry p pte_index
      let k := freePageFrame (pageAtIndex entry.pfn) k
      k.setEntry p pte_index (createPTEWithOptions 0 0))
    (by omega) ⟨l, fun g hg => hg, h, Touches.refl p k l, fun j => by rw [if_neg (by omega)],
      fun f => le_rfl⟩ ?_
  · obtain ⟨k', hrun, l', hsub, hcounted, htouch, htable, hrefs⟩ := hloop
    refine ⟨k', l', hrun, hsub, hcounted, htouch, fun j => ?_, hrefs⟩
    rw [htable j]
    simp only [show (j : Int) < i + ((b : Int) - i) ↔ j < b by omega]
  · rintro m k₁ hm hmb ⟨l₁, hsub, hcounted, htouch, htable, hrefs⟩
    obtain ⟨m, rfl⟩ := Int.eq_ofNat_of_zero_le hm
    have him : i + m < 128 := by omega
    have hvm : (k₁.table p (i + m)).valid = true := by
      rw [htable (i + m), if_neg (by omega)]
      exact hv (i + m) (by omega) (by omega)
    obtain ⟨l₂, hsub₂, hcounted₂, htouch₂, htable₂, hrefs₂⟩ := unmap_page hcounted hp him
      (hx _ him) hvm (fun f => (Nat.add_le_add_right (hrefs f) _).trans (h127 f)) rfl
    have hcast : (i : Int) + (m : Int) = ((i + m : Nat) : Int) := by push_cast; rfl
    refine ⟨_, ?_, l₂, fun g hg => hsub₂ g (hsub g hg), hcounted₂,
      (htouch.mono hsub₂).trans htouch₂, fun j => ?_, fun f => (hrefs₂ f).trans (hrefs f)⟩
    · simp only [hcast, Kernel.entry_ok him, bind, Except.bind, Kernel.setEntry_ok him, create_zero]
    · rw [htable₂]
      by_cases hj : j = i + m
      · rw [hj, Function.update_self, if_pos (by omega)]
      · rw [Function.update_of_ne hj, htable j]
        simp only [show (j : Int) < i + ((m : Int) + 1) ↔ (j : Int) < i + m by omega]

/-- The slots of entries `lo` to `hi - 1` of the table of `p`. -/
def block (p lo hi : Nat) : Finset Slot := {p} ×ˢ Finset.Ico lo hi

theorem mem_block {lo hi : Nat} {x : Slot} : x ∈ block p lo hi ↔ x.1 = p ∧ lo ≤ x.2 ∧ x.2 < hi := by
  unfold block
  rw [Finset.mem_product, Finset.mem_singleton, Finset.mem_Ico]

theorem Counted.extend_block {E : Finset Slot} (h : Counted k D leak l)
    (hE : ∀ x ∈ E, mapping k x = none) : Counted k (D ∪ E) leak l := by
  refine ⟨h.list, h.counts.congr fun g => by rw [RefCount.refs_union_none hE],
    fun x hx hx0 f hf => ?_⟩
  rcases Finset.mem_union.mp hx with hx | hx
  · exact h.frame x hx hx0 f hf
  · rw [hE x hx] at hf
    cases hf

/-- A slot that refers to nothing need not be counted. -/
theorem Counted.forget_none {x : Slot} (h : Counted k (insert x D) leak l)
    (hm : mapping k x = none) : Counted k D leak l :=
  ⟨h.list, h.counts.congr fun g => by rw [RefCount.refs_insert_none hm],
    fun y hy => h.frame y (Finset.mem_insert_of_mem hy)⟩

/-- **`freeAddressSpace` gives back every frame the page table maps, and clears the table.** -/
theorem freeAddressSpace_spec (h : Counted k D leak l) (hp : p ≠ 0) (hx : ∀ j < 128, (p, j) ∈ D)
    (h127 : ∀ f, refs D (mapping k) f + leak f ≤ 127) :
    ∃ k' l', freeAddressSpace p k = .ok k' ∧ (∀ g ∈ l, g ∈ l') ∧ Counted k' D leak l' ∧
      Touches p k k' l' ∧ (∀ j, k'.table p j = PTE.clear) ∧
      ∀ f, refs D (mapping k') f ≤ refs D (mapping k) f := by
  have hstep : ∀ m < 128, D \ block p 0 m = insert (p, m) (D \ block p 0 (m + 1)) := by
    intro m hm
    ext x
    obtain ⟨q, j⟩ := x
    have := hx m hm
    simp only [Finset.mem_sdiff, mem_block, Finset.mem_insert, Prod.mk.injEq]
    constructor
    · rintro ⟨hD, hb⟩
      by_cases hqj : q = p ∧ j = m
      · exact .inl hqj
      · exact .inr ⟨hD, by omega⟩
    · rintro (⟨rfl, rfl⟩ | ⟨hD, hb⟩)
      · exact ⟨this, by omega⟩
      · exact ⟨hD, by omega⟩
  have hloop := Loop.forRange_ok (a := 0) (b := (MAX_PT_LEN : Int)) (s := k)
    (P := fun m k' => ∃ l', (∀ g ∈ l, g ∈ l') ∧ Counted k' (D \ block p 0 m.toNat) leak l' ∧
      Quiet k k' l')
    (g := fun i k => do
      let entry ← k.entry p i
      if !entry.valid then .ok k
      else .ok (freePageFrame (pageAtIndex entry.pfn) k))
    (by unfold MAX_PT_LEN; omega) ?_ ?_
  · obtain ⟨k', hrun, l', hsub, hcounted, hquiet⟩ := hloop
    have htouch : Touches p k (k'.modify p clearPageTable) l' := by
      refine (hquiet.touches p).trans ⟨fun q hq => by simp [hq], ?_, rfl, rfl, fun _ _ => rfl,
        fun _ _ => rfl⟩
      simp [Kernel.table, clearPageTable]
    have htable : ∀ j, (k'.modify p clearPageTable).table p j = PTE.clear := fun j => by
      simp [Kernel.table, clearPageTable]
    have hnone : ∀ x ∈ block p 0 128, mapping (k'.modify p clearPageTable) x = none := by
      intro x hxb
      obtain ⟨rfl, -, hx2⟩ := mem_block.mp hxb
      rw [mapping_table hp hx2, htable, frame_clear]
    have hsame : ∀ x ∈ D \ block p 0 128,
        mapping (k'.modify p clearPageTable) x = mapping k x := by
      intro x hxd
      refine htouch.mapping ?_
      have := (Finset.mem_sdiff.mp hxd).2
      rw [mem_block] at this
      omega
    have hcut : D \ block p 0 128 ∪ block p 0 128 = D :=
      Finset.sdiff_union_of_subset fun x hxb => by
        obtain ⟨rfl, -, hx2⟩ := mem_block.mp hxb
        exact hx _ hx2
    refine ⟨k'.modify p clearPageTable, l', ?_, hsub, ?_, htouch, htable, fun f => ?_⟩
    · unfold freeAddressSpace
      rw [hrun]
      rfl
    · refine hcut ▸ Counted.extend_block ?_ hnone
      refine hcounted.congr (hcounted.list.of_eq rfl rfl rfl) rfl rfl fun x hxd => ?_
      rw [hsame x hxd, hquiet.mapping]
    · conv_lhs => rw [← hcut]
      rw [RefCount.refs_union_none hnone, RefCount.refs_congr hsame]
      exact RefCount.refs_mono Finset.sdiff_subset
  · refine ⟨l, fun g hg => hg, ?_, Quiet.refl k l⟩
    have hD : D \ block p 0 (Int.toNat 0) = D := by
      ext x
      simp [mem_block]
    rw [hD]
    exact h
  · rintro m k₁ hm hmb ⟨l₁, hsub, hcounted, hquiet⟩
    obtain ⟨m, rfl⟩ := Int.eq_ofNat_of_zero_le hm
    have hm128 : m < 128 := by unfold MAX_PT_LEN at hmb; omega
    simp only [Int.toNat_natCast, show ((m : Int) + 1).toNat = m + 1 by omega] at hcounted ⊢
    rw [hstep m hm128] at hcounted
    simp only [Kernel.entry_ok hm128, bind, Except.bind]
    cases hv : (k₁.table p m).valid with
    | false =>
      refine ⟨k₁, rfl, l₁, hsub, hcounted.forget_none ?_, hquiet⟩
      rw [mapping_table hp hm128]
      exact frame_eq_none.mpr hv
    | true =>
      have hmap := mapping_of_valid hp hm128 hv
      have hbound : refs (insert (p, m) (D \ block p 0 (m + 1))) (mapping k₁) (k₁.table p m).pfn +
          leak (k₁.table p m).pfn ≤ 127 := by
        rw [← hstep m hm128, hquiet.mapping]
        exact (Nat.add_le_add_right (RefCount.refs_mono Finset.sdiff_subset) _).trans (h127 _)
      obtain ⟨l₂, -, hsub₂, hcounted₂, hquiet₂⟩ := hcounted.forget
        (by simp [mem_block]) hp hmap hbound
      exact ⟨_, rfl, l₂, fun g hg => hsub₂ g (hsub g hg), hcounted₂,
        (hquiet.mono hsub₂).trans hquiet₂⟩

/-! ## Marking pages copy-on-write -/

/-- What `setCopyOnWrite` makes of one entry. -/
def PTE.shared (e : PTE) : PTE := if e.valid then e.protect else e

@[simp] theorem shared_frame (e : PTE) : e.shared.frame = e.frame := by
  unfold PTE.shared
  cases hv : e.valid with
  | false => rfl
  | true => simp [frame_eq_some.mpr ⟨hv, rfl⟩]

theorem shared_valid (e : PTE) : e.shared.valid = e.valid := by
  unfold PTE.shared
  cases hv : e.valid with
  | false => simpa using hv
  | true => simp [(protect_flags e).1]

/-- The process record with an entry-wise change of its page table below an index. -/
def mapBelow (n : Int) (u : PTE → PTE) (P : Process) : Process :=
  { P with page_table := fun j => if (j : Int) < n then u (P.page_table j) else P.page_table j }

theorem table_mapBelow (n : Int) (u : PTE → PTE) (j : Nat) :
    (k.modify p (mapBelow n u)).table p j = if (j : Int) < n then u (k.table p j) else k.table p j := by
  simp [Kernel.table, mapBelow]

theorem Touches.mapBelow (p : Nat) (n : Int) (u : PTE → PTE) (X : List Nat) :
    Touches p k (k.modify p (Yalnix.mapBelow n u)) X := by
  refine ⟨fun q hq => by simp [hq], ?_, rfl, rfl, fun _ _ => rfl, fun _ _ => rfl⟩
  simp [Kernel.table, Yalnix.mapBelow]

/-- One more entry of a table that is being changed from the bottom up. -/
theorem mapBelow_succ (u : PTE → PTE) (m : Nat) :
    (k.modify p (mapBelow m u)).modify p (Kernel.putEntry m (u (k.table p m))) =
      k.modify p (mapBelow ((m : Int) + 1) u) := by
  have hP : Kernel.putEntry m (u (k.table p m)) (mapBelow m u (k.proc p)) =
      mapBelow ((m : Int) + 1) u (k.proc p) := by
    unfold Kernel.putEntry mapBelow
    congr 1
    funext j
    by_cases hj : j = m
    · subst hj
      rw [Function.update_self, if_pos (by omega)]
      rfl
    · rw [Function.update_of_ne hj]
      simp only [show (j : Int) < (m : Int) + 1 ↔ (j : Int) < m by omega]
  simp only [Kernel.modify, Function.update_self, Function.update_idem, hP]

/-- **Marking the running process's own table changes flags only, below the stack pointer.** -/
theorem setCopyOnWrite_parent {n : Nat} (hn : stack_base p k = n) (hle : n ≤ 128) :
    setCopyOnWrite p p false k = .ok (k.modify p (mapBelow n PTE.shared)) := by
  have hloop := Loop.forRange_ok (a := 0) (b := (n : Int)) (s := k)
    (P := fun m k' => k' = k.modify p (mapBelow m PTE.shared))
    (g := fun i k => do
      let old_entry ← k.entry p i
      if !old_entry.valid then .ok k
      else
        let k := if false then k.setFrc old_entry.pfn (char (k.frc_table old_entry.pfn + 1)) else k
        k.setEntry p i old_entry.protect)
    (by omega) ?_ ?_
  · obtain ⟨k', hrun, rfl⟩ := hloop
    unfold setCopyOnWrite
    rw [hn]
    exact hrun
  · have h0 : mapBelow 0 PTE.shared (k.proc p) = k.proc p := by
      unfold mapBelow
      simp [show ∀ j : Nat, ¬ (j : Int) < 0 by omega]
    simp [Kernel.modify, h0]
  · rintro m k₁ hm hmn rfl
    obtain ⟨m, rfl⟩ := Int.eq_ofNat_of_zero_le hm
    have hm128 : m < 128 := by omega
    have hentry : (k.modify p (mapBelow m PTE.shared)).table p m = k.table p m := by
      rw [table_mapBelow, if_neg (by omega)]
    have hsucc := mapBelow_succ (k := k) (p := p) PTE.shared m
    simp only [Kernel.entry_ok hm128, hentry, bind, Except.bind, Kernel.setEntry_ok hm128]
    refine ⟨_, ?_, rfl⟩
    rw [← hsucc]
    cases hv : (k.table p m).valid with
    | false =>
      have hsame : (k.modify p (mapBelow m PTE.shared)).modify p
          (Kernel.putEntry m (PTE.shared (k.table p m))) = k.modify p (mapBelow m PTE.shared) := by
        rw [show PTE.shared (k.table p m) = (k.modify p (mapBelow m PTE.shared)).table p m by
          rw [hentry, PTE.shared, hv]; rfl]
        simp [Kernel.modify, Kernel.putEntry, Kernel.table]
      rw [hsame]
      rfl
    | true =>
      rw [show PTE.shared (k.table p m) = (k.table p m).protect by rw [PTE.shared, hv]; rfl]
      rfl

end Yalnix
