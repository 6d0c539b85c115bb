import Yalnix.Process.Fork
import Yalnix.Memory.Operations

/-!
# The descriptor and the stack of a new process

* `createProcessDescriptor_spec` — with two free frames, a process gets a number and a kernel stack.
* `copyParentStack_spec` — with enough free frames, the pages the parent has mapped from the stack
  pointer up are copied for the child, each on a frame of its own.
* `Only` — the effect of these steps: one process, the counts, the free list and free frames.
-/

set_option autoImplicit false

namespace Yalnix

variable {k k' k₁ k₂ : Kernel} {l l' X Y : List Nat} {f g p c i n sb : Nat} {D : Finset Slot}
  {leak : Nat → Nat}

/-! ## Changes confined to one process -/

/-- Only process `c`, the counts, the free list, the windows and the frames in `X` differ. -/
structure Only (c : Nat) (k k' : Kernel) (X : List Nat) : Prop where
  proc : ∀ q, q ≠ c → k'.proc q = k.proc q
  addr : k'.frame_head_addr = k.frame_head_addr
  kpt : ∀ i, i < 123 ∨ 126 ≤ i → k'.kernel_page_table i = k.kernel_page_table i
  pmem : ∀ f, f ∉ X → k'.pmem f = k.pmem f

theorem Touches.only (h : Touches c k k' X) : Only c k k' X := ⟨h.proc, h.addr, h.kpt, h.pmem⟩

theorem Quiet.only (h : Quiet k k' X) (c : Nat) : Only c k k' X :=
  ⟨fun q _ => by rw [h.proc], h.addr, h.kpt, h.pmem⟩

theorem Only.modify (c : Nat) (u : Process → Process) (X : List Nat) : Only c k (k.modify c u) X :=
  ⟨fun q hq => by simp [hq], rfl, fun _ _ => rfl, fun _ _ => rfl⟩

theorem Only.trans (h : Only c k k₁ X) (h' : Only c k₁ k' X) : Only c k k' X :=
  ⟨fun q hq => (h'.proc q hq).trans (h.proc q hq), h'.addr.trans h.addr,
    fun i hi => (h'.kpt i hi).trans (h.kpt i hi), fun f hf => (h'.pmem f hf).trans (h.pmem f hf)⟩

theorem Only.mono (h : Only c k k' X) (hX : ∀ f ∈ X, f ∈ Y) : Only c k k' Y :=
  ⟨h.proc, h.addr, h.kpt, fun f hf => h.pmem f fun hx => hf (hX f hx)⟩

theorem Only.table_ne (h : Only c k k' X) {q : Nat} (hq : q ≠ c) : k'.table q = k.table q := by
  unfold Kernel.table
  rw [h.proc q hq]

theorem Only.mapping (h : Only c k k' X) {x : Slot} (hx : x.1 ≠ c) :
    mapping k' x = mapping k x := by
  unfold Yalnix.mapping
  by_cases h0 : x.1 = 0
  · rw [if_pos h0, if_pos h0]
    split
    · rw [h.kpt _ (by omega)]
    · rfl
  · rw [if_neg h0, if_neg h0, h.table_ne hx, h.proc _ hx]

/-! ## The descriptor -/

/-- The process record `createProcessDescriptor` leaves behind. -/
def describedProcess (f₀ f₁ : Nat) : Process :=
  { newProcess with
    pcb := true
    pcb_frames := Function.update (Function.update newProcess.pcb_frames 0 (pageAtIndex f₀)) 1
      (pageAtIndex f₁) }

theorem nextAvailablePID_eq (hn : k.max_pid = n) (hmax : (n : Int) < LONG_MAX) :
    nextAvailablePID k = (n + 1, { k with max_pid := n + 1 }) := by
  unfold nextAvailablePID
  rw [hn, if_pos hmax]

theorem nextAvailablePID_none (hmax : ¬ (k.max_pid : Int) < LONG_MAX) :
    nextAvailablePID k = (0, k) := by
  unfold nextAvailablePID
  rw [if_neg hmax]

theorem pageAtIndex_ne_zero (hf : 0 < f) : pageAtIndex f ≠ 0 := by
  rw [Ne, pageAtIndex_eq_zero]
  omega

/-- The frames of a new descriptor come off the list one after the other; the list is that of `ka`
in between. -/
theorem createProcessDescriptor_two {f₀ f₁ : Nat} (hn : k.max_pid = n)
    (hl : FreeList k (f₀ :: f₁ :: l)) (hmax : (n : Int) < LONG_MAX) :
    ∃ ka k', createProcessDescriptor true k = (some (n + 1), k') ∧
      FreeList ka (f₁ :: l) ∧ ka.frame_head_addr = k.frame_head_addr ∧ FreeList k' l ∧
      Only (n + 1) k k' (f₁ :: l) ∧ k'.max_pid = n + 1 ∧
      k'.proc (n + 1) = describedProcess f₀ f₁ ∧
      k'.frc_table = Function.update (Function.update k.frc_table f₀ 1) f₁ 1 := by
  have hf₀ := (hl.frame f₀ (by simp)).1
  have hf₁ := (hl.frame f₁ (by simp)).1
  obtain ⟨ka, halloc₀, hlist₀, hfrc₀, hquiet₀⟩ := allocatePageFrame_cons
    (k := ({ k with max_pid := n + 1 } : Kernel).modify (n + 1) fun _ => newProcess)
    (hl.of_eq rfl rfl rfl)
  obtain ⟨kb, halloc₁, hlist₁, hfrc₁, hquiet₁⟩ := allocatePageFrame_cons
    (k := ka.modify (n + 1) (setPcbFrame 0 (pageAtIndex f₀))) (hlist₀.of_eq rfl rfl rfl)
  have hproc : ((((kb.modify (n + 1) (setPcbFrame 1 (pageAtIndex f₁))).setWindow 0 f₀).modify (n + 1)
      fun P => { P with pcb := true }) : Kernel).proc (n + 1) = describedProcess f₀ f₁ := by
    simp [hquiet₁.proc, hquiet₀.proc, setPcbFrame, describedProcess]
  generalize hk' : (((kb.modify (n + 1) (setPcbFrame 1 (pageAtIndex f₁))).setWindow 0 f₀).modify
      (n + 1) fun P => { P with pcb := true } : Kernel) = k' at hproc
  refine ⟨ka, k', ?_, hlist₀, hquiet₀.addr, ?_, ?_, ?_, hproc, ?_⟩
  · unfold createProcessDescriptor
    rw [nextAvailablePID_eq hn hmax]
    simp only [Bool.not_true, Bool.false_eq_true, if_false, Nat.add_eq_zero_iff, one_ne_zero,
      and_false, halloc₀, pageAtIndex_ne_zero hf₀, halloc₁, pageAtIndex_ne_zero hf₁,
      frameOf_pageAtIndex, hk']
  · refine hlist₁.of_eq ?_ ?_ ?_
    · rw [← hk']; rfl
    · rw [← hk']; rfl
    · rw [← hk']; rfl
  · have h₁ : Only (n + 1) k ({ k with max_pid := n + 1 } : Kernel) (f₁ :: l) :=
      ⟨fun _ _ => rfl, rfl, fun _ _ => rfl, fun _ _ => rfl⟩
    have h₂ := (h₁.trans (Only.modify (n + 1) (fun _ => newProcess) _)).trans
      (hquiet₀.only (n + 1))
    have h₃ := (h₂.trans (Only.modify (n + 1) (setPcbFrame 0 (pageAtIndex f₀)) _)).trans
      ((hquiet₁.only (n + 1)).mono fun g hg => List.mem_cons_of_mem _ hg)
    have h₄ := (h₃.trans (Only.modify (n + 1) (setPcbFrame 1 (pageAtIndex f₁)) _)).trans
      ((Quiet.setWindow (i := 0) (by omega) f₀ (f₁ :: l)).only (n + 1))
    exact hk' ▸ h₄.trans (Only.modify (n + 1) _ _)
  · rw [← hk']
    simp only [Kernel.max_pid_modify, Kernel.max_pid_setWindow, hquiet₁.max_pid, hquiet₀.max_pid]
  · rw [← hk']
    simp only [Kernel.frc_modify, Kernel.frc_setWindow, hfrc₁, hfrc₀]

/-- **A new descriptor takes the next number and the first two free frames.** -/
theorem createProcessDescriptor_spec {f₀ f₁ : Nat} (hn : k.max_pid = n)
    (h : Counted k (slots n) leak (f₀ :: f₁ :: l)) (hmax : (n : Int) < LONG_MAX) :
    ∃ k', createProcessDescriptor true k = (some (n + 1), k') ∧
      Counted k' (insert (n + 1, 129) (insert (n + 1, 128) (slots n))) leak l ∧
      Only (n + 1) k k' (f₁ :: l) ∧ k'.max_pid = n + 1 ∧
      k'.proc (n + 1) = describedProcess f₀ f₁ ∧
      k'.frc_table = Function.update (Function.update k.frc_table f₀ 1) f₁ 1 := by
  obtain ⟨ka, k', hrun, hlist₀, haddr, hlist₁, honly, hpid, hproc, hfrc⟩ :=
    createProcessDescriptor_two hn h.list hmax
  have hslot : ∀ j, 128 ≤ j → mapping k' (n + 1, j) =
      some (frameOf ((describedProcess f₀ f₁).pcb_frames (j - 128))) := fun j hj => by
    unfold mapping
    simp only [hproc, if_neg (show ¬ n + 1 = 0 by omega), if_neg (show ¬ j < 128 by omega)]
    rfl
  have hslot₀ : mapping k' (n + 1, 128) = some f₀ := by
    rw [hslot 128 le_rfl]
    simp [describedProcess]
  have hslot₁ : mapping k' (n + 1, 129) = some f₁ := by
    rw [hslot 129 (by omega)]
    simp [describedProcess]
  refine ⟨k', hrun, ?_, honly, hpid, hproc, hfrc⟩
  have hnew : ∀ j, (n + 1, j) ∉ slots n := fun j hm => by
    have := (mem_slots.mp hm).1
    omega
  -- the first frame goes to slot 128, the second to slot 129
  have hfirst : Counted { k' with
      frc_table := Function.update k.frc_table f₀ 1
      frame_head := ka.frame_head
      pmem := ka.pmem } (insert (n + 1, 128) (slots n)) leak (f₁ :: l) := by
    refine h.extend (hlist₀.of_eq rfl ?_ rfl) rfl honly.addr (hnew 128) hslot₀ ?_
    · exact honly.addr.trans haddr.symm
    · intro y hy
      have hy1 : y.1 ≠ n + 1 := by
        have := (mem_slots.mp hy).1
        omega
      exact (show mapping _ y = mapping k' y from rfl).trans (honly.mapping hy1)
  refine hfirst.extend (hlist₁.of_eq rfl rfl rfl) hfrc rfl ?_ hslot₁ fun y _ => rfl
  simp only [Finset.mem_insert, Prod.mk.injEq, not_or]
  exact ⟨by omega, hnew 129⟩

/-! ## The stack -/

theorem block_succ {lo m : Nat} (h : lo ≤ m) :
    block c lo (m + 1) = insert (c, m) (block c lo m) := by
  ext x
  obtain ⟨q, j⟩ := x
  simp only [mem_block, Finset.mem_insert, Prod.mk.injEq]
  omega

theorem block_self (lo : Nat) : block c lo lo = ∅ := by
  ext x
  simp only [mem_block, Finset.notMem_empty, iff_false]
  omega

/-- How many pages `p` has mapped from index `sb` up. -/
def stackPages (k : Kernel) (p sb : Nat) : Nat :=
  ((Finset.Ico sb 128).filter fun i => (k.table p i).valid).card

theorem stackPages_succ {m : Nat} (hm : m < 128) :
    stackPages k p m = stackPages k p (m + 1) + if (k.table p m).valid then 1 else 0 := by
  have hico : Finset.Ico m 128 = insert m (Finset.Ico (m + 1) 128) := by
    ext j
    simp only [Finset.mem_Ico, Finset.mem_insert]
    omega
  unfold stackPages
  rw [hico, Finset.filter_insert]
  split
  · rw [Finset.card_insert_of_notMem (by simp)]
  · rfl

/-- `e'` has the flags of `e` and, if valid, a frame out of `l` that nothing else refers to, with
the contents of the page `e` maps in `k`. -/
structure CopyOf (k k' : Kernel) (l : List Nat) (e e' : PTE) : Prop where
  flags : e' = { e with pfn := e'.pfn }
  valid : e.valid = true → e'.pfn ∈ l ∧ k'.frc_table e'.pfn = 1 ∧ k'.pmem e'.pfn = k.pmem e.pfn
  invalid : e.valid = false → e' = e

/-- A round of the loop on a page the parent has not mapped. -/
theorem copy_none {m : Nat} (hm : m < 128) (hv : (k.table p m).valid = false) :
    copyStackPage p c p m k = .ok k := by
  simp [copyStackPage, Kernel.entry_ok hm, hv, bind, Except.bind]

/-- A round of the loop on a page the parent has mapped; `e` is the parent's entry. -/
theorem copy_page {m : Nat} {e : PTE} (hm : m < 128) (hc : c ≠ 0) (hpc : p ≠ c)
    (h : Counted k D leak (f :: l)) (he : k.table p m = e) (hv : e.valid = true)
    (hr : e.readable = true) (hold : e.pfn ∉ f :: l) :
    ∃ k', copyStackPage p c p m k = .ok k' ∧
      FreeList k' l ∧ Touches c k k' (f :: l) ∧
      k'.frc_table = Function.update k.frc_table f 1 ∧
      k'.table c = Function.update (k.table c) m { e with pfn := f } ∧
      mapping k' = Function.update (mapping k) (c, m) (some f) ∧
      k'.pmem f = k.pmem e.pfn ∧ ∀ g, g ∉ f :: l → k'.pmem g = k.pmem g := by
  obtain ⟨k₂, halloc, hlist, hfrc, hquiet⟩ := allocatePageFrame_cons h.list
  have hfill : Quiet k ((k₂.setWindow 0 f).setWindowPage 0 (k.pmem e.pfn)) (f :: l) :=
    (hquiet.mono fun g hg => List.mem_cons_of_mem _ hg).fillWindow List.mem_cons_self _
  have hread : ((k₂.modify c (Kernel.putEntry m { e with pfn := f })).setWindow 0 f).readPage p m =
      .ok (k.pmem e.pfn) := by
    have ht : ((k₂.modify c (Kernel.putEntry m { e with pfn := f })).setWindow 0 f).table p m = e := by
      rw [Kernel.table_setWindow, Kernel.table_modify_ne hpc, hquiet.table, he]
    rw [Kernel.readPage_ok hm (by rw [ht]; exact hv) (by rw [ht]; exact hr), ht]
    exact congrArg _ (hquiet.pmem _ fun hl => hold (List.mem_cons_of_mem _ hl))
  refine ⟨((k₂.setWindow 0 f).setWindowPage 0 (k.pmem e.pfn)).modify c
    (Kernel.putEntry m { e with pfn := f }), ?_, ?_, (hfill.touches c).trans
      (Touches.putEntry c m _ _), hfrc, ?_, ?_, ?_, fun g hg => hfill.pmem g hg⟩
  · have hmapped : (!e.valid) = false := by rw [hv]; rfl
    simp only [copyStackPage, Kernel.entry_ok hm, he, hmapped, Bool.false_eq_true, if_false, halloc,
      frameOf_pageAtIndex, create_options hv, Kernel.setEntry_ok hm, bind, Except.bind, hread]
    rfl
  · refine hlist.congr rfl rfl fun g hg => ?_
    have hgf : g ≠ f := fun he => (List.nodup_cons.mp h.list.nodup).1 (he ▸ hg)
    rw [Kernel.pmem_modify, Kernel.pmem_setWindowPage, Kernel.windowFrame_setWindow,
      Function.update_of_ne hgf]
    rfl
  · rw [Kernel.table_putEntry_self, hfill.table]
  · rw [mapping_putEntry hc hm, hfill.mapping,
      (frame_eq_some (e := { e with pfn := f })).mpr ⟨hv, rfl⟩]
  · rw [Kernel.pmem_modify, Kernel.pmem_setWindowPage, Kernel.windowFrame_setWindow,
      Function.update_self]

/-- The copying of the pages of `p` from index `sb` up, begun in `k` with the free frames `l`, has come
to index `m` in state `k'`, and `l'` are still free. -/
structure CopiedTo (k k' : Kernel) (D : Finset Slot) (leak : Nat → Nat) (p c sb m : Nat)
    (l l' : List Nat) : Prop where
  counted : Counted k' (D ∪ block c sb m) leak l'
  touches : Touches c k k' l
  free : ∀ g ∈ l', g ∈ l
  length : l'.length + stackPages k p sb = l.length + stackPages k p m
  rest : ∀ j, j < sb ∨ m ≤ j → k'.table c j = k.table c j
  copies : ∀ j, sb ≤ j → j < m → CopyOf k k' l (k.table p j) (k'.table c j)
  counts : ∀ f, f ∉ l → k'.frc_table f = k.frc_table f
  used : ∀ f ∈ l, f ∈ l' ∨ k'.frc_table f = 1

theorem CopiedTo.start (h : Counted k D leak l) : CopiedTo k k D leak p c sb sb l l := by
  refine ⟨?_, Touches.refl c k l, fun _ hg => hg, rfl, fun _ _ => rfl, fun j hj hj' => by omega,
    fun _ _ => rfl, fun _ hf => .inl hf⟩
  rw [block_self, Finset.union_empty]
  exact h

/-- Past an entry that maps nothing. -/
theorem CopiedTo.skip {m : Nat} (h : CopiedTo k k' D leak p c sb m l l') (hc : c ≠ 0) (hsb : sb ≤ m)
    (hm : m < 128) (htab : k.table c m = k.table p m) (hv : (k.table p m).valid = false) :
    CopiedTo k k' D leak p c sb (m + 1) l l' := by
  have hsame : k'.table c m = k.table p m := (h.rest m (.inr le_rfl)).trans htab
  have hlen := h.length
  rw [stackPages_succ hm, hv] at hlen
  refine ⟨?_, h.touches, h.free, hlen, fun j hj => h.rest j (by omega), fun j hj hjm => ?_, h.counts, h.used⟩
  · rw [block_succ hsb, Finset.union_insert]
    refine h.counted.extend_none ?_
    rw [mapping_table hc hm, hsame]
    exact frame_eq_none.mpr hv
  · by_cases hjm' : j = m
    · rw [hjm', hsame]
      refine ⟨rfl, fun hv' => ?_, fun _ => rfl⟩
      rw [hv] at hv'
      cases hv'
    · exact h.copies j hj (by omega)

/-- A copy stays one when the next frame is filled. -/
theorem CopiedTo.copy_kept {m j : Nat} (h : CopiedTo k k₁ D leak p c sb m l (f :: l')) (hc : c ≠ 0)
    (hj : sb ≤ j) (hjm : j < m) (hm : m < 128)
    (hfrc : k'.frc_table = Function.update k₁.frc_table f 1)
    (hpm : ∀ g, g ∉ f :: l' → k'.pmem g = k₁.pmem g) :
    CopyOf k k' l (k.table p j) (k₁.table c j) := by
  have hcopy := h.copies j hj hjm
  refine ⟨hcopy.flags, fun hv => ?_, hcopy.invalid⟩
  obtain ⟨hmem, hone, hpage⟩ := hcopy.valid hv
  -- the copies made so far are counted, hence not free
  have hnf : (k₁.table c j).pfn ∉ f :: l' := by
    refine h.counted.not_free (x := (c, j)) (Finset.mem_union.mpr (.inr (mem_block.mpr ⟨rfl, hj, hjm⟩)))
      (mapping_of_valid hc (by omega) ?_)
    rw [hcopy.flags]
    exact hv
  have hne : (k₁.table c j).pfn ≠ f := fun he => hnf (he ▸ List.mem_cons_self)
  refine ⟨hmem, ?_, (hpm _ hnf).trans hpage⟩
  rw [hfrc, Function.update_of_ne hne]
  exact hone

/-- A page that is mapped gets the first of the free frames. -/
theorem CopiedTo.copy {m : Nat} (h : CopiedTo k k₁ D leak p c sb m l (f :: l')) (hc : c ≠ 0)
    (hpc : p ≠ c) (hsb : sb ≤ m) (hm : m < 128) (hcD : (c, m) ∉ D)
    (hv : (k.table p m).valid = true) (hr : (k.table p m).readable = true)
    (hold : (k.table p m).pfn ∉ l) :
    ∃ k', copyStackPage p c p m k₁ = .ok k' ∧ CopiedTo k k' D leak p c sb (m + 1) l l' := by
  have he : k₁.table p m = k.table p m := by rw [h.touches.table_ne hpc]
  have hfl : f ∈ l := h.free f List.mem_cons_self
  obtain ⟨k', hrun, hlist, htouch, hfrc, htable, hmap, hpage, hpm⟩ :=
    copy_page hm hc hpc h.counted he hv hr fun hmem => hold (h.free _ hmem)
  have hnew : (c, m) ∉ D ∪ block c sb m := by
    rw [Finset.mem_union, mem_block]
    rintro (hD | ⟨-, -, hlt⟩)
    · exact hcD hD
    · omega
  have hlen := h.length
  rw [stackPages_succ hm, if_pos hv, List.length_cons] at hlen
  refine ⟨k', hrun, ?_, h.touches.trans (htouch.mono h.free),
    fun g hg => h.free g (List.mem_cons_of_mem _ hg), by omega, fun j hj => ?_, fun j hj hjm => ?_,
    fun g hg => ?_, fun g hg => ?_⟩
  · rw [block_succ hsb, Finset.union_insert]
    refine h.counted.extend hlist hfrc htouch.addr hnew (by rw [hmap, Function.update_self]) fun y hy => ?_
    have hyx : y ≠ (c, m) := fun he => hnew (he ▸ hy)
    rw [hmap, Function.update_of_ne hyx]
  · rw [htable, Function.update_of_ne (by omega)]
    exact h.rest j (by omega)
  · rw [htable]
    by_cases hjm' : j = m
    · rw [hjm', Function.update_self]
      refine ⟨rfl, fun _ => ⟨hfl, ?_, hpage.trans (h.touches.pmem _ hold)⟩, fun hv' => ?_⟩
      · rw [hfrc, Function.update_self]
      · rw [hv] at hv'
        cases hv'
    · rw [Function.update_of_ne hjm']
      exact h.copy_kept hc hj (by omega) hm hfrc hpm
  · have hgf : g ≠ f := fun he => hg (he ▸ hfl)
    rw [hfrc, Function.update_of_ne hgf]
    exact h.counts g hg
  · by_cases hgf : g = f
    · exact .inr (by rw [hfrc, hgf, Function.update_self])
    · refine (h.used g hg).imp (fun hm => (List.mem_cons.mp hm).resolve_left hgf) fun hone => ?_
      rw [hfrc, Function.update_of_ne hgf]
      exact hone

/-- **Every page the parent has mapped from the stack pointer up gets a copy in the child, on a
frame of its own.** -/
theorem copyParentStack_spec (h : Counted k D leak l) (hp : p ≠ 0) (hc : c ≠ 0) (hpc : p ≠ c)
    (hsb : stack_base p k = sb) (hle : sb ≤ 128) (hpD : ∀ i < 128, (p, i) ∈ D)
    (hcD : ∀ i < 128, (c, i) ∉ D)
    (hread : ∀ i < 128, (k.table p i).valid = true → (k.table p i).readable = true)
    (hneed : stackPages k p sb ≤ l.length)
    (htab : ∀ i, sb ≤ i → i < 128 → k.table c i = k.table p i) :
    ∃ k', copyParentStack p c p k = .ok k' ∧ ∃ l', CopiedTo k k' D leak p c sb 128 l l' := by
  unfold copyParentStack
  rw [hsb]
  refine Loop.forRange_ok (a := (sb : Int)) (b := (MAX_PT_LEN : Int)) (s := k)
    (P := fun i k' => ∃ l', CopiedTo k k' D leak p c sb i.toNat l l') (g := copyStackPage p c p)
    (by unfold MAX_PT_LEN; omega) ⟨l, .start h⟩ ?_
  rintro m k₁ hm hmb ⟨l₁, hcopied⟩
  obtain ⟨m, rfl⟩ := Int.eq_ofNat_of_zero_le (show 0 ≤ m by omega)
  have hm128 : m < 128 := by unfold MAX_PT_LEN at hmb; omega
  have hsbm : sb ≤ m := by omega
  rw [Int.toNat_natCast] at hcopied
  rw [show ((m : Int) + 1).toNat = m + 1 by omega]
  cases hv : (k.table p m).valid with
  | false =>
    have hskip : copyStackPage p c p m k₁ = .ok k₁ :=
      copy_none hm128 (by rw [hcopied.touches.table_ne hpc, hv])
    exact ⟨k₁, hskip, l₁, hcopied.skip hc hsbm hm128 (htab m hsbm hm128) hv⟩
  | true =>
    cases l₁ with
    | nil =>
      -- there is a frame for each page
      have hlen := hcopied.length
      rw [stackPages_succ hm128, if_pos hv, List.length_nil] at hlen
      omega
    | cons f l₁ =>
      have hold := h.not_free (hpD m hm128) (mapping_of_valid hp hm128 hv)
      obtain ⟨k₂, hrun, hnext⟩ :=
        hcopied.copy hc hpc hsbm hm128 (hcD m hm128) hv (hread m hm128 hv) hold
      exact ⟨k₂, hrun, l₁, hnext⟩

end Yalnix
