import Yalnix.Process.Threads

/-!
# What an exit gives back

A process without threads exits and another one runs: `freeAddressSpace`, and `killKernelContext`
with the switch in it.

* `freeAll_spec` — a run of `freePageFrame`: each frame that loses its last reference goes on the
  free list once.
* `TornDown` — what has changed after the exit; `exit_returns_own_frames`.
-/

set_option autoImplicit false

namespace Yalnix

open RefCount (refs)

variable {k k' : Kernel} {l : List Nat} {f g p q n i j : Nat} {r : Nat → Nat}

/-! ## The code -/

/-- `switchKernelContext`, as far as page tables go: the kernel stack of `pb` is mapped. -/
def switchKernelContext (pb : PID) (k : Kernel) : Kernel :=
  let entry := fun i => createPTEWithOptions data_options (frameOf ((k.proc pb).pcb_frames i))
  let entries := Function.update k.kernel_page_table (frameOf KERNEL_STACK_BASE) (entry 0)
  { k with kernel_page_table := Function.update entries (frameOf KERNEL_STACK_BASE + 1) (entry 1) }

/-- `killKernelContext`. -/
def killKernelContext (pa pb : PID) (k : Kernel) : Kernel :=
  freePcbFrames pa (switchKernelContext pb k)

/-- `exitProcess`, with the switch to `new_process`. -/
def exitAndSwitch (process new_process : PID) (k : Kernel) : Except Stop Kernel := do
  let k ← freeAddressSpace process k
  .ok (killKernelContext process new_process (k.modify process fun P => { P with live := false }))

/-! ## Many frames at once -/

/-- `freePageFrame` for each of some frames. -/
def freeAll (fs : List Nat) (k : Kernel) : Kernel :=
  fs.foldl (fun k f => freePageFrame (pageAtIndex f) k) k

theorem freePageFrame_proc (frame : Nat) (k : Kernel) : (freePageFrame frame k).proc = k.proc := by
  unfold freePageFrame
  dsimp only
  split
  · rfl
  · split
    · rfl
    · rfl

theorem freeAll_proc (fs : List Nat) (k : Kernel) : (freeAll fs k).proc = k.proc := by
  induction fs generalizing k with
  | nil => rfl
  | cons f fs ih => exact (ih _).trans (freePageFrame_proc _ k)

/-- **Each frame of which all references are given back goes on the list, once.** -/
theorem freeAll_spec (fs : List Nat) (hl : FreeList k l) (hc : Counts k.frc_table r l)
    (hframe : ∀ f ∈ fs, IsFrame k f) (hle : ∀ f, fs.count f ≤ r f) (h127 : ∀ f, r f ≤ 127) :
    ∃ l₀, FreeList (freeAll fs k) (l₀ ++ l) ∧
      Counts (freeAll fs k).frc_table (fun f => r f - fs.count f) (l₀ ++ l) ∧
      Quiet k (freeAll fs k) (l₀ ++ l) ∧ l₀.Nodup ∧ ∀ f, f ∈ l₀ ↔ f ∈ fs ∧ r f = fs.count f := by
  induction fs generalizing k l r with
  | nil => exact ⟨[], hl, hc.congr fun _ => by simp, Quiet.refl k l, List.nodup_nil, by simp⟩
  | cons f fs ih =>
    have hone : 1 ≤ r f := by
      have := hle f
      rw [List.count_cons_self] at this
      omega
    obtain ⟨l₁, hl₁, hlist, hcounts, hquiet⟩ := freePageFrame_spec
      (t := fun g => r g - if g = f then 1 else 0) hl hc (hframe f List.mem_cons_self) hone (h127 f)
      (fun g => by
        by_cases hgf : g = f
        · rw [if_pos hgf, hgf]
          omega
        · rw [if_neg hgf]
          rfl)
    have hcount : ∀ g, (f :: fs).count g = fs.count g + if g = f then 1 else 0 := by
      intro g
      rw [List.count_cons]
      by_cases hgf : g = f
      · simp [hgf]
      · simp [hgf, Ne.symm hgf]
    obtain ⟨l₂, hlist₂, hcounts₂, hquiet₂, hnodup, hmem⟩ := ih hlist hcounts
      (fun g hg => by
        unfold IsFrame
        rw [hquiet.addr]
        exact hframe g (List.mem_cons_of_mem _ hg))
      (fun g => by
        have := hle g
        rw [hcount] at this
        omega)
      (fun g => by
        have := h127 g
        omega)
    have hsub : ∀ g ∈ l, g ∈ l₁ := by
      intro g hg
      rw [hl₁]
      split
      · exact List.mem_cons_of_mem _ hg
      · exact hg
    have hcounts' : (fun g => r g - (if g = f then 1 else 0) - fs.count g) =
        fun g => r g - (f :: fs).count g := by
      funext g
      rw [hcount]
      omega
    rw [hcounts'] at hcounts₂
    have hq := (hquiet.mono fun g hg => List.mem_append_right l₂ hg).trans hquiet₂
    by_cases hlast : r f = 1
    · -- the last reference: there is no other call for this frame
      have hnot : f ∉ fs := by
        intro hf
        have := hle f
        rw [hcount, if_pos rfl] at this
        have := List.count_pos_iff.mpr hf
        omega
      have hf₂ : f ∉ l₂ := fun hf => hnot ((hmem f).mp hf).1
      rw [if_pos hlast] at hl₁
      have happ : l₂ ++ l₁ = (l₂ ++ [f]) ++ l := by
        rw [hl₁, List.append_assoc]
        rfl
      rw [happ] at hlist₂ hcounts₂ hq
      refine ⟨l₂ ++ [f], hlist₂, hcounts₂, hq, ?_, fun g => ?_⟩
      · rw [List.nodup_append]
        refine ⟨hnodup, List.nodup_singleton f, fun a ha b hb => ?_⟩
        rw [List.mem_singleton] at hb
        rintro rfl
        exact hf₂ (hb ▸ ha)
      · rw [List.mem_append, List.mem_singleton, hmem, hcount, List.mem_cons]
        by_cases hgf : g = f
        · subst hgf
          rw [if_pos rfl, List.count_eq_zero_of_not_mem hnot]
          simp [hlast]
        · simp [hgf]
    · rw [if_neg hlast] at hl₁
      rw [hl₁] at hlist₂ hcounts₂ hq
      refine ⟨l₂, hlist₂, hcounts₂, hq, hnodup, fun g => ?_⟩
      rw [hmem, hcount, List.mem_cons]
      by_cases hgf : g = f
      · subst hgf
        rw [if_pos rfl]
        constructor
        · rintro ⟨hg, hr⟩
          exact ⟨.inl rfl, by omega⟩
        · rintro ⟨-, hr⟩
          have hpos : 0 < fs.count g := by omega
          exact ⟨List.count_pos_iff.mp hpos, by omega⟩
      · simp [hgf]

/-! ## The frames of an exiting process -/

/-- The frames of the page table, in the order in which they are given back. -/
def mappedFrames (k : Kernel) (p n : Nat) : List Nat :=
  (List.range n).filterMap fun i => (k.table p i).frame

theorem mem_mappedFrames : f ∈ mappedFrames k p n ↔ ∃ i < n, (k.table p i).frame = some f := by
  unfold mappedFrames
  simp only [List.mem_filterMap, List.mem_range]

theorem count_mappedFrames (k : Kernel) (p f : Nat) :
    (mappedFrames k p n).count f = sharesBelow k p n f := RefCount.count_filterMap_range _ n f

/-- **`freeAddressSpace` is a run of `freePageFrame` on the frames of the table.** -/
theorem freeAddressSpace_eq (k : Kernel) (p : Nat) : freeAddressSpace p k =
    .ok ((freeAll (mappedFrames k p 128) k).modify p clearPageTable) := by
  have hloop := Loop.forRange_ok (a := 0) (b := (MAX_PT_LEN : Int)) (s := k)
    (P := fun m k' => k' = freeAll (mappedFrames k p m.toNat) k)
    (g := fun i k => do
      let entry ← k.entry p i
      if !entry.valid then .ok k
      else .ok (freePageFrame (pageAtIndex entry.pfn) k))
    (by unfold MAX_PT_LEN; omega) rfl ?_
  · obtain ⟨k', hrun, rfl⟩ := hloop
    unfold freeAddressSpace
    rw [hrun]
    rfl
  · rintro m k₁ hm hmb rfl
    obtain ⟨m, rfl⟩ := Int.eq_ofNat_of_zero_le hm
    have hm128 : m < 128 := by unfold MAX_PT_LEN at hmb; omega
    have htable : (freeAll (mappedFrames k p m) k).table p = k.table p := by
      unfold Kernel.table
      rw [freeAll_proc]
    rw [Int.toNat_natCast, show ((m : Int) + 1).toNat = m + 1 by omega]
    simp only [Kernel.entry_ok hm128, bind, Except.bind, htable]
    unfold mappedFrames
    rw [List.range_succ, List.filterMap_append]
    cases hv : (k.table p m).valid with
    | false => exact ⟨_, rfl, by simp [frame_eq_none.mpr hv]⟩
    | true =>
      refine ⟨_, rfl, ?_⟩
      simp [frame_eq_some.mpr ⟨hv, rfl⟩, freeAll]

/-- `killKernelContext` is one on the two frames of the kernel stack. -/
theorem freePcbFrames_eq {f₀ f₁ : Nat} (h₀ : (k.proc p).pcb_frames 0 = pageAtIndex f₀)
    (h₁ : (k.proc p).pcb_frames 1 = pageAtIndex f₁) :
    freePcbFrames p k = (freeAll [f₀, f₁] k).modify p fun P => { P with pcb := false } := by
  unfold freePcbFrames freeAll
  simp only [h₀, freePageFrame_proc, h₁, List.foldl_cons, List.foldl_nil]

/-! ## The exit -/

/-- `p` has exited, and `q` runs; the frames of `l₀` have been added to the free list `l`. -/
structure TornDown (k k' : Kernel) (p q : Nat) (l l₀ : List Nat) : Prop where
  list : FreeList k' (l₀ ++ l)
  once : l₀.Nodup
  /-- The kernel stack of `p`, and the frames of its page table that no other table maps. -/
  freed : ∀ f, f ∈ l₀ ↔ (∃ j < 2, (k.proc p).pcb_frames j = pageAtIndex f) ∨
    (∃ i < 128, (k.table p i).frame = some f) ∧
      ∀ o i, o ≠ p → 0 < o → o ≤ k.max_pid → i < 128 → (k.table o i).frame ≠ some f
  zero : ∀ f ∈ l₀, k'.frc_table f = 0
  counts : ∀ f, (∀ j < 2, (k.proc p).pcb_frames j ≠ pageAtIndex f) →
    k'.frc_table f = k.frc_table f - sharesBelow k p 128 f
  processes : ∀ o, o ≠ p → k'.proc o = k.proc o
  table : ∀ i, k'.table p i = PTE.clear
  kernel : ∀ i < 123, k'.kernel_page_table i = k.kernel_page_table i
  stack : ∀ j < 2, k'.kernel_page_table (frameOf KERNEL_STACK_BASE + j) =
    createPTEWithOptions data_options (frameOf ((k.proc q).pcb_frames j))
  contents : ∀ f, f ∉ l₀ ++ l → k'.pmem f = k.pmem f

/-- The counts are exact, positive for the frames in use and at most 127, whatever the entries of the
page tables allow; a frame of the kernel has one reference. -/
structure CountsExact (k : Kernel) (l : List Nat) : Prop where
  counted : Counted k (slots k.max_pid) (fun _ => 0) l
  bound : ∀ f, refs (slots k.max_pid) (mapping k) f ≤ 127
  held : ∀ f, KernelFrame k f → refs (slots k.max_pid) (mapping k) f = 1

theorem Exact.countsExact (h : Exact k) : ∃ l, CountsExact k l := by
  obtain ⟨l, hc⟩ := h.counted
  exact ⟨l, hc, h.bound, h.held⟩

theorem CountsExact.bounded (h : CountsExact k l) : Bounded k (fun _ => 0) l := ⟨h.counted, h.bound⟩

theorem CountsExact.frc (h : CountsExact k l) (f : Nat) :
    k.frc_table f = refs (slots k.max_pid) (mapping k) f := by
  have hb := h.bound f
  exact h.counted.counts.exact (f := f) (by omega)

/-- The frame of an entry is counted once for every entry of every table. -/
theorem CountsExact.entry_refs (h : CountsExact k l) (hp : Running k p) (hi : i < 128)
    (hf : (k.table p i).frame = some f) :
    refs (slots k.max_pid) (mapping k) f = regionRefs k f ∧ ¬ KernelFrame k f := by
  have hp0 := hp.pos
  have hnot : ¬ KernelFrame k f := by
    rintro ⟨x, hx, hkx, hm⟩
    have hone := h.held f ⟨x, hx, hkx, hm⟩
    have := RefCount.eq_of_refs_le_one hone.le hx hm (y := (p, i))
      (mem_slots.mpr ⟨hp.le, by simp only; omega⟩) (by rw [mapping_table (by omega) hi]; exact hf)
    rw [this] at hkx
    simp only at hkx
    omega
  exact ⟨refs_slots_of_not_kernel hnot, hnot⟩

/-- **Only `p` refers to a frame exactly if no other table maps it.** -/
theorem regionRefs_own (hp : Running k p) : regionRefs k f = sharesBelow k p 128 f ↔
    ∀ o i, o ≠ p → 0 < o → o ≤ k.max_pid → i < 128 → (k.table o i).frame ≠ some f := by
  have hp0 := hp.pos
  have hple := hp.le
  have hown : refs (block p 0 128) (fun x => (k.table x.1 x.2).frame) f = sharesBelow k p 128 f := by
    rw [refs_block, sharesBelow, Finset.range_eq_Ico]
  have hsub : block p 0 128 ⊆ regionSlots k.max_pid := fun x hx => by
    rw [mem_block] at hx
    rw [mem_regionSlots]
    omega
  constructor
  · intro heq o i ho ho0 hole hi hframe
    have hx : (o, i) ∉ block p 0 128 := fun hx => ho (mem_block.mp hx).1
    have hle := RefCount.refs_mono (m := fun x : Slot => (k.table x.1 x.2).frame) (f := f)
      (Finset.insert_subset ((mem_regionSlots (x := (o, i))).mpr ⟨ho0, hole, hi⟩) hsub)
    rw [RefCount.refs_insert hx, hown, if_pos hframe] at hle
    unfold regionRefs at heq
    omega
  · intro hno
    rw [← hown]
    refine RefCount.refs_eq_of_subset hsub fun x hx hxb hframe => ?_
    obtain ⟨hx0, hxle, hx128⟩ := mem_regionSlots.mp hx
    refine hno x.1 x.2 (fun hxp => hxb (mem_block.mpr ⟨hxp, by omega, hx128⟩)) hx0 hxle hx128 hframe

/-- The two frames of the kernel stack of `p`. -/
structure StackFrames (k : Kernel) (p f₀ f₁ : Nat) : Prop where
  first : (k.proc p).pcb_frames 0 = pageAtIndex f₀
  second : (k.proc p).pcb_frames 1 = pageAtIndex f₁
  ne : f₀ ≠ f₁
  held : ∀ f ∈ [f₀, f₁], KernelFrame k f ∧ IsFrame k f

theorem StackFrames.mem {f₀ f₁ : Nat} (h : StackFrames k p f₀ f₁) :
    f ∈ [f₀, f₁] ↔ ∃ j < 2, (k.proc p).pcb_frames j = pageAtIndex f := by
  have hmem : f ∈ [f₀, f₁] ↔ f = f₀ ∨ f = f₁ := by simp
  rw [hmem]
  constructor
  · rintro (rfl | rfl)
    · exact ⟨0, by omega, h.first⟩
    · exact ⟨1, by omega, h.second⟩
  · rintro ⟨j, hj, hjf⟩
    have h01 : j = 0 ∨ j = 1 := by omega
    rcases h01 with rfl | rfl
    · exact .inl (pageAtIndex_injective (hjf.symm.trans h.first))
    · exact .inr (pageAtIndex_injective (hjf.symm.trans h.second))

theorem StackFrames.count {f₀ f₁ : Nat} (h : StackFrames k p f₀ f₁) :
    ([f₀, f₁] : List Nat).count f = if f ∈ [f₀, f₁] then 1 else 0 := by
  have hnodup : [f₀, f₁].Nodup := by simp [h.ne]
  rw [List.Nodup.count hnodup]

theorem CountsExact.stackFrames (h : CountsExact k l) (hp : Running k p) (hpcb : PcbOk (k.proc p)) :
    ∃ f₀ f₁, StackFrames k p f₀ f₁ := by
  have hp0 := hp.pos
  have hc := h.counted
  obtain ⟨hlive, hframes⟩ := hpcb
  obtain ⟨f₀, hf₀⟩ := hframes 0 (by omega)
  obtain ⟨f₁, hf₁⟩ := hframes 1 (by omega)
  have hslot : ∀ j < 130, (p, j) ∈ slots k.max_pid := fun j hj => mem_slots.mpr ⟨hp.le, hj⟩
  have hm₀ := mapping_pcb (j := 0) (by omega) hlive hf₀
  have hm₁ := mapping_pcb (j := 1) (by omega) hlive hf₁
  have hk₀ : KernelFrame k f₀ := ⟨_, hslot 128 (by omega), .inr le_rfl, hm₀⟩
  have hk₁ : KernelFrame k f₁ := ⟨_, hslot 129 (by omega), .inr (by simp), hm₁⟩
  refine ⟨f₀, f₁, hf₀, hf₁, ?_, fun f hf => ?_⟩
  · rintro rfl
    have := RefCount.eq_of_refs_le_one (h.held f₀ hk₀).le (hslot 128 (by omega)) hm₀
      (hslot 129 (by omega)) hm₁
    simp at this
  · rcases List.mem_cons.mp hf with rfl | hf
    · exact ⟨hk₀, hc.frame _ (hslot 128 (by omega)) (by simp only; omega) _ hm₀⟩
    · rw [List.mem_singleton] at hf
      subst hf
      exact ⟨hk₁, hc.frame _ (hslot 129 (by omega)) (by simp only; omega) _ hm₁⟩

theorem Running.mapped_le (hp : Running k p) (f : Nat) :
    (mappedFrames k p 128).count f ≤ refs (slots k.max_pid) (mapping k) f := by
  rw [count_mappedFrames]
  refine (sharesBelow_le k ⟨hp.pos, hp.le⟩ le_rfl f).trans ?_
  rw [regionRefs_eq]
  exact RefCount.refs_mono regionSlots_subset

/-- No entry of the page table is for a frame of the kernel stack. -/
theorem StackFrames.not_mapped {f₀ f₁ : Nat} (hs : StackFrames k p f₀ f₁) (h : CountsExact k l)
    (hp : Running k p) (hf : f ∈ [f₀, f₁]) : (mappedFrames k p 128).count f = 0 := by
  refine List.count_eq_zero_of_not_mem fun hmem => ?_
  obtain ⟨i, hi, hframe⟩ := mem_mappedFrames.mp hmem
  exact (h.entry_refs hp hi hframe).2 (hs.held f hf).1

/-- What is left of the references when the entries of the page table are gone. -/
def refsWithout (k : Kernel) (p f : Nat) : Nat :=
  refs (slots k.max_pid) (mapping k) f - (mappedFrames k p 128).count f

/-- **The frames of the page table that become free are those that no other table maps.** -/
theorem CountsExact.freeTable (h : CountsExact k l) (hp : Running k p) : ∃ l₁,
    FreeList (freeAll (mappedFrames k p 128) k) (l₁ ++ l) ∧
    Counts (freeAll (mappedFrames k p 128) k).frc_table (refsWithout k p) (l₁ ++ l) ∧
    Quiet k (freeAll (mappedFrames k p 128) k) (l₁ ++ l) ∧ l₁.Nodup ∧
    ∀ f, f ∈ l₁ ↔ (∃ i < 128, (k.table p i).frame = some f) ∧
      ∀ o i, o ≠ p → 0 < o → o ≤ k.max_pid → i < 128 → (k.table o i).frame ≠ some f := by
  have hp0 := hp.pos
  have hc := h.counted
  have hframe : ∀ f ∈ mappedFrames k p 128, IsFrame k f := by
    intro f hf
    obtain ⟨i, hi, hframe⟩ := mem_mappedFrames.mp hf
    exact hc.frame (p, i) (mem_slots.mpr ⟨hp.le, by simp only; omega⟩) (by simp only; omega) f
      (by rw [mapping_table (by omega) hi]; exact hframe)
  obtain ⟨l₁, hlist, hcounts, hquiet, hnodup, hmem⟩ := freeAll_spec
    (r := fun f => refs (slots k.max_pid) (mapping k) f) _ hc.list (hc.counts.congr fun _ => rfl)
    hframe hp.mapped_le h.bound
  refine ⟨l₁, hlist, hcounts, hquiet, hnodup, fun f => ?_⟩
  rw [hmem, mem_mappedFrames, count_mappedFrames, ← regionRefs_own hp]
  refine and_congr_right ?_
  rintro ⟨i, hi, hframe⟩
  rw [(h.entry_refs hp hi hframe).1]

/-- **Both frames of the kernel stack become free after that.** -/
theorem StackFrames.free {f₀ f₁ : Nat} {k₂ : Kernel} {l' : List Nat} (hs : StackFrames k p f₀ f₁)
    (h : CountsExact k l) (hp : Running k p) (haddr : k₂.frame_head_addr = k.frame_head_addr)
    (hlist : FreeList k₂ l') (hcounts : Counts k₂.frc_table (refsWithout k p) l') : ∃ l₂,
    FreeList (freeAll [f₀, f₁] k₂) (l₂ ++ l') ∧
    Counts (freeAll [f₀, f₁] k₂).frc_table (fun f => refsWithout k p f - [f₀, f₁].count f) (l₂ ++ l') ∧
    Quiet k₂ (freeAll [f₀, f₁] k₂) (l₂ ++ l') ∧ l₂.Nodup ∧ ∀ f, f ∈ l₂ ↔ f ∈ [f₀, f₁] := by
  have hone : ∀ f ∈ [f₀, f₁], refsWithout k p f = 1 := by
    intro f hf
    unfold refsWithout
    rw [hs.not_mapped h hp hf, h.held f (hs.held f hf).1]
  have hframe : ∀ f ∈ [f₀, f₁], IsFrame k₂ f := by
    intro f hf
    unfold IsFrame
    rw [haddr]
    exact (hs.held f hf).2
  have hle : ∀ f, [f₀, f₁].count f ≤ refsWithout k p f := by
    intro f
    rw [hs.count]
    split
    · rename_i hf
      rw [hone f hf]
    · exact Nat.zero_le _
  have hbound : ∀ f, refsWithout k p f ≤ 127 := by
    intro f
    have := h.bound f
    unfold refsWithout
    omega
  obtain ⟨l₂, hlist₂, hcounts₂, hquiet₂, hnodup₂, hmem₂⟩ := freeAll_spec _ hlist hcounts hframe hle hbound
  refine ⟨l₂, hlist₂, hcounts₂, hquiet₂, hnodup₂, fun f => ?_⟩
  rw [hmem₂]
  refine ⟨fun hf => hf.1, fun hf => ⟨hf, ?_⟩⟩
  rw [hone f hf, hs.count, if_pos hf]

/-- The state between the two: the page table is empty, and `q` runs. -/
def emptied (p q : Nat) (k : Kernel) : Kernel :=
  switchKernelContext q (((freeAll (mappedFrames k p 128) k).modify p clearPageTable).modify p
    fun P => { P with live := false })

theorem emptied_proc (p q : Nat) (k : Kernel) : (emptied p q k).proc = Function.update k.proc p
    { k.proc p with live := false, page_table := fun _ => PTE.clear } := by
  unfold emptied
  simp [switchKernelContext, freeAll_proc, clearPageTable]

theorem emptied_kpt (p q : Nat) (k : Kernel) {i : Nat} (hi : i < 123) :
    (emptied p q k).kernel_page_table i =
      (freeAll (mappedFrames k p 128) k).kernel_page_table i := by
  unfold emptied
  simp only [switchKernelContext, KERNEL_STACK_BASE, frameOf, Kernel.kpt_modify]
  rw [Function.update_of_ne (by omega), Function.update_of_ne (by omega)]

theorem emptied_stack (k : Kernel) (hq : q ≠ p) {j : Nat} (hj : j < 2) :
    (emptied p q k).kernel_page_table (frameOf KERNEL_STACK_BASE + j) =
      createPTEWithOptions data_options (frameOf ((k.proc q).pcb_frames j)) := by
  have hq' : ((((freeAll (mappedFrames k p 128) k).modify p clearPageTable).modify p
      fun P => { P with live := false }).proc q).pcb_frames = (k.proc q).pcb_frames := by
    simp [hq, freeAll_proc]
  have h01 : j = 0 ∨ j = 1 := by omega
  unfold emptied
  simp only [switchKernelContext, hq']
  rcases h01 with rfl | rfl
  · rw [Function.update_of_ne (by omega), Nat.add_zero, Function.update_self]
  · rw [Function.update_self]

theorem StackFrames.exit_eq {f₀ f₁ : Nat} (hs : StackFrames k p f₀ f₁) (q : Nat) :
    exitAndSwitch p q k =
      .ok ((freeAll [f₀, f₁] (emptied p q k)).modify p fun P => { P with pcb := false }) := by
  have hrun : exitAndSwitch p q k = .ok (freePcbFrames p (emptied p q k)) := by
    unfold exitAndSwitch killKernelContext
    rw [freeAddressSpace_eq]
    rfl
  rw [hrun, freePcbFrames_eq]
  · rw [emptied_proc, Function.update_self]
    exact hs.first
  · rw [emptied_proc, Function.update_self]
    exact hs.second

/-- **A process without threads exits: exactly its own frames become free.** -/
theorem exit_returns_own_frames (h : CountsExact k l) (hp : Running k p) (hpcb : PcbOk (k.proc p))
    (hq : q ≠ p) : ∃ k' l₀, exitAndSwitch p q k = .ok k' ∧ TornDown k k' p q l l₀ := by
  have hp0 := hp.pos
  obtain ⟨f₀, f₁, hs⟩ := h.stackFrames hp hpcb
  obtain ⟨l₁, hlist₁, hcounts₁, hquiet₁, hnodup₁, hmem₁⟩ := h.freeTable hp
  have haddr : (emptied p q k).frame_head_addr = k.frame_head_addr := hquiet₁.addr
  have hlist : FreeList (emptied p q k) (l₁ ++ l) := hlist₁.of_eq rfl rfl rfl
  obtain ⟨l₂, hlist₂, hcounts₂, hquiet₂, hnodup₂, hmem₂⟩ := hs.free h hp haddr hlist hcounts₁
  have hproc : ∀ u, ((freeAll [f₀, f₁] (emptied p q k)).modify p u).proc = Function.update k.proc p
      (u { k.proc p with live := false, page_table := fun _ => PTE.clear }) := by
    intro u
    rw [Kernel.proc_modify, freeAll_proc, emptied_proc, Function.update_self, Function.update_idem]
  refine ⟨_, l₂ ++ l₁, hs.exit_eq q, ?_, ?_, fun f => ?_, fun f hf => ?_, fun f hf => ?_,
    fun o ho => ?_, fun i => ?_, fun i hi => ?_, fun j hj => ?_, fun f hf => ?_⟩
  · rw [List.append_assoc]
    exact hlist₂.of_eq rfl rfl rfl
  · rw [List.nodup_append]
    refine ⟨hnodup₂, hnodup₁, fun f hf g hg => ?_⟩
    rintro rfl
    obtain ⟨i, hi, hframe⟩ := ((hmem₁ f).mp hg).1
    have := List.count_pos_iff.mpr (mem_mappedFrames.mpr ⟨i, hi, hframe⟩)
    rw [hs.not_mapped h hp ((hmem₂ f).mp hf)] at this
    omega
  · rw [List.mem_append, hmem₂, hs.mem, hmem₁]
  · have hfree := hcounts₂.free f (by rw [← List.append_assoc]; exact List.mem_append_left l hf)
    have := hcounts₂.exact (f := f) (by omega)
    rw [hfree] at this
    exact this
  · have hnot : f ∉ [f₀, f₁] := by
      rw [hs.mem]
      rintro ⟨j, hj, hjf⟩
      exact hf j hj hjf
    have hb := h.bound f
    have hlef := hp.mapped_le f
    have hcount := hcounts₂.exact (f := f) (by unfold refsWithout; omega)
    unfold refsWithout at hcount
    rw [hs.count, if_neg hnot, count_mappedFrames] at hcount
    rw [count_mappedFrames] at hlef
    change (freeAll [f₀, f₁] (emptied p q k)).frc_table f = _
    rw [hcount, h.frc f]
    omega
  · rw [hproc, Function.update_of_ne ho]
  · rw [Kernel.table, hproc, Function.update_self]
  · change (freeAll [f₀, f₁] (emptied p q k)).kernel_page_table i = _
    rw [hquiet₂.kpt i (by omega), emptied_kpt p q k hi, hquiet₁.kpt i (by omega)]
  · change (freeAll [f₀, f₁] (emptied p q k)).kernel_page_table _ = _
    rw [hquiet₂.kpt _ (by simp only [KERNEL_STACK_BASE, frameOf]; omega), emptied_stack k hq hj]
  · rw [List.append_assoc] at hf
    change (freeAll [f₀, f₁] (emptied p q k)).pmem f = _
    rw [hquiet₂.pmem f hf]
    exact hquiet₁.pmem f fun hf₁ => hf (List.mem_append_right l₂ hf₁)

/-- `exit_returns_own_frames` for a child that exits; its parent runs. -/
theorem exit_returns_own_frames_child : ∃ k k' l l₀, GroupStep (machine 3) (.fork 1 firstContext 2) k ∧
    exitAndSwitch 2 1 k = .ok k' ∧ TornDown k k' 2 1 l l₀ := by
  have hN : 3 ≤ 65536 := by omega
  have hmax := max_pid_machine hN
  obtain ⟨k, l, leak, hstep, -, hs, -⟩ := (machine_sound hN).fork_step (machine_roomy hN)
    (running_machine hN) (by rw [proc_machine hN]; rfl) (by rw [hmax]; unfold LONG_MAX; omega)
    firstContext_sp (by omega) (by have := stackPages_le (k := machine 3) (p := 1); omega) (by omega)
  rw [hmax] at hstep hs
  obtain ⟨f₀, f₁, -, -, hnew⟩ := hs.child
  have hchild : Running k 2 := ⟨by omega, hs.max_pid.ge, by rw [hnew]⟩
  have hpcb := (((machine_sound hN).step hstep).process 2 hchild).pcb
  have hexact : Exact k := by
    cases hstep with
    | fork running frames fit run =>
      exact (machine_exact hN).step (.fork running frames run (by decide)) (machine_noOverflow hN)
  obtain ⟨l, hc⟩ := hexact.countsExact
  obtain ⟨k', l₀, hrun, ht⟩ := exit_returns_own_frames (q := 1) hc hchild hpcb (by omega)
  exact ⟨k, k', l, l₀, hstep, hrun, ht⟩

end Yalnix
