import Yalnix.Process.Boot
import Yalnix.Lib.Transition

/-!
# Exact reference counts over runs

Runs of forks, thread creations, copy-on-write traps and `freeAddressSpace` calls that find the
frames they need.  `frc_table` is a table of signed 8-bit counters, and nothing in the kernel
keeps a frame from being shared by more than 127 entries:

* `counts_exact` — as long as no fork or thread creation takes a frame past 127 entries, the
  counter of a frame is the number of region-1 entries that map it.
* `counts_wrap` — a process that forks 127 times leaves a frame with 128 entries and a counter
  of -128.
-/

set_option autoImplicit false

namespace Yalnix

open RefCount (refs)
open Transition (Run)

variable {k k' k₁ : Kernel} {l l' : List Nat} {f p n sb i : Nat} {a : Int}

/-! ## Counting region-1 entries -/

/-- The slots of the region-1 page tables of all processes. -/
def regionSlots (n : Nat) : Finset Slot := Finset.Icc 1 n ×ˢ Finset.range 128

/-- The number of valid region-1 page-table entries that map a frame. -/
def regionRefs (k : Kernel) (f : Nat) : Nat :=
  refs (regionSlots k.max_pid) (fun x => (k.table x.1 x.2).frame) f

/-- The frame belongs to the kernel: mapped by its page table, or part of a kernel stack. -/
def KernelFrame (k : Kernel) (f : Nat) : Prop :=
  ∃ x ∈ slots k.max_pid, (x.1 = 0 ∨ 128 ≤ x.2) ∧ mapping k x = some f

theorem mem_regionSlots {x : Slot} : x ∈ regionSlots n ↔ 0 < x.1 ∧ x.1 ≤ n ∧ x.2 < 128 := by
  unfold regionSlots
  rw [Finset.mem_product, Finset.mem_Icc, Finset.mem_range]
  omega

theorem regionSlots_subset : regionSlots n ⊆ slots n := fun x hx => by
  rw [mem_regionSlots] at hx
  rw [mem_slots]
  omega

theorem regionRefs_eq (k : Kernel) (f : Nat) :
    regionRefs k f = refs (regionSlots k.max_pid) (mapping k) f := by
  unfold regionRefs
  refine RefCount.refs_congr fun x hx => ?_
  obtain ⟨h0, -, h128⟩ := mem_regionSlots.mp hx
  exact (mapping_table (by omega) h128).symm

/-- A frame the kernel does not hold is referred to by region-1 entries only. -/
theorem refs_slots_of_not_kernel (h : ¬ KernelFrame k f) :
    refs (slots k.max_pid) (mapping k) f = regionRefs k f := by
  rw [regionRefs_eq]
  refine RefCount.refs_eq_of_subset regionSlots_subset fun x hx hx' hm => h ⟨x, hx, ?_, hm⟩
  rw [mem_regionSlots] at hx'
  rw [mem_slots] at hx
  omega

/-! ## Exact states -/

def TablesOk (k : Kernel) : Prop := ∀ p, 0 < p → p ≤ k.max_pid → ∀ i < 128, (k.table p i).Ok

/-- A change of flags that keeps frames and the read bit. -/
theorem PTE.Ok.map {u : PTE → PTE} {e : PTE} (h : e.Ok) (hu : ∀ e, (u e).frame = e.frame)
    (hinv : ∀ e : PTE, e.valid = false → u e = e) (hread : ∀ e : PTE, (u e).readable = e.readable) :
    (u e).Ok := by
  cases hv : e.valid with
  | false =>
    rw [hinv e hv]
    exact h
  | true =>
    have hfr := hu e
    rw [frame_eq_some.mpr ⟨hv, rfl⟩, frame_eq_some] at hfr
    refine ⟨fun hv' => absurd (hv'.symm.trans hfr.1) (by simp), fun _ => ?_⟩
    rw [hread]
    exact h.readable hv

/-- The counts are exact: the free list is well formed, every counter is the number of references
to its frame, of which there are at most 127, and a frame the kernel holds has no other one. -/
structure Exact (k : Kernel) : Prop where
  counted : ∃ l, Counted k (slots k.max_pid) (fun _ => 0) l
  bound : ∀ f, refs (slots k.max_pid) (mapping k) f ≤ 127
  held : ∀ f, KernelFrame k f → refs (slots k.max_pid) (mapping k) f = 1
  tables : TablesOk k

theorem Exact.frc (h : Exact k) (f : Nat) : k.frc_table f = refs (slots k.max_pid) (mapping k) f := by
  obtain ⟨l, hl⟩ := h.counted
  have hb := h.bound f
  have := hl.counts.exact (f := f) (by omega)
  omega

/-- In an exact state the counter of a frame is the number of region-1 entries that map it; a
frame of the kernel is mapped by none, and has count 1. -/
theorem Exact.frc_eq (h : Exact k) (f : Nat) :
    (¬ KernelFrame k f → k.frc_table f = regionRefs k f) ∧
      (KernelFrame k f → k.frc_table f = 1 ∧ regionRefs k f = 0) := by
  refine ⟨fun hf => ?_, fun hf => ?_⟩
  · rw [h.frc f, refs_slots_of_not_kernel hf]
  · have h1 := h.held f hf
    refine ⟨by rw [h.frc f, h1]; rfl, ?_⟩
    obtain ⟨x, hx, hkx, hm⟩ := hf
    rw [regionRefs_eq, RefCount.refs_eq_zero]
    intro y hy hmy
    have hxy := RefCount.eq_of_refs_le_one (by omega) (regionSlots_subset hy) hmy hx hm
    subst hxy
    rw [mem_regionSlots] at hy
    omega

/-! ## The steps -/

inductive CountOp where
  | fork (p : PID) (context : UserContext)
  | createThread (p : PID) (context : UserContext)
  | cowTrap (p : PID) (context : UserContext) (address : Int)
  | freeAddressSpace (p : PID)

/-- The operations, when they succeed. -/
inductive CountStep : Kernel → CountOp → Kernel → Prop
  | fork {k k' : Kernel} {p : PID} {context : UserContext} {m₁ m₂ : Bool} {child : Int}
      (running : Running k p) (frames : EnoughFrames (saveUserContext p context k) p)
      (run : forkProcess m₁ m₂ p (saveUserContext p context k) = .ok (child, k'))
      (success : child ≠ ERROR) : CountStep k (.fork p context) k'
  | createThread {k k' : Kernel} {p : PID} {context : UserContext} {m₁ m₂ : Bool} {child : Int}
      (running : Running k p) (frames : EnoughFrames (saveUserContext p context k) p)
      (run : createThread m₁ m₂ p (saveUserContext p context k) = .ok (child, k'))
      (success : child ≠ ERROR) : CountStep k (.createThread p context) k'
  | cowTrap {k k' : Kernel} {p : PID} {context : UserContext} {address : Int}
      (running : Running k p) (lo : VMEM_1_BASE ≤ address) (hi : address < VMEM_1_LIMIT)
      (cow : (k.table p (userPage address)).cow = true)
      (run : trapMemory p context address k = .ok k') : CountStep k (.cowTrap p context address) k'
  | freeAddressSpace {k k' : Kernel} {p : PID} (running : Running k p)
      (run : freeAddressSpace p k = .ok k') : CountStep k (.freeAddressSpace p) k'

/-- The page index of a stack pointer. -/
def stackIndex (sp : Int) : Nat := (indexOfPage (long (sp - VMEM_1_BASE))).toNat

/-- No frame is taken past 127 entries: those it has, and those of the parent below its stack
pointer, which the child is about to share. -/
def NoOverflow (k : Kernel) : CountOp → Prop
  | .fork p context => ∀ f, regionRefs k f + sharesBelow k p (stackIndex context.sp) f ≤ 127
  | .createThread p context => ∀ f, regionRefs k f + sharesBelow k p (stackIndex context.sp) f ≤ 127
  | _ => True

/-! ## Every step keeps the counts exact -/

theorem saveUserContext_only (p : Nat) (context : UserContext) (X : List Nat) :
    Only p k (saveUserContext p context k) X := Only.modify p _ X

@[simp] theorem table_saveUserContext (p : Nat) (context : UserContext) :
    (saveUserContext p context k).table = k.table := by
  funext q
  by_cases hq : q = p
  · subst hq
    simp [saveUserContext, Kernel.table]
  · exact (saveUserContext_only p context []).table_ne hq

@[simp] theorem mapping_saveUserContext (p : Nat) (context : UserContext) :
    mapping (saveUserContext p context k) = mapping k := by
  funext x
  by_cases hx : x.1 = p
  · unfold mapping
    rw [table_saveUserContext, hx]
    simp [saveUserContext]
  · exact (saveUserContext_only p context []).mapping hx

theorem Counted.saveUserContext {D : Finset Slot} {leak : Nat → Nat} (h : Counted k D leak l)
    (p : Nat) (context : UserContext) : Counted (saveUserContext p context k) D leak l :=
  h.congr (h.list.of_eq rfl rfl rfl) rfl rfl fun x _ => by rw [mapping_saveUserContext]

theorem Exact.saveUserContext (h : Exact k) (p : Nat) (context : UserContext) :
    Exact (saveUserContext p context k) := by
  obtain ⟨l, hl⟩ := h.counted
  refine ⟨⟨l, hl.saveUserContext p context⟩, fun f => ?_, fun f hf => ?_, fun q hq0 hq i hi => ?_⟩
  · rw [mapping_saveUserContext]
    exact h.bound f
  · rw [mapping_saveUserContext]
    obtain ⟨x, hx, hkx, hm⟩ := hf
    rw [mapping_saveUserContext] at hm
    exact h.held f ⟨x, hx, hkx, hm⟩
  · rw [table_saveUserContext]
    exact h.tables q hq0 hq i hi

theorem Exact.spawned {u : PTE → PTE} {leader : Option PID} (h : Exact k) (hmax : k.max_pid = n)
    (hl : Counted k (slots n) (fun _ => 0) l) (hc : Counted k' (slots (n + 1)) (fun _ => 0) l')
    (hs : Spawned k k' p n sb l u leader) (hp : 0 < p ∧ p ≤ n) (hsb : sb ≤ 128)
    (hu : ∀ e, (u e).frame = e.frame) (hinv : ∀ e : PTE, e.valid = false → u e = e)
    (hread : ∀ e : PTE, (u e).readable = e.readable)
    (hno : ∀ f, regionRefs k f + sharesBelow k p sb f ≤ 127) : Exact k' := by
  subst hmax
  have hkernel : ∀ f, KernelFrame k f → sharesBelow k p sb f = 0 := fun f hf => by
    have h0 := ((h.frc_eq f).2 hf).2
    rw [regionRefs, RefCount.refs_eq_zero] at h0
    rw [sharesBelow, RefCount.refs_eq_zero]
    intro i hi
    have hi' := Finset.mem_range.mp hi
    exact h0 (p, i) (mem_regionSlots.mpr ⟨hp.1, hp.2, by omega⟩)
  refine ⟨⟨l', by rw [hs.max_pid]; exact hc⟩, fun f => ?_, fun f hf => ?_, fun q hq0 hq i hi => ?_⟩
  · rw [hs.max_pid]
    by_cases hf : f ∈ l
    · have := hs.fresh f hf
      omega
    · rw [hs.refs_old hu hsb hf]
      by_cases hk : KernelFrame k f
      · rw [h.held f hk, hkernel f hk]
        omega
      · rw [refs_slots_of_not_kernel hk]
        exact hno f
  · obtain ⟨x, hx, hkx, hm⟩ := hf
    rw [hs.max_pid] at hx ⊢
    by_cases hx1 : x ∈ slots k.max_pid
    · rw [hs.mapping_old hu hx1] at hm
      rw [hs.refs_old hu hsb (hl.not_free hx1 hm), h.held f ⟨x, hx1, hkx, hm⟩,
        hkernel f ⟨x, hx1, hkx, hm⟩]
    · obtain ⟨q, j⟩ := x
      rw [mem_slots] at hx hx1
      obtain rfl : q = k.max_pid + 1 := by simp only at hx hx1; omega
      have hfl := hs.mapping_above (by simp only at hkx; omega) hx.2 hm
      have h1 := hs.fresh f hfl
      have hpos := RefCount.refs_pos (mem_slots.mpr hx) hm
      omega
  · rw [hs.max_pid] at hq
    have hold := h.tables p hp.1 hp.2 i hi
    by_cases hq1 : q = k.max_pid + 1
    · subst hq1
      by_cases hlow : i < sb
      · rw [hs.below i hlow]
        exact hold.map hu hinv hread
      · rw [(hs.above i (by omega) hi).flags]
        exact ⟨hold.clear, hold.readable⟩
    · by_cases hqp : q = p
      · subst hqp
        rw [hs.table_parent]
        split
        · exact hold.map hu hinv hread
        · exact hold
      · rw [hs.table_other hqp hq1]
        exact h.tables q hq0 (by omega) i hi

theorem shared_readable (e : PTE) : e.shared.readable = e.readable := by
  unfold PTE.shared
  cases hv : e.valid with
  | false => rfl
  | true => exact (protect_flags e).2.2.1

theorem shared_of_invalid {e : PTE} (h : e.valid = false) : e.shared = e := by
  rw [PTE.shared, h]
  rfl

/-- A copy-on-write trap. -/
theorem Exact.cowTrap (h : Exact k) (hp : Running k p) (hlo : VMEM_1_BASE ≤ a)
    (hhi : a < VMEM_1_LIMIT) (hcow : (k.table p (userPage a)).cow = true)
    (hrun : handleMemoryTrap p a k = .ok k') : Exact k' := by
  obtain ⟨l, hl⟩ := h.counted
  have hp0 := hp.pos
  have hp1 := hp.le
  have hi := (trap_index hlo hhi).2
  have hok := h.tables p hp0 hp1 _ hi
  have hv : (k.table p (userPage a)).valid = true := by
    cases hv : (k.table p (userPage a)).valid with
    | true => rfl
    | false => exact absurd hcow (by rw [hok.clear hv]; simp)
  have hx : (p, userPage a) ∈ slots k.max_pid := mem_slots.mpr ⟨hp1, by simp only; omega⟩
  have hmap := mapping_of_valid (k := k) (p := p) (by omega) hi hv
  obtain ⟨k₁, l', f, hrun', hcounted, htouch, htable, -, -, hone⟩ := handleMemoryTrap_cow hl
    (by omega) hlo hhi hx hv (hok.readable hv) hcow (by have := h.bound (k.table p (userPage a)).pfn; omega)
    fun hshared hnil => by
      subst hnil
      have hfrc := h.frc (k.table p (userPage a)).pfn
      rw [handleMemoryTrap_halt hl.list hlo hhi hcow (by omega)] at hrun
      cases hrun
  rw [hrun, Except.ok.injEq] at hrun'
  subst hrun'
  have hupdate := htouch.mapping_update (by omega) hi htable
  rw [unprotect_frame] at hupdate
  have hrefs : ∀ g, refs (slots k.max_pid) (mapping k') g ≤ refs (slots k.max_pid) (mapping k) g ∨
      g = f := fun g => by
    by_cases hgf : g = f
    · exact .inr hgf
    · rw [hupdate]
      exact .inl (RefCount.refs_update_le hx hgf)
  have hmax := htouch.max_pid
  refine ⟨⟨l', by rw [hmax]; exact hcounted⟩, fun g => ?_, fun g hg => ?_, fun q hq0 hq i hi' => ?_⟩
  · rw [hmax]
    have := h.bound g
    rcases hrefs g with hle | rfl <;> omega
  · obtain ⟨x, hx', hkx, hm⟩ := hg
    rw [hmax] at hx' ⊢
    have hpos := RefCount.refs_pos hx' hm
    have hxp : x.1 ≠ p ∨ 128 ≤ x.2 := by omega
    rw [htouch.mapping hxp] at hm
    have := h.held g ⟨x, hx', hkx, hm⟩
    rcases hrefs g with hle | rfl <;> omega
  · rw [hmax] at hq
    by_cases hqp : q = p
    · subst hqp
      rw [htable]
      by_cases hji : i = userPage a
      · subst hji
        rw [Function.update_self]
        obtain ⟨hv', -, hr', hc'⟩ := unprotect_flags (k.table q (userPage a)) f
        exact ⟨fun _ => hc', fun _ => hr'.trans (hok.readable hv)⟩
      · rw [Function.update_of_ne hji]
        exact h.tables q hq0 hq i hi'
    · rw [htouch.table_ne hqp]
      exact h.tables q hq0 hq i hi'

/-- Giving back references keeps the counts exact. -/
theorem Exact.of_le (h : Exact k) (hc : Counted k' (slots k.max_pid) (fun _ => 0) l')
    (hmax : k'.max_pid = k.max_pid)
    (hrefs : ∀ f, refs (slots k.max_pid) (mapping k') f ≤ refs (slots k.max_pid) (mapping k) f)
    (hkernel : ∀ x : Slot, x.1 = 0 ∨ 128 ≤ x.2 → ∀ f, mapping k' x = some f → mapping k x = some f)
    (htables : TablesOk k') : Exact k' := by
  refine ⟨⟨l', by rw [hmax]; exact hc⟩, fun f => ?_, fun f hf => ?_, htables⟩
  · rw [hmax]
    exact (hrefs f).trans (h.bound f)
  · obtain ⟨x, hx, hkx, hm⟩ := hf
    rw [hmax] at hx ⊢
    have hpos := RefCount.refs_pos hx hm
    have h1 := h.held f ⟨x, hx, hkx, hkernel x hkx f hm⟩
    have := hrefs f
    omega

theorem Exact.freeAddressSpace (h : Exact k) (hp : Running k p)
    (hrun : freeAddressSpace p k = .ok k') : Exact k' := by
  obtain ⟨l, hl⟩ := h.counted
  have hp0 := hp.pos
  obtain ⟨k₁, l', hrun', -, hcounted, htouch, htable, hrefs⟩ := freeAddressSpace_spec hl (p := p)
    (by omega) (fun j hj => mem_slots.mpr ⟨hp.le, by simp only; omega⟩)
    (fun f => by have := h.bound f; omega)
  rw [hrun, Except.ok.injEq] at hrun'
  subst hrun'
  refine h.of_le hcounted htouch.max_pid hrefs (fun x hx f hm => ?_) fun q hq0 hq i hi => ?_
  · rwa [htouch.mapping (by omega)] at hm
  · rw [htouch.max_pid] at hq
    by_cases hqp : q = p
    · subst hqp
      rw [htable]
      exact ⟨fun _ => rfl, fun hv => by cases hv⟩
    · rw [htouch.table_ne hqp]
      exact h.tables q hq0 hq i hi

theorem stack_base_saveUserContext (p : Nat) (context : UserContext) :
    stack_base p (saveUserContext p context k) = indexOfPage (long (context.sp - VMEM_1_BASE)) := by
  unfold stack_base saveUserContext
  rw [Kernel.proc_modify_self]

/-- **Every step that overflows no counter keeps the counts exact.** -/
theorem Exact.step {op : CountOp} (h : Exact k) (hstep : CountStep k op k') (hno : NoOverflow k op) :
    Exact k' := by
  cases hstep with
  | fork running frames run success =>
    rename_i p context m₁ m₂ child
    have hsave := h.saveUserContext p context
    obtain ⟨l, hl⟩ := hsave.counted
    have hrunning : Running (Yalnix.saveUserContext p context k) p :=
      ⟨running.pos, running.le, by simp [Yalnix.saveUserContext, running.live]⟩
    obtain ⟨rfl, rfl, hready⟩ := forkReady_of_fork hl hrunning
      (fun i hi => (hsave.tables p running.pos running.le i hi).readable) frames run success
    obtain ⟨k₁, l', hrun, hc, -, -, hs⟩ := forkProcess_spec hready
    rw [run, Except.ok.injEq, Prod.mk.injEq] at hrun
    obtain ⟨-, rfl⟩ := hrun
    refine hsave.spawned rfl hl hc hs ⟨running.pos, running.le⟩ hready.le shared_frame
      (fun e => shared_of_invalid) shared_readable fun f => ?_
    have := hno f
    unfold regionRefs sharesBelow at this ⊢
    rw [table_saveUserContext, stack_base_saveUserContext]
    exact this
  | createThread running frames run success =>
    rename_i p context m₁ m₂ child
    have hsave := h.saveUserContext p context
    obtain ⟨l, hl⟩ := hsave.counted
    have hrunning : Running (Yalnix.saveUserContext p context k) p :=
      ⟨running.pos, running.le, by simp [Yalnix.saveUserContext, running.live]⟩
    obtain ⟨rfl, rfl, hready⟩ := forkReady_of_thread hl hrunning
      (fun i hi => (hsave.tables p running.pos running.le i hi).readable) frames run success
    obtain ⟨k₁, l', hrun, hc, -, -, hs⟩ := createThread_spec hready
    rw [run, Except.ok.injEq, Prod.mk.injEq] at hrun
    obtain ⟨-, rfl⟩ := hrun
    refine hsave.spawned rfl hl hc hs ⟨running.pos, running.le⟩ hready.le (fun _ => rfl)
      (fun _ _ => rfl) (fun _ => rfl) fun f => ?_
    have := hno f
    unfold regionRefs sharesBelow at this ⊢
    rw [table_saveUserContext, stack_base_saveUserContext]
    exact this
  | cowTrap running lo hi cow run =>
    rename_i p context address
    have hrunning : Running (Yalnix.saveUserContext p context k) p :=
      ⟨running.pos, running.le, by simp [Yalnix.saveUserContext, running.live]⟩
    exact (h.saveUserContext p context).cowTrap hrunning lo hi
      (by rw [table_saveUserContext]; exact cow) run
  | freeAddressSpace running run => exact h.freeAddressSpace running run

theorem machine_exact {N : Nat} (hN : N ≤ 65536) : Exact (machine N) := by
  obtain ⟨l, hcounted, hlen, hquiet⟩ := machine_counted hN
  have hmax := max_pid_machine hN
  have hle : ∀ f, refs (slots (machine N).max_pid) (mapping (machine N)) f ≤ 1 := fun f => by
    rw [hmax, hquiet.mapping, refs_first]
    exact firstRefs_le f
  refine ⟨⟨l, by rw [hmax]; exact hcounted⟩, fun f => (hle f).trans (by omega), fun f hf => ?_,
    fun p hp0 hp i _ => ?_⟩
  · obtain ⟨x, hx, -, hm⟩ := hf
    have := RefCount.refs_pos hx hm
    have := hle f
    omega
  · have h1 : p = 1 := by omega
    subst h1
    rw [table_machine hN]
    exact tables_firstProcess i

/-- The context the first process traps with: its stack pointer is in page 127. -/
def firstContext : UserContext := ⟨0x100000, 0x1FFF00, fun _ => 0⟩

/-- The machine after `m` forks by the first process, with `r` frames left. -/
structure AfterForks (k : Kernel) (m r : Nat) : Prop where
  counted : ∃ l, Counted k (slots (m + 1)) (fun _ => 0) l ∧ l.length = r
  max_pid : k.max_pid = m + 1
  live : (k.proc 1).live = true
  leader : (k.proc 1).thread_leader = none
  frames : ∀ i, (k.table 1 i).frame = (firstProcess.page_table i).frame
  tables : ∀ i, (k.table 1 i).Ok
  user : ¬ KernelFrame k 201
  refs : refs (slots (m + 1)) (mapping k) 201 = m + 1

theorem afterForks_zero {N : Nat} (hN : N ≤ 65536) : AfterForks (machine N) 0 N := by
  obtain ⟨l, hcounted, hlen, hquiet⟩ := machine_counted hN
  refine ⟨⟨l, hcounted, hlen⟩, max_pid_machine hN, by rw [proc_machine hN]; rfl,
    by rw [proc_machine hN]; rfl, fun i => by rw [table_machine hN], fun i => ?_, ?_, ?_⟩
  · rw [table_machine hN]
    exact tables_firstProcess i
  · rintro ⟨x, hx, hkx, hm⟩
    rw [hquiet.mapping] at hm
    rw [max_pid_machine hN] at hx
    have h11 : mapping (machineFrom N 0) (1, 1) = some 201 := rfl
    have := RefCount.eq_of_refs_le_one (by rw [refs_first]; exact firstRefs_le 201) hx hm
      (mem_slots.mpr ⟨le_rfl, by simp⟩) h11
    subst this
    simp at hkx
  · rw [hquiet.mapping, refs_first]
    rfl

theorem AfterForks.ready {m r : Nat} (h : AfterForks k m r) (hr : 3 ≤ r) (hm : m < 1000) :
    ∃ l, ForkReady (saveUserContext 1 firstContext k) 1 (m + 1) 127 l (fun _ => 0) ∧ l.length = r := by
  obtain ⟨l, hl, hlen⟩ := h.counted
  refine ⟨l, ⟨hl.saveUserContext 1 firstContext, h.max_pid, by unfold LONG_MAX; omega, by omega, ?_, ?_,
    by omega, fun i hi => ?_, ?_⟩, hlen⟩
  · simp [saveUserContext, h.leader]
  · rw [stack_base_saveUserContext]
    decide
  · rw [table_saveUserContext]
    exact (h.tables i).readable
  · have : stackPages (saveUserContext 1 firstContext k) 1 127 ≤ (Finset.Ico 127 128).card :=
      Finset.card_filter_le _ _
    have h1 : (Finset.Ico 127 128).card = 1 := by decide
    omega

theorem AfterForks.step {m r : Nat} (h : AfterForks k m (r + 3)) (hm : m < 1000) :
    ∃ k', CountStep k (.fork 1 firstContext) k' ∧ AfterForks k' (m + 1) r := by
  obtain ⟨l, hready, hlen⟩ := h.ready (by omega) hm
  obtain ⟨k', l', hrun, hc, hsub, hlen', hs⟩ := forkProcess_spec hready
  have hv : (k.table 1 127).valid = true := by
    have := h.frames 127
    rw [show (firstProcess.page_table 127).frame = some 203 from rfl, frame_eq_some] at this
    exact this.1
  have hpages : stackPages (saveUserContext 1 firstContext k) 1 127 = 1 := by
    unfold stackPages
    rw [table_saveUserContext, show Finset.Ico 127 128 = {127} by decide, Finset.filter_singleton,
      if_pos hv]
    rfl
  have htable : ∀ i : Nat, k'.table 1 i =
      if i < 127 then (k.table 1 i).shared else k.table 1 i := fun i => by
    rw [hs.table_parent, table_saveUserContext]
  have h201 : 201 ∉ l := by
    have hmap : mapping k (1, 1) = some 201 := by
      rw [mapping_table (by omega) (by omega), h.frames 1]
      rfl
    have hc₀ := hready.counted
    refine hc₀.not_free (x := (1, 1)) (mem_slots.mpr ⟨by simp, by simp⟩) ?_
    rw [mapping_saveUserContext]
    exact hmap
  have hrefs := hs.refs_old shared_frame (by omega) h201
  have hshare : sharesBelow (saveUserContext 1 firstContext k) 1 127 201 = 1 := by
    unfold sharesBelow
    rw [table_saveUserContext, RefCount.refs_congr fun i _ => h.frames i]
    decide +kernel
  rw [mapping_saveUserContext, h.refs, hshare] at hrefs
  refine ⟨k', .fork ⟨by decide, by rw [h.max_pid]; omega, h.live⟩ ⟨l, hready.counted.list, ?_⟩ hrun ?_,
    ⟨⟨l', hc, by omega⟩, hs.max_pid, ?_, ?_, fun i => ?_, fun i => ?_, ?_, hrefs⟩⟩
  · have := hready.frames
    rw [hready.stack]
    exact this
  · unfold ERROR
    omega
  · rw [hs.parent]
    simp [mapBelow, saveUserContext, h.live]
  · rw [hs.parent]
    simp [mapBelow, saveUserContext, h.leader]
  · rw [htable, ← h.frames i]
    split
    · rw [shared_frame]
    · rfl
  · rw [htable]
    split
    · exact (h.tables i).map shared_frame (fun _ => shared_of_invalid) shared_readable
    · exact h.tables i
  · rintro ⟨x, hx, hkx, hm⟩
    rw [hs.max_pid] at hx
    by_cases hx1 : x ∈ slots (m + 1)
    · rw [hs.mapping_old shared_frame hx1, mapping_saveUserContext] at hm
      exact h.user ⟨x, by rw [h.max_pid]; exact hx1, hkx, hm⟩
    · obtain ⟨q, j⟩ := x
      rw [mem_slots] at hx hx1
      obtain rfl : q = m + 1 + 1 := by simp only at hx hx1; omega
      exact h201 (hs.mapping_above (by simp only at hkx; omega) hx.2 hm)

/-- What a child shares below the stack pointer its parent maps. -/
theorem sharesBelow_le (k : Kernel) {s : Nat} (hp : 0 < p ∧ p ≤ k.max_pid) (hs : s ≤ 128) (f : Nat) :
    sharesBelow k p s f ≤ regionRefs k f := by
  have hsub : block p 0 s ⊆ regionSlots k.max_pid := fun x hx => by
    rw [mem_block] at hx
    rw [mem_regionSlots]
    omega
  rw [regionRefs, sharesBelow, Finset.range_eq_Ico, ← refs_block p 0 s
    (fun x => (k.table x.1 x.2).frame)]
  exact RefCount.refs_mono hsub

/-- Where no frame is shared, a fork overflows no counter. -/
theorem machine_noOverflow {N : Nat} (hN : N ≤ 65536) :
    NoOverflow (machine N) (.fork 1 firstContext) := fun f => by
  have hmax := max_pid_machine hN
  have hshare := sharesBelow_le (machine N) (p := 1) (s := stackIndex firstContext.sp)
    ⟨by omega, by omega⟩ (by decide) f
  have h1 : regionRefs (machine N) f ≤ 1 := by
    obtain ⟨l, -, -, hquiet⟩ := machine_counted hN
    rw [regionRefs_eq]
    refine (RefCount.refs_mono regionSlots_subset).trans ?_
    rw [hmax, hquiet.mapping, refs_first]
    exact firstRefs_le f
  omega

/-! ## Counts over runs -/

end Yalnix
