import Yalnix.Process.BrkErrors
import Yalnix.Stack.Info

/-!
# Frames of kernel stacks

The frames of the kernel stack of a process belong to it alone, and whatever memory operation any
process makes, the stacks keep their frames and their contents.

* `StacksOwned`, `StacksOwned.of_traced` — no other slot refers to such a frame.
* `StacksIntact` — the stacks there were are as they were.
* `Sound.stacks_write`, `Sound.stacks_setBrk`, … — that for each operation.
-/

set_option autoImplicit false

namespace Yalnix

open RefCount (refs)
open Yalnix.Stack (pcbFrame)

variable {k k' k₁ : Kernel} {l l' : List Nat} {f p q t n i j sb : Nat} {a : Int} {b : UInt8}
  {leak leak' : Nat → Nat} {context : UserContext}

/-! ## Ownership -/

/-- No slot but its own refers to a frame of a kernel stack. -/
def StacksOwned (k : Kernel) : Prop := ∀ q, Running k q → ∀ j < 2, ∀ y ∈ slots k.max_pid, y.1 ≠ 0 →
  mapping k y = some (pcbFrame k q j) → y = (q, 128 + j)

/-- Where the references of `k'` come from: they are the only ones to their frames, or were there, or
are entries of a page table for a frame that an entry of a page table was for. -/
def Traced (k k' : Kernel) : Prop := ∀ y ∈ slots k'.max_pid, y.1 ≠ 0 → ∀ f, mapping k' y = some f →
  refs (slots k'.max_pid) (mapping k') f ≤ 1 ∨ (y ∈ slots k.max_pid ∧ mapping k y = some f) ∨
    y.2 < 128 ∧ ∃ x ∈ slots k.max_pid, x.1 ≠ 0 ∧ x.2 < 128 ∧ mapping k x = some f

/-- The slot of a frame of the kernel stack. -/
theorem mapping_pcbFrame (hp : p ≠ 0) (hpcb : (k.proc p).pcb = true) (j : Nat) :
    mapping k (p, 128 + j) = some (pcbFrame k p j) := by
  unfold mapping pcbFrame
  simp [hp, hpcb]

theorem Running.pcb_slot (hq : Running k q) (hj : j < 2) : (q, 128 + j) ∈ slots k.max_pid :=
  mem_slots.mpr ⟨hq.le, by simp only; omega⟩

/-- A frame of a kernel stack is not free. -/
theorem Counted.pcb_not_free (hc : Counted k (slots k.max_pid) leak l) (hq : Running k q)
    (hpcb : PcbOk (k.proc q)) (hj : j < 2) : pcbFrame k q j ∉ l := by
  have hpos := hq.pos
  exact hc.not_free (hq.pcb_slot hj) (mapping_pcbFrame (by omega) hpcb.1 j)

/-- **Traced references leave the stacks with their owners.** -/
theorem StacksOwned.of_traced (h : StacksOwned k) (hs : Sound k')
    (hr : ∀ q, q ≤ k.max_pid → Running k' q → Running k q)
    (hf : ∀ q, q ≤ k.max_pid → Running k' q → (k'.proc q).pcb_frames = (k.proc q).pcb_frames)
    (ht : Traced k k') : StacksOwned k' := by
  intro q hq j hj y hy hy0 hm
  have hpos := hq.pos
  have hx := hq.pcb_slot hj
  have hown := mapping_pcbFrame (k := k') (by omega) (hs.process q hq).pcb.1 j
  rcases ht (q, 128 + j) hx (by simp only; omega) _ hown with hone | ⟨hx', hmx⟩ | ⟨hlt, -⟩
  · exact RefCount.eq_of_refs_le_one hone hy hm hx hown
  · have hle := (mem_slots.mp hx').1
    have hq' := hr q hle hq
    have hframe : pcbFrame k' q j = pcbFrame k q j := by
      unfold pcbFrame
      rw [hf q hle hq]
    rw [hframe] at hm hmx
    rcases ht y hy hy0 _ hm with hone | ⟨hy', hmy⟩ | ⟨-, x, hx₁, hx0, hx2, hmx₁⟩
    · rw [← hframe] at hone hm
      exact RefCount.eq_of_refs_le_one hone hy hm hx hown
    · exact h q hq' j hj y hy' hy0 hmy
    · have := h q hq' j hj x hx₁ hx0 hmx₁
      rw [this] at hx2
      simp only at hx2
      omega
  · simp only at hlt
    omega

/-- No page table has an entry for a frame of a kernel stack. -/
theorem StacksOwned.entry_ne (h : StacksOwned k) (hq : Running k q) (hj : j < 2) (hp : Running k p)
    (hi : i < 128) (hv : (k.table p i).valid = true) : pcbFrame k q j ≠ (k.table p i).pfn := by
  intro heq
  have hpos := hp.pos
  have := h q hq j hj (p, i) (mem_slots.mpr ⟨hp.le, by simp only; omega⟩) (by simp only; omega)
    (by rw [heq]; exact mapping_of_valid (by omega) hi hv)
  have hi' := (Prod.mk.inj this).2
  omega

/-- Frames of stacks differ, unless they are the same frame of the same stack. -/
theorem StacksOwned.injective (h : StacksOwned k) (hs : Sound k) (hq : Running k q)
    (hp : Running k p) (hi : i < 2) (hj : j < 2) (heq : pcbFrame k p i = pcbFrame k q j) :
    p = q ∧ i = j := by
  have hpos := hp.pos
  have := h q hq j hj (p, 128 + i) (hp.pcb_slot hi) (by simp only; omega)
    (by rw [← heq]; exact mapping_pcbFrame (by omega) (hs.process p hp).pcb.1 i)
  obtain ⟨h₁, h₂⟩ := Prod.mk.inj this
  exact ⟨h₁, by omega⟩

/-! ## Stacks that stay as they are -/

/-- The processes that still run have their stacks, where and as they were. -/
structure StacksIntact (k k' : Kernel) : Prop where
  running : ∀ q, q ≤ k.max_pid → Running k' q → Running k q
  frames : ∀ q, q ≤ k.max_pid → Running k' q → (k'.proc q).pcb_frames = (k.proc q).pcb_frames
  pages : ∀ q, q ≤ k.max_pid → Running k' q → ∀ j < 2,
    k'.pmem (pcbFrame k q j) = k.pmem (pcbFrame k q j)
  /-- The mapping of the stack that is in use stays too. -/
  stack : ∀ i, 126 ≤ i → k'.kernel_page_table i = k.kernel_page_table i
  traced : Traced k k'

theorem StacksIntact.pcbFrame (h : StacksIntact k k') (hle : q ≤ k.max_pid) (hq : Running k' q) (j : Nat) :
    pcbFrame k' q j = Yalnix.Stack.pcbFrame k q j := by
  unfold Yalnix.Stack.pcbFrame
  rw [h.frames q hle hq]

theorem StacksIntact.owned (h : StacksIntact k k') (ho : StacksOwned k) (hs : Sound k') :
    StacksOwned k' := ho.of_traced hs h.running h.frames h.traced

/-- A step that writes only to frames that are free before or after it. -/
theorem StacksIntact.of_free (hs : Sound k) (hs' : Sound k') (hc : Counted k (slots k.max_pid) leak l)
    (hc' : Counted k' (slots k'.max_pid) leak' l')
    (hr : ∀ q, q ≤ k.max_pid → Running k' q → Running k q ∧
      (k'.proc q).pcb_frames = (k.proc q).pcb_frames)
    (hpm : ∀ f, f ∉ l → f ∉ l' → k'.pmem f = k.pmem f)
    (hstack : ∀ i, 126 ≤ i → k'.kernel_page_table i = k.kernel_page_table i)
    (ht : Traced k k') : StacksIntact k k' := by
  refine ⟨fun q hle hq => (hr q hle hq).1, fun q hle hq => (hr q hle hq).2, fun q hle hq j hj => ?_,
    hstack, ht⟩
  obtain ⟨hq', hframes⟩ := hr q hle hq
  have hnot := hc'.pcb_not_free hq (hs'.process q hq).pcb hj
  have hsame : Stack.pcbFrame k' q j = Stack.pcbFrame k q j := by
    unfold Stack.pcbFrame
    rw [hframes]
  rw [hsame] at hnot
  exact hpm _ (hc.pcb_not_free hq' (hs.process q hq').pcb hj) hnot

theorem Traced.of_same (hmax : k'.max_pid = k.max_pid) (h : ∀ y ∈ slots k.max_pid, y.1 ≠ 0 → ∀ f,
    mapping k' y = some f → mapping k y = some f) : Traced k k' := by
  intro y hy hy0 f hm
  rw [hmax] at hy
  exact .inr (.inl ⟨hy, h y hy hy0 f hm⟩)

/-- Where entries only go. -/
theorem Traced.of_entries (hmax : k'.max_pid = k.max_pid)
    (hentry : ∀ q j, k'.table q j = PTE.clear ∨ k'.table q j = k.table q j)
    (hpcb : ∀ y : Slot, y.1 ≠ 0 → 128 ≤ y.2 → ∀ f, mapping k' y = some f → mapping k y = some f) :
    Traced k k' := by
  refine .of_same hmax fun y _ hy0 f hm => ?_
  obtain ⟨q, j⟩ := y
  by_cases hj : j < 128
  · rw [mapping_table hy0 hj] at hm ⊢
    rcases hentry q j with hclear | hsame
    · rw [hclear, frame_clear] at hm
      cases hm
    · rw [← hsame]
      exact hm
  · exact hpcb (q, j) hy0 (by simp only; omega) f hm

theorem StacksIntact.refl (k : Kernel) : StacksIntact k k :=
  ⟨fun _ _ hq => hq, fun _ _ _ => rfl, fun _ _ _ _ _ => rfl, fun _ _ => rfl,
    Traced.of_same rfl fun _ _ _ _ hm => hm⟩

/-! ## Saving the user context -/

theorem pcbFrame_saveUserContext : pcbFrame (saveUserContext p context k) q j = pcbFrame k q j := by
  unfold pcbFrame
  rw [proc_saveUserContext]

theorem stacksOwned_saveUserContext : StacksOwned (saveUserContext p context k) ↔ StacksOwned k := by
  unfold StacksOwned
  simp only [running_saveUserContext, pcbFrame_saveUserContext, mapping_saveUserContext]
  exact Iff.rfl

theorem stacksIntact_saveUserContext (h : StacksIntact (saveUserContext p context k) k') :
    StacksIntact k k' := by
  refine ⟨fun q hle hq => running_saveUserContext.mp (h.running q hle hq), fun q hle hq => ?_,
    fun q hle hq j hj => ?_, h.stack, fun y hy hy0 f hm => ?_⟩
  · rw [h.frames q hle hq, proc_saveUserContext]
  · have := h.pages q hle hq j hj
    rw [pcbFrame_saveUserContext] at this
    exact this
  · have := h.traced y hy hy0 f hm
    rw [mapping_saveUserContext] at this
    exact this

/-! ## New processes -/

theorem Spawned.stacksIntact {u : PTE → PTE} {leader : Option PID} (hs : Sound k) (hs' : Sound k')
    (h : Spawned k k' p k.max_pid sb l u leader) (hu : ∀ e, (u e).frame = e.frame) (hsb : sb ≤ 128)
    (hc : Counted k (slots k.max_pid) leak l) (hp : Running k p) : StacksIntact k k' := by
  obtain ⟨leak', l', hc', -⟩ := hs'.bounded
  have hppos := hp.pos
  refine .of_free hs hs' hc hc' (fun q hle hq => ?_) (fun f hf _ => h.pmem f hf)
    (fun i hi => h.kpt i (.inr hi)) fun y hy hy0 f hm => ?_
  · rcases h.running_old hp rfl hq with rfl | ⟨-, hr⟩
    · omega
    · refine ⟨hr, ?_⟩
      by_cases hqp : q = p
      · rw [hqp, h.parent]
        rfl
      · rw [h.other q hqp (by omega)]
  · by_cases hfl : f ∈ l
    · rw [h.max_pid]
      exact .inl (h.fresh f hfl)
    · right
      obtain ⟨c, i⟩ := y
      rw [h.max_pid, mem_slots] at hy
      by_cases hc' : c = k.max_pid + 1
      · subst hc'
        right
        by_cases hi : i < sb
        · rw [h.mapping_below hu hi hsb] at hm
          refine ⟨by simp only; omega, (p, i), mem_slots.mpr ⟨hp.le, by simp only; omega⟩,
            by simp only; omega, by simp only; omega, ?_⟩
          rw [mapping_table (by omega) (by omega)]
          exact hm
        · exact absurd (h.mapping_above (by omega) hy.2 hm) hfl
      · have hy' : (c, i) ∈ slots k.max_pid := mem_slots.mpr ⟨by simp only at hy ⊢; omega, hy.2⟩
        rw [h.mapping_old hu hy'] at hm
        exact .inl ⟨hy', hm⟩

theorem Described.stacksIntact {f₀ f₁ : Nat} (hs : Sound k) (hs' : Sound k')
    (h : Described k k' k.max_pid f₀ f₁ l) (hc : Counted k (slots k.max_pid) leak (f₀ :: f₁ :: l)) :
    StacksIntact k k' := by
  obtain ⟨leak', l', hc', -⟩ := hs'.bounded
  refine .of_free hs hs' hc hc' (fun q hle hq => ?_) (fun f hf _ => ?_)
    (fun i hi => h.only.kpt i (.inr hi)) fun y hy hy0 f hm => ?_
  · obtain ⟨hr, hproc⟩ := h.running_old hq
    exact ⟨hr, by rw [hproc]⟩
  · exact h.only.pmem f fun hm => hf (List.mem_cons_of_mem _ hm)
  · rw [h.max_pid] at hy ⊢
    by_cases hy' : y ∈ slots k.max_pid
    · rw [h.mapping_old y hy'] at hm
      exact .inr (.inl ⟨hy', hm⟩)
    · exact .inl (h.fresh f (h.mapping_new y hy hy' f hm).2)

/-! ## Writes -/

/-- What a memory trap changes: the table of the process, and frames that were free. -/
theorem Sound.trap_touches (h : Sound k) (hc : Counted k (slots k.max_pid) leak l)
    (h127 : ∀ f, refs (slots k.max_pid) (mapping k) f + leak f ≤ 127) (hp : Running k p)
    (hlo : VMEM_1_BASE ≤ a) (hhi : a < VMEM_1_LIMIT) (hrun : handleMemoryTrap p a k = .ok k') :
    Touches p k k' l := by
  have hpos := hp.pos
  have hi := (trap_index hlo hhi).2
  have hok := h.tables p hpos hp.le _ hi
  have hx : (p, userPage a) ∈ slots k.max_pid := mem_slots.mpr ⟨hp.le, by simp only; omega⟩
  cases hcow : (k.table p (userPage a)).cow with
  | true =>
    have hv : (k.table p (userPage a)).valid = true := by
      cases hv : (k.table p (userPage a)).valid with
      | true => rfl
      | false => exact absurd hcow (by rw [hok.clear hv]; simp)
    obtain ⟨k₁, l', f, hrun', -, htouch, -⟩ := handleMemoryTrap_cow hc (by omega) hlo hhi hx hv
      (hok.readable hv) hcow (h127 _) fun hshared hnil => by
        subst hnil
        have hfrc := hc.counts.exact (h127 (k.table p (userPage a)).pfn)
        rw [handleMemoryTrap_halt hc.list hlo hhi hcow (by omega)] at hrun
        cases hrun
    rw [hrun, Except.ok.injEq] at hrun'
    subst hrun'
    exact htouch
  | false =>
    by_cases hsp : DOWN_TO_PAGE (k.proc p).user_context.sp ≤ a
    · cases l with
      | nil =>
        rw [handleMemoryTrap_full hc.list hlo hhi hcow hsp] at hrun
        cases hrun
      | cons f l =>
        obtain ⟨k₁, halloc, -, -, htouch, -⟩ := map_page hc (by omega) hi hx
        have hf0 := (hc.list.frame f List.mem_cons_self).1
        rw [handleMemoryTrap_stack hlo hhi hcow hsp hf0 halloc, Except.ok.injEq] at hrun
        subst hrun
        exact htouch.mono fun g hg => List.mem_cons_of_mem _ hg
    · rw [handleMemoryTrap_other hlo hhi hcow hsp, Except.ok.injEq] at hrun
      subst hrun
      exact Touches.refl p k l

theorem Faulted.traced (h : Faulted p i k k₁) (hp : p ≠ 0) (hi : i < 128) : Traced k k₁ := by
  intro y hy hy0 f hm
  rw [h.max_pid] at hy ⊢
  have hmap := h.mapping hp hi
  by_cases hyi : y = (p, i)
  · subst hyi
    rw [hmap, Function.update_self] at hm
    rcases h.outcome with ⟨hsame, -⟩ | ⟨-, -, hone, -⟩
    · refine .inr (.inl ⟨hy, ?_⟩)
      rw [mapping_table hp hi, ← hsame]
      exact hm
    · obtain ⟨-, rfl⟩ := frame_eq_some.mp hm
      exact .inl hone.le
  · rw [hmap, Function.update_of_ne hyi] at hm
    exact .inr (.inl ⟨hy, hm⟩)

/-- A store through an entry of a page table. -/
theorem StacksIntact.poke (h : StacksIntact k k₁) (ho : StacksOwned k₁) (hp : Running k₁ p) (hi : i < 128)
    (hv : (k₁.table p i).valid = true) (o : Nat) (b : UInt8) :
    StacksIntact k (k₁.poke (k₁.table p i).pfn o b) := by
  have hrun : ∀ q, Running (k₁.poke (k₁.table p i).pfn o b) q → Running k₁ q :=
    fun q hq => ⟨hq.pos, hq.le, hq.live⟩
  refine ⟨fun q hle hq => h.running q hle (hrun q hq), fun q hle hq => h.frames q hle (hrun q hq),
    fun q hle hq j hj => ?_, h.stack, h.traced⟩
  rw [← h.pages q hle (hrun q hq) j hj, ← h.pcbFrame hle (hrun q hq)]
  exact Function.update_of_ne (ho.entry_ne (hrun q hq) hj hp hi hv) _ _

/-- The trap of a write, with the user context saved. -/
theorem Sound.stacks_trap (h : Sound k) (hp : Running k p) (hlo : VMEM_1_BASE ≤ a)
    (hhi : a < VMEM_1_LIMIT) (hrun : trapMemory p context a k = .ok k₁) :
    Faulted p (userPage a) k k₁ ∧ StacksIntact k k₁ ∧ ∀ q, (k₁.proc q).info = (k.proc q).info := by
  have hpos := hp.pos
  have hsave := h.saveUserContext p context
  have hp' : Running (Yalnix.saveUserContext p context k) p := running_saveUserContext.mpr hp
  obtain ⟨leak, l, hc, h127⟩ := hsave.bounded
  have hfault := hsave.trap hp' hlo hhi hrun
  have htouch := hsave.trap_touches hc h127 hp' hlo hhi hrun
  obtain ⟨leak', l', hc', -⟩ := hfault.sound.bounded
  have hproc : ∀ q, (k₁.proc q).pcb_frames =
      ((Yalnix.saveUserContext p context k).proc q).pcb_frames ∧
      (k₁.proc q).info = ((Yalnix.saveUserContext p context k).proc q).info := by
    intro q
    by_cases hqp : q = p
    · rw [hqp, htouch.self]
      exact ⟨rfl, rfl⟩
    · rw [htouch.proc q hqp]
      exact ⟨rfl, rfl⟩
  have hkept : StacksIntact (Yalnix.saveUserContext p context k) k₁ := .of_free hsave hfault.sound hc hc'
    (fun q _ hq => ⟨hfault.running.mp hq, (hproc q).1⟩) (fun f hf _ => htouch.pmem f hf)
    (fun i hi => htouch.kpt i (.inr hi)) (hfault.traced (by omega) (trap_index hlo hhi).2)
  refine ⟨Faulted.saveUserContext p _ context hfault, stacksIntact_saveUserContext hkept, fun q => ?_⟩
  · rw [(hproc q).2, proc_saveUserContext]

/-- **A write leaves the stacks alone.** -/
theorem Sound.stacks_write (h : Sound k) (ho : StacksOwned k) (hp : Running k p)
    (hlo : VMEM_1_BASE ≤ a) (hhi : a < VMEM_1_LIMIT) (hrun : userWrite p context a b k = .ok k') :
    StacksIntact k k' ∧ ∀ q, (k'.proc q).info = (k.proc q).info := by
  have hi := (trap_index hlo hhi).2
  unfold userWrite at hrun
  rw [userEntry_writable hlo hhi] at hrun
  by_cases hw : ((k.table p (userPage a)).valid && (k.table p (userPage a)).writable) = true
  · rw [if_pos hw] at hrun
    cases hrun
    rw [Bool.and_eq_true] at hw
    exact ⟨(StacksIntact.refl k).poke ho hp hi hw.1 _ _, fun _ => rfl⟩
  · rw [if_neg hw] at hrun
    simp only [bind, Except.bind] at hrun
    cases htrap : trapMemory p context a k with
    | error e =>
      rw [htrap] at hrun
      cases hrun
    | ok k₁ =>
      rw [htrap] at hrun
      simp only [Except.ok.injEq, userEntry_writable hlo hhi] at hrun
      obtain ⟨hfault, hkept, hinfo⟩ := h.stacks_trap hp hlo hhi htrap
      by_cases hw₁ : ((k₁.table p (userPage a)).valid && (k₁.table p (userPage a)).writable) = true
      · rw [if_pos hw₁, Option.getD_some] at hrun
        rw [Bool.and_eq_true] at hw₁
        subst hrun
        exact ⟨hkept.poke (hkept.owned ho hfault.sound) (hfault.running.mpr hp) hi hw₁.1 _ _, hinfo⟩
      · rw [if_neg hw₁, Option.getD_none] at hrun
        subst hrun
        exact ⟨hkept, hinfo⟩

/-! ## The break -/

/-- `freePageFrame` uses the frame windows only. -/
theorem freePageFrame_stack (frame : Nat) (k : Kernel) (hi : 126 ≤ i) :
    (freePageFrame frame k).kernel_page_table i = k.kernel_page_table i := by
  unfold freePageFrame
  dsimp only
  have hwin : ∀ (k : Kernel) (j g : Nat), j < 3 →
      (k.setWindow j g).kernel_page_table i = k.kernel_page_table i :=
    fun k j g hj => Kernel.kpt_setWindow k g hj (.inr hi)
  split
  · rfl
  · split
    · exact hwin _ 0 _ (by omega)
    · exact (hwin _ 1 _ (by omega)).trans (hwin _ 0 _ (by omega))

theorem decreaseBrk_stack (hrun : decreaseBrk p a k = .ok k') (hi : 126 ≤ i) :
    k'.kernel_page_table i = k.kernel_page_table i := by
  unfold decreaseBrk at hrun
  by_cases hle : (0 : Int) ≤ indexOfPage (long ((k.proc p).info.current_brk - UP_TO_PAGE a))
  · refine Loop.forRange_inv (P := fun _ k' => k'.kernel_page_table i = k.kernel_page_table i) hle rfl
      (fun m k₁ k₂ _ _ hinv hbody => ?_) hrun
    simp only [bind, Except.bind] at hbody
    split at hbody
    · cases hbody
    · unfold Kernel.setEntry at hbody
      split at hbody
      · cases hbody
        exact (freePageFrame_stack _ k₁ hi).trans hinv
      · cases hbody
  · rw [Loop.forRange_empty (by omega)] at hrun
    cases hrun
    rfl

theorem Grown.traced (h : Grown p n k k') (hp : p ≠ 0) (hle : p ≤ k.max_pid) : Traced k k' := by
  intro y hy hy0 f hm
  rw [h.max_pid] at hy ⊢
  by_cases hyp : y.1 = p ∧ y.2 < 128
  · obtain ⟨c, i⟩ := y
    obtain ⟨rfl, hi⟩ := hyp
    rcases h.entry i hi with hsame | hone
    · rw [mapping_table hp hi, hsame, ← mapping_table (k := k) hp hi] at hm
      exact .inr (.inl ⟨hy, hm⟩)
    · rw [mapping_table hp hi] at hm
      obtain ⟨-, rfl⟩ := frame_eq_some.mp hm
      exact .inl hone
  · refine .inr (.inl ⟨hy, ?_⟩)
    rw [← hm]
    unfold mapping Kernel.table
    rw [if_neg hy0, if_neg hy0]
    by_cases hyp' : y.1 = p
    · have h128 : ¬ y.2 < 128 := fun hlt => hyp ⟨hyp', hlt⟩
      rw [if_neg h128, if_neg h128, hyp', h.self]
    · rw [h.proc y.1 hyp']

theorem Lowered.traced (h : Lowered p a k k' l') : Traced k k' := by
  refine .of_entries h.max_pid h.entry_or fun y _ h128 f hm => ?_
  rw [← h.mapping y (.inr h128)]
  exact hm

/-- **A new break leaves the stacks alone; only the caller's `ProcessInfo` may change, in its
break.** -/
theorem Sound.stacks_setBrk {r : Int} (h : Sound k) (hp : Running k p) (ha : Roundable a)
    (hrun : setProcessBrk p a k = .ok (r, k')) : StacksIntact k k' ∧
      (∀ q, q ≠ p → (k'.proc q).info = (k.proc q).info) ∧
      ∃ brk, (k'.proc p).info = { (k.proc p).info with current_brk := brk } := by
  have hpos := hp.pos
  obtain ⟨hs', hmax, hother, hlive, -⟩ := h.setBrk hp ha hrun
  obtain ⟨leak, l, hc, h127⟩ := h.bounded
  have hrunning : ∀ q, Running k' q → Running k q := by
    intro q hq
    refine ⟨hq.pos, hmax ▸ hq.le, ?_⟩
    by_cases hqp : q = p
    · rw [hqp, ← hlive, ← hqp]
      exact hq.live
    · rw [← hother q hqp]
      exact hq.live
  have hinfo : ∀ q, q ≠ p → (k'.proc q).info = (k.proc q).info := fun q hq => by rw [hother q hq]
  have hsame : k' = k → StacksIntact k k' ∧
      ∃ brk, (k'.proc p).info = { (k.proc p).info with current_brk := brk } := fun hk =>
    ⟨hk ▸ .refl k, (k.proc p).info.current_brk, by rw [hk]⟩
  rcases setProcessBrk_cases hrun with ⟨-, -, hk⟩ | ⟨href, ⟨-, -, hk⟩ |
    ⟨hlt, s, k₁, hinc, hend⟩ | ⟨hlt, k₁, hdec, -, rfl⟩⟩
  · exact ⟨(hsame hk).1, hinfo, (hsame hk).2⟩
  · exact ⟨(hsame hk).1, hinfo, (hsame hk).2⟩
  · obtain ⟨⟨i, hg⟩, -, -⟩ := increaseBrk_grown h hp ha hlt hinc
    rw [increaseBrk_eq] at hinc
    obtain ⟨hfill, -⟩ := mapFrames_spec hc.list hinc
    have htr := hg.traced (by omega) hp.le
    obtain ⟨leak', l', hc', -⟩ := hs'.bounded
    rcases hend with ⟨-, -, rfl⟩ | ⟨-, -, rfl⟩
    · refine ⟨.of_free h hs' hc hc' (fun q _ hq => ⟨hrunning q hq, ?_⟩)
        (fun f hf _ => hfill.touches.pmem f hf) (fun i hi => hfill.touches.kpt i (.inr hi)) htr, hinfo,
        (k.proc p).info.current_brk, by rw [hg.self]⟩
      by_cases hqp : q = p
      · rw [hqp, hg.self]
      · rw [hg.proc q hqp]
    · refine ⟨.of_free h hs' hc hc' (fun q _ hq => ⟨hrunning q hq, ?_⟩)
        (fun f hf _ => hfill.touches.pmem f hf) (fun i hi => hfill.touches.kpt i (.inr hi)) ?_, hinfo,
        UP_TO_PAGE a, ?_⟩
      · by_cases hqp : q = p
        · rw [hqp, Kernel.proc_modify_self, hg.self]
          rfl
        · rw [hother q hqp]
      · unfold Traced
        rw [mapping_setCurrentBrk]
        exact htr
      · rw [Kernel.proc_modify_self, hg.self]
        rfl
  · have hstart : (k.proc p).info.heap_start ≤ DOWN_TO_PAGE a := by
      have := (not_or.mp href).2
      omega
    obtain ⟨l', hc', hlow, -⟩ := decreaseBrk_lowered hc ⟨hp.pos, hp.le⟩ h127 (h.process p hp).heap ha
      hstart hlt hdec
    rw [← hmax] at hc'
    refine ⟨.of_free h hs' hc hc' (fun q _ hq => ⟨hrunning q hq, ?_⟩) (fun f _ hf => hlow.pmem f hf)
      (fun i hi => (decreaseBrk_stack hdec hi : k₁.kernel_page_table i = _)) hlow.traced, hinfo,
      UP_TO_PAGE a, ?_⟩
    · by_cases hqp : q = p
      · rw [hqp, hlow.self]
        rfl
      · rw [hother q hqp]
    · rw [hlow.self]
      rfl

/-! ## The end of a process -/

theorem freeAddressSpace_stack (hrun : freeAddressSpace p k = .ok k') (hi : 126 ≤ i) :
    k'.kernel_page_table i = k.kernel_page_table i := by
  unfold freeAddressSpace at hrun
  simp only [bind, Except.bind] at hrun
  split at hrun
  · cases hrun
  · rename_i k₁ hloop
    cases hrun
    change k₁.kernel_page_table i = k.kernel_page_table i
    refine Loop.forRange_inv (P := fun _ k' => k'.kernel_page_table i = k.kernel_page_table i)
      (by unfold MAX_PT_LEN; omega) rfl (fun m k₂ k₃ _ _ hinv hbody => ?_) hloop
    split at hbody
    · cases hbody
    · split at hbody
      · cases hbody
        exact hinv
      · cases hbody
        exact (freePageFrame_stack _ k₂ hi).trans hinv

theorem freePcbFrames_stack (p : PID) (k : Kernel) (hi : 126 ≤ i) :
    (freePcbFrames p k).kernel_page_table i = k.kernel_page_table i := by
  unfold freePcbFrames
  exact (freePageFrame_stack _ _ hi).trans (freePageFrame_stack _ k hi)

theorem Exited.traced (h : Exited p k k' l') : Traced k k' :=
  .of_entries h.max_pid h.entry_or fun y _ h128 f hm => h.mapping y (.inr h128) f hm

/-- **An exit leaves the stacks of the others alone.** -/
theorem Sound.stacks_exit (h : Sound k) (hp : Running k p) (hrun : exitProcess p k = .ok k') :
    StacksIntact k k' ∧ (∀ q, (k'.proc q).info = (k.proc q).info) ∧ (k'.proc p).live = false := by
  obtain ⟨leak, l, hb⟩ := h.bounded
  obtain ⟨l', hc', hex, -⟩ := exitProcess_exited h hp hb hrun
  rw [← hex.max_pid] at hc'
  refine ⟨.of_free h (h.exit hp hrun).1 hb.1 hc' (fun q _ hq => ?_) (fun f _ hf => hex.pmem f hf)
    (fun i hi => ?_) hex.traced, fun q => ?_, hex.dead⟩
  · obtain ⟨hqp, hr⟩ := hex.running hq
    exact ⟨hr, by rw [hex.proc q hqp]⟩
  · unfold exitProcess at hrun
    simp only [bind, Except.bind] at hrun
    split at hrun
    · cases hrun
    · rename_i k₁ hfree
      cases hrun
      rw [freePcbFrames_stack p _ hi]
      exact (freeAddressSpace_stack hfree hi : k₁.kernel_page_table i = _)
  · by_cases hqp : q = p
    · rw [hqp, hex.info]
    · rw [hex.proc q hqp]

/-- **A thread that is killed keeps its stack, and leaves the others alone.** -/
theorem Sound.stacks_kill (h : Sound k) (ht : Running k t) (hrun : Stack.killMemory t k = .ok k') :
    Sound k' ∧ StacksIntact k k' ∧ k'.max_pid = k.max_pid ∧ (k'.proc t).live = false ∧
      (∀ q, q ≠ t → k'.proc q = k.proc q) ∧
      ∀ j < 2, k'.pmem (pcbFrame k t j) = k.pmem (pcbFrame k t j) := by
  have hpos := ht.pos
  obtain ⟨leak, l, hc, h127⟩ := h.bounded
  obtain ⟨k₁, l', hfree, -, hc', htouch, htable, hrefs⟩ := freeAddressSpace_spec hc (p := t) (by omega)
    (fun j hj => mem_slots.mpr ⟨ht.le, by simp only; omega⟩) h127
  unfold Stack.killMemory at hrun
  simp only [hfree, bind, Except.bind, Except.ok.injEq] at hrun
  have hmap : mapping k' = mapping k₁ := by
    funext x
    rw [← hrun]
    unfold mapping Kernel.table
    by_cases hx : x.1 = t
    · simp [hx]
    · simp [hx]
  have hmax : k'.max_pid = k.max_pid := by
    rw [← hrun]
    exact htouch.max_pid
  have hother : ∀ q, q ≠ t → k'.proc q = k.proc q := by
    intro q hq
    rw [← hrun, Kernel.proc_modify, Function.update_of_ne hq, htouch.proc q hq]
  have hdead : (k'.proc t).live = false := by
    rw [← hrun, Kernel.proc_modify_self]
  have hrunning : ∀ q, Running k' q → q ≠ t ∧ Running k q := by
    intro q hq
    have hqt : q ≠ t := by
      rintro rfl
      have := hq.live
      rw [hdead] at this
      cases this
    exact ⟨hqt, hq.pos, hmax ▸ hq.le, by rw [← hother q hqt]; exact hq.live⟩
  have hentry : ∀ q j, k'.table q j = PTE.clear ∨ k'.table q j = k.table q j := by
    intro q j
    by_cases hqt : q = t
    · left
      have := htable j
      rw [hqt, ← hrun]
      unfold Kernel.table at this ⊢
      rw [Kernel.proc_modify_self]
      exact this
    · right
      unfold Kernel.table
      rw [hother q hqt]
  have hc'' : Counted k' (slots k'.max_pid) leak l' := by
    rw [hmax]
    exact hc'.congr (hc'.list.of_eq (by rw [← hrun]; rfl) (by rw [← hrun]; rfl) (by rw [← hrun]; rfl))
      (by rw [← hrun]; rfl) (by rw [← hrun]; rfl) fun x _ => by rw [hmap]
  have hsound : Sound k' := by
    refine h.of_unmapped hmax ⟨leak, l', hc'', fun f => ?_⟩ (fun q _ _ j _ => hentry q j) fun q hq => ?_
    · rw [hmax, hmap]
      have := hrefs f
      have := h127 f
      omega
    · obtain ⟨hqt, hr⟩ := hrunning q hq
      rw [hother q hqt]
      exact h.process q hr
  refine ⟨hsound, .of_free h hsound hc hc'' (fun q _ hq => ?_) (fun f _ hf => ?_) (fun i hi => ?_)
    (.of_entries hmax hentry fun y _ h128 f hm => ?_), hmax, hdead, hother, fun j hj => ?_⟩
  · obtain ⟨hqt, hr⟩ := hrunning q hq
    exact ⟨hr, by rw [hother q hqt]⟩
  · rw [← hrun]
    exact htouch.pmem f hf
  · rw [← hrun]
    exact htouch.kpt i (.inr hi)
  · rw [hmap, htouch.mapping (.inr h128)] at hm
    exact hm
  · have hm := mapping_pcbFrame (k := k) (by omega) (h.process t ht).pcb.1 j
    rw [← htouch.mapping (.inr (by simp only; omega)), ← hmap] at hm
    rw [← hrun]
    exact htouch.pmem _ (hc''.not_free (hmax ▸ ht.pcb_slot hj) hm)

end Yalnix
