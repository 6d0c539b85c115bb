import Yalnix.Stack.Identity

/-!
# Switching and exiting

The kernel stack is two entries of the kernel's page table, and no operation that gives frames back
looks at them.

* `Identity.schedule` — a switch brings the stack of the new process in.
* `Identity.exit_eq` — a process exits as `exitProcess` does, with the switch after it.
-/

set_option autoImplicit false

namespace Yalnix

open Stack (Cpu readInfo writeInfo infoWords stackFrame stackPage getCurrentProcess pcbFrame)

variable {κ : Type} {m m' : Cpu κ} {k k' : Kernel} {p q t i j : Nat}

/-! ## Switching -/

theorem stack_switchKernelContext (hj : j < 2) : (switchKernelContext q k).kernel_page_table (126 + j) =
    createPTEWithOptions data_options (pcbFrame k q j) := by
  unfold switchKernelContext
  simp only [KERNEL_STACK_BASE, frameOf]
  have h01 : j = 0 ∨ j = 1 := by omega
  rcases h01 with rfl | rfl
  · rw [Function.update_of_ne (by omega), Nat.add_zero, Function.update_self]
    rfl
  · rw [Function.update_self]
    rfl

theorem mapping_switchKernelContext : mapping (switchKernelContext q k) = mapping k := by
  funext x
  unfold mapping
  by_cases hx : x.1 = 0 ∧ x.2 < 123
  · rw [if_pos hx.1, if_pos hx.2, if_pos hx.1, if_pos hx.2]
    unfold switchKernelContext
    simp only [KERNEL_STACK_BASE, frameOf]
    rw [Function.update_of_ne (by omega), Function.update_of_ne (by omega)]
  · by_cases hx0 : x.1 = 0
    · rw [if_pos hx0, if_pos hx0, if_neg fun h => hx ⟨hx0, h⟩, if_neg fun h => hx ⟨hx0, h⟩]
    · rw [if_neg hx0, if_neg hx0]
      rfl

/-- A switch changes the mapping of the kernel stack only. -/
theorem Stacked.switch (h : Stacked k) : Stacked (switchKernelContext q k) := by
  obtain ⟨leak, l, hc, hb⟩ := h.sound.bounded
  have hmap := mapping_switchKernelContext (k := k) (q := q)
  refine ⟨⟨⟨leak, l, hc.congr (hc.list.of_eq rfl rfl rfl) rfl rfl fun x _ => by rw [hmap], fun f => ?_⟩,
    h.sound.tables, h.sound.distinct, fun p hp => h.sound.process p ⟨hp.pos, hp.le, hp.live⟩⟩,
    fun p hp j hj y hy hy0 hm => ?_, fun p hp => h.info p ⟨hp.pos, hp.le, hp.live⟩, h.pids⟩
  · rw [hmap]
    exact hb f
  · rw [hmap] at hm
    exact h.owned p ⟨hp.pos, hp.le, hp.live⟩ j hj y hy hy0 hm

theorem Identity.schedule_eq (h : Identity m) (q : PID) : Stack.schedule q m =
    { kernel := switchKernelContext q m.kernel, ptbr1 := q,
      kernel_context := Function.update m.kernel_context m.ptbr1 m.context,
      context := Function.update m.kernel_context m.ptbr1 m.context q } := by
  unfold Stack.schedule Stack.KernelContextSwitch Stack.switchKernelContext
  rw [if_neg (not_not.mpr rfl), h.process]
  rfl

/-- **A switch brings the stack of the new process in.** -/
theorem Identity.schedule (h : Identity m) (hq : Running m.kernel q) :
    Identity (Stack.schedule q m) ∧
      ∀ p, p ≠ m.ptbr1 → Left p m (Stack.schedule q m) := by
  rw [h.schedule_eq]
  exact ⟨⟨h.stacked.switch, ⟨hq.pos, hq.le, hq.live⟩, fun j hj => stack_switchKernelContext hj⟩,
    fun p hp => ⟨fun _ => rfl, fun _ _ => rfl, Function.update_of_ne hp _ _⟩⟩

/-! ## Exits -/

theorem Identity.killThread (h : Identity m) (ht : Running m.kernel t) (hne : t ≠ m.ptbr1)
    (hrun : Stack.killMemory t m.kernel = .ok k') : Identity { m with kernel := k' } ∧
      ∀ q, Running k' q → Left q m { m with kernel := k' } := by
  obtain ⟨hs, hkept, hmax, hdead, hother, -⟩ := h.stacked.sound.stacks_kill ht hrun
  have hqt : ∀ q, Running k' q → q ≠ t := by
    rintro q hq rfl
    have := hq.live
    rw [hdead] at this
    cases this
  have hk : Stacked k' := h.stacked.of_kept hkept hs (fun q hq => hmax ▸ hq.le)
    (fun q hq => by rw [hother q (hqt q hq)]) (by rw [hmax]; exact h.stacked.pids)
  refine ⟨h.of_kept hkept hk ⟨h.running.pos, hmax ▸ h.running.le, ?_⟩, fun q hq =>
    hkept.left (hmax ▸ hq.le) hq rfl⟩
  rw [hother _ hne.symm]
  exact h.running.live

/-- The entries of the kernel stack. -/
def Kernel.setStack (k : Kernel) (e₀ e₁ : PTE) : Kernel :=
  { k with kernel_page_table := Function.update (Function.update k.kernel_page_table 126 e₀) 127 e₁ }

theorem Kernel.setStack_setWindow {e₀ e₁ : PTE} (hi : i < 3) (f : Nat) :
    (k.setStack e₀ e₁).setWindow i f = (k.setWindow i f).setStack e₀ e₁ := by
  unfold Kernel.setStack Kernel.setWindow
  simp only
  rw [Function.update_comm (show 127 ≠ 123 + i by omega),
    Function.update_comm (show 126 ≠ 123 + i by omega)]

theorem Kernel.setStack_setWindowPage {e₀ e₁ : PTE} (hi : i < 3) (pg : Word.Page) :
    (k.setStack e₀ e₁).setWindowPage i pg = (k.setWindowPage i pg).setStack e₀ e₁ := by
  have hframe : (k.setStack e₀ e₁).windowFrame i = k.windowFrame i := by
    unfold Kernel.windowFrame Kernel.setStack
    simp only
    rw [Function.update_of_ne (by omega), Function.update_of_ne (by omega)]
  unfold Kernel.setWindowPage
  rw [hframe]
  rfl

theorem Kernel.setStack_window {e₀ e₁ : PTE} (hi : i < 3) : (k.setStack e₀ e₁).window i = k.window i := by
  unfold Kernel.window Kernel.windowFrame Kernel.setStack
  simp only
  rw [Function.update_of_ne (by omega), Function.update_of_ne (by omega)]

theorem Kernel.setStack_setWindowPrev {e₀ e₁ : PTE} (hi : i < 3) (a : Nat) :
    (k.setStack e₀ e₁).setWindowPrev i a = (k.setWindowPrev i a).setStack e₀ e₁ := by
  unfold Kernel.setWindowPrev
  rw [Kernel.setStack_window hi, Kernel.setStack_setWindowPage hi]

theorem Kernel.setStack_setWindowNext {e₀ e₁ : PTE} (hi : i < 3) (a : Nat) :
    (k.setStack e₀ e₁).setWindowNext i a = (k.setWindowNext i a).setStack e₀ e₁ := by
  unfold Kernel.setWindowNext
  rw [Kernel.setStack_window hi, Kernel.setStack_setWindowPage hi]

/-- `freePageFrame` works through the windows, whatever stack is mapped above them. -/
theorem freePageFrame_setStack {e₀ e₁ : PTE} (frame : Nat) (k : Kernel) :
    freePageFrame frame (k.setStack e₀ e₁) = (freePageFrame frame k).setStack e₀ e₁ := by
  have hhead : ∀ (k : Kernel) (a : Nat),
      (k.setStack e₀ e₁).setHeadNext a = (k.setHeadNext a).setStack e₀ e₁ := fun _ _ => rfl
  have hprev : ∀ (k : Kernel) (a : Nat),
      (k.setStack e₀ e₁).setHeadPrev a = (k.setHeadPrev a).setStack e₀ e₁ := fun _ _ => rfl
  unfold freePageFrame
  rw [show (k.setStack e₀ e₁).frc_table = k.frc_table from rfl, show ∀ f c,
    (k.setStack e₀ e₁).setFrc f c = (k.setFrc f c).setStack e₀ e₁ from fun _ _ => rfl]
  generalize k.setFrc (frameOf frame) (char (k.frc_table (frameOf frame) - 1)) = k₁
  simp only [Kernel.setStack_setWindow (show 0 < 3 by omega), hhead,
    Kernel.setStack_setWindowPrev (show 0 < 3 by omega)]
  by_cases hfrc : k₁.frc_table (frameOf frame) > 0
  · rw [if_pos hfrc]
    exact if_pos hfrc
  · rw [if_neg hfrc]
    refine (if_neg hfrc).trans ?_
    simp only [show ∀ k : Kernel, (k.setStack e₀ e₁).frame_head = k.frame_head from fun _ => rfl,
      show ∀ k : Kernel, (k.setStack e₀ e₁).frame_head_addr = k.frame_head_addr from fun _ => rfl]
    generalize k₁.setWindow 0 (frameOf frame) = k₂
    generalize (k₂.setHeadNext frame).setWindowPrev 0 (k₂.setHeadNext frame).frame_head_addr = k₃
    by_cases hlast : k₂.frame_head.next = k₃.frame_head_addr
    · rw [if_pos hlast, if_pos hlast, hprev, Kernel.setStack_setWindowNext (by omega)]
    · rw [if_neg hlast, if_neg hlast, Kernel.setStack_setWindow (by omega),
        Kernel.setStack_setWindowNext (by omega), Kernel.setStack_setWindowPrev (by omega)]

theorem freePcbFrames_switch (p q : PID) (k : Kernel) :
    freePcbFrames p (switchKernelContext q k) = switchKernelContext q (freePcbFrames p k) := by
  have hset : ∀ k : Kernel, switchKernelContext q k =
      k.setStack (createPTEWithOptions data_options (pcbFrame k q 0))
        (createPTEWithOptions data_options (pcbFrame k q 1)) := fun _ => rfl
  have hframes : ∀ j, pcbFrame (freePcbFrames p k) q j = pcbFrame k q j := by
    intro j
    unfold pcbFrame freePcbFrames
    dsimp only
    rw [Kernel.proc_modify, freePageFrame_proc, freePageFrame_proc]
    by_cases hq : q = p
    · rw [hq, Function.update_self]
    · rw [Function.update_of_ne hq]
  rw [hset (freePcbFrames p k), hframes, hframes, hset]
  unfold freePcbFrames
  simp only [freePageFrame_setStack]
  rfl

/-- **Exiting is giving the memory back and switching.** -/
theorem Identity.exit_eq (h : Identity m) (hne : q ≠ m.ptbr1)
    (hrun : Stack.killCurrentProcess q m = .ok m') :
    ∃ k', exitProcess m.ptbr1 m.kernel = .ok k' ∧
      m' = { kernel := switchKernelContext q k', ptbr1 := q,
             kernel_context := Function.update m.kernel_context m.ptbr1 m.context,
             context := m.kernel_context q } := by
  unfold Stack.killCurrentProcess at hrun
  rw [h.process] at hrun
  dsimp only at hrun
  cases hkill : Stack.killMemory m.ptbr1 m.kernel with
  | error e =>
    rw [hkill] at hrun
    cases hrun
  | ok k₁ =>
    obtain ⟨-, hkept, -, -, -, hown⟩ := h.stacked.sound.stacks_kill h.running hkill
    have hframe : stackFrame k₁ 0 = stackFrame m.kernel 0 := by
      unfold stackFrame
      rw [hkept.stack _ (by simp only [KERNEL_STACK_BASE, frameOf]; omega)]
    have hcur : getCurrentProcess k₁ = m.ptbr1 := by
      rw [← h.process]
      unfold getCurrentProcess stackPage
      rw [hframe, h.frame (by omega), hown 0 (by omega)]
    refine ⟨freePcbFrames m.ptbr1 k₁, ?_, ?_⟩
    · unfold Stack.killMemory at hkill
      unfold exitProcess
      cases hfree : freeAddressSpace m.ptbr1 m.kernel with
      | error e =>
        rw [hfree] at hkill
        cases hkill
      | ok k₂ =>
        rw [hfree] at hkill
        rw [← Except.ok.inj hkill]
        rfl
    · rw [hkill] at hrun
      rw [← Except.ok.inj hrun, ← freePcbFrames_switch]
      unfold Stack.KernelContextSwitch Stack.killKernelContext Stack.switchKernelContext
      rw [if_neg (not_not.mpr hcur.symm)]
      show (⟨_, _, _, Function.update m.kernel_context m.ptbr1 m.context q⟩ : Cpu κ) = _
      rw [Function.update_of_ne hne]
      rfl

theorem Identity.exit (h : Identity m) (hq : Running m.kernel q) (hne : q ≠ m.ptbr1)
    (hrun : Stack.killCurrentProcess q m = .ok m') :
    Identity m' ∧ ∀ p, Running m'.kernel p → Left p m m' := by
  obtain ⟨k', hexit, rfl⟩ := h.exit_eq hne hrun
  obtain ⟨hkept, hinfo, hdead⟩ := h.stacked.sound.stacks_exit h.running hexit
  obtain ⟨hs, hmax, hother⟩ := h.stacked.sound.exit h.running hexit
  have hk : Stacked k' := h.stacked.of_kept hkept hs (fun q hq => hmax ▸ hq.le)
    (fun q _ => hinfo q) (by rw [hmax]; exact h.stacked.pids)
  have hrunning : ∀ p, Running (switchKernelContext q k') p → p ≠ m.ptbr1 ∧ Running k' p := by
    intro p hp
    refine ⟨?_, hp.pos, hp.le, hp.live⟩
    rintro rfl
    have := hp.live
    rw [show ((switchKernelContext q k').proc m.ptbr1).live = (k'.proc m.ptbr1).live from rfl,
      hdead] at this
    cases this
  have hq' : Running k' q := ⟨hq.pos, hmax ▸ hq.le, by rw [hother q hne]; exact hq.live⟩
  refine ⟨⟨hk.switch, ⟨hq'.pos, hq'.le, hq'.live⟩, fun j hj => stack_switchKernelContext hj⟩,
    fun p hp => ?_⟩
  obtain ⟨hpm, hp'⟩ := hrunning p hp
  exact ⟨hkept.pcbFrame (hmax ▸ hp'.le) hp', hkept.pages p (hmax ▸ hp'.le) hp',
    Function.update_of_ne hpm _ _⟩

end Yalnix
