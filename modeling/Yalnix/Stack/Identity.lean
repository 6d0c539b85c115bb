import Yalnix.Stack.Cloning

/-!
# The stack names the process that runs

`Identity` is the invariant of the machine: the kernel's page table maps the stack of the process in
`REG_PTBR1`, and the base of every stack holds the `ProcessInfo` of its own process.

* `Stack.Step` — forks, threads, stores, new breaks, switches, exits, and what the kernel itself does
  on its stack.
* `Left` — what a process that is not running has left behind: its stack and its kernel context.
* `Identity.write`, `Identity.setBrk`, `Identity.work` — the steps of the process that runs.
-/

set_option autoImplicit false

namespace Yalnix

open Stack (Cpu readInfo writeInfo infoWords stackFrame stackPage getCurrentProcess pcbFrame)
open Transition (Run)

variable {κ : Type} {m m' : Cpu κ} {k k' k₁ : Kernel} {l : List Nat} {f p q t c i j : Nat}
  {pg : Word.Page} {leak : Nat → Nat} {context : UserContext} {r : Int}

/-! ## The operations -/

namespace Stack

/-- A trap saves the user context in the descriptor that the stack names. -/
def Cpu.trap (context : UserContext) (m : Cpu κ) : Cpu κ :=
  { m with kernel := saveUserContext (getCurrentProcess m.kernel) context m.kernel }

/-- A store instruction.  The machine goes by `REG_PTBR1`, the trap by the stack. -/
def userWrite (context : UserContext) (a : Int) (b : UInt8) (m : Cpu κ) : Except Stop (Cpu κ) :=
  match store m.kernel m.ptbr1 a b with
  | some k => .ok { m with kernel := k }
  | none => do
    let k ← trapMemory (getCurrentProcess m.kernel) context a m.kernel
    .ok { m with kernel := (store k m.ptbr1 a b).getD k }

inductive Op (κ : Type) where
  | fork (context : UserContext) (result : Int)
  | createThread (context : UserContext) (result : Int)
  | write (context : UserContext) (address : Int) (byte : UInt8)
  | setBrk (context : UserContext) (address result : Int)
  /-- The kernel runs on its stack: pages and registers change. -/
  | work (pages : Nat → Word.Page) (context : κ)
  | schedule (new_process : PID)
  | exit (new_process : PID)
  | killThread (thread : PID)

/-- Forks and new threads find the frames they need and take no counter past 127, new breaks can be
rounded up, and an exit switches to another process.  Whoever runs next is a process with a page table.
What the kernel puts on its stack stays off the `ProcessInfo` at the base. -/
inductive Step : Cpu κ → Op κ → Cpu κ → Prop
  | fork {m m' : Cpu κ} {context : UserContext} {m₁ m₂ : Bool} {result : Int}
      (frames : EnoughFrames (m.trap context).kernel (getCurrentProcess m.kernel))
      (fit : CountersFit m.kernel (getCurrentProcess m.kernel) context)
      (run : forkProcess m₁ m₂ (m.trap context) = .ok (result, m')) :
      Step m (.fork context result) m'
  | createThread {m m' : Cpu κ} {context : UserContext} {m₁ m₂ : Bool} {result : Int}
      (frames : EnoughFrames (m.trap context).kernel (getCurrentProcess m.kernel))
      (fit : CountersFit m.kernel (getCurrentProcess m.kernel) context)
      (run : createThread m₁ m₂ (m.trap context) = .ok (result, m')) :
      Step m (.createThread context result) m'
  | write {m m' : Cpu κ} {context : UserContext} {a : Int} {b : UInt8}
      (lo : VMEM_1_BASE ≤ a) (hi : a < VMEM_1_LIMIT) (run : userWrite context a b m = .ok m') :
      Step m (.write context a b) m'
  | setBrk {m : Cpu κ} {k' : Kernel} {context : UserContext} {address result : Int}
      (round : Roundable address)
      (run : setProcessBrk address (m.trap context).kernel = .ok (result, k')) :
      Step m (.setBrk context address result) { m with kernel := k' }
  | work {m : Cpu κ} {pages : Nat → Word.Page} {context : κ}
      (base : ∀ o < 16, pages 0 o = stackPage m.kernel 0 o) :
      Step m (.work pages context) { m with
        kernel := (m.kernel.putPage (stackFrame m.kernel 0) (pages 0)).putPage
          (stackFrame m.kernel 1) (pages 1)
        context := context }
  | schedule {m : Cpu κ} {new_process : PID} (running : Running m.kernel new_process) :
      Step m (.schedule new_process) (schedule new_process m)
  | exit {m m' : Cpu κ} {new_process : PID} (running : Running m.kernel new_process)
      (other : new_process ≠ getCurrentProcess m.kernel)
      (run : killCurrentProcess new_process m = .ok m') : Step m (.exit new_process) m'
  | killThread {m : Cpu κ} {k' : Kernel} {thread : PID} (running : Running m.kernel thread)
      (other : thread ≠ getCurrentProcess m.kernel)
      (run : killMemory thread m.kernel = .ok k') :
      Step m (.killThread thread) { m with kernel := k' }

end Stack

/-! ## The invariant -/

/-- Every stack is that of its process, and says so. -/
structure Stacked (k : Kernel) : Prop where
  sound : Sound k
  owned : StacksOwned k
  info : ∀ q, Running k q → readInfo (k.pmem (pcbFrame k q 0)) = infoWords q (k.proc q).info
  pids : (k.max_pid : Int) ≤ LONG_MAX

/-- The process in `REG_PTBR1` is the one on the stack. -/
structure Identity (m : Cpu κ) : Prop where
  stacked : Stacked m.kernel
  running : Running m.kernel m.ptbr1
  stack : ∀ j < 2, m.kernel.kernel_page_table (126 + j) =
    createPTEWithOptions data_options (pcbFrame m.kernel m.ptbr1 j)

theorem stackFrame_of_entry {e : PTE} (h : k.kernel_page_table (126 + j) = e) :
    stackFrame k j = e.pfn := by
  rw [← h]
  rfl

theorem Identity.frame (h : Identity m) (hj : j < 2) :
    stackFrame m.kernel j = pcbFrame m.kernel m.ptbr1 j :=
  stackFrame_of_entry (h.stack j hj)

/-- **`getCurrentProcess()` is the process that runs.** -/
theorem Identity.process (h : Identity m) : getCurrentProcess m.kernel = m.ptbr1 := by
  unfold getCurrentProcess stackPage
  rw [h.frame (by omega), h.stacked.info _ h.running]
  rfl

theorem Identity.onStack (h : Identity m) : OnStack m.kernel m.ptbr1 :=
  ⟨h.running, fun _ hj => h.frame hj, h.process⟩

theorem Stacked.pid_lt (h : Stacked k) (hle : p ≤ k.max_pid + 1) : p < 2 ^ 32 := by
  have := h.pids
  unfold LONG_MAX at this
  omega

/-! ## Steps that keep the stacks -/

/-- The processes of `k'` other than `t` are old ones, with the `ProcessInfo` they had. -/
theorem StacksIntact.info (h : StacksIntact k k') (hk : Stacked k) (hle : q ≤ k.max_pid)
    (hq : Running k' q) (hsame : (k'.proc q).info = (k.proc q).info) :
    readInfo (k'.pmem (Stack.pcbFrame k' q 0)) = infoWords q (k'.proc q).info := by
  rw [h.pcbFrame hle hq, h.pages q hle hq 0 (by omega), hk.info q (h.running q hle hq), hsame]

/-- **Where stacks are kept and no process is new.** -/
theorem Stacked.of_kept (hk : Stacked k) (h : StacksIntact k k') (hs : Sound k')
    (hold : ∀ q, Running k' q → q ≤ k.max_pid)
    (hsame : ∀ q, Running k' q → (k'.proc q).info = (k.proc q).info)
    (hpids : (k'.max_pid : Int) ≤ LONG_MAX) : Stacked k' :=
  ⟨hs, h.owned hk.owned hs, fun q hq => h.info hk (hold q hq) hq (hsame q hq), hpids⟩

theorem Identity.of_kept (hm : Identity m) (h : StacksIntact m.kernel k') (hk : Stacked k')
    (hrun : Running k' m.ptbr1) : Identity { m with kernel := k' } := by
  refine ⟨hk, hrun, fun j hj => ?_⟩
  show k'.kernel_page_table (126 + j) = _
  rw [h.stack _ (by omega), hm.stack j hj, h.pcbFrame hm.running.le hrun]

/-- **A page in the frame of a stack changes what that stack says, and no other.** -/
theorem Stacked.putPage (pg : Word.Page) (hs : Sound k) (ho : StacksOwned k)
    (hpids : (k.max_pid : Int) ≤ LONG_MAX) (hp : Running k p) (hj : j < 2)
    (hinfo : ∀ q, Running k q → (q = p → j ≠ 0) →
      readInfo (k.pmem (pcbFrame k q 0)) = infoWords q (k.proc q).info)
    (hpg : j = 0 → readInfo pg = infoWords p (k.proc p).info) :
    Stacked (k.putPage (pcbFrame k p j) pg) := by
  have hpos := hp.pos
  refine ⟨hs.putPage (hp.pcb_slot hj) (mapping_pcbFrame (by omega) (hs.process p hp).pcb.1 j) pg,
    ho.putPage _ _, fun q hq => ?_, hpids⟩
  rw [running_putPage] at hq
  show readInfo ((k.putPage (pcbFrame k p j) pg).pmem (pcbFrame k q 0)) = infoWords q (k.proc q).info
  by_cases hqp : q = p ∧ j = 0
  · obtain ⟨rfl, rfl⟩ := hqp
    rw [Kernel.pmem_putPage_self]
    exact hpg rfl
  · rw [Kernel.pmem_putPage_ne]
    · exact hinfo q hq fun he hj0 => hqp ⟨he, hj0⟩
    · intro he
      obtain ⟨h₁, h₂⟩ := ho.injective hs hp hq (by omega) hj he
      exact hqp ⟨h₁, h₂.symm⟩

/-- A page in no frame of a process that runs. -/
theorem Stacked.putPage_other (h : Stacked k) (hs : Sound (k.putPage f pg))
    (hf : ∀ q, Running k q → pcbFrame k q 0 ≠ f) : Stacked (k.putPage f pg) := by
  refine ⟨hs, h.owned.putPage f pg, fun q hq => ?_, h.pids⟩
  rw [running_putPage] at hq
  show readInfo ((k.putPage f pg).pmem (pcbFrame k q 0)) = infoWords q (k.proc q).info
  rw [Kernel.pmem_putPage_ne _ _ (hf q hq), h.info q hq]

/-- What `q` left behind is there: its stack, and its kernel context. -/
structure Left (q : PID) (m m' : Cpu κ) : Prop where
  frames : ∀ j, pcbFrame m'.kernel q j = pcbFrame m.kernel q j
  pages : ∀ j < 2, m'.kernel.pmem (pcbFrame m.kernel q j) = m.kernel.pmem (pcbFrame m.kernel q j)
  context : m'.kernel_context q = m.kernel_context q

theorem Left.refl (q : PID) (m : Cpu κ) : Left q m m := ⟨fun _ => rfl, fun _ _ => rfl, rfl⟩

theorem StacksIntact.left (h : StacksIntact m.kernel m'.kernel) (hle : q ≤ m.kernel.max_pid)
    (hq : Running m'.kernel q) (hc : m'.kernel_context q = m.kernel_context q) : Left q m m' :=
  ⟨h.pcbFrame hle hq, h.pages q hle hq, hc⟩

theorem StacksIntact.putPage (h : StacksIntact k k') (hf : ∀ q, Running k q → ∀ j < 2,
    Yalnix.Stack.pcbFrame k q j ≠ f) : StacksIntact k (k'.putPage f pg) := by
  refine ⟨fun q hle hq => h.running q hle (running_putPage.mp hq), fun q hle hq =>
    h.frames q hle (running_putPage.mp hq), fun q hle hq j hj => ?_, h.stack, h.traced⟩
  rw [running_putPage] at hq
  rw [Kernel.pmem_putPage_ne _ _ (hf q (h.running q hle hq) j hj), h.pages q hle hq j hj]

/-! ## Saving the user context -/

theorem Stacked.saveUserContext (h : Stacked k) : Stacked (saveUserContext p context k) := by
  refine ⟨h.sound.saveUserContext p context, stacksOwned_saveUserContext.mpr h.owned,
    fun q hq => ?_, h.pids⟩
  rw [running_saveUserContext] at hq
  rw [pcbFrame_saveUserContext, proc_saveUserContext]
  exact h.info q hq

theorem Identity.trap (h : Identity m) (context : UserContext) : Identity (m.trap context) := by
  refine ⟨h.stacked.saveUserContext, running_saveUserContext.mpr h.running, fun j hj => ?_⟩
  show m.kernel.kernel_page_table (126 + j) = _
  rw [h.stack j hj]
  congr 1
  exact pcbFrame_saveUserContext.symm

theorem Left.of_trap (h : Left q (m.trap context) m') : Left q m m' := by
  refine ⟨fun j => (h.frames j).trans pcbFrame_saveUserContext, fun j hj => ?_, h.context⟩
  have := h.pages j hj
  rw [show pcbFrame (m.trap context).kernel q j = pcbFrame m.kernel q j from
    pcbFrame_saveUserContext] at this
  exact this

/-! ## Stores and breaks -/

theorem userWrite_running {a : Int} {b : UInt8} (h : Sound k) (hp : Running k p)
    (hlo : VMEM_1_BASE ≤ a) (hhi : a < VMEM_1_LIMIT) (hrun : userWrite p context a b k = .ok k') :
    k'.max_pid = k.max_pid ∧ ∀ q, Running k' q ↔ Running k q := by
  rcases userWrite_cases h hp hlo hhi hrun with
    ⟨-, -, rfl⟩ | ⟨-, k₁, hf, ⟨rfl, -⟩ | ⟨-, -, rfl⟩⟩
  · exact ⟨rfl, fun q => ⟨fun h => ⟨h.pos, h.le, h.live⟩, fun h => ⟨h.pos, h.le, h.live⟩⟩⟩
  · exact ⟨hf.max_pid, fun q => hf.running⟩
  · exact ⟨hf.max_pid, fun q => ⟨fun h => hf.running.mp ⟨h.pos, h.le, h.live⟩, fun h =>
      ⟨h.pos, hf.max_pid.symm ▸ h.le, (hf.running.mpr h).live⟩⟩⟩

theorem Identity.write {a : Int} {b : UInt8} (h : Identity m) (hlo : VMEM_1_BASE ≤ a)
    (hhi : a < VMEM_1_LIMIT) (hrun : Stack.userWrite context a b m = .ok m') :
    Identity m' ∧ m'.ptbr1 = m.ptbr1 ∧
      ∀ q, q ≤ m.kernel.max_pid → Running m'.kernel q → Left q m m' := by
  have hmem : ∃ k', userWrite m.ptbr1 context a b m.kernel = .ok k' ∧ m' = { m with kernel := k' } := by
    unfold Stack.userWrite at hrun
    unfold userWrite
    cases hst : store m.kernel m.ptbr1 a b with
    | some k =>
      rw [hst] at hrun
      exact ⟨k, rfl, (Except.ok.inj hrun).symm⟩
    | none =>
      rw [hst, h.process] at hrun
      cases htrap : trapMemory m.ptbr1 context a m.kernel with
      | error e =>
        rw [htrap] at hrun
        cases hrun
      | ok k =>
        rw [htrap] at hrun
        exact ⟨_, rfl, (Except.ok.inj hrun).symm⟩
  obtain ⟨k', hwrite, rfl⟩ := hmem
  obtain ⟨hkept, hinfo⟩ := h.stacked.sound.stacks_write h.stacked.owned h.running hlo hhi hwrite
  have hs := h.stacked.sound.write h.running hlo hhi hwrite
  obtain ⟨hmax, hrunning⟩ := userWrite_running h.stacked.sound h.running hlo hhi hwrite
  have hk : Stacked k' := h.stacked.of_kept hkept hs (fun q hq => hmax ▸ hq.le)
    (fun q _ => hinfo q) (by rw [hmax]; exact h.stacked.pids)
  exact ⟨h.of_kept hkept hk ((hrunning _).mpr h.running), rfl, fun q hle hq => hkept.left hle hq rfl⟩

/-- The break is the last word of a `ProcessInfo`. -/
theorem readInfo_writeBrk {info : ProcessInfo} (h : readInfo pg = infoWords p info) (brk : Int) :
    readInfo (Word.writeWord pg 12 (addressWord brk)) = infoWords p { info with current_brk := brk } := by
  unfold readInfo infoWords at h ⊢
  rw [Stack.InfoWords.mk.injEq] at h ⊢
  obtain ⟨h₀, h₄, h₈, -⟩ := h
  exact ⟨(Word.readWord_writeWord_ne _ _ (by omega)).trans h₀,
    (Word.readWord_writeWord_ne _ _ (by omega)).trans h₄,
    (Word.readWord_writeWord_ne _ _ (by omega)).trans h₈,
    Word.readWord_writeWord _ 12 (Stack.addressWord_lt brk)⟩

theorem Identity.setBrk {a : Int} (h : Identity m) (ha : Roundable a)
    (hrun : Stack.setProcessBrk a m.kernel = .ok (r, k')) :
    Identity { m with kernel := k' } ∧
      ∀ q, q ≠ m.ptbr1 → Running k' q → Left q m { m with kernel := k' } := by
  unfold Stack.setProcessBrk at hrun
  rw [h.process] at hrun
  dsimp only at hrun
  cases hbrk : setProcessBrk m.ptbr1 a m.kernel with
  | error e =>
    rw [hbrk] at hrun
    cases hrun
  | ok s =>
    obtain ⟨r', k₁⟩ := s
    rw [hbrk] at hrun
    have hk' := (Prod.mk.inj (Except.ok.inj hrun)).2
    obtain ⟨hkept, hinfo, brk, hown⟩ := h.stacked.sound.stacks_setBrk h.running ha hbrk
    obtain ⟨hs, hmax, hother, hlive, -⟩ := h.stacked.sound.setBrk h.running ha hbrk
    have hp : Running k₁ m.ptbr1 := ⟨h.running.pos, hmax ▸ h.running.le, hlive.trans h.running.live⟩
    have hframe : stackFrame k₁ 0 = pcbFrame k₁ m.ptbr1 0 := by
      rw [hkept.pcbFrame h.running.le hp, ← h.frame (by omega)]
      unfold stackFrame
      rw [hkept.stack _ (by simp only [KERNEL_STACK_BASE, frameOf]; omega)]
    have hbase : readInfo (stackPage k₁ 0) = infoWords m.ptbr1 (m.kernel.proc m.ptbr1).info := by
      unfold stackPage
      rw [hframe, hkept.pcbFrame h.running.le hp, hkept.pages _ h.running.le hp 0 (by omega)]
      exact h.stacked.info _ h.running
    have ho := hkept.owned h.stacked.owned hs
    have hk : Stacked k' := by
      have := Stacked.putPage (Word.writeWord (stackPage k₁ 0) 12
        (addressWord (k₁.proc m.ptbr1).info.current_brk)) hs ho (by rw [hmax]; exact h.stacked.pids) hp
        (show 0 < 2 by omega) (fun q hq hne => hkept.info h.stacked (hmax ▸ hq.le) hq
          (hinfo q fun he => hne he rfl)) fun _ => by
            rw [hown]
            exact readInfo_writeBrk hbase brk
      rw [← hframe] at this
      rw [← hk']
      exact this
    have hrunning : ∀ q, Running k' q → Running k₁ q := by
      rw [← hk']
      exact fun q hq => ⟨hq.pos, hq.le, hq.live⟩
    refine ⟨⟨hk, ?_, fun j hj => ?_⟩, fun q hqp hq => ⟨fun j => ?_, fun j hj => ?_, rfl⟩⟩
    · rw [← hk']
      exact ⟨hp.pos, hp.le, hp.live⟩
    · rw [← hk']
      show k₁.kernel_page_table (126 + j) = _
      rw [hkept.stack _ (by omega), h.stack j hj, ← hkept.pcbFrame h.running.le hp]
      rfl
    · rw [← hk']
      exact hkept.pcbFrame (hmax ▸ (hrunning q hq).le) (hrunning q hq) j
    · have hq₁ := hrunning q hq
      have hle : q ≤ m.kernel.max_pid := hmax ▸ hq₁.le
      rw [← hk', ← hkept.pages q hle hq₁ j hj, ← hkept.pcbFrame hle hq₁ j]
      refine Function.update_of_ne (fun he => ?_) _ _
      rw [hframe] at he
      exact hqp (ho.injective hs hp hq₁ hj (by omega) he).1

/-! ## The kernel on its stack -/

theorem Identity.work {pages : Nat → Word.Page} {context : κ} (h : Identity m)
    (hbase : ∀ o < 16, pages 0 o = stackPage m.kernel 0 o) (hm' : m' = { m with
      kernel := (m.kernel.putPage (stackFrame m.kernel 0) (pages 0)).putPage
        (stackFrame m.kernel 1) (pages 1)
      context := context }) :
    Identity m' ∧ ∀ q, q ≠ m.ptbr1 → Running m'.kernel q → Left q m m' := by
  have hk := h.stacked
  have hinfo : readInfo (pages 0) = infoWords m.ptbr1 (m.kernel.proc m.ptbr1).info := by
    rw [Stack.readInfo_congr hbase]
    unfold stackPage
    rw [h.frame (by omega)]
    exact hk.info _ h.running
  have hfirst : Stacked (m.kernel.putPage (pcbFrame m.kernel m.ptbr1 0) (pages 0)) :=
    Stacked.putPage _ hk.sound hk.owned hk.pids h.running (by omega) (fun q hq _ => hk.info q hq)
      fun _ => hinfo
  have hp : Running (m.kernel.putPage (pcbFrame m.kernel m.ptbr1 0) (pages 0)) m.ptbr1 :=
    running_putPage.mpr h.running
  have hsecond := Stacked.putPage (j := 1) (pages 1) hfirst.sound hfirst.owned hfirst.pids hp
    (by omega) (fun q hq _ => hfirst.info q hq) (by omega)
  have hrunning : ∀ q, Running m'.kernel q → Running m.kernel q := by
    rw [hm']
    exact fun q hq => ⟨hq.pos, hq.le, hq.live⟩
  refine ⟨?_, fun q hqp hq => ⟨fun j => by rw [hm']; rfl, fun j hj => ?_, by rw [hm']⟩⟩
  · rw [hm', h.frame (by omega), h.frame (by omega)]
    exact ⟨hsecond, ⟨h.running.pos, h.running.le, h.running.live⟩, h.stack⟩
  · have hne : ∀ i < 2, pcbFrame m.kernel q j ≠ pcbFrame m.kernel m.ptbr1 i := fun i hi he =>
      hqp (hk.owned.injective hk.sound h.running (hrunning q hq) hj hi he).1
    rw [hm', h.frame (by omega), h.frame (by omega)]
    show ((m.kernel.putPage _ _).putPage _ _).pmem (pcbFrame m.kernel q j) = _
    rw [Kernel.pmem_putPage_ne _ _ (hne 1 (by omega)), Kernel.pmem_putPage_ne _ _ (hne 0 (by omega))]

end Yalnix
