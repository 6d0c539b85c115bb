import Yalnix.Stack.Births

/-!
# Leaving and coming back

What the kernel was doing for a process is on its stack and in its kernel context.

* `bootCpu` — the machine when the first process starts.
* `Away` — the steps of the others, while a process waits for the machine.
* `stack_names_running` — in every run `getCurrentProcess()` is the process that runs.
* `resumes_where_left` — a process comes back to the registers and the stack that it left.
* `spawn_returns_twice` — a fork returns to the parent and, when it is first scheduled, to the child.
-/

set_option autoImplicit false

namespace Yalnix

open RefCount (refs)
open Stack (Cpu readInfo writeInfo infoWords stackFrame stackPage getCurrentProcess pcbFrame)
open Transition (Run)

variable {κ : Type} {m m' m₁ m₂ : Cpu κ} {k k' : Kernel} {f p q c i j N B : Nat} {r : Int}
  {pg : Word.Page} {pages : Nat → Word.Page} {context : UserContext} {saved registers : κ}

/-! ## The first process -/

/-- The first process has started: `ProcessInfo` is on its stack. -/
def bootCpu (N : Nat) (registers : κ) : Cpu κ where
  kernel := (machine N).putPage 126 (writeInfo (infoWords 1 firstProcess.info) ((machine N).pmem 126))
  ptbr1 := 1
  kernel_context := fun _ => registers
  context := registers

theorem running_one (hN : N ≤ 65536) (hq : Running (machine N) q) : q = 1 := by
  have hpos := hq.pos
  have hle := hq.le
  rw [max_pid_machine hN] at hle
  omega

theorem pcbFrame_machine (hN : N ≤ 65536) (j : Nat) : pcbFrame (machine N) 1 j = 126 + j := by
  unfold pcbFrame
  rw [proc_machine hN]
  simp only [if_pos, firstProcess, pageAtIndex, frameOf]
  omega

theorem machine_stack (hj : j < 2) :
    (machine N).kernel_page_table (126 + j) = createPTEWithOptions data_options (126 + j) := by
  have hfrom : ∀ n, (machineFrom N n).kernel_page_table (126 + j) =
      createPTEWithOptions data_options (126 + j) := by
    intro n
    induction n with
    | zero =>
      unfold machineFrom
      simp only
      rw [if_neg (by omega), if_pos (by omega)]
    | succ n ih =>
      unfold machineFrom
      rw [freePageFrame_stack _ _ (by omega), ih]
  exact hfrom N

theorem machine_owned (hN : N ≤ 65536) : StacksOwned (machine N) := by
  obtain ⟨l, -, -, hquiet⟩ := machine_counted hN
  intro q hq j hj y hy hy0 hm
  refine RefCount.eq_of_refs_le_one ?_ hy hm (hq.pcb_slot hj) (mapping_pcbFrame ?_ ?_ j)
  · rw [max_pid_machine hN, hquiet.mapping, refs_first]
    exact firstRefs_le _
  · have := hq.pos
    omega
  · exact ((machine_sound hN).process q hq).pcb.1

theorem bootCpu_identity (hN : N ≤ 65536) (registers : κ) : Identity (bootCpu N registers) := by
  have hframe := pcbFrame_machine hN 0
  have hk := Stacked.putPage (writeInfo (infoWords 1 firstProcess.info) ((machine N).pmem 126))
    (machine_sound hN) (machine_owned hN) (by rw [max_pid_machine hN]; unfold LONG_MAX; omega)
    (running_machine hN) (show 0 < 2 by omega) (fun q hq hne => absurd rfl (hne (running_one hN hq)))
    fun _ => by
      rw [Stack.readInfo_writeInfo (Stack.infoWords_fits (show (1 : Nat) < 2 ^ 32 by omega) _),
        proc_machine hN]
      rfl
  rw [hframe] at hk
  refine ⟨hk, running_putPage.mpr (running_machine hN), fun j hj => ?_⟩
  show (machine N).kernel_page_table (126 + j) =
    createPTEWithOptions data_options (pcbFrame (machine N) 1 j)
  rw [machine_stack hj, pcbFrame_machine hN j]

/-- Where `forkProcess` returns, it returns on bytes. -/
theorem ForkBytes.total {run : Except Stop (Int × Kernel)} {s : Except Stop (Int × Cpu κ)} {f₀ f₁ : Nat}
    (h : ForkBytes run p f₀ f₁ m s) (hrun : run = .ok (r, k')) : ∃ m', s = .ok (r, m') := by
  subst hrun
  cases h with
  | stopped same => cases same
  | unchanged same =>
    cases same
    exact ⟨_, rfl⟩
  | described pid same desc pg =>
    cases same
    exact ⟨_, rfl⟩
  | cloned pid same clone =>
    obtain ⟨rfl, -⟩ := Prod.mk.inj (Except.ok.inj same)
    exact ⟨_, rfl⟩

theorem bootCpu_roomy (hN : N ≤ 65536) (registers : κ) : Roomy (bootCpu N registers).kernel N 1 := by
  obtain ⟨leak, l, hc, hlen, hB⟩ := machine_roomy hN
  have hrunning := running_machine hN
  have hnot := hc.pcb_not_free hrunning ((machine_sound hN).process 1 hrunning).pcb (show 0 < 2 by omega)
  rw [pcbFrame_machine hN] at hnot
  exact ⟨leak, l, hc.congr (hc.list.putPage hnot _) rfl rfl fun _ _ => rfl, hlen, hB⟩

/-- The first process can fork. -/
theorem bootCpu_fork (hN : N + 3 ≤ 65536) (registers : κ) :
    ∃ m, Stack.Step (bootCpu (N + 3) registers) (.fork firstContext 2) m := by
  have h := bootCpu_identity hN registers
  have hmax : (bootCpu (N + 3) registers).kernel.max_pid = 1 := max_pid_machine hN
  have hproc : (bootCpu (N + 3) registers).kernel.proc 1 = firstProcess := by
    show (machine (N + 3)).proc 1 = _
    rw [proc_machine hN]
    rfl
  obtain ⟨leak, l, hready, -, -, hframes, hfit⟩ := h.stacked.sound.forkReady
    (bootCpu_roomy hN registers) h.running
    (by show ((bootCpu (N + 3) registers).kernel.proc 1).thread_leader = none; rw [hproc]; rfl)
    (by rw [hmax]; unfold LONG_MAX; omega) firstContext_sp (by omega)
    (by have := stackPages_le (k := (bootCpu (N + 3) registers).kernel) (p := 1)
        show 2 + stackPages (bootCpu (N + 3) registers).kernel 1 127 ≤ N + 3
        omega) (by omega)
  obtain ⟨k', -, hfork, -⟩ := forkProcess_spec hready
  obtain ⟨f₀, f₁, l, rfl⟩ := hframes.two hready.counted.list
  have htrap := h.trap firstContext
  have hkernel : ((bootCpu (N + 3) registers).trap firstContext).kernel =
      saveUserContext 1 firstContext (bootCpu (N + 3) registers).kernel := by
    unfold Cpu.trap
    rw [h.process]
    rfl
  have hbytes := forkProcess_bytes (m := (bootCpu (N + 3) registers).trap firstContext)
    (by rw [hkernel]; exact hready.counted) htrap.onStack
    (htrap.stacked.sound.process _ htrap.running).pcb (fun w hw => htrap.stacked.pid_lt hw)
    (rfl : Stack.forkProcess true true _ = _)
  rw [hmax] at hfork
  obtain ⟨m', hm'⟩ := hbytes.total (by rw [hkernel]; exact hfork)
  refine ⟨m', .fork ?_ ?_ hm'⟩
  · rw [h.process, hkernel]
    exact hframes
  · rw [h.process]
    exact hfit

/-- With its child it has somebody to switch to. -/
theorem bootCpu_child (hN : N + 3 ≤ 65536) (registers : κ) :
    ∃ m, Stack.Step (bootCpu (N + 3) registers) (.fork firstContext 2) m ∧ Identity m ∧ m.ptbr1 = 1 ∧
      Running m.kernel 1 ∧ Running m.kernel 2 := by
  obtain ⟨m, hstep⟩ := bootCpu_fork hN registers
  have h := bootCpu_identity hN registers
  have hm := (h.step hstep).1
  obtain ⟨hcur, -, hborn⟩ := h.spawned (.inl rfl) hstep (by unfold ERROR; omega)
  have hmax : (bootCpu (N + 3) registers).kernel.max_pid = 1 := max_pid_machine hN
  rw [hmax] at hborn
  have hone : m.ptbr1 = 1 := hcur
  exact ⟨m, hstep, hm, hone, hone ▸ hm.running, hborn.running⟩

/-! ## While a process is away -/

/-- A step of another process, which `p` survives. -/
def Away (p : PID) (m : Cpu κ) (op : Stack.Op κ) (m' : Cpu κ) : Prop :=
  Stack.Step m op m' ∧ m.ptbr1 ≠ p ∧ Running m'.kernel p

/-- `p` has these pages on its stack, and goes on, or will go on, with these registers. -/
structure Saved (p : PID) (pages : Nat → Word.Page) (saved : κ) (m : Cpu κ) : Prop where
  identity : Identity m
  running : Running m.kernel p
  pages : ∀ j < 2, m.kernel.pmem (pcbFrame m.kernel p j) = pages j
  context : (if m.ptbr1 = p then m.context else m.kernel_context p) = saved

/-- **The others leave it alone.** -/
theorem Saved.step {op : Stack.Op κ} (h : Saved p pages saved m) (hstep : Away p m op m') :
    Saved p pages saved m' := by
  obtain ⟨hstep, hne, hp⟩ := hstep
  obtain ⟨hm', hleft⟩ := h.identity.step hstep
  have hl := hleft p h.running.le hne.symm hp
  refine ⟨hm', hp, fun j hj => ?_, ?_⟩
  · rw [hl.frames, hl.pages j hj]
    exact h.pages j hj
  · have hc := h.context
    rw [if_neg hne] at hc
    by_cases hback : m'.ptbr1 = p
    · rw [if_pos hback, h.identity.switched hstep (by rw [hback]; exact hne.symm), hback]
      exact hc
    · rw [if_neg hback, hl.context]
      exact hc

theorem Saved.run {ops : List (Stack.Op κ)} (h : Saved p pages saved m) (hrun : Run (Away p) m ops m') :
    Saved p pages saved m' := hrun.invariant (fun _ _ _ h hstep => h.step hstep) h

/-- When it is back. -/
theorem Saved.back (h : Saved p pages saved m) (hp : m.ptbr1 = p) :
    m.context = saved ∧ getCurrentProcess m.kernel = p ∧ ∀ j < 2, stackPage m.kernel j = pages j := by
  have hc := h.context
  rw [if_pos hp] at hc
  refine ⟨hc, h.identity.process.trans hp, fun j hj => ?_⟩
  unfold stackPage
  rw [h.identity.frame hj, hp]
  exact h.pages j hj

/-! ## Runs -/

/-- **`getCurrentProcess()` is the process that runs, on its own stack, in every run.**  Every stack
holds the `ProcessInfo` of its process, and no frame of a stack is anywhere else. -/
theorem stack_names_running {ops : List (Stack.Op κ)} (hN : N ≤ 65536)
    (hrun : Run Stack.Step (bootCpu N registers) ops m) :
    getCurrentProcess m.kernel = m.ptbr1 ∧ Running m.kernel m.ptbr1 ∧
      (∀ j < 2, stackFrame m.kernel j = pcbFrame m.kernel m.ptbr1 j) ∧
      ∀ q, Running m.kernel q →
        readInfo (m.kernel.pmem (pcbFrame m.kernel q 0)) = infoWords q (m.kernel.proc q).info ∧
        ∀ j < 2, ∀ p, Running m.kernel p →
          (∀ i < 2, pcbFrame m.kernel p i = pcbFrame m.kernel q j → p = q ∧ i = j) ∧
          ∀ i < 128, (m.kernel.table p i).valid = true →
            pcbFrame m.kernel q j ≠ (m.kernel.table p i).pfn := by
  have h := (bootCpu_identity hN registers).run hrun
  refine ⟨h.process, h.running, fun j hj => h.frame hj, fun q hq => ⟨h.stacked.info q hq,
    fun j hj p hp => ⟨fun i hi he => ?_, fun i hi hv => ?_⟩⟩⟩
  · exact h.stacked.owned.injective h.stacked.sound hq hp hi hj he
  · exact h.stacked.owned.entry_ne hq hj hp hi hv

/-- `stack_names_running` when the child of the first process runs. -/
theorem stack_names_running_child : ∃ m : Cpu Nat,
    Run Stack.Step (bootCpu 4 3) [.fork firstContext 2, .schedule 2] m ∧ m.ptbr1 = 2 ∧
      getCurrentProcess m.kernel = m.ptbr1 := by
  obtain ⟨m, hfork, hm, -, -, hchild⟩ := bootCpu_child (N := 1) (by omega) 3
  have hrun := Run.cons hfork (.single (.schedule hchild))
  refine ⟨Stack.schedule 2 m, hrun, ?_, (stack_names_running (by omega) hrun).1⟩
  rw [hm.schedule_eq]

/-- **A process comes back to the registers and the stack that it left.**  It has switched to `q`;
whatever the others do meanwhile, short of killing it, it is where it was as soon as the machine is
its own again. -/
theorem resumes_where_left {before ops : List (Stack.Op κ)} (hN : N ≤ 65536)
    (hbefore : Run Stack.Step (bootCpu N registers) before m) (hq : Running m.kernel q)
    (hne : q ≠ m.ptbr1) (haway : Run (Away m.ptbr1) (Stack.schedule q m) ops m₂)
    (hback : m₂.ptbr1 = m.ptbr1) :
    m₂.context = m.context ∧ getCurrentProcess m₂.kernel = m.ptbr1 ∧
      ∀ j < 2, stackPage m₂.kernel j = stackPage m.kernel j := by
  have h := (bootCpu_identity hN registers).run hbefore
  have hm := (h.schedule hq).1
  have hsaved : Saved m.ptbr1 (stackPage m.kernel) m.context (Stack.schedule q m) := by
    refine ⟨hm, ?_, fun j hj => ?_, ?_⟩
    · rw [h.schedule_eq]
      exact ⟨h.running.pos, h.running.le, h.running.live⟩
    · unfold stackPage
      rw [h.frame hj, h.schedule_eq]
      rfl
    · rw [h.schedule_eq, if_neg hne]
      exact Function.update_self _ _ _
  exact (hsaved.run haway).back hback

/-- A switch in the state that it leaves. -/
theorem Identity.schedule_running (h : Identity m) (hp : Running m.kernel p) :
    Running (Stack.schedule q m).kernel p := by
  rw [h.schedule_eq]
  exact ⟨hp.pos, hp.le, hp.live⟩

/-- `resumes_where_left` when the first process waits for its child, which uses its own stack and
registers meanwhile. -/
theorem resumes_where_left_child : ∃ (m m₂ : Cpu Nat) (pages : Nat → Word.Page),
    Run Stack.Step (bootCpu 4 3) [.fork firstContext 2] m ∧
      Run (Away 1) (Stack.schedule 2 m) [.work pages 5, .schedule 1] m₂ ∧
      m₂.context = 3 ∧ getCurrentProcess m₂.kernel = 1 ∧
      ∀ j < 2, stackPage m₂.kernel j = stackPage m.kernel j := by
  obtain ⟨m, hfork, hm, hone, hparent, hchild⟩ := bootCpu_child (N := 1) (by omega) 3
  obtain ⟨hs, -⟩ := hm.schedule hchild
  have hcur : (Stack.schedule 2 m).ptbr1 = 2 := by rw [hm.schedule_eq]
  have hrunning := hm.schedule_running (q := 2) hparent
  obtain ⟨pages, m₁, hwork, hw, hcur₁, hrunning₁⟩ : ∃ pages m₁,
      Stack.Step (Stack.schedule 2 m) (.work pages 5) m₁ ∧ Identity m₁ ∧ m₁.ptbr1 = 2 ∧
        Running m₁.kernel 1 := by
    obtain ⟨pages, hbase⟩ : ∃ pages : Nat → Word.Page, ∀ o < 16,
        pages 0 o = stackPage (Stack.schedule 2 m).kernel 0 o :=
      ⟨fun _ o => if o < 16 then stackPage (Stack.schedule 2 m).kernel 0 o else 1, fun o ho => if_pos ho⟩
    exact ⟨pages, _, .work hbase, (hs.work hbase rfl).1, hcur, hrunning.pos, hrunning.le, hrunning.live⟩
  have hrunning₂ := hw.schedule_running (q := 1) hrunning₁
  have haway : Run (Away m.ptbr1) (Stack.schedule 2 m) [.work pages 5, .schedule 1]
      (Stack.schedule 1 m₁) := by
    rw [hone]
    exact .cons ⟨hwork, by rw [hcur]; decide, hrunning₁⟩
      (.single ⟨.schedule hrunning₁, by rw [hcur₁]; decide, hrunning₂⟩)
  have hback := resumes_where_left (by omega) (.single hfork) hchild (by rw [hone]; decide) haway
    (by rw [hw.schedule_eq, hone])
  have hborn := (bootCpu_identity (N := 4) (by omega) 3).spawned (.inl rfl) hfork
    (by unfold ERROR; omega)
  rw [hone] at haway hback
  exact ⟨m, _, _, .single hfork, haway, hback.1.trans hborn.2.2.parent.1, hback.2⟩

/-- **A fork returns twice.**  The parent gets the child's number and goes on; whatever happens until
the child is scheduled, it then starts with the same registers and the same stack, up to its own
`ProcessInfo`, and gets 0. -/
theorem spawn_returns_twice {before : List (Stack.Op κ)} {op : Stack.Op κ} (hN : N ≤ 65536)
    (hbefore : Run Stack.Step (bootCpu N registers) before m)
    (hop : op = .fork context r ∨ op = .createThread context r) (hstep : Stack.Step m op m')
    (hr : r ≠ ERROR) :
    ∃ c : PID, r = (c : Int) ∧ Running m'.kernel c ∧ ¬ Running m.kernel c ∧
      (m'.ptbr1 = m.ptbr1 ∧ m'.context = m.context ∧
        (∀ j < 2, stackPage m'.kernel j = stackPage m.kernel j) ∧
        Stack.spawnResult m.ptbr1 c m'.kernel = c) ∧
      ∀ ops m₂, Run (Away c) m' ops m₂ → m₂.ptbr1 = c →
        m₂.context = m.context ∧
        (∀ o, 16 ≤ o → stackPage m₂.kernel 0 o = stackPage m.kernel 0 o) ∧
        stackPage m₂.kernel 1 = stackPage m.kernel 1 ∧
        readInfo (stackPage m₂.kernel 0) = infoWords c (m.kernel.proc m.ptbr1).info ∧
        Stack.spawnResult m.ptbr1 c m₂.kernel = 0 := by
  have h := (bootCpu_identity hN registers).run hbefore
  have h' := (h.step hstep).1
  obtain ⟨hcur, hrc, hborn⟩ := h.spawned hop hstep hr
  have hle := h.running.le
  have hne : m.ptbr1 ≠ m.kernel.max_pid + 1 := Nat.ne_of_lt (Nat.lt_succ_of_le hle)
  refine ⟨m.kernel.max_pid + 1, hrc, hborn.running, fun hc => Nat.not_succ_le_self _ hc.le,
    ⟨hcur, hborn.parent.1, hborn.parent.2, ?_⟩, fun ops m₂ haway hback => ?_⟩
  · unfold Stack.spawnResult
    rw [if_pos (h'.process.trans hcur)]
  · generalize hpages : (fun j => m'.kernel.pmem (pcbFrame m'.kernel (m.kernel.max_pid + 1) j)) = pages
    have hsaved : Saved (m.kernel.max_pid + 1) pages m.context m' := by
      refine ⟨h', hborn.running, fun j _ => by rw [← hpages], ?_⟩
      rw [if_neg (by rw [hcur]; exact hne), hborn.context]
    obtain ⟨hcontext, hprocess, hstack⟩ := (hsaved.run haway).back hback
    refine ⟨hcontext, fun o ho => ?_, ?_, ?_, ?_⟩
    · rw [hstack 0 (by omega), ← hpages]
      exact hborn.base o ho
    · rw [hstack 1 (by omega), ← hpages]
      exact hborn.second
    · rw [hstack 0 (by omega), ← hpages, ← hborn.info]
      exact h'.stacked.info _ hborn.running
    · unfold Stack.spawnResult
      rw [if_neg (by rw [hprocess]; exact hne.symm)]

/-- `spawn_returns_twice` for the first fork. -/
theorem spawn_returns_twice_first : ∃ m m₂ : Cpu Nat,
    Stack.Step (bootCpu 4 3) (.fork firstContext 2) m ∧ Run (Away 2) m [.schedule 2] m₂ ∧
      Stack.spawnResult 1 2 m.kernel = 2 ∧ Stack.spawnResult 1 2 m₂.kernel = 0 ∧
      stackPage m₂.kernel 1 = stackPage m.kernel 1 := by
  obtain ⟨m, hfork, hm, hone, -, hchild⟩ := bootCpu_child (N := 1) (by omega) 3
  have haway : Run (Away 2) m [.schedule 2] (Stack.schedule 2 m) :=
    .single ⟨.schedule hchild, by rw [hone]; decide, hm.schedule_running hchild⟩
  obtain ⟨c, hc, -, -, hparent, htwice⟩ := spawn_returns_twice (by omega) .nil (.inl rfl) hfork
    (by unfold ERROR; omega)
  obtain rfl : c = 2 := by exact_mod_cast hc.symm
  obtain ⟨-, -, hpage, -, hzero⟩ := htwice _ _ haway (by rw [hm.schedule_eq])
  refine ⟨m, _, hfork, haway, ?_, hzero, hpage.trans (hparent.2.2.1 1 (by omega)).symm⟩
  exact_mod_cast hparent.2.2.2

end Yalnix
