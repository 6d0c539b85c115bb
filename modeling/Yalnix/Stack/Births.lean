import Yalnix.Stack.Switching

/-!
# New processes, and runs

* `Born` — the child has a copy of its parent's stack, up to the `ProcessInfo`, and its parent's
  kernel context.
* `Identity.spawn` — what a fork or a thread creation leaves.
* `Identity.step`, `Identity.run` — every step keeps the invariant, and what the processes that do
  not run have left behind.
-/

set_option autoImplicit false

namespace Yalnix

open Stack (Cpu readInfo writeInfo infoWords stackFrame stackPage getCurrentProcess pcbFrame)
open Transition (Run)

variable {κ : Type} {m m' : Cpu κ} {k k' k₁ : Kernel} {l : List Nat} {f p q t c i j : Nat}
  {pg : Word.Page} {leak : Nat → Nat} {context : UserContext} {r : Int}

/-! ## New processes -/

/-- The child of the process that runs in `m`: its stack is a copy, up to the `ProcessInfo`. -/
structure Born (c : PID) (m m' : Cpu κ) : Prop where
  running : Running m'.kernel c
  base : ∀ o, 16 ≤ o → m'.kernel.pmem (pcbFrame m'.kernel c 0) o = stackPage m.kernel 0 o
  second : m'.kernel.pmem (pcbFrame m'.kernel c 1) = stackPage m.kernel 1
  info : (m'.kernel.proc c).info = (m.kernel.proc m.ptbr1).info
  context : m'.kernel_context c = m.context
  /-- The parent goes on where it is. -/
  parent : m'.context = m.context ∧ ∀ j < 2, stackPage m'.kernel j = stackPage m.kernel j

/-- A spawn on memory only, from `k` to `k₃`. -/
def Spawns (k k₃ : Kernel) (p : PID) : Prop :=
  ∃ (sb : Nat) (l : List Nat) (leak : Nat → Nat) (u : PTE → PTE) (leader : Option PID),
    sb ≤ 128 ∧ (∀ e, (u e).frame = e.frame) ∧ Counted k (slots k.max_pid) leak l ∧
      Spawned k k₃ p k.max_pid sb l u leader

theorem SpawnOutcome.spawns {sb : Nat} {u : PTE → PTE} {leader : Option PID}
    (hu : ∀ e, (u e).frame = e.frame)
    (h : SpawnOutcome k k' p sb u leader ((k.max_pid + 1 : Nat) : Int)) : Spawns k k' p := by
  rcases h with ⟨herr, -⟩ | ⟨-, -, hsb, leak, l, hb, hs⟩
  · unfold ERROR at herr
    omega
  · exact ⟨sb, l, leak, u, leader, hsb, hu, hb.1, hs⟩

section Spawn

variable {k₃ : Kernel} {f₀ f₁ : Nat} (h : Identity m)
  (hc : Counted m.kernel (slots m.kernel.max_pid) leak (f₀ :: f₁ :: l)) (hs₃ : Sound k₃)
  (hspawn : Spawns m.kernel k₃ m.ptbr1)

include h hs₃ hspawn

theorem Identity.spawns_kept : StacksIntact m.kernel k₃ ∧ k₃.max_pid = m.kernel.max_pid + 1 ∧
    Running k₃ m.ptbr1 ∧ Running k₃ (m.kernel.max_pid + 1) ∧
    (k₃.proc (m.kernel.max_pid + 1)).info = (m.kernel.proc m.ptbr1).info ∧
    ∀ q, q ≤ m.kernel.max_pid → (k₃.proc q).info = (m.kernel.proc q).info := by
  obtain ⟨sb, l, leak, u, leader, hsb, hu, hc, hs⟩ := hspawn
  obtain ⟨g₀, g₁, -, -, hchild⟩ := hs.child
  have hmax := hs.max_pid
  have hle := h.running.le
  refine ⟨hs.stacksIntact h.stacked.sound hs₃ hu hsb hc h.running, hmax, ⟨h.running.pos, by omega, ?_⟩,
    ⟨by omega, hmax.ge, by rw [hchild]⟩, by rw [hchild], fun q hq => ?_⟩
  · rw [hs.parent]
    exact h.running.live
  · by_cases hqp : q = m.ptbr1
    · rw [hqp, hs.parent]
      rfl
    · rw [hs.other q hqp (by omega)]

include hc

/-- **A clone has its own stack, with its own `ProcessInfo` on it.** -/
theorem Cloned.identity (hpid : (m.kernel.max_pid : Int) < LONG_MAX)
    (hclone : Cloned m.kernel k₃ k' m.ptbr1 (m.kernel.max_pid + 1) f₀ f₁
      { readInfo (stackPage m.kernel 0) with descriptor := m.kernel.max_pid + 1 }) :
    Stacked k' ∧ StacksIntact m.kernel k' ∧ Running k' m.ptbr1 := by
  obtain ⟨hkept, hmax, hp, hchild, hinfo, hold⟩ := h.spawns_kept hs₃ hspawn
  have hwords : ({ readInfo (stackPage m.kernel 0) with descriptor := m.kernel.max_pid + 1 } :
      Stack.InfoWords) = infoWords (m.kernel.max_pid + 1) (m.kernel.proc m.ptbr1).info := by
    unfold stackPage
    rw [h.frame (by omega), h.stacked.info _ h.running]
    rfl
  have hput : k' = k₃.putPage (pcbFrame k₃ (m.kernel.max_pid + 1) 0)
      (writeInfo (infoWords (m.kernel.max_pid + 1) (m.kernel.proc m.ptbr1).info)
        (m.kernel.pmem (pcbFrame m.kernel m.ptbr1 0))) := by
    rw [hclone.kernel, hclone.first, hwords]
  refine ⟨?_, ?_, ?_⟩
  · rw [hput]
    refine Stacked.putPage _ hs₃ (hkept.owned h.stacked.owned hs₃) (by rw [hmax]; omega) hchild (by omega)
      (fun q hq hne => ?_) fun _ => ?_
    · have hqle := hq.le
      have hqc : q ≠ m.kernel.max_pid + 1 := fun he => hne he rfl
      exact hkept.info h.stacked (by omega) hq (hold q (by omega))
    · rw [Stack.readInfo_writeInfo (Stack.infoWords_fits (h.stacked.pid_lt le_rfl) _), hinfo]
  · rw [hclone.kernel]
    refine hkept.putPage fun q hq j hj he => ?_
    have := hc.pcb_not_free hq (h.stacked.sound.process q hq).pcb hj
    exact this (by simp [he])
  · rw [hput]
    exact running_putPage.mpr hp

end Spawn

/-- **A descriptor without a page table is no process, whatever its stack says.** -/
theorem Described.identity {f₀ f₁ : Nat} (h : Identity m) (pg : Word.Page)
    (hb : Bounded m.kernel leak (f₀ :: f₁ :: l))
    (hpid : (m.kernel.max_pid : Int) < LONG_MAX)
    (hdesc : createProcessDescriptor true m.kernel = (some (m.kernel.max_pid + 1), k₁)) :
    Stacked (k₁.putPage f₀ pg) ∧ StacksIntact m.kernel (k₁.putPage f₀ pg) ∧
      Running (k₁.putPage f₀ pg) m.ptbr1 := by
  have hle := h.running.le
  obtain ⟨hc', hd⟩ := described_spec hb.1 rfl hpid hdesc
  have hs₁ := h.stacked.sound.described hb rfl hc' hd
  have hkept := hd.stacksIntact h.stacked.sound hs₁ hb.1
  have hold : ∀ q, Running k₁ q → q ≤ m.kernel.max_pid := fun q hq => (hd.running_old hq).1.le
  have hk₁ : Stacked k₁ := h.stacked.of_kept hkept hs₁ hold
    (fun q hq => by rw [(hd.running_old hq).2]) (by rw [hd.max_pid]; omega)
  have hfree : ∀ q, Running m.kernel q → ∀ j < 2, pcbFrame m.kernel q j ≠ f₀ := by
    intro q hq j hj he
    exact hb.1.pcb_not_free hq (h.stacked.sound.process q hq).pcb hj (by simp [he])
  have hslot : mapping k₁ (m.kernel.max_pid + 1, 128) = some f₀ := by
    have := mapping_pcbFrame (k := k₁) (p := m.kernel.max_pid + 1) (by omega)
      (by rw [hd.proc]; rfl) 0
    rw [this]
    unfold pcbFrame
    rw [hd.proc]
    simp [describedProcess]
  refine ⟨hk₁.putPage_other (hs₁.putPage (mem_slots.mpr ⟨hd.max_pid.ge, by simp only; omega⟩) hslot pg)
    fun q hq => ?_, hkept.putPage hfree, running_putPage.mpr ⟨h.running.pos, ?_, ?_⟩⟩
  · rw [hkept.pcbFrame (hold q hq) hq]
    exact hfree q (hkept.running q (hold q hq) hq) 0 (by omega)
  · have := hd.max_pid
    omega
  · rw [hd.only.proc _ (by omega)]
    exact h.running.live

/-- **What a fork or a thread creation leaves.** -/
theorem Identity.spawn {run : Except Stop (Int × Kernel)} {f₀ f₁ : Nat} (h : Identity m)
    (hb : Bounded m.kernel leak (f₀ :: f₁ :: l)) (hbytes : ForkBytes run m.ptbr1 f₀ f₁ m (.ok (r, m')))
    (hspawn : ∀ k₃, run = .ok (((m.kernel.max_pid + 1 : Nat) : Int), k₃) →
      Sound k₃ ∧ Spawns m.kernel k₃ m.ptbr1) :
    Identity m' ∧ m'.ptbr1 = m.ptbr1 ∧
      (∀ q, q ≤ m.kernel.max_pid → q ≠ m.ptbr1 → Running m'.kernel q → Left q m m') ∧
      (r ≠ ERROR → r = ((m.kernel.max_pid + 1 : Nat) : Int) ∧ Born (m.kernel.max_pid + 1) m m') := by
  cases hbytes with
  | unchanged same => exact ⟨h, rfl, fun q _ _ _ => .refl q m, fun hr => absurd rfl hr⟩
  | described pid same desc pg =>
    obtain ⟨hk, hkept, hp⟩ := Described.identity h pg hb pid desc
    exact ⟨h.of_kept hkept hk hp, rfl, fun q hle _ hq => hkept.left hle hq rfl, fun hr => absurd rfl hr⟩
  | @cloned k₃ k' pid same clone =>
    obtain ⟨hs₃, hsp⟩ := hspawn k₃ same
    obtain ⟨hk, hkept, hp⟩ := Cloned.identity h hb.1 hs₃ hsp pid clone
    obtain ⟨-, hmax, -, hchild, hinfo, -⟩ := h.spawns_kept hs₃ hsp
    have hm' := h.of_kept hkept hk hp
    have hpages : ∀ j < 2, m.kernel.pmem (pcbFrame m.kernel m.ptbr1 j) = stackPage m.kernel j := by
      intro j hj
      unfold stackPage
      rw [h.frame hj]
    have hframe : ∀ j, pcbFrame k' (m.kernel.max_pid + 1) j = pcbFrame k₃ (m.kernel.max_pid + 1) j := by
      intro j
      rw [clone.kernel]
      rfl
    have hle := h.running.le
    have hf : f₀ ≠ f₁ := fun he => by
      have := hb.1.list.nodup
      simp [he] at this
    refine ⟨⟨hm'.stacked, hm'.running, hm'.stack⟩, rfl, fun q hle hqp hq => ?_, fun _ => ⟨rfl, ?_⟩⟩
    · refine ⟨hkept.pcbFrame hle hq, hkept.pages q hle hq, ?_⟩
      show Function.update (Function.update m.kernel_context m.ptbr1 m.context)
        (m.kernel.max_pid + 1) m.context q = m.kernel_context q
      rw [Function.update_of_ne (Nat.ne_of_lt (Nat.lt_succ_of_le hle)), Function.update_of_ne hqp]
    · refine ⟨?_, fun o ho => ?_, ?_, ?_, Function.update_self _ _ _, rfl, fun j hj => ?_⟩
      · rw [show Cpu.kernel _ = k' from rfl, clone.kernel]
        exact running_putPage.mpr hchild
      · show k'.pmem (pcbFrame k' (m.kernel.max_pid + 1) 0) o = _
        rw [hframe, clone.first, clone.kernel, Kernel.pmem_putPage_self,
          Stack.writeInfo_above _ _ ho, hpages 0 (by omega)]
      · show k'.pmem (pcbFrame k' (m.kernel.max_pid + 1) 1) = _
        rw [hframe, clone.second, clone.kernel, Kernel.pmem_putPage_ne _ _ hf.symm, clone.page,
          hpages 1 (by omega)]
      · rw [← hinfo, show Cpu.kernel _ = k' from rfl, clone.kernel]
        rfl
      · rw [← hpages j hj, ← hkept.pages m.ptbr1 h.running.le hp j hj]
        unfold stackPage
        rw [hm'.frame hj]
        show k'.pmem (pcbFrame k' m.ptbr1 j) = _
        rw [hkept.pcbFrame h.running.le hp]

/-- The guard of a fork, once the user context is saved. -/
theorem Identity.trap_fit (h : Identity m) (hfit : CountersFit m.kernel m.ptbr1 context) (f : Nat) :
    (m.trap context).kernel.frc_table f + sharesBelow (m.trap context).kernel (m.trap context).ptbr1
      (stack_base (m.trap context).ptbr1 (m.trap context).kernel).toNat f ≤ 127 := by
  have := hfit.saved f
  unfold Cpu.trap
  rw [h.process]
  exact this

theorem Identity.fork (h : Identity m) {m₁ m₂ : Bool} (hframes : EnoughFrames m.kernel m.ptbr1)
    (hfit : ∀ f, m.kernel.frc_table f +
      sharesBelow m.kernel m.ptbr1 (stack_base m.ptbr1 m.kernel).toNat f ≤ 127)
    (hrun : Stack.forkProcess m₁ m₂ m = .ok (r, m')) : Identity m' ∧ m'.ptbr1 = m.ptbr1 ∧
      (∀ q, q ≤ m.kernel.max_pid → q ≠ m.ptbr1 → Running m'.kernel q → Left q m m') ∧
      (r ≠ ERROR → r = ((m.kernel.max_pid + 1 : Nat) : Int) ∧ Born (m.kernel.max_pid + 1) m m') := by
  obtain ⟨leak, l, hb⟩ := h.stacked.sound.bounded
  obtain ⟨f₀, f₁, l, rfl⟩ := hframes.two hb.1.list
  refine h.spawn hb (forkProcess_bytes hb.1 h.onStack (h.stacked.sound.process _ h.running).pcb
    (fun w hw => h.stacked.pid_lt hw) hrun) fun k₃ hmem => ?_
  obtain ⟨hs, hout⟩ := h.stacked.sound.fork h.running hframes hfit hmem
  exact ⟨hs, hout.spawns shared_frame⟩

theorem Identity.createThread (h : Identity m) {m₁ m₂ : Bool}
    (hframes : EnoughFrames m.kernel m.ptbr1)
    (hfit : ∀ f, m.kernel.frc_table f +
      sharesBelow m.kernel m.ptbr1 (stack_base m.ptbr1 m.kernel).toNat f ≤ 127)
    (hrun : Stack.createThread m₁ m₂ m = .ok (r, m')) : Identity m' ∧ m'.ptbr1 = m.ptbr1 ∧
      (∀ q, q ≤ m.kernel.max_pid → q ≠ m.ptbr1 → Running m'.kernel q → Left q m m') ∧
      (r ≠ ERROR → r = ((m.kernel.max_pid + 1 : Nat) : Int) ∧ Born (m.kernel.max_pid + 1) m m') := by
  obtain ⟨leak, l, hb⟩ := h.stacked.sound.bounded
  obtain ⟨f₀, f₁, l, rfl⟩ := hframes.two hb.1.list
  refine h.spawn hb (createThread_bytes hb.1 h.onStack (h.stacked.sound.process _ h.running).pcb
    (fun w hw => h.stacked.pid_lt hw) hrun) fun k₃ hmem => ?_
  obtain ⟨hs, hout⟩ := h.stacked.sound.createThread h.running hframes hfit hmem
  exact ⟨hs, hout.spawns fun _ => rfl⟩

/-- A fork or a thread creation that has made a process. -/
theorem Identity.spawned {op : Stack.Op κ} (h : Identity m)
    (hop : op = .fork context r ∨ op = .createThread context r) (hstep : Stack.Step m op m')
    (hr : r ≠ ERROR) : m'.ptbr1 = m.ptbr1 ∧ r = ((m.kernel.max_pid + 1 : Nat) : Int) ∧
      Born (m.kernel.max_pid + 1) m m' := by
  have hinfo : ((m.trap context).kernel.proc m.ptbr1).info = (m.kernel.proc m.ptbr1).info := by
    show ((saveUserContext _ context m.kernel).proc m.ptbr1).info = _
    rw [proc_saveUserContext]
  have hborn : ∀ c, Born c (m.trap context) m' → Born c m m' := fun c hb =>
    ⟨hb.running, hb.base, hb.second, hb.info.trans hinfo, hb.context, hb.parent⟩
  rcases hop with rfl | rfl
  · cases hstep with
    | fork frames fit run =>
      rw [h.process] at frames fit
      obtain ⟨-, hcur, -, hnew⟩ := (h.trap context).fork frames (h.trap_fit fit) run
      obtain ⟨rfl, hb⟩ := hnew hr
      exact ⟨hcur, rfl, hborn _ hb⟩
  · cases hstep with
    | createThread frames fit run =>
      rw [h.process] at frames fit
      obtain ⟨-, hcur, -, hnew⟩ := (h.trap context).createThread frames (h.trap_fit fit) run
      obtain ⟨rfl, hb⟩ := hnew hr
      exact ⟨hcur, rfl, hborn _ hb⟩

/-! ## Runs -/

/-- **Every step keeps the invariant, and what the others have left behind.** -/
theorem Identity.step {op : Stack.Op κ} (h : Identity m) (hstep : Stack.Step m op m') :
    Identity m' ∧
      ∀ q, q ≤ m.kernel.max_pid → q ≠ m.ptbr1 → Running m'.kernel q → Left q m m' := by
  cases hstep with
  | @fork _ context _ _ _ frames fit run =>
    rw [h.process] at frames fit
    obtain ⟨hm', -, hleft, -⟩ := (h.trap context).fork frames (h.trap_fit fit) run
    exact ⟨hm', fun q hle hqp hq => (hleft q hle hqp hq).of_trap⟩
  | @createThread _ context _ _ _ frames fit run =>
    rw [h.process] at frames fit
    obtain ⟨hm', -, hleft, -⟩ := (h.trap context).createThread frames (h.trap_fit fit) run
    exact ⟨hm', fun q hle hqp hq => (hleft q hle hqp hq).of_trap⟩
  | write lo hi run =>
    obtain ⟨hm', -, hleft⟩ := h.write lo hi run
    exact ⟨hm', fun q hle _ hq => hleft q hle hq⟩
  | @setBrk k' context _ _ round run =>
    obtain ⟨hm', hleft⟩ := (h.trap context).setBrk round run
    exact ⟨⟨hm'.stacked, hm'.running, hm'.stack⟩, fun q _ hqp hq => (hleft q hqp hq).of_trap⟩
  | work base =>
    obtain ⟨hm', hleft⟩ := h.work base rfl
    exact ⟨hm', fun q _ hqp hq => hleft q hqp hq⟩
  | schedule running =>
    obtain ⟨hm', hleft⟩ := h.schedule running
    exact ⟨hm', fun q _ hqp _ => hleft q hqp⟩
  | exit running other run =>
    rw [h.process] at other
    obtain ⟨hm', hleft⟩ := h.exit running other run
    exact ⟨hm', fun q _ _ hq => hleft q hq⟩
  | killThread running other run =>
    rw [h.process] at other
    obtain ⟨hm', hleft⟩ := h.killThread running other run
    exact ⟨hm', fun q _ _ hq => hleft q hq⟩

/-- **Whoever is switched to goes on with the kernel context that it left.** -/
theorem Identity.switched {op : Stack.Op κ} (h : Identity m) (hstep : Stack.Step m op m')
    (hne : m'.ptbr1 ≠ m.ptbr1) : m'.context = m.kernel_context m'.ptbr1 := by
  cases hstep with
  | @fork _ context _ _ _ frames fit run =>
    rw [h.process] at frames fit
    exact absurd ((h.trap context).fork frames (h.trap_fit fit) run).2.1 hne
  | @createThread _ context _ _ _ frames fit run =>
    rw [h.process] at frames fit
    exact absurd ((h.trap context).createThread frames (h.trap_fit fit) run).2.1 hne
  | write lo hi run => exact absurd (h.write lo hi run).2.1 hne
  | setBrk => exact absurd rfl hne
  | work => exact absurd rfl hne
  | killThread => exact absurd rfl hne
  | @schedule q =>
    rw [h.schedule_eq] at hne ⊢
    exact Function.update_of_ne hne _ _
  | exit running other run =>
    rw [h.process] at other
    obtain ⟨k', -, rfl⟩ := h.exit_eq other run
    rfl

theorem Identity.run {ops : List (Stack.Op κ)} (h : Identity m) (hrun : Run Stack.Step m ops m') :
    Identity m' := hrun.invariant (fun _ _ _ h hstep => (h.step hstep).1) h

end Yalnix
