import Yalnix.Process.Isolation

/-!
# Copy-on-write forks and eager forks

The reference machine `Eager` keeps the pages of every process apart, and its fork copies all
of region 1.  `eagerView` reads off what the processes of a kernel see.

* `cow_refines_eager` — in runs without threads, the kernel does what the reference machine does:
  every read returns the same byte, and no write of one process is visible to another.
-/

set_option autoImplicit false

namespace Yalnix

open RefCount (refs)
open Transition (Run)

variable {k k' : Kernel} {l : List Nat} {p q n i : Nat} {a : Int} {b : UInt8}

/-! ## The reference machine -/

/-- A process has its own copy of every page it has mapped. -/
structure EagerProcess where
  pages : Nat → Option Word.Page
  info : ProcessInfo

abbrev Eager := PID → EagerProcess

namespace Eager

/-- A process that does not exist. -/
def none : EagerProcess := ⟨fun _ => Option.none, ⟨0, 0, 0⟩⟩

def read (s : Eager) (p : PID) (a : Int) : Option UInt8 :=
  if VMEM_1_BASE ≤ a ∧ a < VMEM_1_LIMIT then
    ((s p).pages (userPage a)).map fun pg => pg (pageOffset a)
  else Option.none

/-- Fork copies the whole of region 1. -/
def fork (s : Eager) (parent : PID) (result : Int) : Eager :=
  if result = ERROR then s else Function.update s result.toNat (s parent)

def write (s : Eager) (p : PID) (a : Int) (b : UInt8) : Eager :=
  Function.update s p { s p with
    pages := fun i => if i = userPage a then
        ((s p).pages i).map fun pg => Function.update pg (pageOffset a) b
      else (s p).pages i }

/-- Lowering the break, with `sp` the stack pointer of the caller. -/
def setBrk (s : Eager) (p : PID) (sp address : Int) : Int × Eager :=
  if brkRefused sp (s p).info.heap_start address then (ERROR, s)
  else (0, Function.update s p
    { pages := fun i => if pageBetween (UP_TO_PAGE address) (s p).info.current_brk i then Option.none
        else (s p).pages i
      info := { (s p).info with current_brk := UP_TO_PAGE address } })

def exit (s : Eager) (p : PID) : Eager :=
  Function.update s p { s p with pages := fun _ => Option.none }

end Eager

/-! ## The two machines, operation by operation -/

/-- What processes do, and what they get to see. -/
inductive MemOp where
  | fork (p : PID) (context : UserContext) (result : Int)
  | read (p : PID) (address : Int) (byte : UInt8)
  | write (p : PID) (context : UserContext) (address : Int) (byte : UInt8)
  | setBrk (p : PID) (context : UserContext) (address : Int) (result : Int)
  | exit (p : PID)

inductive EagerStep : Eager → MemOp → Eager → Prop
  | fork {s : Eager} {p : PID} {context : UserContext} {result : Int} :
      EagerStep s (.fork p context result) (s.fork p result)
  | read {s : Eager} {p : PID} {a : Int} {b : UInt8} (byte : s.read p a = some b) :
      EagerStep s (.read p a b) s
  | write {s : Eager} {p : PID} {context : UserContext} {a : Int} {b : UInt8} :
      EagerStep s (.write p context a b) (s.write p a b)
  | setBrk {s : Eager} {p : PID} {context : UserContext} {address result : Int}
      (status : (s.setBrk p context.sp address).1 = result) :
      EagerStep s (.setBrk p context address result) (s.setBrk p context.sp address).2
  | exit {s : Eager} {p : PID} : EagerStep s (.exit p) (s.exit p)

/-- The operations of the kernel: it has frames for every fork and every copy, and leaves no frame
to more than 127 page tables. -/
inductive CowStep : Kernel → MemOp → Kernel → Prop
  | fork {k k' : Kernel} {p : PID} {context : UserContext} {m₁ m₂ : Bool} {result : Int}
      (running : Running k p) (frames : EnoughFrames (saveUserContext p context k) p)
      (run : forkProcess m₁ m₂ p (saveUserContext p context k) = .ok (result, k'))
      (few : ∀ f, tablesMapping k' f ≤ 127) : CowStep k (.fork p context result) k'
  | read {k : Kernel} {p : PID} {a : Int} {b : UInt8} (running : Running k p)
      (byte : load k p a = some b) : CowStep k (.read p a b) k
  | write {k k' : Kernel} {p : PID} {context : UserContext} {a : Int} {b : UInt8}
      (running : Running k p) (lo : VMEM_1_BASE ≤ a) (hi : a < VMEM_1_LIMIT)
      (mapped : (k.table p (userPage a)).valid = true)
      (data : dataIndex (k.proc p).info ≤ userPage a)
      (run : userWrite p context a b k = .ok k') : CowStep k (.write p context a b) k'
  | setBrk {k k' : Kernel} {p : PID} {context : UserContext} {address result : Int}
      (running : Running k p) (long : -2147483648 ≤ address)
      (shrinks : address ≤ (k.proc p).info.current_brk)
      (run : setProcessBrk p address (saveUserContext p context k) = .ok (result, k')) :
      CowStep k (.setBrk p context address result) k'
  | exit {k k' : Kernel} {p : PID} (running : Running k p) (run : exitProcess p k = .ok k') :
      CowStep k (.exit p) k'

/-! ## What the processes of a kernel see -/

def eagerView (k : Kernel) : Eager := fun p =>
  if 0 < p ∧ p ≤ k.max_pid then
    ⟨fun i => if i < 128 then pageOf k p i else none, (k.proc p).info⟩
  else Eager.none

theorem eagerView_of_mem (hp : 0 < p ∧ p ≤ k.max_pid) : eagerView k p =
    ⟨fun i => if i < 128 then pageOf k p i else none, (k.proc p).info⟩ := if_pos hp

theorem eagerView_of_not_mem (hp : ¬ (0 < p ∧ p ≤ k.max_pid)) : eagerView k p = Eager.none :=
  if_neg hp

/-- Two processes look the same if their pages and their `ProcessInfo` do. -/
theorem eagerView_congr (hp : 0 < p ∧ p ≤ k.max_pid) (hp' : 0 < q ∧ q ≤ k'.max_pid)
    (hpages : ∀ i < 128, pageOf k' q i = pageOf k p i)
    (hinfo : (k'.proc q).info = (k.proc p).info) : eagerView k' q = eagerView k p := by
  rw [eagerView_of_mem hp, eagerView_of_mem hp', hinfo]
  congr 1
  funext i
  split
  · rename_i hi
    exact hpages i hi
  · rfl

theorem eagerView_saveUserContext (p : Nat) (context : UserContext) :
    eagerView (saveUserContext p context k) = eagerView k := by
  refine funext fun (q : Nat) => ?_
  by_cases hq : 0 < q ∧ q ≤ k.max_pid
  · apply eagerView_congr hq (show 0 < q ∧ q ≤ (saveUserContext p context k).max_pid from hq)
    · intro i _
      exact pageOf_saveUserContext context
    · rw [proc_saveUserContext]
  · rw [eagerView_of_not_mem hq]
    exact eagerView_of_not_mem hq

/-- Loads return what the view shows. -/
theorem load_eq_read (h : Isolated k) (hp : 0 < p ∧ p ≤ k.max_pid) (a : Int) :
    load k p a = (eagerView k).read p a := by
  unfold Eager.read
  by_cases ha : VMEM_1_BASE ≤ a ∧ a < VMEM_1_LIMIT
  · rw [if_pos ha, eagerView_of_mem hp, load_eq_pageOf h.exact.tables hp ha.1 ha.2]
    simp only [(trap_index ha.1 ha.2).2, if_true]
  · rw [if_neg ha]
    exact load_of_not_range ha

/-! ## The simulation -/

/-- A fork copies the view of the parent. -/
theorem CowStep.fork_view {m₁ m₂ : Bool} {result : Int} (h : Isolated k) (hp : Running k p)
    (frames : EnoughFrames k p) (run : forkProcess m₁ m₂ p k = .ok (result, k'))
    (few : ∀ f, tablesMapping k' f ≤ 127) :
    Isolated k' ∧ eagerView k' = (eagerView k).fork p result := by
  obtain ⟨l, hl⟩ := h.exact.counted
  by_cases hr : result = ERROR
  · -- no child: at most a descriptor without a page table has been made
    subst hr
    have hfork : (eagerView k).fork p ERROR = eagerView k := if_pos rfl
    rw [hfork]
    obtain ⟨f₀, f₁, l, rfl⟩ := frames.two hl.list
    rcases forkProcess_error hl run with rfl | ⟨hpid, hdesc⟩
    · exact ⟨h, rfl⟩
    · obtain ⟨hc, hd⟩ := described_spec hl rfl hpid hdesc
      refine ⟨h.described rfl hl hc hd, ?_⟩
      refine funext fun (q : Nat) => ?_
      by_cases hq : 0 < q ∧ q ≤ k.max_pid
      · refine eagerView_congr hq ⟨hq.1, by rw [hd.max_pid]; omega⟩
          (fun i hi => hd.pageOf hl hq hi) ?_
        rw [hd.only.proc q (by omega)]
      · rw [eagerView_of_not_mem hq]
        by_cases hqn : q = k.max_pid + 1
        · subst hqn
          have htable : k'.table (k.max_pid + 1) = fun _ => PTE.clear := by
            unfold Kernel.table
            rw [hd.proc]
            rfl
          rw [eagerView_of_mem ⟨by omega, hd.max_pid.ge⟩, hd.proc]
          unfold pageOf
          simp [htable, Eager.none, describedProcess, newProcess]
        · exact eagerView_of_not_mem (by rw [hd.max_pid]; omega)
  · obtain ⟨rfl, rfl, hready⟩ := forkReady_of_fork hl hp
      (fun i hi => (h.exact.tables p hp.pos hp.le i hi).readable) frames run hr
    obtain ⟨k₁, l', hrun, hc, -, -, hs⟩ := forkProcess_spec hready
    rw [run, Except.ok.injEq, Prod.mk.injEq] at hrun
    obtain ⟨rfl, rfl⟩ := hrun
    refine ⟨h.fork hl hs rfl hp hready.le hc few, ?_⟩
    unfold Eager.fork
    rw [if_neg hr]
    refine funext fun (q : Nat) => ?_
    by_cases hqn : q = k.max_pid + 1
    · subst hqn
      obtain ⟨f₀, f₁, -, -, hchild⟩ := hs.child
      have hcast : (((k.max_pid + 1 : Nat) : Int)).toNat = k.max_pid + 1 := rfl
      rw [hcast, Function.update_self]
      refine eagerView_congr ⟨hp.pos, hp.le⟩ ⟨by omega, by rw [hs.max_pid]⟩ (fun i hi => ?_) ?_
      · exact hs.pageOf_child shared_frame hl ⟨hp.pos, hp.le⟩ hi
      · rw [hchild]
    · have hne : q ≠ (((k.max_pid + 1 : Nat) : Int)).toNat := hqn
      rw [Function.update_of_ne hne]
      by_cases hq : 0 < q ∧ q ≤ k.max_pid
      · refine eagerView_congr hq ⟨hq.1, by rw [hs.max_pid]; omega⟩ (fun i hi => ?_) ?_
        · exact hs.pageOf_old shared_frame hl hq hi
        · by_cases hqp : q = p
          · rw [hqp, hs.parent]
            rfl
          · rw [hs.other q hqp hqn]
      · rw [eagerView_of_not_mem hq]
        exact eagerView_of_not_mem (by rw [hs.max_pid]; omega)

/-- A view that differs from another in process `p` only. -/
theorem eagerView_update {P : EagerProcess} (hp : 0 < p ∧ p ≤ k.max_pid)
    (hmax : k'.max_pid = k.max_pid) (hself : eagerView k' p = P)
    (hother : ∀ q, q ≠ p → 0 < q → q ≤ k.max_pid →
      (∀ i < 128, pageOf k' q i = pageOf k q i) ∧ (k'.proc q).info = (k.proc q).info) :
    eagerView k' = Function.update (eagerView k) p P := by
  refine funext fun (q : Nat) => ?_
  by_cases hqp : q = p
  · subst hqp
    rw [hself, Function.update_self]
  · rw [Function.update_of_ne hqp]
    by_cases hq : 0 < q ∧ q ≤ k.max_pid
    · obtain ⟨hpages, hinfo⟩ := hother q hqp hq.1 hq.2
      exact eagerView_congr hq ⟨hq.1, by rw [hmax]; exact hq.2⟩ hpages hinfo
    · rw [eagerView_of_not_mem hq]
      exact eagerView_of_not_mem (by rw [hmax]; exact hq)

/-- **Every step of the kernel is a step of the reference machine, with the same label.** -/
theorem CowStep.simulates {op : MemOp} (h : Isolated k) (hstep : CowStep k op k') :
    Isolated k' ∧ EagerStep (eagerView k) op (eagerView k') := by
  cases hstep with
  | fork running frames run few =>
    rename_i p context m₁ m₂ result
    obtain ⟨hiso, hview⟩ := CowStep.fork_view (h.saveUserContext p context)
      (running_saveUserContext.mpr running) frames run few
    rw [eagerView_saveUserContext] at hview
    rw [hview]
    exact ⟨hiso, .fork⟩
  | read running byte =>
    rename_i p a b
    exact ⟨h, .read ((load_eq_read h ⟨running.pos, running.le⟩ a).symm.trans byte)⟩
  | write running lo hi mapped data run =>
    rename_i p context a b
    obtain ⟨hiso, hmax, hinfo, hpages⟩ := h.write running lo hi mapped data run
    have hp : 0 < p ∧ p ≤ k.max_pid := ⟨running.pos, running.le⟩
    refine ⟨hiso, ?_⟩
    have hview : eagerView k' = (eagerView k).write p a b := by
      refine eagerView_update hp hmax ?_ fun q hqp hq0 hq => ⟨fun i hi => ?_, hinfo q⟩
      · rw [eagerView_of_mem ⟨hp.1, hmax.symm ▸ hp.2⟩, eagerView_of_mem hp, hinfo]
        congr 1
        funext i
        by_cases hi : i < 128
        · rw [if_pos hi, hpages p hp.1 hp.2 i hi]
          simp only [true_and, hi, if_true]
        · rw [if_neg hi]
          simp [hi]
      · rw [hpages q hq0 hq i hi, if_neg fun hc => hqp hc.1]
    rw [hview]
    exact .write
  | setBrk running long shrinks run =>
    rename_i p context address result
    have hsave := h.saveUserContext p context
    have hproc := proc_saveUserContext (k := k) (p := p) context p
    have hinfo : ((saveUserContext p context k).proc p).info = (k.proc p).info := by rw [hproc]
    have hsp : ((saveUserContext p context k).proc p).user_context.sp = context.sp := by
      unfold saveUserContext
      rw [Kernel.proc_modify_self]
    obtain ⟨hiso, hmax, hother, heffect⟩ := hsave.shrink (running_saveUserContext.mpr running)
      (by rw [hinfo]; exact shrinks) long run
    have hp : 0 < p ∧ p ≤ k.max_pid := ⟨running.pos, running.le⟩
    have hview : eagerView k p = _ := eagerView_of_mem hp
    refine ⟨hiso, ?_⟩
    rw [hinfo, hsp] at heffect
    have heq : result = ((eagerView k).setBrk p context.sp address).1 ∧
        eagerView k' = ((eagerView k).setBrk p context.sp address).2 := by
      unfold Eager.setBrk
      rw [hview]
      simp only
      by_cases href : brkRefused context.sp (k.proc p).info.heap_start address
      · rw [if_pos href] at heffect ⊢
        obtain ⟨rfl, rfl⟩ := heffect
        exact ⟨rfl, eagerView_saveUserContext p context⟩
      · rw [if_neg href] at heffect ⊢
        obtain ⟨rfl, hbrk, hpages⟩ := heffect
        refine ⟨rfl, eagerView_update hp hmax ?_ fun q hqp hq0 hq => ⟨fun i hi => ?_, ?_⟩⟩
        · rw [eagerView_of_mem ⟨hp.1, (show k'.max_pid = k.max_pid from hmax).symm ▸ hp.2⟩, hbrk]
          congr 1
          funext i
          by_cases hi : i < 128
          · rw [if_pos hi, hpages p hp.1 hp.2 i hi, pageOf_saveUserContext]
            simp only [true_and, hi, if_true]
          · simp [hi]
        · rw [hpages q hq0 hq i hi, if_neg fun hc => hqp hc.1, pageOf_saveUserContext]
        · rw [hother q hqp, proc_saveUserContext]
    rw [heq.2]
    exact .setBrk heq.1.symm
  | exit running run =>
    rename_i p
    obtain ⟨hiso, hmax, hinfo, hpages⟩ := h.exit running run
    have hp : 0 < p ∧ p ≤ k.max_pid := ⟨running.pos, running.le⟩
    refine ⟨hiso, ?_⟩
    have hview : eagerView k' = (eagerView k).exit p := by
      refine eagerView_update hp hmax ?_ fun q hqp hq0 hq => ⟨fun i hi => ?_, hinfo q⟩
      · rw [eagerView_of_mem ⟨hp.1, hmax.symm ▸ hp.2⟩, eagerView_of_mem hp, hinfo]
        congr 1
        funext i
        by_cases hi : i < 128
        · rw [if_pos hi, hpages p hp.1 hp.2 i hi, if_pos rfl]
        · simp [hi]
      · rw [hpages q hq0 hq i hi, if_neg hqp]
    rw [hview]
    exact .exit

/-- **Copy-on-write is invisible: from a state with isolated processes, whatever they do (forking,
reading, writing, lowering the break, exiting), the reference machine does it too, and every read
returns the same byte; a write of one process changes nothing another one can read.** -/
theorem cow_refines_eager {k₀ k : Kernel} {ops : List MemOp} (h₀ : Isolated k₀)
    (hrun : Run CowStep k₀ ops k) :
    Run EagerStep (eagerView k₀) ops (eagerView k) ∧
      (∀ p, 0 < p → p ≤ k.max_pid → ∀ a, load k p a = (eagerView k).read p a) ∧
      ∀ p context a b k', CowStep k (.write p context a b) k' →
        ∀ q, q ≠ p → 0 < q → q ≤ k.max_pid → ∀ a', load k' q a' = load k q a' := by
  obtain ⟨s, hsim, hiso, rfl⟩ := hrun.simulates (g := EagerStep)
    (R := fun k s => Isolated k ∧ eagerView k = s)
    (fun k op k' s hR hstep => by
      obtain ⟨hiso, rfl⟩ := hR
      obtain ⟨hiso', hstep'⟩ := CowStep.simulates hiso hstep
      exact ⟨eagerView k', hstep', hiso', rfl⟩) ⟨h₀, rfl⟩
  refine ⟨hsim, fun p hp0 hp a => load_eq_read hiso ⟨hp0, hp⟩ a, ?_⟩
  intro p context a b k' hwrite q hqp hq0 hq a'
  obtain ⟨hiso', -⟩ := CowStep.simulates hiso hwrite
  cases hwrite with
  | write running lo hi mapped data run =>
    obtain ⟨-, hmax, hinfo, hpages⟩ := hiso.write running lo hi mapped data run
    have hq' : q ≤ k'.max_pid := by
      rw [hmax]
      exact hq
    have hview : eagerView k' q = eagerView k q := by
      refine eagerView_congr ⟨hq0, hq⟩ ⟨hq0, hq'⟩ (fun i hi => ?_) (hinfo q)
      rw [hpages q hq0 hq i hi, if_neg fun hc => hqp hc.1]
    rw [load_eq_read hiso' ⟨hq0, hq'⟩, load_eq_read hiso ⟨hq0, hq⟩]
    unfold Eager.read
    rw [hview]

/-! ## A fork and a store -/

theorem machine_isolated {N : Nat} (hN : N ≤ 65536) : Isolated (machine N) := by
  obtain ⟨l, -, -, hquiet⟩ := machine_counted hN
  have hmax := max_pid_machine hN
  refine ⟨machine_sound hN, machine_exact hN, fun p hp0 hp i hi hv _ => ?_⟩
  have hpos := RefCount.refs_pos (x := (p, i)) (mem_slots.mpr ⟨hp, by simp only; omega⟩)
    (mapping_of_valid (by omega) hi hv)
  have hle : refs (slots (machine N).max_pid) (mapping (machine N)) ((machine N).table p i).pfn ≤ 1 := by
    rw [hmax, hquiet.mapping, refs_first]
    exact firstRefs_le _
  omega

/-- The first process can fork. -/
theorem machine_forks {N : Nat} (hN : N + 3 ≤ 65536) :
    ∃ k, forkProcess true true 1 (saveUserContext 1 firstContext (machine (N + 3))) = .ok (2, k) ∧
      CowStep (machine (N + 3)) (.fork 1 firstContext 2) k := by
  obtain ⟨l, hready, hlen⟩ := (afterForks_zero hN).ready (by omega) (by omega)
  obtain ⟨k, l', hrun, -, -, -, hs⟩ := forkProcess_spec hready
  refine ⟨k, hrun, .fork (running_machine hN) ⟨l, hready.counted.list, ?_⟩ hrun fun f => ?_⟩
  · have := hready.frames
    rw [hready.stack]
    exact this
  · have hcard : tablesMapping k f ≤ (Finset.Icc 1 k.max_pid).card := Finset.card_filter_le _ _
    rw [hs.max_pid, Nat.card_Icc] at hcard
    omega

/-- The first process forks and stores into the page it shares with its child. -/
def forkThenWrite : Except Stop Kernel := do
  let (_, k) ← forkProcess true true 1 (saveUserContext 1 firstContext (machine 4))
  userWrite 1 firstContext 0x102000 7 k

/-- The two read what each of them should. -/
theorem cow_refines_eager_machine : ∃ k, Run CowStep (machine 4)
      [.fork 1 firstContext 2, .write 1 firstContext 0x102000 7, .read 2 0x102000 0, .read 1 0x102000 7] k ∧
    Run EagerStep (eagerView (machine 4))
      [.fork 1 firstContext 2, .write 1 firstContext 0x102000 7, .read 2 0x102000 0, .read 1 0x102000 7]
      (eagerView k) := by
  obtain ⟨k, hrun, hfork⟩ := machine_forks (N := 1) (by omega)
  have hshared : ((forkProcess true true 1 (saveUserContext 1 firstContext (machine 4))).toOption.map
      fun x => decide ((0 < 1 ∧ 1 ≤ x.2.max_pid ∧ (x.2.proc 1).live = true) ∧
        (x.2.table 1 1).valid = true ∧ dataIndex (x.2.proc 1).info ≤ 1)) = some true := by
    decide +kernel
  have hread : (forkThenWrite.toOption.map fun k => decide ((1 ≤ k.max_pid ∧ (k.proc 1).live = true) ∧
      (2 ≤ k.max_pid ∧ (k.proc 2).live = true) ∧
      load k 1 0x102000 = some 7 ∧ load k 2 0x102000 = some 0)) = some true := by
    decide +kernel
  rw [hrun] at hshared
  obtain ⟨⟨hpos, hle, hlive⟩, hmapped, hdata⟩ := of_decide_eq_true (Option.some.inj hshared)
  have hwrite : forkThenWrite = userWrite 1 firstContext 0x102000 7 k := by
    unfold forkThenWrite
    rw [hrun]
    rfl
  cases hstore : userWrite 1 firstContext 0x102000 7 k with
  | error e =>
    rw [hwrite, hstore] at hread
    cases hread
  | ok k' =>
    rw [hwrite, hstore] at hread
    obtain ⟨⟨hle₁, hlive₁⟩, ⟨hle₂, hlive₂⟩, hload₁, hload₂⟩ := of_decide_eq_true (Option.some.inj hread)
    have hsteps : Run CowStep (machine 4) [.fork 1 firstContext 2, .write 1 firstContext 0x102000 7,
        .read 2 0x102000 0, .read 1 0x102000 7] k' :=
      .cons hfork (.cons (.write ⟨hpos, hle, hlive⟩ (by decide) (by decide) hmapped hdata hstore)
        (.cons (.read ⟨by omega, hle₂, hlive₂⟩ hload₂) (.single (.read ⟨by omega, hle₁, hlive₁⟩ hload₁))))
    exact ⟨k', hsteps, (cow_refines_eager (machine_isolated (by omega)) hsteps).1⟩

end Yalnix
