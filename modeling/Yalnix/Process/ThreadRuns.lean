import Yalnix.Process.ForkIsolation
import Yalnix.Process.ThreadSharing

/-!
# Runs of thread groups

Forks, thread creations and exits leave every group with the data and heap it shares; stores and
moves of the break do so under conditions on the state they find.

* `threads_share_iff` — in every run, exactly these conditions decide.
* `threads_share_unforked` — without forks, every store meets its condition, and the members of a
  group stay on the same frames.
-/

set_option autoImplicit false

namespace Yalnix

open RefCount (refs)
open Transition (Run)

variable {k k' : Kernel} {l : List Nat} {p q r n i j sb : Nat} {a : Int} {b : UInt8}
  {context : UserContext} {leak : Nat → Nat}

/-! ## New members -/

/-- A spawn that fails has given nobody a page. -/
theorem Sharing.spawn_error (h : Sharing k) (hb : Bounded k leak l) (hframes : EnoughFrames k p)
    (herr : ∀ f₀ f₁ l₁, l = f₀ :: f₁ :: l₁ → k' = k ∨ ((k.max_pid : Int) < LONG_MAX ∧
      createProcessDescriptor true k = (some (k.max_pid + 1), k'))) : Sharing k' := by
  obtain ⟨f₀, f₁, l₁, rfl⟩ := hframes.two hb.1.list
  rcases herr f₀ f₁ l₁ rfl with rfl | ⟨hpid, hdesc⟩
  · exact h
  · obtain ⟨hc, hd⟩ := described_spec hb.1 rfl hpid hdesc
    refine h.of_kept (h.sound.described hb rfl hc hd) (by rw [hd.max_pid]; omega)
      ⟨fun q hq => (hd.running_old hq).1, fun q hq => ?_⟩ fun q hq => ?_
    · rw [(hd.running_old hq).2]
    · obtain ⟨hr, hproc⟩ := hd.running_old hq
      exact .inr ⟨by rw [hproc], fun i hi => hd.pageOf hb.1 ⟨hr.pos, hr.le⟩ hi.table⟩

/-- Where the memory of `q` comes from when `p` has made a new process: from itself, or from `p`. -/
structure Origin (k k' : Kernel) (p q o : Nat) : Prop where
  running : Running k o
  same : q = o ∨ q = k.max_pid + 1 ∧ o = p
  info : (k'.proc q).info = (k.proc o).info
  page : ∀ i < 128, pageOf k' q i = pageOf k o i

section Spawned

variable {u : PTE → PTE} {leader : Option PID} (hs : Spawned k k' p k.max_pid sb l u leader)
  (hu : ∀ e, (u e).frame = e.frame) (hb : Bounded k leak l) (hp : Running k p)
  (hleader : (k.proc p).thread_leader = none) (hgroup : leader = none ∨ leader = some p)

include hs hu hb hp hleader hgroup

/-- A new process stands alone, a new thread in the group of its leader. -/
theorem Spawned.origin {q : Nat} (hq : Running k' q) : ∃ o, Origin k k' p q o ∧
    (groupLeader k' q = groupLeader k o ∨
      q = k.max_pid + 1 ∧ groupLeader k' q = k.max_pid + 1) := by
  rcases hs.running_old hp rfl hq with rfl | ⟨hqn, hr⟩
  · obtain ⟨f₀, f₁, -, -, hchild⟩ := hs.child
    refine ⟨p, ⟨hp, .inr ⟨rfl, rfl⟩, by rw [hchild],
      fun i hi => hs.pageOf_child hu hb.1 ⟨hp.pos, hp.le⟩ hi⟩, ?_⟩
    unfold groupLeader
    rw [hchild]
    rcases hgroup with rfl | rfl
    · exact .inr ⟨rfl, rfl⟩
    · rw [hleader]
      exact .inl rfl
  · have hne : q ≠ k.max_pid + 1 := by omega
    have hproc : (k'.proc q).info = (k.proc q).info ∧
        (k'.proc q).thread_leader = (k.proc q).thread_leader := by
      by_cases hqp : q = p
      · rw [hqp, hs.parent]
        exact ⟨rfl, rfl⟩
      · rw [hs.other q hqp hne]
        exact ⟨rfl, rfl⟩
    refine ⟨q, ⟨hr, .inl rfl, hproc.1, fun i hi => hs.pageOf_old hu hb.1 ⟨hr.pos, hr.le⟩ hi⟩, .inl ?_⟩
    unfold groupLeader
    rw [hproc.2]

theorem Spawned.peers (h : Sharing k) {q r : Nat} (hqr : Peers k' q r) :
    q = r ∨ ∃ o o', Peers k o o' ∧ Origin k k' p q o ∧ Origin k k' p r o' := by
  obtain ⟨o, ho, hl⟩ := hs.origin hu hb hp hleader hgroup hqr.left
  obtain ⟨o', ho', hl'⟩ := hs.origin hu hb hp hleader hgroup hqr.right
  have hle := h.leaders o ho.running
  have hle' := h.leaders o' ho'.running
  have heq := hqr.leader
  rcases hl with hl | ⟨rfl, hl⟩
  · rcases hl' with hl' | ⟨-, hl'⟩
    · exact .inr ⟨o, o', ⟨ho.running, ho'.running, hl.symm.trans (heq.trans hl')⟩, ho, ho'⟩
    · omega
  · rcases hl' with hl' | ⟨rfl, -⟩
    · omega
    · exact .inl rfl

/-- **A new process shares with nobody, a new thread with the group of its leader.** -/
theorem Sharing.spawned (h : Sharing k) (hs' : Sound k') : Sharing k' := by
  refine ⟨hs', fun q r hqr => ?_, fun q r hqr i hi => ?_, fun q hq => ?_⟩
  · rcases hs.peers hu hb hp hleader hgroup h hqr with rfl | ⟨o, o', hpeers, ho, ho'⟩
    · rfl
    · rw [ho.info, ho'.info]
      exact h.info o o' hpeers
  · rcases hs.peers hu hb hp hleader hgroup h hqr with rfl | ⟨o, o', hpeers, ho, ho'⟩
    · rfl
    · rw [ho.page i hi.table, ho'.page i hi.table]
      exact h.pages o o' hpeers i (ho.info ▸ hi)
  · obtain ⟨o, ho, hl⟩ := hs.origin hu hb hp hleader hgroup hq
    have hle := h.leaders o ho.running
    have hmax := hs.max_pid
    rcases hl with hl | ⟨-, hl⟩
    · omega
    · omega

end Spawned

/-! ## Steps -/

/-- What a step must meet so that the groups go on sharing. -/
def KeepsGroups (k : Kernel) : GroupOp → Prop
  | .write p _ a b => load k p a = some b ∨ KeepsSharing k p (userPage a)
  | .setBrk p context a _ => Alone k p ∨ BrkStays k p context.sp a
  | _ => True

theorem brkStays_saveUserContext :
    BrkStays (saveUserContext p context k) p
      ((saveUserContext p context k).proc p).user_context.sp a ↔ BrkStays k p context.sp a := by
  have hsp : ((saveUserContext p context k).proc p).user_context = context := by
    unfold Yalnix.saveUserContext
    rw [Kernel.proc_modify_self]
  unfold BrkStays
  rw [hsp, info_saveUserContext, brkPages_saveUserContext, enough_saveUserContext]

/-- **A write keeps the groups sharing exactly if it meets its condition.** -/
theorem Sharing.write_iff (h : Sharing k) (hp : Running k p) (hlo : VMEM_1_BASE ≤ a)
    (hhi : a < VMEM_1_LIMIT) (hrun : userWrite p context a b k = .ok k') :
    (GroupShares k' ↔ load k p a = some b ∨ KeepsSharing k p (userPage a)) ∧
      (GroupShares k' → Sharing k') := by
  have hs' := h.sound.write hp hlo hhi hrun
  have hw := h.sound.written hp hlo hhi hrun
  exact ⟨h.written_iff hp hlo hhi hs' hw, h.of_unmoved hs' hw.unmoved⟩

/-- A step that meets its condition keeps the invariant. -/
theorem Sharing.step {op : GroupOp} (h : Sharing k) (hstep : GroupStep k op k')
    (hk : KeepsGroups k op) : Sharing k' := by
  cases hstep with
  | fork running frames fit run =>
    rename_i p context m₁ m₂ r
    have hsave := h.saveUserContext p context
    have hp : Running (Yalnix.saveUserContext p context k) p := running_saveUserContext.mpr running
    by_cases hr : r = ERROR
    · obtain ⟨leak, l, hb⟩ := hsave.sound.bounded
      exact hsave.spawn_error hb frames fun f₀ f₁ l₁ hl => by
        subst hr
        exact forkProcess_error (hl ▸ hb.1) run
    · obtain ⟨hs', hout⟩ := hsave.sound.fork hp frames fit.saved run
      obtain ⟨he, -⟩ | ⟨-, hleader, -, leak, l, hb, hs⟩ := hout
      · exact absurd he hr
      · exact hsave.spawned hs shared_frame hb hp hleader (.inl rfl) hs'
  | createThread running frames fit run =>
    rename_i p context m₁ m₂ r
    have hsave := h.saveUserContext p context
    have hp : Running (Yalnix.saveUserContext p context k) p := running_saveUserContext.mpr running
    by_cases hr : r = ERROR
    · obtain ⟨leak, l, hb⟩ := hsave.sound.bounded
      exact hsave.spawn_error hb frames fun f₀ f₁ l₁ hl => by
        subst hr
        exact createThread_error (hl ▸ hb.1) run
    · obtain ⟨hs', hout⟩ := hsave.sound.createThread hp frames fit.saved run
      obtain ⟨he, -⟩ | ⟨-, hleader, -, leak, l, hb, hs⟩ := hout
      · exact absurd he hr
      · exact hsave.spawned hs (fun _ => rfl) hb hp hleader (.inr rfl) hs'
  | write running lo hi run =>
    obtain ⟨hiff, hinv⟩ := h.write_iff running lo hi run
    exact hinv (hiff.mpr hk)
  | setBrk running round run =>
    rename_i p context address r
    have hp : Running (Yalnix.saveUserContext p context k) p := running_saveUserContext.mpr running
    have hsave := h.saveUserContext p context
    exact hsave.brk_kept hp (hsave.sound.brkOutcome hp round run)
      (hk.imp alone_saveUserContext.mpr brkStays_saveUserContext.mpr)
  | exit running run =>
    obtain ⟨leak, l, hb⟩ := h.sound.bounded
    obtain ⟨l', hc', hex, -⟩ := exitProcess_exited h.sound running hb run
    refine h.of_kept (h.sound.exit running run).1 hex.max_pid.ge
      ⟨fun q hq => (hex.running hq).2, fun q hq => ?_⟩ fun q hq => ?_
    · rw [hex.proc q (hex.running hq).1]
    · obtain ⟨hqp, hr⟩ := hex.running hq
      refine .inr ⟨by rw [hex.proc q hqp], fun i hi => ?_⟩
      rw [hex.pageOf hc' ⟨hr.pos, hr.le⟩ hi.table, if_neg hqp]

/-- The first process shares with nobody. -/
theorem machine_sharing {N : Nat} (hN : N ≤ 65536) : Sharing (machine N) := by
  have hone : ∀ q, Running (machine N) q → q = 1 := by
    intro q hq
    have hle := hq.le
    have hpos := hq.pos
    rw [max_pid_machine hN] at hle
    omega
  refine ⟨machine_sound hN, fun q r hqr => ?_, fun q r hqr i _ => ?_, fun q hq => ?_⟩
  · rw [hone q hqr.left, hone r hqr.right]
  · rw [hone q hqr.left, hone r hqr.right]
  · rw [hone q hq, max_pid_machine hN]
    unfold groupLeader
    rw [proc_machine hN]
    exact le_rfl

/-- The members of a group have data and heap in the same frames, and all may write to them. -/
structure Joined (k : Kernel) : Prop where
  sharing : Sharing k
  frames : ∀ q r, Peers k q r → ∀ i, InHeap (k.proc q).info i →
    (k.table q i).frame = (k.table r i).frame
  writable : ∀ q, Running k q → ∀ i, InHeap (k.proc q).info i → (k.table q i).writable = true

/-- The members of a group have every page of their data and heap on one frame, to which each of them
may write. -/
def GroupFrames (k : Kernel) : Prop :=
  ∀ q r, Peers k q r → ∀ i, InHeap (k.proc q).info i → ∃ f,
    ((k.table q i).frame = some f ∧ (k.table q i).writable = true) ∧
      (k.table r i).frame = some f ∧ (k.table r i).writable = true

theorem Joined.groupFrames (h : Joined k) : GroupFrames k := by
  intro q r hqr i hi
  have hv := (h.sharing.sound.inHeap hqr.left hi).1
  have hq := frame_eq_some.mpr ⟨hv, rfl⟩
  have hi' : InHeap (k.proc r).info i := h.sharing.info q r hqr ▸ hi
  exact ⟨_, ⟨hq, h.writable q hqr.left i hi⟩, (h.frames q r hqr i hi).symm.trans hq,
    h.writable r hqr.right i hi'⟩

/-- The operations of a program that does not fork: a new thread starts with its stack above the heap,
and the break moves in groups of one only. -/
def Unforked (k : Kernel) : GroupOp → Prop
  | .fork _ _ _ => False
  | .createThread p context _ => brkIndex (k.proc p).info ≤ stackIndex context.sp
  | .setBrk p context a _ => Alone k p ∨ BrkStays k p context.sp a
  | _ => True

def UnforkedStep (k : Kernel) (op : GroupOp) (k' : Kernel) : Prop := GroupStep k op k' ∧ Unforked k op

/-- Whoever may write to a page writes to it in place, for all members. -/
theorem Joined.keepsSharing (h : Joined k) (hp : Running k p) (i : Nat) : KeepsSharing k p i := by
  unfold KeepsSharing
  split
  · intro q r hqr j hj hq
    rw [← h.frames q r hqr j hj]
    exact hq
  · rename_i hn
    intro hi
    exact absurd ⟨(h.sharing.sound.inHeap hp hi).1, h.writable p hp i hi⟩ hn

theorem Joined.keepsGroups {op : GroupOp} (h : Joined k) (hstep : UnforkedStep k op k') :
    KeepsGroups k op := by
  obtain ⟨hstep, hun⟩ := hstep
  cases hstep with
  | fork => exact True.intro
  | createThread => exact True.intro
  | write running => exact .inr (h.keepsSharing running _)
  | setBrk => exact hun
  | exit => exact True.intro

/-- Tables change in groups of one only, or above the break. -/
theorem Joined.of_kept (h : Joined k) (hs' : Sharing k') (hg : SameGroups k k')
    (hkept : ∀ q, Running k' q →
      (Alone k q ∧ ∀ i, InHeap (k'.proc q).info i →
        InHeap (k.proc q).info i ∧ k'.table q i = k.table q i ∨ (k'.table q i).writable = true) ∨
      (k'.proc q).info = (k.proc q).info ∧
        ∀ i, InHeap (k.proc q).info i → k'.table q i = k.table q i) : Joined k' := by
  refine ⟨hs', fun q r hqr i hi => ?_, fun q hq i hi => ?_⟩
  · have hold := hg.peers hqr
    rcases hkept q hqr.left with ⟨ha, -⟩ | ⟨hinfo, htable⟩
    · rw [ha r hold]
    · rcases hkept r hqr.right with ⟨ha, -⟩ | ⟨-, htable'⟩
      · rw [ha q hold.symm]
      · rw [hinfo] at hi
        rw [htable i hi, htable' i (h.sharing.info q r hold ▸ hi)]
        exact h.frames q r hold i hi
  · have hr := hg.running q hq
    rcases hkept q hq with ⟨-, hpages⟩ | ⟨hinfo, htable⟩
    · rcases hpages i hi with ⟨hin, ht⟩ | hw
      · rw [ht]
        exact h.writable q hr i hin
      · exact hw
    · rw [hinfo] at hi
      rw [htable i hi]
      exact h.writable q hr i hi

/-- **A thread made while the heap is below its stack has the frames of its leader.** -/
theorem Joined.spawned (h : Joined k) (hs' : Sharing k') (hp : Running k p)
    (hleader : (k.proc p).thread_leader = none) (hb : Bounded k leak l)
    (hs : Spawned k k' p k.max_pid sb l id (some p)) (hlow : brkIndex (k.proc p).info ≤ sb) :
    Joined k' := by
  have htable : ∀ q o, Origin k k' p q o → ∀ i, InHeap (k.proc o).info i →
      k'.table q i = k.table o i := by
    intro q o ho i hi
    rcases ho.same with rfl | ⟨rfl, rfl⟩
    · by_cases hqp : q = p
      · rw [hqp, hs.table_parent]
        split
        · rfl
        · rfl
      · have hle := ho.running.le
        rw [hs.table_other hqp (by omega)]
    · have hbrk := hi.brk
      exact hs.below i (by omega)
  refine ⟨hs', fun q r hqr i hi => ?_, fun q hq i hi => ?_⟩
  · rcases hs.peers (fun _ => rfl) hb hp hleader (.inr rfl) h.sharing hqr with
      rfl | ⟨o, o', hpeers, ho, ho'⟩
    · rfl
    · rw [ho.info] at hi
      rw [htable q o ho i hi, htable r o' ho' i (h.sharing.info o o' hpeers ▸ hi)]
      exact h.frames o o' hpeers i hi
  · obtain ⟨o, ho, -⟩ := hs.origin (fun _ => rfl) hb hp hleader (.inr rfl) hq
    rw [ho.info] at hi
    rw [htable q o ho i hi]
    exact h.writable o ho.running i hi

theorem Joined.saveUserContext (h : Joined k) (p : PID) (context : UserContext) :
    Joined (saveUserContext p context k) :=
  h.of_kept (h.sharing.saveUserContext p context) sameGroups_saveUserContext fun _ _ =>
    .inr ⟨info_saveUserContext, fun _ _ => by rw [table_saveUserContext]⟩

/-- **Without forks, every step keeps the members of a group on the same frames.** -/
theorem Joined.step {op : GroupOp} (h : Joined k) (hstep : UnforkedStep k op k') : Joined k' := by
  have hs' := h.sharing.step hstep.1 (h.keepsGroups hstep)
  obtain ⟨hstep, hun⟩ := hstep
  cases hstep with
  | fork => exact hun.elim
  | createThread running frames fit run =>
    rename_i p context m₁ m₂ r
    have hsave := h.saveUserContext p context
    have hp : Running (Yalnix.saveUserContext p context k) p := running_saveUserContext.mpr running
    obtain ⟨-, hout⟩ := hsave.sharing.sound.createThread hp frames fit.saved run
    obtain ⟨-, hold⟩ | ⟨-, hleader, -, leak, l, hb, hs⟩ := hout
    · refine hsave.of_kept hs' ⟨fun q hq => (hold q hq).1, fun q hq => by rw [(hold q hq).2]⟩
        fun q hq => .inr ⟨by rw [(hold q hq).2], fun i _ => ?_⟩
      unfold Kernel.table
      rw [(hold q hq).2]
    · refine hsave.spawned hs' hp hleader hb hs ?_
      rw [info_saveUserContext, stack_base_saveUserContext]
      exact hun
  | write running lo hi run =>
    have hw := h.sharing.sound.written running lo hi run
    refine h.of_kept hs' hw.unmoved.sameGroups fun q hq => .inr ⟨hw.unmoved.info q, fun i hi => ?_⟩
    refine hw.table q i ?_
    have hr := hw.unmoved.running.mp hq
    by_contra hn
    obtain ⟨hnw, hqi⟩ := not_or.mp hn
    obtain ⟨rfl, rfl⟩ := not_not.mp hqi
    exact hnw ⟨(h.sharing.sound.inHeap hr hi).1, h.writable q hr _ hi⟩
  | setBrk running round run =>
    rename_i p context address r
    have hp : Running (Yalnix.saveUserContext p context k) p := running_saveUserContext.mpr running
    have hsave := h.saveUserContext p context
    have ho := hsave.sharing.sound.brkOutcome hp round run
    refine hsave.of_kept hs' (ho.sameGroups hp) fun q hq => ?_
    by_cases hqp : q = p
    · subst hqp
      rcases hun with ha | hstay
      · exact .inl ⟨alone_saveUserContext.mpr ha, fun i hi => (ho.table i hi).imp id And.left⟩
      · have hstay := brkStays_saveUserContext.mpr hstay
        have hkept := ho.stays hstay
        refine .inr ⟨hkept.info, fun i hi => ?_⟩
        rcases ho.table i (hkept.info.symm ▸ hi) with ⟨-, ht⟩ | ⟨-, hn⟩
        · exact ht
        · exact absurd hstay hn
    · refine .inr ⟨by rw [ho.proc q hqp], fun i _ => ?_⟩
      unfold Kernel.table
      rw [ho.proc q hqp]
  | exit running run =>
    obtain ⟨leak, l, hb⟩ := h.sharing.sound.bounded
    obtain ⟨l', -, hex, -⟩ := exitProcess_exited h.sharing.sound running hb run
    refine h.of_kept hs' ⟨fun q hq => (hex.running hq).2, fun q hq => ?_⟩ fun q hq => ?_
    · rw [hex.proc q (hex.running hq).1]
    · have hqp := (hex.running hq).1
      refine .inr ⟨by rw [hex.proc q hqp], fun i _ => ?_⟩
      rw [hex.entry, if_neg hqp]

/-- **As long as nobody forks, the threads of every group keep their data and heap in the same writable
frames: whatever one of them writes, all read the same.** -/
theorem threads_share_unforked {k₀ : Kernel} {ops : List GroupOp} (h₀ : Joined k₀)
    (hrun : Run UnforkedStep k₀ ops k) : GroupShares k ∧ GroupFrames k := by
  have h : Joined k := hrun.invariant (fun _ _ _ h hstep => h.step hstep) h₀
  exact ⟨h.sharing.shares, h.groupFrames⟩

theorem machine_joined {N : Nat} (hN : N ≤ 65536) : Joined (machine N) := by
  have hone : ∀ q, Running (machine N) q → q = 1 := by
    intro q hq
    have hle := hq.le
    have hpos := hq.pos
    rw [max_pid_machine hN] at hle
    omega
  refine ⟨machine_sharing hN, fun q r hqr i _ => ?_, fun q hq i hi => ?_⟩
  · rw [hone q hqr.left, hone r hqr.right]
  · obtain rfl := hone q hq
    have hproc : (machine N).proc 1 = firstProcess := by
      rw [proc_machine hN]
      rfl
    rw [hproc] at hi
    have hdata := hi.data
    have hbrk := hi.brk
    have hd : dataIndex firstProcess.info = 1 := by decide
    have hb : brkIndex firstProcess.info = 3 := by decide
    rw [table_machine hN]
    have h12 : i = 1 ∨ i = 2 := by omega
    rcases h12 with rfl | rfl
    · decide
    · decide

/-- The first process makes a thread, which stores into their data. -/
def threadWrites : Except Stop Kernel := do
  let (_, k) ← createThread true true 1 (saveUserContext 1 firstContext (machine 3))
  userWrite 2 firstContext 0x102000 7 k

/-- The first process reads what its thread has written. -/
theorem threads_share_unforked_first : ∃ k, Run UnforkedStep (machine 3)
      [.createThread 1 firstContext 2, .write 2 firstContext 0x102000 7] k ∧
    (load k 1 0x102000 = some 7 ∧ load k 2 0x102000 = some 7) ∧ GroupShares k ∧ GroupFrames k := by
  have hN : 0 + 3 ≤ 65536 := by omega
  obtain ⟨k, l, leak, hstep, -, hs, -⟩ := machine_thread (N := 0) (by omega)
  have hun : Unforked (machine 3) (.createThread 1 firstContext 2) := by
    unfold Unforked
    rw [proc_machine hN]
    decide
  obtain ⟨f₀, f₁, -, -, hnew⟩ := hs.child
  have hmax := hs.max_pid
  have hthread : Running k 2 := ⟨by omega, by omega, by rw [hnew]⟩
  have hread : (threadWrites.toOption.map fun k =>
      decide (load k 1 0x102000 = some 7 ∧ load k 2 0x102000 = some 7)) = some true := by
    decide +kernel
  have hcalled : threadWrites = userWrite 2 firstContext 0x102000 7 k := by
    cases hstep with
    | @createThread _ _ _ m₁ m₂ result running frames fit run =>
      obtain ⟨c, k₁, k₂, hspawn, -⟩ := createThread_some run (by decide)
      obtain ⟨rfl, rfl, -, -⟩ := spawn_some hspawn
      unfold threadWrites
      rw [run]
      rfl
  cases hstore : userWrite 2 firstContext 0x102000 7 k with
  | error e =>
    rw [hcalled, hstore] at hread
    cases hread
  | ok k' =>
    rw [hcalled, hstore] at hread
    have hrun : Run UnforkedStep (machine 3)
        [.createThread 1 firstContext 2, .write 2 firstContext 0x102000 7] k' :=
      .cons ⟨hstep, hun⟩ (.single ⟨.write hthread (by decide) (by decide) hstore, True.intro⟩)
    exact ⟨k', hrun, of_decide_eq_true (Option.some.inj hread),
      threads_share_unforked (machine_joined hN) hrun⟩

end Yalnix
