import Yalnix.Process.Break

/-!
# Runs with threads

`GroupStep` is what processes and threads do to memory, as long as frames last and no counter
overflows: fork, create threads, write, move the break and exit.

* `SpawnOutcome` — the two ways a fork or a thread creation can end.
* `Sound.step`, `sound_of_run` — every state of such a run is sound.
* `Sound.fork_step`, `Sound.createThread_step` — where there is room, a leader can do both.
-/

set_option autoImplicit false

namespace Yalnix

open RefCount (refs)
open Transition (Run)

variable {k k' k₁ : Kernel} {l : List Nat} {f p q t c n i j sb : Nat} {a : Int} {b : UInt8}

/-! ## The operations -/

inductive GroupOp where
  | fork (p : PID) (context : UserContext) (result : Int)
  | createThread (p : PID) (context : UserContext) (result : Int)
  | write (p : PID) (context : UserContext) (address : Int) (byte : UInt8)
  | setBrk (p : PID) (context : UserContext) (address : Int) (result : Int)
  | exit (p : PID)

/-- No counter overflows when `p` shares its entries below the stack pointer. -/
def CountersFit (k : Kernel) (p : Nat) (context : UserContext) : Prop :=
  ∀ f, k.frc_table f + sharesBelow k p (stackIndex context.sp) f ≤ 127

/-- Forks and new threads find the frames they need and take no counter past 127, and new breaks can be
rounded up. -/
inductive GroupStep : Kernel → GroupOp → Kernel → Prop
  | fork {k k' : Kernel} {p : PID} {context : UserContext} {m₁ m₂ : Bool} {result : Int}
      (running : Running k p) (frames : EnoughFrames (saveUserContext p context k) p)
      (fit : CountersFit k p context)
      (run : forkProcess m₁ m₂ p (saveUserContext p context k) = .ok (result, k')) :
      GroupStep k (.fork p context result) k'
  | createThread {k k' : Kernel} {p : PID} {context : UserContext} {m₁ m₂ : Bool} {result : Int}
      (running : Running k p) (frames : EnoughFrames (saveUserContext p context k) p)
      (fit : CountersFit k p context)
      (run : createThread m₁ m₂ p (saveUserContext p context k) = .ok (result, k')) :
      GroupStep k (.createThread p context result) k'
  | write {k k' : Kernel} {p : PID} {context : UserContext} {a : Int} {b : UInt8}
      (running : Running k p) (lo : VMEM_1_BASE ≤ a) (hi : a < VMEM_1_LIMIT)
      (run : userWrite p context a b k = .ok k') : GroupStep k (.write p context a b) k'
  | setBrk {k k' : Kernel} {p : PID} {context : UserContext} {address result : Int}
      (running : Running k p) (round : Roundable address)
      (run : setProcessBrk p address (saveUserContext p context k) = .ok (result, k')) :
      GroupStep k (.setBrk p context address result) k'
  | exit {k k' : Kernel} {p : PID} (running : Running k p) (run : exitProcess p k = .ok k') :
      GroupStep k (.exit p) k'

/-! ## How forks and thread creations end -/

/-- Either no process has been made and those there are have not changed, or `spawn` has done its
work, on the frames of `l`, for the page of the stack pointer `sb`. -/
def SpawnOutcome (k k' : Kernel) (p sb : Nat) (u : PTE → PTE) (leader : Option PID)
    (result : Int) : Prop :=
  (result = ERROR ∧ ∀ q, Running k' q → Running k q ∧ k'.proc q = k.proc q) ∨
  result = ((k.max_pid + 1 : Nat) : Int) ∧ (k.proc p).thread_leader = none ∧ sb ≤ 128 ∧
    ∃ leak l, Bounded k leak l ∧ Spawned k k' p k.max_pid sb l u leader

/-- The counters are the numbers of references, forgotten ones included. -/
theorem Bounded.frc {leak : Nat → Nat} (h : Bounded k leak l) (f : Nat) :
    k.frc_table f = refs (slots k.max_pid) (mapping k) f + leak f := by
  have := h.1.counts.exact (h.2 f)
  exact_mod_cast this

/-- A descriptor without a page table is no process. -/
theorem Described.running_old {f₀ f₁ : Nat} (hd : Described k k' k.max_pid f₀ f₁ l)
    (hq : Running k' q) : Running k q ∧ k'.proc q = k.proc q := by
  have hqle := hq.le
  rw [hd.max_pid] at hqle
  have hqn : q ≠ k.max_pid + 1 := by
    rintro rfl
    have := hq.live
    rw [hd.proc] at this
    cases this
  have hproc := hd.only.proc q hqn
  exact ⟨⟨hq.pos, by omega, by rw [← hproc]; exact hq.live⟩, hproc⟩

/-- A spawn that fails leaves a sound state in which the processes are as they were. -/
theorem Sound.spawn_error {leak : Nat → Nat} (h : Sound k) (hb : Bounded k leak l)
    (hframes : EnoughFrames k p) (herr : ∀ f₀ f₁ l₁, l = f₀ :: f₁ :: l₁ →
      k' = k ∨ ((k.max_pid : Int) < LONG_MAX ∧
        createProcessDescriptor true k = (some (k.max_pid + 1), k'))) :
    Sound k' ∧ ∀ q, Running k' q → Running k q ∧ k'.proc q = k.proc q := by
  obtain ⟨f₀, f₁, l₁, rfl⟩ := hframes.two hb.1.list
  rcases herr f₀ f₁ l₁ rfl with rfl | ⟨hpid, hdesc⟩
  · exact ⟨h, fun q hq => ⟨hq, rfl⟩⟩
  · obtain ⟨hc, hd⟩ := described_spec hb.1 rfl hpid hdesc
    exact ⟨h.described hb rfl hc hd, fun q hq => hd.running_old hq⟩

/-- Whoever shares frames without overflow keeps the counts bounded. -/
theorem Bounded.share {leak : Nat → Nat} (h : Bounded k leak l)
    (hfit : ∀ f, k.frc_table f + sharesBelow k p sb f ≤ 127) (f : Nat) :
    refs (slots k.max_pid) (mapping k) f + leak f + sharesBelow k p sb f ≤ 127 := by
  have := hfit f
  rw [h.frc] at this
  exact_mod_cast this

/-- **A fork in a sound state.** -/
theorem Sound.fork {m₁ m₂ : Bool} {r : Int} (h : Sound k) (hp : Running k p)
    (hframes : EnoughFrames k p)
    (hfit : ∀ f, k.frc_table f + sharesBelow k p (stack_base p k).toNat f ≤ 127)
    (hrun : forkProcess m₁ m₂ p k = .ok (r, k')) :
    Sound k' ∧ SpawnOutcome k k' p (stack_base p k).toNat PTE.shared none r := by
  obtain ⟨leak, l, hb⟩ := h.bounded
  by_cases hr : r = ERROR
  · subst hr
    obtain ⟨hs, hold⟩ := h.spawn_error hb hframes fun f₀ f₁ l₁ hl =>
      forkProcess_error (hl ▸ hb.1) hrun
    exact ⟨hs, .inl ⟨rfl, hold⟩⟩
  · obtain ⟨rfl, rfl, hready⟩ := forkReady_of_fork hb.1 hp
      (fun i hi => (h.tables p hp.pos hp.le i hi).readable) hframes hrun hr
    obtain ⟨k₁, l', hrun', hc, -, -, hs⟩ := forkProcess_spec hready
    rw [hrun, Except.ok.injEq, Prod.mk.injEq] at hrun'
    obtain ⟨rfl, rfl⟩ := hrun'
    exact ⟨Sound.spawned hs shared_frame h hb rfl hp hready.le hc (fun _ => shared_of_invalid)
      shared_readable (fun _ hv hd => shared_data hv hd) (hb.share hfit),
      .inr ⟨rfl, hready.leader, hready.le, leak, l, hb, hs⟩⟩

/-- **A thread creation in a sound state.** -/
theorem Sound.createThread {m₁ m₂ : Bool} {r : Int} (h : Sound k) (hp : Running k p)
    (hframes : EnoughFrames k p)
    (hfit : ∀ f, k.frc_table f + sharesBelow k p (stack_base p k).toNat f ≤ 127)
    (hrun : createThread m₁ m₂ p k = .ok (r, k')) :
    Sound k' ∧ SpawnOutcome k k' p (stack_base p k).toNat id (some p) r := by
  obtain ⟨leak, l, hb⟩ := h.bounded
  by_cases hr : r = ERROR
  · subst hr
    obtain ⟨hs, hold⟩ := h.spawn_error hb hframes fun f₀ f₁ l₁ hl =>
      createThread_error (hl ▸ hb.1) hrun
    exact ⟨hs, .inl ⟨rfl, hold⟩⟩
  · obtain ⟨rfl, rfl, hready⟩ := forkReady_of_thread hb.1 hp
      (fun i hi => (h.tables p hp.pos hp.le i hi).readable) hframes hrun hr
    obtain ⟨k₁, l', hrun', hc, -, -, hs⟩ := createThread_spec hready
    rw [hrun, Except.ok.injEq, Prod.mk.injEq] at hrun'
    obtain ⟨rfl, rfl⟩ := hrun'
    exact ⟨Sound.spawned hs (fun _ => rfl) h hb rfl hp hready.le hc (fun _ _ => rfl)
      (fun _ => rfl) (fun _ _ hd => hd) (hb.share hfit),
      .inr ⟨rfl, hready.leader, hready.le, leak, l, hb, hs⟩⟩

/-- The guard of a step, once the user context is saved. -/
theorem CountersFit.saved {context : UserContext} (h : CountersFit k p context) (f : Nat) :
    (saveUserContext p context k).frc_table f + sharesBelow (saveUserContext p context k) p
      (stack_base p (saveUserContext p context k)).toNat f ≤ 127 := by
  have := h f
  unfold sharesBelow at this ⊢
  rw [table_saveUserContext, stack_base_saveUserContext]
  exact this

/-! ## Runs -/

/-- **Every step keeps a state sound.** -/
theorem Sound.step {op : GroupOp} (h : Sound k) (hstep : GroupStep k op k') : Sound k' := by
  cases hstep with
  | fork running frames fit run =>
    rename_i p context m₁ m₂ r
    exact ((h.saveUserContext p context).fork (running_saveUserContext.mpr running) frames
      fit.saved run).1
  | createThread running frames fit run =>
    rename_i p context m₁ m₂ r
    exact ((h.saveUserContext p context).createThread (running_saveUserContext.mpr running) frames
      fit.saved run).1
  | write running lo hi run => exact h.write running lo hi run
  | setBrk running round run =>
    rename_i p context address r
    exact ((h.saveUserContext p context).setBrk (running_saveUserContext.mpr running) round run).1
  | exit running run => exact (h.exit running run).1

theorem sound_of_run {k₀ : Kernel} {ops : List GroupOp} (h₀ : Sound k₀)
    (hrun : Run GroupStep k₀ ops k) : Sound k :=
  hrun.invariant (fun _ _ _ hs ht => hs.step ht) h₀

/-! ## Room for new processes -/

/-- `r` frames are free, and none has more than `B` references, forgotten ones included. -/
def Roomy (k : Kernel) (r B : Nat) : Prop := ∃ leak l, Counted k (slots k.max_pid) leak l ∧
  l.length = r ∧ ∀ f, refs (slots k.max_pid) (mapping k) f + leak f ≤ B

variable {r B : Nat} {context : UserContext}

/-- What a process shares is no more than the references there are. -/
theorem sharesBelow_le_refs (hp : 0 < p ∧ p ≤ k.max_pid) (hsb : sb ≤ 128) (f : Nat) :
    sharesBelow k p sb f ≤ refs (slots k.max_pid) (mapping k) f := by
  refine (sharesBelow_le k hp hsb f).trans ?_
  rw [regionRefs_eq]
  exact RefCount.refs_mono regionSlots_subset

/-- After sharing what its parent maps, no frame has more than twice the references. -/
theorem Spawned.roomy {u : PTE → PTE} {leader : Option PID} {leak : Nat → Nat} {l' : List Nat}
    (hs : Spawned k k' p k.max_pid sb l u leader) (hu : ∀ e, (u e).frame = e.frame)
    (hc : Counted k (slots k.max_pid) leak l) (hc' : Counted k' (slots (k.max_pid + 1)) leak l')
    (hp : 0 < p ∧ p ≤ k.max_pid) (hsb : sb ≤ 128)
    (hB : ∀ f, refs (slots k.max_pid) (mapping k) f + leak f ≤ B) : Roomy k' l'.length (2 * B + 1) := by
  refine ⟨leak, l', by rw [hs.max_pid]; exact hc', rfl, fun f => ?_⟩
  rw [hs.max_pid]
  have hBf := hB f
  by_cases hf : f ∈ l
  · have := hs.fresh f hf
    have := hc.counts.free f hf
    omega
  · have := sharesBelow_le_refs hp hsb f
    rw [hs.refs_old hu hsb hf]
    omega

theorem Roomy.saveUserContext (h : Roomy k r B) (p : Nat) (context : UserContext) :
    Roomy (saveUserContext p context k) r B := by
  obtain ⟨leak, l, hc, hlen, hB⟩ := h
  refine ⟨leak, l, hc.saveUserContext p context, hlen, ?_⟩
  rw [mapping_saveUserContext]
  exact hB

section Room

variable (h : Sound k) (hroom : Roomy k r B) (hp : Running k p)
  (hleader : (k.proc p).thread_leader = none) (hpid : (k.max_pid : Int) < LONG_MAX)
  (hsp : indexOfPage (long (context.sp - VMEM_1_BASE)) = (sb : Int)) (hsb : sb ≤ 128)
  (hpages : 2 + stackPages k p sb ≤ r) (hB : 2 * B ≤ 127)

include h hroom hp hleader hpid hsp hsb hpages hB

theorem Sound.forkReady : ∃ leak l,
    ForkReady (Yalnix.saveUserContext p context k) p k.max_pid sb l leak ∧ l.length = r ∧
      (∀ f, refs (slots k.max_pid) (mapping (Yalnix.saveUserContext p context k)) f + leak f ≤ B) ∧
      EnoughFrames (Yalnix.saveUserContext p context k) p ∧ CountersFit k p context := by
  have hstack : stack_base p (Yalnix.saveUserContext p context k) = sb := by
    rw [stack_base_saveUserContext, hsp]
  have hpages' : stackPages (Yalnix.saveUserContext p context k) p sb = stackPages k p sb := by
    unfold stackPages
    rw [table_saveUserContext]
  obtain ⟨leak, l, hc, hlen, hBs⟩ := hroom.saveUserContext p context
  refine ⟨leak, l, ⟨hc, rfl, hpid, ⟨hp.pos, hp.le⟩, ?_, hstack, hsb, fun i hi => ?_, by omega⟩, hlen,
    hBs, ⟨l, hc.list, ?_⟩, fun f => ?_⟩
  · rw [proc_saveUserContext]
    exact hleader
  · rw [table_saveUserContext]
    exact (h.tables p hp.pos hp.le i hi).readable
  · rw [hstack, Int.toNat_natCast]
    omega
  · have hshare := sharesBelow_le_refs (k := k) ⟨hp.pos, hp.le⟩ hsb f
    have hBf : refs (slots k.max_pid) (mapping k) f + leak f ≤ B := by
      have := hBs f
      rw [mapping_saveUserContext] at this
      exact this
    have hfrc : k.frc_table f = _ := hc.counts.exact (f := f) (by have := hBs f; omega)
    rw [mapping_saveUserContext] at hfrc
    unfold stackIndex
    rw [hsp, Int.toNat_natCast, hfrc]
    change ((refs (slots k.max_pid) (mapping k) f + leak f : Nat) : Int) + _ ≤ 127
    omega

/-- **A leader with room for a child can fork.** -/
theorem Sound.fork_step : ∃ k' l leak, GroupStep k (.fork p context (k.max_pid + 1 : Nat)) k' ∧
    Counted (Yalnix.saveUserContext p context k) (slots k.max_pid) leak l ∧
    Spawned (Yalnix.saveUserContext p context k) k' p k.max_pid sb l PTE.shared none ∧
    Roomy k' (r - (2 + stackPages k p sb)) (2 * B + 1) := by
  obtain ⟨leak, l, hready, hlen, hBs, hframes, hfit⟩ := h.forkReady hroom hp hleader hpid hsp hsb
    hpages hB
  obtain ⟨k', l', hrun, hc, -, hlen', hs⟩ := forkProcess_spec hready
  refine ⟨k', l, leak, .fork hp hframes hfit hrun, hready.counted, hs, ?_⟩
  have hroom' := Spawned.roomy hs shared_frame hready.counted hc ⟨hp.pos, hp.le⟩ hsb hBs
  unfold stackPages at hlen' ⊢
  rw [table_saveUserContext] at hlen'
  rwa [show r - (2 + _) = l'.length by omega]

/-- **A leader with room for a thread can create one.** -/
theorem Sound.createThread_step : ∃ k' l leak,
    GroupStep k (.createThread p context (k.max_pid + 1 : Nat)) k' ∧
    Counted (Yalnix.saveUserContext p context k) (slots k.max_pid) leak l ∧
    Spawned (Yalnix.saveUserContext p context k) k' p k.max_pid sb l id (some p) ∧
    Roomy k' (r - (2 + stackPages k p sb)) (2 * B + 1) := by
  obtain ⟨leak, l, hready, hlen, hBs, hframes, hfit⟩ := h.forkReady hroom hp hleader hpid hsp hsb
    hpages hB
  obtain ⟨k', l', hrun, hc, -, hlen', hs⟩ := createThread_spec hready
  refine ⟨k', l, leak, .createThread hp hframes hfit hrun, hready.counted, hs, ?_⟩
  have hroom' := Spawned.roomy hs (fun _ => rfl) hready.counted hc ⟨hp.pos, hp.le⟩ hsb hBs
  unfold stackPages at hlen' ⊢
  rw [table_saveUserContext] at hlen'
  rwa [show r - (2 + _) = l'.length by omega]

end Room

/-! ## The first group -/

theorem machine_roomy {N : Nat} (hN : N ≤ 65536) : Roomy (machine N) N 1 := by
  obtain ⟨l, hc, hlen, hquiet⟩ := machine_counted hN
  refine ⟨fun _ => 0, l, by rw [max_pid_machine hN]; exact hc, hlen, fun f => ?_⟩
  rw [max_pid_machine hN, hquiet.mapping, refs_first]
  have := firstRefs_le f
  omega

theorem stackPages_le : stackPages k p 127 ≤ 1 :=
  (Finset.card_filter_le _ _).trans (by decide)

theorem firstContext_sp : indexOfPage (long (firstContext.sp - VMEM_1_BASE)) = (127 : Nat) := by
  decide

/-- The first process makes a thread. -/
theorem machine_thread {N : Nat} (hN : N + 3 ≤ 65536) : ∃ k l leak,
    GroupStep (machine (N + 3)) (.createThread 1 firstContext 2) k ∧
    Counted (saveUserContext 1 firstContext (machine (N + 3))) (slots 1) leak l ∧
    Spawned (saveUserContext 1 firstContext (machine (N + 3))) k 1 1 127 l id (some 1) ∧
    ∃ r, N ≤ r ∧ Roomy k r 3 := by
  have hmax := max_pid_machine hN
  obtain ⟨k, l, leak, hstep, hc, hs, hroom⟩ := (machine_sound hN).createThread_step (machine_roomy hN)
    (running_machine hN) (by rw [proc_machine hN]; rfl)
    (by rw [hmax]; unfold LONG_MAX; omega) firstContext_sp (by omega)
    (by have := stackPages_le (k := machine (N + 3)) (p := 1); omega) (by omega)
  rw [hmax] at hstep hc hs
  refine ⟨k, l, leak, hstep, hc, hs, _, ?_, hroom⟩
  have := stackPages_le (k := machine (N + 3)) (p := 1)
  omega

end Yalnix
