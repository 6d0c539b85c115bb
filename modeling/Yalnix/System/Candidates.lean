import Yalnix.System.Reaping
import Yalnix.System.RoundRobin
import Yalnix.System.SleepErrors

/-!
# Somebody to switch to

* `SchedulerEnds` — wherever `schedule` is called there is a process to switch to, and its loop ends.
* `lonely_delay` — a first process that is delayed, and no other: the loop does not end.
* `Blocks` — the calls that put the running process to sleep, or delay it; `handle_blocks`.
* `Lists.schedules` — the loop finds a process if there is one.
* `Timely` — processes that run or sleep are due; `Timely.step`.
* `scheduler_ends` — if somebody else is ready whenever the running process blocks, the loop ends.
-/

set_option autoImplicit false

namespace Yalnix.System

open Ring (Heap IsRing Linked)
open Transition (Run)

variable {s s' t : Sys} {n : Nat} {p q : PID} {l : List PID} {e : Event} {k : Cont} {m : Nat}
  {kids threads : PID → List PID} {mallocs : List Bool}

/-- `schedule` comes to an end wherever a handler calls it. -/
def SchedulerEnds (ok : Sys → Event → Prop) : Prop :=
  ∀ es s, Run (fun s e s' => ok s e ∧ Step s e s') bootSys es s → ∀ e n k t, ok s e → Enabled s e →
    handle n s e = .schedule k t → ∃ q, OnList t q ∧ t.eligible q ∧ Schedules t q

/-! ## A process that is alone -/

/-- **The first process is delayed, and nobody else is there.** -/
theorem lonely_delay : ¬ SchedulerEnds fun _ _ => True := by
  intro h
  obtain ⟨q, hq, helig, -⟩ := h [] bootSys .nil (.delay 5) 8 _ _ True.intro rfl rfl
  have hal : (bootSys.desc q).allocated = true := by
    cases hq with
    | refl => rfl
    | tail _ hlink => exact listed_boot _ q hlink
  have hone : q = 1 := by
    by_contra hne
    rw [bootSys_desc_of_ne hne] at hal
    cases hal
  subst hone
  have hwake := helig.2
  revert hwake
  decide +kernel

/-! ## Calls that block -/

/-- The mutex is locked, and not by the running process. -/
def Contended (s : Sys) (mutex_id : Int) : Prop :=
  ∃ m, Located s mutex_id .RESOURCE_MUTEX m ∧ (s.mutex m).locked = true ∧
    (s.mutex m).current_owner ≠ some s.current

/-- How many calls of `malloc` fail before one does not. -/
def failures (mallocs : List Bool) : Nat := (mallocs.takeWhile (· = false)).length

/-- The terminal is busy, or more chunks are left than nodes cannot be got for. -/
def WriteBlocks (s : Sys) (tty : Nat) (buffer : List UInt8) (mallocs : List Bool) : Prop :=
  (s.ttys tty).write_current ≠ 0 ∨ failures mallocs * TERMINAL_MAX_LINE < buffer.length

/-- The call delays the running process, or puts it to sleep. -/
def Blocks (s : Sys) : Event → Prop
  | .delay ticks => 0 < ticks
  | .mutexAcquire _ mutex_id => Contended s mutex_id
  | .cvarWait mallocs cvar_id mutex_id => mallocs.head? ≠ some false ∧
    (∃ c, Located s cvar_id .RESOURCE_CVAR c) ∧ ∃ m, Located s mutex_id .RESOURCE_MUTEX m
  | .ttyRead _ tty _ => 0 ≤ tty ∧ tty < NUM_TERMINALS ∧ (s.ttys tty.toNat).drained = true
  | .ttyWrite mallocs tty length buffer => 0 ≤ tty ∧ tty < NUM_TERMINALS ∧ 0 ≤ length ∧
    mallocs.head? ≠ some false ∧
      WriteBlocks s tty.toNat (buffer.take length.toNat) mallocs.tail
  | .resume mallocs =>
    match s.cont s.current with
    | .mutexAcquire m _ => (s.mutex m).locked = true
    | .cvarWait _ mutex_id => Contended s mutex_id
    | .ttyRead tty _ => (s.ttys tty).drained = true
    | .ttyWriteTurn tty buffer => WriteBlocks s tty buffer mallocs
    | .ttyWriteChunk _ buffer position =>
      position + failures mallocs * TERMINAL_MAX_LINE < buffer.length
    | _ => False
  | _ => False

/-- The handler has put the process to sleep. -/
def Outcome.sleeps : Outcome → Prop
  | .schedule k _ => k.queue.isSome
  | _ => False

theorem mutexAcquireLoop_sleeps (m : Nat) (cvar : Option Nat) (mallocs : List Bool) (s : Sys) :
    (mutexAcquireLoop m cvar mallocs s).sleeps ↔ (s.mutex m).locked = true := by
  have hlast : ∀ o, o = (if (s.mutex m).locked then
      Outcome.schedule (.mutexAcquire m cvar) (sleepOnWaitQueue (.mutex m) true s)
      else .ret SUCCESS (takeMutex m s)) → (o.sleeps ↔ (s.mutex m).locked = true) := by
    rintro o rfl
    split
    · rename_i hl
      exact iff_of_true rfl hl
    · rename_i hl
      exact iff_of_false not_false hl
  induction mallocs with
  | nil => exact hlast _ rfl
  | cons malloc mallocs ih =>
    cases malloc with
    | true => exact hlast _ rfl
    | false =>
      unfold mutexAcquireLoop
      split
      · exact ih
      · rename_i hl
        exact iff_of_false not_false hl

theorem mutexAcquire_sleeps (mallocs : List Bool) (mutex_id : Int) (cvar : Option Nat) (s : Sys) :
    (mutexAcquire mallocs mutex_id cvar s).sleeps ↔ Contended s mutex_id := by
  unfold mutexAcquire Contended Located
  cases hr : getResourceWithID mutex_id .RESOURCE_MUTEX s with
  | none =>
    refine iff_of_false not_false ?_
    rintro ⟨m, ⟨r, hr', -⟩, -⟩
    cases hr'
  | some r =>
    dsimp only
    cases hl : r.location with
    | none =>
      refine iff_of_false not_false ?_
      rintro ⟨m, ⟨r', hr', hm⟩, -⟩
      cases hr'
      rw [hl] at hm
      cases hm
    | some m =>
      dsimp only
      have hmutex : (∃ m', (∃ r', some r = some r' ∧ r'.location = some m') ∧
          (s.mutex m').locked = true ∧ (s.mutex m').current_owner ≠ some s.current) ↔
          (s.mutex m).locked = true ∧ (s.mutex m).current_owner ≠ some s.current := by
        constructor
        · rintro ⟨m', ⟨r', hr', hm⟩, h⟩
          cases hr'
          rw [hl] at hm
          cases hm
          exact h
        · intro h
          exact ⟨m, ⟨r, rfl, hl⟩, h⟩
      rw [hmutex]
      split
      · rename_i howner
        exact iff_of_false not_false fun h => h.2 howner
      · rename_i howner
        rw [mutexAcquireLoop_sleeps]
        exact ⟨fun h => ⟨h, howner⟩, fun h => h.1⟩

theorem ttyReadLoop_sleeps (tty : Nat) (u_length : Int) (mallocs : List Bool) (s : Sys) :
    (ttyReadLoop tty u_length mallocs s).sleeps ↔ (s.ttys tty).drained = true := by
  rcases ttyReadLoop_cases tty u_length mallocs s with ⟨hd, ho⟩ | ⟨hd, ho⟩
  · rw [ho]
    exact iff_of_true rfl hd
  · rw [ho, hd]
    refine iff_of_false ?_ (by simp)
    unfold ttyReadChunk
    extract_lets x length position sub_length
    split
    · exact not_false
    · exact not_false

theorem ttyWriteChunks_sleeps (tty : Nat) (buffer : List UInt8) (mallocs : List Bool) :
    ∀ (position : Nat) (s : Sys), (ttyWriteChunks tty buffer mallocs position s).sleeps ↔
      position + failures mallocs * TERMINAL_MAX_LINE < buffer.length := by
  have hlast : ∀ (position : Nat) (s : Sys) o, o = (if position < buffer.length then
      Outcome.schedule (.ttyWriteChunk tty buffer (position + TERMINAL_MAX_LINE))
        (sleepOnWaitQueue (.tty_write tty) false
          (TtyTransmit tty ((buffer.drop position).take TERMINAL_MAX_LINE) s))
      else .ret SUCCESS (s.setTty tty { s.ttys tty with write_current := 0 })) →
      (o.sleeps ↔ position < buffer.length) := by
    rintro position s o rfl
    split
    · rename_i hlt
      exact iff_of_true rfl hlt
    · rename_i hle
      exact iff_of_false not_false hle
  induction mallocs with
  | nil =>
    intro position s
    refine (hlast position s _ rfl).trans ?_
    simp [failures]
  | cons malloc mallocs ih =>
    intro position s
    cases malloc with
    | true =>
      refine (hlast position s _ rfl).trans ?_
      simp [failures]
    | false =>
      have hcount : failures (false :: mallocs) = failures mallocs + 1 := by simp [failures]
      rw [hcount, Nat.add_mul, Nat.one_mul]
      unfold ttyWriteChunks
      split
      · rw [ih]
        omega
      · rename_i hle
        refine iff_of_false not_false ?_
        omega

theorem ttyWriteTurn_sleeps (tty : Nat) (buffer : List UInt8) (mallocs : List Bool) (s : Sys) :
    (ttyWriteTurn tty buffer mallocs s).sleeps ↔ WriteBlocks s tty buffer mallocs := by
  have hlast : ∀ (l : List Bool) o, o = (if (s.ttys tty).write_current ≠ 0 then
      Outcome.schedule (.ttyWriteTurn tty buffer) (sleepOnWaitQueue (.tty_write tty) true s)
      else ttyWriteChunks tty buffer l 0 (takeTurn tty buffer s)) →
      (o.sleeps ↔ WriteBlocks s tty buffer l) := by
    rintro l o rfl
    unfold WriteBlocks
    split
    · rename_i hbusy
      exact iff_of_true rfl (.inl hbusy)
    · rename_i hfree
      rw [ttyWriteChunks_sleeps, Nat.zero_add]
      exact ⟨.inr, fun h => h.resolve_left hfree⟩
  induction mallocs with
  | nil => exact hlast _ _ rfl
  | cons malloc mallocs ih =>
    cases malloc with
    | true => exact hlast _ _ rfl
    | false =>
      unfold ttyWriteTurn
      split
      · rename_i hbusy
        exact iff_of_true (ih.mpr (.inl hbusy)) (.inl hbusy)
      · rename_i hfree
        unfold WriteBlocks
        rw [ttyWriteChunks_sleeps, Nat.zero_add]
        exact ⟨.inr, fun h => h.resolve_left hfree⟩

theorem cvarWait_sleeps (mallocs : List Bool) (cvar_id mutex_id : Int) (s : Sys) :
    (cvarWait mallocs cvar_id mutex_id s).sleeps ↔ mallocs.head? ≠ some false ∧
      (∃ c, Located s cvar_id .RESOURCE_CVAR c) ∧ ∃ m, Located s mutex_id .RESOURCE_MUTEX m := by
  unfold cvarWait mutexRelease Located
  cases hc : getResourceWithID cvar_id .RESOURCE_CVAR s with
  | none =>
    refine iff_of_false not_false ?_
    rintro ⟨-, ⟨c, r, hr, -⟩, -⟩
    cases hr
  | some rc =>
    dsimp only
    cases hm : getResourceWithID mutex_id .RESOURCE_MUTEX s with
    | none =>
      refine iff_of_false not_false ?_
      rintro ⟨-, -, m, r, hr, -⟩
      cases hr
    | some rm =>
      dsimp only
      cases hl : rm.location with
      | none =>
        refine iff_of_false not_false ?_
        rintro ⟨-, -, m, r, hr, hlm⟩
        cases hr
        rw [hl] at hlm
        cases hlm
      | some m =>
        dsimp only
        rw [if_neg (by decide)]
        cases mallocs with
        | nil =>
          cases hlc : rc.location with
          | none =>
            refine iff_of_false not_false ?_
            rintro ⟨-, ⟨c, r, hr, hlm⟩, -⟩
            cases hr
            rw [hlc] at hlm
            cases hlm
          | some c => exact iff_of_true rfl ⟨by simp, ⟨c, rc, rfl, hlc⟩, m, rm, rfl, hl⟩
        | cons malloc mallocs =>
          cases malloc with
          | true =>
            cases hlc : rc.location with
            | none =>
              refine iff_of_false not_false ?_
              rintro ⟨-, ⟨c, r, hr, hlm⟩, -⟩
              cases hr
              rw [hlc] at hlm
              cases hlm
            | some c => exact iff_of_true rfl ⟨by simp, ⟨c, rc, rfl, hlc⟩, m, rm, rfl, hl⟩
          | false =>
            -- the mutex that has just been opened is taken again
            refine iff_of_false ?_ fun h => h.1 rfl
            rw [mutexAcquire_sleeps]
            rintro ⟨m', ⟨r, hr, hlm⟩, hlocked, -⟩
            have hresources : (openMutex m s).resources = s.resources := by
              unfold openMutex signalWaitQueue
              exact signal_resources _ _ _
            have hsame : getResourceWithID mutex_id .RESOURCE_MUTEX (openMutex m s) = some rm := by
              unfold getResourceWithID at hm ⊢
              rw [hresources]
              exact hm
            rw [hsame] at hr
            cases hr
            rw [hl] at hlm
            cases hlm
            have hmutex : ((openMutex m s).mutex m).locked = false := by
              unfold openMutex signalWaitQueue
              rw [signal_mutex]
              unfold Sys.setMutex
              dsimp only
              rw [Function.update_self]
            rw [hmutex] at hlocked
            cases hlocked

theorem waitLoop_sleeps (n : Nat) (s : Sys) : ¬ (waitLoop n s).sleeps := by
  unfold waitLoop
  split
  · exact not_false
  · exact Bool.false_ne_true
  · split
    · exact not_false
    · exact not_false

theorem joinLoop_sleeps (n : Nat) (thread_id : Int) (s : Sys) :
    ¬ (joinLoop n thread_id s).sleeps := by
  unfold joinLoop
  split
  · exact not_false
  · exact Bool.false_ne_true
  · split
    · exact not_false
    · exact not_false

theorem waitForPID_sleeps (n : Nat) (s : Sys) : ¬ (waitForPID n s).sleeps := by
  unfold waitForPID
  split
  · exact not_false
  · exact not_false
  · exact waitLoop_sleeps n s

theorem joinThread_sleeps (n : Nat) (thread_id : Int) (s : Sys) :
    ¬ (joinThread n thread_id s).sleeps := by
  unfold joinThread
  split
  · exact not_false
  · exact not_false
  · exact joinLoop_sleeps n thread_id s

theorem killCurrentProcess_sleeps (n : Nat) (status : Int) (s : Sys) :
    ¬ (killCurrentProcess n status s).sleeps := by
  unfold killCurrentProcess
  split
  · exact not_false
  · exact not_false
  · split
    · exact not_false
    · exact not_false

theorem initializeResource_sleeps (type : ResourceType) (m₁ m₂ : Bool) (s : Sys) :
    ∃ r t, initializeResource type m₁ m₂ s = .ret r t := by
  unfold initializeResource
  split
  · exact ⟨_, _, rfl⟩
  · extract_lets id s₁
    split
    · exact ⟨_, _, rfl⟩
    · exact ⟨_, _, rfl⟩

theorem forkProcess_sleeps (memory : Bool) (s : Sys) : ¬ (forkProcess memory s).sleeps := by
  unfold forkProcess
  split
  · exact not_false
  · split
    · exact not_false
    · dsimp only
      split
      · exact not_false
      · split
        · exact not_false
        · exact not_false

theorem createThread_sleeps (memory : Bool) (s : Sys) : ¬ (createThread memory s).sleeps := by
  unfold createThread
  split
  · exact not_false
  · split
    · exact not_false
    · dsimp only
      split
      · exact not_false
      · split
        · exact not_false
        · exact not_false

theorem mutexRelease_sleeps (mutex_id : Int) (s : Sys) : ¬ (mutexRelease mutex_id s).sleeps := by
  unfold mutexRelease
  split
  · exact not_false
  · split
    · exact not_false
    · exact not_false

theorem cvarSignal_sleeps (cvar_id : Int) (s : Sys) : ¬ (cvarSignal cvar_id s).sleeps := by
  unfold cvarSignal
  split
  · exact not_false
  · split
    · exact not_false
    · exact not_false

theorem cvarBroadcast_sleeps (cvar_id : Int) (s : Sys) : ¬ (cvarBroadcast cvar_id s).sleeps := by
  unfold cvarBroadcast
  split
  · exact not_false
  · split
    · exact not_false
    · exact not_false

/-- **The handler puts the running process to sleep in these cases, and in no other.** -/
theorem handle_sleeps (n : Nat) (s : Sys) (he : ∀ ticks, e ≠ .delay ticks) :
    (handle n s e).sleeps ↔ Blocks s e := by
  cases e with
  | delay ticks => exact absurd rfl (he ticks)
  | mutexAcquire mallocs mutex_id => exact mutexAcquire_sleeps mallocs mutex_id none s
  | cvarWait mallocs cvar_id mutex_id => exact cvarWait_sleeps mallocs cvar_id mutex_id s
  | ttyRead mallocs tty u_length =>
    unfold handle ttyRead Blocks
    dsimp only
    split
    · rename_i hbad
      refine iff_of_false not_false ?_
      omega
    · rename_i hgood
      rw [ttyReadLoop_sleeps]
      exact ⟨fun h => ⟨by omega, by omega, h⟩, fun h => h.2.2⟩
  | ttyWrite mallocs tty length buffer =>
    unfold handle ttyWrite Blocks
    dsimp only
    split
    · rename_i hbad
      refine iff_of_false not_false ?_
      rintro ⟨h₁, h₂, -⟩
      omega
    · rename_i hgood
      split
      · rename_i hbad
        refine iff_of_false not_false ?_
        rintro ⟨-, -, hlen, hhead, -⟩
        rcases hbad with hbad | hbad
        · exact hhead hbad
        · omega
      · rename_i hok
        rw [ttyWriteTurn_sleeps]
        refine ⟨fun h => ⟨by omega, by omega, ?_, fun hh => hok (.inl hh), h⟩, fun h => h.2.2.2.2⟩
        exact not_lt.mp fun hlt => hok (.inr hlt)
  | resume mallocs =>
    unfold handle Blocks
    dsimp only
    cases hk : s.cont s.current with
    | mutexAcquire m cvar => exact mutexAcquireLoop_sleeps m cvar mallocs s
    | cvarWait c mutex_id => exact mutexAcquire_sleeps mallocs mutex_id (some c) s
    | ttyRead tty u_length => exact ttyReadLoop_sleeps tty u_length mallocs s
    | ttyWriteTurn tty buffer => exact ttyWriteTurn_sleeps tty buffer mallocs s
    | ttyWriteChunk tty buffer position => exact ttyWriteChunks_sleeps tty buffer mallocs position s
    | waitForPID => exact iff_of_false (waitLoop_sleeps n s) not_false
    | joinThread thread_id => exact iff_of_false (joinLoop_sleeps n thread_id s) not_false
    | user => exact iff_of_false not_false not_false
    | returns result => exact iff_of_false not_false not_false
  | clock => exact iff_of_false Bool.false_ne_true not_false
  | wait => exact iff_of_false (waitForPID_sleeps n s) not_false
  | joinThread thread_id => exact iff_of_false (joinThread_sleeps n thread_id s) not_false
  | exit status => exact iff_of_false (killCurrentProcess_sleeps n status s) not_false
  | ttyReceive malloc tty line => exact iff_of_false not_false not_false
  | ttyTransmit tty => exact iff_of_false not_false not_false
  | mutexInitialize m₁ m₂ =>
    refine iff_of_false ?_ not_false
    obtain ⟨r, t, ht⟩ := initializeResource_sleeps .RESOURCE_MUTEX m₁ m₂ s
    change ¬ (mutexInitialize m₁ m₂ s).sleeps
    unfold mutexInitialize
    rw [ht]
    dsimp only
    split
    · exact not_false
    · exact not_false
  | cvarInitialize m₁ m₂ =>
    refine iff_of_false ?_ not_false
    obtain ⟨r, t, ht⟩ := initializeResource_sleeps .RESOURCE_CVAR m₁ m₂ s
    change ¬ (cvarInitialize m₁ m₂ s).sleeps
    unfold cvarInitialize
    rw [ht]
    dsimp only
    split
    · exact not_false
    · exact not_false
  | fork memory => exact iff_of_false (forkProcess_sleeps memory s) not_false
  | createThread memory => exact iff_of_false (createThread_sleeps memory s) not_false
  | mutexRelease mutex_id => exact iff_of_false (mutexRelease_sleeps mutex_id s) not_false
  | cvarSignal cvar_id => exact iff_of_false (cvarSignal_sleeps cvar_id s) not_false
  | cvarBroadcast cvar_id => exact iff_of_false (cvarBroadcast_sleeps cvar_id s) not_false

/-! ## The loop of the scheduler -/

/-- **The loop finds a process if there is one.** -/
theorem Lists.schedules (h : Lists s l kids threads) (hc : (s.desc s.current).allocated = true)
    (hq : (s.desc q).allocated = true) (helig : s.eligible q) : ∃ r, Schedules s r := by
  have hcurrent := (h.members s.current).mpr hc
  have hsome := RoundRobin.pick_isSome (p := fun p => decide (s.eligible p)) (l := l)
    (a := s.current)
  obtain ⟨r, hr⟩ := Option.isSome_iff_exists.mp
    (hsome.mpr ⟨q, (h.members q).mpr hq, by simpa using helig⟩)
  exact ⟨r, (schedules_iff h.procs hcurrent).mpr hr⟩

/-! ## Wake-up times -/

/-- Processes that run or sleep are due. -/
structure Timely (s : Sys) : Prop where
  sane : Sane s
  clock : 0 ≤ s.elapsed_clock_ticks
  running : (s.desc s.current).wake_up_time ≤ s.elapsed_clock_ticks
  waiting : ∀ p, (s.desc p).allocated = true → (s.desc p).state = .WAITING →
    (s.desc p).wake_up_time ≤ s.elapsed_clock_ticks

/-- Another process can be switched to, or sleeps on the mutex that the call releases. -/
def Others (s : Sys) (e : Event) : Prop :=
  (∃ q, q ≠ s.current ∧ (s.desc q).allocated = true ∧ s.eligible q) ∨
    ∃ m, Releases s m e ∧ s.queue (.mutex m) ≠ []

/-- A fair step at which somebody is there to run. -/
structure Occupied (s : Sys) (e : Event) : Prop where
  fair : Fair s e
  /-- The clock does not wrap. -/
  clock : e = .clock → s.elapsed_clock_ticks < LONG_MAX
  /-- When the running process blocks, there is another one. -/
  ready : Blocks s e → Others s e

/-- The clock does not go backwards, and nobody gets another wake-up time but who is delayed. -/
structure Times (s t : Sys) (delayed : PID → Prop) : Prop where
  clock : s.elapsed_clock_ticks ≤ t.elapsed_clock_ticks
  wake : ∀ q, q ≤ s.max_pid → ¬ delayed q → (t.desc q).wake_up_time = (s.desc q).wake_up_time

theorem OnProcesses.times (hp : OnProcesses s e k t) (h : Timely s)
    (hclock : e = .clock → s.elapsed_clock_ticks < LONG_MAX) :
    Times s t fun q => q = s.current ∧ ∃ ticks, e = .delay ticks := by
  have hnew : ∀ q, q ≤ s.max_pid → q ≠ s.max_pid + 1 := fun q hq => ne_of_lt (Nat.lt_succ_of_le hq)
  cases hp with
  | synced synced =>
    refine ⟨?_, fun q _ _ => ?_⟩
    · rw [synced.same]
    · rw [synced.desc]
  | quiet quiet _ _ _ =>
    refine ⟨?_, fun q _ hq => quiet.wake q ?_⟩
    · rcases quiet.clock with hsame | ⟨he, htick⟩
      · exact hsame.ge
      · have hlt := hclock he
        have hge := h.clock
        have hwrap : long (s.elapsed_clock_ticks + 1) = s.elapsed_clock_ticks + 1 := by
          unfold long
          unfold LONG_MAX at hlt
          apply Word.wrap_of_range
          · omega
          · omega
        rw [htick, hwrap]
        omega
    · by_cases hc : q = s.current
      · exact .inr fun ticks he => hq ⟨hc, ticks, he⟩
      · exact .inl hc
  | noMemory => exact ⟨le_refl _, fun _ _ _ => rfl⟩
  | @fork s₁ tree procs leader made child listed =>
    subst made
    exact ⟨le_refl _, fun q hq _ =>
      congrArg Descriptor.wake_up_time (newProcess_desc_of_ne (hnew q hq) _ _)⟩
  | @createThread s₁ groups procs leader made peer listed =>
    subst made
    exact ⟨le_refl _, fun q hq _ =>
      congrArg Descriptor.wake_up_time (newProcess_desc_of_ne (hnew q hq) _ _)⟩

/-- Who sleeps after the handler has slept before, or runs. -/
theorem OnProcesses.sleepers (hp : OnProcesses s e k t) (ha : Asleep s)
    (hal : (t.desc p).allocated = true) (hst : (t.desc p).state = .WAITING) :
    p ≤ s.max_pid ∧ (s.desc p).allocated = true ∧
      ((s.desc p).state = .WAITING ∨ p = s.current) := by
  have hle : (s.desc p).allocated = true → p ≤ s.max_pid := by
    intro hp'
    by_contra hlt
    rw [ha.fresh p (not_le.mp hlt)] at hp'
    cases hp'
  have hold : ∀ d, p ≠ s.max_pid + 1 →
      (Sys.newProcess { s with max_pid := s.max_pid + 1 } (s.max_pid + 1) d).desc p = s.desc p :=
    fun d hne => newProcess_desc_of_ne hne _ _
  cases hp with
  | synced synced =>
    rw [synced.desc] at hal
    refine ⟨hle hal, hal, ?_⟩
    rcases synced.state p with hs | ⟨hs, -⟩ | ⟨hc, -⟩
    · exact .inl (hs.symm.trans hst)
    · rw [hs] at hst
      cases hst
    · exact .inr hc
  | quiet quiet _ _ _ =>
    have hal' : (s.desc p).allocated = true := by
      rcases quiet.allocated p with hs | ⟨hs, -⟩
      · exact hs.symm.trans hal
      · rw [hs] at hal
        cases hal
    exact ⟨hle hal', hal', .inl ((quiet.state p).symm.trans hst)⟩
  | noMemory => exact ⟨hle hal, hal, .inl hst⟩
  | @fork s₁ tree procs leader made child listed =>
    subst made
    rcases eq_or_ne p (s.max_pid + 1) with rfl | hne
    · have hself := newProcess_desc_self { s with max_pid := s.max_pid + 1 } (s.max_pid + 1)
        { newDescriptor with parent := some s.current }
      rw [show _ = _ from congrArg Descriptor.state hself] at hst
      cases hst
    · have hd := hold { newDescriptor with parent := some s.current } hne
      dsimp only at hal hst
      rw [hd] at hal hst
      exact ⟨hle hal, hal, .inl hst⟩
  | @createThread s₁ groups procs leader made peer listed =>
    subst made
    rcases eq_or_ne p (s.max_pid + 1) with rfl | hne
    · have hself := newProcess_desc_self { s with max_pid := s.max_pid + 1 } (s.max_pid + 1)
        { newDescriptor with thread_leader := some s.current }
      rw [show _ = _ from congrArg Descriptor.state hself] at hst
      cases hst
    · have hd := hold { newDescriptor with thread_leader := some s.current } hne
      dsimp only at hal hst
      rw [hd] at hal hst
      exact ⟨hle hal, hal, .inl hst⟩

theorem Timely.delay {ticks : Int} (h : Timely s) (hstep : Step s (.delay ticks) s')
    (hsane : Sane s') : Timely s' := by
  obtain ⟨-, n, hend⟩ := hstep
  have hrun : handle n s (.delay ticks) = delayProcess ticks s := rfl
  rw [hrun] at hend
  unfold delayProcess at hend
  split at hend
  · cases hend
    exact ⟨hsane, h.clock, h.running, h.waiting⟩
  · split at hend
    · cases hend
      exact ⟨hsane, h.clock, h.running, h.waiting⟩
    · generalize hv : (s.setDesc s.current fun d =>
        { d with wake_up_time := long (s.elapsed_clock_ticks + ticks) }) = v at hend
      have hclock : v.elapsed_clock_ticks = s.elapsed_clock_ticks := by
        rw [← hv]
        rfl
      have hself : (v.desc s.current).state = .RUNNING := by
        rw [← hv, ← h.sane.awake.running]
        unfold Sys.setDesc
        simp only [Function.update_self]
      have hother : ∀ p, p ≠ s.current → v.desc p = s.desc p := by
        intro p hp
        rw [← hv]
        exact Function.update_of_ne hp _ _
      clear hv
      cases hend with
      | schedule next =>
        refine ⟨hsane, ?_, next.eligible.2, fun p hal hst => ?_⟩
        · change 0 ≤ v.elapsed_clock_ticks
          rw [hclock]
          exact h.clock
        · change (v.desc p).allocated = true at hal
          change (v.desc p).state = .WAITING at hst
          change (v.desc p).wake_up_time ≤ v.elapsed_clock_ticks
          have hp : p ≠ s.current := by
            rintro rfl
            rw [hself] at hst
            cases hst
          rw [hother p hp] at hal hst ⊢
          rw [hclock]
          exact h.waiting p hal hst

theorem Timely.exit {status : Int} (h : Timely s)
    (hrun : killCurrentProcess n status s = .switched s') (hsane : Sane s') : Timely s' := by
  unfold killCurrentProcess at hrun
  split at hrun
  · cases hrun
  · cases hrun
  · rename_i q s₁ hk
    split at hrun
    · cases hrun
    · rename_i s₂ hkk
      cases hrun
      have hcull := killProcess_culled h.sane.asleep.groups hk
      have hrel := killKernelContext_released hkk
      have hclock : s'.elapsed_clock_ticks = s.elapsed_clock_ticks := by
        rw [hrel.same, hcull.same]
        rfl
      have hcurrent : s'.current = q := by
        rw [hrel.same]
        rfl
      have hwake : ∀ p, (s'.desc p).wake_up_time = (s.desc p).wake_up_time :=
        fun p => (hrel.desc p).wake.trans (hcull.desc p).wake
      refine ⟨hsane, by rw [hclock]; exact h.clock, ?_, fun p hal hst => ?_⟩
      · rw [hcurrent, hwake, hclock]
        exact (killProcess_next hk).eligible.2
      · rw [hwake, hclock]
        have hst₁ : (s₁.desc p).state = .WAITING := (hrel.desc p).state.symm.trans hst
        have hal₁ : (s₁.desc p).allocated = true := by
          rcases (hrel.desc p).allocated with ha | ⟨ha, -⟩
          · exact ha.symm.trans hal
          · rw [ha] at hal
            cases hal
        refine h.waiting p ?_ ?_
        · rcases (hcull.desc p).allocated with ha | ⟨ha, -⟩
          · exact ha.symm.trans hal₁
          · rw [ha] at hal₁
            cases hal₁
        · rcases (hcull.desc p).state with hs | ⟨-, hs⟩
          · exact hs.symm.trans hst₁
          · rw [hs] at hst₁
            cases hst₁

/-- **Processes that run or sleep stay due.** -/
theorem Timely.step (h : Timely s) (hc : Occupied s e) (hstep : Step s e s') : Timely s' := by
  have hsane := h.sane.step hc.fair hstep
  by_cases hexit : ∃ status, e = .exit status
  · obtain ⟨status, rfl⟩ := hexit
    obtain ⟨n, hrun⟩ := hstep.exits h.sane.awake
    exact h.exit hrun hsane
  · by_cases hdelay : ∃ ticks, e = .delay ticks
    · obtain ⟨ticks, rfl⟩ := hdelay
      exact h.delay hstep hsane
    · have he : ∀ status, e ≠ .exit status := fun status hs => hexit ⟨status, hs⟩
      have heffect : ∀ {k t}, Effect s e k t → Times s t (fun _ => False) ∧
          ∀ p, (t.desc p).allocated = true → (t.desc p).state = .WAITING →
            (t.desc p).wake_up_time ≤ t.elapsed_clock_ticks := by
        intro k t heff
        have htimes := heff.processes.times h hc.clock
        refine ⟨⟨htimes.clock, fun q hq _ => htimes.wake q hq fun hd => hdelay hd.2⟩,
          fun p hal hst => ?_⟩
        obtain ⟨hle, hal', hold⟩ := heff.processes.sleepers h.sane.asleep hal hst
        rw [htimes.wake p hle fun hd => hdelay hd.2]
        refine le_trans ?_ htimes.clock
        rcases hold with hold | rfl
        · exact h.waiting p hal' hold
        · exact h.running
      cases hstep.leads h.sane.objects he with
      | @stays t effect ends =>
        obtain ⟨htimes, hwaiting⟩ := heffect effect
        have hcurrent := effect.processes.current
        subst ends
        refine ⟨hsane, h.clock.trans htimes.clock, ?_, hwaiting⟩
        change (t.desc t.current).wake_up_time ≤ t.elapsed_clock_ticks
        rw [hcurrent, htimes.wake _ (h.sane.awake.le_max h.sane.asleep) not_false]
        exact h.running.trans htimes.clock
      | leaves kernel effect next ends =>
        obtain ⟨htimes, hwaiting⟩ := heffect effect
        subst ends
        exact ⟨hsane, h.clock.trans htimes.clock, next.eligible.2, hwaiting⟩

/-! ## Candidates -/

/-- Who could be switched to before the handler, and has not called it, can be switched to after it. -/
theorem OnProcesses.other (hp : OnProcesses s e k t) (h : Timely s)
    (hclock : e = .clock → s.elapsed_clock_ticks < LONG_MAX) (hq : q ≠ s.current)
    (hal : (s.desc q).allocated = true) (helig : s.eligible q) :
    (t.desc q).allocated = true ∧ t.eligible q := by
  have hle : q ≤ s.max_pid := by
    by_contra hlt
    rw [h.sane.asleep.fresh q (not_le.mp hlt)] at hal
    cases hal
  have hold : q ≠ s.max_pid + 1 := ne_of_lt (Nat.lt_succ_of_le hle)
  have htimes := hp.times h hclock
  have hdue : (t.desc q).wake_up_time ≤ t.elapsed_clock_ticks := by
    rw [htimes.wake q hle fun hd => hq hd.1]
    exact helig.2.trans htimes.clock
  have hstate : (t.desc q).allocated = true ∧ (t.desc q).state = .RUNNING := by
    cases hp with
    | synced synced =>
      refine ⟨?_, ?_⟩
      · rw [synced.desc]
        exact hal
      · rcases synced.state q with hs | ⟨hs, -⟩ | ⟨hc, -⟩
        · exact hs.trans helig.1
        · exact hs
        · exact absurd hc hq
    | quiet quiet _ _ _ =>
      refine ⟨?_, (quiet.state q).trans helig.1⟩
      rcases quiet.allocated q with hs | ⟨-, hs⟩
      · exact hs.trans hal
      · rw [helig.1] at hs
        cases hs
    | noMemory => exact ⟨hal, helig.1⟩
    | @fork s₁ tree procs leader made child listed =>
      subst made
      exact ⟨(congrArg Descriptor.allocated (newProcess_desc_of_ne hold _ _)).trans hal,
        (congrArg Descriptor.state (newProcess_desc_of_ne hold _ _)).trans helig.1⟩
    | @createThread s₁ groups procs leader made peer listed =>
      subst made
      exact ⟨(congrArg Descriptor.allocated (newProcess_desc_of_ne hold _ _)).trans hal,
        (congrArg Descriptor.state (newProcess_desc_of_ne hold _ _)).trans helig.1⟩
  exact ⟨hstate.1, hstate.2, hdue⟩

/-- A handler that does not put the running process to sleep has left it alone. -/
theorem Effect.awake_caller (he : Effect s e k t) (hk : k ≠ .user) (hq : k.queue = none) :
    Quiet s e t := by
  cases he with
  | quiet quiet _ _ _ => exact quiet
  | noMemory => exact absurd rfl hk
  | fork _ _ _ _ => exact absurd rfl hk
  | createThread _ _ _ _ => exact absurd rfl hk
  | acquire _ acquire =>
    cases acquire with
    | again _ => exact absurd rfl hk
    | take _ => exact absurd rfl hk
    | block cvar _ => cases hq
  | release _ _ => exact absurd rfl hk
  | cvarWait _ _ _ _ _ _ => cases hq
  | waitFails _ _ _ _ acquire =>
    cases acquire with
    | again _ => exact absurd rfl hk
    | take _ => exact absurd rfl hk
    | block cvar _ => cases hq
  | signal _ _ _ => exact absurd rfl hk
  | readSleep _ _ => cases hq
  | read _ _ => exact absurd rfl hk
  | receive _ => exact absurd rfl hk
  | turnSleep _ _ => cases hq
  | writeSleep _ _ => cases hq
  | writeEnd _ _ => exact absurd rfl hk
  | finished _ => exact absurd rfl hk

/-- A `cvarWait` that gets a node opens the mutex, and sleeps. -/
theorem cvarWait_eq {cvar_id mutex_id : Int} {c : Nat} (hhead : mallocs.head? ≠ some false)
    (hc : Located s cvar_id .RESOURCE_CVAR c) (hm : Located s mutex_id .RESOURCE_MUTEX m) :
    cvarWait mallocs cvar_id mutex_id s = .schedule (.cvarWait c mutex_id)
      (sleepOnWaitQueue (.cvar c) true (openMutex m s)) := by
  obtain ⟨r, hr, hl⟩ := hc
  rw [cvarWait_queued hr hm hhead, hl]

/-- Who sleeps on the mutex that the call releases is woken. -/
theorem Timely.woken (h : Timely s) (c : Nat) (hq : s.queue (.mutex m) ≠ []) :
    ∃ q, ((sleepOnWaitQueue (.cvar c) true (openMutex m s)).desc q).allocated = true ∧
      (sleepOnWaitQueue (.cvar c) true (openMutex m s)).eligible q := by
  cases hqueue : s.queue (.mutex m) with
  | nil => exact absurd hqueue hq
  | cons node rest =>
    have hn : node ∈ s.queue (.mutex m) := by
      rw [hqueue]
      exact List.mem_cons_self
    obtain ⟨hst, hal, -⟩ := h.sane.asleep.named _ node hn
    have hne := h.sane.awake.not_mem h.sane.asleep hn
    have hsynced := openMutex_synced m s
    have hrunning : ((openMutex m s).desc node.process).state = .RUNNING := by
      have hasleep : Asleep { s.setMutex m ⟨false, none⟩ with
          locks := s.locks ++ [.released s.current m] } :=
        h.sane.asleep.congr rfl rfl rfl (le_refl _) rfl
      have hwakes := (hasleep.signal_wakes (w := .mutex m) (by simp)).2 node.process
      unfold openMutex signalWaitQueue
      rw [hwakes]
      have hhead : ({ s.setMutex m ⟨false, none⟩ with
          locks := s.locks ++ [.released s.current m] } : Sys).queue (.mutex m) = node :: rest := hqueue
      rw [hhead]
      simp
    have hne' : node.process ≠ (openMutex m s).current := by
      rw [hsynced.current]
      exact hne
    have hclock : (openMutex m s).elapsed_clock_ticks = s.elapsed_clock_ticks := by
      rw [hsynced.same]
    have hdesc : (sleepOnWaitQueue (.cvar c) true (openMutex m s)).desc node.process =
        (openMutex m s).desc node.process := sleep_desc_of_ne _ _ _ hne'
    refine ⟨node.process, ?_, ?_, ?_⟩
    · rw [hdesc, hsynced.desc]
      exact hal
    · rw [hdesc]
      exact hrunning
    · change _ ≤ (openMutex m s).elapsed_clock_ticks
      rw [hdesc, hsynced.desc, hclock]
      exact h.waiting _ hal hst

/-- An exit does not call `schedule`. -/
theorem Sane.effect (h : Sane s) (hcall : handle n s e = .schedule k t) : k ≠ .user ∧ Effect s e k t := by
  have he : ∀ status, e ≠ .exit status := by
    rintro status rfl
    have hrun : handle n s (.exit status) = killCurrentProcess n status s := rfl
    rw [hrun] at hcall
    rcases killCurrentProcess_cases n status h.awake with hf | ⟨s₁, hs₁⟩
    · rw [hf] at hcall
      cases hcall
    · rw [hs₁] at hcall
      cases hcall
  have heff := handle_effect h.objects n he
  rw [hcall] at heff
  exact heff

/-- **A handler that calls `schedule` leaves somebody to switch to.** -/
theorem Timely.candidate (h : Timely s) (hc : Occupied s e) (hcall : handle n s e = .schedule k t) :
    ∃ q, (t.desc q).allocated = true ∧ t.eligible q := by
  obtain ⟨hk, heff⟩ := h.sane.effect hcall
  by_cases hblocks : Blocks s e
  · rcases hc.ready hblocks with ⟨q, hq, hal, helig⟩ | ⟨m, hrel, hqueue⟩
    · exact ⟨q, heff.processes.other h hc.clock hq hal helig⟩
    · -- only `cvarWait` releases a mutex and sleeps
      cases e with
      | cvarWait mallocs cvar_id mutex_id =>
        obtain ⟨hhead, ⟨c, hcvar⟩, m', hmutex⟩ := hblocks
        have heq := cvarWait_eq hhead hcvar hmutex
        have hrun : handle n s (.cvarWait mallocs cvar_id mutex_id) =
            cvarWait mallocs cvar_id mutex_id s := rfl
        rw [hrun, heq] at hcall
        cases hcall
        rw [hrel.2.unique hmutex] at hqueue
        exact h.woken c hqueue
      | mutexRelease mutex_id => exact hblocks.elim
      | _ => exact hrel.elim
  · -- the running process is ready itself
    have hdelay : ∀ ticks, e ≠ .delay ticks := by
      rintro ticks rfl
      have hrun : handle n s (.delay ticks) = delayProcess ticks s := rfl
      rw [hrun] at hcall
      unfold delayProcess at hcall
      split at hcall
      · cases hcall
      · split at hcall
        · cases hcall
        · rename_i hzero hneg
          exact hblocks (lt_of_le_of_ne (not_lt.mp hneg) (Ne.symm hzero))
    have hqueue : k.queue = none := by
      by_contra hq
      have hsleeps : (handle n s e).sleeps := by
        rw [hcall]
        exact Option.isSome_iff_ne_none.mpr hq
      exact hblocks ((handle_sleeps n s hdelay).mp hsleeps)
    have quiet := heff.awake_caller hk hqueue
    have hrunning := h.sane.awake.running
    have htimes := heff.processes.times h hc.clock
    refine ⟨s.current, ?_, (quiet.state _).trans hrunning, ?_⟩
    · rcases quiet.allocated s.current with hs | ⟨-, hs⟩
      · exact hs.trans h.sane.awake.allocated
      · rw [hrunning] at hs
        cases hs
    · rw [quiet.wake _ (.inr hdelay)]
      exact h.running.trans htimes.clock

theorem timely_boot : Timely bootSys := by
  refine ⟨sane_boot, le_refl _, le_refl _, fun p hal hst => ?_⟩
  rw [bootSys_state] at hst
  cases hst

/-- **The scheduler never goes on for ever, if somebody else is ready whenever the running process
blocks.** -/
theorem scheduler_ends {es : List Event}
    (hrun : Run (fun s e s' => Occupied s e ∧ Step s e s') bootSys es s) (hc : Occupied s e)
    (hcall : handle n s e = .schedule k t) :
    ∃ q, OnList t q ∧ t.eligible q ∧ Schedules t q := by
  have h : Timely s := hrun.invariant (fun _ _ _ h hstep => h.step hstep.1 hstep.2) timely_boot
  obtain ⟨q, hal, helig⟩ := h.candidate hc hcall
  obtain ⟨-, heff⟩ := h.sane.effect hcall
  obtain ⟨l, kids, threads, hl⟩ := h.sane.ordered
  have hw := h.sane.awake
  obtain ⟨l', kids', threads', gone, hl', hm⟩ :=
    heff.processes.moved hl h.sane.asleep hw hc.fair.tidy
  have hcurrent : (t.desc t.current).allocated = true := by
    rw [heff.processes.current, (hm.desc s.current (hw.le_max h.sane.asleep) fun hg => ?_).1]
    · exact hw.allocated
    · have hzombie := (hm.left _ hg).2.1
      rw [hw.running] at hzombie
      cases hzombie
  obtain ⟨r, hr⟩ := hl'.schedules hcurrent hal helig
  exact ⟨r, hr.onList, hr.eligible, hr⟩

/-- The first process has forked a child when it is delayed. -/
theorem child_runs : ∃ s t, Run (fun s e s' => Occupied s e ∧ Step s e s') bootSys [.fork true] s ∧
    handle 8 s (.delay 5) = .schedule (.returns SUCCESS) t ∧
      ∃ q, OnList t q ∧ t.eligible q ∧ Schedules t q := by
  have hcheck : ((exec 8 bootSys (.fork true)).map fun s =>
      (s.current, decide ((s.desc 2).allocated = true ∧ s.eligible 2))) = some (1, true) := by
    decide +kernel
  obtain ⟨s, hs, heq⟩ := Option.map_eq_some_iff.mp hcheck
  rw [Prod.mk.injEq, decide_eq_true_eq] at heq
  have hfork : Occupied bootSys (.fork true) :=
    ⟨reapable_still (n := 8) (fun _ => by simp) rfl, (fun he => by cases he), False.elim⟩
  have hdelay : Occupied s (.delay 5) := by
    refine ⟨reapable_still (n := 8) (fun _ => by simp) rfl, (fun he => by cases he), fun _ => ?_⟩
    refine .inl ⟨2, ?_, heq.2⟩
    rw [heq.1]
    decide
  have hrun : Run (fun s e s' => Occupied s e ∧ Step s e s') bootSys [.fork true] s :=
    .single ⟨hfork, exec_step hs⟩
  exact ⟨s, _, hrun, rfl, scheduler_ends (n := 8) hrun hdelay rfl⟩

end Yalnix.System
