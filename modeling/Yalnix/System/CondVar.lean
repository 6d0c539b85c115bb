import Yalnix.System.Mutex

/-!
# Condition variables

A condition variable is for its callers a queue of processes: `cvarWait` joins it at the end,
`cvarSignal` lets the first go, `cvarBroadcast` all of them.

* `CvarAct`, `waiters` — this queue, from what has been called.
* `Effect.cvar_cases` — what a handler does to the wait queue of a condition variable.
* `cvar_queue_run` — in runs without exits and failing allocations the wait queue is that queue.
* `cvar_run` — no signal is lost.
-/

set_option autoImplicit false

namespace Yalnix.System

open Transition (Run)

variable {s s' t : Sys} {p q : PID} {e : Event} {k : Cont} {c : Nat}

/-! ## The queue of a condition variable -/

/-- A call, as far as one condition variable is concerned. -/
inductive CvarAct where
  | wait (p : PID)
  | signal
  | broadcast
  | other
  deriving DecidableEq, Repr

/-- Who waits after one more call, first come first served. -/
def waiters : List PID → CvarAct → List PID
  | l, .wait p => l ++ [p]
  | l, .signal => l.tail
  | _, .broadcast => []
  | l, .other => l

/-- The object of an identifier. -/
def locate (s : Sys) (id : Int) (type : ResourceType) : Option Nat :=
  (getResourceWithID id type s).bind Resource.location

/-- What an event is for the condition variable `c`.  A `cvarWait` waits if it gets to release a
mutex. -/
def cvarAct (c : Nat) (s : Sys) : Event → CvarAct
  | .cvarWait _ cvar_id mutex_id =>
    if locate s cvar_id .RESOURCE_CVAR = some c ∧ (locate s mutex_id .RESOURCE_MUTEX).isSome then
      .wait s.current
    else .other
  | .cvarSignal cvar_id => if locate s cvar_id .RESOURCE_CVAR = some c then .signal else .other
  | .cvarBroadcast cvar_id => if locate s cvar_id .RESOURCE_CVAR = some c then .broadcast else .other
  | _ => .other

/-! ## Effects on the wait queue -/

theorem openMutex_queue_cvar (m c : Nat) (s : Sys) :
    (openMutex m s).queue (.cvar c) = s.queue (.cvar c) := by
  have hne : WaitQueue.cvar c ≠ .mutex m := nofun
  exact openMutex_queue_of_ne hne

/-- What an effect does to the wait queue of a condition variable. -/
inductive OnCvar (s : Sys) (e : Event) (c : Nat) (t : Sys) : Prop
  | same (queue : t.queue (.cvar c) = s.queue (.cvar c))
  | wait {mallocs : List Bool} {cvar_id mutex_id : Int} {m : Nat}
      (call : e = .cvarWait mallocs cvar_id mutex_id) (located : Located s cvar_id .RESOURCE_CVAR c)
      (mutex : Located s mutex_id .RESOURCE_MUTEX m)
      (ends : t = sleepOnWaitQueue (.cvar c) true (openMutex m s))
  | signal {cvar_id : Int} (call : e = .cvarSignal cvar_id)
      (located : Located s cvar_id .RESOURCE_CVAR c)
      (ends : t = signalWaitQueueWithOptions (.cvar c) true s)
  | broadcast {cvar_id : Int} (call : e = .cvarBroadcast cvar_id)
      (located : Located s cvar_id .RESOURCE_CVAR c)
      (ends : t = signalWaitQueueWithOptions (.cvar c) false s)

theorem Effect.cvar_cases (he : Effect s e k t) (c : Nat) : OnCvar s e c t := by
  cases he with
  | quiet quiet _ _ _ =>
    refine .same ?_
    rw [quiet.same]
  | noMemory => exact .same rfl
  | fork leader made child listed =>
    subst made
    exact .same rfl
  | createThread leader made peer listed =>
    subst made
    exact .same rfl
  | acquire made acquire =>
    cases acquire with
    | again _ => exact .same rfl
    | take _ => exact .same rfl
    | block cvar locked => exact .same (sleep_queue_of_ne _ _ _ nofun)
  | @release m event made => exact .same (openMutex_queue_cvar m c s)
  | @cvarWait m c' mallocs cvar_id mutex_id call located event made cmade =>
    rcases eq_or_ne c c' with rfl | hc
    · subst call
      exact .wait rfl located event.2 rfl
    · have hne : WaitQueue.cvar c ≠ .cvar c' := by simpa using hc
      have hopen := openMutex_queue_cvar m c s
      exact .same ((sleep_queue_of_ne _ _ _ hne).trans hopen)
  | @waitFails m m' _ _ event made made' malloc acquire =>
    have hopen := openMutex_queue_cvar m' c s
    cases acquire with
    | again _ => exact .same hopen
    | take _ => exact .same hopen
    | block cvar locked =>
      have hne : WaitQueue.cvar c ≠ .mutex m := nofun
      exact .same ((sleep_queue_of_ne _ _ _ hne).trans hopen)
  | @signal c' cvar_id exclusive call located =>
    rcases eq_or_ne c c' with rfl | hc
    · cases exclusive with
      | true => exact .signal call located rfl
      | false => exact .broadcast call located rfl
    · have hne : WaitQueue.cvar c ≠ .cvar c' := by simpa using hc
      exact .same (signal_queue_of_ne _ _ _ hne)
  | readSleep u_length drained => exact .same (sleep_queue_of_ne _ _ _ nofun)
  | read ready run =>
    obtain ⟨bytes, -, -, -, rfl⟩ := ttyReadChunk_some run
    exact .same (signal_queue_of_ne _ _ _ nofun)
  | receive _ =>
    unfold ttyReadBegin
    split
    · exact .same rfl
    · split
      · exact .same rfl
      · exact .same (signal_queue_of_ne _ _ _ nofun)
  | turnSleep buffer busy => exact .same (sleep_queue_of_ne _ _ _ nofun)
  | writeSleep writing more =>
    rw [writing.same]
    exact .same (sleep_queue_of_ne _ _ _ nofun)
  | writeEnd writing done =>
    rw [writing.same]
    exact .same rfl
  | @finished tty _ =>
    have hne : WaitQueue.cvar c ≠ .tty_write tty := nofun
    exact .same (ttyWriteFinished_queue_of_ne hne _)

/-! ## The calls -/

theorem cvarSignal_cases (cvar_id : Int) (s : Sys) :
    cvarSignal cvar_id s = .ret ERROR s ∧ locate s cvar_id .RESOURCE_CVAR = none ∨
      cvarSignal cvar_id s = .fault ∨ ∃ c, locate s cvar_id .RESOURCE_CVAR = some c ∧
        cvarSignal cvar_id s = .ret SUCCESS (signalWaitQueueWithOptions (.cvar c) true s) := by
  unfold cvarSignal locate
  cases getResourceWithID cvar_id .RESOURCE_CVAR s with
  | none => exact .inl ⟨rfl, rfl⟩
  | some r =>
    rw [Option.bind_some]
    dsimp only
    cases r.location with
    | none => exact .inr (.inl rfl)
    | some c => exact .inr (.inr ⟨c, rfl, rfl⟩)

theorem cvarBroadcast_cases (cvar_id : Int) (s : Sys) :
    cvarBroadcast cvar_id s = .ret ERROR s ∧ locate s cvar_id .RESOURCE_CVAR = none ∨
      cvarBroadcast cvar_id s = .fault ∨ ∃ c, locate s cvar_id .RESOURCE_CVAR = some c ∧
        cvarBroadcast cvar_id s = .ret SUCCESS (signalWaitQueueWithOptions (.cvar c) false s) := by
  unfold cvarBroadcast locate
  cases getResourceWithID cvar_id .RESOURCE_CVAR s with
  | none => exact .inl ⟨rfl, rfl⟩
  | some r =>
    rw [Option.bind_some]
    dsimp only
    cases r.location with
    | none => exact .inr (.inl rfl)
    | some c => exact .inr (.inr ⟨c, rfl, rfl⟩)

/-- A `cvarWait` that has released the mutex is on the queue when it calls `schedule`. -/
theorem cvarWait_cases {mallocs : List Bool} (hm : false ∉ mallocs) (cvar_id mutex_id : Int) (s : Sys) :
    cvarWait mallocs cvar_id mutex_id s = .ret ERROR s ∧
        (locate s cvar_id .RESOURCE_CVAR = none ∨ locate s mutex_id .RESOURCE_MUTEX = none) ∨
      cvarWait mallocs cvar_id mutex_id s = .fault ∨
      ∃ c m, locate s cvar_id .RESOURCE_CVAR = some c ∧ locate s mutex_id .RESOURCE_MUTEX = some m ∧
        cvarWait mallocs cvar_id mutex_id s =
          .schedule (.cvarWait c mutex_id) (sleepOnWaitQueue (.cvar c) true (openMutex m s)) := by
  unfold cvarWait mutexRelease locate
  cases getResourceWithID cvar_id .RESOURCE_CVAR s with
  | none => exact .inl ⟨rfl, .inl rfl⟩
  | some r =>
    cases getResourceWithID mutex_id .RESOURCE_MUTEX s with
    | none => exact .inl ⟨rfl, .inr rfl⟩
    | some r' =>
      rw [Option.bind_some, Option.bind_some]
      dsimp only
      cases r'.location with
      | none => exact .inr (.inl rfl)
      | some m =>
        dsimp only
        rw [if_neg (by decide)]
        cases mallocs with
        | nil =>
          cases r.location with
          | none => exact .inr (.inl rfl)
          | some c => exact .inr (.inr ⟨c, m, rfl, rfl, rfl⟩)
        | cons b mallocs =>
          cases b with
          | false => exact absurd List.mem_cons_self hm
          | true =>
            cases r.location with
            | none => exact .inr (.inl rfl)
            | some c => exact .inr (.inr ⟨c, m, rfl, rfl, rfl⟩)

/-! ## Steps -/

/-- The waiting processes of a condition variable, in order. -/
def cvarQueue (s : Sys) (c : Nat) : List PID := (s.queue (.cvar c)).map WaitQueueNode.process

/-- What the calls do, and to which processes. -/
structure CvarStep (s : Sys) (e : Event) (s' : Sys) (c : Nat) : Prop where
  queue : cvarQueue s' c = waiters (cvarQueue s c) (cvarAct c s e)
  wait : cvarAct c s e = .wait s.current → (s'.desc s.current).state = .WAITING
  signal : cvarAct c s e = .signal → ∀ p, (s'.desc p).state =
    if p ∈ (cvarQueue s c).head? then .RUNNING else (s.desc p).state
  broadcast : cvarAct c s e = .broadcast → ∀ p, (s'.desc p).state =
    if p ∈ cvarQueue s c then .RUNNING else (s.desc p).state

theorem cvarQueue_sleep (s : Sys) (c : Nat) :
    cvarQueue (sleepOnWaitQueue (.cvar c) true s) c = cvarQueue s c ++ [s.current] := by
  unfold cvarQueue
  rw [sleep_queue_self]
  exact List.map_append

/-- It is enough to look at what the handler leaves. -/
theorem cvarStep_of_ends {o : Outcome} (hends : Ends o s')
    (ho : o.Has fun _ t => CvarStep s e t c) : CvarStep s e s' c := by
  cases hends with
  | ret => exact ⟨ho.queue, ho.wait, ho.signal, ho.broadcast⟩
  | schedule next => exact ⟨ho.2.queue, ho.2.wait, ho.2.signal, ho.2.broadcast⟩
  | switched => exact ho.elim

theorem cvarStep_other (hact : cvarAct c s e = .other) (hq : t.queue (.cvar c) = s.queue (.cvar c)) :
    CvarStep s e t c := by
  constructor
  · rw [hact]
    unfold cvarQueue
    rw [hq]
    rfl
  · intro h
    rw [hact] at h
    cases h
  · intro h
    rw [hact] at h
    cases h
  · intro h
    rw [hact] at h
    cases h

theorem cvarSignal_step (ha : Alive s) (cvar_id : Int) (c : Nat) :
    (cvarSignal cvar_id s).Has fun _ t => CvarStep s (.cvarSignal cvar_id) t c := by
  have hact : cvarAct c s (.cvarSignal cvar_id) =
    if locate s cvar_id .RESOURCE_CVAR = some c then .signal else .other := rfl
  rcases cvarSignal_cases cvar_id s with ⟨ho, hl⟩ | ho | ⟨c', hl, ho⟩
  · rw [ho]
    rw [hl, if_neg nofun] at hact
    exact cvarStep_other hact rfl
  · rw [ho]
    exact True.intro
  · rw [ho]
    rw [hl] at hact
    rcases eq_or_ne c' c with rfl | hc
    · rw [if_pos rfl] at hact
      obtain ⟨htail, hstate⟩ := ha.asleep.signal_wakes (w := .cvar c') nofun
      constructor
      · rw [hact]
        unfold cvarQueue
        rw [htail, List.map_tail]
        rfl
      · intro h
        rw [hact] at h
        cases h
      · intro _ p
        unfold cvarQueue
        rw [List.head?_map]
        exact hstate p
      · intro h
        rw [hact] at h
        cases h
    · rw [if_neg (by simpa using hc)] at hact
      have hne : WaitQueue.cvar c ≠ .cvar c' := by simpa using hc.symm
      exact cvarStep_other hact (signal_queue_of_ne _ _ _ hne)

theorem cvarBroadcast_step (cvar_id : Int) (s : Sys) (c : Nat) :
    (cvarBroadcast cvar_id s).Has fun _ t => CvarStep s (.cvarBroadcast cvar_id) t c := by
  have hact : cvarAct c s (.cvarBroadcast cvar_id) =
    if locate s cvar_id .RESOURCE_CVAR = some c then .broadcast else .other := rfl
  rcases cvarBroadcast_cases cvar_id s with ⟨ho, hl⟩ | ho | ⟨c', hl, ho⟩
  · rw [ho]
    rw [hl, if_neg nofun] at hact
    exact cvarStep_other hact rfl
  · rw [ho]
    exact True.intro
  · rw [ho]
    rw [hl] at hact
    rcases eq_or_ne c' c with rfl | hc
    · rw [if_pos rfl] at hact
      constructor
      · rw [hact]
        unfold cvarQueue
        rw [signal_queue_self, splitWoken_broadcast]
        rfl
      · intro h
        rw [hact] at h
        cases h
      · intro h
        rw [hact] at h
        cases h
      · intro _ p
        rw [signal_desc, wake_state, splitWoken_broadcast]
        rfl
    · rw [if_neg (by simpa using hc)] at hact
      have hne : WaitQueue.cvar c ≠ .cvar c' := by simpa using hc.symm
      exact cvarStep_other hact (signal_queue_of_ne _ _ _ hne)

theorem cvarWait_step {mallocs : List Bool} (hm : false ∉ mallocs) (cvar_id mutex_id : Int) (s : Sys)
    (c : Nat) : (cvarWait mallocs cvar_id mutex_id s).Has
      fun _ t => CvarStep s (.cvarWait mallocs cvar_id mutex_id) t c := by
  have hact : cvarAct c s (.cvarWait mallocs cvar_id mutex_id) =
    if locate s cvar_id .RESOURCE_CVAR = some c ∧ (locate s mutex_id .RESOURCE_MUTEX).isSome then
      .wait s.current else .other := rfl
  rcases cvarWait_cases hm cvar_id mutex_id s with ⟨ho, hl⟩ | ho | ⟨c', m, hl, hmutex, ho⟩
  · rw [ho]
    have hno : ¬ (locate s cvar_id .RESOURCE_CVAR = some c ∧
        (locate s mutex_id .RESOURCE_MUTEX).isSome) := by
      rintro ⟨hcvar, hmutex⟩
      rcases hl with hl | hl
      · rw [hl] at hcvar
        cases hcvar
      · rw [hl] at hmutex
        cases hmutex
    rw [if_neg hno] at hact
    exact cvarStep_other hact rfl
  · rw [ho]
    exact True.intro
  · rw [ho]
    rw [hl, hmutex] at hact
    refine ⟨nofun, ?_⟩
    have hopen := fun c => openMutex_queue_cvar m c s
    rcases eq_or_ne c' c with rfl | hc
    · rw [if_pos ⟨rfl, rfl⟩] at hact
      constructor
      · rw [hact, cvarQueue_sleep, openMutex_current]
        unfold cvarQueue
        rw [hopen]
        rfl
      · intro _
        rw [sleep_desc, openMutex_current, Function.update_self]
      · intro h
        rw [hact] at h
        cases h
      · intro h
        rw [hact] at h
        cases h
    · rw [if_neg (by simpa using hc)] at hact
      have hne : WaitQueue.cvar c ≠ .cvar c' := by simpa using hc.symm
      exact cvarStep_other hact ((sleep_queue_of_ne _ _ _ hne).trans (hopen c))

/-- **Each call does to the queue what its name says, and wakes whom it takes off the queue.** -/
theorem Peaceful.cvarStep (h : Peaceful s e s') (ha : Alive s) (hnodes : false ∉ e.nodes) (c : Nat) :
    CvarStep s e s' c := by
  have hleads := h.leads ha
  obtain ⟨⟨-, n, hends⟩, -⟩ := h
  have hother : cvarAct c s e = .other → (∀ t, OnCvar s e c t → t.queue (.cvar c) = s.queue (.cvar c)) →
      CvarStep s e s' c := by
    intro hact hsame
    refine cvarStep_other hact ?_
    refine hleads.keeps (J := fun t => t.queue (.cvar c) = s.queue (.cvar c)) (fun _ _ hq => hq) ?_
    intro k t he
    exact hsame t (he.cvar_cases c)
  cases e with
  | cvarSignal cvar_id => exact cvarStep_of_ends hends (cvarSignal_step ha cvar_id c)
  | cvarBroadcast cvar_id => exact cvarStep_of_ends hends (cvarBroadcast_step cvar_id s c)
  | cvarWait mallocs cvar_id mutex_id =>
    exact cvarStep_of_ends hends (cvarWait_step hnodes cvar_id mutex_id s c)
  | _ =>
    refine hother rfl fun t ht => ?_
    cases ht with
    | same queue => exact queue
    | wait call _ _ _ => cases call
    | signal call _ _ => cases call
    | broadcast call _ _ => cases call

/-! ## Returning -/

/-- Where a process inside `cvarWait` will go on, with the mutex it will acquire. -/
def InCvarWait (s : Sys) (m : Nat) : Cont → Prop
  | .cvarWait _ mutex_id => Located s mutex_id .RESOURCE_MUTEX m
  | .mutexAcquire m' cvar => m' = m ∧ cvar.isSome
  | _ => False

/-- A process holds the mutex. -/
def Holds (s : Sys) (p : PID) (m : Nat) : Prop :=
  (s.mutex m).locked = true ∧ (s.mutex m).current_owner = some p

theorem takeMutex_holds (m : Nat) (s : Sys) : Holds (takeMutex m s) s.current m := by
  unfold Holds takeMutex Sys.setMutex
  dsimp only
  rw [Function.update_self]
  exact ⟨rfl, rfl⟩

theorem mutexAcquireLoop_holds {m : Nat} {cvar : Option Nat} {mallocs : List Bool} {r : Int}
    (h : mutexAcquireLoop m cvar mallocs s = .ret r t) : Holds t s.current m := by
  rcases mutexAcquireLoop_cases m cvar mallocs s with ⟨-, ho⟩ | ⟨-, ho⟩
  · rw [ho] at h
    cases h
    exact takeMutex_holds m s
  · rw [ho] at h
    cases h

/-- `mutexAcquire` returns successfully only to the owner. -/
theorem mutexAcquire_holds (hl : OwnersLocked s) {m : Nat} {mutex_id : Int} {cvar : Option Nat}
    {mallocs : List Bool} {r : Int} (hm : Located s mutex_id .RESOURCE_MUTEX m)
    (h : mutexAcquire mallocs mutex_id cvar s = .ret r t) : Holds t s.current m := by
  obtain ⟨resource, hr, hloc⟩ := hm
  unfold mutexAcquire at h
  rw [hr] at h
  dsimp only at h
  rw [hloc] at h
  dsimp only at h
  split at h
  · rename_i howner
    cases h
    exact ⟨hl m _ howner, howner⟩
  · exact mutexAcquireLoop_holds h

/-- The process is in `cvarWait`. -/
def Cont.inCvarWait : Cont → Prop
  | .cvarWait _ _ => True
  | .mutexAcquire _ cvar => cvar.isSome
  | _ => False

/-- **`cvarWait` returns to the owner of the mutex.** -/
theorem cvarWait_returns (hl : OwnersLocked s) {n : Nat} {mallocs : List Bool} {r : Int}
    (hk : (s.cont s.current).inCvarWait) (h : handle n s (.resume mallocs) = .ret r t)
    (hr : r ≠ ERROR) : ∃ m, InCvarWait s m (s.cont s.current) ∧ Holds t s.current m := by
  have hrun : resume n mallocs s (s.cont s.current) = .ret r t := h
  cases hcont : s.cont s.current with
  | cvarWait c mutex_id =>
    rw [hcont] at hrun
    have hacquire : mutexAcquire mallocs mutex_id (some c) s = .ret r t := hrun
    cases hget : getResourceWithID mutex_id .RESOURCE_MUTEX s with
    | none =>
      unfold mutexAcquire at hacquire
      rw [hget] at hacquire
      cases hacquire
      exact absurd rfl hr
    | some resource =>
      cases hloc : resource.location with
      | none =>
        unfold mutexAcquire at hacquire
        rw [hget] at hacquire
        dsimp only at hacquire
        rw [hloc] at hacquire
        cases hacquire
      | some m =>
        have hm : Located s mutex_id .RESOURCE_MUTEX m := ⟨resource, hget, hloc⟩
        exact ⟨m, hm, mutexAcquire_holds hl hm hacquire⟩
  | mutexAcquire m cvar =>
    rw [hcont] at hk hrun
    exact ⟨m, ⟨rfl, hk⟩, mutexAcquireLoop_holds hrun⟩
  | _ =>
    rw [hcont] at hk
    exact hk.elim

/-! ## Runs -/

/-- A step of a process, with the state it is made in; no process exits, and no wait queue is short
of a node. -/
def Traced (s : Sys) (a : Sys × Event) (s' : Sys) : Prop :=
  a.1 = s ∧ false ∉ a.2.nodes ∧ Peaceful s a.2 s'

/-- What has been called so far on the condition variable `c`. -/
def cvarActs (c : Nat) (trace : List (Sys × Event)) : List CvarAct :=
  trace.map fun a => cvarAct c a.1 a.2

structure CvarInv (s : Sys) : Prop where
  alive : Alive s
  owners : OwnersLocked s

theorem CvarInv.step (h : CvarInv s) {a : Sys × Event} (hstep : Traced s a s') : CvarInv s' := by
  refine ⟨h.alive.step hstep.2.2, ?_⟩
  refine (hstep.2.2.leads h.alive).keeps (J := OwnersLocked) (fun _ _ hJ => hJ) fun k t he => ?_
  have howners := h.owners.effect he
  exact howners

theorem cvarInv_boot : CvarInv bootSys := ⟨alive_boot, fun m p hp => by cases hp⟩

/-- **The wait queue is the queue of the processes that wait, in the order of their calls.** -/
theorem cvar_queue_run {trace : List (Sys × Event)} (h : Run Traced s trace t) (hs : CvarInv s)
    (c : Nat) : cvarQueue t c = (cvarActs c trace).foldl waiters (cvarQueue s c) := by
  induction h with
  | nil => rfl
  | cons head _ ih =>
    obtain ⟨hstate, hnodes, hpeaceful⟩ := head
    have hstep := hpeaceful.cvarStep hs.alive hnodes c
    rw [ih (hs.step ⟨hstate, hnodes, hpeaceful⟩), hstep.queue, ← hstate]
    rfl

/-- **No signal on a condition variable is lost.** -/
theorem cvar_run : ∀ trace s, Run Traced bootSys trace s → ∀ c,
    cvarQueue s c = (cvarActs c trace).foldl waiters [] ∧
    (∀ e s', Traced s (s, e) s' → CvarStep s e s' c) ∧
    (∀ p ∈ cvarQueue s c, (s.desc p).state = .WAITING ∧ (s.cont p).queue = some (.cvar c)) ∧
    (∀ n mallocs cvar_id mutex_id r t, false ∉ mallocs →
      handle n s (.cvarWait mallocs cvar_id mutex_id) = .ret r t → r = ERROR) ∧
    ∀ n mallocs r t, (s.cont s.current).inCvarWait → handle n s (.resume mallocs) = .ret r t →
      r ≠ ERROR → ∃ m, InCvarWait s m (s.cont s.current) ∧ Holds t s.current m := by
  intro trace s h c
  have hinv := h.invariant (P := CvarInv) (fun _ _ _ hs hstep => hs.step hstep) cvarInv_boot
  refine ⟨cvar_queue_run h cvarInv_boot c, fun e s' hstep => ?_, fun p hp => ?_,
    fun n mallocs cvar_id mutex_id r t hm hrun => ?_,
    fun n mallocs r t hk hrun hr => cvarWait_returns hinv.owners hk hrun hr⟩
  · exact hstep.2.2.cvarStep hinv.alive hstep.2.1 c
  · obtain ⟨node, hn, rfl⟩ := List.mem_map.mp hp
    obtain ⟨hstate, -, hcont⟩ := hinv.alive.asleep.named _ node hn
    exact ⟨hstate, hcont⟩
  · have hwait : cvarWait mallocs cvar_id mutex_id s = .ret r t := hrun
    rcases cvarWait_cases hm cvar_id mutex_id s with ⟨ho, -⟩ | ho | ⟨c, m, -, -, ho⟩
    · rw [ho] at hwait
      cases hwait
      rfl
    · rw [ho] at hwait
      cases hwait
    · rw [ho] at hwait
      cases hwait

/-! ## Two waiters and a signal -/

/-- A run of `es`, each event with the state it happens in. -/
def trace (n : Nat) : Sys → List Event → List (Sys × Event)
  | _, [] => []
  | s, e :: es => (s, e) :: trace n ((exec n s e).getD s) es

theorem traced_run {n : Nat} : ∀ {es : List Event} {s t : Sys}, execAll n s es = some t →
    (∀ e ∈ es, false ∉ e.nodes ∧ ∀ status, e ≠ .exit status) → Run Traced s (trace n s es) t
  | [], s, t, h, _ => by
    cases h
    exact .nil
  | e :: es, s, t, h, hes => by
    unfold execAll at h
    obtain ⟨u, hu, h⟩ := Option.bind_eq_some_iff.mp h
    have hhead := hes e List.mem_cons_self
    have hnext : (exec n s e).getD s = u := by rw [hu]; rfl
    unfold trace
    rw [hnext]
    refine .cons ⟨rfl, hhead.1, exec_step hu, hhead.2⟩ (traced_run h fun x hx => ?_)
    exact hes x (List.mem_cons_of_mem _ hx)

/-- Processes 2 and 3 wait, and process 1 signals. -/
def signalTwo : List Event :=
  [.mutexInitialize true true, .cvarInitialize true true, .fork true, .fork true, .clock, .resume [],
    .cvarWait [] 2 1, .resume [], .cvarWait [] 2 1, .resume [], .cvarSignal 2]

/-- The process that has waited longest is awake, and the other one waits. -/
theorem cvar_run_signal : ∃ s, cvarQueue s 1 = [3] ∧
    cvarQueue s 1 = (cvarActs 1 (trace 8 bootSys signalTwo)).foldl waiters [] ∧
    (s.desc 3).state = .WAITING ∧ (s.desc 2).state = .RUNNING := by
  have hrun : ((execAll 8 bootSys signalTwo).map fun s => (cvarQueue s 1, (s.desc 2).state)) =
      some ([3], .RUNNING) := by
    decide +kernel
  obtain ⟨s, hs, heq⟩ := Option.map_eq_some_iff.mp hrun
  rw [Prod.mk.injEq] at heq
  have hevents : ∀ e ∈ signalTwo, false ∉ e.nodes ∧ ∀ status, e ≠ .exit status := by
    simp [signalTwo, Event.nodes]
  have hall := cvar_run _ s (traced_run hs hevents) 1
  refine ⟨s, heq.1, hall.1, (hall.2.2.1 3 ?_).1, heq.2⟩
  rw [heq.1]
  exact List.mem_cons_self

end Yalnix.System
