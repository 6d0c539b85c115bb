import Yalnix.System.Alive

/-!
# Mutexes

* `Exclusive` — between two acquisitions of a mutex by different processes, the first releases it.
* `Owned.step` — that stays so where locked mutexes are released by their owners.
* `Attended` — while a mutex is unlocked and processes sleep on its queue, one that has been woken is
  about to try.
* `attended_run` — this holds in all runs without exits and without failing allocations.
-/

set_option autoImplicit false

namespace Yalnix.System

open Transition (Run)

variable {s s' t : Sys} {p q : PID} {e : Event} {k : Cont} {m : Nat} {log : List LockAct}

/-! ## The log -/

/-- Once `p` has acquired `m`, no other process does until `p` has released it. -/
def Exclusive (log : List LockAct) : Prop :=
  ∀ l₁ l₂ l₃ p q m, log = l₁ ++ .acquired p m :: (l₂ ++ .acquired q m :: l₃) → q ≠ p →
    .released p m ∈ l₂

/-- `p` has acquired `m` and has not released it since. -/
def Holding (log : List LockAct) (p : PID) (m : Nat) : Prop :=
  ∃ l₁ l₂, log = l₁ ++ .acquired p m :: l₂ ∧ .released p m ∉ l₂

theorem holding_append {a : LockAct} (h : Holding (log ++ [a]) p m) :
    a = .acquired p m ∨ Holding log p m ∧ a ≠ .released p m := by
  obtain ⟨l₁, l₂, heq, hnot⟩ := h
  rcases List.eq_nil_or_concat l₂ with rfl | ⟨l, b, rfl⟩
  · have := (List.append_inj' heq rfl).2
    exact .inl (List.cons.inj this).1
  · rw [List.concat_eq_append] at heq hnot
    have hsplit : log ++ [a] = (l₁ ++ .acquired p m :: l) ++ [b] := by
      rw [heq, List.append_assoc, List.cons_append]
    obtain ⟨hlog, hab⟩ := List.append_inj' hsplit rfl
    have hab' := (List.cons.inj hab).1
    subst hab'
    rw [List.mem_append, not_or] at hnot
    refine .inr ⟨⟨l₁, l, hlog, hnot.1⟩, ?_⟩
    rintro rfl
    exact hnot.2 List.mem_cons_self

/-- One more act keeps a log exclusive if it is no acquisition of what another process holds. -/
theorem Exclusive.append {a : LockAct} (h : Exclusive log)
    (ha : ∀ q m, a = .acquired q m → ∀ p, Holding log p m → p = q) : Exclusive (log ++ [a]) := by
  intro l₁ l₂ l₃ p q m heq hne
  rcases List.eq_nil_or_concat l₃ with rfl | ⟨l, b, rfl⟩
  · have hsplit : log ++ [a] = (l₁ ++ .acquired p m :: l₂) ++ [.acquired q m] := by
      rw [heq, List.append_assoc, List.cons_append]
    obtain ⟨hlog, hlast⟩ := List.append_inj' hsplit rfl
    by_contra hnot
    exact hne (ha q m (List.cons.inj hlast).1 p ⟨l₁, l₂, hlog, hnot⟩).symm
  · have hsplit : log ++ [a] = (l₁ ++ .acquired p m :: (l₂ ++ .acquired q m :: l)) ++ [b] := by
      rw [heq, List.concat_eq_append]
      simp
    exact h l₁ l₂ l p q m (List.append_inj' hsplit rfl).1 hne

/-! ## Owners -/

/-- Mutexes that are not locked have no owner. -/
def OwnersLocked (s : Sys) : Prop :=
  ∀ m p, (s.mutex m).current_owner = some p → (s.mutex m).locked = true

theorem OwnersLocked.acquire (h : OwnersLocked s) (ha : Acquire m s k t) : OwnersLocked t := by
  cases ha with
  | again owner => exact h
  | take unlocked =>
    intro m' p hp
    unfold takeMutex Sys.setMutex at hp ⊢
    dsimp only at hp ⊢
    rcases eq_or_ne m' m with rfl | hne
    · rw [Function.update_self]
    · rw [Function.update_of_ne hne] at hp ⊢
      exact h m' p hp
  | block cvar locked => exact h

theorem openMutex_mutex (m : Nat) (s : Sys) :
    (openMutex m s).mutex = Function.update s.mutex m ⟨false, none⟩ :=
  signal_mutex _ _ _

theorem OwnersLocked.openMutex (h : OwnersLocked s) (m : Nat) : OwnersLocked (openMutex m s) := by
  intro m' p hp
  rw [openMutex_mutex] at hp ⊢
  rcases eq_or_ne m' m with rfl | hne
  · rw [Function.update_self] at hp
    cases hp
  · rw [Function.update_of_ne hne] at hp ⊢
    exact h m' p hp

/-- The lock, its owner and the log agree. -/
structure Owned (s : Sys) : Prop where
  locked : OwnersLocked s
  holder : ∀ p m, Holding s.locks p m → (s.mutex m).current_owner = some p
  exclusive : Exclusive s.locks

theorem Owned.congr (h : Owned s) (hmutex : t.mutex = s.mutex) (hlocks : t.locks = s.locks) :
    Owned t := by
  constructor
  · intro m p
    rw [hmutex]
    exact h.locked m p
  · rw [hlocks, hmutex]
    exact h.holder
  · rw [hlocks]
    exact h.exclusive

theorem Owned.acquire (h : Owned s) (ha : Acquire m s k t) : Owned t := by
  have hacquire := ha
  cases ha with
  | again owner =>
    refine ⟨h.locked, fun p m' hp => ?_, h.exclusive.append fun q m' hq p hp => ?_⟩
    · rcases holding_append hp with he | ⟨hp', -⟩
      · cases he
        exact owner
      · exact h.holder p m' hp'
    · cases hq
      exact Option.some.inj ((h.holder p _ hp).symm.trans owner)
  | take unlocked =>
    -- nobody holds a mutex that is not locked
    have hfree : ∀ p, ¬ Holding s.locks p m := by
      intro p hp
      have := h.locked m p (h.holder p m hp)
      rw [unlocked] at this
      cases this
    refine ⟨h.locked.acquire hacquire, fun p m' hp => ?_, h.exclusive.append fun q m' hq p hp => ?_⟩
    · unfold takeMutex Sys.setMutex
      dsimp only
      rcases holding_append hp with he | ⟨hp', -⟩
      · cases he
        rw [Function.update_self]
      · have hne : m' ≠ m := by
          rintro rfl
          exact hfree p hp'
        rw [Function.update_of_ne hne]
        exact h.holder p m' hp'
    · cases hq
      exact absurd hp (hfree p)
  | block cvar locked => exact h.congr rfl rfl

/-- A release by the owner, or of a mutex that is not locked. -/
theorem Owned.openMutex (h : Owned s)
    (howner : (s.mutex m).locked = true → (s.mutex m).current_owner = some s.current) :
    Owned (openMutex m s) := by
  have hlocks : (System.openMutex m s).locks = s.locks ++ [.released s.current m] :=
    signal_locks _ _ _
  refine ⟨h.locked.openMutex m, fun p m' hp => ?_, ?_⟩
  · rw [hlocks] at hp
    rcases holding_append hp with he | ⟨hp', hne⟩
    · cases he
    · have howns := h.holder p m' hp'
      have hm : m' ≠ m := by
        rintro rfl
        have hp := Option.some.inj ((howner (h.locked m' p howns)).symm.trans howns)
        exact hne (by rw [hp])
      rw [openMutex_mutex, Function.update_of_ne hm]
      exact howns
  · rw [hlocks]
    exact h.exclusive.append fun q m' hq => by cases hq

/-- The mutexes after an effect: unchanged, acquired or released. -/
inductive OnMutexes (s : Sys) (e : Event) : Sys → Prop
  | same {t : Sys} (mutex : t.mutex = s.mutex) (locks : t.locks = s.locks) : OnMutexes s e t
  | acquire {m : Nat} {k : Cont} {t : Sys} (acquire : Acquire m s k t) : OnMutexes s e t
  | release {m : Nat} {t : Sys} (event : Releases s m e) (mutex : t.mutex = (openMutex m s).mutex)
      (locks : t.locks = (openMutex m s).locks) : OnMutexes s e t
  | waitFails {m m' : Nat} {k : Cont} {t : Sys} (event : Releases s m' e)
      (acquire : Acquire m (openMutex m' s) k t) : OnMutexes s e t

theorem Effect.mutexes (he : Effect s e k t) : OnMutexes s e t := by
  cases he with
  | quiet quiet _ _ _ =>
    refine .same ?_ ?_
    · rw [quiet.same]
    · rw [quiet.same]
  | noMemory => exact .same rfl rfl
  | fork leader made child listed =>
    subst made
    exact .same rfl rfl
  | createThread leader made peer listed =>
    subst made
    exact .same rfl rfl
  | acquire made acquire => exact .acquire acquire
  | release event made => exact .release event rfl rfl
  | cvarWait mutex_id _ _ event made cmade => exact .release event rfl rfl
  | waitFails event made made' malloc acquire => exact .waitFails event acquire
  | signal exclusive _ _ => exact .same (signal_mutex _ _ _) (signal_locks _ _ _)
  | readSleep u_length drained => exact .same rfl rfl
  | read ready run =>
    obtain ⟨bytes, -, -, -, rfl⟩ := ttyReadChunk_some run
    exact .same (signal_mutex _ _ _) (signal_locks _ _ _)
  | receive _ =>
    unfold ttyReadBegin
    split
    · exact .same rfl rfl
    · split
      · exact .same rfl rfl
      · exact .same (signal_mutex _ _ _) (signal_locks _ _ _)
  | turnSleep buffer busy => exact .same rfl rfl
  | writeSleep writing more =>
    rw [writing.same]
    exact .same rfl rfl
  | writeEnd writing done =>
    rw [writing.same]
    exact .same rfl rfl
  | finished _ =>
    unfold ttyWriteFinished
    split
    · exact .same rfl rfl
    · exact .same (signal_mutex _ _ _) (signal_locks _ _ _)

theorem OwnersLocked.effect (h : OwnersLocked s) (he : Effect s e k t) : OwnersLocked t := by
  cases he.mutexes with
  | same mutex locks =>
    intro m p
    rw [mutex]
    exact h m p
  | acquire acquire => exact h.acquire acquire
  | release event mutex locks =>
    intro m p
    rw [mutex]
    exact h.openMutex _ m p
  | waitFails event acquire => exact (h.openMutex _).acquire acquire

/-! ## Mutual exclusion -/

/-- A mutex that is locked is released by its owner only. -/
def OwnRelease (s : Sys) (e : Event) : Prop :=
  ∀ m, Releases s m e → (s.mutex m).locked = true → (s.mutex m).current_owner = some s.current

theorem Owned.effect (h : Owned s) (ho : OwnRelease s e) (he : Effect s e k t) : Owned t := by
  cases he.mutexes with
  | same mutex locks => exact h.congr mutex locks
  | acquire acquire => exact h.acquire acquire
  | release event mutex locks => exact (h.openMutex (ho _ event)).congr mutex locks
  | waitFails event acquire => exact (h.openMutex (ho _ event)).acquire acquire

theorem Owned.step (h : Owned s) (hobj : Objects s) (ho : OwnRelease s e) (hstep : Step s e s') :
    Owned s' := by
  by_cases he : ∃ status, e = .exit status
  · obtain ⟨status, rfl⟩ := he
    obtain ⟨t, hkept, hs⟩ := hstep.exit_kept
    have ht : Owned t := by
      unfold Kept at hkept
      rw [hkept]
      exact h.congr rfl rfl
    rcases hs with rfl | ⟨q, rfl⟩
    · exact ht.congr rfl rfl
    · exact ht.congr rfl rfl
  · cases hstep.leads hobj (fun status hs => he ⟨status, hs⟩) with
    | stays effect ends =>
      subst ends
      exact (h.effect ho effect).congr rfl rfl
    | leaves _ effect _ ends =>
      subst ends
      exact (h.effect ho effect).congr rfl rfl

theorem owned_boot : Owned bootSys := by
  refine ⟨fun m p hp => ?_, fun p m hp => ?_, fun l₁ l₂ l₃ p q m heq => ?_⟩
  · cases hp
  · obtain ⟨l₁, l₂, heq, -⟩ := hp
    exact absurd heq.symm (by simp [bootSys, emptySys, Sys.initNodes, Sys.setDesc])
  · exact absurd heq.symm (by simp [bootSys, emptySys, Sys.initNodes, Sys.setDesc])

/-! ## No lost wake-up -/

/-- While a mutex is unlocked and processes sleep on its queue, one is about to test it. -/
def Attended (s : Sys) : Prop := ∀ m, (s.mutex m).locked = false → s.queue (.mutex m) ≠ [] →
  Pending s (.mutex m)

theorem queue_eq_mutex {k : Cont} (h : k.queue = some (.mutex m)) : ∃ cvar, k = .mutexAcquire m cvar := by
  cases k with
  | mutexAcquire m' cvar =>
    cases h
    exact ⟨cvar, rfl⟩
  | _ => cases h

theorem openMutex_mutex_of_ne {m' : Nat} (hm : m' ≠ m) (s : Sys) :
    (openMutex m s).mutex m' = s.mutex m' := by
  rw [openMutex_mutex, Function.update_of_ne hm]

theorem openMutex_current (m : Nat) (s : Sys) : (openMutex m s).current = s.current :=
  signal_current _ _ _

/-- A release wakes the first process of the queue. -/
theorem openMutex_wakes (ha : Asleep s) (m : Nat) :
    (openMutex m s).queue (.mutex m) = (s.queue (.mutex m)).tail ∧
      ∀ node ∈ (s.queue (.mutex m)).head?, ((openMutex m s).desc node.process).state = .RUNNING := by
  have hbase : Asleep { s.setMutex m ⟨false, none⟩ with
      locks := s.locks ++ [.released s.current m] } := ha.congr rfl rfl rfl (le_refl _) rfl
  obtain ⟨htail, hstate⟩ := hbase.signal_wakes (w := .mutex m) nofun
  refine ⟨htail, fun node hn => ?_⟩
  refine (hstate node.process).trans (if_pos ?_)
  exact mem_head_process hn

/-- What an effect does to a mutex and its queue, when no node of a wait queue is missing. -/
theorem Effect.mutex_cases (he : Effect s e k t) (ha : Asleep s) (hw : Awake s)
    (hnodes : false ∉ e.nodes) (m : Nat) :
    t.mutex m = s.mutex m ∧ t.queue (.mutex m) = s.queue (.mutex m) ∨
      (t.mutex m).locked = true ∨
      t.queue (.mutex m) = (s.queue (.mutex m)).tail ∧
        ∀ node ∈ (s.queue (.mutex m)).head?, (t.desc node.process).state = .RUNNING := by
  cases he with
  | quiet quiet _ _ _ =>
    refine .inl ⟨?_, ?_⟩
    · rw [quiet.same]
    · rw [quiet.same]
  | noMemory => exact .inl ⟨rfl, rfl⟩
  | fork leader made child listed =>
    subst made
    exact .inl ⟨rfl, rfl⟩
  | createThread leader made peer listed =>
    subst made
    exact .inl ⟨rfl, rfl⟩
  | @acquire m' _ _ made acquire =>
    rcases eq_or_ne m m' with rfl | hm
    · cases acquire with
      | again _ => exact .inl ⟨rfl, rfl⟩
      | take _ =>
        refine .inr (.inl ?_)
        unfold takeMutex Sys.setMutex
        dsimp only
        rw [Function.update_self]
      | block cvar locked => exact .inr (.inl locked)
    · cases acquire with
      | again _ => exact .inl ⟨rfl, rfl⟩
      | take _ => exact .inl ⟨Function.update_of_ne hm _ _, rfl⟩
      | block cvar locked => exact .inl ⟨rfl, sleep_queue_of_ne _ _ _ (by simpa using hm)⟩
  | @release m' event made =>
    rcases eq_or_ne m m' with rfl | hm
    · exact .inr (.inr (openMutex_wakes ha m))
    · exact .inl ⟨openMutex_mutex_of_ne hm s, openMutex_queue_of_ne (by simpa using hm)⟩
  | @cvarWait m' c _ _ mutex_id _ _ event made cmade =>
    have hqueue := sleep_queue_of_ne (v := .mutex m) (.cvar c) true (openMutex m' s) nofun
    rcases eq_or_ne m m' with rfl | hm
    · obtain ⟨htail, hwoken⟩ := openMutex_wakes ha m
      refine .inr (.inr ⟨hqueue.trans htail, fun node hn => ?_⟩)
      have hne := hw.not_mem ha (List.mem_of_mem_head? hn)
      rw [sleep_desc_of_ne _ _ _ (hne.trans_eq (openMutex_current m s).symm)]
      exact hwoken node hn
    · refine .inl ⟨openMutex_mutex_of_ne hm s, hqueue.trans ?_⟩
      exact openMutex_queue_of_ne (by simpa using hm)
  | waitFails event made made' malloc acquire => exact absurd malloc hnodes
  | signal exclusive _ _ =>
    exact .inl ⟨by rw [signal_mutex], signal_queue_of_ne _ _ _ nofun⟩
  | readSleep u_length drained => exact .inl ⟨rfl, sleep_queue_of_ne _ _ _ nofun⟩
  | read ready run =>
    obtain ⟨bytes, -, -, -, rfl⟩ := ttyReadChunk_some run
    exact .inl ⟨by rw [signalWaitQueue, signal_mutex]; rfl, signal_queue_of_ne _ _ _ nofun⟩
  | receive _ =>
    unfold ttyReadBegin
    split
    · exact .inl ⟨rfl, rfl⟩
    · split
      · exact .inl ⟨rfl, rfl⟩
      · exact .inl ⟨by rw [signalWaitQueue, signal_mutex]; rfl, signal_queue_of_ne _ _ _ nofun⟩
  | turnSleep buffer busy => exact .inl ⟨rfl, sleep_queue_of_ne _ _ _ nofun⟩
  | writeSleep writing more =>
    rw [writing.same]
    exact .inl ⟨rfl, sleep_queue_of_ne _ _ _ nofun⟩
  | writeEnd writing done =>
    rw [writing.same]
    exact .inl ⟨rfl, rfl⟩
  | @finished tty _ =>
    have hne : WaitQueue.mutex m ≠ .tty_write tty := nofun
    refine .inl ⟨?_, ttyWriteFinished_queue_of_ne hne _⟩
    unfold ttyWriteFinished
    split
    · rfl
    · rw [signalWaitQueue, signal_mutex]
      rfl

/-- A process that goes on in the loop of `mutexAcquire` takes the lock or goes back to sleep. -/
theorem Step.retry {m : Nat} {cvar : Option Nat} (h : Step s e s')
    (hk : s.cont s.current = .mutexAcquire m cvar) :
    (s.mutex m).locked = false ∧ s' = (takeMutex m s).setCont s.current .user ∨
      (s.mutex m).locked = true ∧ ∃ q, s' = { (sleepOnWaitQueue (.mutex m) true s).setCont s.current
        (.mutexAcquire m cvar) with current := q } := by
  obtain ⟨mallocs, n, -, hends⟩ := h.resumes (by rw [hk]; nofun)
  rw [hk] at hends
  have hrun : resume n mallocs s (.mutexAcquire m cvar) = mutexAcquireLoop m cvar mallocs s := rfl
  rw [hrun] at hends
  rcases mutexAcquireLoop_cases m cvar mallocs s with ⟨hl, ho⟩ | ⟨hl, ho⟩
  · rw [ho] at hends
    cases hends
    exact .inl ⟨hl, rfl⟩
  · rw [ho] at hends
    cases hends
    exact .inr ⟨hl, _, rfl⟩

theorem takeMutex_locked (m : Nat) (s : Sys) : ((takeMutex m s).mutex m).locked = true := by
  unfold takeMutex Sys.setMutex
  dsimp only
  rw [Function.update_self]

theorem Attended.step (h : Attended s) (ha : Alive s) (hnodes : false ∉ e.nodes)
    (hstep : Peaceful s e s') : Attended s' := by
  intro m hopen hqueue
  by_cases hk : (s.cont s.current).queue = some (.mutex m)
  · -- the running process has been woken: it takes the lock, or finds it locked
    exfalso
    obtain ⟨cvar, hk⟩ := queue_eq_mutex hk
    rcases hstep.1.retry hk with ⟨-, rfl⟩ | ⟨hl, q, rfl⟩
    · exact absurd ((takeMutex_locked m s).symm.trans hopen) (by decide)
    · exact absurd (hl.symm.trans hopen) (by decide)
  · have hkeeps := (hstep.leads ha).keeps (J := fun t =>
      (t.mutex m).locked = false → t.queue (.mutex m) ≠ [] → Pending t (.mutex m))
      (fun _ q hJ ho hq => (hJ ho hq).setCurrent q) fun k t he => ?_
    · exact hkeeps hopen hqueue
    · intro hopen hqueue
      rcases he.mutex_cases ha.asleep ha.awake hnodes m with ⟨hm, hq⟩ | hl | ⟨hq, hwoken⟩
      · have hopen' : (s.mutex m).locked = false := hm ▸ hopen
        have hqueue' : s.queue (.mutex m) ≠ [] := hq ▸ hqueue
        exact (h m hopen' hqueue').persists ha he hk
      · exact absurd (hl.symm.trans hopen) (by decide)
      · -- a release wakes the first process
        cases hs : s.queue (.mutex m) with
        | nil =>
          rw [hs] at hq
          exact absurd hq hqueue
        | cons node rest =>
          have hn : node ∈ s.queue (.mutex m) := by
            rw [hs]
            exact List.mem_cons_self
          refine ha.woken he hn (hwoken node ?_)
          rw [hs]
          exact rfl

/-- **No wake-up on a mutex is lost.** -/
theorem attended_run : ∀ es s, Run (fun s e s' => false ∉ e.nodes ∧ Peaceful s e s') bootSys es s →
    ∀ m, (s.mutex m).locked = false → s.queue (.mutex m) ≠ [] →
      ∃ p, Ready s p ∧ ∃ cvar, s.cont p = .mutexAcquire m cvar := by
  intro es s h m hopen hqueue
  have hinv := h.invariant (P := fun s => Attended s ∧ Alive s)
    (fun s e s' hs hstep => ⟨hs.1.step hs.2 hstep.1 hstep.2, hs.2.step hstep.2⟩)
    ⟨fun m _ hq => absurd rfl hq, alive_boot⟩
  obtain ⟨p, hp, hk⟩ := hinv.1 m hopen hqueue
  exact ⟨p, hp, queue_eq_mutex hk⟩

/-- Process 1 releases a mutex that processes 2 and 3 wait for. -/
def releaseForTwo : List Event :=
  [.mutexInitialize true true, .mutexAcquire [] 1, .fork true, .fork true, .clock, .resume [],
    .mutexAcquire [] 1, .resume [], .mutexAcquire [] 1, .resume [], .mutexRelease 1]

theorem attended_run_release : ∃ s, Run (fun s e s' => false ∉ e.nodes ∧ Peaceful s e s') bootSys
    releaseForTwo s ∧ ∃ p, Ready s p ∧ ∃ cvar, s.cont p = .mutexAcquire 0 cvar := by
  have hrun : ((execAll 8 bootSys releaseForTwo).map fun s =>
      ((s.mutex 0).locked, (s.queue (.mutex 0)).map WaitQueueNode.process)) = some (false, [3]) := by
    decide +kernel
  obtain ⟨s, hs, heq⟩ := Option.map_eq_some_iff.mp hrun
  rw [Prod.mk.injEq] at heq
  have hsteps : Run (fun s e s' => false ∉ e.nodes ∧ Peaceful s e s') bootSys releaseForTwo s := by
    have hnodes : ∀ e ∈ releaseForTwo, false ∉ e.nodes := by
      simp [releaseForTwo, Event.nodes]
    have hexits : ∀ e ∈ releaseForTwo, ∀ status, e ≠ .exit status := by
      simp [releaseForTwo]
    exact (execAll_run hs).mono_labels fun _ e _ he hstep => ⟨hnodes e he, hstep, hexits e he⟩
  refine ⟨s, hsteps, attended_run _ _ hsteps 0 heq.1 ?_⟩
  intro hq
  rw [hq] at heq
  cases heq.2

end Yalnix.System
