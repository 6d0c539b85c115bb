import Yalnix.System.Mutex

/-!
# Owners of mutexes

`current_owner` is the address of a descriptor, and `malloc` may put a new descriptor where that of a
process has been that is gone.  Here descriptors have addresses.

* `mutexAcquireAt` — `mutexAcquire`, which goes by the address of the caller's descriptor.
* `StepAt` — the machine; `StepAt.step` is what it does when nobody is taken for the owner of a mutex
  who is not.
* `foreign_release` — any process can release any mutex.
* `exclusive_run` — mutexes exclude as long as locked mutexes are released by their owners, and a process
  that acquires a mutex does not have its descriptor where that of a dead owner was.
* `reused_owner` — what happens if it does.
-/

set_option autoImplicit false

namespace Yalnix.System

open Transition (Run)

variable {s s' t : Sys} {p q : PID} {e : Event} {m n : Nat} {address : PID → Nat} {o : Outcome}

/-! ## The code, with addresses -/

section Code

-- where `malloc` has put the descriptor of each process, or will put it
variable (address : PID → Nat)

/-- `mutex->current_owner == getCurrentProcess()` compares addresses. -/
def mutexAcquireAt (mallocs : List Bool) (mutex_id : Int) (cvar : Option Nat) (s : Sys) : Outcome :=
  match getResourceWithID mutex_id .RESOURCE_MUTEX s with
  | none => .ret ERROR s
  | some resource =>
    match resource.location with
    | none => .fault
    | some m =>
      if (s.mutex m).current_owner.map address = some (address s.current) then
        .ret 0 { s with locks := s.locks ++ [.acquired s.current m] }
      else mutexAcquireLoop m cvar mallocs s

def cvarWaitAt (mallocs : List Bool) (cvar_id mutex_id : Int) (s : Sys) : Outcome :=
  match getResourceWithID cvar_id .RESOURCE_CVAR s with
  | none => .ret ERROR s
  | some resource =>
    match mutexRelease mutex_id s with
    | .ret r s =>
      if r = ERROR then .ret ERROR s
      else
        match mallocs, resource.location with
        | false :: mallocs, c => mutexAcquireAt address mallocs mutex_id c s
        | _, none => .fault
        | _, some c => .schedule (.cvarWait c mutex_id) (sleepOnWaitQueue (.cvar c) true s)
    | o => o

def resumeAt (n : Nat) (mallocs : List Bool) (s : Sys) : Cont → Outcome
  | .cvarWait c mutex_id => mutexAcquireAt address mallocs mutex_id (some c) s
  | k => resume n mallocs s k

def handleAt (n : Nat) (s : Sys) : Event → Outcome
  | .mutexAcquire mallocs mutex_id => mutexAcquireAt address mallocs mutex_id none s
  | .cvarWait mallocs cvar_id mutex_id => cvarWaitAt address mallocs cvar_id mutex_id s
  | .resume mallocs => resumeAt address n mallocs s (s.cont s.current)
  | e => handle n s e

/-- `malloc` hands out no memory that is in use. -/
def Apart (s : Sys) : Prop :=
  ∀ p q, (s.desc p).allocated = true → (s.desc q).allocated = true → address p = address q → p = q

/-- The memory of the descriptor of `p` has been, or will be, that of another one too. -/
def Reused (p : PID) : Prop := ∃ q, q ≠ p ∧ address q = address p

/-- What is done to a descriptor that has been released, and to its nodes in the lists, may show in the
one that has its memory, and the other way round. -/
structure Overlaid (t s' : Sys) : Prop where
  elsewhere : ∃ desc procs tree groups,
    s' = { t with desc := desc, procs := procs, tree := tree, groups := groups }
  desc : ∀ p, s'.desc p = t.desc p ∨ Reused address p
  head : s'.procs .process_head = t.procs .process_head
  process_list : ∀ p, s'.procs (.process_list p) = t.procs (.process_list p) ∨ Reused address p
  children : ∀ p, s'.tree (.children p) = t.tree (.children p) ∨ Reused address p
  siblings : ∀ p, s'.tree (.siblings p) = t.tree (.siblings p) ∨ Reused address p
  thread_group : ∀ p, s'.groups (.thread_group p) = t.groups (.thread_group p) ∨ Reused address p
  thread_peers : ∀ p, s'.groups (.thread_peers p) = t.groups (.thread_peers p) ∨ Reused address p

def StepAt (s : Sys) (e : Event) (s' : Sys) : Prop :=
  ∃ t, (Enabled s e ∧ ∃ n, Ends (handleAt address n s e) t) ∧ Overlaid address t s' ∧ Apart address s'

end Code

/-! ## Who is taken for the owner -/

/-- The event calls `mutexAcquire` on `m`. -/
def Acquires (s : Sys) (m : Nat) : Event → Prop
  | .mutexAcquire _ mutex_id => Located s mutex_id .RESOURCE_MUTEX m
  | .resume _ =>
    match s.cont s.current with
    | .cvarWait _ mutex_id => Located s mutex_id .RESOURCE_MUTEX m
    | _ => False
  | _ => False

/-- The caller of `mutexAcquire` does not have its descriptor where that of another process was that owns
the mutex. -/
def OwnMemory (address : PID → Nat) (s : Sys) (e : Event) : Prop :=
  ∀ m p, Acquires s m e → (s.mutex m).current_owner = some p → address p = address s.current → p = s.current

/-- A caller who is not taken for somebody else. -/
theorem mutexAcquireAt_eq {mallocs : List Bool} {mutex_id : Int} {cvar : Option Nat}
    (h : ∀ m p, Located s mutex_id .RESOURCE_MUTEX m → (s.mutex m).current_owner = some p →
      address p = address s.current → p = s.current) :
    mutexAcquireAt address mallocs mutex_id cvar s = mutexAcquire mallocs mutex_id cvar s := by
  unfold mutexAcquireAt mutexAcquire
  cases hr : getResourceWithID mutex_id .RESOURCE_MUTEX s with
  | none => rfl
  | some r =>
    cases hm : r.location with
    | none => simp only [hm]
    | some m =>
      simp only [hm]
      have howner : (s.mutex m).current_owner.map address = some (address s.current) ↔
          (s.mutex m).current_owner = some s.current := by
        constructor
        · intro ho
          obtain ⟨p, hp, ha⟩ := Option.map_eq_some_iff.mp ho
          rw [hp, h m p ⟨r, hr, hm⟩ hp ha]
        · intro ho
          rw [ho]
          rfl
      exact if_congr howner rfl rfl

/-- A mutex that has just been released has no owner. -/
theorem openMutex_owner (mutex_id : Int) (hm : Located s mutex_id .RESOURCE_MUTEX m) :
    ∀ m' p, Located (openMutex m s) mutex_id .RESOURCE_MUTEX m' →
      ((openMutex m s).mutex m').current_owner ≠ some p := by
  rintro m' p ⟨r, hr, hm'⟩
  have hsame : getResourceWithID mutex_id .RESOURCE_MUTEX (openMutex m s) =
      getResourceWithID mutex_id .RESOURCE_MUTEX s := by
    unfold getResourceWithID openMutex signalWaitQueue
    rw [signal_resources]
    rfl
  obtain rfl := Located.unique ⟨r, hsame ▸ hr, hm'⟩ hm
  rw [openMutex_mutex, Function.update_self]
  nofun

theorem cvarWaitAt_eq (mallocs : List Bool) (cvar_id mutex_id : Int) (s : Sys) :
    cvarWaitAt address mallocs cvar_id mutex_id s = cvarWait mallocs cvar_id mutex_id s := by
  unfold cvarWaitAt cvarWait
  cases getResourceWithID cvar_id .RESOURCE_CVAR s with
  | none => rfl
  | some resource =>
    dsimp only
    cases hr : getResourceWithID mutex_id .RESOURCE_MUTEX s with
    | none => simp [mutexRelease, hr]
    | some r =>
      cases hm : r.location with
      | none => simp [mutexRelease, hr, hm]
      | some m =>
        have hrelease : mutexRelease mutex_id s = .ret SUCCESS (openMutex m s) := by
          simp only [mutexRelease, hr, hm]
        rw [hrelease]
        dsimp only
        rw [if_neg (by decide), if_neg (by decide)]
        have hopen : ∀ mallocs cvar, mutexAcquireAt address mallocs mutex_id cvar (openMutex m s) =
            mutexAcquire mallocs mutex_id cvar (openMutex m s) := fun mallocs cvar =>
          mutexAcquireAt_eq fun m' p hm' hp _ => absurd hp (openMutex_owner mutex_id ⟨r, hr, hm⟩ m' p hm')
        cases mallocs with
        | nil =>
          cases resource.location with
          | none => rfl
          | some c => rfl
        | cons malloc mallocs =>
          cases malloc with
          | false => exact hopen mallocs resource.location
          | true =>
            cases resource.location with
            | none => rfl
            | some c => rfl

/-- **Where nobody is taken for the owner who is not, the handlers are those that go by pids.** -/
theorem handleAt_eq (h : OwnMemory address s e) : handleAt address n s e = handle n s e := by
  cases e with
  | mutexAcquire mallocs mutex_id => exact mutexAcquireAt_eq h
  | cvarWait mallocs cvar_id mutex_id => exact cvarWaitAt_eq mallocs cvar_id mutex_id s
  | resume mallocs =>
    change resumeAt address n mallocs s (s.cont s.current) = resume n mallocs s (s.cont s.current)
    unfold OwnMemory Acquires at h
    cases hk : s.cont s.current with
    | cvarWait c mutex_id =>
      rw [hk] at h
      exact mutexAcquireAt_eq h
    | _ => rfl
  | _ => rfl

theorem StepAt.step (h : StepAt address s e s') (hown : OwnMemory address s e) :
    ∃ t, Step s e t ∧ Overlaid address t s' := by
  obtain ⟨t, ⟨hen, n, hend⟩, hover, -⟩ := h
  rw [handleAt_eq hown] at hend
  exact ⟨t, ⟨hen, n, hend⟩, hover⟩

/-! ## Mutual exclusion -/

/-- Descriptors and lists of processes are no part of what is kept. -/
theorem Owned.overlaid (h : Owned t) (ho : Overlaid address t s') : Owned s' := by
  obtain ⟨desc, procs, tree, groups, rfl⟩ := ho.elsewhere
  exact h.congr rfl rfl

theorem Objects.overlaid (h : Objects t) (ho : Overlaid address t s') : Objects s' := by
  obtain ⟨desc, procs, tree, groups, rfl⟩ := ho.elsewhere
  exact h.congr rfl rfl rfl rfl rfl

/-- **Mutexes exclude, in runs in which locked mutexes are released by their owners only and nobody
acquires one whose dead owner had its descriptor at the same place.** -/
theorem exclusive_run : ∀ address es s,
    Run (fun s e s' => (OwnRelease s e ∧ OwnMemory address s e) ∧ StepAt address s e s') bootSys es s →
    Exclusive s.locks := by
  intro address es s h
  have hinv := h.invariant (P := fun s => Owned s ∧ Objects s)
    (fun s e s' hs hstep => by
      obtain ⟨⟨hrelease, hown⟩, hat⟩ := hstep
      obtain ⟨t, hstep, hover⟩ := hat.step hown
      have ht := hs.1.step hs.2 hrelease hstep
      exact ⟨ht.overlaid hover, (hs.2.step hstep).overlaid hover⟩)
    ⟨owned_boot, objects_boot⟩
  exact hinv.1.exclusive

/-! ## Runs -/

/-- The mutex that the identifier is that of. -/
def mutexAt (mutex_id : Int) (s : Sys) : Option Nat :=
  (getResourceWithID mutex_id .RESOURCE_MUTEX s).bind Resource.location

theorem located_iff {mutex_id : Int} :
    Located s mutex_id .RESOURCE_MUTEX m ↔ mutexAt mutex_id s = some m := by
  unfold Located mutexAt
  rw [Option.bind_eq_some_iff]

instance (s : Sys) (e : Event) : Decidable (OwnRelease s e) :=
  let release (mutex_id : Int) : Prop := ∀ m ∈ mutexAt mutex_id s,
    (s.mutex m).locked = true → (s.mutex m).current_owner = some s.current
  match e with
  | .mutexRelease mutex_id =>
    decidable_of_iff (release mutex_id) (forall_congr' fun _ => imp_congr located_iff.symm Iff.rfl)
  | .cvarWait _ cvar_id mutex_id =>
    decidable_of_iff ((getResourceWithID cvar_id .RESOURCE_CVAR s).isSome = true → release mutex_id)
      ⟨fun h m hm => h hm.1 m (located_iff.mp hm.2), fun h hc m hm => h m ⟨hc, located_iff.mpr hm⟩⟩
  | .fork _ | .createThread _ | .delay _ | .exit _ | .wait | .joinThread _ | .mutexInitialize _ _
  | .mutexAcquire _ _ | .cvarInitialize _ _ | .cvarSignal _ | .cvarBroadcast _ | .ttyRead _ _ _
  | .ttyWrite _ _ _ _ | .clock | .ttyReceive _ _ _ | .ttyTransmit _ | .resume _ => .isTrue fun _ h => h.elim

/-- Enough for the caller to have memory of its own. -/
def ownMemory (address : PID → Nat) (s : Sys) (mutex_id : Int) : Bool :=
  decide (∀ m ∈ mutexAt mutex_id s, ∀ p ∈ (s.mutex m).current_owner,
    address p = address s.current → p = s.current)

/-- The checks on a step, and on who has a descriptor afterwards. -/
def permitted (address : PID → Nat) (s : Sys) (e : Event) : Bool :=
  decide (OwnRelease s e) &&
    match e with
    | .mutexAcquire _ mutex_id => ownMemory address s mutex_id
    | .resume _ =>
      match s.cont s.current with
      | .cvarWait _ mutex_id => ownMemory address s mutex_id
      | _ => true
    | _ => true

theorem ownMemory_spec {mutex_id : Int} (h : ownMemory address s mutex_id = true) :
    ∀ m p, Located s mutex_id .RESOURCE_MUTEX m → (s.mutex m).current_owner = some p →
      address p = address s.current → p = s.current :=
  fun m p hm hp => of_decide_eq_true h m (located_iff.mp hm) p hp

theorem permitted_spec (h : permitted address s e = true) : OwnRelease s e ∧ OwnMemory address s e := by
  unfold permitted at h
  rw [Bool.and_eq_true, decide_eq_true_eq] at h
  obtain ⟨hrelease, hmemory⟩ := h
  refine ⟨hrelease, fun m p ha => ?_⟩
  cases e with
  | mutexAcquire mallocs mutex_id => exact ownMemory_spec hmemory m p ha
  | resume mallocs =>
    unfold Acquires at ha
    dsimp only at hmemory ha
    cases hk : s.cont s.current with
    | cvarWait c mutex_id =>
      rw [hk] at hmemory ha
      exact ownMemory_spec hmemory m p ha
    | _ =>
      rw [hk] at ha
      exact ha.elim
  | _ => exact ha.elim

/-- The step that `e` leads to, if the scheduler comes to an end within `n` rounds. -/
def execAt (address : PID → Nat) (n : Nat) (s : Sys) (e : Event) : Option Sys :=
  if Enabled s e then
    match handleAt address n s e with
    | .ret _ s => some (s.setCont s.current .user)
    | .schedule k s => (nextProcess s n (.process_list s.current)).map fun q =>
      { s.setCont s.current k with current := q }
    | .switched s => some s
    | .fault => none
  else none

/-- A run of steps that pass the checks `ok` before and `apart` after. -/
def execAllAt (address : PID → Nat) (n : Nat) (ok : Sys → Event → Bool) (apart : Sys → Bool) :
    Sys → List Event → Option Sys
  | s, [] => some s
  | s, e :: es =>
    if ok s e then
      (execAt address n s e).bind fun s => if apart s then execAllAt address n ok apart s es else none
    else none

theorem overlaid_refl (t : Sys) : Overlaid address t t :=
  ⟨⟨t.desc, t.procs, t.tree, t.groups, rfl⟩, fun _ => .inl rfl, rfl, fun _ => .inl rfl, fun _ => .inl rfl,
    fun _ => .inl rfl, fun _ => .inl rfl, fun _ => .inl rfl⟩

theorem execAt_step (h : execAt address n s e = some s') (ha : Apart address s') :
    StepAt address s e s' := by
  unfold execAt at h
  split at h
  · rename_i he
    refine ⟨s', ⟨he, n, ?_⟩, overlaid_refl s', ha⟩
    split at h
    · rename_i ho
      cases h
      rw [ho]
      exact .ret
    · rename_i ho
      obtain ⟨q, hq, rfl⟩ := Option.map_eq_some_iff.mp h
      rw [ho]
      exact .schedule ⟨n, hq⟩
    · rename_i ho
      cases h
      rw [ho]
      exact .switched
    · cases h
  · cases h

theorem execAllAt_run {ok : Sys → Event → Bool} {apart : Sys → Bool}
    (hapart : ∀ s, apart s = true → Apart address s) : ∀ {es : List Event} {s s' : Sys},
    execAllAt address n ok apart s es = some s' →
      Run (fun s e s' => ok s e = true ∧ StepAt address s e s') s es s'
  | [], s, s', h => by
    cases h
    exact .nil
  | e :: es, s, s', h => by
    unfold execAllAt at h
    split at h
    · rename_i hok
      obtain ⟨t, ht, h⟩ := Option.bind_eq_some_iff.mp h
      split at h
      · rename_i ha
        exact .cons ⟨hok, execAt_step ht (hapart t ha)⟩ (execAllAt_run hapart h)
      · cases h
    · cases h

/-- The descriptor of process 3 is where that of process 2 was. -/
def reused (p : PID) : Nat := if p = 3 then 2 else p

/-- Only one of the two is there. -/
def notBoth (s : Sys) : Bool := !((s.desc 2).allocated && (s.desc 3).allocated)

theorem notBoth_apart (h : notBoth s = true) : Apart reused s := by
  intro p q hp hq ha
  unfold notBoth at h
  unfold reused at ha
  by_cases hp3 : p = 3
  · by_cases hq3 : q = 3
    · rw [hp3, hq3]
    · rw [if_pos hp3, if_neg hq3] at ha
      subst hp3 ha
      rw [hp, hq] at h
      cases h
  · by_cases hq3 : q = 3
    · rw [if_neg hp3, if_pos hq3] at ha
      subst hq3 ha
      rw [hp, hq] at h
      cases h
    · rw [if_neg hp3, if_neg hq3] at ha
      exact ha

/-- Process 2 acquires the mutex and releases it, and exits; process 3, in its memory, acquires it. -/
def reuse (release : List Event) : List Event :=
  [.mutexInitialize true true, .fork true, .clock, .resume [], .mutexAcquire [] 1] ++ release ++
    [.exit 0, .resume [], .fork true, .clock, .resume [], .mutexAcquire [] 1]

/-- Two processes acquire a mutex one after the other, the second in the memory of the first. -/
theorem exclusive_run_release : ∃ s,
    Run (fun s e s' => (OwnRelease s e ∧ OwnMemory reused s e) ∧ StepAt reused s e s') bootSys
      (reuse [.mutexRelease 1]) s ∧
    s.locks = [.acquired 2 0, .released 2 0, .acquired 3 0] ∧ Exclusive s.locks := by
  have hrun : (execAllAt reused 8 (permitted reused) notBoth bootSys
      (reuse [.mutexRelease 1])).map Sys.locks = some [.acquired 2 0, .released 2 0, .acquired 3 0] := by
    decide +kernel
  obtain ⟨s, hs, hlocks⟩ := Option.map_eq_some_iff.mp hrun
  have hsteps := (execAllAt_run (fun _ => notBoth_apart) hs).mono fun s e t hstep =>
    And.intro (permitted_spec hstep.1) hstep.2
  exact ⟨s, hsteps, hlocks, exclusive_run reused _ s hsteps⟩

/-- **A process that has its descriptor where a dead owner had it is taken for the owner.** -/
theorem reused_owner : ¬ ∀ address es s,
    Run (fun s e s' => OwnRelease s e ∧ StepAt address s e s') bootSys es s → Exclusive s.locks := by
  have hrun : (execAllAt reused 8 (fun s e => decide (OwnRelease s e)) notBoth bootSys
      (reuse [])).map Sys.locks = some [.acquired 2 0, .acquired 3 0] := by
    decide +kernel
  obtain ⟨s, hs, hlocks⟩ := Option.map_eq_some_iff.mp hrun
  intro hall
  have hsteps := (execAllAt_run (fun _ => notBoth_apart) hs).mono fun s e t hstep =>
    And.intro (of_decide_eq_true hstep.1) hstep.2
  have hmem := hall reused _ s hsteps [] [] [] 2 3 0 hlocks (by decide)
  cases hmem

/-- Process 1 holds a mutex, and process 2 releases and acquires it. -/
def foreignRelease : List Event :=
  [.mutexInitialize true true, .mutexAcquire [] 1, .fork true, .clock, .resume [], .mutexRelease 1,
    .mutexAcquire [] 1]

/-- **Any process can release a mutex, whoever holds it.** -/
theorem foreign_release : ¬ ∀ address es s, Run (StepAt address) bootSys es s → Exclusive s.locks := by
  have hrun : (execAllAt id 8 (fun _ _ => true) (fun _ => true) bootSys foreignRelease).map Sys.locks =
      some [.acquired 1 0, .released 2 0, .acquired 2 0] := by
    decide +kernel
  obtain ⟨s, hs, hlocks⟩ := Option.map_eq_some_iff.mp hrun
  intro hall
  have hsteps := (execAllAt_run (fun _ _ p q _ _ ha => ha) hs).mono fun s e t hstep => hstep.2
  have hmem := hall id foreignRelease s hsteps [] [.released 2 0] [] 1 2 0 hlocks (by decide)
  simp at hmem

end Yalnix.System
