import Yalnix.System.Numbered

/-!
# Delays

`delayProcess` stores the sum of the clock and its argument, which is a machine word; the scheduler
and `killProcess` pass over a process whose sum is greater than the clock.

* `Step.clocked`, `Step.wakes` — what a step does to the clock and to wake-up times.
* `NotBefore` — a process does not run again before the clock has ticked that often.
* `Delayed` — what holds of a delayed process in the meantime; `Delayed.step`, `Delayed.run`.
* `wrapped_delay` — a delay whose sum wraps is over at once.
* `delay_not_early_iff` — and no other ends early.
-/

set_option autoImplicit false

namespace Yalnix.System

open Transition (Run)

variable {s s' s₁ t : Sys} {n : Nat} {p q : PID} {e : Event} {k : Cont} {es : List Event}
  {due ticks : Int}

/-! ## Clock and wake-up times -/

theorem OnProcesses.clocked (hp : OnProcesses s e k t) :
    t.elapsed_clock_ticks = s.elapsed_clock_ticks ∨
      e = .clock ∧ t.elapsed_clock_ticks = long (s.elapsed_clock_ticks + 1) := by
  cases hp with
  | synced synced =>
    left
    rw [synced.same]
  | quiet quiet _ _ _ => exact quiet.clock
  | noMemory => exact .inl rfl
  | fork leader made child listed =>
    subst made
    exact .inl rfl
  | createThread leader made peer listed =>
    subst made
    exact .inl rfl

/-- **Only the clock moves the clock.** -/
theorem Step.clocked (hs : Objects s) (h : Step s e s') :
    s'.elapsed_clock_ticks = s.elapsed_clock_ticks ∨
      e = .clock ∧ s'.elapsed_clock_ticks = long (s.elapsed_clock_ticks + 1) := by
  by_cases he : ∃ status, e = .exit status
  · obtain ⟨status, rfl⟩ := he
    obtain ⟨t, hkept, hend⟩ := h.exit_kept
    have hclock : t.elapsed_clock_ticks = s.elapsed_clock_ticks := by
      unfold Kept at hkept
      rw [hkept]
      rfl
    left
    rcases hend with rfl | ⟨q, rfl⟩
    · exact hclock
    · exact hclock
  · cases h.leads hs fun status hs => he ⟨status, hs⟩ with
    | stays effect ends =>
      subst ends
      exact effect.processes.clocked
    | leaves _ effect _ ends =>
      subst ends
      exact effect.processes.clocked

theorem OnProcesses.wakes (hp : OnProcesses s e k t) (hle : p ≤ s.max_pid)
    (hd : p ≠ s.current ∨ ∀ ticks, e ≠ .delay ticks) :
    (t.desc p).wake_up_time = (s.desc p).wake_up_time := by
  have hnew : p ≠ s.max_pid + 1 := ne_of_lt (Nat.lt_succ_of_le hle)
  cases hp with
  | synced synced => rw [synced.desc]
  | quiet quiet _ _ _ => exact quiet.wake p hd
  | noMemory => rfl
  | fork leader made child listed =>
    subst made
    exact congrArg Descriptor.wake_up_time (newProcess_desc_of_ne hnew _ _)
  | createThread leader made peer listed =>
    subst made
    exact congrArg Descriptor.wake_up_time (newProcess_desc_of_ne hnew _ _)

/-- **Only a process that is delayed gets another wake-up time.** -/
theorem Step.wakes (hs : Objects s) (h : Step s e s') (hle : p ≤ s.max_pid)
    (hd : p ≠ s.current ∨ ∀ ticks, e ≠ .delay ticks) :
    (s'.desc p).wake_up_time = (s.desc p).wake_up_time := by
  by_cases he : ∃ status, e = .exit status
  · obtain ⟨status, rfl⟩ := he
    obtain ⟨t, hcull, hend⟩ := h.exit_culled
    rcases hend with rfl | ⟨q, rfl⟩
    · exact (hcull.desc p).wake
    · exact (hcull.desc p).wake
  · cases h.leads hs fun status hs => he ⟨status, hs⟩ with
    | stays effect ends =>
      subst ends
      exact effect.processes.wakes hle hd
    | leaves _ effect _ ends =>
      subst ends
      exact effect.processes.wakes hle hd

/-- The clock is a machine word. -/
theorem clock_range (hrun : Run Step bootSys es s) :
    -2147483648 ≤ s.elapsed_clock_ticks ∧ s.elapsed_clock_ticks ≤ LONG_MAX := by
  have hboth : Objects s ∧ -2147483648 ≤ s.elapsed_clock_ticks ∧ s.elapsed_clock_ticks ≤ LONG_MAX := by
    refine hrun.invariant (P := fun s => Objects s ∧ -2147483648 ≤ s.elapsed_clock_ticks ∧
      s.elapsed_clock_ticks ≤ LONG_MAX) ?_ ⟨objects_boot, by decide, by decide⟩
    rintro s e t ⟨hs, hclock⟩ hstep
    refine ⟨hs.step hstep, ?_⟩
    rcases hstep.clocked hs with hsame | ⟨-, htick⟩
    · rw [hsame]
      exact hclock
    · rw [htick]
      exact long_range _
  exact hboth.2

/-! ## In the meantime -/

def Event.isClock : Event → Bool
  | .clock => true
  | _ => false

/-- How often `trapClock` runs. -/
def clocks (es : List Event) : Nat := es.countP Event.isClock

/-- The scheduler passes over `p`, and `p` does not run, before `trapClock` has run `ticks` times. -/
def NotBefore (ticks : Int) (p : PID) (s : Sys) : Prop :=
  ∀ es t, Run Step s es t → clocks es < ticks → t.current ≠ p ∧ ¬ t.eligible p

/-- The process is delayed until `due`. -/
structure Delayed (p : PID) (due : Int) (s : Sys) : Prop where
  made : p ≤ s.max_pid
  stopped : s.current ≠ p
  wake : (s.desc p).wake_up_time = due
  later : s.elapsed_clock_ticks < due

theorem Delayed.not_eligible (h : Delayed p due s) : ¬ s.eligible p := by
  rintro ⟨-, hdue⟩
  rw [h.wake] at hdue
  exact absurd h.later (not_lt.mpr hdue)

/-- A step on which the clock does not reach the wake-up time. -/
theorem Delayed.step (h : Delayed p due s) (hn : Numbered s) (hstep : Step s e s')
    (hlater : s'.elapsed_clock_ticks < due) : Delayed p due s' := by
  obtain ⟨hn', hmax⟩ := hn.step hstep
  have hwake := (hstep.wakes hn.objects h.made (.inl h.stopped.symm)).trans h.wake
  refine ⟨h.made.trans hmax, ?_, hwake, hlater⟩
  intro hruns
  rcases hstep.next hn.objects with hsame | hready | hnext
  · exact h.stopped (hsame.symm.trans hruns)
  · rw [hruns] at hready
    have hdue := hready.2
    rw [hwake] at hdue
    exact absurd hlater (not_lt.mpr hdue)
  · rw [hruns] at hnext
    exact h.not_eligible hnext.eligible

/-- **The clock does not run ahead of its interrupts**, as long as it does not wrap. -/
theorem Step.clock_le (hs : Objects s) (hstep : Step s e s')
    (hlo : -2147483648 ≤ s.elapsed_clock_ticks) (hhi : s.elapsed_clock_ticks + clocks [e] ≤ LONG_MAX) :
    -2147483648 ≤ s'.elapsed_clock_ticks ∧
      s'.elapsed_clock_ticks ≤ s.elapsed_clock_ticks + clocks [e] := by
  rcases hstep.clocked hs with hsame | ⟨rfl, htick⟩
  · rw [hsame]
    exact ⟨hlo, by omega⟩
  · have hone : clocks [.clock] = 1 := rfl
    unfold LONG_MAX at hhi
    rw [hone] at hhi ⊢
    have hexact : long (s.elapsed_clock_ticks + 1) = s.elapsed_clock_ticks + 1 :=
      long_of_range (by omega) (by omega)
    rw [htick, hexact]
    omega

theorem clocks_cons (e : Event) (es : List Event) : clocks (e :: es) = clocks [e] + clocks es := by
  unfold clocks
  rw [← List.singleton_append, List.countP_append]

/-- **A delayed process stays delayed while too few interrupts come.** -/
theorem Delayed.run (hrun : Run Step s es t) : Delayed p due s → Numbered s →
    -2147483648 ≤ s.elapsed_clock_ticks → due ≤ LONG_MAX →
    s.elapsed_clock_ticks + clocks es < due → Delayed p due t := by
  induction hrun with
  | nil => exact fun h _ _ _ _ => h
  | @cons s s₁ t e es head _ ih =>
    intro h hn hlo hmax hfew
    rw [clocks_cons] at hfew
    push_cast at hfew
    obtain ⟨hlo', hle⟩ := head.clock_le hn.objects hlo (by omega)
    refine ih (h.step hn head (by omega)) (hn.step head).1 hlo' hmax ?_
    omega

/-! ## The call -/

/-- What `delayProcess` leaves for a positive argument: the state in which it calls `schedule`. -/
theorem Step.delays (hpos : 0 < ticks) (hstep : Step s (.delay ticks) s₁) :
    s₁.max_pid = s.max_pid ∧ s₁.elapsed_clock_ticks = s.elapsed_clock_ticks ∧
      (s₁.desc s.current).state = (s.desc s.current).state ∧
      (s₁.desc s.current).wake_up_time = long (s.elapsed_clock_ticks + ticks) ∧
      s₁.eligible s₁.current := by
  obtain ⟨-, n, hend⟩ := hstep
  change Ends (delayProcess ticks s) s₁ at hend
  unfold delayProcess at hend
  rw [if_neg hpos.ne', if_neg (not_lt.mpr hpos.le)] at hend
  generalize hv : (s.setDesc s.current fun d =>
    { d with wake_up_time := long (s.elapsed_clock_ticks + ticks) }) = v at hend
  have hself : v.desc s.current =
      { s.desc s.current with wake_up_time := long (s.elapsed_clock_ticks + ticks) } := by
    rw [← hv]
    exact Function.update_self _ _ _
  have hstate : (v.desc s.current).state = (s.desc s.current).state := by rw [hself]
  have hwake : (v.desc s.current).wake_up_time = long (s.elapsed_clock_ticks + ticks) := by
    rw [hself]
  have hmax : v.max_pid = s.max_pid := by
    rw [← hv]
    rfl
  have hclock : v.elapsed_clock_ticks = s.elapsed_clock_ticks := by
    rw [← hv]
    rfl
  cases hend with
  | schedule next =>
    exact ⟨hmax, hclock, hstate, hwake, next.eligible⟩

/-- A sum that does not fit is below the clock. -/
theorem long_wrapped {a b : Int} (ha : a ≤ LONG_MAX) (hb : b ≤ LONG_MAX) (hsum : LONG_MAX < a + b) :
    long (a + b) = a + b - 4294967296 := by
  unfold LONG_MAX at ha hb hsum
  apply long_eq
  · omega
  · omega
  · omega

/-! ## The defect -/

/-- One tick after boot, process 1 calls for the longest delay there is, and comes back at once. -/
theorem wrapped_delay : ¬ ∀ es s ticks s₁, Run Step bootSys es s → 0 < ticks → ticks ≤ LONG_MAX →
    Step s (.delay ticks) s₁ → NotBefore ticks s.current s₁ := by
  intro hall
  have hrun : ((execAll 8 bootSys [.clock, .resume []]).bind fun s =>
      (exec 8 s (.delay LONG_MAX)).map fun s₁ => (s.current, s₁.current)) = some (1, 1) := by
    decide +kernel
  obtain ⟨s, hs, hrun⟩ := Option.bind_eq_some_iff.mp hrun
  obtain ⟨s₁, hs₁, heq⟩ := Option.map_eq_some_iff.mp hrun
  obtain ⟨hone, hone'⟩ := Prod.mk.injEq _ _ _ _ ▸ heq
  have hearly := hall _ s LONG_MAX s₁ (execAll_run hs) (by decide) (le_refl _) (exec_step hs₁)
  obtain ⟨hruns, -⟩ := hearly [] s₁ .nil (by decide)
  exact hruns (hone'.trans hone.symm)

/-! ## The condition -/

/-- **A delay does not end early if and only if the clock and the argument add up to a machine word**:
then neither the scheduler nor `killProcess` selects the process, and it does not run, before
`trapClock` has run that often, whatever happens; and where they do not add up the process can be
switched to at once, and is if there is no other. -/
theorem delay_not_early_iff (hrun : Run Step bootSys es s) (hpos : 0 < ticks)
    (hmax : ticks ≤ LONG_MAX) (hstep : Step s (.delay ticks) s₁) :
    (s.elapsed_clock_ticks + ticks ≤ LONG_MAX → NotBefore ticks s.current s₁) ∧
    ((s.desc s.current).state = .RUNNING →
      (NotBefore ticks s.current s₁ ↔ s.elapsed_clock_ticks + ticks ≤ LONG_MAX) ∧
      (LONG_MAX < s.elapsed_clock_ticks + ticks → (∀ q, q ≠ s.current → ¬ s₁.eligible q) →
        s₁.current = s.current)) := by
  have hn := numbered_boot.run hrun
  obtain ⟨hn₁, -⟩ := hn.step hstep
  obtain ⟨hlo, hhi⟩ := clock_range hrun
  obtain ⟨hpids, hclock, hstate, hwake, hready⟩ := hstep.delays hpos
  have hlate : s.elapsed_clock_ticks + ticks ≤ LONG_MAX → NotBefore ticks s.current s₁ := by
    intro hfits es' t hlater hfew
    have hexact : long (s.elapsed_clock_ticks + ticks) = s.elapsed_clock_ticks + ticks := by
      unfold LONG_MAX at hfits
      exact long_of_range (by omega) hfits
    rw [hexact] at hwake
    have hdelayed : Delayed s.current (s.elapsed_clock_ticks + ticks) s₁ := by
      refine ⟨hn.current.2.trans hpids.ge, fun hself => ?_, hwake, by omega⟩
      have hdue := hready.2
      rw [hself, hwake] at hdue
      omega
    have hstill := Delayed.run hlater hdelayed hn₁ (by omega) hfits (by omega)
    exact ⟨hstill.stopped, hstill.not_eligible⟩
  have hearly : (s.desc s.current).state = .RUNNING → LONG_MAX < s.elapsed_clock_ticks + ticks →
      s₁.eligible s.current := by
    intro hrunning hwraps
    refine ⟨hstate.trans hrunning, ?_⟩
    rw [hwake, hclock, long_wrapped hhi hmax hwraps]
    unfold LONG_MAX at hmax
    omega
  refine ⟨hlate, fun hrunning => ⟨⟨fun hnot => ?_, hlate⟩, fun hwraps halone => ?_⟩⟩
  · by_contra hwraps
    obtain ⟨-, hineligible⟩ := hnot [] s₁ .nil hpos
    exact hineligible (hearly hrunning (not_le.mp hwraps))
  · by_contra hother
    exact halone _ hother hready

/-- The first process is delayed while its child runs. -/
theorem delay_not_early_first : ∃ s s₁, Run Step bootSys [.fork true] s ∧ Step s (.delay 3) s₁ ∧
    NotBefore 3 s.current s₁ := by
  have hrun : ((execAll 8 bootSys [.fork true]).bind fun s =>
      (exec 8 s (.delay 3)).map fun _ => (s.elapsed_clock_ticks, (s.desc s.current).state)) =
        some (0, .RUNNING) := by
    decide +kernel
  obtain ⟨s, hs, hrun⟩ := Option.bind_eq_some_iff.mp hrun
  obtain ⟨s₁, hs₁, heq⟩ := Option.map_eq_some_iff.mp hrun
  obtain ⟨hclock, hstate⟩ := Prod.mk.injEq _ _ _ _ ▸ heq
  have hboth := delay_not_early_iff (execAll_run hs) (by decide) (by decide) (exec_step hs₁)
  refine ⟨s, s₁, execAll_run hs, exec_step hs₁, (hboth.2 hstate).1.mpr ?_⟩
  rw [hclock]
  decide

end Yalnix.System
