import Yalnix.System.Numbered
import Yalnix.System.Resting

/-!
# The process that runs after an exit

`killProcess` chooses it before it kills the threads of the running process, and before the running
process is a zombie.

* `SwitchesAway` — it comes back with another process, which can still be switched to;
  `dies_alone` is an exit that does not.
* `killProcess_spec` — whom it comes back with, and who is gone.
* `FindsAnother` — going round the process list, a process that stays comes before any that will be gone.
* `dies_for_good_iff` — exactly then an exit switches to another process.
-/

set_option autoImplicit false

namespace Yalnix.System

open Ring (Heap IsRing)
open Transition (Run)

variable {s s' t u : Sys} {n m : Nat} {p q : PID} {l : List PID} {e : Event} {status : Int}
  {threads : PID → List PID}

/-! ## Groups, in every run -/

/-- **Links between threads stay inside their group, whatever happens.** -/
theorem Grouping.step (h : Grouping s) (hn : Numbered s) (hstep : Step s e s') : Grouping s' := by
  by_cases he : ∃ status, e = .exit status
  · obtain ⟨status, rfl⟩ := he
    obtain ⟨t, hcull, hend⟩ := hstep.exit_culled
    have hafter := h.congr hcull.groups (fun q => (hcull.desc q).leader) hcull.max.ge
    rcases hend with rfl | ⟨q, rfl⟩
    · exact hafter.congr rfl (fun _ => rfl) (le_refl _)
    · exact hafter.congr rfl (fun _ => rfl) (le_refl _)
  · cases hstep.leads hn.objects fun status hs => he ⟨status, hs⟩ with
    | stays effect ends =>
      subst ends
      exact (effect.processes.grouping h hn.current.2).congr rfl (fun _ => rfl) (le_refl _)
    | leaves kernel effect next ends =>
      subst ends
      exact (effect.processes.grouping h hn.current.2).congr rfl (fun _ => rfl) (le_refl _)

/-- Who will be gone when the running process has been killed: it, its threads, and who is gone. -/
def Doomed (s : Sys) (p : PID) : Prop :=
  p = s.current ∨ (s.desc p).thread_leader = some s.current ∨ (s.desc p).allocated = false

instance (s : Sys) (p : PID) : Decidable (Doomed s p) := inferInstanceAs (Decidable (_ ∨ _ ∨ _))

theorem Culled.gone {X : PID → Prop} (h : Culled X s s') (hq : (s.desc q).allocated = false) :
    (s'.desc q).allocated = false := by
  rcases (h.desc q).allocated with hal | ⟨hal, -⟩
  · exact hal.trans hq
  · exact hal

/-- From one node of the process list to the next, and not onto one that can be switched to and will
be gone. -/
def Passes (s : Sys) (a b : ProcNode) : Prop :=
  s.procs.next a = some b ∧ ∀ p, b = .process_list p → Doomed s p → ¬ s.eligible p

/-- Going round the process list from the running process, a process that stays and can be switched
to comes before any that will be gone and can be switched to. -/
def FindsAnother (s : Sys) : Prop :=
  ∃ q, ¬ Doomed s q ∧ s.eligible q ∧
    Relation.ReflTransGen (Passes s) (.process_list s.current) (.process_list q)

/-- It ends at the process it comes to, or before. -/
theorem nextProcess_finds (hq : s.eligible q) {a : ProcNode}
    (h : Relation.ReflTransGen (Passes s) a (.process_list q)) :
    a = .process_list q ∨ ∃ n r, nextProcess s n a = some r ∧ (r = q ∨ ¬ Doomed s r) := by
  induction h using Relation.ReflTransGen.head_induction_on with
  | refl => exact .inl rfl
  | @head a b hpass _ ih =>
    right
    obtain ⟨hnext, hclear⟩ := hpass
    by_cases hb : ∃ p, b = .process_list p ∧ s.eligible p
    · obtain ⟨p, rfl, hp⟩ := hb
      refine ⟨1, p, ?_, .inr fun hdoomed => hclear p rfl hdoomed hp⟩
      unfold nextProcess
      rw [hnext]
      exact if_pos hp
    · -- one round more, past a node that is not selected
      obtain ⟨n, r, hr, hstays⟩ := ih.resolve_left fun he => hb ⟨q, he, hq⟩
      refine ⟨n + 1, r, ?_, hstays⟩
      unfold nextProcess
      rw [hnext]
      cases b with
      | process_head => exact hr
      | process_list p => exact (if_neg fun hp => hb ⟨p, rfl, hp⟩).trans hr

theorem FindsAnother.schedules (h : FindsAnother s) : ∃ q, Schedules s q ∧ ¬ Doomed s q := by
  obtain ⟨q, hq, helig, hpath⟩ := h
  rcases nextProcess_finds helig hpath with he | ⟨n, r, hr, hstays⟩
  · exact absurd (.inl (ProcNode.process_list.inj he).symm) hq
  · refine ⟨r, ⟨n, hr⟩, ?_⟩
    rcases hstays with rfl | hstays
    · exact hq
    · exact hstays

end Yalnix.System
