import Yalnix.Core.Confined
import Yalnix.System.RoundRobin

/-!
# Pids, in every run

* `ProcNode.upTo` — the node is that of a process that has been made.
* `Numbered` — the process list leads only to such nodes, and such a process runs.
* `Numbered.step`, `numbered_boot` — no step changes that, not even an exit.
* `Step.next` — who runs after a step ran before, or can be switched to.
-/

set_option autoImplicit false

namespace Yalnix.System

open Transition (Run)

variable {s s' t : Sys} {n : Nat} {p q : PID} {e : Event} {k : Cont} {status : Int}

/-! ## The invariant -/

/-- The head of the process list, or the node of a process that has been made. -/
def ProcNode.upTo (max_pid : Nat) : ProcNode → Prop
  | .process_head => True
  | .process_list p => 0 < p ∧ p ≤ max_pid

structure Numbered (s : Sys) : Prop where
  links : Targets (ProcNode.upTo s.max_pid) s.procs
  current : 0 < s.current ∧ s.current ≤ s.max_pid
  objects : Objects s

theorem ProcNode.upTo_mono {a b : Nat} (hab : a ≤ b) {node : ProcNode} (h : node.upTo a) :
    node.upTo b := by
  cases node with
  | process_head => exact True.intro
  | process_list p => exact ⟨h.1, h.2.trans hab⟩

/-- Whoever the scheduler selects has been made. -/
theorem scheduled_upTo (hl : Targets (ProcNode.upTo s.max_pid) s.procs) (hq : Schedules s q) :
    0 < q ∧ q ≤ s.max_pid := by
  obtain ⟨n, hn⟩ := hq
  obtain ⟨a, ha⟩ := nextProcess_listed hn
  exact hl.next a _ ha

/-! ## Exits -/

/-- The process list still leads to the same processes, or fewer. -/
def Renumbers (s s' : Sys) : Prop :=
  s'.max_pid = s.max_pid ∧ ∀ X, Targets X s.procs → Targets X s'.procs

theorem exitRules_renumbers : ExitRules Renumbers where
  refl _ := ⟨rfl, fun _ h => h⟩
  trans h h' := ⟨h'.1.trans h.1, fun X hX => h'.2 X (h.2 X hX)⟩
  follow s p := by
    unfold Sys.follow
    split
    · exact ⟨rfl, fun _ h => h⟩
    · exact ⟨rfl, fun _ h => h⟩
  setParent _ _ _ := ⟨rfl, fun _ h => h⟩
  free h := by
    unfold freeDescriptor at h
    simp only [Option.bind_eq_bind, Option.bind_eq_some_iff, Option.some.injEq] at h
    obtain ⟨idle, -, tree₁, -, tree₂, -, tree₃, -, procs, hprocs, rfl⟩ := h
    exact ⟨rfl, fun X hX => hX.removeNode hprocs⟩
  give h := by
    unfold giveChildren at h
    simp only [Option.bind_eq_bind, Option.bind_eq_some_iff] at h
    obtain ⟨empty, -, h⟩ := h
    split at h
    · cases h
      exact ⟨rfl, fun _ h => h⟩
    · simp only [Option.bind_eq_some_iff, Option.some.injEq] at h
      obtain ⟨parent, -, tree, -, rfl⟩ := h
      exact ⟨rfl, fun _ h => h⟩
  zombie _ _ := ⟨rfl, fun _ h => h⟩

/-! ## Other handlers -/

/-- A reaped process is taken off the list. -/
theorem Reaps.renumbers (h : Reaps s e s') : Renumbers s s' := by
  cases h with
  | child _ _ _ run =>
    obtain ⟨hmax, hlinks⟩ := exitRules_renumbers.releaseProcess run
    exact ⟨hmax, hlinks⟩
  | thread _ _ _ run =>
    obtain ⟨hmax, hlinks⟩ := exitRules_renumbers.releaseProcess run
    exact ⟨hmax, hlinks⟩

theorem Numbered.newProcess (h : Numbered s) (d : Descriptor) :
    Targets (ProcNode.upTo (s.max_pid + 1))
      (Sys.newProcess { s with max_pid := s.max_pid + 1 } (s.max_pid + 1) d).procs := by
  apply Targets.linkedListNodeInit
  · exact h.links.mono fun _ ha => ProcNode.upTo_mono (Nat.le_succ _) ha
  · exact ⟨Nat.succ_pos _, le_refl _⟩

theorem OnProcesses.numbered (hp : OnProcesses s e k t) (h : Numbered s) :
    s.max_pid ≤ t.max_pid ∧ Targets (ProcNode.upTo t.max_pid) t.procs := by
  have hnode : ProcNode.upTo (s.max_pid + 1) (.process_list (s.max_pid + 1)) :=
    ⟨Nat.succ_pos _, le_refl _⟩
  cases hp with
  | synced synced =>
    rw [synced.same]
    exact ⟨le_refl _, h.links⟩
  | quiet quiet _ _ _ =>
    have hmax : t.max_pid = s.max_pid := by rw [quiet.same]
    refine ⟨hmax.ge, ?_⟩
    rw [hmax]
    rcases quiet.lists with hlists | hreaps
    · rw [hlists.procs]
      exact h.links
    · exact hreaps.renumbers.2 _ h.links
  | noMemory =>
    exact ⟨Nat.le_succ _, h.links.mono fun _ ha => ProcNode.upTo_mono (Nat.le_succ _) ha⟩
  | fork leader made child listed =>
    subst made
    refine ⟨Nat.le_succ _, ?_⟩
    exact (h.newProcess _).addLastNode hnode listed
  | createThread leader made peer listed =>
    subst made
    refine ⟨Nat.le_succ _, ?_⟩
    have hparent : ProcNode.upTo (s.max_pid + 1) (.process_list s.current) :=
      ⟨h.current.1, h.current.2.trans (Nat.le_succ _)⟩
    exact (h.newProcess _).insertNode hnode hparent listed

/-! ## Steps -/

/-- **Who runs after a step has run before, or can be switched to.** -/
theorem Step.next (hs : Objects s) (h : Step s e s') :
    s'.current = s.current ∨ s'.eligible s'.current ∨ Schedules s s'.current := by
  obtain ⟨-, n, hend⟩ := h
  generalize ho : handle n s e = o at hend
  cases hend with
  | ret =>
    left
    exact handle_current hs ho
  | schedule next =>
    right
    left
    exact next.eligible
  | switched =>
    right
    right
    exact switched_next hs ho

/-- **The process list leads to processes that have been made, whatever happens.** -/
theorem Numbered.step (h : Numbered s) (hstep : Step s e s') :
    Numbered s' ∧ s.max_pid ≤ s'.max_pid := by
  have hobjects := h.objects.step hstep
  by_cases he : ∃ status, e = .exit status
  · obtain ⟨status, rfl⟩ := he
    obtain ⟨hmax, hlinks⟩ := exitRules_renumbers.step (fun _ _ => ⟨rfl, fun _ h => h⟩)
      (fun _ _ _ => ⟨rfl, fun _ h => h⟩) hstep
    refine ⟨⟨?_, ?_, hobjects⟩, hmax.ge⟩
    · rw [hmax]
      exact hlinks _ h.links
    · rw [hmax]
      obtain ⟨-, n, hend⟩ := hstep
      generalize ho : handle n s (.exit status) = o at hend
      cases hend with
      | ret =>
        have hcurrent := handle_current h.objects ho
        exact ⟨lt_of_lt_of_eq h.current.1 hcurrent.symm, hcurrent.le.trans h.current.2⟩
      | @schedule k t q next =>
        have hcalls : killCurrentProcess n status s = .schedule k t := ho
        unfold killCurrentProcess at hcalls
        split at hcalls
        · cases hcalls
        · cases hcalls
        · split at hcalls
          · cases hcalls
          · cases hcalls
      | switched => exact scheduled_upTo h.links (switched_next h.objects ho)
  · cases hstep.leads h.objects fun status hs => he ⟨status, hs⟩ with
    | stays effect ends =>
      obtain ⟨hmax, hlinks⟩ := effect.processes.numbered h
      have hcurrent := effect.processes.current
      subst ends
      refine ⟨⟨hlinks, ⟨lt_of_lt_of_eq h.current.1 hcurrent.symm, ?_⟩, hobjects⟩, hmax⟩
      exact hcurrent.le.trans (h.current.2.trans hmax)
    | leaves _ effect next ends =>
      obtain ⟨hmax, hlinks⟩ := effect.processes.numbered h
      subst ends
      have hnext := scheduled_upTo hlinks next
      exact ⟨⟨hlinks, hnext, hobjects⟩, hmax⟩

theorem numbered_boot : Numbered bootSys := by
  have hhead : ProcNode.upTo 1 .process_head := True.intro
  have hone : ProcNode.upTo 1 (.process_list 1) := ⟨Nat.one_pos, le_refl _⟩
  have hbase : Targets (ProcNode.upTo 1) (linkedListNodeInit (.process_list 1)
      (linkedListNodeInit .process_head fun _ => none)) := by
    have hnone : Targets (ProcNode.upTo 1) fun _ => none := ⟨nofun, nofun⟩
    exact (hnone.linkedListNodeInit hhead).linkedListNodeInit hone
  refine ⟨?_, ⟨Nat.one_pos, le_refl _⟩, objects_boot⟩
  unfold bootSys
  dsimp only
  cases hadd : addLastNode (.process_list 1) .process_head
      (((emptySys.setDesc 1 fun _ => newDescriptor).initNodes 1).procs) with
  | none => exact hbase
  | some procs => exact hbase.addLastNode hone hadd

theorem Numbered.run {es : List Event} (h : Numbered s) (hrun : Run Step s es t) : Numbered t :=
  hrun.invariant (fun _ _ _ hs hstep => (hs.step hstep).1) h

end Yalnix.System
