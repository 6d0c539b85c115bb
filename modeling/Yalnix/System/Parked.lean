import Yalnix.System.Numbered

/-!
# Who is on a wait queue, in every run

The part of `Asleep` that exits leave alone: they change the state of no process but the one that
runs, and that one is on no queue.

* `Parked` — nodes name processes that are waiting, each on the queue of the point where it goes on.
* `Upright` — the running process is on no queue.
* `Effect.parked` — what the handlers do; `Regular.step` — no step changes it.
-/

set_option autoImplicit false

namespace Yalnix.System

open Transition (Run)

variable {s s' s₁ t : Sys} {n : Nat} {p q : PID} {w : WaitQueue} {k : Cont} {e : Event}
  {es : List Event}

/-! ## The invariant -/

structure Parked (s : Sys) : Prop where
  named : ∀ w, ∀ node ∈ s.queue w, (s.desc node.process).state = .WAITING ∧
    node.process ≤ s.max_pid ∧ (s.cont node.process).queue = some w
  nodup : ∀ w, ((s.queue w).map WaitQueueNode.process).Nodup

/-- The running process is on no queue. -/
def Upright (s : Sys) : Prop := ∀ w, ∀ node ∈ s.queue w, node.process ≠ s.current

theorem Parked.congr (h : Parked s) (hqueue : s'.queue = s.queue) (hdesc : s'.desc = s.desc)
    (hcont : s'.cont = s.cont) (hmax : s.max_pid ≤ s'.max_pid) : Parked s' := by
  refine ⟨fun w node hn => ?_, fun w => ?_⟩
  · rw [hqueue] at hn
    obtain ⟨hs, hle, hc⟩ := h.named w node hn
    rw [hdesc, hcont]
    exact ⟨hs, hle.trans hmax, hc⟩
  · rw [hqueue]
    exact h.nodup w

theorem Upright.congr (h : Upright s) (hqueue : s'.queue = s.queue)
    (hcurrent : s'.current = s.current) : Upright s' := by
  unfold Upright
  rw [hqueue, hcurrent]
  exact h

/-- A process that runs, or can, is on no queue. -/
theorem Parked.not_mem (h : Parked s) (hp : (s.desc p).state = .RUNNING) {node : WaitQueueNode}
    (hn : node ∈ s.queue w) : node.process ≠ p := by
  rintro rfl
  rw [(h.named w node hn).1] at hp
  cases hp

/-- Who does not go on at a queue is on none. -/
theorem Parked.upright (h : Parked s) (hk : (s.cont s.current).queue = none) : Upright s := by
  intro w node hn hp
  have hc := (h.named w node hn).2.2
  rw [hp, hk] at hc
  cases hc

/-- Back in user mode. -/
theorem Parked.returned (h : Parked (s.setCont s.current .user)) :
    Upright (s.setCont s.current .user) := by
  have hcont : (s.setCont s.current .user).cont s.current = .user := Function.update_self _ _ _
  exact h.upright (congrArg Cont.queue hcont)

/-- The running process may go on anywhere. -/
theorem Parked.setCont (h : Parked s) (hu : Upright s) (k : Cont) :
    Parked (s.setCont s.current k) := by
  refine ⟨fun w node hn => ?_, h.nodup⟩
  obtain ⟨hs, hle, hc⟩ := h.named w node hn
  refine ⟨hs, hle, ?_⟩
  unfold Sys.setCont
  simp only [Function.update_of_ne (hu w node hn)]
  exact hc

/-! ## Sleeping and waking -/

/-- **The running process goes to sleep on the queue of the point where it will go on.** -/
theorem Parked.sleep (h : Parked s) (hu : Upright s) (hle : s.current ≤ s.max_pid) (b : Bool)
    (hk : k.queue = some w) : Parked ((sleepOnWaitQueue w b s).setCont s.current k) := by
  have hdesc : ∀ p, p ≠ s.current → (sleepOnWaitQueue w b s).desc p = s.desc p :=
    fun p hp => sleep_desc_of_ne w b s hp
  have hself : ((sleepOnWaitQueue w b s).desc s.current).state = .WAITING := by
    rw [sleep_desc, Function.update_self]
  have hcont : ∀ p, p ≠ s.current →
      ((sleepOnWaitQueue w b s).setCont s.current k).cont p = s.cont p :=
    fun p hp => Function.update_of_ne hp _ _
  have hgoes : ((sleepOnWaitQueue w b s).setCont s.current k).cont s.current = k :=
    Function.update_self _ _ _
  have hold : ∀ v, ∀ node ∈ s.queue v,
      (((sleepOnWaitQueue w b s).setCont s.current k).desc node.process).state = .WAITING ∧
        node.process ≤ s.max_pid ∧
        (((sleepOnWaitQueue w b s).setCont s.current k).cont node.process).queue = some v := by
    intro v node hn
    rw [hcont _ (hu v node hn)]
    change ((sleepOnWaitQueue w b s).desc node.process).state = _ ∧ _ ∧ _
    rw [hdesc _ (hu v node hn)]
    exact h.named v node hn
  refine ⟨fun v node hn => ?_, fun v => nodup_sleep w b s (h.nodup v) (hu v)⟩
  rcases (mem_sleep w b s).mp hn with hn | ⟨rfl, rfl⟩
  · exact hold v node hn
  · rw [hgoes]
    exact ⟨hself, hle, hk⟩

/-- **Whoever is woken is on no queue any more.** -/
theorem Parked.signal (h : Parked s) (w : WaitQueue) (b : Bool) :
    Parked (signalWaitQueueWithOptions w b s) := by
  have happend := splitWoken_append b (s.queue w)
  rw [signal_eq]
  generalize (splitWoken b (s.queue w)).1 = woken at happend
  generalize (splitWoken b (s.queue w)).2 = rest at happend
  refine ⟨fun v node hn => ?_, fun v => ?_⟩
  · obtain ⟨hn', hnot⟩ :=
      mem_wake (h.nodup w) (fun v node hn => (h.named v node hn).2.2) happend hn
    have hdesc : (((wake woken s).setQueue w rest).desc node.process).state = _ := wake_state woken s _
    rw [hdesc, if_neg hnot]
    exact h.named v node hn'
  · rcases eq_or_ne v w with rfl | hv
    · have hnodup := h.nodup v
      rw [← happend, List.map_append, List.nodup_append] at hnodup
      rw [setQueue_queue_self]
      exact hnodup.2.1
    · rw [setQueue_queue_of_ne hv]
      exact h.nodup v

theorem Upright.signal (h : Upright s) (w : WaitQueue) (b : Bool) :
    Upright (signalWaitQueueWithOptions w b s) := by
  intro v node hn
  rw [signal_current]
  rcases eq_or_ne v w with rfl | hv
  · rw [signal_queue_self] at hn
    refine h v node ?_
    rw [← splitWoken_append b (s.queue v)]
    exact List.mem_append_right _ hn
  · rw [signal_queue_of_ne _ _ _ hv] at hn
    exact h v node hn

theorem Parked.promote (h : Parked s) (tty : Nat) :
    Parked (s.setQueue (.tty_write tty) (promote (s.queue (.tty_write tty)))) := by
  refine ⟨fun v node hn => ?_, fun v => ?_⟩
  · have hm := List.mem_map_of_mem (f := WaitQueueNode.process) hn
    rw [promote_processes] at hm
    obtain ⟨x, hx, he⟩ := List.mem_map.mp hm
    rw [← he]
    exact h.named v x hx
  · rw [promote_processes]
    exact h.nodup v

theorem Upright.promote (h : Upright s) (tty : Nat) :
    Upright (s.setQueue (.tty_write tty) (promote (s.queue (.tty_write tty)))) := by
  intro v node hn
  have hm := List.mem_map_of_mem (f := WaitQueueNode.process) hn
  rw [promote_processes] at hm
  obtain ⟨x, hx, he⟩ := List.mem_map.mp hm
  rw [← he]
  exact h v x hx

/-! ## Handlers -/

theorem Parked.newProcess (h : Parked s) (d : Descriptor) :
    Parked (Sys.newProcess { s with max_pid := s.max_pid + 1 } (s.max_pid + 1) d) := by
  refine ⟨fun w node hn => ?_, h.nodup⟩
  obtain ⟨hs, hle, hc⟩ := h.named w node hn
  have hne : node.process ≠ s.max_pid + 1 := ne_of_lt (Nat.lt_succ_of_le hle)
  refine ⟨?_, hle.trans (Nat.le_succ _), ?_⟩
  · rw [newProcess_desc_of_ne hne]
    exact hs
  · exact (congrArg Cont.queue (Function.update_of_ne hne _ _)).trans hc

theorem Quiet.parked (hq : Quiet s e s') (h : Parked s) : Parked s' := by
  refine ⟨fun w node hn => ?_, ?_⟩
  · rw [hq.state]
    rw [hq.same] at hn ⊢
    exact h.named w node hn
  · rw [hq.same]
    exact h.nodup

/-- A process that runs has at most got another state by a signal. -/
theorem openMutex_parked (m : Nat) (h : Parked s) : Parked (openMutex m s) := by
  unfold openMutex
  refine Parked.signal ?_ _ _
  exact h.congr rfl rfl rfl (le_refl _)

theorem openMutex_upright (m : Nat) (h : Upright s) : Upright (openMutex m s) := by
  unfold openMutex
  refine Upright.signal ?_ _ _
  exact h.congr rfl rfl

theorem Acquire.parked {m : Nat} (ha : Acquire m s k t) (h : Parked s) (hu : Upright s)
    (hle : s.current ≤ s.max_pid) : Parked (t.setCont t.current k) := by
  cases ha with
  | again _ =>
    refine Parked.setCont ?_ ?_ _
    · exact h.congr rfl rfl rfl (le_refl _)
    · exact hu.congr rfl rfl
  | take _ =>
    refine Parked.setCont ?_ ?_ _
    · exact h.congr rfl rfl rfl (le_refl _)
    · exact hu.congr rfl rfl
  | block cvar _ => exact h.sleep hu hle _ rfl

theorem Writing.parked {tty position : Nat} {buffer : List UInt8}
    (hw : Writing s e tty buffer position s₁) (h : Parked s) (hu : Upright s) :
    Parked s₁ ∧ Upright s₁ := by
  rw [hw.same]
  exact ⟨h.congr rfl rfl rfl (le_refl _), hu.congr rfl rfl⟩

theorem ttyReadBegin_parked (malloc : Bool) (tty : Nat) (line : List UInt8) (h : Parked s)
    (hu : Upright s) :
    Parked (ttyReadBegin malloc tty line s) ∧ Upright (ttyReadBegin malloc tty line s) := by
  unfold ttyReadBegin
  split
  · exact ⟨h, hu⟩
  · split
    · exact ⟨h.congr rfl rfl rfl (le_refl _), hu.congr rfl rfl⟩
    · refine ⟨Parked.signal ?_ _ _, Upright.signal ?_ _ _⟩
      · exact h.congr rfl rfl rfl (le_refl _)
      · exact hu.congr rfl rfl

theorem ttyWriteFinished_parked (tty : Nat) (h : Parked s) (hu : Upright s) :
    Parked (ttyWriteFinished tty s) ∧ Upright (ttyWriteFinished tty s) := by
  unfold ttyWriteFinished
  split
  · exact ⟨h, hu⟩
  · exact ⟨(h.promote tty).signal _ _, (hu.promote tty).signal _ _⟩

/-- **A handler puts the running process on the queue of the point where it goes on, or on none.** -/
theorem Effect.parked (he : Effect s e k t) (h : Parked s) (hu : Upright s)
    (hle : s.current ≤ s.max_pid) : Parked (t.setCont t.current k) := by
  cases he with
  | quiet quiet _ _ _ =>
    refine (quiet.parked h).setCont (hu.congr ?_ ?_) k
    · rw [quiet.same]
    · rw [quiet.same]
  | noMemory =>
    refine Parked.setCont ?_ ?_ _
    · exact h.congr rfl rfl rfl (Nat.le_succ _)
    · exact hu.congr rfl rfl
  | fork leader made child listed =>
    subst made
    refine Parked.setCont ?_ ?_ _
    · exact Parked.congr (h.newProcess _) rfl rfl rfl (le_refl _)
    · exact hu.congr rfl rfl
  | createThread leader made peer listed =>
    subst made
    refine Parked.setCont ?_ ?_ _
    · exact Parked.congr (h.newProcess _) rfl rfl rfl (le_refl _)
    · exact hu.congr rfl rfl
  | acquire made acquire => exact acquire.parked h hu hle
  | release _ made => exact (openMutex_parked _ h).setCont (openMutex_upright _ hu) _
  | @cvarWait m c _ _ mutex_id _ _ _ made cmade =>
    refine (openMutex_parked m h).sleep (openMutex_upright m hu) ?_ _ rfl
    rw [(openMutex_synced m s).current, (openMutex_synced m s).same]
    exact hle
  | @waitFails m m' _ _ _ made made' malloc acquire =>
    refine acquire.parked (openMutex_parked m' h) (openMutex_upright m' hu) ?_
    rw [(openMutex_synced m' s).current, (openMutex_synced m' s).same]
    exact hle
  | signal exclusive _ _ => exact (h.signal _ _).setCont (hu.signal _ _) _
  | readSleep u_length drained => exact h.sleep hu hle _ rfl
  | read ready run =>
    obtain ⟨bytes, -, -, -, rfl⟩ := ttyReadChunk_some run
    refine Parked.setCont (Parked.signal ?_ _ _) (Upright.signal ?_ _ _) _
    · exact h.congr rfl rfl rfl (le_refl _)
    · exact hu.congr rfl rfl
  | receive _ =>
    obtain ⟨h', hu'⟩ := ttyReadBegin_parked _ _ _ h hu
    exact h'.setCont hu' _
  | turnSleep buffer busy => exact h.sleep hu hle _ rfl
  | writeSleep writing more =>
    obtain ⟨h', hu'⟩ := writing.parked h hu
    refine Parked.sleep ?_ ?_ ?_ _ rfl
    · exact h'.congr rfl rfl rfl (le_refl _)
    · exact hu'.congr rfl rfl
    · rw [writing.same]
      exact hle
  | writeEnd writing done =>
    obtain ⟨h', hu'⟩ := writing.parked h hu
    refine Parked.setCont ?_ ?_ _
    · exact h'.congr rfl rfl rfl (le_refl _)
    · exact hu'.congr rfl rfl
  | @finished tty _ =>
    have hbase : Parked { s with
        outstanding := Function.update s.outstanding tty (s.outstanding tty - 1) } :=
      h.congr rfl rfl rfl (le_refl _)
    obtain ⟨h', hu'⟩ := ttyWriteFinished_parked tty hbase (hu.congr rfl rfl)
    exact h'.setCont hu' _

/-! ## Steps -/

/-- What holds in every state of the kernel. -/
structure Regular (s : Sys) : Prop where
  numbered : Numbered s
  parked : Parked s
  upright : Upright s

/-- An exit leaves the processes on the queues alone. -/
theorem Culled.parked {X : PID → Prop} (hc : Culled X s t) (h : Parked s) (hu : Upright s) :
    Parked t ∧ Upright t := by
  have hqueue : t.queue = s.queue := by
    rw [hc.same]
    rfl
  have hcont : t.cont = s.cont := by
    rw [hc.same]
    rfl
  have hmax : t.max_pid = s.max_pid := by
    rw [hc.same]
    rfl
  refine ⟨⟨fun w node hn => ?_, ?_⟩, hu.congr hqueue hc.current⟩
  · rw [hqueue] at hn
    obtain ⟨hs, hle, hk⟩ := h.named w node hn
    rw [hcont, hmax]
    refine ⟨?_, hle, hk⟩
    rcases (hc.desc node.process).state with hsame | ⟨hcurrent, -⟩
    · exact hsame.trans hs
    · exact absurd hcurrent (hu w node hn)
  · rw [hqueue]
    exact h.nodup

/-- Whoever can be switched to is on no queue. -/
theorem Parked.switch (h : Parked s) (hq : (s.desc q).state = .RUNNING) :
    Upright { s with current := q } :=
  fun _ _ hn => h.not_mem hq hn

/-- **In every state the processes on the queues wait, and the running process is not one of them.** -/
theorem Regular.step (h : Regular s) (hstep : Step s e s') : Regular s' := by
  have hn := (h.numbered.step hstep).1
  have hobjects := h.numbered.objects
  by_cases he : ∃ status, e = .exit status
  · obtain ⟨status, rfl⟩ := he
    obtain ⟨t, hcull, hend⟩ := hstep.exit_culled
    obtain ⟨hp, hu⟩ := hcull.parked h.parked h.upright
    rcases hend with rfl | ⟨q, rfl⟩
    · have hp' := hp.setCont hu .user
      exact ⟨hn, hp', hp'.returned⟩
    · refine ⟨hn, hp.congr rfl rfl rfl (le_refl _), ?_⟩
      have hqueue : t.queue = s.queue := by
        rw [hcull.same]
        rfl
      rcases hstep.next hobjects with hsame | hready | hnext
      · intro w node hw
        change node ∈ t.queue w at hw
        rw [hqueue] at hw
        rw [hsame]
        exact h.upright w node hw
      · exact hp.switch hready.1
      · intro w node hw
        change node ∈ t.queue w at hw
        rw [hqueue] at hw
        exact h.parked.not_mem hnext.eligible.1 hw
  · cases hstep.leads hobjects fun status hs => he ⟨status, hs⟩ with
    | stays effect ends =>
      have hp := effect.parked h.parked h.upright h.numbered.current.2
      subst ends
      exact ⟨hn, hp, hp.returned⟩
    | leaves _ effect next ends =>
      have hp := effect.parked h.parked h.upright h.numbered.current.2
      subst ends
      exact ⟨hn, hp.congr rfl rfl rfl (le_refl _), hp.switch next.eligible.1⟩

theorem Regular.run (h : Regular s) (hrun : Run Step s es t) : Regular t :=
  hrun.invariant (fun _ _ _ hs hstep => hs.step hstep) h

end Yalnix.System
