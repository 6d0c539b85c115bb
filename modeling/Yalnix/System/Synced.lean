import Yalnix.System.Effects

/-!
# What a step does to processes

* `Synced` — processes have been put to sleep and woken up.
* `Effect.processes` — the effects that do more than that to processes and their lists.
* `Effect.queued` — who gets on a wait queue.
-/

set_option autoImplicit false

namespace Yalnix.System

variable {s s' s₁ : Sys} {e : Event} {k : Cont}

/-! ## Effects on processes -/

/-- Processes have been put to sleep and woken up, and that is all about them. -/
structure Synced (s t : Sys) : Prop where
  same : t = { s with
    desc := t.desc
    queue := t.queue
    mutex := t.mutex
    ttys := t.ttys
    outstanding := t.outstanding
    locks := t.locks
    received := t.received
    delivered := t.delivered
    messages := t.messages
    transmitted := t.transmitted }
  desc : ∀ p, t.desc p = { s.desc p with state := (t.desc p).state }
  state : ∀ p, (t.desc p).state = (s.desc p).state ∨
    (t.desc p).state = .RUNNING ∧ (∃ w, ∃ node ∈ s.queue w, node.process = p) ∨
    p = s.current ∧ (t.desc p).state = .WAITING

theorem Synced.refl (s : Sys) : Synced s s := ⟨rfl, fun _ => rfl, fun _ => .inl rfl⟩

theorem Synced.current (h : Synced s s') : s'.current = s.current := by rw [h.same]

/-- Nothing but mutexes, terminals and logs has changed. -/
theorem Synced.congr {t : Sys} (h : Synced s t) (hsame : s' = { t with
      mutex := s'.mutex
      ttys := s'.ttys
      outstanding := s'.outstanding
      locks := s'.locks
      received := s'.received
      delivered := s'.delivered
      messages := s'.messages
      transmitted := s'.transmitted }) : Synced s s' := by
  have hdesc : s'.desc = t.desc := by rw [hsame]
  refine ⟨?_, fun p => ?_, fun p => ?_⟩
  · rw [hsame, h.same]
  · rw [hdesc]
    exact h.desc p
  · rw [hdesc]
    exact h.state p

theorem Synced.sleep {t : Sys} (h : Synced s t) (w : WaitQueue) (b : Bool) :
    Synced s (sleepOnWaitQueue w b t) := by
  refine ⟨?_, fun p => ?_, fun p => ?_⟩
  · unfold sleepOnWaitQueue Sys.setState Sys.setDesc Sys.setQueue
    rw [h.same]
  · rcases eq_or_ne p t.current with rfl | hp
    · rw [sleep_desc, Function.update_self, h.desc]
    · rw [sleep_desc_of_ne w b t hp]
      exact h.desc p
  · rcases eq_or_ne p t.current with rfl | hp
    · refine .inr (.inr ⟨h.current, ?_⟩)
      rw [sleep_desc, Function.update_self]
    · rw [sleep_desc_of_ne w b t hp]
      exact h.state p

theorem Synced.signal {t : Sys} (h : Synced s t) (w : WaitQueue) (b : Bool)
    (hq : ∀ node ∈ t.queue w, ∃ v, ∃ node' ∈ s.queue v, node'.process = node.process) :
    Synced s (signalWaitQueueWithOptions w b t) := by
  rw [signal_eq]
  refine ⟨?_, fun p => ?_, fun p => ?_⟩
  · unfold wake Sys.setQueue
    rw [h.same]
  · unfold wake Sys.setQueue
    dsimp only
    split
    · rw [h.desc]
    · exact h.desc p
  · change ((wake _ t).desc p).state = _ ∨ ((wake _ t).desc p).state = _ ∧ _ ∨
      _ ∧ ((wake _ t).desc p).state = _
    rw [wake_state]
    split
    · rename_i hp
      obtain ⟨x, hx, rfl⟩ := List.mem_map.mp hp
      refine .inr (.inl ⟨rfl, hq x ?_⟩)
      rw [← splitWoken_append b (t.queue w)]
      exact List.mem_append_left _ hx
    · exact h.state p

theorem openMutex_synced (m : Nat) (s : Sys) : Synced s (openMutex m s) := by
  unfold openMutex
  refine Synced.signal ?_ _ _ fun node hn => ⟨_, node, hn, rfl⟩
  exact (Synced.refl s).congr rfl

/-- A writer that has not slept yet has woken nobody. -/
theorem Writing.same {tty position : Nat} {buffer : List UInt8}
    (hw : Writing s e tty buffer position s₁) : s₁ = { s with
      ttys := s₁.ttys
      messages := s₁.messages
      outstanding := s₁.outstanding
      transmitted := s₁.transmitted } := by
  induction hw with
  | resumed _ => rfl
  | turn _ => rfl
  | failed _ _ _ ih =>
    rw [ih]
    rfl

theorem Acquire.synced {m : Nat} {t : Sys} (h : Synced s s₁) (ha : Acquire m s₁ k t) :
    Synced s t := by
  cases ha with
  | again _ => exact h.congr rfl
  | take _ => exact h.congr rfl
  | block cvar _ => exact h.sleep _ _

theorem promote_process (l : List WaitQueueNode) :
    (promote l).map WaitQueueNode.process = l.map WaitQueueNode.process := by
  induction l with
  | nil => rfl
  | cons node rest ih =>
    unfold promote
    split
    · rfl
    · rw [List.map_cons, List.map_cons, ih]

/-- Marking nodes as exclusive does not move them. -/
theorem promote_processes (s : Sys) (tty : Nat) (v : WaitQueue) :
    ((s.setQueue (.tty_write tty) (promote (s.queue (.tty_write tty)))).queue v).map
      WaitQueueNode.process = (s.queue v).map WaitQueueNode.process := by
  rcases eq_or_ne v (.tty_write tty) with rfl | hv
  · rw [setQueue_queue_self]
    exact promote_process _
  · rw [setQueue_queue_of_ne hv]

theorem ttyWriteFinished_synced (tty : Nat) {t : Sys} (h : Synced s t) (hq : t.queue = s.queue) :
    Synced s (ttyWriteFinished tty t) := by
  unfold ttyWriteFinished
  split
  · exact h
  · have hp : Synced s (t.setQueue (.tty_write tty) (promote (t.queue (.tty_write tty)))) := by
      refine ⟨?_, h.desc, h.state⟩
      unfold Sys.setQueue
      rw [h.same]
    refine hp.signal _ _ fun node hn => ?_
    · unfold Sys.setQueue at hn
      dsimp only at hn
      rw [Function.update_self] at hn
      have hm := List.mem_map_of_mem (f := WaitQueueNode.process) hn
      rw [promote_process, hq] at hm
      obtain ⟨x, hx, he⟩ := List.mem_map.mp hm
      exact ⟨_, x, hx, he⟩

/-- What `ttyRead` does when there is something to read. -/
theorem ttyReadChunk_some {tty : Nat} {u_length result : Int}
    (h : ttyReadChunk tty u_length s = .ret result s') : ∃ bytes, 0 ≤ result ∧
      result = min u_length ((s.ttys tty).read_buffer_size - (s.ttys tty).read_buffer_position) ∧
      bytes = (((s.ttys tty).read_buffer.getD []).drop
        (s.ttys tty).read_buffer_position.toNat).take result.toNat ∧
      s' = signalWaitQueue (.tty_read tty)
        { s.setTty tty { s.ttys tty with
            read_buffer_position := (s.ttys tty).read_buffer_position + result } with
          delivered := Function.update s.delivered tty (s.delivered tty ++ bytes) } := by
  unfold ttyReadChunk at h
  extract_lets x length position sub_length at h
  have hmin : sub_length =
      min u_length ((s.ttys tty).read_buffer_size - (s.ttys tty).read_buffer_position) := by
    unfold sub_length length position x
    split
    · rename_i hgt
      exact (min_eq_left hgt.le).symm
    · rename_i hle
      exact (min_eq_right (not_lt.mp hle)).symm
  clear_value sub_length
  by_cases hlt : sub_length < 0
  · rw [if_pos hlt] at h
    cases h
  · rw [if_neg hlt] at h
    cases h
    exact ⟨_, not_lt.mp hlt, hmin, rfl, rfl⟩

/-- What an effect does to processes and their lists. -/
inductive OnProcesses (s : Sys) (e : Event) : Cont → Sys → Prop
  | synced {k : Cont} {t : Sys} (synced : Synced s t) : OnProcesses s e k t
  | quiet {k : Cont} {t : Sys} (quiet : Quiet s e t) (queue : k.queue = none)
      (listed : k = .user ∨ t.procs = s.procs) (waits : k = .waitForPID → t = s ∧ Expects s) :
      OnProcesses s e k t
  | noMemory : OnProcesses s e .user { s with max_pid := s.max_pid + 1 }
  | fork {s₁ : Sys} {tree : Ring.Heap TreeNode} {procs : Ring.Heap ProcNode}
      (leader : (s.desc s.current).thread_leader = none)
      (made : s₁ = Sys.newProcess { s with max_pid := s.max_pid + 1 } (s.max_pid + 1)
        { newDescriptor with parent := some s.current })
      (child : addLastNode (.siblings (s.max_pid + 1)) (.children s.current) s₁.tree = some tree)
      (listed : addLastNode (.process_list (s.max_pid + 1)) .process_head s₁.procs = some procs) :
      OnProcesses s e .user { s₁ with tree := tree, procs := procs }
  | createThread {s₁ : Sys} {groups : Ring.Heap GroupNode} {procs : Ring.Heap ProcNode}
      (leader : (s.desc s.current).thread_leader = none)
      (made : s₁ = Sys.newProcess { s with max_pid := s.max_pid + 1 } (s.max_pid + 1)
        { newDescriptor with thread_leader := some s.current })
      (peer : addLastNode (.thread_peers (s.max_pid + 1)) (.thread_group s.current) s₁.groups =
        some groups)
      (listed : insertNode (.process_list (s.max_pid + 1)) (.process_list s.current) s₁.procs =
        some procs) :
      OnProcesses s e .user { s₁ with groups := groups, procs := procs }

theorem Effect.processes {t : Sys} (he : Effect s e k t) : OnProcesses s e k t := by
  cases he with
  | quiet quiet queue listed waits => exact .quiet quiet queue listed waits
  | noMemory => exact .noMemory
  | fork leader made child listed => exact .fork leader made child listed
  | createThread leader made peer listed => exact .createThread leader made peer listed
  | acquire made acquire => exact .synced (acquire.synced (Synced.refl s))
  | release _ made => exact .synced (openMutex_synced _ s)
  | cvarWait mutex_id _ _ _ made cmade => exact .synced ((openMutex_synced _ s).sleep _ _)
  | waitFails _ made made' malloc acquire => exact .synced (acquire.synced (openMutex_synced _ s))
  | signal exclusive _ _ =>
    exact .synced ((Synced.refl s).signal _ _ fun node hn => ⟨_, node, hn, rfl⟩)
  | readSleep u_length drained => exact .synced ((Synced.refl s).sleep _ _)
  | read ready run =>
    obtain ⟨bytes, -, -, -, rfl⟩ := ttyReadChunk_some run
    refine .synced (Synced.signal ?_ _ _ fun node hn => ⟨_, node, hn, rfl⟩)
    exact (Synced.refl s).congr rfl
  | receive _ =>
    unfold ttyReadBegin
    split
    · exact .synced (Synced.refl s)
    · split
      · exact .synced ((Synced.refl s).congr rfl)
      · refine .synced (Synced.signal ?_ _ _ fun node hn => ⟨_, node, hn, rfl⟩)
        exact (Synced.refl s).congr rfl
  | turnSleep buffer busy => exact .synced ((Synced.refl s).sleep _ _)
  | writeSleep writing more =>
    refine .synced (Synced.sleep ?_ _ _)
    refine (Synced.refl s).congr ?_
    rw [writing.same]
    rfl
  | writeEnd writing done =>
    refine .synced ((Synced.refl s).congr ?_)
    rw [writing.same]
    rfl
  | finished _ =>
    refine .synced (ttyWriteFinished_synced _ ?_ rfl)
    exact (Synced.refl s).congr rfl

/-! ## Who gets on a wait queue -/

/-- The processes on the wait queues were on one before, but for the running process. -/
def Queued (s t : Sys) : Prop := ∀ w, ∀ node ∈ t.queue w,
  node.process = s.current ∨ ∃ v, ∃ node' ∈ s.queue v, node'.process = node.process

theorem Queued.of_eq {t : Sys} (hq : t.queue = s.queue) : Queued s t := by
  intro w node hn
  rw [hq] at hn
  exact .inr ⟨w, node, hn, rfl⟩

theorem Queued.congr {t : Sys} (h : Queued s t) (hq : s'.queue = t.queue) : Queued s s' := by
  intro w node hn
  rw [hq] at hn
  exact h w node hn

theorem Queued.sleep {t : Sys} (h : Queued s t) (hc : t.current = s.current) (w : WaitQueue)
    (b : Bool) : Queued s (sleepOnWaitQueue w b t) := by
  intro v node hn
  rcases eq_or_ne v w with rfl | hv
  · rw [sleep_queue_self, mem_addNodeToWaitQueue] at hn
    rcases hn with rfl | hn
    · exact .inl hc
    · exact h v node hn
  · rw [sleep_queue_of_ne _ _ _ hv] at hn
    exact h v node hn

theorem Queued.signal {t : Sys} (h : Queued s t) (w : WaitQueue) (b : Bool) :
    Queued s (signalWaitQueueWithOptions w b t) := by
  intro v node hn
  rcases eq_or_ne v w with rfl | hv
  · rw [signal_queue_self] at hn
    refine h v node ?_
    rw [← splitWoken_append b (t.queue v)]
    exact List.mem_append_right _ hn
  · rw [signal_queue_of_ne _ _ _ hv] at hn
    exact h v node hn

theorem openMutex_queued (m : Nat) (s : Sys) : Queued s (openMutex m s) :=
  Queued.signal (Queued.of_eq rfl) _ _

theorem Acquire.queued {m : Nat} {t : Sys} (h : Queued s s₁) (hc : s₁.current = s.current)
    (ha : Acquire m s₁ k t) : Queued s t := by
  cases ha with
  | again _ => exact h.congr rfl
  | take _ => exact h.congr rfl
  | block cvar _ => exact h.sleep hc _ _

theorem ttyWriteFinished_queued (tty : Nat) {t : Sys} (hq : t.queue = s.queue) :
    Queued s (ttyWriteFinished tty t) := by
  unfold ttyWriteFinished
  split
  · exact Queued.of_eq hq
  · refine Queued.signal (fun v node hn => ?_) _ _
    rcases eq_or_ne v (.tty_write tty) with rfl | hv
    · rw [setQueue_queue_self] at hn
      have hm := List.mem_map_of_mem (f := WaitQueueNode.process) hn
      rw [promote_process, hq] at hm
      obtain ⟨x, hx, he⟩ := List.mem_map.mp hm
      exact .inr ⟨_, x, hx, he⟩
    · rw [setQueue_queue_of_ne hv, hq] at hn
      exact .inr ⟨v, node, hn, rfl⟩

/-- **A handler puts nobody on a wait queue but the running process.** -/
theorem Effect.queued {t : Sys} (he : Effect s e k t) : Queued s t := by
  cases he with
  | quiet quiet _ _ _ =>
    refine Queued.of_eq ?_
    rw [quiet.same]
  | noMemory => exact Queued.of_eq rfl
  | fork _ made _ _ =>
    subst made
    exact Queued.of_eq rfl
  | createThread _ made _ _ =>
    subst made
    exact Queued.of_eq rfl
  | acquire _ acquire => exact acquire.queued (Queued.of_eq rfl) rfl
  | release _ _ => exact openMutex_queued _ s
  | cvarWait _ _ _ _ _ _ =>
    refine (openMutex_queued _ s).sleep ?_ _ _
    rw [(openMutex_synced _ s).current]
  | waitFails _ _ _ _ acquire =>
    exact acquire.queued (openMutex_queued _ s) (openMutex_synced _ s).current
  | signal exclusive _ _ => exact (Queued.of_eq rfl).signal _ _
  | readSleep _ _ => exact (Queued.of_eq rfl).sleep rfl _ _
  | read _ run =>
    obtain ⟨bytes, -, -, -, rfl⟩ := ttyReadChunk_some run
    exact Queued.signal (Queued.of_eq rfl) _ _
  | receive _ =>
    unfold ttyReadBegin
    split
    · exact Queued.of_eq rfl
    · split
      · exact Queued.of_eq rfl
      · exact Queued.signal (Queued.of_eq rfl) _ _
  | turnSleep _ _ => exact (Queued.of_eq rfl).sleep rfl _ _
  | writeSleep writing _ =>
    refine Queued.sleep (Queued.of_eq ?_) ?_ _ _
    all_goals
      rw [writing.same]
      rfl
  | writeEnd writing _ =>
    refine Queued.of_eq ?_
    rw [writing.same]
    rfl
  | finished _ => exact ttyWriteFinished_queued _ rfl

end Yalnix.System
