import Yalnix.System.Syscalls

/-!
# Wait queues

* `wakeLoop_eq` — waking takes nodes from the front of a queue.
* `splitWoken_exclusive`, `splitWoken_broadcast` — one node, or all of them.
* What sleeping and waking leave alone, field by field.
-/

set_option autoImplicit false

namespace Yalnix.System

variable {s : Sys} {w v : WaitQueue} {p : PID}

@[simp] theorem setQueue_queue_self (s : Sys) (w : WaitQueue) (l : List WaitQueueNode) :
    (s.setQueue w l).queue w = l :=
  Function.update_self _ _ _

theorem setQueue_queue_of_ne (hv : v ≠ w) (s : Sys) (l : List WaitQueueNode) :
    (s.setQueue w l).queue v = s.queue v :=
  Function.update_of_ne hv _ _

/-! ## Going to sleep -/

theorem mem_addNodeToWaitQueue {node x : WaitQueueNode} {l : List WaitQueueNode} :
    x ∈ addNodeToWaitQueue node l ↔ x = node ∨ x ∈ l := by
  unfold addNodeToWaitQueue
  split
  · simp [or_comm]
  · simp

theorem nodup_addNodeToWaitQueue {node : WaitQueueNode} {l : List WaitQueueNode}
    (hl : (l.map WaitQueueNode.process).Nodup) (hn : ∀ x ∈ l, x.process ≠ node.process) :
    ((addNodeToWaitQueue node l).map WaitQueueNode.process).Nodup := by
  have hnot : node.process ∉ l.map WaitQueueNode.process := by
    intro hm
    obtain ⟨x, hx, he⟩ := List.mem_map.mp hm
    exact hn x hx he
  unfold addNodeToWaitQueue
  split
  · rw [List.map_append]
    refine List.nodup_append.mpr ⟨hl, by simp, fun a ha b hb => ?_⟩
    rw [List.map_singleton, List.mem_singleton] at hb
    rintro rfl
    exact hnot (hb ▸ ha)
  · exact List.nodup_cons.mpr ⟨hnot, hl⟩

section sleep

variable (w : WaitQueue) (b : Bool) (s : Sys)

theorem sleep_queue : (sleepOnWaitQueue w b s).queue =
    Function.update s.queue w (addNodeToWaitQueue ⟨b, s.current⟩ (s.queue w)) := rfl

theorem sleep_desc : (sleepOnWaitQueue w b s).desc =
    Function.update s.desc s.current { s.desc s.current with state := .WAITING } := rfl

@[simp] theorem sleep_current : (sleepOnWaitQueue w b s).current = s.current := rfl

@[simp] theorem sleep_cont : (sleepOnWaitQueue w b s).cont = s.cont := rfl

@[simp] theorem sleep_mutex : (sleepOnWaitQueue w b s).mutex = s.mutex := rfl

@[simp] theorem sleep_ttys : (sleepOnWaitQueue w b s).ttys = s.ttys := rfl

theorem sleep_queue_self (b : Bool) :
    (sleepOnWaitQueue w b s).queue w = addNodeToWaitQueue ⟨b, s.current⟩ (s.queue w) := by
  rw [sleep_queue, Function.update_self]

theorem sleep_queue_of_ne (hv : v ≠ w) : (sleepOnWaitQueue w b s).queue v = s.queue v := by
  rw [sleep_queue, Function.update_of_ne hv]

theorem sleep_desc_of_ne (hp : p ≠ s.current) : (sleepOnWaitQueue w b s).desc p = s.desc p := by
  rw [sleep_desc, Function.update_of_ne hp]

theorem mem_sleep {node : WaitQueueNode} : node ∈ (sleepOnWaitQueue w b s).queue v ↔
    node ∈ s.queue v ∨ v = w ∧ node = ⟨b, s.current⟩ := by
  rcases eq_or_ne v w with rfl | hv
  · rw [sleep_queue_self, mem_addNodeToWaitQueue]
    simp [or_comm]
  · rw [sleep_queue_of_ne w b s hv]
    simp [hv]

theorem nodup_sleep (hnodup : ((s.queue v).map WaitQueueNode.process).Nodup)
    (hnot : ∀ node ∈ s.queue v, node.process ≠ s.current) :
    (((sleepOnWaitQueue w b s).queue v).map WaitQueueNode.process).Nodup := by
  rcases eq_or_ne v w with rfl | hv
  · rw [sleep_queue_self]
    exact nodup_addNodeToWaitQueue hnodup hnot
  · rw [sleep_queue_of_ne w b s hv]
    exact hnodup

end sleep

/-! ## Waking up -/

/-- The nodes that are woken, and those that stay. -/
def splitWoken (wakeup_is_exclusive : Bool) :
    List WaitQueueNode → List WaitQueueNode × List WaitQueueNode
  | [] => ([], [])
  | node :: rest =>
    if node.is_exclusive && wakeup_is_exclusive then ([node], rest)
    else (node :: (splitWoken wakeup_is_exclusive rest).1, (splitWoken wakeup_is_exclusive rest).2)

/-- The processes of `l` are running. -/
def wake (l : List WaitQueueNode) (s : Sys) : Sys :=
  { s with desc := fun p =>
    if p ∈ l.map WaitQueueNode.process then { s.desc p with state := .RUNNING } else s.desc p }

theorem splitWoken_append (b : Bool) (l : List WaitQueueNode) :
    (splitWoken b l).1 ++ (splitWoken b l).2 = l := by
  induction l with
  | nil => rfl
  | cons node rest ih =>
    unfold splitWoken
    split
    · rfl
    · rw [List.cons_append, ih]

/-- **Waking takes nodes from the front of the queue.** -/
theorem wakeLoop_eq (w : WaitQueue) (b : Bool) (l : List WaitQueueNode) (s : Sys) :
    wakeLoop w b l s = (wake (splitWoken b l).1 s).setQueue w (splitWoken b l).2 := by
  induction l generalizing s with
  | nil => simp [wakeLoop, splitWoken, wake]
  | cons node rest ih =>
    unfold wakeLoop splitWoken
    have hone : wake [node] s = s.setState node.process .RUNNING := by
      unfold wake Sys.setState Sys.setDesc
      congr 1
      funext p
      by_cases hp : p = node.process
      · subst hp
        simp
      · simp [hp]
    split
    · rw [hone]
    · rw [ih]
      congr 1
      unfold wake Sys.setState Sys.setDesc
      congr 1
      funext p
      by_cases hp : p = node.process
      · subst hp
        simp
      · simp [hp]

theorem signal_eq (w : WaitQueue) (b : Bool) (s : Sys) :
    signalWaitQueueWithOptions w b s =
      (wake (splitWoken b (s.queue w)).1 s).setQueue w (splitWoken b (s.queue w)).2 :=
  wakeLoop_eq w b _ s

/-- A signal wakes the first node where all are exclusive. -/
theorem splitWoken_exclusive {l : List WaitQueueNode} (h : ∀ node ∈ l, node.is_exclusive = true) :
    splitWoken true l = (l.take 1, l.tail) := by
  cases l with
  | nil => rfl
  | cons node rest =>
    unfold splitWoken
    rw [h node List.mem_cons_self]
    rfl

theorem splitWoken_broadcast (l : List WaitQueueNode) : splitWoken false l = (l, []) := by
  induction l with
  | nil => rfl
  | cons node rest ih =>
    unfold splitWoken
    rw [Bool.and_false, ih]
    rfl

theorem allocated_wake (l : List WaitQueueNode) (p : PID) :
    ((wake l s).desc p).allocated = (s.desc p).allocated ∧
      ((wake l s).desc p).thread_leader = (s.desc p).thread_leader := by
  unfold wake
  dsimp only
  split
  · exact ⟨rfl, rfl⟩
  · exact ⟨rfl, rfl⟩

/-- A process goes on at one point only: whoever is woken is on no queue any more. -/
theorem mem_wake {a l : List WaitQueueNode} {node : WaitQueueNode}
    (hnodup : ((s.queue w).map WaitQueueNode.process).Nodup)
    (hcont : ∀ v, ∀ node ∈ s.queue v, (s.cont node.process).queue = some v) (hal : a ++ l = s.queue w)
    (hn : node ∈ ((wake a s).setQueue w l).queue v) :
    node ∈ s.queue v ∧ node.process ∉ a.map WaitQueueNode.process := by
  rcases eq_or_ne v w with rfl | hv
  · rw [setQueue_queue_self] at hn
    rw [← hal, List.map_append, List.nodup_append] at hnodup
    refine ⟨hal ▸ List.mem_append_right a hn, fun hm => ?_⟩
    exact hnodup.2.2 _ hm _ (List.mem_map_of_mem hn) rfl
  · rw [setQueue_queue_of_ne hv] at hn
    refine ⟨hn, fun hm => hv ?_⟩
    obtain ⟨x, hx, he⟩ := List.mem_map.mp hm
    have hthere := hcont w x (hal ▸ List.mem_append_left l hx)
    rw [he, hcont v node hn] at hthere
    exact Option.some.inj hthere

section signal

variable (w : WaitQueue) (b : Bool) (s : Sys)

@[simp] theorem signal_current : (signalWaitQueueWithOptions w b s).current = s.current := by
  rw [signal_eq]; rfl

@[simp] theorem signal_cont : (signalWaitQueueWithOptions w b s).cont = s.cont := by
  rw [signal_eq]; rfl

@[simp] theorem signal_mutex : (signalWaitQueueWithOptions w b s).mutex = s.mutex := by
  rw [signal_eq]; rfl

@[simp] theorem signal_ttys : (signalWaitQueueWithOptions w b s).ttys = s.ttys := by
  rw [signal_eq]; rfl

@[simp] theorem signal_resources : (signalWaitQueueWithOptions w b s).resources = s.resources := by
  rw [signal_eq]; rfl

@[simp] theorem signal_objects : (signalWaitQueueWithOptions w b s).objects = s.objects := by
  rw [signal_eq]; rfl

@[simp] theorem signal_locks : (signalWaitQueueWithOptions w b s).locks = s.locks := by
  rw [signal_eq]; rfl

theorem signal_queue : (signalWaitQueueWithOptions w b s).queue =
    Function.update s.queue w (splitWoken b (s.queue w)).2 := by
  rw [signal_eq]; rfl

theorem signal_queue_self :
    (signalWaitQueueWithOptions w b s).queue w = (splitWoken b (s.queue w)).2 := by
  rw [signal_queue, Function.update_self]

theorem signal_queue_of_ne (hv : v ≠ w) :
    (signalWaitQueueWithOptions w b s).queue v = s.queue v := by
  rw [signal_queue, Function.update_of_ne hv]

theorem signal_desc : (signalWaitQueueWithOptions w b s).desc =
    (wake (splitWoken b (s.queue w)).1 s).desc := by
  rw [signal_eq]; rfl

end signal

theorem ttyWriteFinished_queue_of_ne {tty : Nat} (hv : v ≠ .tty_write tty) (s : Sys) :
    (ttyWriteFinished tty s).queue v = s.queue v := by
  unfold ttyWriteFinished signalWaitQueue
  split
  · rfl
  · rw [signal_queue_of_ne _ _ _ hv, setQueue_queue_of_ne hv]

theorem wake_state (l : List WaitQueueNode) (s : Sys) (p : PID) : ((wake l s).desc p).state =
    if p ∈ l.map WaitQueueNode.process then .RUNNING else (s.desc p).state := by
  unfold wake
  dsimp only
  split
  · rfl
  · rfl

end Yalnix.System
