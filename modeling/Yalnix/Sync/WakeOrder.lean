import Yalnix.Sync.WaitQueue
import Yalnix.Lib.Transition

/-!
# The order of waking up

* `lookups_succeed_iff` — when a signal reads no link of a node it has freed.
* `Arranged` — on a queue the waiters that are not exclusive come first.
* `wake_up_order` — after any operations, whom a signal and a broadcast wake, and in which order.
-/

set_option autoImplicit false

namespace Yalnix.Sync

open Ring (Heap IsRing Rings Outside)
open Transition (Run)
open Yalnix.System (WaitQueueNode splitWoken)

variable {ν : Type} [DecidableEq ν] {s s₁ s' : QueueHeap ν} {heads : ν → Prop} {f : ν → List ν}
  {a b x : ν} {l u v : List ν} {excl : Bool}

/-! ## Freed nodes -/

/-- Where the loop goes on, the node whose link it reads has been freed. -/
theorem erased_link (hr : Rings s.links heads f) (ha : heads a) (hf : f a = x :: l)
    (hgo : ((s.fields x).is_exclusive && excl) = false) :
    signalWaitQueueWithOptions true a excl 1 s = .error .fault := by
  have hring := hr.ring a ha
  rw [hf] at hring
  have hne : x ≠ a := by
    rintro rfl
    exact hring.head_not_mem List.mem_cons_self
  obtain ⟨links, -, -, hrun⟩ := wakeFirst_run hr ha hf true excl
  rw [hgo] at hrun
  unfold signalWaitQueueWithOptions
  rw [bind_access hring.next_head]
  refine forEachElement_gone hne hrun ?_
  simp [free, Heap.next]

/-- However many rounds a signal runs, it reads nothing that has been freed. -/
def LookupsSucceed (a : ν) (wakeup_is_exclusive : Bool) (s : QueueHeap ν) : Prop :=
  ∀ n, ∃ r, signalWaitQueueWithOptions true a wakeup_is_exclusive n s = .ok r

/-- **Every lookup of a signal succeeds exactly if the queue is empty, or the loop breaks off at its
first node.** -/
theorem lookups_succeed_iff (hr : Rings s.links heads f) (ha : heads a) (excl : Bool) :
    LookupsSucceed a excl s ↔
      f a = [] ∨ excl = true ∧ ∃ x ∈ (f a).head?, (s.fields x).is_exclusive = true := by
  have hring := hr.ring a ha
  constructor
  · intro hall
    match hf : f a with
    | [] => exact .inl rfl
    | x :: l =>
      cases hgo : (s.fields x).is_exclusive && excl with
      | true =>
        rw [Bool.and_eq_true] at hgo
        exact .inr ⟨hgo.2, x, rfl, hgo.1⟩
      | false =>
        obtain ⟨r, hrun⟩ := hall 1
        rw [erased_link hr ha hf hgo] at hrun
        cases hrun
  · intro hstop n
    unfold signalWaitQueueWithOptions
    match hf : f a, hstop with
    | [], _ =>
      rw [hf] at hring
      rw [bind_access (Ring.isRing_nil.mp hring).1]
      cases n with
      | zero => exact ⟨_, rfl⟩
      | succ n => exact ⟨_, forEachElement_head⟩
    | x :: l, hstop =>
      obtain ⟨rfl, y, hy, hfirst⟩ := hstop.resolve_left (List.cons_ne_nil _ _)
      cases hy
      rw [hf] at hring
      rw [bind_access hring.next_head]
      cases n with
      | zero => exact ⟨_, rfl⟩
      | succ n =>
        have hne : x ≠ a := by
          rintro rfl
          exact hring.head_not_mem List.mem_cons_self
        obtain ⟨links, -, -, hrun⟩ := wakeFirst_run hr ha hf true true
        rw [hfirst] at hrun
        exact ⟨_, forEachElement_break hne hrun⟩

/-- One queue, with a reader of a terminal on it. -/
def oneWaiter : QueueHeap (Fin 2) where
  links := fun i => some ⟨1 - i, 1 - i⟩
  fields := fun _ => ⟨true, 2⟩
  state := fun _ => .WAITING
  woken := []

theorem oneWaiter_rings : Rings oneWaiter.links (· = 0) fun _ => [1] := by
  constructor
  · decide
  · decide

/-- A signal to one waiter reads no freed node. -/
theorem oneWaiter_signal : LookupsSucceed 0 true oneWaiter :=
  (lookups_succeed_iff oneWaiter_rings rfl true).mpr (.inr ⟨rfl, 1, rfl, rfl⟩)

/-- **A broadcast to one waiter does.** -/
theorem broadcast_reads_freed : signalWaitQueueWithOptions true 0 false 1 oneWaiter = .error .fault := rfl

/-! ## Operations on queues -/

/-- What processes do to the queues of a heap.  `ttyWriteFinished` is a promotion and a signal. -/
inductive Op (ν : Type) where
  | sleep (node head : ν) (exclusive : Bool) (p : PID)
  | signal (head : ν)
  | broadcast (head : ν)
  | promote (head : ν)

/-- The heap, and what has happened at each queue so far. -/
structure Queues (ν : Type) where
  heap : QueueHeap ν
  /-- Whether the process of a node slept exclusively. -/
  slept : ν → Bool
  /-- Who has slept exclusively, in order. -/
  arrived : ν → List PID
  /-- Who of them has been woken, in order. -/
  served : ν → List PID

/-- The processes of those nodes of `l` that slept exclusively. -/
def Queues.exclusive (t : Queues ν) (l : List ν) : List PID :=
  (l.filter t.slept).map fun x => (t.heap.fields x).process

/-- The nodes that have been woken between `t` and `heap`. -/
def Queues.justWoken (t : Queues ν) (heap : QueueHeap ν) : List ν := heap.woken.drop t.heap.woken.length

/-- A process on queue `head` has slept. -/
def Queues.afterSleep (t : Queues ν) (node head : ν) (exclusive : Bool) (p : PID) (heap : QueueHeap ν) :
    Queues ν :=
  { t with
    heap := heap
    slept := Function.update t.slept node exclusive
    arrived := Function.update t.arrived head (t.arrived head ++ if exclusive then [p] else []) }

def Queues.afterSignal (t : Queues ν) (head : ν) (heap : QueueHeap ν) : Queues ν :=
  { t with
    heap := heap
    served := Function.update t.served head (t.served head ++ t.exclusive (t.justWoken heap)) }

/-- `node` is on no queue. -/
def OffQueues (heads : ν → Prop) (s : QueueHeap ν) (node : ν) : Prop :=
  ∀ a, heads a → ∀ l, IsRing s.links a l → node ∉ a :: l

/-- The operations, on the queues of `heads`; the memory of freed nodes can be read, until `malloc`
returns it again. -/
inductive Step (heads : ν → Prop) : Queues ν → Op ν → Queues ν → Prop
  | sleep {t : Queues ν} {node head : ν} {exclusive : Bool} {p : PID} {heap : QueueHeap ν} (queue : heads head)
      (fresh : OffQueues heads t.heap node)
      (run : sleepOnWaitQueueWithOptions node head exclusive p t.heap = some heap) :
      Step heads t (.sleep node head exclusive p) (t.afterSleep node head exclusive p heap)
  | signal {t : Queues ν} {head : ν} {n : Nat} {heap : QueueHeap ν} (queue : heads head)
      (run : signalWaitQueueWithOptions false head true n t.heap = .ok (none, heap)) :
      Step heads t (.signal head) (t.afterSignal head heap)
  | broadcast {t : Queues ν} {head : ν} {n : Nat} {heap : QueueHeap ν} (queue : heads head)
      (run : signalWaitQueueWithOptions false head false n t.heap = .ok (none, heap)) :
      Step heads t (.broadcast head) (t.afterSignal head heap)
  | promote {t : Queues ν} {head : ν} {n : Nat} {heap : QueueHeap ν} (queue : heads head)
      (run : promote head n t.heap = .ok (none, heap)) : Step heads t (.promote head) { t with heap := heap }

/-! ## The order on a queue -/

/-- The waiters that are not exclusive come first. -/
structure Arranged (s : QueueHeap ν) (u v : List ν) : Prop where
  open_ : ∀ x ∈ u, (s.fields x).is_exclusive = false
  exclusive : ∀ x ∈ v, (s.fields x).is_exclusive = true

/-- Every queue is arranged, and who slept exclusively is served in order. -/
structure Orderly (heads : ν → Prop) (f : ν → List ν) (t : Queues ν) : Prop where
  rings : Rings t.heap.links heads f
  arranged : ∀ a, heads a → ∃ u v, f a = u ++ v ∧ Arranged t.heap u v
  fifo : ∀ a, heads a → t.arrived a = t.served a ++ t.exclusive (f a)

omit [DecidableEq ν] in
/-- A queue that is arranged, in the order it is split. -/
theorem Arranged.split (h : Arranged s u v) (excl : Bool) : splitWoken excl ((u ++ v).map s.fields) =
    ((u ++ if excl then v.take 1 else v).map s.fields, (if excl then v.tail else []).map s.fields) := by
  cases excl with
  | false =>
    rw [System.splitWoken_broadcast]
    rfl
  | true =>
    obtain ⟨hopen, hexcl⟩ := h
    induction u with
    | nil =>
      have hall : ∀ node ∈ v.map s.fields, node.is_exclusive = true := by
        intro node hnode
        obtain ⟨x, hx, rfl⟩ := List.mem_map.mp hnode
        exact hexcl x hx
      rw [List.nil_append, System.splitWoken_exclusive hall, if_pos rfl, if_pos rfl, List.nil_append,
        List.map_take, List.map_tail]
    | cons x u ih =>
      rw [List.cons_append, List.map_cons]
      unfold splitWoken
      rw [hopen x List.mem_cons_self, ih fun y hy => hopen y (List.mem_cons_of_mem _ hy)]
      rfl

/-- **Whom a signal wakes on a queue that is arranged.** -/
theorem Arranged.signalled (h : Arranged s u v) (hr : Rings s.links heads f) (ha : heads a) (hf : f a = u ++ v)
    {n : Nat} (hrun : signalWaitQueueWithOptions false a excl n s = .ok (none, s')) :
    Signalled heads f a (u ++ if excl then v.take 1 else v) (if excl then v.tail else []) s s' := by
  have hlong : (f a).length < n + ((f a).length + 1) := Nat.lt_add_left n (Nat.lt_succ_self _)
  obtain ⟨u', v', t, hl, hsplit, hrun', hs⟩ := signal_spec hr ha excl hlong
  have ht : t = s' := by
    unfold signalWaitQueueWithOptions at hrun hrun'
    cases hnext : s.links.next a with
    | none =>
      rw [hnext] at hrun
      cases hrun
    | some pos =>
      rw [bind_access hnext] at hrun hrun'
      have hmore := forEachElement_more (Nat.le_add_right n ((f a).length + 1)) hrun
      rw [hmore, Except.ok.injEq, Prod.mk.injEq] at hrun'
      exact hrun'.2.symm
  subst ht
  rw [hf, h.split, Prod.mk.injEq] at hsplit
  have hlength := congrArg List.length hsplit.1
  rw [List.length_map, List.length_map] at hlength
  have hjoin : u ++ v = (u ++ if excl then v.take 1 else v) ++ if excl then v.tail else [] := by
    cases excl with
    | false => simp
    | true =>
      cases v with
      | nil => simp
      | cons x v => simp
  have heq := hl.symm.trans (hf.trans hjoin)
  obtain ⟨rfl, rfl⟩ := List.append_inj heq hlength.symm
  exact hs

/-! ## The operations keep the order -/

variable {t t' : Queues ν} {u' v' : List ν}

omit [DecidableEq ν] in
theorem Arranged.congr (h : Arranged s u v) (hs : ∀ x ∈ u ++ v, s'.fields x = s.fields x) : Arranged s' u v := by
  refine ⟨fun x hx => ?_, fun x hx => ?_⟩
  · rw [hs x (List.mem_append_left _ hx)]
    exact h.open_ x hx
  · rw [hs x (List.mem_append_right _ hx)]
    exact h.exclusive x hx

omit [DecidableEq ν] in
theorem exclusive_append (t : Queues ν) (u v : List ν) :
    t.exclusive (u ++ v) = t.exclusive u ++ t.exclusive v := by
  unfold Queues.exclusive
  rw [List.filter_append, List.map_append]

omit [DecidableEq ν] in
theorem exclusive_congr (hslept : ∀ x ∈ l, t'.slept x = t.slept x)
    (hfields : ∀ x ∈ l, (t'.heap.fields x).process = (t.heap.fields x).process) :
    t'.exclusive l = t.exclusive l := by
  unfold Queues.exclusive
  rw [List.filter_congr hslept]
  refine List.map_congr_left fun x hx => hfields x (List.mem_of_mem_filter hx)

omit [DecidableEq ν] in
/-- What is left of an arranged queue after a signal is arranged. -/
theorem Arranged.rest (h : Arranged s u v) (excl : Bool) : Arranged s [] (if excl then v.tail else []) := by
  refine ⟨nofun, fun x hx => ?_⟩
  cases excl with
  | false => cases hx
  | true => exact h.exclusive x (List.mem_of_mem_tail hx)

/-- One queue has been replaced, and the others are as they were. -/
theorem Orderly.replace (ho : Orderly heads f t) (ha : heads a)
    (hr : Rings t'.heap.links heads (Function.update f a l))
    (harr : ∃ u v, l = u ++ v ∧ Arranged t'.heap u v)
    (hfifo : t'.arrived a = t'.served a ++ t'.exclusive l)
    (hlog : ∀ b, b ≠ a → t'.arrived b = t.arrived b ∧ t'.served b = t.served b)
    (hnodes : ∀ b, heads b → b ≠ a → ∀ x ∈ f b, t'.heap.fields x = t.heap.fields x ∧ t'.slept x = t.slept x) :
    Orderly heads (Function.update f a l) t' := by
  refine ⟨hr, fun b hb => ?_, fun b hb => ?_⟩
  · rcases eq_or_ne b a with rfl | hne
    · rw [Function.update_self]
      exact harr
    · rw [Function.update_of_ne hne]
      obtain ⟨u, v, hf, huv⟩ := ho.arranged b hb
      exact ⟨u, v, hf, huv.congr fun x hx => (hnodes b hb hne x (hf ▸ hx)).1⟩
  · rcases eq_or_ne b a with rfl | hne
    · rw [Function.update_self]
      exact hfifo
    · obtain ⟨harrived, hserved⟩ := hlog b hne
      rw [Function.update_of_ne hne, harrived, hserved, ho.fifo b hb]
      congr 1
      refine (exclusive_congr (fun x hx => (hnodes b hb hne x hx).2) fun x hx => ?_).symm
      rw [(hnodes b hb hne x hx).1]

theorem Orderly.sleep {p : PID} {exclusive : Bool} {heap : QueueHeap ν} (ho : Orderly heads f t)
    (ha : heads a) (hfresh : OffQueues heads t.heap x)
    (hrun : sleepOnWaitQueueWithOptions x a exclusive p t.heap = some heap) :
    Orderly heads (Function.update f a (enqueue x exclusive (f a))) (t.afterSleep x a exclusive p heap) := by
  have hout : Outside heads f x := fun b hb => hfresh b hb (f b) (ho.rings.ring b hb)
  obtain ⟨s', hrun', hs⟩ := sleep_spec ho.rings ha hout exclusive p
  rw [hrun, Option.some.injEq] at hrun'
  subst hrun'
  have hne : ∀ b, heads b → ∀ y ∈ f b, y ≠ x := fun b hb y hy he => hout b hb (List.mem_cons_of_mem _ (he ▸ hy))
  have hfields : ∀ b, heads b → ∀ y ∈ f b, heap.fields y = t.heap.fields y := fun b hb y hy => by
    rw [hs.fields, Function.update_of_ne (hne b hb y hy)]
  have hslept : ∀ b, heads b → ∀ y ∈ f b,
      (t.afterSleep x a exclusive p heap).slept y = t.slept y := fun b hb y hy =>
    Function.update_of_ne (hne b hb y hy) _ _
  have hx : heap.fields x = ⟨exclusive, p⟩ := by rw [hs.fields, Function.update_self]
  obtain ⟨u, v, hf, harr⟩ := ho.arranged a ha
  have harr' : Arranged heap u v := harr.congr fun y hy => hfields a ha y (hf ▸ hy)
  have hold : (t.afterSleep x a exclusive p heap).exclusive (f a) = t.exclusive (f a) :=
    exclusive_congr (hslept a ha) fun y hy => congrArg WaitQueueNode.process (hfields a ha y hy)
  refine ho.replace ha hs.rings ?_ ?_ (fun b hb => ⟨Function.update_of_ne hb _ _, rfl⟩)
    fun b hb _ y hy => ⟨hfields b hb y hy, hslept b hb y hy⟩
  · change ∃ u v, enqueue x exclusive (f a) = u ++ v ∧ Arranged heap u v
    unfold enqueue
    cases exclusive with
    | true =>
      refine ⟨u, v ++ [x], by rw [if_pos rfl, hf, List.append_assoc], harr'.open_, fun y hy => ?_⟩
      rcases List.mem_append.mp hy with hy | hy
      · exact harr'.exclusive y hy
      · rw [List.mem_singleton.mp hy, hx]
    | false =>
      refine ⟨x :: u, v, by rw [if_neg Bool.false_ne_true, hf]; rfl, fun y hy => ?_, harr'.exclusive⟩
      rcases List.mem_cons.mp hy with rfl | hy
      · rw [hx]
      · exact harr'.open_ y hy
  · have harrived : (t.afterSleep x a exclusive p heap).arrived a =
        t.arrived a ++ if exclusive then [p] else [] := Function.update_self _ _ _
    have hself : (t.afterSleep x a exclusive p heap).slept x = exclusive := Function.update_self _ _ _
    rw [harrived, ho.fifo a ha, ← hold, List.append_assoc]
    refine congrArg (t.served a ++ ·) ?_
    unfold enqueue
    cases exclusive with
    | true =>
      rw [if_pos rfl, if_pos rfl, exclusive_append]
      refine congrArg (_ ++ ·) ?_
      unfold Queues.exclusive
      rw [List.filter_cons_of_pos hself, List.filter_nil, List.map_singleton]
      exact congrArg (fun node => [node.process]) hx.symm
    | false =>
      rw [if_neg Bool.false_ne_true, if_neg Bool.false_ne_true, List.append_nil]
      unfold Queues.exclusive
      rw [List.filter_cons_of_neg (by rw [hself]; exact Bool.false_ne_true)]

theorem Orderly.signal {n : Nat} {heap : QueueHeap ν} (ho : Orderly heads f t) (ha : heads a)
    (hrun : signalWaitQueueWithOptions false a excl n t.heap = .ok (none, heap)) :
    ∃ f', Orderly heads f' (t.afterSignal a heap) := by
  obtain ⟨u, v, hf, harr⟩ := ho.arranged a ha
  have hs := harr.signalled ho.rings ha hf hrun
  have hfields : (t.afterSignal a heap).heap.fields = t.heap.fields := hs.fields
  have hsame : ∀ l, (t.afterSignal a heap).exclusive l = t.exclusive l := fun l =>
    exclusive_congr (fun _ _ => rfl) fun x _ => by rw [hfields]
  have hwoken : t.justWoken heap = u ++ if excl then v.take 1 else v := by
    unfold Queues.justWoken
    rw [hs.woken, List.drop_left]
  have hserved : (t.afterSignal a heap).served a = t.served a ++ t.exclusive (t.justWoken heap) :=
    Function.update_self _ _ _
  have harrived : (t.afterSignal a heap).arrived a = t.arrived a := rfl
  refine ⟨_, ho.replace ha hs.rings ⟨[], _, rfl, (harr.rest excl).congr fun x _ => by rw [hfields]⟩ ?_
    (fun b hb => ⟨rfl, Function.update_of_ne hb _ _⟩) fun b _ _ y _ => ⟨by rw [hfields], rfl⟩⟩
  rw [harrived, hserved, hsame, hwoken, ho.fifo a ha, hf, List.append_assoc, ← exclusive_append,
    List.append_assoc]
  congr 3
  cases excl with
  | false => exact (List.append_nil v).symm
  | true =>
    cases v with
    | nil => rfl
    | cons x v => rfl

/-- All waiters of an arranged queue are exclusive after a promotion. -/
theorem Promoted.all (hp : Promoted l u' s s') (hl : l = u ++ v) (harr : Arranged s u v) :
    ∀ x ∈ l, (s'.fields x).is_exclusive = true := by
  obtain ⟨⟨v', hl', hfirst⟩, hopen, hfields, -, -, -⟩ := hp
  intro x hx
  rw [hfields]
  split
  · rfl
  · rename_i hxu
    have hxv' : x ∈ v' := by
      rw [hl'] at hx
      exact (List.mem_append.mp hx).resolve_left hxu
    refine harr.exclusive x ?_
    -- the part that has not been promoted begins within the exclusive one
    rcases List.append_eq_append_iff.mp (hl'.symm.trans hl) with ⟨w, hw, hv⟩ | ⟨w, hw, hv⟩
    · cases w with
      | nil =>
        rw [List.nil_append] at hv
        exact hv ▸ hxv'
      | cons z w =>
        have hz : z ∈ u := by
          rw [hw]
          simp
        have hexcl := hfirst z (by rw [hv]; rfl)
        rw [harr.open_ z hz] at hexcl
        cases hexcl
    · rw [hv]
      exact List.mem_append_right _ hxv'

/-- The loop of a promotion that has come to its end. -/
theorem promote_result (hr : Rings s.links heads f) (ha : heads a) {n : Nat}
    (hrun : promote a n s = .ok (none, s')) : ∃ u, Promoted (f a) u s s' := by
  have hlong : (f a).length < n + ((f a).length + 1) := Nat.lt_add_left n (Nat.lt_succ_self _)
  obtain ⟨u, t, hrun', hp⟩ := promote_spec hr ha hlong
  unfold promote at hrun hrun'
  cases hnext : s.links.next a with
  | none =>
    rw [hnext] at hrun
    cases hrun
  | some pos =>
    rw [bind_access hnext] at hrun hrun'
    have hmore := forEachElement_more (Nat.le_add_right n ((f a).length + 1)) hrun
    rw [hmore, Except.ok.injEq, Prod.mk.injEq] at hrun'
    rw [hrun'.2]
    exact ⟨u, hp⟩

theorem Orderly.promote {n : Nat} {heap : QueueHeap ν} (ho : Orderly heads f t) (ha : heads a)
    (hrun : promote a n t.heap = .ok (none, heap)) : Orderly heads f { t with heap := heap } := by
  obtain ⟨u, v, hf, harr⟩ := ho.arranged a ha
  obtain ⟨w, hp⟩ := promote_result ho.rings ha hrun
  have hprocess : ∀ y, (heap.fields y).process = (t.heap.fields y).process := by
    intro y
    rw [hp.fields]
    split
    · rfl
    · rfl
  have hrings : Rings heap.links heads (Function.update f a (f a)) := by
    rw [hp.links, Function.update_eq_self]
    exact ho.rings
  have hkept : Orderly heads (Function.update f a (f a)) { t with heap := heap } := by
    refine ho.replace ha hrings ⟨[], f a, rfl, nofun, hp.all hf harr⟩ ?_ (fun b _ => ⟨rfl, rfl⟩)
      fun b hb hne y hy => ⟨?_, rfl⟩
    · have hold : ({ t with heap := heap } : Queues ν).exclusive (f a) = t.exclusive (f a) :=
        exclusive_congr (fun _ _ => rfl) fun y _ => hprocess y
      rw [hold]
      exact ho.fifo a ha
    · obtain ⟨v', hl, -⟩ := hp.front
      have hyw : y ∉ w := by
        intro hm
        refine ho.rings.not_mem ha hb hne (List.mem_cons_of_mem _ hy) ?_
        rw [hl]
        exact List.mem_cons_of_mem _ (List.mem_append_left _ hm)
      rw [hp.fields, if_neg hyw]
  rw [Function.update_eq_self] at hkept
  exact hkept

theorem Orderly.step {op : Op ν} (ho : Orderly heads f t) (hstep : Step heads t op t') :
    ∃ f', Orderly heads f' t' := by
  cases hstep with
  | sleep queue fresh run => exact ⟨_, ho.sleep queue fresh run⟩
  | signal queue run => exact ho.signal queue run
  | broadcast queue run => exact ho.signal queue run
  | promote queue run => exact ⟨f, ho.promote queue run⟩

/-! ## Runs -/

/-- All queues are empty. -/
structure Initial (heads : ν → Prop) (t : Queues ν) : Prop where
  rings : Rings t.heap.links heads fun _ => []
  arrived : ∀ a, t.arrived a = []
  served : ∀ a, t.served a = []

/-- A signal wakes the nodes of `woken`, in this order, and leaves those of `rest` on the queue. -/
def Wakes (s : QueueHeap ν) (a : ν) (wakeup_is_exclusive : Bool) (woken rest : List ν) : Prop :=
  ∃ n s', signalWaitQueueWithOptions false a wakeup_is_exclusive n s = .ok (none, s') ∧
    s'.woken = s.woken ++ woken ∧ IsRing s'.links a rest ∧
    ∀ p, s'.state p = if p ∈ woken.map (fun x => (s.fields x).process) then .RUNNING else s.state p

/-- The waiters `u` are not exclusive, and come before the exclusive ones `v`. -/
structure WokenInOrder (t : Queues ν) (a : ν) (u v : List ν) : Prop where
  queue : IsRing t.heap.links a (u ++ v)
  arranged : Arranged t.heap u v
  signal : Wakes t.heap a true (u ++ v.take 1) v.tail
  broadcast : Wakes t.heap a false (u ++ v) []
  /-- Who has slept exclusively has been woken, or sleeps, in the order of arrival. -/
  fifo : t.arrived a = t.served a ++ t.exclusive (u ++ v)

theorem Arranged.wakes (h : Arranged s u v) (hr : Rings s.links heads f) (ha : heads a) (hf : f a = u ++ v)
    (excl : Bool) : Wakes s a excl (u ++ if excl then v.take 1 else v) (if excl then v.tail else []) := by
  obtain ⟨_, _, s', -, -, hrun, -⟩ := signal_spec hr ha excl (Nat.lt_succ_self _)
  have hs := h.signalled hr ha hf hrun
  have hring := hs.rings.ring a ha
  rw [Function.update_self] at hring
  exact ⟨_, s', hrun, hs.woken, hring, hs.state⟩

/-- **After any operations the waiters that are not exclusive come first, a signal wakes them and the first
exclusive one, a broadcast wakes all, and who slept exclusively is woken in the order of arrival.** -/
theorem wake_up_order {t₀ : Queues ν} {ops : List (Op ν)} (hstart : Initial heads t₀)
    (hrun : Run (Step heads) t₀ ops t) (ha : heads a) : ∃ u v, WokenInOrder t a u v := by
  have hfirst : ∃ f, Orderly heads f t₀ := by
    refine ⟨fun _ => [], hstart.rings, fun b _ => ⟨[], [], rfl, nofun, nofun⟩, fun b _ => ?_⟩
    rw [hstart.arrived, hstart.served]
    rfl
  obtain ⟨f, ho⟩ := hrun.invariant (P := fun t => ∃ f, Orderly heads f t)
    (fun _ _ _ ⟨_, ho⟩ hstep => ho.step hstep) hfirst
  obtain ⟨u, v, hf, harr⟩ := ho.arranged a ha
  have hring := ho.rings.ring a ha
  have hfifo := ho.fifo a ha
  rw [hf] at hring hfifo
  exact ⟨u, v, hring, harr, harr.wakes ho.rings ha hf true, harr.wakes ho.rings ha hf false, hfifo⟩

/-! ## Two writers and a reader -/

/-- An empty queue, with three nodes that are on none. -/
def noWaiters : Queues (Fin 4) where
  heap := { links := fun i => some ⟨i, i⟩, fields := fun _ => ⟨false, 0⟩, state := fun _ => .RUNNING, woken := [] }
  slept := fun _ => false
  arrived := fun _ => []
  served := fun _ => []

theorem noWaiters_initial : Initial (· = 0) noWaiters := by
  refine ⟨⟨fun a ha => ?_, fun a b x ha hb _ _ => ha.trans hb.symm⟩, fun _ => rfl, fun _ => rfl⟩
  subst ha
  decide

omit [DecidableEq ν] in
/-- A node that is not on the only queue. -/
theorem offQueues_of_ring (hring : IsRing s.links a l) (hx : x ∉ a :: l) : OffQueues (· = a) s x := by
  intro b hb l' hl'
  subst hb
  rw [hl'.unique hring]
  exact hx

/-- The heap a loop ends with. -/
def finished (r : Except Stop (Option ν × QueueHeap ν)) : Option (QueueHeap ν) :=
  match r with
  | .ok (none, heap) => some heap
  | _ => none

omit [DecidableEq ν] in
theorem finished_some {r : Except Stop (Option ν × QueueHeap ν)} (h : finished r = some s) :
    r = .ok (none, s) := by
  unfold finished at h
  split at h
  · cases h
    rfl
  · cases h

/-- Process 2 sleeps exclusively, process 3 does not, and is promoted; process 4 sleeps exclusively. -/
def queueing : List (Op (Fin 4)) :=
  [.sleep 1 0 true 2, .sleep 2 0 false 3, .promote 0, .sleep 3 0 true 4, .signal 0]

/-- The signal wakes process 3, and the other two are left in order. -/
theorem noWaiters_signal : ∃ t u v, Run (Step (· = 0)) noWaiters queueing t ∧
    t.heap.woken = [2] ∧ t.arrived 0 = [2, 4] ∧ t.served 0 = [] ∧ WokenInOrder t 0 u v := by
  have hrun : ((sleepOnWaitQueueWithOptions 1 0 true 2 noWaiters.heap).bind fun h₁ =>
      (sleepOnWaitQueueWithOptions 2 0 false 3 h₁).bind fun h₂ =>
        (finished (promote 0 4 h₂)).bind fun h₃ =>
          (sleepOnWaitQueueWithOptions 3 0 true 4 h₃).bind fun h₄ =>
            (finished (signalWaitQueueWithOptions false 0 true 4 h₄)).map fun h₅ =>
              decide (IsRing h₁.links 0 [1] ∧ IsRing h₃.links 0 [2, 1] ∧
                h₄.woken = [] ∧ h₅.woken = [2])) = some true := by
    decide +kernel
  obtain ⟨h₁, hs₁, hrun⟩ := Option.bind_eq_some_iff.mp hrun
  obtain ⟨h₂, hs₂, hrun⟩ := Option.bind_eq_some_iff.mp hrun
  obtain ⟨h₃, hs₃, hrun⟩ := Option.bind_eq_some_iff.mp hrun
  obtain ⟨h₄, hs₄, hrun⟩ := Option.bind_eq_some_iff.mp hrun
  obtain ⟨h₅, hs₅, hrun⟩ := Option.map_eq_some_iff.mp hrun
  rw [decide_eq_true_eq] at hrun
  obtain ⟨hring₁, hring₃, hnone, hwoken⟩ := hrun
  have hqueue : Run (Step (· = 0)) noWaiters queueing _ :=
    .cons (.sleep rfl (offQueues_of_ring (noWaiters_initial.rings.ring 0 rfl) (by decide)) hs₁) <|
    .cons (.sleep rfl (offQueues_of_ring hring₁ (by decide)) hs₂) <|
    .cons (.promote rfl (finished_some hs₃)) <|
    .cons (.sleep rfl (offQueues_of_ring hring₃ (by decide)) hs₄) <|
    .cons (.signal rfl (finished_some hs₅)) .nil
  obtain ⟨u, v, horder⟩ := wake_up_order noWaiters_initial hqueue rfl
  refine ⟨_, u, v, hqueue, hwoken, rfl, ?_, horder⟩
  unfold Queues.afterSignal Queues.justWoken
  dsimp only
  rw [Function.update_self, hwoken]
  simp [Queues.afterSleep, Queues.exclusive, noWaiters, hnone]

end Yalnix.Sync
