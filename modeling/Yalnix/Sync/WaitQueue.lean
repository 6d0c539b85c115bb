import Yalnix.Core.Sequences
import Yalnix.System.Waking

/-!
# Wait queues in memory

`sync/waitqueue.c` and the loop of `ttyWriteFinished`, on a heap with the nodes of any number of
queues.  `free` removes a node from the heap, or leaves its memory readable.

* `signal_spec` — while freed nodes can be read, a signal takes nodes off the front.
* `promote_spec`, `sleep_spec` — the other operations.
* `Represents` — the queues of `Sys` are those of a heap; every operation keeps this.
-/

set_option autoImplicit false

namespace Yalnix.Sync

open Ring (Heap IsRing Linked Rings Outside)
open Yalnix.System (ProcessState Sys WaitQueue WaitQueueNode splitWoken)

variable {ν : Type} [DecidableEq ν]

/-! ## The code -/

/-- The heap of the nodes, and what happens to processes. -/
structure QueueHeap (ν : Type) where
  links : Heap ν
  /-- The fields of a node that is not the head of a queue. -/
  fields : ν → WaitQueueNode
  state : PID → ProcessState
  /-- The nodes that `prepareToWakeUp` has been called for, in order. -/
  woken : List ν

/-- An access to memory. -/
def access {α : Type} : Option α → Except Stop α
  | some a => .ok a
  | none => .error .fault

/-- The fields of a node that is there. -/
def QueueHeap.read (s : QueueHeap ν) (x : ν) : Option WaitQueueNode := (s.links x).map fun _ => s.fields x

/-- `forEachElement`.  The body tells whether it breaks off the loop; the link is read after it.  There
are at most `n` rounds: `some pos` is where the loop is then, `none` that it has come to its end. -/
def forEachElement {σ : Type} (next : σ → ν → Option ν) (head : ν)
    (body : ν → σ → Except Stop (Bool × σ)) : Nat → ν → σ → Except Stop (Option ν × σ)
  | 0, pos, s => .ok (some pos, s)
  | n + 1, pos, s =>
    if pos = head then .ok (none, s)
    else do
      let (stop, s) ← body pos s
      if stop then .ok (none, s)
      else
        let pos ← access (next s pos)
        forEachElement next head body n pos s

/-- `erase`: the memory of the node is gone. -/
def free (erase : Bool) (x : ν) (s : QueueHeap ν) : QueueHeap ν :=
  if erase then { s with links := Function.update s.links x none } else s

def wakeUpProcess (erase : Bool) (x : ν) (s : QueueHeap ν) : Except Stop (QueueHeap ν) := do
  let node ← access (s.read x)
  .ok (free erase x { s with state := Function.update s.state node.process .RUNNING, woken := s.woken ++ [x] })

/-- The body of the loop of `signalWaitQueueWithOptions`. -/
def wakeFirst (erase : Bool) (head : ν) (wakeup_is_exclusive : Bool) (current : ν) (s : QueueHeap ν) :
    Except Stop (Bool × QueueHeap ν) := do
  let (_, links) ← access (removeFirstNode head s.links)
  let s := { s with links := links }
  let node ← access (s.read current)
  let s ← wakeUpProcess erase current s
  .ok (node.is_exclusive && wakeup_is_exclusive, s)

def signalWaitQueueWithOptions (erase : Bool) (head : ν) (wakeup_is_exclusive : Bool) (n : Nat)
    (s : QueueHeap ν) : Except Stop (Option ν × QueueHeap ν) := do
  let current ← access (s.links.next head)
  forEachElement (fun s pos => s.links.next pos) head (wakeFirst erase head wakeup_is_exclusive) n current s

/-- `addNodeToWaitQueue`. -/
def addNodeToWaitQueue (node head : ν) (s : QueueHeap ν) : Option (QueueHeap ν) := do
  let fields ← s.read node
  let links ← if fields.is_exclusive then addLastNode node head s.links else addFirstNode node head s.links
  some { s with links := links }

/-- `waitQueueNodeInit`, by process `p`. -/
def waitQueueNodeInit (name : ν) (p : PID) (s : QueueHeap ν) : QueueHeap ν :=
  { s with links := linkedListNodeInit name s.links, fields := Function.update s.fields name ⟨false, p⟩ }

/-- `node->is_exclusive = exclusive`. -/
def QueueHeap.setExclusive (s : QueueHeap ν) (x : ν) (exclusive : Bool) : QueueHeap ν :=
  { s with fields := Function.update s.fields x { s.fields x with is_exclusive := exclusive } }

/-- `sleepOnWaitQueueWithOptions` of process `p` up to the call of `schedule`; `malloc` has returned
`node`. -/
def sleepOnWaitQueueWithOptions (node head : ν) (exclusive : Bool) (p : PID) (s : QueueHeap ν) :
    Option (QueueHeap ν) := do
  let s ← addNodeToWaitQueue node head ((waitQueueNodeInit node p s).setExclusive node exclusive)
  some { s with state := Function.update s.state p .WAITING }

/-- The body of the loop of `ttyWriteFinished`. -/
def promoteNode (current : ν) (s : QueueHeap ν) : Except Stop (Bool × QueueHeap ν) := do
  let node ← access (s.read current)
  if node.is_exclusive then .ok (true, s)
  else .ok (false, s.setExclusive current true)

/-- The loop of `ttyWriteFinished`. -/
def promote (head : ν) (n : Nat) (s : QueueHeap ν) : Except Stop (Option ν × QueueHeap ν) := do
  let current ← access (s.links.next head)
  forEachElement (fun s pos => s.links.next pos) head promoteNode n current s

variable {s s₁ s' : QueueHeap ν} {heads : ν → Prop} {f : ν → List ν} {a head pos x : ν} {l u v : List ν}
  {excl erase : Bool}

theorem bind_access {α β : Type} {o : Option α} {a : α} {k : α → Except Stop β} (h : o = some a) :
    (access o >>= k) = k a := by
  rw [h]
  rfl

section forEachElement

variable {σ : Type} {next : σ → ν → Option ν} {body : ν → σ → Except Stop (Bool × σ)} {n : Nat} {c c' : σ}
  {y : ν}

theorem forEachElement_head : forEachElement next head body (n + 1) head c = .ok (none, c) := if_pos rfl

theorem forEachElement_break (hne : pos ≠ head) (hbody : body pos c = .ok (true, c')) :
    forEachElement next head body (n + 1) pos c = .ok (none, c') := by
  unfold forEachElement
  rw [if_neg hne, hbody]
  rfl

theorem forEachElement_next (hne : pos ≠ head) (hbody : body pos c = .ok (false, c'))
    (hnext : next c' pos = some y) :
    forEachElement next head body (n + 1) pos c = forEachElement next head body n y c' := by
  conv_lhs => unfold forEachElement
  rw [if_neg hne, hbody]
  exact bind_access hnext

theorem forEachElement_gone (hne : pos ≠ head) (hbody : body pos c = .ok (false, c'))
    (hnext : next c' pos = none) : forEachElement next head body (n + 1) pos c = .error .fault := by
  unfold forEachElement
  rw [if_neg hne, hbody]
  dsimp only [bind, Except.bind]
  rw [hnext]
  rfl

/-- More rounds change nothing once the loop has come to its end. -/
theorem forEachElement_more {m : Nat} (hnm : n ≤ m)
    (hrun : forEachElement next head body n pos c = .ok (none, c')) :
    forEachElement next head body m pos c = .ok (none, c') := by
  induction n generalizing pos c m with
  | zero => cases hrun
  | succ n ih =>
    obtain ⟨m, rfl⟩ := Nat.exists_eq_succ_of_ne_zero (Nat.ne_of_gt (Nat.lt_of_lt_of_le n.succ_pos hnm))
    rcases eq_or_ne pos head with rfl | hne
    · rw [forEachElement_head] at hrun ⊢
      exact hrun
    · unfold forEachElement at hrun ⊢
      rw [if_neg hne] at hrun ⊢
      cases hbody : body pos c with
      | error e =>
        rw [hbody] at hrun
        cases hrun
      | ok r =>
        rw [hbody] at hrun
        dsimp only [bind, Except.bind] at hrun ⊢
        split at hrun
        · rename_i hstop
          rw [if_pos hstop]
          exact hrun
        · rename_i hstop
          rw [if_neg hstop]
          cases hnext : next r.2 pos with
          | none =>
            rw [hnext] at hrun
            cases hrun
          | some y =>
            rw [hnext] at hrun
            exact ih (Nat.le_of_succ_le_succ hnm) hrun

end forEachElement

/-! ## Removing the first node -/

omit [DecidableEq ν] in
theorem read_of_isSome (h : (s.links x).isSome) : s.read x = some (s.fields x) := by
  obtain ⟨link, hlink⟩ := Option.isSome_iff_exists.mp h
  unfold QueueHeap.read
  rw [hlink, Option.map_some]

/-- The links of the node that has been removed are as they were. -/
theorem removeFirstNode_self {h h' : Heap ν} (hr : IsRing h a (x :: l))
    (hrun : removeFirstNode a h = some (x, h')) : h'.next x = h.next x ∧ ∀ y, (h' y).isSome = (h y).isSome := by
  unfold removeFirstNode at hrun
  simp only [Option.bind_eq_bind, hr.next_head, Option.bind_some, Option.bind_eq_some_iff] at hrun
  obtain ⟨h₁, hrun, hsame⟩ := hrun
  rw [Option.some.injEq, Prod.mk.injEq] at hsame
  rw [← hsame.2]
  obtain ⟨prev, next, hprev, -, hn, -, hall⟩ := removeNode_some hrun
  refine ⟨?_, hall⟩
  have hfirst := (hr.linked [] (l ++ [a]) rfl).2
  rw [hprev, Option.some.injEq] at hfirst
  have hne : x ≠ prev := by
    rw [hfirst]
    rintro rfl
    exact hr.head_not_mem List.mem_cons_self
  rw [hn, Function.update_of_ne hne]

/-! ## A signal -/

/-- The nodes `u` are woken, and `v` stay. -/
structure Signalled (heads : ν → Prop) (f : ν → List ν) (a : ν) (u v : List ν) (s s' : QueueHeap ν) :
    Prop where
  rings : Rings s'.links heads (Function.update f a v)
  fields : s'.fields = s.fields
  woken : s'.woken = s.woken ++ u
  state : ∀ p, s'.state p = if p ∈ u.map (fun x => (s.fields x).process) then .RUNNING else s.state p

/-- One round takes the first node off the queue and frees it. -/
theorem wakeFirst_run (hr : Rings s.links heads f) (ha : heads a) (hf : f a = x :: l) (erase excl : Bool) :
    ∃ links, Rings links heads (Function.update f a l) ∧ links.next x = s.links.next x ∧
      wakeFirst erase a excl x s = .ok ((s.fields x).is_exclusive && excl, free erase x
        { s with links := links, state := Function.update s.state (s.fields x).process .RUNNING,
                 woken := s.woken ++ [x] }) := by
  obtain ⟨links, hrun, hbecomes⟩ := removeFirstNode_becomes hr ha hf
  have hring := hr.ring a ha
  rw [hf] at hring
  obtain ⟨hnext, hsome⟩ := removeFirstNode_self hring hrun
  have hx : (links x).isSome := (hsome x).trans (hring.isSome (List.mem_cons_of_mem _ List.mem_cons_self))
  have hread : ({ s with links := links } : QueueHeap ν).read x = some (s.fields x) := read_of_isSome hx
  refine ⟨links, hbecomes.rings, hnext, ?_⟩
  unfold wakeFirst wakeUpProcess
  rw [bind_access hrun]
  dsimp only
  rw [bind_access hread, bind_access hread]
  rfl

/-- What a round leaves behind while freed nodes can be read. -/
theorem wakeFirst_spec (hr : Rings s.links heads f) (ha : heads a) (hf : f a = x :: l) (excl : Bool) :
    ∃ s₁, wakeFirst false a excl x s = .ok ((s.fields x).is_exclusive && excl, s₁) ∧
      Signalled heads f a [x] l s s₁ ∧ s₁.links.next x = s.links.next x := by
  obtain ⟨links, hrings, hnext, hrun⟩ := wakeFirst_run hr ha hf false excl
  refine ⟨_, hrun, ⟨hrings, rfl, rfl, fun p => ?_⟩, hnext⟩
  simp only [List.map_singleton, List.mem_singleton]
  exact Function.update_apply _ _ _ _

omit [DecidableEq ν] in
/-- The node that a loop begins with, or goes on with. -/
theorem IsRing.next_head {h : Heap ν} (hr : IsRing h a l) (hpos : (l ++ [a]).head? = some pos) :
    h.next a = some pos := by
  cases l with
  | nil =>
    cases hpos
    exact (Ring.isRing_nil.mp hr).1
  | cons x l =>
    cases hpos
    exact Ring.IsRing.next_head hr

theorem Signalled.cons (h₁ : Signalled heads f a [x] l s s₁)
    (h₂ : Signalled heads (Function.update f a l) a u v s₁ s') : Signalled heads f a (x :: u) v s s' := by
  refine ⟨?_, h₂.fields.trans h₁.fields, ?_, fun p => ?_⟩
  · have hrings := h₂.rings
    rw [Function.update_idem] at hrings
    exact hrings
  · rw [h₂.woken, h₁.woken, List.append_assoc]
    rfl
  · rw [h₂.state, h₁.state, h₁.fields]
    simp only [List.map_cons, List.map_nil, List.mem_cons, List.not_mem_nil, or_false]
    by_cases hp : p = (s.fields x).process
    · simp [hp]
    · simp [hp]

/-- The loop of a signal, by induction on what is left of the queue. -/
theorem wakeLoop_spec (hr : Rings s.links heads f) (ha : heads a) (hf : f a = l)
    (hpos : (l ++ [a]).head? = some pos) (excl : Bool) {n : Nat} (hn : l.length < n) :
    ∃ u v s', l = u ++ v ∧ splitWoken excl (l.map s.fields) = (u.map s.fields, v.map s.fields) ∧
      forEachElement (fun s pos => s.links.next pos) a (wakeFirst false a excl) n pos s = .ok (none, s') ∧
      Signalled heads f a u v s s' := by
  induction l generalizing s f pos n with
  | nil =>
    cases hpos
    obtain ⟨n, rfl⟩ := Nat.exists_eq_succ_of_ne_zero (Nat.ne_of_gt hn)
    refine ⟨[], [], s, rfl, rfl, forEachElement_head, ?_, rfl, (List.append_nil _).symm, fun p => rfl⟩
    rw [← hf, Function.update_eq_self]
    exact hr
  | cons x l ih =>
    cases hpos
    obtain ⟨n, rfl⟩ := Nat.exists_eq_succ_of_ne_zero (Nat.ne_of_gt (Nat.zero_lt_of_lt hn))
    have hring := hr.ring a ha
    rw [hf] at hring
    have hne : x ≠ a := by
      rintro rfl
      exact hring.head_not_mem List.mem_cons_self
    obtain ⟨s₁, hbody, hfirst, hnext⟩ := wakeFirst_spec hr ha hf excl
    cases hstop : (s.fields x).is_exclusive && excl with
    | true =>
      rw [hstop] at hbody
      refine ⟨[x], l, s₁, rfl, ?_, forEachElement_break hne hbody, hfirst⟩
      rw [List.map_cons]
      unfold splitWoken
      rw [hstop]
      rfl
    | false =>
      rw [hstop] at hbody
      obtain ⟨y, hy⟩ := Ring.exists_first l a
      have hlink : s₁.links.next x = some y := by
        have hchain : (x :: (l ++ [a])).IsChain fun b c => s.links.next b = some c := hring.onward
        have hxy := Ring.chain_first hchain hy
        rw [hnext, hxy]
      obtain ⟨u, v, s', hl, hsplit, hloop, hrest⟩ := ih hfirst.rings (Function.update_self a l f) hy
        (Nat.lt_of_succ_lt_succ hn)
      rw [hfirst.fields] at hsplit
      refine ⟨x :: u, v, s', by rw [hl]; rfl, ?_, ?_, hfirst.cons hrest⟩
      · rw [List.map_cons]
        unfold splitWoken
        rw [hstop, hsplit]
        rfl
      · exact (forEachElement_next hne hbody hlink).trans hloop

/-- **While freed nodes can be read, a signal takes nodes off the front of the queue.** -/
theorem signal_spec (hr : Rings s.links heads f) (ha : heads a) (excl : Bool) {n : Nat}
    (hn : (f a).length < n) : ∃ u v s', f a = u ++ v ∧
      splitWoken excl ((f a).map s.fields) = (u.map s.fields, v.map s.fields) ∧
      signalWaitQueueWithOptions false a excl n s = .ok (none, s') ∧ Signalled heads f a u v s s' := by
  obtain ⟨pos, hpos⟩ := Ring.exists_first (f a) a
  obtain ⟨u, v, s', hl, hsplit, hloop, hs⟩ := wakeLoop_spec hr ha rfl hpos excl hn
  refine ⟨u, v, s', hl, hsplit, ?_, hs⟩
  unfold signalWaitQueueWithOptions
  rw [bind_access (IsRing.next_head (hr.ring a ha) hpos)]
  exact hloop

/-! ## A sleep -/

/-- Where the node goes. -/
def enqueue (x : ν) (exclusive : Bool) (l : List ν) : List ν := if exclusive then l ++ [x] else x :: l

/-- The node has been put on the queue. -/
structure Slept (heads : ν → Prop) (f : ν → List ν) (a x : ν) (exclusive : Bool) (p : PID)
    (s s' : QueueHeap ν) : Prop where
  rings : Rings s'.links heads (Function.update f a (enqueue x exclusive (f a)))
  fields : s'.fields = Function.update s.fields x ⟨exclusive, p⟩
  woken : s'.woken = s.woken
  state : s'.state = Function.update s.state p .WAITING

theorem addNode_spec (hr : Rings s.links heads f) (ha : heads a) (hx : (s.links x).isSome)
    (hout : Outside heads f x) : ∃ links, addNodeToWaitQueue x a s = some { s with links := links } ∧
      Rings links heads (Function.update f a (enqueue x (s.fields x).is_exclusive (f a))) := by
  unfold addNodeToWaitQueue enqueue
  rw [read_of_isSome hx]
  cases hexcl : (s.fields x).is_exclusive with
  | true =>
    obtain ⟨links, hrun, hbecomes⟩ := addLastNode_becomes hr ha hx hout
    refine ⟨links, ?_, hbecomes.rings⟩
    simp only [Option.bind_eq_bind, Option.bind_some, hexcl, if_true, hrun]
  | false =>
    obtain ⟨links, hrun, hbecomes⟩ := insertNode_becomes (u := []) hr ha hx hout rfl rfl
    refine ⟨links, ?_, hbecomes.rings⟩
    have hfirst : addFirstNode x a s.links = some links := hrun
    simp only [Option.bind_eq_bind, Option.bind_some, hexcl, Bool.false_eq_true, if_false, hfirst]

theorem sleep_spec (hr : Rings s.links heads f) (ha : heads a) (hout : Outside heads f x)
    (exclusive : Bool) (p : PID) : ∃ s', sleepOnWaitQueueWithOptions x a exclusive p s = some s' ∧
      Slept heads f a x exclusive p s s' := by
  have hrings : Rings (linkedListNodeInit x s.links) heads f := by
    refine hr.congr (fun b hb y hy => ?_) fun b hb y hy => ?_
    · have hne : y ≠ x := fun he => hout b hb (he ▸ hy)
      rw [linkedListNodeInit_next, Function.update_of_ne hne]
    · have hne : y ≠ x := fun he => hout b hb (he ▸ hy)
      rw [linkedListNodeInit_prev, Function.update_of_ne hne]
  have hx : (linkedListNodeInit x s.links x).isSome := by
    unfold linkedListNodeInit
    rw [Function.update_self]
    rfl
  obtain ⟨links, hrun, hrings'⟩ := addNode_spec (s := ⟨linkedListNodeInit x s.links,
    Function.update s.fields x ⟨exclusive, p⟩, s.state, s.woken⟩) hrings ha hx hout
  dsimp only at hrings'
  rw [Function.update_self] at hrings'
  refine ⟨⟨links, Function.update s.fields x ⟨exclusive, p⟩, Function.update s.state p .WAITING, s.woken⟩, ?_,
    hrings', rfl, rfl, rfl⟩
  unfold sleepOnWaitQueueWithOptions waitQueueNodeInit QueueHeap.setExclusive
  dsimp only
  rw [Function.update_idem, Function.update_self, hrun]
  rfl

/-! ## Promotion -/

/-- The nodes `u` at the front have become exclusive. -/
structure Promoted (l u : List ν) (s s' : QueueHeap ν) : Prop where
  front : ∃ v, l = u ++ v ∧ ∀ x ∈ v.head?, (s.fields x).is_exclusive = true
  open_ : ∀ x ∈ u, (s.fields x).is_exclusive = false
  fields : ∀ y, s'.fields y = if y ∈ u then { s.fields y with is_exclusive := true } else s.fields y
  links : s'.links = s.links
  woken : s'.woken = s.woken
  state : s'.state = s.state

theorem Promoted.cons (hx : x ∉ l) (hexcl : (s.fields x).is_exclusive = false)
    (hp : Promoted l u (s.setExclusive x true) s') :
    Promoted (x :: l) (x :: u) s s' := by
  obtain ⟨⟨v, hl, hv⟩, hopen, hfields, hlinks, hwoken, hstate⟩ := hp
  have hother : ∀ y ∈ l, y ≠ x := fun y hy he => hx (he ▸ hy)
  refine ⟨⟨v, by rw [hl]; rfl, fun y hy => ?_⟩, fun y hy => ?_, fun y => ?_, hlinks, hwoken, hstate⟩
  · have hyl : y ∈ l := by
      rw [hl]
      exact List.mem_append_right _ (List.mem_of_mem_head? hy)
    have hy' := hv y hy
    unfold QueueHeap.setExclusive at hy'
    dsimp only at hy'
    rw [Function.update_of_ne (hother y hyl)] at hy'
    exact hy'
  · rcases List.mem_cons.mp hy with rfl | hyu
    · exact hexcl
    · have hyl : y ∈ l := by
        rw [hl]
        exact List.mem_append_left _ hyu
      have hy' := hopen y hyu
      unfold QueueHeap.setExclusive at hy'
      dsimp only at hy'
      rw [Function.update_of_ne (hother y hyl)] at hy'
      exact hy'
  · rw [hfields]
    unfold QueueHeap.setExclusive
    dsimp only
    rcases eq_or_ne y x with rfl | hne
    · simp
    · simp [hne]

/-- The loop of a promotion, by induction on what is left of the queue. -/
theorem promoteLoop_spec (hchain : (l ++ [a]).IsChain fun b c => s.links.next b = some c)
    (hpos : (l ++ [a]).head? = some pos) (ha : a ∉ l) (hnodup : l.Nodup)
    (hsome : ∀ x ∈ l, (s.links x).isSome) {n : Nat} (hn : l.length < n) :
    ∃ u s', forEachElement (fun s pos => s.links.next pos) a promoteNode n pos s = .ok (none, s') ∧
      Promoted l u s s' := by
  induction l generalizing s pos n with
  | nil =>
    cases hpos
    obtain ⟨n, rfl⟩ := Nat.exists_eq_succ_of_ne_zero (Nat.ne_of_gt hn)
    exact ⟨[], s, forEachElement_head, ⟨⟨[], rfl, nofun⟩, nofun, fun y => rfl, rfl, rfl, rfl⟩⟩
  | cons x l ih =>
    cases hpos
    obtain ⟨n, rfl⟩ := Nat.exists_eq_succ_of_ne_zero (Nat.ne_of_gt (Nat.zero_lt_of_lt hn))
    have hne : x ≠ a := fun he => ha (he ▸ List.mem_cons_self)
    have hread : s.read x = some (s.fields x) := read_of_isSome (hsome x List.mem_cons_self)
    cases hexcl : (s.fields x).is_exclusive with
    | true =>
      have hbody : promoteNode x s = .ok (true, s) := by
        unfold promoteNode
        rw [bind_access hread, hexcl]
        rfl
      refine ⟨[], s, forEachElement_break hne hbody,
        ⟨⟨x :: l, rfl, fun y hy => ?_⟩, nofun, fun y => rfl, rfl, rfl, rfl⟩⟩
      cases hy
      exact hexcl
    | false =>
      have hbody : promoteNode x s = .ok (false, s.setExclusive x true) := by
        unfold promoteNode
        rw [bind_access hread, hexcl]
        rfl
      obtain ⟨y, hy⟩ := Ring.exists_first l a
      have hwalk : (x :: (l ++ [a])).IsChain fun b c => s.links.next b = some c := hchain
      have hxy := Ring.chain_first hwalk hy
      obtain ⟨hx, hnodup⟩ := List.nodup_cons.mp hnodup
      obtain ⟨u, s', hloop, hp⟩ := ih (s := s.setExclusive x true) hwalk.tail hy
        (fun hm => ha (List.mem_cons_of_mem _ hm)) hnodup
        (fun z hz => hsome z (List.mem_cons_of_mem _ hz)) (Nat.lt_of_succ_lt_succ hn)
      exact ⟨x :: u, s', (forEachElement_next hne hbody hxy).trans hloop, hp.cons hx hexcl⟩

/-- **A promotion changes the nodes up to the first that is exclusive.** -/
theorem promote_spec (hr : Rings s.links heads f) (ha : heads a) {n : Nat} (hn : (f a).length < n) :
    ∃ u s', promote a n s = .ok (none, s') ∧ Promoted (f a) u s s' := by
  have hring := hr.ring a ha
  obtain ⟨pos, hpos⟩ := Ring.exists_first (f a) a
  obtain ⟨u, s', hloop, hp⟩ := promoteLoop_spec hring.onward hpos hring.head_not_mem hring.nodup
    (fun x hx => hring.isSome (List.mem_cons_of_mem _ hx)) hn
  refine ⟨u, s', ?_, hp⟩
  unfold promote
  rw [bind_access (IsRing.next_head hring hpos)]
  exact hloop

/-- The two sides of a promotion, on the fields of the nodes. -/
theorem Promoted.map (hp : Promoted l u s s') (hnodup : l.Nodup) :
    l.map s'.fields = System.promote (l.map s.fields) := by
  obtain ⟨⟨v, hl, hv⟩, hopen, hfields, -, -, -⟩ := hp
  subst hl
  have hback : v.map s'.fields = v.map s.fields := by
    refine List.map_congr_left fun x hx => ?_
    have hxu : x ∉ u := fun hm => (List.nodup_append.mp hnodup).2.2 x hm x hx rfl
    rw [hfields, if_neg hxu]
  have hfront : u.map s'.fields = u.map fun x => { s.fields x with is_exclusive := true } := by
    refine List.map_congr_left fun x hx => ?_
    rw [hfields, if_pos hx]
  rw [List.map_append, List.map_append, hback, hfront]
  clear hfields hback hfront hnodup
  induction u with
  | nil =>
    cases v with
    | nil => rfl
    | cons x v =>
      rw [List.map_nil, List.nil_append, List.map_nil, List.nil_append, List.map_cons]
      unfold System.promote
      rw [if_pos (hv x rfl)]
  | cons x u ih =>
    rw [List.map_cons, List.cons_append, List.map_cons, List.cons_append]
    unfold System.promote
    have hx : (s.fields x).is_exclusive = false := hopen x List.mem_cons_self
    rw [hx, if_neg Bool.false_ne_true, ih fun y hy => hopen y (List.mem_cons_of_mem _ hy)]

/-! ## The queues of the kernel -/

/-- The rings of the heap hold the queues of `t`. -/
structure Represents (at_ : WaitQueue → ν) (f : ν → List ν) (s : QueueHeap ν) (t : Sys) : Prop where
  heads : Function.Injective at_
  rings : Rings s.links (· ∈ Set.range at_) f
  queue : ∀ q, (f (at_ q)).map s.fields = t.queue q
  state : ∀ p, s.state p = (t.desc p).state

variable {at_ : WaitQueue → ν} {t : Sys}

theorem Represents.signal (h : Represents at_ f s t) (q : WaitQueue) (excl : Bool) {n : Nat}
    (hn : (t.queue q).length < n) : ∃ f' s',
      signalWaitQueueWithOptions false (at_ q) excl n s = .ok (none, s') ∧
      Represents at_ f' s' (System.signalWaitQueueWithOptions q excl t) := by
  rw [← h.queue, List.length_map] at hn
  obtain ⟨u, v, s', hl, hsplit, hrun, hs⟩ := signal_spec h.rings ⟨q, rfl⟩ excl hn
  rw [h.queue] at hsplit
  refine ⟨Function.update f (at_ q) v, s', hrun, h.heads, hs.rings, fun r => ?_, fun p => ?_⟩
  · rw [hs.fields]
    rcases eq_or_ne r q with rfl | hne
    · rw [Function.update_self, System.signal_queue_self, hsplit]
    · rw [Function.update_of_ne (h.heads.ne hne), System.signal_queue_of_ne _ _ _ hne, h.queue]
  · rw [hs.state, System.signal_desc, System.wake_state, hsplit, List.map_map, h.state]
    rfl

theorem Represents.sleep (h : Represents at_ f s t) (q : WaitQueue) (exclusive : Bool) {x : ν}
    (hout : Outside (· ∈ Set.range at_) f x) : ∃ f' s',
      sleepOnWaitQueueWithOptions x (at_ q) exclusive t.current s = some s' ∧
      Represents at_ f' s' (System.sleepOnWaitQueue q exclusive t) := by
  obtain ⟨s', hrun, hs⟩ := sleep_spec h.rings ⟨q, rfl⟩ hout exclusive t.current
  have hfields : ∀ r, (f (at_ r)).map s'.fields = (f (at_ r)).map s.fields := by
    refine fun r => List.map_congr_left fun y hy => ?_
    have hne : y ≠ x := fun he => hout (at_ r) ⟨r, rfl⟩ (List.mem_cons_of_mem _ (he ▸ hy))
    rw [hs.fields, Function.update_of_ne hne]
  refine ⟨_, s', hrun, h.heads, hs.rings, fun r => ?_, fun p => ?_⟩
  · rcases eq_or_ne r q with rfl | hne
    · rw [Function.update_self, System.sleep_queue_self, ← h.queue, ← hfields]
      unfold enqueue System.addNodeToWaitQueue
      have hx : s'.fields x = ⟨exclusive, t.current⟩ := by rw [hs.fields, Function.update_self]
      split
      · rw [List.map_append, List.map_singleton, hx]
      · rw [List.map_cons, hx]
    · rw [Function.update_of_ne (h.heads.ne hne), System.sleep_queue_of_ne _ _ _ hne, hfields, h.queue]
  · rw [hs.state, System.sleep_desc]
    rcases eq_or_ne p t.current with rfl | hne
    · rw [Function.update_self, Function.update_self]
    · rw [Function.update_of_ne hne, Function.update_of_ne hne, h.state]

theorem Represents.promote (h : Represents at_ f s t) (q : WaitQueue) {n : Nat}
    (hn : (t.queue q).length < n) : ∃ s', promote (at_ q) n s = .ok (none, s') ∧
      Represents at_ f s' (t.setQueue q (System.promote (t.queue q))) := by
  rw [← h.queue, List.length_map] at hn
  obtain ⟨u, s', hrun, hp⟩ := promote_spec h.rings ⟨q, rfl⟩ hn
  refine ⟨s', hrun, h.heads, by rw [hp.links]; exact h.rings, fun r => ?_, fun p => ?_⟩
  · rcases eq_or_ne r q with rfl | hne
    · rw [System.setQueue_queue_self, ← h.queue]
      exact hp.map (h.rings.ring _ ⟨r, rfl⟩).nodup
    · rw [System.setQueue_queue_of_ne hne, ← h.queue]
      refine List.map_congr_left fun y hy => ?_
      have hyu : y ∉ u := by
        intro hm
        obtain ⟨v, hl, -⟩ := hp.front
        refine h.rings.not_mem ⟨q, rfl⟩ ⟨r, rfl⟩ (h.heads.ne hne) (List.mem_cons_of_mem _ hy) ?_
        rw [hl]
        exact List.mem_cons_of_mem _ (List.mem_append_left _ hm)
      rw [hp.fields, if_neg hyu]
  · rw [hp.state, h.state]
    rfl

end Yalnix.Sync
