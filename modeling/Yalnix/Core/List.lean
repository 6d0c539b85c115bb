import Yalnix.Lib.Ring

/-!
# The list primitives of `core/list.h`

Each primitive is the sequence of loads and stores the code makes; an access to a node that is not
there fails.

* `insertNode_some`, `removeNode_some` — the links after the primitive.
* `Within R h` — links relate only nodes related by `R`; inserting related nodes keeps this.
-/

set_option autoImplicit false

namespace Yalnix

open Ring (Heap)

variable {ν : Type} [DecidableEq ν]

/-- `linkedListNodeInit`. -/
def linkedListNodeInit (name : ν) (h : Heap ν) : Heap ν := Function.update h name (some ⟨name, name⟩)

def listIsEmpty (head : ν) (h : Heap ν) : Option Bool := do
  let next ← h.next head
  some (decide (next = head))

def insertNode (node head : ν) (h : Heap ν) : Option (Heap ν) := do
  let next ← h.next head
  let h ← h.setPrev next node
  let next ← h.next head
  let h ← h.setNext node next
  let h ← h.setPrev node head
  h.setNext head node

def removeNode (node : ν) (h : Heap ν) : Option (Heap ν) := do
  let prev ← h.prev node
  let next ← h.next node
  let h ← h.setNext prev next
  let next ← h.next node
  let prev ← h.prev node
  h.setPrev next prev

/-- Splice list `second` into list `first`. -/
def spliceLinkedLists (second first : ν) (h : Heap ν) : Option (Heap ν) := do
  let empty ← listIsEmpty second h
  if empty then some h
  else
    let prev ← h.prev second
    let h ← h.setNext prev first
    let next ← h.next second
    let prev ← h.prev first
    let h ← h.setPrev next prev
    let prev ← h.prev first
    let last ← h.prev second
    let h ← h.setNext prev last
    let next ← h.next second
    h.setPrev first next

def addFirstNode (node head : ν) (h : Heap ν) : Option (Heap ν) := insertNode node head h

def addLastNode (node head : ν) (h : Heap ν) : Option (Heap ν) := do
  let prev ← h.prev head
  insertNode node prev h

/-- The node removed, and the heap after it. -/
def removeFirstNode (head : ν) (h : Heap ν) : Option (ν × Heap ν) := do
  let node ← h.next head
  let h ← removeNode node h
  some (node, h)

def removeLastNode (head : ν) (h : Heap ν) : Option (ν × Heap ν) := do
  let node ← h.prev head
  let h ← removeNode node h
  some (node, h)

/-! ## The links after a primitive -/

variable {h h' : Heap ν} {node head : ν}

theorem linkedListNodeInit_next (name : ν) (h : Heap ν) :
    (linkedListNodeInit name h).next = Function.update h.next name (some name) := by
  funext x
  rcases eq_or_ne x name with rfl | hx
  · simp [linkedListNodeInit, Heap.next]
  · simp [linkedListNodeInit, Heap.next, hx]

theorem linkedListNodeInit_prev (name : ν) (h : Heap ν) :
    (linkedListNodeInit name h).prev = Function.update h.prev name (some name) := by
  funext x
  rcases eq_or_ne x name with rfl | hx
  · simp [linkedListNodeInit, Heap.prev]
  · simp [linkedListNodeInit, Heap.prev, hx]

theorem insertNode_some (hi : insertNode node head h = some h') : ∃ next, h.next head = some next ∧
    h'.next = Function.update (Function.update h.next node (some next)) head (some node) ∧
    h'.prev = Function.update (Function.update h.prev next (some node)) node (some head) ∧
    ∀ x, (h' x).isSome = (h x).isSome := by
  unfold insertNode at hi
  simp only [Option.bind_eq_bind, Option.bind_eq_some_iff] at hi
  obtain ⟨next, hnext, h₁, hs₁, next', hnext', h₂, hs₂, h₃, hs₃, hs₄⟩ := hi
  obtain ⟨-, hp₁, hn₁, ha₁⟩ := Heap.setPrev_some hs₁
  obtain ⟨-, hn₂, hp₂, ha₂⟩ := Heap.setNext_some hs₂
  obtain ⟨-, hp₃, hn₃, ha₃⟩ := Heap.setPrev_some hs₃
  obtain ⟨-, hn₄, hp₄, ha₄⟩ := Heap.setNext_some hs₄
  rw [hn₁, hnext] at hnext'
  cases hnext'
  refine ⟨next, hnext, ?_, ?_, fun x => by rw [ha₄, ha₃, ha₂, ha₁]⟩
  · rw [hn₄, hn₃, hn₂, hn₁]
  · rw [hp₄, hp₃, hp₂, hp₁]

theorem removeNode_some (hr : removeNode node h = some h') : ∃ prev next, h.prev node = some prev ∧
    h.next node = some next ∧ h'.next = Function.update h.next prev (some next) ∧
    h'.prev = Function.update h.prev next (some prev) ∧ ∀ x, (h' x).isSome = (h x).isSome := by
  unfold removeNode at hr
  simp only [Option.bind_eq_bind, Option.bind_eq_some_iff] at hr
  obtain ⟨prev, hprev, next, hnext, h₁, hs₁, next', hnext', prev', hprev', hs₂⟩ := hr
  obtain ⟨-, hn₁, hp₁, ha₁⟩ := Heap.setNext_some hs₁
  obtain ⟨-, hp₂, hn₂, ha₂⟩ := Heap.setPrev_some hs₂
  rw [hp₁, hprev] at hprev'
  cases hprev'
  have hn : next' = next := by
    rw [hn₁] at hnext'
    rcases eq_or_ne node prev with he | he
    · rw [he, Function.update_self] at hnext'
      exact (Option.some.inj hnext').symm
    · rw [Function.update_of_ne he, hnext] at hnext'
      exact (Option.some.inj hnext').symm
  subst hn
  refine ⟨prev, next', hprev, hnext, ?_, ?_, fun x => by rw [ha₂, ha₁]⟩
  · rw [hn₂, hn₁]
  · rw [hp₂, hp₁]

/-! ## Links inside a relation -/

/-- Links lead only to related nodes. -/
structure Within (R : ν → ν → Prop) (h : Heap ν) : Prop where
  next : ∀ a b, h.next a = some b → R a b
  prev : ∀ a b, h.prev a = some b → R a b

theorem Within.linkedListNodeInit {R : ν → ν → Prop} (hw : Within R h) (hR : ∀ a, R a a) (name : ν) :
    Within R (linkedListNodeInit name h) := by
  refine ⟨fun a b hab => ?_, fun a b hab => ?_⟩
  · rw [linkedListNodeInit_next] at hab
    rcases eq_or_ne a name with rfl | ha
    · rw [Function.update_self] at hab
      cases hab
      exact hR a
    · rw [Function.update_of_ne ha] at hab
      exact hw.next a b hab
  · rw [linkedListNodeInit_prev] at hab
    rcases eq_or_ne a name with rfl | ha
    · rw [Function.update_self] at hab
      cases hab
      exact hR a
    · rw [Function.update_of_ne ha] at hab
      exact hw.prev a b hab

theorem Within.insertNode {R : ν → ν → Prop} (hw : Within R h) (hR : Equivalence R)
    (hn : R node head) (hi : insertNode node head h = some h') : Within R h' := by
  obtain ⟨next, hnext, hn', hp', -⟩ := insertNode_some hi
  have hnodenext : R node next := hR.trans hn (hw.next head next hnext)
  refine ⟨fun a b hab => ?_, fun a b hab => ?_⟩
  · rw [hn'] at hab
    rcases eq_or_ne a head with rfl | ha
    · rw [Function.update_self] at hab
      cases hab
      exact hR.symm hn
    · rw [Function.update_of_ne ha] at hab
      rcases eq_or_ne a node with rfl | ha'
      · rw [Function.update_self] at hab
        cases hab
        exact hnodenext
      · rw [Function.update_of_ne ha'] at hab
        exact hw.next a b hab
  · rw [hp'] at hab
    rcases eq_or_ne a node with rfl | ha
    · rw [Function.update_self] at hab
      cases hab
      exact hn
    · rw [Function.update_of_ne ha] at hab
      rcases eq_or_ne a next with rfl | ha'
      · rw [Function.update_self] at hab
        cases hab
        exact hR.symm hnodenext
      · rw [Function.update_of_ne ha'] at hab
        exact hw.prev a b hab

theorem Within.addLastNode {R : ν → ν → Prop} (hw : Within R h) (hR : Equivalence R)
    (hn : R node head) (hi : addLastNode node head h = some h') : Within R h' := by
  unfold Yalnix.addLastNode at hi
  obtain ⟨prev, hprev, hi⟩ := Option.bind_eq_some_iff.mp hi
  exact hw.insertNode hR (hR.trans hn (hw.prev head prev hprev)) hi

end Yalnix
