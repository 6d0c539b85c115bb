import Yalnix.Core.List

/-!
# List primitives on a set of nodes

`Confined X h`: no link of a node in `X` leads out of `X`.  A primitive that is given nodes of `X`
follows links of nodes of `X`, so that it stays inside, whatever the lists look like.

* `Inside X h h'` — the links of `h'` are confined, and nodes outside `X` have kept theirs.
* `Confined.insertNode`, `Confined.removeNode`, `Confined.spliceLinkedLists` — the primitives.
* `Confined.add` — one more node, linked to itself.
* `Targets X h` — every link, of whatever node, leads into `X`.
-/

set_option autoImplicit false

namespace Yalnix

open Ring (Heap)

variable {ν : Type} {h h' h₁ : Heap ν} {X : ν → Prop} {a b x node head first second : ν}

/-- No link of a node in `X` leads out of `X`. -/
structure Confined (X : ν → Prop) (h : Heap ν) : Prop where
  next : ∀ a b, X a → h.next a = some b → X b
  prev : ∀ a b, X a → h.prev a = some b → X b

/-- The change was inside `X`. -/
structure Inside (X : ν → Prop) (h h' : Heap ν) : Prop where
  confined : Confined X h'
  next : ∀ a, ¬ X a → h'.next a = h.next a
  prev : ∀ a, ¬ X a → h'.prev a = h.prev a

theorem Inside.refl (hc : Confined X h) : Inside X h h := ⟨hc, fun _ _ => rfl, fun _ _ => rfl⟩

theorem Inside.trans (hi : Inside X h h₁) (hi' : Inside X h₁ h') : Inside X h h' :=
  ⟨hi'.confined, fun a ha => (hi'.next a ha).trans (hi.next a ha),
    fun a ha => (hi'.prev a ha).trans (hi.prev a ha)⟩

variable [DecidableEq ν]

/-! ## Stores -/

theorem Confined.setNext (hc : Confined X h) (ha : X a) (hb : X b) (hs : h.setNext a b = some h') :
    Inside X h h' := by
  obtain ⟨-, hn, hp, -⟩ := Heap.setNext_some hs
  refine ⟨⟨fun x y hx hy => ?_, fun x y hx hy => ?_⟩, fun x hx => ?_, fun x _ => by rw [hp]⟩
  · rw [hn] at hy
    rcases eq_or_ne x a with rfl | hne
    · rw [Function.update_self] at hy
      cases hy
      exact hb
    · rw [Function.update_of_ne hne] at hy
      exact hc.next x y hx hy
  · rw [hp] at hy
    exact hc.prev x y hx hy
  · have hne : x ≠ a := by
      rintro rfl
      exact hx ha
    rw [hn, Function.update_of_ne hne]

theorem Confined.setPrev (hc : Confined X h) (ha : X a) (hb : X b) (hs : h.setPrev a b = some h') :
    Inside X h h' := by
  obtain ⟨-, hp, hn, -⟩ := Heap.setPrev_some hs
  refine ⟨⟨fun x y hx hy => ?_, fun x y hx hy => ?_⟩, fun x _ => by rw [hn], fun x hx => ?_⟩
  · rw [hn] at hy
    exact hc.next x y hx hy
  · rw [hp] at hy
    rcases eq_or_ne x a with rfl | hne
    · rw [Function.update_self] at hy
      cases hy
      exact hb
    · rw [Function.update_of_ne hne] at hy
      exact hc.prev x y hx hy
  · have hne : x ≠ a := by
      rintro rfl
      exact hx ha
    rw [hp, Function.update_of_ne hne]

/-! ## Primitives -/

theorem Confined.insertNode (hc : Confined X h) (hnode : X node) (hhead : X head)
    (hi : insertNode node head h = some h') : Inside X h h' := by
  unfold Yalnix.insertNode at hi
  simp only [Option.bind_eq_bind, Option.bind_eq_some_iff] at hi
  obtain ⟨next, hnext, h₁, hs₁, next', hnext', h₂, hs₂, h₃, hs₃, hs₄⟩ := hi
  have hi₁ := hc.setPrev (hc.next _ _ hhead hnext) hnode hs₁
  have hi₂ := hi₁.confined.setNext hnode (hi₁.confined.next _ _ hhead hnext') hs₂
  have hi₃ := hi₂.confined.setPrev hnode hhead hs₃
  exact ((hi₁.trans hi₂).trans hi₃).trans (hi₃.confined.setNext hhead hnode hs₄)

theorem Confined.addLastNode (hc : Confined X h) (hnode : X node) (hhead : X head)
    (hi : addLastNode node head h = some h') : Inside X h h' := by
  unfold Yalnix.addLastNode at hi
  obtain ⟨prev, hprev, hi⟩ := Option.bind_eq_some_iff.mp hi
  exact hc.insertNode hnode (hc.prev _ _ hhead hprev) hi

theorem Confined.removeNode (hc : Confined X h) (hnode : X node)
    (hr : removeNode node h = some h') : Inside X h h' := by
  unfold Yalnix.removeNode at hr
  simp only [Option.bind_eq_bind, Option.bind_eq_some_iff] at hr
  obtain ⟨prev, hprev, next, hnext, h₁, hs₁, next', hnext', prev', hprev', hs₂⟩ := hr
  have hi₁ := hc.setNext (hc.prev _ _ hnode hprev) (hc.next _ _ hnode hnext) hs₁
  exact hi₁.trans (hi₁.confined.setPrev (hi₁.confined.next _ _ hnode hnext')
    (hi₁.confined.prev _ _ hnode hprev') hs₂)

theorem Confined.spliceLinkedLists (hc : Confined X h) (hsecond : X second) (hfirst : X first)
    (hs : spliceLinkedLists second first h = some h') : Inside X h h' := by
  unfold Yalnix.spliceLinkedLists at hs
  simp only [Option.bind_eq_bind, Option.bind_eq_some_iff] at hs
  obtain ⟨empty, -, hs⟩ := hs
  split at hs
  · cases hs
    exact .refl hc
  · simp only [Option.bind_eq_some_iff] at hs
    obtain ⟨prev, hprev, h₁, hs₁, next, hnext, last, hlast, h₂, hs₂, last', hlast', prev', hprev',
      h₃, hs₃, next', hnext', hs₄⟩ := hs
    have hi₁ := hc.setNext (hc.prev _ _ hsecond hprev) hfirst hs₁
    have hc₁ := hi₁.confined
    have hi₂ := hc₁.setPrev (hc₁.next _ _ hsecond hnext) (hc₁.prev _ _ hfirst hlast) hs₂
    have hc₂ := hi₂.confined
    have hi₃ := hc₂.setNext (hc₂.prev _ _ hfirst hlast') (hc₂.prev _ _ hsecond hprev') hs₃
    have hc₃ := hi₃.confined
    exact ((hi₁.trans hi₂).trans hi₃).trans
      (hc₃.setPrev hfirst (hc₃.next _ _ hsecond hnext') hs₄)

/-! ## A new node -/

/-- The new node may be part of `X` or not. -/
theorem Confined.linkedListNodeInit (hc : Confined X h) (x : ν) :
    Confined X (linkedListNodeInit x h) := by
  refine ⟨fun a b ha hb => ?_, fun a b ha hb => ?_⟩
  · rw [linkedListNodeInit_next] at hb
    rcases eq_or_ne a x with rfl | hne
    · rw [Function.update_self] at hb
      cases hb
      exact ha
    · rw [Function.update_of_ne hne] at hb
      exact hc.next a b ha hb
  · rw [linkedListNodeInit_prev] at hb
    rcases eq_or_ne a x with rfl | hne
    · rw [Function.update_self] at hb
      cases hb
      exact ha
    · rw [Function.update_of_ne hne] at hb
      exact hc.prev a b ha hb

omit [DecidableEq ν] in
/-- A node that is linked to itself. -/
theorem Confined.add (hc : Confined X h) (hn : h.next x = some x) (hp : h.prev x = some x) :
    Confined (fun a => X a ∨ a = x) h := by
  refine ⟨?_, ?_⟩
  · rintro a b (ha | rfl) hb
    · exact .inl (hc.next a b ha hb)
    · rw [hn] at hb
      cases hb
      exact .inr rfl
  · rintro a b (ha | rfl) hb
    · exact .inl (hc.prev a b ha hb)
    · rw [hp] at hb
      cases hb
      exact .inr rfl

/-! ## Links into a set -/

omit [DecidableEq ν] in
/-- Every link leads to a node of `X`. -/
structure Targets (X : ν → Prop) (h : Heap ν) : Prop where
  next : ∀ a b, h.next a = some b → X b
  prev : ∀ a b, h.prev a = some b → X b

omit [DecidableEq ν] in
theorem Targets.mono {Y : ν → Prop} (ht : Targets X h) (hXY : ∀ a, X a → Y a) : Targets Y h :=
  ⟨fun a b hb => hXY b (ht.next a b hb), fun a b hb => hXY b (ht.prev a b hb)⟩

theorem Targets.linkedListNodeInit (ht : Targets X h) (hx : X x) :
    Targets X (linkedListNodeInit x h) := by
  refine ⟨fun a b hb => ?_, fun a b hb => ?_⟩
  · rw [linkedListNodeInit_next] at hb
    rcases eq_or_ne a x with rfl | hne
    · rw [Function.update_self] at hb
      cases hb
      exact hx
    · rw [Function.update_of_ne hne] at hb
      exact ht.next a b hb
  · rw [linkedListNodeInit_prev] at hb
    rcases eq_or_ne a x with rfl | hne
    · rw [Function.update_self] at hb
      cases hb
      exact hx
    · rw [Function.update_of_ne hne] at hb
      exact ht.prev a b hb

theorem Targets.setNext (ht : Targets X h) (hb : X b) (hs : h.setNext a b = some h') :
    Targets X h' := by
  obtain ⟨-, hn, hp, -⟩ := Heap.setNext_some hs
  refine ⟨fun x y hy => ?_, fun x y hy => ?_⟩
  · rw [hn] at hy
    rcases eq_or_ne x a with rfl | hne
    · rw [Function.update_self] at hy
      cases hy
      exact hb
    · rw [Function.update_of_ne hne] at hy
      exact ht.next x y hy
  · rw [hp] at hy
    exact ht.prev x y hy

theorem Targets.setPrev (ht : Targets X h) (hb : X b) (hs : h.setPrev a b = some h') :
    Targets X h' := by
  obtain ⟨-, hp, hn, -⟩ := Heap.setPrev_some hs
  refine ⟨fun x y hy => ?_, fun x y hy => ?_⟩
  · rw [hn] at hy
    exact ht.next x y hy
  · rw [hp] at hy
    rcases eq_or_ne x a with rfl | hne
    · rw [Function.update_self] at hy
      cases hy
      exact hb
    · rw [Function.update_of_ne hne] at hy
      exact ht.prev x y hy

theorem Targets.insertNode (ht : Targets X h) (hnode : X node) (hhead : X head)
    (hi : insertNode node head h = some h') : Targets X h' := by
  unfold Yalnix.insertNode at hi
  simp only [Option.bind_eq_bind, Option.bind_eq_some_iff] at hi
  obtain ⟨next, -, h₁, hs₁, next', hnext', h₂, hs₂, h₃, hs₃, hs₄⟩ := hi
  have ht₁ := ht.setPrev hnode hs₁
  have ht₂ := ht₁.setNext (ht₁.next _ _ hnext') hs₂
  have ht₃ := ht₂.setPrev hhead hs₃
  exact ht₃.setNext hnode hs₄

theorem Targets.addLastNode (ht : Targets X h) (hnode : X node)
    (hi : addLastNode node head h = some h') : Targets X h' := by
  unfold Yalnix.addLastNode at hi
  obtain ⟨prev, hprev, hi⟩ := Option.bind_eq_some_iff.mp hi
  exact ht.insertNode hnode (ht.prev _ _ hprev) hi

/-- The node that is taken off need not be in `X`: what it links to is. -/
theorem Targets.removeNode (ht : Targets X h) (hr : removeNode node h = some h') :
    Targets X h' := by
  unfold Yalnix.removeNode at hr
  simp only [Option.bind_eq_bind, Option.bind_eq_some_iff] at hr
  obtain ⟨prev, -, next, hnext, h₁, hs₁, next', -, prev', hprev', hs₂⟩ := hr
  have ht₁ := ht.setNext (ht.next _ _ hnext) hs₁
  exact ht₁.setPrev (ht₁.prev _ _ hprev') hs₂

end Yalnix
