import Yalnix.Core.List
import Yalnix.Lib.Rings

/-!
# The list primitives on rings

* `Rings.insertNode`, `Rings.addLastNode`, `Rings.removeNode` — what the primitives do to the rings of
  a heap.
* `spliceLinkedLists_some` — the links after a splice.
* `Rings.spliceOne` — a splice is right for a list of one node.
-/

set_option autoImplicit false

namespace Yalnix

open Ring (Heap IsRing Linked Rings Outside)

variable {ν : Type} [DecidableEq ν] {h h' : Heap ν} {heads : ν → Prop} {f : ν → List ν}
  {a b c x node hd : ν} {u v pre : List ν}

/-! ## Inserting -/

/-- A node comes after `b`, given the links that change. -/
theorem IsRing.linkAfter (hr : IsRing h hd (u ++ v)) (hb : hd :: u = pre ++ [b])
    (hx : x ∉ hd :: (u ++ v)) (hnext : h.next b = some c)
    (hn : h'.next = Function.update (Function.update h.next x (some c)) b (some x))
    (hp : h'.prev = Function.update (Function.update h.prev c (some x)) x (some b)) :
    IsRing h' hd (u ++ x :: v) := by
  obtain ⟨d, post, hd'⟩ : ∃ d post, v ++ [hd] = d :: post := by
    cases v with
    | nil => exact ⟨hd, [], rfl⟩
    | cons d v => exact ⟨d, v ++ [hd], rfl⟩
  have hlinked : Linked h b d := by
    refine hr.linked pre post ?_
    rw [← List.cons_append, List.append_assoc, hd', hb, List.append_assoc]
    rfl
  have hcd : c = d := Option.some.inj (hnext.symm.trans hlinked.1)
  subst hcd
  have hmemb : b ∈ hd :: (u ++ v) := by
    rw [← List.cons_append, hb]
    simp
  have hmemc := hr.next_mem hmemb hnext
  have hxb : x ≠ b := fun he => hx (he ▸ hmemb)
  have hxc : x ≠ c := fun he => hx (he ▸ hmemc)
  refine hr.link hb hd' hx ⟨?_, ?_⟩ ⟨?_, ?_⟩ (fun y hy hyb => ?_) fun y hy hyc => ?_
  · rw [hn, Function.update_self]
  · rw [hp, Function.update_self]
  · rw [hn, Function.update_of_ne hxb, Function.update_self]
  · rw [hp, Function.update_of_ne hxc.symm, Function.update_self]
  · have hyx : y ≠ x := fun he => hx (he ▸ hy)
    rw [hn, Function.update_of_ne hyb, Function.update_of_ne hyx]
  · have hyx : y ≠ x := fun he => hx (he ▸ hy)
    rw [hp, Function.update_of_ne hyx, Function.update_of_ne hyc]

theorem IsRing.insertNode (hr : IsRing h hd (u ++ v)) (hb : hd :: u = pre ++ [b])
    (hx : x ∉ hd :: (u ++ v)) (hi : insertNode x b h = some h') : IsRing h' hd (u ++ x :: v) := by
  obtain ⟨c, hnext, hn, hp, -⟩ := insertNode_some hi
  exact IsRing.linkAfter hr hb hx hnext hn hp

/-- There is room for an access to each of the nodes that insertion touches. -/
theorem insertNode_isSome (hx : (h x).isSome) (hnext : h.next b = some c) (hc : (h c).isSome) :
    ∃ h', Yalnix.insertNode x b h = some h' := by
  obtain ⟨h₁, hs₁⟩ := Heap.setPrev_isSome x hc
  obtain ⟨-, -, hn₁, ha₁⟩ := Heap.setPrev_some hs₁
  obtain ⟨h₂, hs₂⟩ := Heap.setNext_isSome c ((ha₁ x).symm ▸ hx)
  obtain ⟨-, -, -, ha₂⟩ := Heap.setNext_some hs₂
  obtain ⟨h₃, hs₃⟩ := Heap.setPrev_isSome b (((ha₂ x).trans (ha₁ x)).symm ▸ hx)
  obtain ⟨-, -, -, ha₃⟩ := Heap.setPrev_some hs₃
  obtain ⟨h₄, hs₄⟩ := Heap.setNext_isSome x
    ((((ha₃ b).trans (ha₂ b)).trans (ha₁ b)).symm ▸ Heap.isSome_of_next hnext)
  refine ⟨h₄, ?_⟩
  unfold Yalnix.insertNode
  simp only [Option.bind_eq_bind, hnext, Option.bind_some, hs₁, hn₁, hs₂, hs₃, hs₄]

theorem Rings.linkAfter (hr : Rings h heads f) (ha : heads a) (hf : f a = u ++ v)
    (hb : a :: u = pre ++ [b]) (hout : Outside heads f x) (hnext : h.next b = some c)
    (hn : h'.next = Function.update (Function.update h.next x (some c)) b (some x))
    (hp : h'.prev = Function.update (Function.update h.prev c (some x)) x (some b)) :
    Rings h' heads (Function.update f a (u ++ x :: v)) := by
  have hring := hr.ring a ha
  have hx := hout a ha
  rw [hf] at hring hx
  have hmemb : b ∈ a :: f a := by
    rw [hf, ← List.cons_append, hb]
    simp
  have hmemc := (hr.ring a ha).next_mem hmemb hnext
  refine hr.replace (IsRing.linkAfter hring hb hx hnext hn hp) (fun y hy => ?_)
    (fun d hd hne y hy => ?_) (fun d hd hne y hy => ?_) ha
  · rcases List.mem_append.mp hy with hy | hy
    · rw [hf]
      exact .inl (List.mem_append_left _ hy)
    · rcases List.mem_cons.mp hy with rfl | hy
      · exact .inr hout
      · rw [hf]
        exact .inl (List.mem_append_right _ hy)
  · have hyx : y ≠ x := fun he => hout d hd (he ▸ hy)
    have hyb : y ≠ b := fun he => hr.not_mem ha hd hne hy (he ▸ hmemb)
    rw [hn, Function.update_of_ne hyb, Function.update_of_ne hyx]
  · have hyx : y ≠ x := fun he => hout d hd (he ▸ hy)
    have hyc : y ≠ c := fun he => hr.not_mem ha hd hne hy (he ▸ hmemc)
    rw [hp, Function.update_of_ne hyx, Function.update_of_ne hyc]

theorem Rings.insertNode (hr : Rings h heads f) (ha : heads a) (hf : f a = u ++ v)
    (hb : a :: u = pre ++ [b]) (hout : Outside heads f x) (hi : insertNode x b h = some h') :
    Rings h' heads (Function.update f a (u ++ x :: v)) := by
  obtain ⟨c, hnext, hn, hp, -⟩ := insertNode_some hi
  exact Rings.linkAfter hr ha hf hb hout hnext hn hp

theorem IsRing.addLastNode (hr : IsRing h hd u) (hx : x ∉ hd :: u)
    (hi : addLastNode x hd h = some h') : IsRing h' hd (u ++ [x]) := by
  unfold Yalnix.addLastNode at hi
  obtain ⟨b, hb, hi⟩ := Option.bind_eq_some_iff.mp hi
  obtain ⟨pre, hpre⟩ := hr.prev_last hb
  refine IsRing.insertNode (v := []) ?_ hpre ?_ hi
  · rw [List.append_nil]
    exact hr
  · rw [List.append_nil]
    exact hx

theorem Rings.addLastNode (hr : Rings h heads f) (ha : heads a) (hout : Outside heads f x)
    (hi : addLastNode x a h = some h') : Rings h' heads (Function.update f a (f a ++ [x])) := by
  unfold Yalnix.addLastNode at hi
  obtain ⟨b, hb, hi⟩ := Option.bind_eq_some_iff.mp hi
  obtain ⟨pre, hpre⟩ := (hr.ring a ha).prev_last hb
  exact Rings.insertNode hr ha (List.append_nil _).symm hpre hout hi

/-! ## Removing -/

theorem IsRing.removeNode (hr : IsRing h hd (u ++ x :: v)) (hi : removeNode x h = some h') :
    IsRing h' hd (u ++ v) := by
  obtain ⟨prev, next, hprev, hnext, hn, hp, -⟩ := removeNode_some hi
  obtain ⟨c, post, hc⟩ : ∃ c post, v ++ [hd] = c :: post := by
    cases v with
    | nil => exact ⟨hd, [], rfl⟩
    | cons c v => exact ⟨c, v ++ [hd], rfl⟩
  obtain ⟨pre, z, hz⟩ : ∃ pre z, hd :: u = pre ++ [z] :=
    ⟨(hd :: u).dropLast, (hd :: u).getLast (by simp), (List.dropLast_append_getLast _).symm⟩
  have hwalk : hd :: (u ++ x :: v) ++ [hd] = pre ++ z :: x :: c :: post := by
    rw [← List.cons_append, hz]
    simp [hc]
  have hzx := (hr.linked pre (c :: post) hwalk).2
  have hxc := (hr.linked (a := x) (b := c) (pre ++ [z]) post (by rw [hwalk]; simp)).1
  rw [hprev, Option.some.injEq] at hzx
  rw [hnext, Option.some.injEq] at hxc
  subst hzx hxc
  refine hr.unlink hz hc ⟨?_, ?_⟩ (fun y _ hy => ?_) fun y _ hy => ?_
  · rw [hn, Function.update_self]
  · rw [hp, Function.update_self]
  · rw [hn, Function.update_of_ne hy]
  · rw [hp, Function.update_of_ne hy]

theorem Rings.removeNode (hr : Rings h heads f) (ha : heads a) (hf : f a = u ++ x :: v)
    (hi : removeNode x h = some h') : Rings h' heads (Function.update f a (u ++ v)) := by
  have hring := hr.ring a ha
  rw [hf] at hring
  obtain ⟨prev, next, hprev, hnext, hn, hp, -⟩ := removeNode_some hi
  have hmem : x ∈ a :: f a := by
    rw [hf]
    simp
  have hmemp := (hr.ring a ha).prev_mem hmem hprev
  have hmemn := (hr.ring a ha).next_mem hmem hnext
  refine hr.replace (IsRing.removeNode hring hi) (fun y hy => .inl ?_) (fun d hd hne y hy => ?_)
    (fun d hd hne y hy => ?_) ha
  · rw [hf]
    rcases List.mem_append.mp hy with hy | hy
    · exact List.mem_append_left _ hy
    · exact List.mem_append_right _ (List.mem_cons_of_mem _ hy)
  · have hyp : y ≠ prev := fun he => hr.not_mem ha hd hne hy (he ▸ hmemp)
    rw [hn, Function.update_of_ne hyp]
  · have hyn : y ≠ next := fun he => hr.not_mem ha hd hne hy (he ▸ hmemn)
    rw [hp, Function.update_of_ne hyn]

/-- A node whose neighbours are there can be removed. -/
theorem removeNode_isSome (hprev : h.prev x = some a) (hnext : h.next x = some c)
    (ha : (h a).isSome) (hc : (h c).isSome) : ∃ h', removeNode x h = some h' := by
  obtain ⟨h₁, hs₁⟩ := Heap.setNext_isSome c ha
  obtain ⟨-, hn₁, hp₁, ha₁⟩ := Heap.setNext_some hs₁
  have hnext₁ : h₁.next x = some c := by
    rw [hn₁]
    rcases eq_or_ne x a with rfl | hne
    · rw [Function.update_self]
    · rw [Function.update_of_ne hne, hnext]
  have hprev₁ : h₁.prev x = some a := by rw [hp₁, hprev]
  obtain ⟨h₂, hs₂⟩ := Heap.setPrev_isSome a ((ha₁ c).trans hc)
  refine ⟨h₂, ?_⟩
  unfold removeNode
  simp only [Option.bind_eq_bind, hprev, hnext, Option.bind_some, hs₁, hnext₁, hprev₁, hs₂]

theorem IsRing.removeNode_isSome (hr : IsRing h hd u) (hx : x ∈ hd :: u) :
    ∃ h', Yalnix.removeNode x h = some h' := by
  obtain ⟨l, hl⟩ := Option.isSome_iff_exists.mp (hr.isSome hx)
  have hprev : h.prev x = some l.prev := by simp [Heap.prev, hl]
  have hnext : h.next x = some l.next := by simp [Heap.next, hl]
  exact Yalnix.removeNode_isSome hprev hnext (hr.isSome (hr.prev_mem hx hprev))
    (hr.isSome (hr.next_mem hx hnext))

/-- The rings that the node is not part of stay as they are. -/
theorem IsRing.removeNode_other {ys : List ν} (hr : IsRing h hd u) (hx : x ∈ hd :: u)
    (ho : IsRing h a ys) (hxa : x ∉ a :: ys) (hi : Yalnix.removeNode x h = some h') :
    IsRing h' a ys := by
  obtain ⟨prev, next, hprev, hnext, hn, hp, -⟩ := removeNode_some hi
  refine ho.congr (fun y hy => ?_) fun y hy => ?_
  · have hne : y ≠ prev := by
      rintro rfl
      exact hxa (ho.next_mem hy (hr.prev_linked hx hprev).2)
    rw [hn, Function.update_of_ne hne]
  · have hne : y ≠ next := by
      rintro rfl
      exact hxa (ho.prev_mem hy (hr.next_prev hx hnext))
    rw [hp, Function.update_of_ne hne]

/-- A node that is removed is part of no ring, if it was not alone. -/
theorem IsRing.removeNode_gone {ys : List ν} (hr : IsRing h hd (u ++ x :: v))
    (hi : Yalnix.removeNode x h = some h') (ho : IsRing h' a ys) : x ∉ a :: ys := by
  intro hx
  obtain ⟨prev, next, hprev, hnext, hn, hp, -⟩ := removeNode_some hi
  have hmem : x ∈ hd :: (u ++ x :: v) := by simp
  have hne : x ≠ prev := by
    rintro rfl
    have hself := (hr.prev_linked hmem hprev).2
    obtain ⟨l, y, hy⟩ : ∃ l y, hd :: u = l ++ [y] :=
      ⟨(hd :: u).dropLast, (hd :: u).getLast (by simp), (List.dropLast_append_getLast _).symm⟩
    obtain ⟨d, post, hd'⟩ : ∃ d post, v ++ [hd] = d :: post := by
      cases v with
      | nil => exact ⟨hd, [], rfl⟩
      | cons d v => exact ⟨d, v ++ [hd], rfl⟩
    have hwalk : hd :: (u ++ x :: v) ++ [hd] = l ++ y :: x :: d :: post := by
      rw [← List.cons_append, hy]
      simp [hd']
    have hyx := hr.linked l (d :: post) hwalk
    rw [hyx.2, Option.some.injEq] at hprev
    have hnodup := hr.1
    rw [← List.cons_append, hy, hprev, List.append_assoc] at hnodup
    have htail := (List.nodup_append.mp hnodup).2.1
    simp at htail
  have hnext' : h'.next x = some next := by rw [hn, Function.update_of_ne hne, hnext]
  have hback := ho.next_prev hx hnext'
  rw [hp, Function.update_self, Option.some.injEq] at hback
  exact hne hback.symm

/-- Removing a node that is linked to itself changes nothing. -/
theorem removeNode_self (hr : IsRing h x []) (hi : removeNode x h = some h') : h' = h := by
  obtain ⟨prev, next, hprev, hnext, hn, hp, -⟩ := removeNode_some hi
  obtain ⟨hself, hself'⟩ := Ring.isRing_nil.mp hr
  rw [hself', Option.some.injEq] at hprev
  rw [hself, Option.some.injEq] at hnext
  subst hprev hnext
  exact Heap.ext (hn.trans (Function.update_eq_self_iff.mpr hself.symm))
    (hp.trans (Function.update_eq_self_iff.mpr hself'.symm))

/-! ## A new node -/

theorem Rings.linkedListNodeInit (hr : Rings h heads f) (hout : Outside heads f x) (hf : f x = []) :
    Rings (linkedListNodeInit x h) (fun a => heads a ∨ a = x) f := by
  have hsame : Rings (Yalnix.linkedListNodeInit x h) heads f := by
    refine hr.congr (fun a ha y hy => ?_) fun a ha y hy => ?_
    · have hyx : y ≠ x := fun he => hout a ha (he ▸ hy)
      rw [linkedListNodeInit_next, Function.update_of_ne hyx]
    · have hyx : y ≠ x := fun he => hout a ha (he ▸ hy)
      rw [linkedListNodeInit_prev, Function.update_of_ne hyx]
  refine hsame.add hout (Ring.isRing_nil.mpr ⟨?_, ?_⟩) hf
  · rw [linkedListNodeInit_next, Function.update_self]
  · rw [linkedListNodeInit_prev, Function.update_self]

/-! ## Splicing -/

variable {second first ck last : ν}

theorem spliceLinkedLists_empty (he : h.next second = some second) :
    spliceLinkedLists second first h = some h := by
  unfold spliceLinkedLists listIsEmpty
  simp [he]

/-- The links after a splice: the last node of the first list is linked to the last node of the
second, and the head of the first back to the first node of the second. -/
theorem spliceLinkedLists_some (hnext : h.next second = some c) (hprev : h.prev second = some ck)
    (hlast : h.prev first = some last) (hc : c ≠ second) (hck : ck ≠ second) (hl : last ≠ second)
    (hf : first ≠ c) (hs : spliceLinkedLists second first h = some h') :
    h'.next = Function.update (Function.update h.next ck (some first)) last (some ck) ∧
      h'.prev = Function.update (Function.update h.prev c (some last)) first (some c) ∧
      ∀ y, (h' y).isSome = (h y).isSome := by
  unfold spliceLinkedLists listIsEmpty at hs
  simp only [Option.bind_eq_bind, hnext, Option.bind_some, decide_eq_true_eq, if_neg hc, hprev,
    Option.bind_eq_some_iff] at hs
  obtain ⟨h₁, hs₁, next₁, hnext₁, prev₁, hprev₁, h₂, hs₂, prev₂, hprev₂, ck₂, hck₂, h₃, hs₃, next₃,
    hnext₃, hs₄⟩ := hs
  obtain ⟨-, hn₁, hp₁, ha₁⟩ := Heap.setNext_some hs₁
  obtain ⟨-, hp₂, hn₂, ha₂⟩ := Heap.setPrev_some hs₂
  obtain ⟨-, hn₃, hp₃, ha₃⟩ := Heap.setNext_some hs₃
  obtain ⟨-, hp₄, hn₄, ha₄⟩ := Heap.setPrev_some hs₄
  rw [hn₁, Function.update_of_ne hck.symm, hnext, Option.some.injEq] at hnext₁
  subst hnext₁
  rw [hp₁, hlast, Option.some.injEq] at hprev₁
  subst hprev₁
  rw [hp₂, hp₁, Function.update_of_ne hf, hlast, Option.some.injEq] at hprev₂
  subst hprev₂
  rw [hp₂, hp₁, Function.update_of_ne hc.symm, hprev, Option.some.injEq] at hck₂
  subst hck₂
  rw [hn₃, hn₂, hn₁, Function.update_of_ne hl.symm, Function.update_of_ne hck.symm, hnext,
    Option.some.injEq] at hnext₃
  subst hnext₃
  refine ⟨?_, ?_, fun y => by rw [ha₄, ha₃, ha₂, ha₁]⟩
  · rw [hn₄, hn₃, hn₂, hn₁]
  · rw [hp₄, hp₃, hp₂, hp₁]

theorem spliceLinkedLists_isSome (hnext : h.next second = some c) (hprev : h.prev second = some ck)
    (hlast : h.prev first = some last) (hc : c ≠ second) (hck : ck ≠ second) (hl : last ≠ second)
    (hf : first ≠ c) (hsc : (h c).isSome) (hsck : (h ck).isSome) (hsl : (h last).isSome) :
    ∃ h', spliceLinkedLists second first h = some h' := by
  have hsf : (h first).isSome := Heap.isSome_of_prev hlast
  obtain ⟨h₁, hs₁⟩ := Heap.setNext_isSome first hsck
  obtain ⟨-, hn₁, hp₁, ha₁⟩ := Heap.setNext_some hs₁
  have hnext₁ : h₁.next second = some c := by
    rw [hn₁, Function.update_of_ne hck.symm, hnext]
  have hprev₁ : h₁.prev first = some last := by
    rw [hp₁, hlast]
  obtain ⟨h₂, hs₂⟩ := Heap.setPrev_isSome last ((ha₁ c).trans hsc)
  obtain ⟨-, hp₂, hn₂, ha₂⟩ := Heap.setPrev_some hs₂
  have hprev₂ : h₂.prev first = some last := by
    rw [hp₂, hp₁, Function.update_of_ne hf, hlast]
  have hck₂ : h₂.prev second = some ck := by
    rw [hp₂, hp₁, Function.update_of_ne hc.symm, hprev]
  obtain ⟨h₃, hs₃⟩ := Heap.setNext_isSome ck (((ha₂ last).trans (ha₁ last)).trans hsl)
  obtain ⟨-, hn₃, hp₃, ha₃⟩ := Heap.setNext_some hs₃
  have hnext₃ : h₃.next second = some c := by
    rw [hn₃, hn₂, hn₁, Function.update_of_ne hl.symm, Function.update_of_ne hck.symm, hnext]
  obtain ⟨h₄, hs₄⟩ := Heap.setPrev_isSome c ((((ha₃ first).trans (ha₂ first)).trans
    (ha₁ first)).trans hsf)
  refine ⟨h₄, ?_⟩
  unfold spliceLinkedLists listIsEmpty
  simp only [Option.bind_eq_bind, hnext, Option.bind_some, decide_eq_true_eq, if_neg hc, hprev, hs₁,
    hnext₁, hprev₁, hs₂, hprev₂, hck₂, hs₃, hnext₃, hs₄]

/-- A splice is right for a list of one node; the head of the list it was on is part of no ring. -/
theorem Rings.spliceOne (hr : Rings h heads f) (hfirst : heads first) (hsecond : heads second)
    (hne : second ≠ first) (hf : f second = [c]) (hs : spliceLinkedLists second first h = some h') :
    Rings h' (fun a => heads a ∧ a ≠ second) (Function.update f first (f first ++ [c])) ∧
      ∀ y, y ≠ c → y ∉ first :: f first → h'.next y = h.next y := by
  have hring := hr.ring second hsecond
  rw [hf] at hring
  have hnext : h.next second = some c := hring.next_head
  have hlast : IsRing h second ([] ++ [c]) := hring
  have hprev : h.prev second = some c := hlast.prev_head
  have hc : c ≠ second := by
    rintro rfl
    exact hring.head_not_mem List.mem_cons_self
  have hcmem : c ∈ second :: f second := by
    rw [hf]
    simp
  obtain ⟨l, hl⟩ := Option.isSome_iff_exists.mp ((hr.ring first hfirst).isSome List.mem_cons_self)
  have hl : h.prev first = some l.prev := by simp [Heap.prev, hl]
  have hlmem := (hr.ring first hfirst).prev_mem List.mem_cons_self hl
  obtain ⟨pre, hpre⟩ := (hr.ring first hfirst).prev_last hl
  have hlastnext : h.next l.prev = some first := by
    refine ((hr.ring first hfirst).linked (a := l.prev) (b := first) pre [] ?_).1
    rw [hpre]
    simp
  have hls : l.prev ≠ second := fun he =>
    hr.not_mem hfirst hsecond hne List.mem_cons_self (he ▸ hlmem)
  have hfc : first ≠ c := by
    rintro rfl
    exact hr.not_mem hsecond hfirst hne.symm List.mem_cons_self hcmem
  obtain ⟨hn, hp, -⟩ := spliceLinkedLists_some hnext hprev hl hc hc hls hfc hs
  rw [Function.update_comm hfc.symm] at hp
  have hout : Outside (fun a => heads a ∧ a ≠ second) f c := fun a ha =>
    hr.not_mem ha.1 hsecond ha.2.symm hcmem
  refine ⟨Rings.linkAfter (hr.mono fun a ha => ha.1) ⟨hfirst, hne.symm⟩ (List.append_nil _).symm hpre
    hout hlastnext hn hp, fun y hyc hy => ?_⟩
  have hyl : y ≠ l.prev := fun he => hy (he ▸ hlmem)
  rw [hn, Function.update_of_ne hyl, Function.update_of_ne hyc]

end Yalnix
