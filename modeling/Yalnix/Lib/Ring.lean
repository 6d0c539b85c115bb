import Mathlib.Data.List.Chain
import Mathlib.Data.List.Nodup
import Mathlib.Logic.Function.Basic

/-!
# Circular doubly linked lists in a heap

A heap maps a node to its two links; a node that is not allocated has none.  A list is
closed through a sentinel `hd`: `IsRing h hd xs` says that following `next` from `hd`
visits exactly `xs`, each once, and comes back, and that `prev` walks the same way back.

* `walk` — following one of the links from node to node; `IsRing.forwards`, `IsRing.backwards`.
* `IsRing.congr` — a heap that agrees on the nodes of a ring has the same ring.
* `IsRing.link` / `IsRing.unlink` — what the two pointer pairs at a junction have to be for
  a node to be in, or out of, the sequence there.  Any code that writes those pointers, in
  whatever order, gets its list operation from these two.
-/

set_option autoImplicit false

namespace Ring

variable {ν : Type*}

/-- The two links of a node. -/
structure Link (ν : Type*) where
  next : ν
  prev : ν
  deriving DecidableEq, Repr

/-- `none`: the node is not allocated. -/
abbrev Heap (ν : Type*) := ν → Option (Link ν)

namespace Heap

/-- Reading `a->next`. -/
def next (h : Heap ν) (a : ν) : Option ν := (h a).map Link.next

/-- Reading `a->prev`. -/
def prev (h : Heap ν) (a : ν) : Option ν := (h a).map Link.prev

variable [DecidableEq ν]

/-- Storing to `a->next`; a store to a node that is not allocated fails. -/
def setNext (h : Heap ν) (a b : ν) : Option (Heap ν) :=
  (h a).map fun l => Function.update h a (some { l with next := b })

/-- Storing to `a->prev`. -/
def setPrev (h : Heap ν) (a b : ν) : Option (Heap ν) :=
  (h a).map fun l => Function.update h a (some { l with prev := b })

variable {h h' : Heap ν} {a b x : ν}

theorem setNext_some (hs : h.setNext a b = some h') :
    (h a).isSome ∧ h'.next = Function.update h.next a (some b) ∧ h'.prev = h.prev ∧
      ∀ x, (h' x).isSome = (h x).isSome := by
  unfold setNext at hs
  cases ha : h a with
  | none => simp [ha] at hs
  | some l =>
    simp only [ha, Option.map_some, Option.some.injEq] at hs
    subst hs
    refine ⟨rfl, ?_, ?_, fun x => ?_⟩
    · funext x
      by_cases hx : x = a
      · subst hx; simp [next]
      · simp [next, hx]
    · funext x
      by_cases hx : x = a
      · subst hx; simp [prev, ha]
      · simp [prev, hx]
    · by_cases hx : x = a
      · subst hx; simp [ha]
      · simp [hx]

theorem setPrev_some (hs : h.setPrev a b = some h') :
    (h a).isSome ∧ h'.prev = Function.update h.prev a (some b) ∧ h'.next = h.next ∧
      ∀ x, (h' x).isSome = (h x).isSome := by
  unfold setPrev at hs
  cases ha : h a with
  | none => simp [ha] at hs
  | some l =>
    simp only [ha, Option.map_some, Option.some.injEq] at hs
    subst hs
    refine ⟨rfl, ?_, ?_, fun x => ?_⟩
    · funext x
      by_cases hx : x = a
      · subst hx; simp [prev]
      · simp [prev, hx]
    · funext x
      by_cases hx : x = a
      · subst hx; simp [next, ha]
      · simp [next, hx]
    · by_cases hx : x = a
      · subst hx; simp [ha]
      · simp [hx]

theorem setNext_isSome (b : ν) (ha : (h a).isSome) : ∃ h', h.setNext a b = some h' := by
  obtain ⟨l, hl⟩ := Option.isSome_iff_exists.mp ha
  exact ⟨Function.update h a (some { l with next := b }), by simp [setNext, hl]⟩

theorem setPrev_isSome (b : ν) (ha : (h a).isSome) : ∃ h', h.setPrev a b = some h' := by
  obtain ⟨l, hl⟩ := Option.isSome_iff_exists.mp ha
  exact ⟨Function.update h a (some { l with prev := b }), by simp [setPrev, hl]⟩

omit [DecidableEq ν] in
theorem next_isSome : (h.next a).isSome = (h a).isSome := by simp [next]

omit [DecidableEq ν] in
theorem prev_isSome : (h.prev a).isSome = (h a).isSome := by simp [prev]

omit [DecidableEq ν] in
theorem isSome_of_next (hn : h.next a = some b) : (h a).isSome := by
  rw [← next_isSome, hn]; rfl

omit [DecidableEq ν] in
theorem isSome_of_prev (hn : h.prev a = some b) : (h a).isSome := by
  cases ha : h a with
  | none => simp [prev, ha] at hn
  | some l => rfl

omit [DecidableEq ν] in
theorem ext (hn : h'.next = h.next) (hp : h'.prev = h.prev) : h' = h := by
  funext x
  have hnx := congrFun hn x
  have hpx := congrFun hp x
  unfold next at hnx
  unfold prev at hpx
  cases hx : h x with
  | none =>
    rw [hx] at hnx
    exact Option.map_eq_none_iff.mp hnx
  | some k =>
    cases hx' : h' x with
    | none =>
      rw [hx, hx'] at hnx
      cases hnx
    | some k' =>
      rw [hx, hx', Option.map_some, Option.map_some, Option.some.injEq] at hnx hpx
      cases k
      cases k'
      cases hnx
      cases hpx
      rfl

end Heap

/-! ## Rings -/

/-- `b` follows `a`, in both directions. -/
def Linked (h : Heap ν) (a b : ν) : Prop := h.next a = some b ∧ h.prev b = some a

/-- The list closed through `hd` holds exactly `xs`, in order. -/
def IsRing (h : Heap ν) (hd : ν) (xs : List ν) : Prop :=
  (hd :: xs).Nodup ∧ (hd :: xs ++ [hd]).IsChain (Linked h)

instance [DecidableEq ν] (h : Heap ν) (a b : ν) : Decidable (Linked h a b) :=
  inferInstanceAs (Decidable (_ ∧ _))

instance [DecidableEq ν] (h : Heap ν) (hd : ν) (xs : List ν) : Decidable (IsRing h hd xs) :=
  inferInstanceAs (Decidable (_ ∧ _))

variable {h h' : Heap ν} {hd a b c : ν} {xs ys pre post : List ν}

theorem IsRing.nodup (hr : IsRing h hd xs) : xs.Nodup := (List.nodup_cons.mp hr.1).2

theorem IsRing.head_not_mem (hr : IsRing h hd xs) : hd ∉ xs := (List.nodup_cons.mp hr.1).1

/-- Two neighbours of the closed walk are linked. -/
theorem IsRing.linked (hr : IsRing h hd xs) (p q : List ν)
    (hs : hd :: xs ++ [hd] = p ++ a :: b :: q) : Linked h a b :=
  List.isChain_iff_forall_rel_of_append_cons_cons.mp hr.2 hs

theorem isRing_nil : IsRing h hd [] ↔ h.next hd = some hd ∧ h.prev hd = some hd := by
  simp [IsRing, Linked]

/-- Each node of the walk has one that comes after it. -/
theorem exists_next (ha : a ∈ hd :: xs) : ∃ b p q, hd :: xs ++ [hd] = p ++ a :: b :: q := by
  obtain ⟨l₁, l₂, hl⟩ := List.append_of_mem ha
  cases l₂ with
  | nil => exact ⟨hd, l₁, [], by rw [hl]; simp⟩
  | cons b l₂ => exact ⟨b, l₁, l₂ ++ [hd], by rw [hl]; simp⟩

/-- And one that comes before it. -/
theorem exists_prev (ha : a ∈ hd :: xs) : ∃ b p q, b ∈ hd :: xs ∧ hd :: xs ++ [hd] = p ++ b :: a :: q := by
  have hrot : a ∈ xs ++ [hd] := by
    rcases List.mem_cons.mp ha with rfl | ha
    · simp
    · exact List.mem_append_left _ ha
  obtain ⟨l₁, l₂, hl⟩ := List.append_of_mem hrot
  obtain ⟨p, b, hb⟩ : ∃ p b, hd :: l₁ = p ++ [b] :=
    ⟨(hd :: l₁).dropLast, (hd :: l₁).getLast (by simp), (List.dropLast_append_getLast _).symm⟩
  refine ⟨b, p, l₂, ?_, ?_⟩
  · have hmem : b ∈ hd :: l₁ := by rw [hb]; simp
    rcases List.mem_cons.mp hmem with rfl | hmem
    · exact List.mem_cons_self
    · have hwalk : b ∈ xs ++ [hd] := by rw [hl]; exact List.mem_append_left _ hmem
      simpa [or_comm] using hwalk
  · rw [List.cons_append, hl, ← List.cons_append, hb]
    simp

theorem IsRing.next_head (hr : IsRing h hd (a :: xs)) : h.next hd = some a :=
  (hr.linked [] (xs ++ [hd]) rfl).1

theorem IsRing.prev_head (hr : IsRing h hd (xs ++ [a])) : h.prev hd = some a :=
  (hr.linked (hd :: xs) [] (by simp)).2

/-- The walk passes through every node of the ring: it is allocated. -/
theorem IsRing.isSome (hr : IsRing h hd xs) (hx : a ∈ hd :: xs) : (h a).isSome := by
  obtain ⟨b, p, q, hwalk⟩ := exists_next hx
  exact Heap.isSome_of_next (hr.linked p q hwalk).1

/-- Two heaps with the same ring have the same links there. -/
theorem IsRing.links (hr : IsRing h hd xs) (hr' : IsRing h' hd xs) (ha : a ∈ hd :: xs) :
    h'.next a = h.next a ∧ h'.prev a = h.prev a := by
  obtain ⟨b, p, q, hwalk⟩ := exists_next ha
  obtain ⟨c, p', q', -, hwalk'⟩ := exists_prev ha
  constructor
  · rw [(hr.linked p q hwalk).1, (hr'.linked p q hwalk).1]
  · rw [(hr.linked p' q' hwalk').2, (hr'.linked p' q' hwalk').2]

/-- Forward along the ring, from the first element on. -/
theorem IsRing.onward (hr : IsRing h hd xs) :
    (xs ++ [hd]).IsChain fun a b => h.next a = some b := by
  have hc := hr.2.imp fun _ _ hl => hl.1
  cases xs with
  | nil => exact .singleton _
  | cons x xs => exact (List.isChain_cons_cons.mp hc).2

theorem IsRing.first (hr : IsRing h hd xs) (hn : h.next hd = some a) :
    (xs ++ [hd]).head? = some a := by
  cases xs with
  | nil =>
    rw [(isRing_nil.mp hr).1] at hn
    exact hn
  | cons x xs =>
    rw [hr.next_head] at hn
    exact hn

/-- What follows a node of a ring is a node of the ring. -/
theorem IsRing.next_mem (hr : IsRing h hd xs) (ha : a ∈ hd :: xs) (hn : h.next a = some b) :
    b ∈ hd :: xs := by
  obtain ⟨c, p, q, hwalk⟩ := exists_next ha
  have hlink := (hr.linked p q hwalk).1
  rw [hn, Option.some.injEq] at hlink
  have hmem : b ∈ hd :: xs ++ [hd] := by rw [hwalk, hlink]; simp
  simpa [or_comm] using hmem

/-- A link forward is met by one back. -/
theorem IsRing.next_prev (hr : IsRing h hd xs) (ha : a ∈ hd :: xs) (hn : h.next a = some b) :
    h.prev b = some a := by
  obtain ⟨c, p, q, hwalk⟩ := exists_next ha
  obtain ⟨hnext, hprev⟩ := hr.linked p q hwalk
  rw [hn, Option.some.injEq] at hnext
  rw [hnext]
  exact hprev

/-- What precedes a node of a ring is a node of the ring, and linked to it. -/
theorem IsRing.prev_linked (hr : IsRing h hd xs) (ha : a ∈ hd :: xs) (hn : h.prev a = some b) :
    b ∈ hd :: xs ∧ h.next b = some a := by
  obtain ⟨c, p, q, hmem, hwalk⟩ := exists_prev ha
  obtain ⟨hnext, hprev⟩ := hr.linked p q hwalk
  rw [hn, Option.some.injEq] at hprev
  rw [hprev]
  exact ⟨hmem, hnext⟩

theorem IsRing.prev_mem (hr : IsRing h hd xs) (ha : a ∈ hd :: xs) (hn : h.prev a = some b) :
    b ∈ hd :: xs :=
  (hr.prev_linked ha hn).1

/-- The node before the head is the last one. -/
theorem IsRing.prev_last (hr : IsRing h hd xs) (hp : h.prev hd = some b) :
    ∃ pre, hd :: xs = pre ++ [b] := by
  rcases List.eq_nil_or_concat' xs with rfl | ⟨l, z, rfl⟩
  · have hself := (isRing_nil.mp hr).2
    rw [hp, Option.some.injEq] at hself
    exact ⟨[], by rw [hself]; rfl⟩
  · have hz := hr.prev_head
    rw [hp, Option.some.injEq] at hz
    exact ⟨hd :: l, by rw [hz]; rfl⟩

theorem chain_unique : ∀ (xs ys : List ν) (a : ν), (a :: xs ++ [hd]).IsChain (Linked h) →
    (a :: ys ++ [hd]).IsChain (Linked h) → hd ∉ xs → hd ∉ ys → xs = ys
  | [], [], _, _, _, _, _ => rfl
  | [], b :: ys, a, hx, hy, _, hd' => by
    have h₁ := (List.isChain_cons_cons.mp hx).1.1
    have h₂ := (List.isChain_cons_cons.mp hy).1.1
    rw [h₁, Option.some.injEq] at h₂
    exact absurd h₂ fun he => hd' (by simp [he])
  | b :: xs, [], a, hx, hy, hd', _ => by
    have h₁ := (List.isChain_cons_cons.mp hx).1.1
    have h₂ := (List.isChain_cons_cons.mp hy).1.1
    rw [h₂, Option.some.injEq] at h₁
    exact absurd h₁ fun he => hd' (by simp [he])
  | b :: xs, c :: ys, a, hx, hy, hdx, hdy => by
    obtain ⟨h₁, hx'⟩ := List.isChain_cons_cons.mp hx
    obtain ⟨h₂, hy'⟩ := List.isChain_cons_cons.mp hy
    have hbc : b = c := by
      have := h₁.1.symm.trans h₂.1
      rwa [Option.some.injEq] at this
    subst hbc
    rw [chain_unique xs ys b hx' hy' (fun hm => hdx (List.mem_cons_of_mem _ hm))
      fun hm => hdy (List.mem_cons_of_mem _ hm)]

/-- The heap determines the list. -/
theorem IsRing.unique (hx : IsRing h hd xs) (hy : IsRing h hd ys) : xs = ys :=
  chain_unique xs ys hd hx.2 hy.2 hx.head_not_mem hy.head_not_mem

/-- A change of the heap off the nodes of a ring leaves the ring alone. -/
theorem IsRing.congr (hr : IsRing h hd xs) (hn : ∀ x ∈ hd :: xs, h'.next x = h.next x)
    (hp : ∀ x ∈ hd :: xs, h'.prev x = h.prev x) : IsRing h' hd xs := by
  refine ⟨hr.1, hr.2.imp_of_mem_imp fun x y hx hy hl => ?_⟩
  have mem : ∀ z ∈ hd :: xs ++ [hd], z ∈ hd :: xs := by
    intro z hz
    rcases List.mem_append.mp hz with hz | hz
    · exact hz
    · rw [List.mem_singleton.mp hz]; exact List.mem_cons_self
  exact ⟨by rw [hn x (mem x hx)]; exact hl.1, by rw [hp y (mem y hy)]; exact hl.2⟩

/-- On a chain whose two ends are set apart, only the `next` of the front part and the `prev`
of the back part are read. -/
theorem chain_congr {l : List ν} (hc : l.IsChain (Linked h))
    (hn : ∀ x ∈ l.dropLast, h'.next x = h.next x) (hp : ∀ x ∈ l.tail, h'.prev x = h.prev x) :
    l.IsChain (Linked h') := by
  rw [List.isChain_iff_forall_rel_of_append_cons_cons] at hc ⊢
  intro x y l₁ l₂ hl
  have hxy := hc hl
  have hx : x ∈ l.dropLast := by rw [hl, List.dropLast_append_of_ne_nil (by simp)]; simp
  have hy : y ∈ l.tail := by rw [hl]; cases l₁ <;> simp
  exact ⟨by rw [hn x hx]; exact hxy.1, by rw [hp y hy]; exact hxy.2⟩

/-- The two halves of a ring on either side of a junction survive any change of `a->next`
and `c->prev`, the only two links that meet there. -/
theorem chain_halves (hnd : (hd :: (xs ++ ys)).Nodup) (hx : hd :: xs = pre ++ [a])
    (hy : ys ++ [hd] = c :: post)
    (hn : ∀ x ∈ hd :: (xs ++ ys), x ≠ a → h'.next x = h.next x)
    (hp : ∀ x ∈ hd :: (xs ++ ys), x ≠ c → h'.prev x = h.prev x)
    (hfront : (pre ++ [a]).IsChain (Linked h)) (hback : (c :: post).IsChain (Linked h)) :
    (pre ++ [a]).IsChain (Linked h') ∧ (c :: post).IsChain (Linked h') := by
  have hfr : (hd :: xs ++ ys).Nodup := by simpa using hnd
  -- the walk repeats its head: rotating it puts the seam behind `ys`
  have hrot : (ys ++ [hd] ++ xs).Nodup := by
    have : List.Perm (ys ++ [hd] ++ xs) (hd :: (xs ++ ys)) := by
      refine List.perm_append_comm.trans ?_
      rw [← List.append_assoc]
      exact List.perm_append_singleton _ _
    exact this.nodup_iff.mpr hnd
  refine ⟨chain_congr hfront ?_ ?_, chain_congr hback ?_ ?_⟩
  · intro x hm
    rw [List.dropLast_concat] at hm
    have hxx : x ∈ hd :: xs := by rw [hx]; simp [hm]
    refine hn x (by simp only [List.mem_cons, List.mem_append] at hxx ⊢; tauto) fun he => ?_
    have hpa : (pre ++ [a]).Nodup := hx ▸ (List.nodup_append.mp hfr).1
    exact (List.nodup_append.mp hpa).2.2 x hm a (by simp) he
  · intro x hm
    have hxs : x ∈ xs := by
      have : (pre ++ [a]).tail = xs := by rw [← hx]; rfl
      rwa [this] at hm
    refine hp x (by simp [hxs]) fun he => ?_
    have : c ∈ ys ++ [hd] := by rw [hy]; simp
    exact (List.nodup_append.mp hrot).2.2 c this x hxs he.symm
  · intro x hm
    have hdl : (c :: post).dropLast = ys := by rw [← hy, List.dropLast_concat]
    rw [hdl] at hm
    refine hn x (by simp [hm]) fun he => ?_
    have ha : a ∈ hd :: xs := by rw [hx]; simp
    exact (List.nodup_append.mp hfr).2.2 a ha x hm he.symm
  · intro x hm
    have hm' : x ∈ post := hm
    have hxx : x ∈ ys ++ [hd] := by rw [hy]; simp [hm']
    refine hp x ?_ fun he => ?_
    · simp only [List.mem_cons, List.mem_append, List.not_mem_nil, or_false] at hxx ⊢; tauto
    · rw [hy] at hrot
      exact (List.nodup_cons.mp (List.nodup_append.mp hrot).1).1 (he ▸ hm')

/-- A node on no list becomes a member between two neighbours `a` and `c` of the ring. -/
theorem IsRing.link {u v : List ν} (hr : IsRing h hd (u ++ v)) (hx : hd :: u = pre ++ [a])
    (hy : v ++ [hd] = c :: post) (hb : b ∉ hd :: (u ++ v))
    (hab : Linked h' a b) (hbc : Linked h' b c)
    (hn : ∀ x ∈ hd :: (u ++ v), x ≠ a → h'.next x = h.next x)
    (hp : ∀ x ∈ hd :: (u ++ v), x ≠ c → h'.prev x = h.prev x) : IsRing h' hd (u ++ b :: v) := by
  have hsplit : hd :: (u ++ v) ++ [hd] = pre ++ a :: c :: post := by
    rw [← List.cons_append, hx]; simp [hy]
  have hshape : hd :: (u ++ b :: v) ++ [hd] = pre ++ a :: b :: c :: post := by
    rw [← List.cons_append, hx]; simp [hy]
  have hperm : List.Perm (hd :: (u ++ b :: v)) (b :: hd :: (u ++ v)) :=
    (List.Perm.cons _ List.perm_middle).trans (List.Perm.swap _ _ _)
  obtain ⟨hfront, -, hback⟩ := List.isChain_append_cons_cons.mp (hsplit ▸ hr.2)
  obtain ⟨hf, hk⟩ := chain_halves hr.1 hx hy hn hp hfront hback
  refine ⟨hperm.nodup_iff.mpr (List.nodup_cons.mpr ⟨hb, hr.1⟩), ?_⟩
  rw [hshape, List.isChain_append_cons_cons]
  exact ⟨hf, hab, List.isChain_cons_cons.mpr ⟨hbc, hk⟩⟩

/-- A member leaves the ring: its two neighbours are linked to each other. -/
theorem IsRing.unlink {u v : List ν} (hr : IsRing h hd (u ++ b :: v)) (hx : hd :: u = pre ++ [a])
    (hy : v ++ [hd] = c :: post) (hac : Linked h' a c)
    (hn : ∀ x ∈ hd :: (u ++ v), x ≠ a → h'.next x = h.next x)
    (hp : ∀ x ∈ hd :: (u ++ v), x ≠ c → h'.prev x = h.prev x) : IsRing h' hd (u ++ v) := by
  have hsplit : hd :: (u ++ b :: v) ++ [hd] = pre ++ a :: b :: c :: post := by
    rw [← List.cons_append, hx]; simp [hy]
  have hshape : hd :: (u ++ v) ++ [hd] = pre ++ a :: c :: post := by
    rw [← List.cons_append, hx]; simp [hy]
  have hperm : List.Perm (hd :: (u ++ b :: v)) (b :: hd :: (u ++ v)) :=
    (List.Perm.cons _ List.perm_middle).trans (List.Perm.swap _ _ _)
  have hnd : (hd :: (u ++ v)).Nodup := (List.nodup_cons.mp (hperm.nodup_iff.mp hr.1)).2
  obtain ⟨hfront, -, hback⟩ := List.isChain_append_cons_cons.mp (hsplit ▸ hr.2)
  obtain ⟨hf, hk⟩ := chain_halves hnd hx hy hn hp hfront (List.isChain_cons_cons.mp hback).2
  refine ⟨hnd, ?_⟩
  rw [hshape, List.isChain_append_cons_cons]
  exact ⟨hf, hac, hk⟩

/-! ## Walks -/

variable [DecidableEq ν]

/-- The nodes that `link` leads through, from `pos` on until `hd` comes up. -/
def walk (link : ν → Option ν) (hd : ν) : Nat → ν → Option (List ν)
  | 0, _ => none
  | n + 1, pos =>
    if pos = hd then some []
    else do
      let next ← link pos
      let rest ← walk link hd n next
      some (pos :: rest)

omit [DecidableEq ν] in
theorem chain_first {r : ν → ν → Prop} {y : ν} (hc : (a :: (xs ++ [hd])).IsChain r)
    (hy : (xs ++ [hd]).head? = some y) : r a y := by
  cases xs with
  | nil =>
    cases hy
    exact (List.isChain_cons_cons.mp hc).1
  | cons x xs =>
    cases hy
    exact (List.isChain_cons_cons.mp hc).1

omit [DecidableEq ν] in
theorem exists_first (xs : List ν) (hd : ν) : ∃ y, (xs ++ [hd]).head? = some y := by
  cases xs with
  | nil => exact ⟨hd, rfl⟩
  | cons x xs => exact ⟨x, rfl⟩

/-- A chain of links that ends in `hd` is walked in full. -/
theorem walk_chain {link : ν → Option ν} {y : ν} : ∀ {xs : List ν} {n : Nat}, xs.length < n → hd ∉ xs →
    (xs ++ [hd]).IsChain (fun a b => link a = some b) → (xs ++ [hd]).head? = some y →
    walk link hd n y = some xs
  | _, 0, hn, _, _, _ => absurd hn (Nat.not_lt_zero _)
  | [], n + 1, _, _, _, hy => by
    cases hy
    exact if_pos rfl
  | x :: xs, n + 1, hn, hd', hc, hy => by
    rw [List.cons_append, List.head?_cons, Option.some.injEq] at hy
    subst hy
    have hx : x ≠ hd := fun he => hd' (he ▸ List.mem_cons_self)
    obtain ⟨z, hz⟩ := exists_first xs hd
    have hlink := chain_first hc hz
    have hrest := walk_chain (n := n) (Nat.lt_of_succ_lt_succ hn) (fun hm => hd' (List.mem_cons_of_mem _ hm))
      hc.tail hz
    unfold walk
    rw [if_neg hx]
    simp only [Option.bind_eq_bind, hlink, hrest, Option.bind_some]

/-- **Read forwards, a ring is its list.** -/
theorem IsRing.forwards (hr : IsRing h hd xs) :
    (h.next hd).bind (walk h.next hd (xs.length + 1)) = some xs := by
  obtain ⟨y, hy⟩ := Option.isSome_iff_exists.mp (Heap.next_isSome.trans (hr.isSome List.mem_cons_self))
  rw [hy, Option.bind_some]
  exact walk_chain (Nat.lt_succ_self _) hr.head_not_mem hr.onward (hr.first hy)

/-- **Read backwards, it is the reverse.** -/
theorem IsRing.backwards (hr : IsRing h hd xs) :
    (h.prev hd).bind (walk h.prev hd (xs.length + 1)) = some xs.reverse := by
  have hback : (hd :: (xs.reverse ++ [hd])).IsChain fun a b => h.prev a = some b := by
    have hc : ((hd :: xs ++ [hd]).reverse).IsChain fun a b => h.prev a = some b :=
      List.isChain_reverse.mpr (hr.2.imp fun _ _ hl => hl.2)
    simpa using hc
  obtain ⟨y, hy⟩ := exists_first xs.reverse hd
  have hprev := chain_first hback hy
  rw [hprev, Option.bind_some]
  refine walk_chain ?_ (fun hm => hr.head_not_mem (List.mem_reverse.mp hm)) hback.tail hy
  rw [List.length_reverse]
  exact Nat.lt_succ_self _

end Ring
