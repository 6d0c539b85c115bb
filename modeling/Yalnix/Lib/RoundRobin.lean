import Mathlib.Data.List.Rotate
import Mathlib.Data.List.Chain

/-!
# Round robin

Elements of a cycle take turns: from `a`, the next one is the first after `a` that is ready, and `a`
itself comes last.

* `turn`, `pick` — one turn of the cycle, and who is picked in it.
* `pick_isSome` — somebody is picked if somebody is ready.
* `distance_lt` — each choice that passes over nobody brings the cycle nearer to one that is ready.
* `fair` — one that stays ready is picked before any other is picked twice.
* `Evolves`, `Evolves.distance_le` — a cycle that changes brings nobody farther away than by those who
  have come.
-/

set_option autoImplicit false

namespace RoundRobin

variable {α : Type*} [DecidableEq α] {l l' u v cs : List α} {a b c : α} {p : α → Bool}

/-- One turn of the cycle `l`: from what follows `a` to `a`. -/
def turn (l : List α) (a : α) : List α := l.rotate (l.idxOf a + 1)

/-- The first in the turn of `a` that is ready. -/
def pick (p : α → Bool) (l : List α) (a : α) : Option α := (turn l a).find? p

/-- How many are passed over on the way from `a` to `b`. -/
def distance (l : List α) (a b : α) : Nat := (turn l a).idxOf b

/-! ## Turns -/

omit [DecidableEq α] in
theorem not_mem_before (hl : (u ++ a :: v).Nodup) : a ∉ u := fun hm =>
  (List.nodup_append.mp hl).2.2 a hm a List.mem_cons_self rfl

theorem turn_split (ha : a ∉ u) : turn (u ++ a :: v) a = v ++ u ++ [a] := by
  have hidx : (u ++ a :: v).idxOf a + 1 = (u ++ [a]).length := by
    rw [List.idxOf_append_of_notMem ha, List.idxOf_cons_self]
    simp
  have hcut : u ++ a :: v = (u ++ [a]) ++ v := by simp
  unfold turn
  rw [hidx, hcut, List.rotate_append_length_eq, List.append_assoc]

theorem mem_turn : b ∈ turn l a ↔ b ∈ l := List.mem_rotate

theorem turn_nodup (hl : l.Nodup) : (turn l a).Nodup := List.nodup_rotate.mpr hl

/-- The turn of `c` is the same, wherever the cycle is cut. -/
theorem turn_turn (hl : l.Nodup) (ha : a ∈ l) (hc : c ∈ l) : turn (turn l a) c = turn l c := by
  obtain ⟨u, v, rfl⟩ := List.append_of_mem ha
  have hau := not_mem_before hl
  rw [turn_split hau]
  have hturned : (v ++ u ++ [a]).Nodup := by
    rw [← turn_split hau]
    exact turn_nodup hl
  rcases List.mem_append.mp hc with hc | hc
  · obtain ⟨u₁, u₂, rfl⟩ := List.append_of_mem hc
    have hcut : u₁ ++ c :: u₂ ++ a :: v = u₁ ++ c :: (u₂ ++ a :: v) := by simp
    have hcut' : v ++ (u₁ ++ c :: u₂) ++ [a] = (v ++ u₁) ++ c :: (u₂ ++ [a]) := by simp
    rw [hcut] at hl ⊢
    rw [hcut'] at hturned ⊢
    rw [turn_split (not_mem_before hl), turn_split (not_mem_before hturned)]
    simp
  · rcases List.mem_cons.mp hc with rfl | hc
    · rw [turn_split hau, turn_split (not_mem_before hturned)]
      simp
    · obtain ⟨v₁, v₂, rfl⟩ := List.append_of_mem hc
      have hcut : u ++ a :: (v₁ ++ c :: v₂) = (u ++ a :: v₁) ++ c :: v₂ := by simp
      have hcut' : v₁ ++ c :: v₂ ++ u ++ [a] = v₁ ++ c :: (v₂ ++ u ++ [a]) := by simp
      rw [hcut] at hl ⊢
      rw [hcut'] at hturned ⊢
      rw [turn_split (not_mem_before hl), turn_split (not_mem_before hturned)]
      simp

/-! ## Choices -/

theorem pick_mem (h : pick p l a = some c) : c ∈ l := mem_turn.mp (List.mem_of_find?_eq_some h)

theorem pick_ready (h : pick p l a = some c) : p c = true := List.find?_some h

theorem pick_isSome : (pick p l a).isSome ↔ ∃ b ∈ l, p b = true := by
  unfold pick
  rw [List.find?_isSome]
  constructor
  · rintro ⟨b, hb, hp⟩
    exact ⟨b, mem_turn.mp hb, hp⟩
  · rintro ⟨b, hb, hp⟩
    exact ⟨b, mem_turn.mpr hb, hp⟩

/-- Those before the one that is picked are not ready. -/
theorem pick_split (h : pick p l a = some c) :
    ∃ xs ys, turn l a = xs ++ c :: ys ∧ ∀ x ∈ xs, p x = false := by
  obtain ⟨-, xs, ys, hsplit, hxs⟩ := List.find?_eq_some_iff_append.mp h
  refine ⟨xs, ys, hsplit, fun x hx => ?_⟩
  simpa using hxs x hx

/-- `a` is picked again only if nobody else is ready. -/
theorem pick_self (hl : l.Nodup) (ha : a ∈ l) (h : pick p l a = some a) :
    ∀ b ∈ l, p b = true → b = a := by
  obtain ⟨u, v, rfl⟩ := List.append_of_mem ha
  have hau := not_mem_before hl
  obtain ⟨xs, ys, hsplit, hxs⟩ := pick_split h
  have hnodup := turn_nodup (a := a) hl
  rw [turn_split hau] at hsplit hnodup
  have hlast := not_mem_before hnodup
  -- `a` is the last of its turn, so that all others are passed over
  have hxs' : xs = v ++ u := by
    rcases List.append_eq_append_iff.mp hsplit with ⟨w, rfl, hw⟩ | ⟨w, hw, hw'⟩
    · cases w with
      | nil => simp
      | cons x w =>
        rw [List.cons_append, List.cons.injEq] at hw
        exact absurd hw.2 (by simp)
    · cases w with
      | nil => simpa using hw.symm
      | cons x w =>
        rw [List.cons_append, List.cons.injEq] at hw'
        obtain ⟨rfl, -⟩ := hw'
        exact absurd (hw ▸ List.mem_append_right xs List.mem_cons_self) hlast
  intro b hb hp
  by_contra hne
  have hm : b ∈ xs := by
    rw [hxs']
    simp only [List.mem_append, List.mem_cons] at hb ⊢
    tauto
  rw [hxs b hm] at hp
  cases hp

/-- **A choice that is not `b`, although `b` is ready, brings the cycle nearer to `b`.** -/
theorem distance_lt (hl : l.Nodup) (ha : a ∈ l) (hb : b ∈ l) (hp : p b = true)
    (h : pick p l a = some c) (hne : c ≠ b) : distance l c b < distance l a b := by
  obtain ⟨xs, ys, hsplit, hxs⟩ := pick_split h
  have hnodup := turn_nodup (a := a) hl
  have hbx : b ∉ xs := fun hm => by
    rw [hxs b hm] at hp
    cases hp
  have hby : b ∈ ys := by
    have hm := mem_turn (a := a).mpr hb
    rw [hsplit, List.mem_append, List.mem_cons] at hm
    exact (hm.resolve_left hbx).resolve_left hne.symm
  have hcx : c ∉ xs := by
    rw [hsplit] at hnodup
    exact not_mem_before hnodup
  have hfrom : distance l c b = ys.idxOf b := by
    unfold distance
    rw [← turn_turn hl ha (pick_mem h), hsplit, turn_split hcx, List.append_assoc,
      List.idxOf_append_of_mem hby]
  have hto : distance l a b = xs.length + (ys.idxOf b + 1) := by
    unfold distance
    rw [hsplit, List.idxOf_append_of_notMem hbx, List.idxOf_cons_ne _ hne]
  omega

/-! ## Fairness -/

/-- `c` is picked after `a`, while `b` is ready. -/
def Picks (l : List α) (b a c : α) : Prop := ∃ p : α → Bool, p b = true ∧ pick p l a = some c

/-- Until `b` is picked, every choice is nearer to it than all before. -/
theorem nearer (hl : l.Nodup) (hb : b ∈ l) : ∀ {cs : List α} {a : α}, a ∈ l →
    (a :: cs).IsChain (Picks l b) → b ∉ cs →
      cs.Nodup ∧ ∀ c ∈ cs, distance l c b < distance l a b
  | [], _, _, _, _ => ⟨List.nodup_nil, by simp⟩
  | c :: cs, a, ha, hchain, hnot => by
    obtain ⟨⟨p, hp, hpick⟩, hrest⟩ := List.isChain_cons_cons.mp hchain
    obtain ⟨hcb, hcs⟩ := not_or.mp fun h => hnot (List.mem_cons.mpr h)
    have hstep := distance_lt hl ha hb hp hpick fun he => hcb he.symm
    obtain ⟨hnodup, hnear⟩ := nearer hl hb (pick_mem hpick) hrest hcs
    refine ⟨List.nodup_cons.mpr ⟨fun hm => lt_irrefl _ (hnear c hm), hnodup⟩, fun d hd => ?_⟩
    rcases List.mem_cons.mp hd with rfl | hd
    · exact hstep
    · exact (hnear d hd).trans hstep

/-- **One that stays ready is picked before any other is picked twice.** -/
theorem fair (hl : l.Nodup) (ha : a ∈ l) (hb : b ∈ l) (hchain : (a :: cs).IsChain (Picks l b))
    (hsplit : cs = u ++ v) (hnot : b ∉ u) : u.Nodup := by
  subst hsplit
  rw [← List.cons_append] at hchain
  exact (nearer hl hb ha hchain.left_of_append hnot).1

/-! ## Cycles that change -/

/-- In a longer list, an element comes no earlier, and no fewer come after it. -/
theorem idxOf_sublist (h : u.Sublist v) (hn : v.Nodup) (hb : b ∈ u) :
    u.idxOf b ≤ v.idxOf b ∧ v.idxOf b + u.length ≤ u.idxOf b + v.length := by
  induction h with
  | slnil => cases hb
  | @cons u v x h ih =>
    have hv := List.nodup_cons.mp hn
    have hne : x ≠ b := by
      rintro rfl
      exact hv.1 (h.subset hb)
    obtain ⟨h₁, h₂⟩ := ih hv.2 hb
    rw [List.idxOf_cons_ne _ hne, List.length_cons]
    omega
  | @cons_cons u v x h ih =>
    have hv := List.nodup_cons.mp hn
    rcases eq_or_ne x b with rfl | hne
    · have hlen := h.length_le
      rw [List.idxOf_cons_self, List.idxOf_cons_self, List.length_cons, List.length_cons]
      omega
    · obtain ⟨h₁, h₂⟩ := ih hv.2 ((List.mem_cons.mp hb).resolve_left hne.symm)
      rw [List.idxOf_cons_ne _ hne, List.idxOf_cons_ne _ hne, List.length_cons, List.length_cons]
      omega

/-- The turn of a part of the cycle is part of its turn. -/
theorem turn_sublist (h : u.Sublist v) (hn : v.Nodup) (ha : a ∈ u) :
    (turn u a).Sublist (turn v a) := by
  have hnu := h.nodup hn
  obtain ⟨u₁, u₂, rfl⟩ := List.append_of_mem ha
  obtain ⟨v₁, w, rfl, h₁, hw⟩ := List.append_sublist_iff.mp h
  obtain ⟨w₁, w₂, rfl, haw, h₂⟩ := List.cons_sublist_iff.mp hw
  obtain ⟨x, y, rfl⟩ := List.append_of_mem haw
  have hcut : v₁ ++ (x ++ a :: y ++ w₂) = (v₁ ++ x) ++ a :: (y ++ w₂) := by simp
  rw [hcut] at hn ⊢
  rw [turn_split (not_mem_before hnu), turn_split (not_mem_before hn)]
  have hafter : u₂.Sublist (y ++ w₂) := List.sublist_append_of_sublist_right h₂
  have hbefore : u₁.Sublist (v₁ ++ x) := List.sublist_append_of_sublist_left h₁
  exact (hafter.append hbefore).append (List.Sublist.refl _)

/-- The cycle has become `l'`: those who are still there are in the same order, and no more than
`born` have come. -/
structure Evolves (l l' : List α) (born : Nat) : Prop where
  part : ∃ kept : List α, kept.Sublist l ∧ kept.Sublist l' ∧ (∀ x ∈ l, x ∈ l' → x ∈ kept) ∧
    l'.length ≤ kept.length + born

omit [DecidableEq α] in
theorem Evolves.of_sublist (h : l'.Sublist l) (born : Nat) : Evolves l l' born :=
  ⟨l', h, List.Sublist.refl _, fun _ _ hx => hx, Nat.le_add_right _ _⟩

omit [DecidableEq α] in
theorem Evolves.of_grown (h : l.Sublist l') {born : Nat} (hlen : l'.length ≤ l.length + born) :
    Evolves l l' born :=
  ⟨l, List.Sublist.refl _, h, fun _ hx _ => hx, hlen⟩

/-- **One who stays is brought no farther away than by those who have come.** -/
theorem Evolves.distance_le {born : Nat} (h : Evolves l l' born) (hl : l.Nodup) (hl' : l'.Nodup)
    (ha : a ∈ l) (ha' : a ∈ l') (hb : b ∈ l) (hb' : b ∈ l') :
    distance l' a b ≤ distance l a b + born := by
  obtain ⟨kept, hk, hk', hstay, hlen⟩ := h.part
  have hak := hstay a ha ha'
  have hbk : b ∈ turn kept a := mem_turn.mpr (hstay b hb hb')
  have hold := (idxOf_sublist (turn_sublist hk hl hak) (turn_nodup hl) hbk).1
  have hnew := (idxOf_sublist (turn_sublist hk' hl' hak) (turn_nodup hl') hbk).2
  have hlength : ∀ m : List α, (turn m a).length = m.length := fun m => List.length_rotate _ _
  rw [hlength, hlength] at hnew
  unfold distance
  omega

end RoundRobin
