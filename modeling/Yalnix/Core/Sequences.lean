import Yalnix.Core.Rings

/-!
# Lists as sequences

The primitives of `core/list.h`, on a heap with any number of rings, are operations on sequences.

* `Becomes` — one ring has become another sequence, and the nodes of the others are untouched.
* `primitives_refine` — each primitive does to the sequence what its name says.
* `splice_iff` — `spliceLinkedLists` appends the second list exactly if it has at most one node.
-/

set_option autoImplicit false

namespace Yalnix

open Ring (Heap IsRing Linked Rings Outside isRing_nil walk)

variable {ν : Type} [DecidableEq ν] {h h' : Heap ν} {heads : ν → Prop} {f : ν → List ν}
  {a b c x node hd second first : ν} {u v l : List ν}

/-! ## One list changes -/

/-- The list of `a` holds `l`, in both directions; those of the other heads are as they were. -/
structure Becomes (h h' : Heap ν) (heads : ν → Prop) (f : ν → List ν) (a : ν) (l : List ν) : Prop where
  rings : Rings h' heads (Function.update f a l)
  forwards : (h'.next a).bind (walk h'.next a (l.length + 1)) = some l
  backwards : (h'.prev a).bind (walk h'.prev a (l.length + 1)) = some l.reverse
  others : ∀ b, heads b → b ≠ a → ∀ y ∈ b :: f b, h'.next y = h.next y ∧ h'.prev y = h.prev y

theorem Becomes.of_rings (hr : Rings h heads f) (ha : heads a)
    (hr' : Rings h' heads (Function.update f a l)) : Becomes h h' heads f a l := by
  have hring := hr'.ring a ha
  rw [Function.update_self] at hring
  refine ⟨hr', hring.forwards, hring.backwards, fun b hb hne y hy => ?_⟩
  have hb' := hr'.ring b hb
  rw [Function.update_of_ne hne] at hb'
  exact (hr.ring b hb).links hb' hy

/-! ## The primitives -/

/-- What the primitives do to the list of `a`; `x` is a node on no list. -/
structure SequenceOps (h : Heap ν) (heads : ν → Prop) (f : ν → List ν) (a : ν) : Prop where
  /-- The list is split behind `b`. -/
  insertNode : ∀ x b u v, (h x).isSome → Outside heads f x → f a = u ++ v → (a :: u).getLast? = some b →
    ∃ h', insertNode x b h = some h' ∧ Becomes h h' heads f a (u ++ x :: v)
  addFirstNode : ∀ x, (h x).isSome → Outside heads f x →
    ∃ h', addFirstNode x a h = some h' ∧ Becomes h h' heads f a (x :: f a)
  addLastNode : ∀ x, (h x).isSome → Outside heads f x →
    ∃ h', addLastNode x a h = some h' ∧ Becomes h h' heads f a (f a ++ [x])
  removeNode : ∀ x ∈ f a, ∃ h', removeNode x h = some h' ∧ Becomes h h' heads f a ((f a).erase x)
  removeFirstNode : ∀ hne : f a ≠ [],
    ∃ h', removeFirstNode a h = some ((f a).head hne, h') ∧ Becomes h h' heads f a (f a).tail
  removeLastNode : ∀ hne : f a ≠ [],
    ∃ h', removeLastNode a h = some ((f a).getLast hne, h') ∧ Becomes h h' heads f a (f a).dropLast

theorem insertNode_becomes (hr : Rings h heads f) (ha : heads a) (hx : (h x).isSome)
    (hout : Outside heads f x) (hf : f a = u ++ v) (hb : (a :: u).getLast? = some b) :
    ∃ h', insertNode x b h = some h' ∧ Becomes h h' heads f a (u ++ x :: v) := by
  obtain ⟨pre, hpre⟩ := List.getLast?_eq_some_iff.mp hb
  have hmem : b ∈ a :: f a := by
    rw [hf, ← List.cons_append, hpre]
    simp
  have hring := hr.ring a ha
  obtain ⟨c, hc⟩ := Option.isSome_iff_exists.mp (Heap.next_isSome.trans (hring.isSome hmem))
  obtain ⟨h', hrun⟩ := insertNode_isSome hx hc (hring.isSome (hring.next_mem hmem hc))
  exact ⟨h', hrun, .of_rings hr ha (Rings.insertNode hr ha hf hpre hout hrun)⟩

theorem removeNode_becomes (hr : Rings h heads f) (ha : heads a) (hf : f a = u ++ x :: v) :
    ∃ h', removeNode x h = some h' ∧ Becomes h h' heads f a (u ++ v) := by
  have hmem : x ∈ a :: f a := by
    rw [hf]
    simp
  obtain ⟨h', hrun⟩ := IsRing.removeNode_isSome (hr.ring a ha) hmem
  exact ⟨h', hrun, .of_rings hr ha (Rings.removeNode hr ha hf hrun)⟩

theorem addLastNode_becomes (hr : Rings h heads f) (ha : heads a) (hx : (h x).isSome)
    (hout : Outside heads f x) : ∃ h', addLastNode x a h = some h' ∧ Becomes h h' heads f a (f a ++ [x]) := by
  have hring := hr.ring a ha
  obtain ⟨b, hb⟩ := Option.isSome_iff_exists.mp (Heap.prev_isSome.trans (hring.isSome List.mem_cons_self))
  obtain ⟨pre, hpre⟩ := hring.prev_last hb
  obtain ⟨h', hrun, hbecomes⟩ := insertNode_becomes hr ha hx hout (List.append_nil _).symm
    (List.getLast?_eq_some_iff.mpr ⟨pre, hpre⟩)
  refine ⟨h', ?_, hbecomes⟩
  unfold addLastNode
  rw [hb]
  exact hrun

theorem removeFirstNode_becomes (hr : Rings h heads f) (ha : heads a) (hf : f a = x :: v) :
    ∃ h', removeFirstNode a h = some (x, h') ∧ Becomes h h' heads f a v := by
  obtain ⟨h', hrun, hbecomes⟩ := removeNode_becomes (u := []) hr ha hf
  have hnext := hr.ring a ha
  rw [hf] at hnext
  refine ⟨h', ?_, hbecomes⟩
  unfold removeFirstNode
  simp only [Option.bind_eq_bind, hnext.next_head, Option.bind_some, hrun]

theorem removeLastNode_becomes (hr : Rings h heads f) (ha : heads a) (hf : f a = u ++ [x]) :
    ∃ h', removeLastNode a h = some (x, h') ∧ Becomes h h' heads f a u := by
  obtain ⟨h', hrun, hbecomes⟩ := removeNode_becomes (v := []) hr ha hf
  rw [List.append_nil] at hbecomes
  have hprev := hr.ring a ha
  rw [hf] at hprev
  refine ⟨h', ?_, hbecomes⟩
  unfold removeLastNode
  simp only [Option.bind_eq_bind, hprev.prev_head, Option.bind_some, hrun]

/-- **On a heap with any number of disjoint rings the primitives are operations on sequences.** -/
theorem primitives_refine (hr : Rings h heads f) (ha : heads a) : SequenceOps h heads f a := by
  refine ⟨fun x b u v hx hout hf hb => insertNode_becomes hr ha hx hout hf hb, fun x hx hout => ?_,
    fun x hx hout => addLastNode_becomes hr ha hx hout, fun x hx => ?_, fun hne => ?_, fun hne => ?_⟩
  · exact insertNode_becomes (u := []) hr ha hx hout rfl rfl
  · obtain ⟨u, v, hf⟩ := List.append_of_mem hx
    have hnodup := (hr.ring a ha).nodup
    rw [hf] at hnodup
    have hu : x ∉ u := fun hm => (List.nodup_append.mp hnodup).2.2 x hm x List.mem_cons_self rfl
    rw [hf, List.erase_append_right _ hu, List.erase_cons_head]
    exact removeNode_becomes hr ha hf
  · exact removeFirstNode_becomes hr ha (List.cons_head_tail hne).symm
  · exact removeLastNode_becomes hr ha (List.dropLast_append_getLast hne).symm

/-- Two lists, of two nodes and of one; node 5 is on none. -/
def twoLists : Heap (Fin 6) := fun i => [some ⟨1, 2⟩, some ⟨2, 0⟩, some ⟨0, 1⟩, some ⟨4, 4⟩, some ⟨3, 3⟩,
  some ⟨5, 5⟩][i.val]?.join

/-- What is on them. -/
def twoLists_nodes (i : Fin 6) : List (Fin 6) := if i = 0 then [1, 2] else if i = 3 then [4] else []

theorem twoLists_rings : Rings twoLists (fun i => i = 0 ∨ i = 3) twoLists_nodes := by
  constructor
  · decide
  · decide

theorem twoLists_refine : SequenceOps twoLists (fun i => i = 0 ∨ i = 3) twoLists_nodes 0 :=
  primitives_refine twoLists_rings (.inl rfl)

/-! ## Splicing -/

/-- The second list has been appended to the first; its head is part of no list any more. -/
structure Spliced (h h' : Heap ν) (heads : ν → Prop) (f : ν → List ν) (second first : ν) : Prop where
  rings : Rings h' (fun a => heads a ∧ a ≠ second) (Function.update f first (f first ++ f second))
  forwards : (h'.next first).bind (walk h'.next first ((f first ++ f second).length + 1)) =
    some (f first ++ f second)
  backwards : (h'.prev first).bind (walk h'.prev first ((f first ++ f second).length + 1)) =
    some (f first ++ f second).reverse
  others : ∀ b, heads b → b ≠ second → b ≠ first → ∀ y ∈ b :: f b,
    h'.next y = h.next y ∧ h'.prev y = h.prev y

omit [DecidableEq ν] in
/-- The ends of a list that is not empty, and of the one it is spliced into. -/
theorem Rings.ends (hr : Rings h heads f) (hfirst : heads first) (hsecond : heads second)
    (hne : second ≠ first) (hf : f second ≠ []) : ∃ c ck last, (f second).head? = some c ∧
      (f second).getLast? = some ck ∧ (first :: f first).getLast? = some last ∧ h.next second = some c ∧
      h.prev second = some ck ∧ h.prev first = some last ∧ c ≠ second ∧ ck ≠ second ∧ last ≠ second ∧
      first ≠ c := by
  have hring := hr.ring second hsecond
  obtain ⟨last, hlast⟩ :=
    Option.isSome_iff_exists.mp (Heap.prev_isSome.trans ((hr.ring first hfirst).isSome List.mem_cons_self))
  obtain ⟨pre, hpre⟩ := (hr.ring first hfirst).prev_last hlast
  have hlastmem : last ∈ first :: f first := (hr.ring first hfirst).prev_mem List.mem_cons_self hlast
  obtain ⟨c, v, hv⟩ := List.exists_cons_of_ne_nil hf
  obtain ⟨u, ck, hu⟩ := (List.eq_nil_or_concat' (f second)).resolve_left hf
  have hc : c ∈ f second := by
    rw [hv]
    exact List.mem_cons_self
  have hck : ck ∈ f second := by
    rw [hu]
    simp
  have hnext : h.next second = some c := by
    rw [hv] at hring
    exact hring.next_head
  have hprev : h.prev second = some ck := by
    have hring' := hr.ring second hsecond
    rw [hu] at hring'
    exact hring'.prev_head
  refine ⟨c, ck, last, ?_, ?_, ?_, hnext, hprev, hlast, ?_, ?_, ?_, ?_⟩
  · rw [hv]
    rfl
  · rw [hu, List.getLast?_concat]
  · rw [hpre, List.getLast?_concat]
  · exact fun he => hring.head_not_mem (he ▸ hc)
  · exact fun he => hring.head_not_mem (he ▸ hck)
  · exact fun he => hr.not_mem hfirst hsecond hne List.mem_cons_self (he ▸ hlastmem)
  · rintro rfl
    exact hne (hr.apart second first first hsecond hfirst (List.mem_cons_of_mem _ hc) List.mem_cons_self)

theorem Spliced.of_rings (hr : Rings h heads f) (hfirst : heads first) (hne : second ≠ first)
    (hr' : Rings h' (fun a => heads a ∧ a ≠ second) (Function.update f first (f first ++ f second))) :
    Spliced h h' heads f second first := by
  have hring := hr'.ring first ⟨hfirst, hne.symm⟩
  rw [Function.update_self] at hring
  refine ⟨hr', hring.forwards, hring.backwards, fun b hb hbs hbf y hy => ?_⟩
  have hb' := hr'.ring b ⟨hb, hbs⟩
  rw [Function.update_of_ne hbf] at hb'
  exact (hr.ring b hb).links hb' hy

/-- The last node of the first list is linked to the last one of the second. -/
theorem Spliced.ends_meet (hr : Rings h heads f) (hfirst : heads first) (hsecond : heads second)
    (hne : second ≠ first) (hf : f second ≠ []) (hrun : spliceLinkedLists second first h = some h')
    (hs : Spliced h h' heads f second first) : (f second).head? = (f second).getLast? := by
  obtain ⟨c, ck, last, hc, hck, hl, hnext, hprev, hlast, hcs, hcks, hls, hfc⟩ :=
    Rings.ends hr hfirst hsecond hne hf
  obtain ⟨hn, -, -⟩ := spliceLinkedLists_some hnext hprev hlast hcs hcks hls hfc hrun
  have hring := hs.rings.ring first ⟨hfirst, hne.symm⟩
  rw [Function.update_self] at hring
  obtain ⟨pre, hpre⟩ := List.getLast?_eq_some_iff.mp hl
  obtain ⟨v, hv⟩ := List.head?_eq_some_iff.mp hc
  have hlinked : Linked h' last c := by
    refine hring.linked pre (v ++ [first]) ?_
    rw [← List.cons_append, hpre, hv]
    simp
  have hmeet := hlinked.1
  rw [hn, Function.update_self] at hmeet
  rw [hc, hck, hmeet]

/-- **A splice appends the second list exactly if it has at most one node.** -/
theorem splice_iff (hr : Rings h heads f) (hfirst : heads first) (hsecond : heads second)
    (hne : second ≠ first) :
    (∃ h', spliceLinkedLists second first h = some h' ∧ Spliced h h' heads f second first) ↔
      (f second).length ≤ 1 := by
  constructor
  · rintro ⟨h', hrun, hs⟩
    by_contra hlong
    have hf : f second ≠ [] := by
      intro hnil
      rw [hnil] at hlong
      exact hlong (Nat.zero_le _)
    have hmeet := hs.ends_meet hr hfirst hsecond hne hf hrun
    have hnodup := (hr.ring second hsecond).nodup
    match hl : f second, hlong, hmeet, hnodup with
    | [], _, _, _ => exact hf hl
    | [c], hlong, _, _ => exact hlong (Nat.le_refl _)
    | c :: d :: v, _, hmeet, hnodup =>
      rw [List.head?_cons, List.getLast?_cons_cons] at hmeet
      exact (List.nodup_cons.mp hnodup).1 (List.mem_of_getLast? hmeet.symm)
  · intro hshort
    match hl : f second, hshort with
    | [], _ =>
      have hring := hr.ring second hsecond
      rw [hl] at hring
      refine ⟨h, spliceLinkedLists_empty (isRing_nil.mp hring).1, .of_rings hr hfirst hne ?_⟩
      rw [hl, List.append_nil, Function.update_eq_self]
      exact hr.mono fun a ha => ha.1
    | [c], _ =>
      have hf : f second ≠ [] := by
        rw [hl]
        exact List.cons_ne_nil _ _
      obtain ⟨d, dk, last, hd, hdk, -, hnext, hprev, hlast, hds, hdks, hls, hfd⟩ :=
        Rings.ends hr hfirst hsecond hne hf
      have hring := hr.ring second hsecond
      obtain ⟨h', hrun⟩ := spliceLinkedLists_isSome hnext hprev hlast hds hdks hls hfd
        (hring.isSome (hring.next_mem List.mem_cons_self hnext))
        (hring.isSome (hring.prev_mem List.mem_cons_self hprev))
        ((hr.ring first hfirst).isSome ((hr.ring first hfirst).prev_mem List.mem_cons_self hlast))
      refine ⟨h', hrun, .of_rings hr hfirst hne ?_⟩
      rw [hl]
      exact (Rings.spliceOne hr hfirst hsecond hne hl hrun).1

/-- A list of one node is appended. -/
theorem twoLists_splice : ∃ h', spliceLinkedLists 3 0 twoLists = some h' ∧
    Spliced twoLists h' (fun i => i = 0 ∨ i = 3) twoLists_nodes 3 0 :=
  (splice_iff twoLists_rings (.inl rfl) (.inr rfl) (by decide)).mpr (by decide)

theorem splice_isSome : (spliceLinkedLists (0 : Fin 6) 3 twoLists).isSome := by
  decide

/-- **Of a list of two nodes only the last comes up forwards, and only the first backwards.** -/
theorem splice_loses_node : ∃ h', spliceLinkedLists 0 3 twoLists = some h' ∧
    (h'.next 3).bind (walk h'.next 3 4) = some [4, 2] ∧ (h'.prev 3).bind (walk h'.prev 3 4) = some [1, 4] ∧
    ¬ Spliced twoLists h' (fun i => i = 0 ∨ i = 3) twoLists_nodes 0 3 := by
  refine ⟨_, (Option.some_get splice_isSome).symm, ?_, ?_, fun hs => ?_⟩
  · decide
  · decide
  · exact absurd hs.forwards (by decide)

end Yalnix
