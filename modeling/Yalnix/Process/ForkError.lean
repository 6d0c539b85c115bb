import Yalnix.Process.Pages

/-!
# Forks and thread creations that fail

With free frames, `spawn` fails for want of a process number or of kernel heap.  If the heap gives
out after the descriptor has been made, the descriptor and its two frames stay behind.

* `forkProcess_error`, `createThread_error` — nothing has changed, or a descriptor has been made.
* `described_spec` — what that descriptor does to the references.
-/

set_option autoImplicit false

namespace Yalnix

open RefCount (refs)

variable {k k' k₁ : Kernel} {l : List Nat} {f f₀ f₁ p q n i : Nat} {leak : Nat → Nat}

/-- With two free frames, making a descriptor fails only before it has changed anything. -/
theorem createProcessDescriptor_cases {m : Bool} {c : Option PID}
    (hc : Counted k (slots k.max_pid) leak (f₀ :: f₁ :: l))
    (h : createProcessDescriptor m k = (c, k')) : c = none ∧ k' = k ∨
      (m = true ∧ (k.max_pid : Int) < LONG_MAX ∧ c = some (k.max_pid + 1)) := by
  cases m with
  | false =>
    have hnone : createProcessDescriptor false k = (none, k) := rfl
    rw [hnone] at h
    cases h
    exact .inl ⟨rfl, rfl⟩
  | true =>
    by_cases hpid : (k.max_pid : Int) < LONG_MAX
    · obtain ⟨k₂, hdesc, -⟩ := createProcessDescriptor_spec rfl hc hpid
      rw [hdesc] at h
      cases h
      exact .inr ⟨rfl, hpid, rfl⟩
    · have hnone : createProcessDescriptor true k = (none, k) := by
        unfold createProcessDescriptor
        rw [nextAvailablePID_none hpid]
        simp
      rw [hnone] at h
      cases h
      exact .inl ⟨rfl, rfl⟩

/-- A `spawn` that fails has changed nothing, or made a descriptor. -/
theorem spawn_none {m₁ m₂ : Bool} (hc : Counted k (slots k.max_pid) leak (f₀ :: f₁ :: l))
    (h : spawn m₁ m₂ p k = .ok (none, k')) :
    k' = k ∨ ((k.max_pid : Int) < LONG_MAX ∧
      createProcessDescriptor true k = (some (k.max_pid + 1), k')) := by
  unfold spawn at h
  split at h
  · simp only [Except.ok.injEq, Prod.mk.injEq, true_and] at h
    exact .inl h.symm
  · cases hd : createProcessDescriptor m₁ k with
    | mk c k₂ =>
      rw [hd] at h
      rcases createProcessDescriptor_cases hc hd with ⟨rfl, rfl⟩ | ⟨rfl, hpid, rfl⟩
      · simp only [Except.ok.injEq, Prod.mk.injEq, true_and] at h
        exact .inl h.symm
      · cases m₂ with
        | false =>
          simp only [createPageTable, Bool.not_false, if_true, Except.ok.injEq, Prod.mk.injEq,
            true_and] at h
          subst h
          exact .inr ⟨hpid, hd⟩
        | true =>
          simp only [createPageTable, Bool.not_true, Bool.false_eq_true, if_false, SUCCESS, ERROR,
            show ¬ (0 : Int) = -1 by omega, bind, Except.bind] at h
          split at h
          · cases h
          · simp at h

theorem forkProcess_error {m₁ m₂ : Bool} (hc : Counted k (slots k.max_pid) leak (f₀ :: f₁ :: l))
    (h : forkProcess m₁ m₂ p k = .ok (ERROR, k')) :
    k' = k ∨ ((k.max_pid : Int) < LONG_MAX ∧
      createProcessDescriptor true k = (some (k.max_pid + 1), k')) := by
  unfold forkProcess at h
  cases hs : spawn m₁ m₂ p k with
  | error e =>
    rw [hs] at h
    cases h
  | ok s =>
    obtain ⟨c, k₁⟩ := s
    cases c with
    | some c =>
      -- a child has been made, and its number is returned
      simp only [hs, bind, Except.bind] at h
      split at h
      · cases h
      · split at h
        · cases h
        · simp only [Except.ok.injEq, Prod.mk.injEq, ERROR] at h
          omega
    | none =>
      simp only [hs, bind, Except.bind, Except.ok.injEq, Prod.mk.injEq, true_and] at h
      subst h
      exact spawn_none hc hs

theorem createThread_error {m₁ m₂ : Bool} (hc : Counted k (slots k.max_pid) leak (f₀ :: f₁ :: l))
    (h : createThread m₁ m₂ p k = .ok (ERROR, k')) :
    k' = k ∨ ((k.max_pid : Int) < LONG_MAX ∧
      createProcessDescriptor true k = (some (k.max_pid + 1), k')) := by
  unfold createThread at h
  cases hs : spawn m₁ m₂ p k with
  | error e =>
    rw [hs] at h
    cases h
  | ok s =>
    obtain ⟨c, k₁⟩ := s
    cases c with
    | some c =>
      simp only [hs, bind, Except.bind] at h
      split at h
      · cases h
      · simp only [Except.ok.injEq, Prod.mk.injEq, ERROR] at h
        omega
    | none =>
      simp only [hs, bind, Except.bind, Except.ok.injEq, Prod.mk.injEq, true_and] at h
      subst h
      exact spawn_none hc hs

/-- The two frames a fork needs at least. -/
theorem EnoughFrames.two (h : EnoughFrames k p) (hl : FreeList k l) :
    ∃ f₀ f₁ l₁, l = f₀ :: f₁ :: l₁ := by
  obtain ⟨l', hl', hlen⟩ := h
  obtain rfl := hl.unique hl'
  match l, hlen with
  | [], hlen => simp at hlen
  | [_], hlen =>
    simp only [List.length_cons, List.length_nil] at hlen
    omega
  | f₀ :: f₁ :: l, _ => exact ⟨f₀, f₁, l, rfl⟩

/-- The slots of the kernel stack of `p`. -/
theorem mapping_pcb (hp : p ≠ 0) (hpcb : (k.proc p).pcb = true) {j : Nat}
    (hf : (k.proc p).pcb_frames j = pageAtIndex f) : mapping k (p, 128 + j) = some f := by
  unfold mapping
  simp [hp, hpcb, hf]

/-- The outcome of a spawn that leaves a descriptor behind. -/
structure Described (k k' : Kernel) (n : Nat) (f₀ f₁ : Nat) (l : List Nat) : Prop where
  max_pid : k'.max_pid = n + 1
  only : Only (n + 1) k k' (f₁ :: l)
  proc : k'.proc (n + 1) = describedProcess f₀ f₁
  mapping_old : ∀ x ∈ slots n, mapping k' x = mapping k x
  /-- The new slots refer to the two frames only. -/
  mapping_new : ∀ x ∈ slots (n + 1), x ∉ slots n → ∀ f, mapping k' x = some f →
    128 ≤ x.2 ∧ f ∈ f₀ :: f₁ :: l
  used : ∀ f, f ∉ f₀ :: f₁ :: l →
    refs (slots (n + 1)) (mapping k') f = refs (slots n) (mapping k) f
  fresh : ∀ f ∈ f₀ :: f₁ :: l, refs (slots (n + 1)) (mapping k') f ≤ 1

/-- **A new descriptor without a page table takes two frames and changes no page.** -/
theorem described_spec (hc : Counted k (slots n) leak (f₀ :: f₁ :: l)) (hn : k.max_pid = n)
    (hpid : (n : Int) < LONG_MAX) (hrun : createProcessDescriptor true k = (some (n + 1), k')) :
    Counted k' (slots (n + 1)) leak l ∧ Described k k' n f₀ f₁ l := by
  obtain ⟨k₁, hrun', hcounted, honly, hmax, hproc, -⟩ := createProcessDescriptor_spec hn hc hpid
  rw [hrun] at hrun'
  cases hrun'
  have htable : ∀ i, k'.table (n + 1) i = PTE.clear := by
    intro i
    unfold Kernel.table
    rw [hproc]
    rfl
  have hnew : ∀ j < 128, mapping k' (n + 1, j) = none := by
    intro j hj
    rw [mapping_table (by omega) hj, htable, frame_clear]
  have hpcb : ∀ j f, 128 ≤ j → j < 130 → mapping k' (n + 1, j) = some f →
      f = f₀ ∧ j = 128 ∨ f = f₁ ∧ j = 129 := by
    intro j f hj hj' hm
    have h01 : j = 128 ∨ j = 129 := by omega
    rcases h01 with rfl | rfl
    · rw [mapping_pcb (j := 0) (f := f₀) (by omega) (by rw [hproc]; rfl)
        (by rw [hproc]; simp [describedProcess])] at hm
      exact .inl ⟨(Option.some.inj hm).symm, rfl⟩
    · rw [mapping_pcb (j := 1) (f := f₁) (by omega) (by rw [hproc]; rfl)
        (by rw [hproc]; simp [describedProcess])] at hm
      exact .inr ⟨(Option.some.inj hm).symm, rfl⟩
  have hold : ∀ x ∈ slots n, mapping k' x = mapping k x := by
    intro x hx
    have := (mem_slots.mp hx).1
    exact honly.mapping (by omega)
  have hsub : slots n ⊆ slots (n + 1) := by
    intro x hx
    rw [mem_slots] at hx ⊢
    omega
  have hslot : ∀ x ∈ slots (n + 1), x ∉ slots n → ∀ f, mapping k' x = some f →
      x.1 = n + 1 ∧ 128 ≤ x.2 ∧ x.2 < 130 ∧ f ∈ f₀ :: f₁ :: l := by
    rintro ⟨q, j⟩ hx hx' f hm
    rw [mem_slots] at hx hx'
    obtain rfl : q = n + 1 := by simp only at hx hx'; omega
    have hj : 128 ≤ j := by
      by_contra hj
      rw [hnew j (by omega)] at hm
      cases hm
    refine ⟨rfl, hj, hx.2, ?_⟩
    rcases hpcb j f hj hx.2 hm with ⟨rfl, -⟩ | ⟨rfl, -⟩
    · simp
    · simp
  refine ⟨?_, hmax, honly, hproc, hold, fun x hx hx' f hm => ?_, fun f hf => ?_, fun f hf => ?_⟩
  · have hall : insert (n + 1, 129) (insert (n + 1, 128) (slots n)) ∪ block (n + 1) 0 128 =
        slots (n + 1) := by
      ext ⟨q, j⟩
      simp only [Finset.mem_union, Finset.mem_insert, Prod.mk.injEq, mem_slots, mem_block]
      omega
    rw [← hall]
    apply hcounted.extend_block
    rintro ⟨q, j⟩ hx
    obtain ⟨rfl, -, hj⟩ := mem_block.mp hx
    exact hnew j hj
  · obtain ⟨-, h128, -, hf⟩ := hslot x hx hx' f hm
    exact ⟨h128, hf⟩
  · rw [RefCount.refs_eq_of_subset hsub, RefCount.refs_congr hold]
    intro x hx hx' hm
    exact hf (hslot x hx hx' f hm).2.2.2
  · have hall : ∀ x ∈ slots (n + 1), mapping k' x = some f → x.1 = n + 1 ∧ 128 ≤ x.2 ∧ x.2 < 130 := by
      intro x hx hm
      have hnot : x ∉ slots n := by
        intro hq
        rw [hold _ hq] at hm
        exact hc.not_free hq hm hf
      obtain ⟨h1, h128, h130, -⟩ := hslot x hx hnot f hm
      exact ⟨h1, h128, h130⟩
    have hne : f₀ ≠ f₁ := fun he => (List.nodup_cons.mp hc.list.nodup).1 (he ▸ List.mem_cons_self)
    apply Finset.card_le_one.mpr
    rintro ⟨q, j⟩ hx ⟨q', j'⟩ hy
    obtain ⟨hx, hmx⟩ := Finset.mem_filter.mp hx
    obtain ⟨hy, hmy⟩ := Finset.mem_filter.mp hy
    obtain ⟨rfl, hj, hj1⟩ := hall _ hx hmx
    obtain ⟨rfl, hj', hj1'⟩ := hall _ hy hmy
    rcases hpcb j f hj hj1 hmx with ⟨he, rfl⟩ | ⟨he, rfl⟩
    · rcases hpcb j' f hj' hj1' hmy with ⟨-, rfl⟩ | ⟨he', -⟩
      · rfl
      · exact absurd (he.symm.trans he') hne
    · rcases hpcb j' f hj' hj1' hmy with ⟨he', -⟩ | ⟨-, rfl⟩
      · exact absurd (he'.symm.trans he) hne
      · rfl

/-- No page of the processes there are has changed. -/
theorem Described.pageOf (h : Described k k' n f₀ f₁ l) (hc : Counted k (slots n) leak (f₀ :: f₁ :: l))
    (hq : 0 < q ∧ q ≤ n) (hi : i < 128) : pageOf k' q i = Yalnix.pageOf k q i := by
  apply pageOf_congr
  · rw [h.only.table_ne (by omega)]
  · intro f hf
    exact h.only.pmem f fun hm => hc.entry_not_free hq hi hf (List.mem_cons_of_mem _ hm)

end Yalnix
