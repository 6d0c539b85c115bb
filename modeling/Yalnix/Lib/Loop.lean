import Mathlib.Data.List.Pairwise
import Mathlib.Tactic.TypeStar

/-!
# Counting loops

`forRange lo hi body s` runs `body lo`, `body (lo + 1)`, …, `body (hi - 1)` in order on a
signed counter and stops at the first failure; for `hi ≤ lo` it does nothing.

* `forRange_ok` — an invariant under which every iteration succeeds: the loop succeeds.
* `forRange_inv` — an invariant kept by every successful iteration: it holds at the end of
  every successful loop.
* `forRange_map` — a change of the state that every iteration passes on.
* `history_inv` — the same invariant at the beginning of every iteration the loop makes.
* `history_complete`, `history_failed` — a loop that succeeds goes through every counter once, one
  that fails does so in one of its iterations.
-/

set_option autoImplicit false

namespace Loop

variable {ε σ : Type*}

/-- `n` iterations starting at `i`. -/
def iterate (body : Int → σ → Except ε σ) : Nat → Int → σ → Except ε σ
  | 0, _, s => .ok s
  | n + 1, i, s =>
    match body i s with
    | .error e => .error e
    | .ok s' => iterate body n (i + 1) s'

/-- `for (i = lo; i < hi; i++) body(i)`. -/
def forRange (lo hi : Int) (body : Int → σ → Except ε σ) (s : σ) : Except ε σ :=
  iterate body (hi - lo).toNat lo s

theorem forRange_empty {lo hi : Int} {body : Int → σ → Except ε σ} {s : σ} (h : hi ≤ lo) :
    forRange lo hi body s = .ok s := by
  unfold forRange
  rw [show (hi - lo).toNat = 0 by omega]
  rfl

theorem iterate_ok {P : Int → σ → Prop} {body : Int → σ → Except ε σ} :
    ∀ (n : Nat) (i : Int) (s : σ), P i s →
      (∀ j s, i ≤ j → j < i + n → P j s → ∃ s', body j s = .ok s' ∧ P (j + 1) s') →
      ∃ s', iterate body n i s = .ok s' ∧ P (i + n) s'
  | 0, i, s, hP, _ => ⟨s, rfl, by simpa using hP⟩
  | n + 1, i, s, hP, hbody => by
    obtain ⟨s₁, h₁, hP₁⟩ := hbody i s (by omega) (by omega) hP
    obtain ⟨s₂, h₂, hP₂⟩ := iterate_ok n (i + 1) s₁ hP₁
      fun j s hj hj' => hbody j s (by omega) (by omega)
    exact ⟨s₂, by simp [iterate, h₁, h₂], by rw [show i + (n + 1 : Nat) = i + 1 + n by omega]; exact hP₂⟩

/-- Total rule: the loop runs to its end. -/
theorem forRange_ok {P : Int → σ → Prop} {g : Int → σ → Except ε σ} {a b : Int} {s : σ}
    (hle : a ≤ b) (h0 : P a s)
    (hbody : ∀ i s, a ≤ i → i < b → P i s → ∃ s', g i s = .ok s' ∧ P (i + 1) s') :
    ∃ s', forRange a b g s = .ok s' ∧ P b s' := by
  obtain ⟨s', h, hP⟩ := iterate_ok (b - a).toNat a s h0
    fun j s hj hj' => hbody j s hj (by omega)
  exact ⟨s', h, by rw [show a + ((b - a).toNat : Int) = b by omega] at hP; exact hP⟩

theorem iterate_inv {P : Int → σ → Prop} {body : Int → σ → Except ε σ} :
    ∀ (n : Nat) (i : Int) (s s' : σ), P i s →
      (∀ j s s', i ≤ j → j < i + n → P j s → body j s = .ok s' → P (j + 1) s') →
      iterate body n i s = .ok s' → P (i + n) s'
  | 0, i, s, s', hP, _, h => by
    simp only [iterate, Except.ok.injEq] at h
    subst h
    simpa using hP
  | n + 1, i, s, s', hP, hbody, h => by
    unfold iterate at h
    split at h
    · cases h
    · rename_i s₁ h₁
      have hP₁ := hbody i s s₁ (by omega) (by omega) hP h₁
      have := iterate_inv n (i + 1) s₁ s' hP₁ (fun j s s' hj hj' => hbody j s s' (by omega) (by omega)) h
      rw [show i + (n + 1 : Nat) = i + 1 + n by omega]
      exact this

/-- Partial rule: whatever the loop returns satisfies the invariant. -/
theorem forRange_inv {P : Int → σ → Prop} {body : Int → σ → Except ε σ} {lo hi : Int} {s s' : σ}
    (hle : lo ≤ hi) (h0 : P lo s)
    (hbody : ∀ i s s', lo ≤ i → i < hi → P i s → body i s = .ok s' → P (i + 1) s')
    (h : forRange lo hi body s = .ok s') : P hi s' := by
  have := iterate_inv (hi - lo).toNat lo s s' h0 (fun j s s' hj hj' => hbody j s s' hj (by omega)) h
  rwa [show lo + ((hi - lo).toNat : Int) = hi by omega] at this

/-! ## The iterations of a loop -/

/-- An iteration of a loop: its counter, the state it begins in, and what it comes to. -/
structure Iteration (ε σ : Type*) where
  counter : Int
  before : σ
  result : Except ε σ

/-- The iterations a loop begins; after one that fails there are no more. -/
def iterations (body : Int → σ → Except ε σ) : Nat → Int → σ → List (Iteration ε σ)
  | 0, _, _ => []
  | n + 1, i, s =>
    ⟨i, s, body i s⟩ ::
      match body i s with
      | .error _ => []
      | .ok s' => iterations body n (i + 1) s'

def history (lo hi : Int) (body : Int → σ → Except ε σ) (s : σ) : List (Iteration ε σ) :=
  iterations body (hi - lo).toNat lo s

/-- How many iterations with counter `i` have the property `Q`. -/
def times (l : List (Iteration ε σ)) (i : Int) (Q : Iteration ε σ → Bool) : Nat :=
  l.countP fun x => x.counter = i && Q x

theorem history_first {lo hi : Int} {body : Int → σ → Except ε σ} {s : σ} (h : lo < hi) :
    ⟨lo, s, body lo s⟩ ∈ history lo hi body s := by
  obtain ⟨n, hn⟩ : ∃ n, (hi - lo).toNat = n + 1 := ⟨(hi - lo).toNat - 1, by omega⟩
  unfold history
  rw [hn]
  exact List.mem_cons_self

theorem iterations_inv {P : Int → σ → Prop} {body : Int → σ → Except ε σ} :
    ∀ (n : Nat) (i : Int) (s : σ), P i s →
      (∀ j s s', i ≤ j → j < i + n → P j s → body j s = .ok s' → P (j + 1) s') →
      ∀ x ∈ iterations body n i s, (i ≤ x.counter ∧ x.counter < i + n) ∧ P x.counter x.before ∧
        x.result = body x.counter x.before
  | 0, _, _, _, _, _, hx => by simp [iterations] at hx
  | n + 1, i, s, hP, hbody, x, hx => by
    unfold iterations at hx
    rcases List.mem_cons.mp hx with rfl | hx
    · exact ⟨⟨Int.le_refl i, by simp only; omega⟩, hP, rfl⟩
    · split at hx
      · simp at hx
      · rename_i s₁ h₁
        have hP₁ := hbody i s s₁ (by omega) (by omega) hP h₁
        obtain ⟨⟨hlo, hhi⟩, hrest⟩ := iterations_inv n (i + 1) s₁ hP₁
          (fun j s s' hj hj' => hbody j s s' (by omega) (by omega)) x hx
        exact ⟨⟨by omega, by omega⟩, hrest⟩

/-- Whatever an iteration begins with satisfies the invariant. -/
theorem history_inv {P : Int → σ → Prop} {body : Int → σ → Except ε σ} {lo hi : Int} {s : σ}
    {x : Iteration ε σ} (h0 : P lo s)
    (hbody : ∀ i s s', lo ≤ i → i < hi → P i s → body i s = .ok s' → P (i + 1) s')
    (hx : x ∈ history lo hi body s) : (lo ≤ x.counter ∧ x.counter < hi) ∧ P x.counter x.before ∧
      x.result = body x.counter x.before := by
  obtain ⟨⟨hlo, hhi⟩, hrest⟩ := iterations_inv (hi - lo).toNat lo s h0
    (fun j s s' hj hj' => hbody j s s' hj (by omega)) x hx
  exact ⟨⟨hlo, by omega⟩, hrest⟩

/-- The iterations are those of the body, within the bounds of the loop. -/
theorem history_range {body : Int → σ → Except ε σ} {lo hi : Int} {s : σ} {x : Iteration ε σ}
    (hx : x ∈ history lo hi body s) : (lo ≤ x.counter ∧ x.counter < hi) ∧
      x.result = body x.counter x.before := by
  obtain ⟨hr, -, hres⟩ := history_inv (P := fun _ _ => True) trivial (fun _ _ _ _ _ _ _ => trivial) hx
  exact ⟨hr, hres⟩

theorem iterations_increasing {body : Int → σ → Except ε σ} :
    ∀ (n : Nat) (i : Int) (s : σ),
      (iterations body n i s).Pairwise fun x y => x.counter < y.counter
  | 0, _, _ => List.Pairwise.nil
  | n + 1, i, s => by
    unfold iterations
    split
    · exact List.pairwise_singleton _ _
    · rename_i s₁ _
      refine List.pairwise_cons.mpr ⟨fun x hx => ?_, iterations_increasing n (i + 1) s₁⟩
      have := (iterations_inv (P := fun _ _ => True) n (i + 1) s₁ trivial
        (fun _ _ _ _ _ _ _ => trivial) x hx).1.1
      simp only
      omega

theorem iterations_complete {body : Int → σ → Except ε σ} :
    ∀ (n : Nat) (i : Int) (s s' : σ), iterate body n i s = .ok s' →
      ∀ j, i ≤ j → j < i + n → ∃ x ∈ iterations body n i s, x.counter = j ∧ ∃ s₁, x.result = .ok s₁
  | 0, _, _, _, _, _, _, _ => by omega
  | n + 1, i, s, s', h, j, hj, hj' => by
    unfold iterate at h
    split at h
    · cases h
    · rename_i s₁ h₁
      by_cases hji : j = i
      · refine ⟨⟨i, s, body i s⟩, ?_, hji.symm, s₁, h₁⟩
        exact List.mem_cons_self
      · obtain ⟨x, hx, hrest⟩ := iterations_complete n (i + 1) s₁ s' h j (by omega) (by omega)
        refine ⟨x, ?_, hrest⟩
        unfold iterations
        rw [h₁]
        exact List.mem_cons_of_mem _ hx

theorem history_complete {body : Int → σ → Except ε σ} {lo hi j : Int} {s s' : σ}
    (h : forRange lo hi body s = .ok s') (hlo : lo ≤ j) (hhi : j < hi) :
    ∃ x ∈ history lo hi body s, x.counter = j ∧ ∃ s₁, x.result = .ok s₁ :=
  iterations_complete (hi - lo).toNat lo s s' h j hlo (by omega)

theorem iterations_reach {body : Int → σ → Except ε σ} {j : Int} :
    ∀ (n : Nat) (i : Int) (s : σ), i ≤ j → j < i + n →
      (∀ m s, i ≤ m → m < j → ∃ s', body m s = .ok s') →
      ∃ x ∈ iterations body n i s, x.counter = j
  | 0, _, _, _, _, _ => by omega
  | n + 1, i, s, hj, hj', hok => by
    by_cases hji : j = i
    · exact ⟨⟨i, s, body i s⟩, List.mem_cons_self, hji.symm⟩
    · obtain ⟨s₁, h₁⟩ := hok i s (by omega) (by omega)
      obtain ⟨x, hx, hxj⟩ := iterations_reach n (i + 1) s₁ (by omega) (by omega)
        fun m s hm hm' => hok m s (by omega) hm'
      refine ⟨x, ?_, hxj⟩
      unfold iterations
      rw [h₁]
      exact List.mem_cons_of_mem _ hx

/-- A loop comes to a counter if no iteration before it fails. -/
theorem history_reach {body : Int → σ → Except ε σ} {lo hi j : Int} {s : σ} (hlo : lo ≤ j)
    (hhi : j < hi) (hok : ∀ m s, lo ≤ m → m < j → ∃ s', body m s = .ok s') :
    ∃ x ∈ history lo hi body s, x.counter = j :=
  iterations_reach (hi - lo).toNat lo s hlo (by omega) hok

theorem iterations_failed {body : Int → σ → Except ε σ} {e : ε} :
    ∀ (n : Nat) (i : Int) (s : σ), iterate body n i s = .error e →
      ∃ x ∈ iterations body n i s, x.result = .error e
  | 0, _, _, h => by simp [iterate] at h
  | n + 1, i, s, h => by
    unfold iterate at h
    split at h
    · rename_i e' h₁
      cases h
      exact ⟨⟨i, s, body i s⟩, List.mem_cons_self, h₁⟩
    · rename_i s₁ h₁
      obtain ⟨x, hx, hres⟩ := iterations_failed n (i + 1) s₁ h
      refine ⟨x, ?_, hres⟩
      unfold iterations
      rw [h₁]
      exact List.mem_cons_of_mem _ hx

theorem history_failed {body : Int → σ → Except ε σ} {lo hi : Int} {s : σ} {e : ε}
    (h : forRange lo hi body s = .error e) : ∃ x ∈ history lo hi body s, x.result = .error e :=
  iterations_failed (hi - lo).toNat lo s h

theorem history_increasing (lo hi : Int) (body : Int → σ → Except ε σ) (s : σ) :
    (history lo hi body s).Pairwise fun x y => x.counter < y.counter :=
  iterations_increasing (hi - lo).toNat lo s

/-- No counter comes up twice. -/
theorem history_injective {body : Int → σ → Except ε σ} {lo hi : Int} {s : σ}
    {x y : Iteration ε σ} (hx : x ∈ history lo hi body s) (hy : y ∈ history lo hi body s)
    (h : x.counter = y.counter) : x = y := by
  have hsymm : Std.Symm fun x y : Iteration ε σ => x.counter ≠ y.counter := ⟨fun _ _ hne => hne.symm⟩
  have hpair : (history lo hi body s).Pairwise fun x y => x.counter ≠ y.counter :=
    (history_increasing lo hi body s).imp fun hlt => by omega
  by_contra hne
  exact hpair.forall hx hy hne h

theorem times_le_one {l : List (Iteration ε σ)} (h : l.Pairwise fun x y => x.counter < y.counter)
    (i : Int) (Q : Iteration ε σ → Bool) : times l i Q ≤ 1 := by
  induction l with
  | nil => simp [times]
  | cons x l ih =>
    obtain ⟨hx, hl⟩ := List.pairwise_cons.mp h
    unfold times at ih ⊢
    rw [List.countP_cons]
    by_cases hxi : x.counter = i
    · have hnone : l.countP (fun y => y.counter = i && Q y) = 0 := by
        refine List.countP_eq_zero.mpr fun y hy => ?_
        have hne : y.counter ≠ i := by have := hx y hy; omega
        simp [hne]
      rw [hnone]
      split
      · exact Nat.le_refl 1
      · exact Nat.zero_le 1
    · rw [if_neg (by simp [hxi])]
      exact ih hl

theorem times_history {body : Int → σ → Except ε σ} {lo hi i : Int} {s : σ}
    {Q : Iteration ε σ → Bool} :
    times (history lo hi body s) i Q = 1 ↔
      ∃ x ∈ history lo hi body s, x.counter = i ∧ Q x = true := by
  have hle := times_le_one (history_increasing lo hi body s) i Q
  have hpos : 0 < times (history lo hi body s) i Q ↔
      ∃ x ∈ history lo hi body s, x.counter = i ∧ Q x = true := by
    unfold times
    rw [List.countP_pos_iff]
    simp only [Bool.and_eq_true, decide_eq_true_eq]
  rw [← hpos]
  omega

theorem times_eq_zero {l : List (Iteration ε σ)} {i : Int} {Q : Iteration ε σ → Bool} :
    times l i Q = 0 ↔ ∀ x ∈ l, x.counter = i → Q x = false := by
  unfold times
  rw [List.countP_eq_zero]
  simp

/-! ## Loops in two states -/

theorem iterate_map {P : σ → Prop} {g : σ → σ} {body : Int → σ → Except ε σ} :
    ∀ (n : Nat) (i : Int) (s : σ), P s →
      (∀ j s, i ≤ j → j < i + n → P s →
        body j (g s) = (body j s).map g ∧ ∀ s', body j s = .ok s' → P s') →
      iterate body n i (g s) = (iterate body n i s).map g ∧
        ∀ s', iterate body n i s = .ok s' → P s'
  | 0, i, s, hP, _ => ⟨rfl, fun s' h => by cases h; exact hP⟩
  | n + 1, i, s, hP, hbody => by
    obtain ⟨hcomm, hkeep⟩ := hbody i s (by omega) (by omega) hP
    unfold iterate
    rw [hcomm]
    cases h : body i s with
    | error e => exact ⟨rfl, fun s' hs => by cases hs⟩
    | ok s₁ =>
      exact iterate_map n (i + 1) s₁ (hkeep s₁ h) fun j s hj hj' => hbody j s (by omega) (by omega)

/-- A change of the state that every iteration passes on is passed on by the loop. -/
theorem forRange_map {P : σ → Prop} {g : σ → σ} {body : Int → σ → Except ε σ} {lo hi : Int} {s : σ}
    (h0 : P s) (hbody : ∀ i s, lo ≤ i → i < hi → P s →
      body i (g s) = (body i s).map g ∧ ∀ s', body i s = .ok s' → P s') :
    forRange lo hi body (g s) = (forRange lo hi body s).map g ∧
      ∀ s', forRange lo hi body s = .ok s' → P s' := by
  by_cases hle : lo ≤ hi
  · exact iterate_map (hi - lo).toNat lo s h0 fun j s hj hj' => hbody j s hj (by omega)
  · rw [forRange_empty (by omega), forRange_empty (by omega)]
    exact ⟨rfl, fun s' h => by cases h; exact h0⟩

end Loop
