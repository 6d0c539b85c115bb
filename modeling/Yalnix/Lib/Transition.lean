import Mathlib.Tactic.TypeStar

/-!
# Runs of a labelled transition system

`Run step s as t`: the labels `as`, in order, lead from `s` to `t`.

* `Run.invariant` — what one step preserves, a run preserves.
* `Run.simulates` — a relation that every step carries over to another system carries
  whole runs over, label by label.
-/

set_option autoImplicit false

namespace Transition

variable {σ τ α : Type*}

/-- The labels `as` lead from `s` to `t`. -/
inductive Run (step : σ → α → σ → Prop) : σ → List α → σ → Prop
  | nil {s : σ} : Run step s [] s
  | cons {s t u : σ} {a : α} {as : List α} (head : step s a t) (tail : Run step t as u) :
      Run step s (a :: as) u

variable {step : σ → α → σ → Prop} {s t u : σ} {a : α} {as bs : List α}

theorem Run.single (h : step s a t) : Run step s [a] t := .cons h .nil

theorem Run.append (h₁ : Run step s as t) (h₂ : Run step t bs u) : Run step s (as ++ bs) u := by
  induction h₁ with
  | nil => exact h₂
  | cons head _ ih => exact .cons head (ih h₂)

theorem Run.mono {step' : σ → α → σ → Prop} (himp : ∀ s a t, step s a t → step' s a t)
    (h : Run step s as t) : Run step' s as t := by
  induction h with
  | nil => exact .nil
  | cons head _ ih => exact .cons (himp _ _ _ head) ih

/-- The steps may be looked at with their labels. -/
theorem Run.mono_labels {step' : σ → α → σ → Prop} (h : Run step s as t)
    (himp : ∀ s a t, a ∈ as → step s a t → step' s a t) : Run step' s as t := by
  induction h with
  | nil => exact .nil
  | cons head _ ih =>
    refine .cons (himp _ _ _ List.mem_cons_self head) (ih fun s a t ha hstep => ?_)
    exact himp s a t (List.mem_cons_of_mem _ ha) hstep

/-- An invariant of the steps is an invariant of the runs. -/
theorem Run.invariant {P : σ → Prop} (hstep : ∀ s a t, P s → step s a t → P t)
    (h : Run step s as t) (hs : P s) : P t := by
  induction h with
  | nil => exact hs
  | cons head _ ih => exact ih (hstep _ _ _ hs head)

/-- Forward simulation: related states stay related, step for step. -/
theorem Run.simulates {g : τ → α → τ → Prop} {R : σ → τ → Prop}
    (hsim : ∀ s a t s', R s s' → step s a t → ∃ t', g s' a t' ∧ R t t')
    (h : Run step s as t) {s' : τ} (hR : R s s') : ∃ t', Run g s' as t' ∧ R t t' := by
  induction h generalizing s' with
  | nil => exact ⟨s', .nil, hR⟩
  | cons head _ ih =>
    obtain ⟨m, hm, hRm⟩ := hsim _ _ _ _ hR head
    obtain ⟨t', ht', hRt⟩ := ih hRm
    exact ⟨t', .cons hm ht', hRt⟩

end Transition
