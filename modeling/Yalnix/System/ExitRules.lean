import Yalnix.System.Syscalls

/-!
# What `kill.c` keeps

`kill.c` is made of few steps: links are followed, parents are set, descriptors are taken off their
lists, children change hands, and the running process becomes a zombie.

* `ExitRules R` — a transitive relation that every such step stays inside.
* `ExitRules.releaseProcess`, `ExitRules.killProcess`, `ExitRules.killKernelContext` — then all of it
  does, whatever the lists look like.
* `ExitRules.step` — and so does an exit, where it does not matter who runs.
-/

set_option autoImplicit false

namespace Yalnix.System

variable {R : Sys → Sys → Prop} {s s' : Sys} {n : Nat} {p : PID}

structure ExitRules (R : Sys → Sys → Prop) : Prop where
  refl : ∀ s, R s s
  trans : ∀ {s t u}, R s t → R t u → R s u
  follow : ∀ s p, R s (s.follow p)
  setParent : ∀ s p parent, R s (s.setParent p parent)
  free : ∀ {s s' p}, freeDescriptor p s = some s' → R s s'
  give : ∀ {s s' p}, giveChildren p s = some s' → R s s'
  zombie : ∀ (s : Sys) status, R s (s.setDesc s.current fun d =>
    { d with state := .ZOMBIE, exit_status := status })

namespace ExitRules

/-! ## Walks -/

theorem forEachChild (h : ExitRules R) {head : TreeNode} {body : PID → Sys → Option Sys}
    (hbody : ∀ c s s', body c s = some s' → R s s') :
    ∀ {n : Nat} {pos : TreeNode} {s s' : Sys},
      System.forEachChild head body n pos s = some s' → R s s'
  | 0, _, _, _, hrun => by cases hrun
  | n + 1, pos, s, s', hrun => by
    unfold System.forEachChild at hrun
    split at hrun
    · cases hrun
      exact h.refl s
    · cases pos with
      | children c => cases hrun
      | siblings c =>
        simp only [Option.bind_eq_bind, Option.bind_eq_some_iff] at hrun
        obtain ⟨s₁, h₁, next, -, h₂⟩ := hrun
        have hwalked := forEachChild h hbody h₂
        exact h.trans (h.trans (hbody c s s₁ h₁) (h.follow s₁ c)) hwalked

theorem forEachThread (h : ExitRules R) {head : GroupNode} {body : PID → Sys → Option Sys}
    (hbody : ∀ t s s', body t s = some s' → R s s') :
    ∀ {n : Nat} {pos : GroupNode} {s s' : Sys},
      System.forEachThread head body n pos s = some s' → R s s'
  | 0, _, _, _, hrun => by cases hrun
  | n + 1, pos, s, s', hrun => by
    unfold System.forEachThread at hrun
    split at hrun
    · cases hrun
      exact h.refl s
    · cases pos with
      | thread_group t => cases hrun
      | thread_peers t =>
        simp only [Option.bind_eq_bind, Option.bind_eq_some_iff] at hrun
        obtain ⟨s₁, h₁, next, -, h₂⟩ := hrun
        have hwalked := forEachThread h hbody h₂
        exact h.trans (h.trans (hbody t s s₁ h₁) (h.follow s₁ t)) hwalked

/-! ## Releasing and killing -/

theorem releaseProcess (h : ExitRules R) : ∀ {n : Nat} {p : PID} {s s' : Sys},
    System.releaseProcess n p s = some s' → R s s'
  | 0, _, _, _, hrun => by cases hrun
  | n + 1, p, s, s', hrun => by
    unfold System.releaseProcess at hrun
    simp only [Option.bind_eq_bind, Option.bind_eq_some_iff] at hrun
    obtain ⟨first, -, s₁, h₁, h₂⟩ := hrun
    have hbody : ∀ c t t', ((if (t.desc c).state = .ZOMBIE then System.releaseProcess n c t
        else some t).map fun t => t.setParent c (t.desc p).parent) = some t' → R t t' := by
      intro c t t' hc
      obtain ⟨t₁, ht₁, rfl⟩ := Option.map_eq_some_iff.mp hc
      refine h.trans ?_ (h.setParent t₁ c _)
      split at ht₁
      · exact releaseProcess h ht₁
      · cases ht₁
        exact h.refl t
    exact h.trans (h.forEachChild hbody h₁) (h.free h₂)

theorem killProcess (h : ExitRules R) :
    ∀ {n : Nat} {p : PID} {status : Int} {s s' : Sys} {r : Option PID},
      System.killProcess n p status s = some (r, s') → R s s'
  | 0, _, _, _, _, _, hrun => by cases hrun
  | n + 1, p, status, s, s', r, hrun => by
    unfold System.killProcess at hrun
    split at hrun
    · cases hrun
      exact h.refl s
    · simp only [Option.bind_eq_bind, Option.bind_eq_some_iff, Option.some.injEq,
        Prod.mk.injEq] at hrun
      obtain ⟨r', -, first, -, s₁, h₁, s₂, h₂, first', -, s₃, h₃, -, rfl⟩ := hrun
      have hchildren : R s s₁ := by
        refine h.forEachChild (fun c t t' hc => ?_) h₁
        split at hc
        · exact h.releaseProcess hc
        · cases hc
          exact h.setParent t c _
      have hthreads : R s₂ s₃ := by
        refine h.forEachThread (fun t u u' hc => ?_) h₃
        simp only [Option.bind_eq_some_iff] at hc
        obtain ⟨⟨r₁, u₁⟩, hkill, hrelease⟩ := hc
        exact h.trans (killProcess h hkill) (h.releaseProcess hrelease)
      exact h.trans (h.trans (h.trans hchildren (h.give h₂)) hthreads) (h.zombie s₃ status)

/-- The switch is not part of it. -/
theorem killKernelContext (h : ExitRules R) {pa pb : PID}
    (hrun : System.killKernelContext n pa pb s = some s') : R { s with current := pb } s' := by
  unfold System.killKernelContext at hrun
  dsimp only at hrun
  split at hrun
  · simp only [Option.bind_eq_bind, Option.bind_eq_some_iff] at hrun
    obtain ⟨parent, -, hrun⟩ := hrun
    split at hrun
    · exact h.releaseProcess hrun
    · cases hrun
      exact h.refl _
  · cases hrun
    exact h.refl _

/-- An exit, for what has nothing to do with who runs and where processes go on. -/
theorem step (h : ExitRules R) (hswitch : ∀ s q, R s { s with current := q })
    (hcont : ∀ s p k, R s (s.setCont p k)) {status : Int} (hstep : Step s (.exit status) s') :
    R s s' := by
  obtain ⟨-, n, hend⟩ := hstep
  change Ends (killCurrentProcess n status s) s' at hend
  unfold killCurrentProcess at hend
  split at hend
  · cases hend
  · rename_i s₁ hkill
    cases hend
    exact h.trans (h.killProcess hkill) (hcont s₁ _ _)
  · rename_i q s₁ hkill
    split at hend
    · cases hend
    · rename_i s₂ hswitched
      cases hend
      have hkilled := h.trans (h.killProcess hkill) (hswitch s₁ q)
      exact h.trans hkilled (h.killKernelContext hswitched)

end ExitRules

end Yalnix.System
