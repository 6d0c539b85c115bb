import Yalnix.Process.ForkSpec

/-!
# When a fork succeeds

* `Running`, `EnoughFrames` — a process that may call, and the frames a new process of it takes.
* `forkReady_of_fork`, `forkReady_of_thread` — a `forkProcess` or `createThread` that returns a
  number was ready for `forkProcess_spec`: the caller leads its group, the numbers have not run out,
  and its stack pointer is in region 1.
-/

set_option autoImplicit false

namespace Yalnix

variable {k k' k₁ k₂ : Kernel} {l l' X Y : List Nat} {f g p c i n sb : Nat} {D : Finset Slot}
  {leak : Nat → Nat}

/-! ## When a fork succeeds -/

/-- A descriptor and a page table are made for leaders only, while numbers last, and when both
`malloc`s find room. -/
theorem spawn_some {m₁ m₂ : Bool} {r : Kernel} (h : spawn m₁ m₂ p k = .ok (some c, r)) :
    m₁ = true ∧ m₂ = true ∧ (k.proc p).thread_leader = none ∧ (k.max_pid : Int) < LONG_MAX := by
  unfold spawn at h
  split at h
  · cases h
  · rename_i hleader
    have hnone : (k.proc p).thread_leader = none := by
      cases hl : (k.proc p).thread_leader with
      | none => rfl
      | some q => simp [hl] at hleader
    cases m₁ with
    | false => simp [createProcessDescriptor] at h
    | true =>
      by_cases hpid : (k.max_pid : Int) < LONG_MAX
      · cases m₂ with
        | false =>
          split at h
          · cases h
          · simp [createPageTable, ERROR] at h
        | true => exact ⟨rfl, rfl, hnone, hpid⟩
      · have hdesc : createProcessDescriptor true k = (none, k) := by
          unfold createProcessDescriptor
          rw [nextAvailablePID_none hpid]
          simp
        simp [hdesc] at h

/-- A loop from 0 that reads an entry of a page table in every round cannot run past the table. -/
theorem forRange_entry_bound {b : Int} {body : Int → Kernel → Except Stop Kernel}
    (hbody : ∀ i k k', body i k = .ok k' → i < 128)
    (h : Loop.forRange 0 b body k = .ok k') : b ≤ 128 := by
  by_cases hb : b ≤ 0
  · omega
  · exact Loop.forRange_inv (P := fun i _ => i ≤ 128) (by omega) (by omega)
      (fun i s s' _ _ _ hs => by have := hbody i s s' hs; omega) h

theorem entry_bound {i : Int} {e : PTE} (h : k.entry p i = .ok e) : 0 ≤ i ∧ i < 128 := by
  unfold Kernel.entry at h
  split at h
  · rename_i hi
    exact hi
  · cases h

/-- A fork or a thread creation that comes to an end had the stack pointer in region 1, or at its
end: anything else takes one of the loops out of the page table. -/
theorem stack_base_range {f₀ f₁ : Nat} (hcounted : Counted k (slots n) leak (f₀ :: f₁ :: l))
    (hmax : k.max_pid = n) (hpid : (n : Int) < LONG_MAX) (hp : 0 < p ∧ p ≤ n)
    (hleader : (k.proc p).thread_leader = none) (body : Int → Kernel → Except Stop Kernel)
    (hbody : ∀ i k k', body i k = .ok k' → i < 128)
    (hrun : ∀ k₁, spawn true true p k = .ok (some (n + 1), k₁) → stack_base p k₁ = stack_base p k →
      ∃ k', Loop.forRange 0 (stack_base p k) body k₁ = .ok k')
    (hspawn : ∃ r, spawn true true p k = .ok r) :
    0 ≤ stack_base p k ∧ stack_base p k ≤ 128 := by
  have hpc : p ≠ n + 1 := by omega
  obtain ⟨k₁, k₂, hrun₁, hrun₂, -, honly₂, -⟩ := newTable_spec hcounted hmax hpid hpc
  have hstack : stack_base p k₂ = stack_base p k := by
    unfold stack_base
    rw [honly₂.proc p hpc]
  have hspawn_eq : spawn true true p k = (do
      let k ← copyParentStack p (n + 1) p k₂
      .ok (some (n + 1), createUserContext (n + 1) p k)) := spawn_eq hleader hrun₁ hrun₂
  by_cases hneg : stack_base p k < 0
  · -- the first entry to copy would lie before the table
    obtain ⟨r, hr⟩ := hspawn
    have hfault : copyParentStack p (n + 1) p k₂ = .error .fault := by
      unfold copyParentStack Loop.forRange
      rw [hstack]
      obtain ⟨m, hm⟩ : ∃ m, ((MAX_PT_LEN : Int) - stack_base p k).toNat = m + 1 :=
        ⟨((MAX_PT_LEN : Int) - stack_base p k).toNat - 1, by unfold MAX_PT_LEN; omega⟩
      rw [hm]
      have hentry : k₂.entry p (stack_base p k) = .error .fault := by
        unfold Kernel.entry
        rw [if_neg (by omega)]
      simp only [Loop.iterate, copyStackPage, hentry, bind, Except.bind]
    rw [hspawn_eq, hfault] at hr
    cases hr
  · refine ⟨by omega, ?_⟩
    by_cases hbig : stack_base p k ≤ 128
    · exact hbig
    · -- nothing to copy, but too much to share
      have hempty : copyParentStack p (n + 1) p k₂ = .ok k₂ := by
        unfold copyParentStack
        exact Loop.forRange_empty (by rw [hstack]; unfold MAX_PT_LEN; omega)
      rw [hempty] at hspawn_eq
      obtain ⟨k', hk'⟩ := hrun _ hspawn_eq ((createUserContext_base hpc).trans hstack)
      exact forRange_entry_bound hbody hk'

/-- A process that can be running. -/
structure Running (k : Kernel) (p : Nat) : Prop where
  pos : 0 < p
  le : p ≤ k.max_pid
  live : (k.proc p).live = true

/-- There is a free frame for each page a fork by `p` needs: two for the kernel stack, and one for
every mapped page from the stack pointer up. -/
def EnoughFrames (k : Kernel) (p : Nat) : Prop :=
  ∃ l, FreeList k l ∧ 2 + stackPages k p (stack_base p k).toNat ≤ l.length

theorem forkProcess_some {m₁ m₂ : Bool} {r : Int} (h : forkProcess m₁ m₂ p k = .ok (r, k'))
    (hr : r ≠ ERROR) : ∃ c k₁ k₂, spawn m₁ m₂ p k = .ok (some c, k₁) ∧
      setCopyOnWrite p p false k₁ = .ok k₂ := by
  unfold forkProcess at h
  cases hs : spawn m₁ m₂ p k with
  | error e => simp [hs, bind, Except.bind] at h
  | ok s =>
    obtain ⟨c, k₁⟩ := s
    cases c with
    | none =>
      simp [hs, bind, Except.bind] at h
      exact absurd h.1.symm hr
    | some c =>
      cases hc : setCopyOnWrite p p false k₁ with
      | error e => simp [hs, hc, bind, Except.bind] at h
      | ok k₂ => exact ⟨c, k₁, k₂, rfl, hc⟩

theorem createThread_some {m₁ m₂ : Bool} {r : Int} (h : createThread m₁ m₂ p k = .ok (r, k'))
    (hr : r ≠ ERROR) : ∃ c k₁ k₂, spawn m₁ m₂ p k = .ok (some c, k₁) ∧
      increaseFRCEntries p c k₁ = .ok k₂ := by
  unfold createThread at h
  cases hs : spawn m₁ m₂ p k with
  | error e => simp [hs, bind, Except.bind] at h
  | ok s =>
    obtain ⟨c, k₁⟩ := s
    cases c with
    | none =>
      simp [hs, bind, Except.bind] at h
      exact absurd h.1.symm hr
    | some c =>
      cases hc : increaseFRCEntries p c k₁ with
      | error e => simp [hs, hc, bind, Except.bind] at h
      | ok k₂ => exact ⟨c, k₁, k₂, rfl, hc⟩

/-- What the success of `spawn`, and of the loop over the shared entries, says about the state
before. -/
theorem forkReady_of_spawn {m₁ m₂ : Bool} (hc : Counted k (slots k.max_pid) leak l)
    (hp : Running k p)
    (hread : ∀ i < 128, (k.table p i).valid = true → (k.table p i).readable = true)
    (hframes : EnoughFrames k p) (hspawn : spawn m₁ m₂ p k = .ok (some c, k₁))
    (body : Int → Kernel → Except Stop Kernel) (hbody : ∀ i k k', body i k = .ok k' → i < 128)
    (hloop : Loop.forRange 0 (stack_base p k₁) body k₁ = .ok k₂) :
    m₁ = true ∧ m₂ = true ∧ ForkReady k p k.max_pid (stack_base p k).toNat l leak := by
  obtain ⟨rfl, rfl, hleader, hpid⟩ := spawn_some hspawn
  obtain ⟨l', hl', hlen⟩ := hframes
  obtain rfl := hc.list.unique hl'
  have hrange : 0 ≤ stack_base p k ∧ stack_base p k ≤ 128 := by
    match l, hc, hlen with
    | [], _, hlen => simp at hlen
    | [_], _, hlen => simp at hlen; omega
    | f₀ :: f₁ :: l, hc, _ =>
      refine stack_base_range hc rfl hpid ⟨hp.pos, hp.le⟩ hleader body hbody (fun k₃ h₃ hs => ?_)
        ⟨_, hspawn⟩
      rw [hspawn] at h₃
      cases h₃
      rw [← hs]
      exact ⟨k₂, hloop⟩
  exact ⟨rfl, rfl, hc, rfl, hpid, ⟨hp.pos, hp.le⟩, hleader, by omega, by omega, hread, hlen⟩

/-- What the success of a fork says about the state before it. -/
theorem forkReady_of_fork {m₁ m₂ : Bool} {r : Int} (hc : Counted k (slots k.max_pid) leak l)
    (hp : Running k p)
    (hread : ∀ i < 128, (k.table p i).valid = true → (k.table p i).readable = true)
    (hframes : EnoughFrames k p) (h : forkProcess m₁ m₂ p k = .ok (r, k')) (hr : r ≠ ERROR) :
    m₁ = true ∧ m₂ = true ∧ ForkReady k p k.max_pid (stack_base p k).toNat l leak := by
  obtain ⟨c, k₁, k₂, hspawn, hcow⟩ := forkProcess_some h hr
  refine forkReady_of_spawn hc hp hread hframes hspawn (fun i k => do
      let old_entry ← k.entry p i
      if !old_entry.valid then .ok k
      else
        let k := if false then k.setFrc old_entry.pfn (char (k.frc_table old_entry.pfn + 1)) else k
        k.setEntry p i old_entry.protect) ?_ hcow
  intro i k₃ k₄ h₄
  cases he : k₃.entry p i with
  | error e => simp [he, bind, Except.bind] at h₄
  | ok e => exact (entry_bound he).2

theorem forkReady_of_thread {m₁ m₂ : Bool} {r : Int} (hc : Counted k (slots k.max_pid) leak l)
    (hp : Running k p)
    (hread : ∀ i < 128, (k.table p i).valid = true → (k.table p i).readable = true)
    (hframes : EnoughFrames k p) (h : createThread m₁ m₂ p k = .ok (r, k')) (hr : r ≠ ERROR) :
    m₁ = true ∧ m₂ = true ∧ ForkReady k p k.max_pid (stack_base p k).toNat l leak := by
  obtain ⟨c, k₁, k₂, hspawn, hshare⟩ := createThread_some h hr
  refine forkReady_of_spawn hc hp hread hframes hspawn (fun i k => do
      let old_entry ← k.entry c i
      if !old_entry.valid then .ok k
      else .ok (k.setFrc old_entry.pfn (char (k.frc_table old_entry.pfn + 1)))) ?_ hshare
  intro i k₃ k₄ h₄
  cases he : k₃.entry c i with
  | error e => simp [he, bind, Except.bind] at h₄
  | ok e => exact (entry_bound he).2

end Yalnix
