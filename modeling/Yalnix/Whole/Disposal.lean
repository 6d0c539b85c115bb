import Yalnix.System.Astray
import Yalnix.Whole.State

/-!
# What becomes of the threads of a leader that exits

* `Drops`, `killProcess_drops` — whose memory an exit gives back: page tables, but no kernel stack
  of a thread.
* `Visits` — the calls that the loop over the threads makes.
* `Disposed` — no thread is left: not on a list, not in memory.
* `disposed_iff` — an exit leaves it so exactly if the leader has no threads on its list.
-/

set_option autoImplicit false

namespace Yalnix.Whole

open Yalnix.System (Sys ProcNode GroupNode TreeNode)
open Ring (Heap IsRing)
open Transition (Run)

variable {m m₁ m' m₀ u u' : Whole} {n : Nat} {p q t : PID} {status : Int} {r : Option PID} {acts : List Act}
  {k k₁ k' : Kernel} {pos : GroupNode}

/-! ## Memory -/

/-- The page table has been freed, and all it maps given back. -/
def dropTable (P : Process) : Process := { P with live := false, page_table := fun _ => PTE.clear }

theorem dropTable_dropTable (P : Process) : dropTable (dropTable P) = dropTable P := rfl

/-- Some processes have lost their page tables; nothing else has become of any. -/
structure Dropped (k k' : Kernel) : Prop where
  max_pid : k'.max_pid = k.max_pid
  proc : ∀ q, k'.proc q = k.proc q ∨ k'.proc q = dropTable (k.proc q)

theorem Dropped.refl (k : Kernel) : Dropped k k := ⟨rfl, fun _ => .inl rfl⟩

theorem Dropped.trans (h : Dropped k k₁) (h' : Dropped k₁ k') : Dropped k k' := by
  refine ⟨h'.max_pid.trans h.max_pid, fun q => ?_⟩
  rcases h.proc q with hq | hq
  · rcases h'.proc q with hq' | hq'
    · exact .inl (hq'.trans hq)
    · rw [hq] at hq'
      exact .inr hq'
  · rcases h'.proc q with hq' | hq'
    · exact .inr (hq'.trans hq)
    · rw [hq, dropTable_dropTable] at hq'
      exact .inr hq'

theorem freeMemory_dropped (h : m.freeMemory p = some m') : Dropped m.kernel m'.kernel ∧
    m'.kernel.proc p = dropTable (m.kernel.proc p) ∧ m'.sys = m.sys := by
  obtain ⟨k, hk, rfl⟩ := freeMemory_some h
  have hother := freeAddressSpace_elsewhere hk
  rw [freeAddressSpace_eq] at hk
  cases hk
  have hself : (((freeAll (mappedFrames m.kernel p 128) m.kernel).modify p clearPageTable).modify p
      fun P => { P with live := false }).proc p = dropTable (m.kernel.proc p) := by
    rw [Kernel.proc_modify_self, Kernel.proc_modify_self, freeAll_proc]
    rfl
  refine ⟨⟨hother.max_pid, fun q => ?_⟩, hself, rfl⟩
  rcases eq_or_ne q p with rfl | hq
  · exact .inr hself
  · left
    have hlive := Elsewhere.modify p (fun P => { P with live := false })
      ((freeAll (mappedFrames m.kernel p 128) m.kernel).modify p clearPageTable)
    exact (hlive.proc q hq).trans (hother.proc q hq)

/-- `m'` is `m` but for the lists and for page tables that have been freed. -/
structure Drops (m m' : Whole) : Prop where
  same : m' = { m with sys := m'.sys, kernel := m'.kernel }
  kernel : Dropped m.kernel m'.kernel

theorem Drops.refl (m : Whole) : Drops m m := ⟨rfl, .refl _⟩

theorem Drops.trans (h : Drops m m₁) (h' : Drops m₁ m') : Drops m m' := by
  refine ⟨?_, h.kernel.trans h'.kernel⟩
  have h₁ := h.same
  have h₂ := h'.same
  rw [h₂, h₁]

theorem beginKill_drops {first : GroupNode} (h : beginKill n p m = some (r, first, m')) : Drops m m' := by
  obtain ⟨next, -, h⟩ := Option.bind_eq_some_iff.mp h
  obtain ⟨m₁, h₁, h⟩ := Option.bind_eq_some_iff.mp h
  have hdropped := (freeMemory_dropped h₁).1
  obtain ⟨k, -, rfl⟩ := freeMemory_some h₁
  obtain ⟨first, -, h⟩ := Option.bind_eq_some_iff.mp h
  obtain ⟨s₁, -, h⟩ := Option.bind_eq_some_iff.mp h
  obtain ⟨s₂, -, h⟩ := Option.bind_eq_some_iff.mp h
  obtain ⟨first', -, h⟩ := Option.bind_eq_some_iff.mp h
  cases h
  exact ⟨rfl, hdropped⟩

theorem forEachThread_drops {head : GroupNode} {body : PID → Whole → Option Whole}
    (hbody : ∀ t u u', body t u = some u' → Drops u u') :
    ∀ {n : Nat} {pos : GroupNode} {m m' : Whole}, forEachThread head body n pos m = some m' → Drops m m'
  | 0, _, _, _, h => by cases h
  | n + 1, pos, m, m', h => by
    unfold forEachThread at h
    split at h
    · cases h
      exact .refl _
    · cases pos with
      | thread_group q => cases h
      | thread_peers t =>
        dsimp only at h
        obtain ⟨m₁, h₁, h⟩ := Option.bind_eq_some_iff.mp h
        obtain ⟨next, -, h⟩ := Option.bind_eq_some_iff.mp h
        have hfollow : Drops m₁ { m₁ with sys := m₁.sys.follow t } := ⟨rfl, .refl _⟩
        exact ((hbody t m m₁ h₁).trans hfollow).trans (forEachThread_drops hbody h)

/-- **An exit frees page tables. It leaves the kernel stacks of threads where they are.** -/
theorem killProcess_drops : ∀ {n : Nat} {p : PID} {status : Int} {m m' : Whole} {r : Option PID},
    killProcess n p status m = some (r, m') → Drops m m'
  | 0, _, _, _, _, _, h => by cases h
  | n + 1, p, status, m, m', r, h => by
    unfold killProcess at h
    split at h
    · cases h
      exact .refl _
    · obtain ⟨⟨new_process, first, m₁⟩, hbegin, h⟩ := Option.bind_eq_some_iff.mp h
      obtain ⟨m₂, hwalk, h⟩ := Option.bind_eq_some_iff.mp h
      cases h
      have hthreads := forEachThread_drops (fun t u u' hu => ?_) hwalk
      · exact ((beginKill_drops hbegin).trans hthreads).trans ⟨rfl, .refl _⟩
      obtain ⟨⟨r', u₁⟩, hk, hu⟩ := Option.bind_eq_some_iff.mp hu
      obtain ⟨s, -, rfl⟩ := releaseProcess_some hu
      have hlists : Drops u₁ { u₁ with sys := s } := ⟨rfl, .refl _⟩
      exact (killProcess_drops hk).trans hlists

/-! ## What the exit should leave -/

/-- The body of the loop over the threads. -/
def killThread (n : Nat) (t : PID) (m : Whole) : Option Whole :=
  (killProcess n t (-1) m).bind fun (_, m) => releaseProcess n t m

/-- From `pos` on, the loop comes to thread `t` in state `u`. -/
inductive Visits (n : Nat) : GroupNode → Whole → PID → Whole → Prop
  | here {t : PID} {m : Whole} : Visits n (.thread_peers t) m t m
  | later {t q : PID} {pos : GroupNode} {m m₁ u : Whole} (body : killThread n t m = some m₁)
      (next : m₁.sys.groups.next (.thread_peers t) = some pos)
      (rest : Visits n pos { m₁ with sys := m₁.sys.follow t } q u) : Visits n (.thread_peers t) m q u

/-- The call of `killProcess` for the leader `p` comes to thread `t` in state `u`. -/
def Comes (n : Nat) (p : PID) (m : Whole) (t : PID) (u : Whole) : Prop :=
  ∃ new_process first m₁, beginKill n p m = some (new_process, first, m₁) ∧ Visits n first m₁ t u

/-- The threads that the leader has on its list. -/
def HasThread (m : Whole) (p t : PID) : Prop :=
  ∃ ts, IsRing m.sys.groups (.thread_group p) ts ∧ .thread_peers t ∈ ts

structure Disposed (n : Nat) (p : PID) (status : Int) (m m' : Whole) : Prop where
  /-- No thread is on a list. -/
  procs : ∀ t, HasThread m p t → ∃ l, IsRing m'.sys.procs .process_head l ∧ .process_list t ∉ l
  group : ∀ t, HasThread m p t → ∃ ts, IsRing m'.sys.groups (.thread_group p) ts ∧ .thread_peers t ∉ ts
  /-- The page tables and the kernel stacks have been given back. -/
  memory : ∀ t, HasThread m p t → (m'.kernel.proc t).live = false ∧ (m'.kernel.proc t).pcb = false
  /-- To kill a thread changes no other process. -/
  others : ∀ t u, Comes n p m t u → ∀ r u', killProcess n t (-1) u = some (r, u') → ∀ q, q ≠ t →
    (u'.sys.desc q).state = (u.sys.desc q).state ∧ (u'.sys.desc q).exit_status = (u.sys.desc q).exit_status
  /-- The link that is read next is that of a descriptor in use. -/
  reads : ∀ t u, Comes n p m t u → ∀ u', killThread n t u = some u' → (u'.sys.desc t).allocated = true
  zombie : (m'.sys.desc p).state = .ZOMBIE ∧ (m'.sys.desc p).exit_status = status

/-! ## It leaves that only if there are no threads -/

/-- What a run of the whole kernel keeps about the lists of threads. -/
theorem formed (hb : Booted m₀) (hrun : Run Step m₀ acts m) : ∃ threads, System.Formed m.sys threads := by
  obtain ⟨es, hes⟩ := run_sys hrun
  rw [hb.sys] at hes
  obtain ⟨threads, hformed, -⟩ := System.Formed.run hes System.formed_boot
  exact ⟨threads, hformed⟩

/-- The call has not returned at once. -/
theorem killProcess_begins (h : killProcess n p status m = some (r, m'))
    (halive : (m.sys.desc p).state ≠ .ZOMBIE ∧ (m.sys.desc p).state ≠ .DEAD) :
    ∃ i first m₁ m₂, n = i + 1 ∧ beginKill i p m = some (r, first, m₁) ∧
      forEachThread (.thread_group p) (killThread i) i first m₁ = some m₂ ∧ m' = { m₂ with
        sys := m₂.sys.setDesc m₂.sys.current fun d => { d with state := .ZOMBIE, exit_status := status } } := by
  cases n with
  | zero => cases h
  | succ i =>
    unfold killProcess at h
    rw [if_neg (not_or.mpr halive)] at h
    obtain ⟨⟨new_process, first, m₁⟩, hbegin, h⟩ := Option.bind_eq_some_iff.mp h
    obtain ⟨m₂, hwalk, h⟩ := Option.bind_eq_some_iff.mp h
    cases h
    exact ⟨i, first, m₁, m₂, rfl, hbegin, hwalk, rfl⟩

/-- **An exit disposes of the threads of the leader exactly if it has none on its list.** -/
theorem disposed_iff (hb : Booted m₀) (hrun : Run Step m₀ acts m)
    (halive : (m.sys.desc m.current).state ≠ .ZOMBIE ∧ (m.sys.desc m.current).state ≠ .DEAD)
    (hkill : killProcess (n + 1) m.current status m = some (r, m')) :
    Disposed n m.current status m m' ↔ listIsEmpty (.thread_group m.current) m.sys.groups = some true := by
  obtain ⟨threads, hformed⟩ := formed hb hrun
  have hculled := System.killProcess_any (killProcess_lists hkill)
  obtain ⟨i, first, m₁, m₂, hi, hbegin, hwalk, hm'⟩ := killProcess_begins hkill halive
  cases hi
  obtain ⟨child, s₁, -, -, hchildren, hgive, hfirst⟩ := beginKill_some hbegin
  have hgroups : m₁.sys.groups = m.sys.groups :=
    ((System.forEachChild_released (fun c u u' hc => System.killChild_released hc) hchildren).trans
      (System.giveChildren_released (fun _ => True) hgive)).culled.groups
  rw [hgroups] at hfirst
  have hring := hformed.grouped.ring hfirst
  constructor
  · intro hd
    cases hts : threads m.current with
    | nil =>
      rw [hts] at hring
      have hhead := (Ring.isRing_nil.mp hring).1
      simp [listIsEmpty, hhead]
    | cons t ts =>
      -- the first thread is still on the list
      rw [hts] at hring
      obtain ⟨us, hus, hnot⟩ := hd.group t ⟨_, hring, List.mem_cons_self⟩
      rw [hculled.groups] at hus
      rw [← hring.unique hus] at hnot
      exact absurd List.mem_cons_self hnot
  · intro hempty
    have hnil : threads m.current = [] := by
      cases hts : threads m.current with
      | nil => rfl
      | cons t ts =>
        rw [hts] at hring
        have hhead := hring.next_head
        simp [listIsEmpty, hhead] at hempty
    rw [hnil] at hring
    have hnone : ∀ t, ¬ HasThread m m.current t := by
      rintro t ⟨ts, hts, ht⟩
      rw [hts.unique hring] at ht
      cases ht
    have hstill : ∀ t u, ¬ Comes n m.current m t u := by
      rintro t u ⟨new_process, first', m₁', hbegin', hvisits⟩
      rw [hbegin, Option.some.injEq, Prod.mk.injEq, Prod.mk.injEq] at hbegin'
      obtain ⟨-, rfl, -⟩ := hbegin'
      rw [(Ring.isRing_nil.mp hring).1, Option.some.injEq] at hfirst
      subst hfirst
      cases hvisits
    have hcurrent : m₂.sys.current = m.current := by
      have hc := hculled.current
      rw [hm'] at hc
      exact hc
    refine ⟨fun t ht => absurd ht (hnone t), fun t ht => absurd ht (hnone t), fun t ht => absurd ht (hnone t),
      fun t u ht => absurd ht (hstill t u), fun t u ht => absurd ht (hstill t u), ?_⟩
    rw [hm', hcurrent]
    unfold Sys.setDesc
    simp

/-! ## An exit with a thread -/

/-- The first process, before it has done anything. -/
def firstWhole (N : Nat) : Whole := ⟨System.bootSys, machine N, fun _ => 0, fun _ _ => PTE.clear⟩

theorem firstWhole_booted {N : Nat} (hN : N ≤ 65536) : Booted (firstWhole N) := by
  refine ⟨rfl, max_pid_machine hN, fun p hp => ?_⟩
  change ((machine N).proc p).live = true at hp
  rw [proc_machine hN] at hp
  dsimp only at hp
  by_contra hne
  rw [if_neg hne] at hp
  cases hp

/-- Process 1 makes thread 2. -/
theorem thread_made : ∃ m, Run Step (firstWhole 3) [.createThread true true firstContext] m ∧
    System.exec 8 System.bootSys (.createThread true) = some m.sys := by
  have hN : 0 + 3 ≤ 65536 := by omega
  obtain ⟨k, l, leak, hstep, -, -, -⟩ := machine_thread (N := 0) hN
  have hsome : (System.exec 8 System.bootSys (.createThread true)).isSome = true := by decide +kernel
  obtain ⟨s, hs⟩ := Option.isSome_iff_exists.mp hsome
  cases hstep with
  | @createThread _ _ _ m₁ m₂ result running frames fit run =>
    obtain ⟨c, k₁, k₂, hspawn, -⟩ := createThread_some run (by decide)
    obtain ⟨rfl, rfl, -, -⟩ := spawn_some hspawn
    have hthread : Step (firstWhole 3) (.createThread true true firstContext)
        { firstWhole 3 with sys := s, kernel := k } :=
      .createThread (running_machine hN).live run (System.exec_step hs) rfl
    exact ⟨_, .single hthread, hs⟩

/-- What is left when process 1 has exited. -/
def threadExit : Option (Option PID × Sys) :=
  (System.exec 8 System.bootSys (.createThread true)).bind (System.killProcess 8 1 7)

/-- **Process 1 exits, and its thread stays on its list.** -/
theorem thread_not_disposed : ¬ ∀ (m₀ m m' : Whole) (acts : List Act) (n : Nat) (status : Int)
    (r : Option PID), Booted m₀ → Run Step m₀ acts m →
    (m.sys.desc m.current).state ≠ .ZOMBIE ∧ (m.sys.desc m.current).state ≠ .DEAD →
    killProcess (n + 1) m.current status m = some (r, m') → Disposed n m.current status m m' := by
  intro hall
  obtain ⟨m, hrun, hs⟩ := thread_made
  have hstate : (System.exec 8 System.bootSys (.createThread true)).map (fun s => (s.current,
      (s.desc s.current).state, decide (IsRing s.groups (.thread_group 1) [.thread_peers 2]))) =
        some (1, .RUNNING, true) := by
    decide +kernel
  have hexit : (threadExit.map fun x => decide (IsRing x.2.groups (.thread_group 1) [.thread_peers 2])) =
      some true := by
    decide +kernel
  rw [hs, Option.map_some, Option.some.injEq, Prod.mk.injEq, Prod.mk.injEq, decide_eq_true_eq] at hstate
  obtain ⟨hcurrent, hrunning, hring⟩ := hstate
  obtain ⟨⟨r, s'⟩, hs', hring'⟩ := Option.map_eq_some_iff.mp hexit
  unfold threadExit at hs'
  rw [hs, Option.bind_some] at hs'
  obtain ⟨m', hkill, rfl⟩ := killProcess_of_lists hs'
  have hc : m.current = 1 := hcurrent
  have hd := hall (firstWhole 3) m m' _ 7 7 r (firstWhole_booted (by omega)) hrun
    (by rw [hc, ← hcurrent, hrunning]; decide) (by rw [hc]; exact hkill)
  rw [hc] at hd
  obtain ⟨us, hus, hnot⟩ := hd.group 2 ⟨_, hring, List.mem_singleton_self _⟩
  rw [hus.unique (of_decide_eq_true hring')] at hnot
  exact hnot (List.mem_singleton_self _)

/-- Process 1 exits before it has made a thread. -/
theorem disposed_first : ∃ r m', killProcess 8 1 7 (firstWhole 0) = some (r, m') ∧
    Disposed 7 1 7 (firstWhole 0) m' := by
  have hexit : (System.killProcess 8 1 7 System.bootSys).isSome = true := by decide +kernel
  obtain ⟨⟨r, s⟩, hs⟩ := Option.isSome_iff_exists.mp hexit
  obtain ⟨m', hkill, -⟩ := killProcess_of_lists (m := firstWhole 0) hs
  refine ⟨r, m', hkill, ?_⟩
  exact (disposed_iff (firstWhole_booted (by omega)) .nil (by decide) hkill).mpr (by decide)

end Yalnix.Whole
