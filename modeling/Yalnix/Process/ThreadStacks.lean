import Yalnix.Process.ForkIsolation

/-!
# The stacks of a leader and its threads

`createThread` copies the pages from the one the stack pointer is in upwards, and shares all others.
The stack may have been deeper: its pages stay mapped when the stack pointer rises.

* `Moved` — what any step does to the page tables there are; `GroupStep.moved`.
* `Unshared` — two processes have no frame of their stacks in common that one of them can write to;
  kept by every step.
* `thread_stacks_private_iff` — when a new thread has a stack of its own.
-/

set_option autoImplicit false

namespace Yalnix

open RefCount (refs)
open Transition (Run)

variable {k k' k₁ : Kernel} {l : List Nat} {f p q c w o n i j sb : Nat} {a a' : Int} {b : UInt8}

/-! ## Steps and page tables -/

/-- Each entry of a running process keeps its frame and gains no write bit, or is clear, or has a
frame that no other entry maps; and where the break has come down, nothing is mapped. -/
structure Moved (k k' : Kernel) : Prop where
  sound : Sound k'
  max_pid : k.max_pid ≤ k'.max_pid
  running : ∀ q ≤ k.max_pid, Running k' q → Running k q
  entry : ∀ q ≤ k.max_pid, Running k' q → ∀ i < 128,
    ((k'.table q i).frame = (k.table q i).frame ∧
      ((k'.table q i).writable = true → (k.table q i).writable = true)) ∨
    (k'.table q i).valid = false ∨
    refs (slots k'.max_pid) (mapping k') (k'.table q i).pfn ≤ 1
  brk : ∀ q ≤ k.max_pid, Running k' q → ∀ i : Nat, i < 128 →
    brkIndex (k'.proc q).info ≤ i → brkIndex (k.proc q).info ≤ i ∨ (k'.table q i).valid = false

theorem Moved.of_proc (hs : Sound k') (hmax : k.max_pid ≤ k'.max_pid)
    (hproc : ∀ q, Running k' q → Running k q ∧ k'.proc q = k.proc q) : Moved k k' := by
  refine ⟨hs, hmax, fun q _ hq => (hproc q hq).1, fun q _ hq i _ => ?_, fun q _ hq i _ hi => ?_⟩
  · left
    unfold Kernel.table
    rw [(hproc q hq).2]
    exact ⟨rfl, id⟩
  · rw [(hproc q hq).2] at hi
    exact .inl hi

/-- Saving registers does not matter here. -/
theorem Moved.of_saveUserContext {context : UserContext}
    (h : Moved (saveUserContext p context k) k') : Moved k k' := by
  have hinfo : ∀ q, ((saveUserContext p context k).proc q).info = (k.proc q).info := by
    intro q
    rw [proc_saveUserContext]
  refine ⟨h.sound, h.max_pid, fun q hle hq => running_saveUserContext.mp (h.running q hle hq),
    fun q hle hq i hi => ?_, fun q hle hq i hi hb => ?_⟩
  · have := h.entry q hle hq i hi
    rwa [table_saveUserContext] at this
  · have := h.brk q hle hq i hi hb
    rwa [hinfo] at this

theorem Spawned.moved {u : PTE → PTE} {leader : Option PID}
    (hs : Spawned k k' p k.max_pid sb l u leader) (hu : ∀ e, (u e).frame = e.frame)
    (hw : ∀ e, (u e).writable = true → e.writable = true) (h' : Sound k') (hp : Running k p) :
    Moved k k' := by
  have hmax := hs.max_pid
  have hold : ∀ q ≤ k.max_pid, Running k' q → Running k q := by
    intro q hle hq
    rcases hs.running_old hp rfl hq with rfl | ⟨-, hr⟩
    · omega
    · exact hr
  refine ⟨h', by omega, hold, fun q hle hq i hi => ?_, fun q hle hq i hi hb => ?_⟩
  · refine .inl ⟨hs.frame_old hu hle i, fun hwq => ?_⟩
    by_cases hqp : q = p
    · subst hqp
      rw [hs.table_parent] at hwq
      split at hwq
      · exact hw _ hwq
      · exact hwq
    · rwa [hs.table_other hqp (by omega)] at hwq
  · left
    by_cases hqp : q = p
    · subst hqp
      rw [hs.parent] at hb
      exact hb
    · rwa [hs.other q hqp (by omega)] at hb

/-- A spawn that fails makes a descriptor at most. -/
theorem Sound.error_moved {leak : Nat → Nat} (h : Sound k) (hb : Bounded k leak l)
    (hframes : EnoughFrames k p) (herr : ∀ f₀ f₁ l₁, l = f₀ :: f₁ :: l₁ →
      k' = k ∨ ((k.max_pid : Int) < LONG_MAX ∧
        createProcessDescriptor true k = (some (k.max_pid + 1), k'))) : Moved k k' := by
  obtain ⟨hs, hold⟩ := h.spawn_error hb hframes herr
  refine .of_proc hs ?_ hold
  obtain ⟨f₀, f₁, l₁, rfl⟩ := hframes.two hb.1.list
  rcases herr f₀ f₁ l₁ rfl with rfl | ⟨hpid, hdesc⟩
  · exact le_rfl
  · obtain ⟨-, kd, hdesc', -, -, -, -, hmax, -, -⟩ := createProcessDescriptor_two rfl hb.1.list hpid
    rw [hdesc, Prod.mk.injEq] at hdesc'
    rw [hdesc'.2, hmax]
    omega

theorem Faulted.moved (h : Faulted p i k k₁) : Moved k k₁ := by
  have hinfo : ∀ q, (k₁.proc q).info = (k.proc q).info := by
    intro q
    by_cases hqp : q = p
    · rw [hqp, h.self]
    · rw [h.proc q hqp]
  refine ⟨h.sound, h.max_pid.ge, fun q _ hq => h.running.mp hq, fun q _ hq j hj => ?_,
    fun q _ hq j hj hb => .inl (by rwa [hinfo] at hb)⟩
  by_cases hqj : q = p ∧ j = i
  · obtain ⟨rfl, rfl⟩ := hqj
    rcases h.outcome with ⟨hsame, -⟩ | ⟨-, -, hone, -⟩
    · rw [hsame]
      exact .inl ⟨rfl, id⟩
    · rw [h.max_pid]
      exact .inr (.inr hone.le)
  · rw [h.table_other hqj]
    exact .inl ⟨rfl, id⟩

/-- A store changes no page table. -/
theorem Moved.poke {o : Nat} (h : Moved k k₁) (hs : Sound (k₁.poke f o b)) :
    Moved k (k₁.poke f o b) :=
  ⟨hs, h.max_pid, fun q hle hq => h.running q hle ⟨hq.pos, hq.le, hq.live⟩,
    fun q hle hq => h.entry q hle ⟨hq.pos, hq.le, hq.live⟩,
    fun q hle hq => h.brk q hle ⟨hq.pos, hq.le, hq.live⟩⟩

theorem Moved.refl (h : Sound k) : Moved k k := .of_proc h le_rfl fun _ hq => ⟨hq, rfl⟩

theorem Sound.write_moved {context : UserContext} (h : Sound k) (hp : Running k p)
    (hlo : VMEM_1_BASE ≤ a) (hhi : a < VMEM_1_LIMIT) (hrun : userWrite p context a b k = .ok k') :
    Moved k k' := by
  have hs := h.write hp hlo hhi hrun
  rcases userWrite_cases h hp hlo hhi hrun with ⟨-, -, hk⟩ | ⟨-, k₁, hf, ⟨hk, -⟩ | ⟨-, -, hk⟩⟩
  · rw [hk] at hs ⊢
    exact (Moved.refl h).poke hs
  · rw [hk]
    exact hf.moved
  · rw [hk] at hs ⊢
    exact hf.moved.poke hs

theorem Grown.moved (h : Grown p n k k₁) (hp : Running k p) : Moved k k₁ := by
  have hrunning : ∀ q, Running k₁ q → Running k q := by
    intro q hq
    by_cases hqp : q = p
    · rw [hqp]
      exact hp
    · exact ⟨hq.pos, h.max_pid ▸ hq.le, by rw [← h.proc q hqp]; exact hq.live⟩
  refine ⟨h.sound, h.max_pid.ge, fun q _ hq => hrunning q hq, fun q _ _ i hi => ?_,
    fun q _ _ i _ hb => .inl ?_⟩
  · by_cases hqp : q = p
    · subst hqp
      rcases h.entry i hi with hsame | hown
      · rw [hsame]
        exact .inl ⟨rfl, id⟩
      · rw [h.max_pid]
        exact .inr (.inr hown)
    · unfold Kernel.table
      rw [h.proc q hqp]
      exact .inl ⟨rfl, id⟩
  · by_cases hqp : q = p
    · rw [hqp, h.self] at hb
      rw [hqp]
      exact hb
    · rwa [h.proc q hqp] at hb

/-- A higher break: fewer pages count as the stack. -/
theorem Moved.setCurrentBrk {brk : Int} (h : Moved k k₁) (hs : Sound (k₁.modify p (setCurrentBrk brk)))
    (hinfo : (k₁.proc p).info = (k.proc p).info) (hle : (k.proc p).info.current_brk ≤ brk) :
    Moved k (k₁.modify p (setCurrentBrk brk)) := by
  have hrunning : ∀ q, Running (k₁.modify p (Yalnix.setCurrentBrk brk)) q → Running k₁ q := by
    intro q hq
    refine ⟨hq.pos, hq.le, ?_⟩
    have hlive := hq.live
    by_cases hqp : q = p
    · subst hqp
      rw [Kernel.proc_modify_self] at hlive
      exact hlive
    · rwa [Kernel.proc_modify, Function.update_of_ne hqp] at hlive
  refine ⟨hs, h.max_pid, fun q hqle hq => h.running q hqle (hrunning q hq), fun q hqle hq i hi => ?_,
    fun q hqle hq i hi hb => ?_⟩
  · rw [table_setCurrentBrk, mapping_setCurrentBrk]
    exact h.entry q hqle (hrunning q hq) i hi
  · rw [table_setCurrentBrk]
    by_cases hqp : q = p
    · subst hqp
      rw [Kernel.proc_modify_self] at hb
      simp only [Yalnix.setCurrentBrk, brkIndex, indexOfPage] at hb ⊢
      left
      omega
    · rw [Kernel.proc_modify, Function.update_of_ne hqp] at hb
      exact h.brk q hqle (hrunning q hq) i hi hb

theorem Lowered.moved {l' : List Nat} (h : Lowered p a k k' l') (hs : Sound k') : Moved k k' := by
  refine ⟨hs, h.max_pid.ge, fun q _ hq => h.running hq, fun q _ _ i _ => ?_, fun q _ _ i _ hb => ?_⟩
  · rcases h.entry_or q i with hclear | hsame
    · rw [hclear]
      exact .inr (.inl rfl)
    · rw [hsame]
      exact .inl ⟨rfl, id⟩
  · by_cases hqp : q = p
    · subst hqp
      rw [h.self] at hb
      by_cases hold : brkIndex (k.proc q).info ≤ i
      · exact .inl hold
      · right
        rw [h.entry, if_pos ⟨rfl, hb, by unfold brkIndex at hold; omega⟩]
        rfl
    · rw [h.proc q hqp] at hb
      exact .inl hb

theorem Sound.setBrk_moved {r : Int} (h : Sound k) (hp : Running k p) (ha : Roundable a)
    (hrun : setProcessBrk p a k = .ok (r, k')) : Moved k k' := by
  have hs := (h.setBrk hp ha hrun).1
  obtain ⟨leak, l, hc, h127⟩ := h.bounded
  rcases setProcessBrk_cases hrun with ⟨-, -, rfl⟩ | ⟨href, ⟨-, -, rfl⟩ |
    ⟨hlt, s, k₁, hinc, hend⟩ | ⟨hlt, k₁, hdec, -, rfl⟩⟩
  · exact .refl h
  · exact .refl h
  · obtain ⟨⟨i, hg⟩, -, -⟩ := increaseBrk_grown h hp ha hlt hinc
    have hm := hg.moved hp
    rcases hend with ⟨-, -, rfl⟩ | ⟨-, -, rfl⟩
    · exact hm
    · exact hm.setCurrentBrk hs (by rw [hg.self]) hlt.le
  · have hstart : (k.proc p).info.heap_start ≤ DOWN_TO_PAGE a := by
      have := (not_or.mp href).2
      omega
    obtain ⟨l', -, hlow, -⟩ := decreaseBrk_lowered hc ⟨hp.pos, hp.le⟩ h127 (h.process p hp).heap ha
      hstart hlt hdec
    exact hlow.moved hs

theorem Sound.exit_moved (h : Sound k) (hp : Running k p) (hrun : exitProcess p k = .ok k') :
    Moved k k' := by
  have hs := (h.exit hp hrun).1
  obtain ⟨leak, l, hb⟩ := h.bounded
  obtain ⟨l', -, hex, -⟩ := exitProcess_exited h hp hb hrun
  refine .of_proc hs hex.max_pid.ge fun q hq => ?_
  obtain ⟨hqp, hr⟩ := hex.running hq
  exact ⟨hr, hex.proc q hqp⟩

theorem shared_writable (e : PTE) (h : e.shared.writable = true) : e.writable = true := by
  cases hv : e.valid with
  | true =>
    rw [(shared_flags hv).1] at h
    cases h
  | false => rwa [shared_of_invalid hv] at h

/-- **What every step does to the page tables.** -/
theorem GroupStep.moved {op : GroupOp} (h : Sound k) (hstep : GroupStep k op k') : Moved k k' := by
  cases hstep with
  | fork running frames fit run =>
    rename_i p context m₁ m₂ r
    have hp : Running (saveUserContext p context k) p := running_saveUserContext.mpr running
    have hk := h.saveUserContext p context
    obtain ⟨leak, l, hb⟩ := hk.bounded
    obtain ⟨hs, ⟨rfl, -⟩ | ⟨-, -, -, _, _, -, hnew⟩⟩ := hk.fork hp frames fit.saved run
    · exact (hk.error_moved hb frames fun f₀ f₁ l₁ hl =>
        forkProcess_error (hl ▸ hb.1) run).of_saveUserContext
    · exact (hnew.moved shared_frame shared_writable hs hp).of_saveUserContext
  | createThread running frames fit run =>
    rename_i p context m₁ m₂ r
    have hp : Running (saveUserContext p context k) p := running_saveUserContext.mpr running
    have hk := h.saveUserContext p context
    obtain ⟨leak, l, hb⟩ := hk.bounded
    obtain ⟨hs, ⟨rfl, -⟩ | ⟨-, -, -, _, _, -, hnew⟩⟩ := hk.createThread hp frames fit.saved run
    · exact (hk.error_moved hb frames fun f₀ f₁ l₁ hl =>
        createThread_error (hl ▸ hb.1) run).of_saveUserContext
    · exact (hnew.moved (fun _ => rfl) (fun _ hw => hw) hs hp).of_saveUserContext
  | write running lo hi run => exact h.write_moved running lo hi run
  | setBrk running round run =>
    rename_i p context address r
    exact ((h.saveUserContext p context).setBrk_moved (running_saveUserContext.mpr running) round
      run).of_saveUserContext
  | exit running run => exact h.exit_moved running run

/-! ## Stacks with no frame in common -/

/-- No frame that `p` or `c` can write to is mapped above the break of both. -/
structure Unshared (p c : Nat) (k : Kernel) : Prop where
  sound : Sound k
  ne : p ≠ c
  leader : p ≤ k.max_pid
  thread : c ≤ k.max_pid
  apart : Running k p → Running k c → ∀ i j : Nat, i < 128 → j < 128 →
    brkIndex (k.proc p).info ≤ i → brkIndex (k.proc c).info ≤ j →
    ∀ f, (k.table p i).frame = some f → (k.table c j).frame = some f →
      (k.table p i).writable = false ∧ (k.table c j).writable = false

theorem Unshared.symm (h : Unshared p c k) : Unshared c p k :=
  ⟨h.sound, h.ne.symm, h.thread, h.leader, fun hc hp i j hi hj hbi hbj f hfi hfj =>
    (h.apart hp hc j i hj hi hbj hbi f hfj hfi).symm⟩

theorem Unshared.moved (h : Unshared p c k) (hm : Moved k k') : Unshared p c k' := by
  have hmax := hm.max_pid
  have hle := h.leader
  have hlec := h.thread
  refine ⟨hm.sound, h.ne, by omega, by omega, fun hp hc i j hi hj hbi hbj f hfi hfj => ?_⟩
  obtain ⟨hvi, rfl⟩ := frame_eq_some.mp hfi
  obtain ⟨hvj, hpfn⟩ := frame_eq_some.mp hfj
  have hbi' := (hm.brk p hle hp i hi hbi).resolve_right (by simp [hvi])
  have hbj' := (hm.brk c hlec hc j hj hbj).resolve_right (by simp [hvj])
  -- a frame of which there is one reference is not mapped twice
  have hone : ¬ refs (slots k'.max_pid) (mapping k') (k'.table p i).pfn ≤ 1 := by
    intro hone
    have hp0 := hp.pos
    have hc0 := hc.pos
    have := RefCount.eq_of_refs_le_one hone (x := (p, i)) (y := (c, j))
      (mem_slots.mpr ⟨hp.le, by simp only; omega⟩) (by rw [mapping_table (by omega) hi]; exact hfi)
      (mem_slots.mpr ⟨hc.le, by simp only; omega⟩) (by rw [mapping_table (by omega) hj]; exact hfj)
    exact h.ne (Prod.mk.inj this).1
  rcases hm.entry p hle hp i hi with ⟨hfp, hwp⟩ | hclear | hown
  · rcases hm.entry c hlec hc j hj with ⟨hfc, hwc⟩ | hclear | hown
    · rw [hfp] at hfi
      rw [hfc] at hfj
      obtain ⟨hp', hc'⟩ := h.apart (hm.running p hle hp) (hm.running c hlec hc) i j hi hj hbi' hbj' _
        hfi hfj
      exact ⟨Bool.eq_false_iff.mpr fun hw => absurd (hwp hw) (by simp [hp']),
        Bool.eq_false_iff.mpr fun hw => absurd (hwc hw) (by simp [hc'])⟩
    · rw [hclear] at hvj
      cases hvj
    · rw [hpfn] at hown
      exact absurd hown hone
  · rw [hclear] at hvi
    cases hvi
  · exact absurd hown hone

theorem Unshared.run {ops : List GroupOp} (h : Unshared p c k) (hrun : Run GroupStep k ops k') :
    Unshared p c k' :=
  hrun.invariant (fun _ _ _ hu hstep => hu.moved (hstep.moved hu.sound)) h

/-- The page of an address above the break. -/
theorem brkIndex_le {info : ProcessInfo} (hlo : VMEM_1_BASE ≤ a) (hbrk : info.current_brk ≤ a) :
    brkIndex info ≤ userPage a := by
  unfold brkIndex userPage indexOfPage VMEM_1_BASE
  unfold VMEM_1_BASE at hlo
  omega

/-- **A write of `w` to its stack changes no page of the stack of `o`.** -/
theorem Unshared.write {context : UserContext} (h : Unshared w o k) (hw : Running k w)
    (ho : Running k o) (hlo : VMEM_1_BASE ≤ a) (hhi : a < VMEM_1_LIMIT)
    (hbrk : (k.proc w).info.current_brk ≤ a) (hrun : userWrite w context a b k = .ok k')
    (hj : j < 128) (hbj : brkIndex (k.proc o).info ≤ j) : pageOf k' o j = pageOf k o j := by
  have hi := (trap_index hlo hhi).2
  have hbi := brkIndex_le hlo hbrk
  have hstore : ∀ {k₁ : Kernel}, Unshared w o k₁ → Running k₁ w → Running k₁ o →
      brkIndex (k₁.proc w).info ≤ userPage a → brkIndex (k₁.proc o).info ≤ j →
      (k₁.table w (userPage a)).valid = true → (k₁.table w (userPage a)).writable = true →
      pageOf (k₁.poke (k₁.table w (userPage a)).pfn (pageOffset a) b) o j = pageOf k₁ o j := by
    intro k₁ h₁ hw₁ ho₁ hbi₁ hbj₁ hv hwr
    rw [pageOf_poke, if_neg]
    intro hframe
    have := (h₁.apart hw₁ ho₁ _ _ hi hj hbi₁ hbj₁ _ (frame_eq_some.mpr ⟨hv, rfl⟩) hframe).1
    rw [hwr] at this
    cases this
  rcases userWrite_cases h.sound hw hlo hhi hrun with ⟨hv, hwr, hk⟩ | ⟨-, k₁, hf, hend⟩
  · rw [hk]
    exact hstore h hw ho hbi hbj hv hwr
  · have hfault : pageOf k₁ o j = pageOf k o j :=
      hf.page o ho.pos ho.le j hj fun he => h.ne he.1.symm
    rcases hend with ⟨rfl, -⟩ | ⟨hv, hwr, hk⟩
    · exact hfault
    · rw [hk, ← hfault]
      refine hstore (h.moved hf.moved) (hf.running.mpr hw) (hf.running.mpr ho) ?_ ?_ hv hwr
      · rw [hf.self]
        exact hbi
      · rw [hf.proc o h.ne.symm]
        exact hbj

/-! ## A new thread -/

/-- No frame that `p` can write to above its break is mapped in the table of `c`. -/
def StacksApart (k : Kernel) (p c : Nat) : Prop := ∀ i : Nat, i < 128 →
  brkIndex (k.proc p).info ≤ i → (k.table p i).valid = true → (k.table p i).writable = true →
  ∀ j < 128, (k.table c j).frame ≠ some (k.table p i).pfn

/-- Whatever happens, no write of `p` or `c` to its own stack changes what the other reads from its
stack. -/
def StacksKept (k : Kernel) (p c : Nat) : Prop := ∀ ops k₁, Run GroupStep k ops k₁ →
  Running k₁ p → Running k₁ c → ∀ w o, w = p ∧ o = c ∨ w = c ∧ o = p → ∀ context a b k₂,
  GroupStep k₁ (.write w context a b) k₂ → (k₁.proc w).info.current_brk ≤ a →
  ∀ a', (k₁.proc o).info.current_brk ≤ a' → load k₂ o a' = load k₁ o a'

/-- Between its break and page `sb`, `p` has no page that it can write to. -/
def NoStackBelow (k : Kernel) (p sb : Nat) : Prop := ∀ i : Nat, i < sb →
  brkIndex (k.proc p).info ≤ i → (k.table p i).valid = true → (k.table p i).writable = false

theorem Unshared.kept (h : Unshared p c k) : StacksKept k p c := by
  intro ops k₁ hrun hp hc w o hwo context a b k₂ hstep hbrk a' hbrk'
  have h₁ := h.run hrun
  have hwo' : Unshared w o k₁ ∧ Running k₁ w ∧ Running k₁ o := by
    rcases hwo with ⟨rfl, rfl⟩ | ⟨rfl, rfl⟩
    · exact ⟨h₁, hp, hc⟩
    · exact ⟨h₁.symm, hc, hp⟩
  obtain ⟨hu, hw, ho⟩ := hwo'
  have hs₂ := h₁.sound.step hstep
  have hmoved := hstep.moved h₁.sound
  cases hstep with
  | write running lo hi run =>
    by_cases ha' : VMEM_1_BASE ≤ a' ∧ a' < VMEM_1_LIMIT
    · have hle := ho.le
      have hmax := hmoved.max_pid
      rw [load_eq_pageOf hs₂.tables ⟨ho.pos, by omega⟩ ha'.1 ha'.2,
        load_eq_pageOf h₁.sound.tables ⟨ho.pos, ho.le⟩ ha'.1 ha'.2,
        hu.write hw ho lo hi hbrk run (trap_index ha'.1 ha'.2).2 (brkIndex_le ha'.1 hbrk')]
    · rw [load_of_not_range ha', load_of_not_range ha']

/-- The entries of the leader are as they were, and the thread has those below the stack pointer. -/
theorem Spawned.thread_tables (hs : Spawned k k' p k.max_pid sb l id (some p)) (hp : Running k p) :
    (∀ i, k'.table p i = k.table p i) ∧ (∀ i < sb, k'.table (k.max_pid + 1) i = k.table p i) ∧
    (k'.proc p).info = (k.proc p).info ∧ (k'.proc (k.max_pid + 1)).info = (k.proc p).info ∧
    Running k' p ∧ Running k' (k.max_pid + 1) := by
  obtain ⟨f₀, f₁, -, -, hchild⟩ := hs.child
  have hmax := hs.max_pid
  have hle := hp.le
  refine ⟨fun i => ?_, fun i hi => hs.below i hi, by rw [hs.parent]; rfl, by rw [hchild],
    ⟨hp.pos, by omega, by rw [hs.parent]; exact hp.live⟩, ⟨by omega, hmax.ge, by rw [hchild]⟩⟩
  rw [hs.table_parent]
  split
  · rfl
  · rfl

/-- **No frame is shared if no page of the stack lies below the stack pointer.** -/
theorem Spawned.thread_frames {leak : Nat → Nat} (hs : Spawned k k' p k.max_pid sb l id (some p))
    (h : Sound k) (hp : Running k p) (hb : Counted k (slots k.max_pid) leak l) (hno : NoStackBelow k p sb)
    (hi : i < 128) (hbrk : brkIndex (k.proc p).info ≤ i) (hj : j < 128)
    (hfi : (k.table p i).frame = some f) (hfj : (k'.table (k.max_pid + 1) j).frame = some f) :
    i = j ∧ j < sb ∧ (k.table p i).writable = false := by
  obtain ⟨hleader, hbelow, -⟩ := hs.thread_tables hp
  by_cases hlow : j < sb
  · rw [hbelow j hlow] at hfj
    obtain rfl := h.distinct p hp.pos hp.le i hi j hj f hfi hfj
    exact ⟨rfl, hlow, hno i hlow hbrk (frame_eq_some.mp hfi).1⟩
  · refine absurd (hs.mapping_above (i := j) (by omega) (by omega) ?_)
      (hb.entry_not_free ⟨hp.pos, hp.le⟩ hi hfi)
    rw [mapping_table (by omega) hj]
    exact hfj

section NewThread

variable {leak : Nat → Nat} (hs : Spawned k k' p k.max_pid sb l id (some p)) (h : Sound k)
  (hp : Running k p)

include hs h hp

theorem Spawned.stacksApart_iff (hb : Counted k (slots k.max_pid) leak l) (hsb : sb ≤ 128) :
    StacksApart k' p (k.max_pid + 1) ↔ NoStackBelow k p sb := by
  obtain ⟨hleader, hbelow, hinfo, -⟩ := hs.thread_tables hp
  constructor
  · intro hapart i hi hbrk hv
    refine Bool.eq_false_iff.mpr fun hw => ?_
    refine hapart i (by omega) (by rw [hinfo]; exact hbrk) (by rw [hleader]; exact hv)
      (by rw [hleader]; exact hw) i (by omega) ?_
    rw [hbelow i hi, hleader]
    exact frame_eq_some.mpr ⟨hv, rfl⟩
  · intro hno i hi hbrk hv hw j hj hframe
    rw [hinfo] at hbrk
    rw [hleader] at hv hw hframe
    have := (hs.thread_frames h hp hb hno hi hbrk hj (frame_eq_some.mpr ⟨hv, rfl⟩) hframe).2.2
    rw [hw] at this
    cases this

theorem Spawned.unshared (h' : Sound k') (hb : Counted k (slots k.max_pid) leak l)
    (hno : NoStackBelow k p sb) : Unshared p (k.max_pid + 1) k' := by
  obtain ⟨hleader, hbelow, hinfo, -⟩ := hs.thread_tables hp
  have hle := hp.le
  refine ⟨h', by omega, by rw [hs.max_pid]; omega, hs.max_pid.ge,
    fun _ _ i j hi hj hbi hbj f hfi hfj => ?_⟩
  rw [hinfo] at hbi
  rw [hleader] at hfi
  obtain ⟨rfl, hlow, hw⟩ := hs.thread_frames h hp hb hno hi hbi hj hfi hfj
  rw [hleader, hbelow i hlow]
  exact ⟨hw, hw⟩

/-- **What the leader writes to a page of its stack that was not copied, the thread reads.** -/
theorem Spawned.not_stacksKept (h' : Sound k') (hsb : sb ≤ 128) (hi : i < sb) (hbrk : brkIndex (k.proc p).info ≤ i)
    (hv : (k.table p i).valid = true) (hw : (k.table p i).writable = true) :
    ¬ StacksKept k' p (k.max_pid + 1) := by
  obtain ⟨hleader, hbelow, hinfo, hinfo', hp', hc'⟩ := hs.thread_tables hp
  have hi128 : i < 128 := by omega
  obtain ⟨hlo, hhi, hpage, hoff⟩ := pageAddress_spec hi128
  have haligned := (h.process p hp).heap.aligned
  have hle : (k.proc p).info.current_brk ≤ pageAddress i := by
    unfold brkIndex indexOfPage VMEM_1_BASE at hbrk
    unfold pageAddress VMEM_1_BASE
    omega
  have hframe : (k'.table (k.max_pid + 1) i).frame = some (k'.table p i).pfn := by
    rw [hbelow i hi, hleader]
    exact frame_eq_some.mpr ⟨hv, rfl⟩
  obtain ⟨b, k₂, hwrite, hload, hload'⟩ := thread_write_reaches_child (p := p) h' hc' hp' (.inl rfl)
    hi128 hi128 (by rw [hleader]; exact hv) (by rw [hleader]; exact hw) hframe
  intro hkept
  have hsame := hkept [] k' .nil hp' hc' p _ (.inl ⟨rfl, rfl⟩) firstContext (pageAddress i) (b + 1) k₂
    (.write hp' hlo hhi hwrite.run) (by rw [hinfo]; exact hle) (pageAddress i)
    (by rw [hinfo']; exact hle)
  rw [hload, hload', Option.some.injEq] at hsame
  simp at hsame

end NewThread

theorem NoStackBelow.saveUserContext (context : UserContext) :
    NoStackBelow (saveUserContext q context k) p sb ↔ NoStackBelow k p sb := by
  have hinfo : ((Yalnix.saveUserContext q context k).proc p).info = (k.proc p).info := by
    rw [proc_saveUserContext]
  unfold NoStackBelow
  rw [hinfo, table_saveUserContext]

/-- **A new thread has no frame of its leader's stack, and no later write to the stack of one of them
changes the stack of the other, exactly if the leader had no writable page between its break and the
page of its stack pointer.** -/
theorem thread_stacks_private_iff {k₀ : Kernel} {ops : List GroupOp} {context : UserContext}
    {child : Int} (h₀ : Sound k₀) (hrun : Run GroupStep k₀ ops k)
    (hthread : GroupStep k (.createThread p context child) k') (hchild : child ≠ ERROR) :
    (StacksApart k' p child.toNat ↔ NoStackBelow k p (stackIndex context.sp)) ∧
      (StacksKept k' p child.toNat ↔ NoStackBelow k p (stackIndex context.sp)) := by
  have h := (sound_of_run h₀ hrun).saveUserContext p context
  rw [← NoStackBelow.saveUserContext (q := p) context]
  cases hthread with
  | createThread running frames fit run =>
    have hp : Running (saveUserContext p context k) p := running_saveUserContext.mpr running
    obtain ⟨h', hout⟩ := h.createThread hp frames fit.saved run
    obtain ⟨herr, -⟩ | ⟨rfl, hleader, hsb, leak, l, hb, hs⟩ := hout
    · exact absurd herr hchild
    · have hstack : (stack_base p (saveUserContext p context k)).toNat = stackIndex context.sp := by
        rw [stack_base_saveUserContext]
        rfl
      rw [hstack] at hs hsb
      rw [Int.toNat_natCast]
      refine ⟨hs.stacksApart_iff h hp hb.1 hsb, fun hkept i hi hbrk hv => ?_, fun hno => ?_⟩
      · exact Bool.eq_false_iff.mpr fun hw => hs.not_stacksKept h hp h' hsb hi hbrk hv hw hkept
      · exact (hs.unshared h hp h' hb.1 hno).kept

/-- `thread_stacks_private_iff` for the first process, whose stack has one page. -/
theorem thread_stacks_private_machine : ∃ k, GroupStep (machine 3) (.createThread 1 firstContext 2) k ∧
    StacksApart k 1 2 ∧ StacksKept k 1 2 := by
  have hN : 3 ≤ 65536 := by omega
  obtain ⟨k, l, leak, hstep, -, -, -⟩ := machine_thread (N := 0) (by omega)
  have hno : NoStackBelow (machine 3) 1 (stackIndex firstContext.sp) := by
    intro i hi hbrk hv
    have hsp : stackIndex firstContext.sp = 127 := by
      unfold stackIndex
      rw [firstContext_sp]
      rfl
    have hindex : brkIndex (firstProcess.info) = 3 := by decide
    rw [proc_machine hN] at hbrk
    change brkIndex firstProcess.info ≤ _ at hbrk
    rw [table_machine hN] at hv
    simp only [firstProcess] at hv
    rw [if_neg (by omega), if_neg (by omega), if_neg (by omega), if_neg (by omega)] at hv
    cases hv
  obtain ⟨hapart, hkept⟩ := thread_stacks_private_iff (machine_sound hN) .nil hstep (by decide)
  exact ⟨k, hstep, hapart.mpr hno, hkept.mpr hno⟩

/-! ## A stack that was deeper -/

/-- A push that makes the stack grow by a page. -/
theorem push_step {r B : Nat} {context : UserContext} (h : Sound k) (hroom : Roomy k (r + 1) B)
    (hp : Running k p) (hlo : VMEM_1_BASE ≤ a) (hhi : a < VMEM_1_LIMIT)
    (hnew : (k.table p (userPage a)).valid = false) (hsp : DOWN_TO_PAGE context.sp ≤ a)
    (b : UInt8) : ∃ k' f, GroupStep k (.write p context a b) k' ∧
      Roomy k' r (B + 1) ∧ k'.max_pid = k.max_pid ∧
      k'.table p = Function.update (k.table p) (userPage a) (createPTEWithOptions data_options f) ∧
      (k'.proc p).thread_leader = (k.proc p).thread_leader ∧ (k'.proc p).info = (k.proc p).info ∧
      (k'.proc p).live = (k.proc p).live := by
  have hi := (trap_index hlo hhi).2
  have hcow := (h.tables p hp.pos hp.le _ hi).clear hnew
  have hp0 := hp.pos
  obtain ⟨leak, l, hc, hlen, hle⟩ := hroom.saveUserContext p context
  cases l with
  | nil => simp at hlen
  | cons f l =>
    have hrun : Running (saveUserContext p context k) p := running_saveUserContext.mpr hp
    have hx : (p, userPage a) ∈ slots (saveUserContext p context k).max_pid :=
      mem_slots.mpr ⟨hrun.le, by simp only; omega⟩
    obtain ⟨k₁, halloc, -, hcounted, htouch, htable⟩ := map_page hc (by omega) hi hx
    obtain ⟨hv, hw, -, -⟩ := data_flags f
    have hf0 := (hc.list.frame f List.mem_cons_self).1
    have hself := htouch.self
    have hnone : mapping (saveUserContext p context k) (p, userPage a) = none := by
      rw [mapping_table (by omega) hi, table_saveUserContext]
      exact frame_eq_none.mpr hnew
    have hupdate := htouch.mapping_update (by omega) hi htable
    rw [frame_eq_some.mpr ⟨hv, rfl⟩, pfn_create] at hupdate
    generalize hk₂ : k₁.modify p (Kernel.putEntry (userPage a) (createPTEWithOptions data_options f)) = k₂
      at hcounted htouch htable hself hupdate
    have htrap : handleMemoryTrap p a (saveUserContext p context k) = .ok k₂ := by
      rw [handleMemoryTrap_stack hlo hhi (by rw [table_saveUserContext]; exact hcow)
        (by simpa [saveUserContext] using hsp) hf0 halloc, hk₂]
    have hentry : k₂.table p (userPage a) = createPTEWithOptions data_options f := by
      rw [htable, Function.update_self]
    refine ⟨k₂.poke f (pageOffset a) b, f, .write hp hlo hhi ?_, ?_, htouch.max_pid, ?_, ?_, ?_, ?_⟩
    · unfold userWrite
      have hfail : store k p a b = none := by
        unfold store
        simp only [userEntry_of_range hlo hhi, hnew, Bool.false_and, Bool.false_eq_true, if_false]
      have hstore := store_of_writable (b := b) (p := p) (k := k₂) hlo hhi (by rw [hentry]; exact hv)
        (by rw [hentry]; exact hw)
      rw [hentry] at hstore
      simp only [hfail, trapMemory, htrap, bind, Except.bind, hstore, Option.getD_some, pfn_create]
    · have hfl : f ∉ l := (List.nodup_cons.mp hc.list.nodup).1
      refine ⟨_, l, (htouch.max_pid ▸ hcounted).poke hfl _ _, by simpa using hlen, fun g => ?_⟩
      change refs (slots k₂.max_pid) (mapping k₂) g + _ ≤ _
      rw [hnone, htouch.max_pid, hupdate]
      have hg := hle g
      have hup := RefCount.refs_update (m := mapping (saveUserContext p context k)) (f := g) hx (some f)
      rw [hnone] at hup
      simp only [reduceCtorEq, if_false] at hup ⊢
      split at hup
      · omega
      · omega
    · rw [table_poke, htable, table_saveUserContext]
    · change (k₂.proc p).thread_leader = _
      rw [hself, proc_saveUserContext]
    · change (k₂.proc p).info = _
      rw [hself, proc_saveUserContext]
    · change (k₂.proc p).live = _
      rw [hself, proc_saveUserContext]

/-- The stack pointer is in page 126. -/
def deepContext : UserContext := ⟨0x100000, 0x1FC100, fun _ => 0⟩

/-- **The first process pushes a second page, pops it and makes a thread: the two have that page in
common.** -/
theorem thread_after_deep_stack : ∃ k₁ k₂, Sound (machine 4) ∧
    Run GroupStep (machine 4) [.write 1 deepContext 0x1FC100 7] k₁ ∧
    GroupStep k₁ (.createThread 1 firstContext 2) k₂ ∧ ¬ StacksApart k₂ 1 2 ∧
    ¬ StacksKept k₂ 1 2 := by
  have hN : 4 ≤ 65536 := by omega
  have hpage : userPage 0x1FC100 = 126 := by decide
  have hclear : ((machine 4).table 1 126).valid = false := by
    rw [table_machine hN]
    rfl
  obtain ⟨k₁, f, hstep₁, hroom, hmax, htable, hleader, hinfo, hlive⟩ :=
    push_step (machine_sound hN) (machine_roomy hN)
      (running_machine hN) (show VMEM_1_BASE ≤ 0x1FC100 by decide) (by decide)
      (by rw [hpage]; exact hclear) (show DOWN_TO_PAGE deepContext.sp ≤ 0x1FC100 by decide) 7
  rw [max_pid_machine hN] at hmax
  rw [proc_machine hN] at hleader hinfo hlive
  have h₁ := (machine_sound hN).step hstep₁
  have hp₁ : Running k₁ 1 := ⟨by omega, by omega, hlive⟩
  obtain ⟨k₂, l₂, leak, hstep₂, hc, hs, -⟩ := h₁.createThread_step hroom hp₁ hleader
    (by rw [hmax]; unfold LONG_MAX; omega) firstContext_sp (by omega)
    (by have := stackPages_le (k := k₁) (p := 1); omega) (by omega)
  have hp : Running (saveUserContext 1 firstContext k₁) 1 := running_saveUserContext.mpr hp₁
  have hk := h₁.saveUserContext 1 firstContext
  have h₂ := h₁.step hstep₂
  obtain ⟨hv, hw, -, -⟩ := data_flags f
  have hentry : (saveUserContext 1 firstContext k₁).table 1 126 =
      createPTEWithOptions data_options f := by
    rw [table_saveUserContext, htable, hpage, Function.update_self]
  have hbrk : brkIndex ((saveUserContext 1 firstContext k₁).proc 1).info ≤ (126 : Nat) := by
    rw [proc_saveUserContext]
    change brkIndex (k₁.proc 1).info ≤ _
    rw [hinfo]
    decide
  have hapart := hs.stacksApart_iff hk hp hc (by omega)
  have hkept := hs.not_stacksKept hk hp h₂ (by omega) (i := 126) (by omega) hbrk
    (by rw [hentry]; exact hv) (by rw [hentry]; exact hw)
  change StacksApart k₂ 1 (k₁.max_pid + 1) ↔ _ at hapart
  change ¬ StacksKept k₂ 1 (k₁.max_pid + 1) at hkept
  rw [hmax] at hapart hkept hstep₂
  refine ⟨k₁, k₂, machine_sound hN, .single hstep₁, hstep₂, fun hap => ?_, hkept⟩
  have := hapart.mp hap 126 (by omega) hbrk (by rw [hentry]; exact hv)
  rw [hentry, hw] at this
  cases this

end Yalnix
