import Yalnix.Process.ForkSuccess

/-!
# A machine to run on

`machine N`: a kernel of one text page, one process with a text, a data, a heap and a stack page,
and `N` free frames, put on the list by `freePageFrame` itself.  The runs on fixed inputs of the
other modules start here.
-/

set_option autoImplicit false

namespace Yalnix

open RefCount (refs)

/-- The first process: four pages, and the two frames of the kernel stack. -/
def firstProcess : Process where
  live := true
  pcb := true
  pcb_frames := fun i => pageAtIndex (126 + i)
  thread_leader := none
  page_table := fun i =>
    if i = 0 then createPTEWithOptions text_options 200
    else if i = 1 then createPTEWithOptions data_options 201
    else if i = 2 then createPTEWithOptions data_options 202
    else if i = 127 then createPTEWithOptions data_options 203
    else PTE.clear
  user_context := ⟨0x100000, 0x1FFF00, fun _ => 0⟩
  info := ⟨0x102000, 0x104000, 0x106000⟩

/-- How many slots of the first process and of the kernel refer to a frame. -/
def firstRefs (f : Nat) : Nat :=
  (if f = 0 then 1 else 0) + (if f = 126 then 1 else 0) + (if f = 127 then 1 else 0) +
    (if f = 200 then 1 else 0) + (if f = 201 then 1 else 0) + (if f = 202 then 1 else 0) +
    if f = 203 then 1 else 0

/-- The machine while the frames from `300 + n` to `300 + N - 1` are still taken. -/
def machineFrom (N : Nat) : Nat → Kernel
  | 0 =>
    { pmem := fun _ _ => 0
      frame_head := ⟨0x1000, 0x1000⟩
      frame_head_addr := 0x1000
      frc_table := fun f => (firstRefs f + if 300 ≤ f ∧ f < 300 + N then 1 else 0 : Nat)
      kernel_page_table := fun i =>
        if i = 0 then createPTEWithOptions text_options 0
        else if 126 ≤ i then createPTEWithOptions data_options i
        else PTE.clear
      max_pid := 1
      proc := fun p => if p = 1 then firstProcess else newProcess }
  | n + 1 => freePageFrame (pageAtIndex (300 + n)) (machineFrom N n)

def machine (N : Nat) : Kernel := machineFrom N N

theorem firstRefs_le (f : Nat) : firstRefs f ≤ 1 := by
  unfold firstRefs
  split_ifs <;> omega

theorem firstRefs_large {f : Nat} (h : 300 ≤ f) : firstRefs f = 0 := by
  unfold firstRefs
  split_ifs <;> omega

/-- The slots in use. -/
def firstSlots : Finset Slot := {(0, 0), (1, 128), (1, 129), (1, 0), (1, 1), (1, 2), (1, 127)}

theorem refs_first (N f : Nat) :
    refs (slots 1) (mapping (machineFrom N 0)) f = firstRefs f := by
  have hsub : firstSlots ⊆ slots 1 := by decide
  rw [RefCount.refs_eq_of_subset hsub]
  · unfold firstSlots firstRefs
    rw [RefCount.refs_insert (by decide), RefCount.refs_insert (by decide),
      RefCount.refs_insert (by decide), RefCount.refs_insert (by decide),
      RefCount.refs_insert (by decide), RefCount.refs_insert (by decide),
      ← insert_empty_eq, RefCount.refs_insert (by decide)]
    have h₀ : mapping (machineFrom N 0) (0, 0) = some 0 := rfl
    have h₁ : mapping (machineFrom N 0) (1, 128) = some 126 := by
      simp [mapping, machineFrom, firstProcess]
    have h₂ : mapping (machineFrom N 0) (1, 129) = some 127 := by
      simp [mapping, machineFrom, firstProcess]
    have h₃ : mapping (machineFrom N 0) (1, 0) = some 200 := rfl
    have h₄ : mapping (machineFrom N 0) (1, 1) = some 201 := rfl
    have h₅ : mapping (machineFrom N 0) (1, 2) = some 202 := rfl
    have h₆ : mapping (machineFrom N 0) (1, 127) = some 203 := rfl
    have hempty : refs ∅ (mapping (machineFrom N 0)) f = 0 := rfl
    simp only [h₀, h₁, h₂, h₃, h₄, h₅, h₆, hempty, Option.some.injEq, eq_comm (b := f)]
    omega
  · rintro ⟨q, j⟩ hx hx' hm
    rw [mem_slots] at hx
    simp only [firstSlots, Finset.mem_insert, Finset.mem_singleton, Prod.mk.injEq, not_or] at hx'
    have hq : q = 0 ∨ q = 1 := by simp only at hx; omega
    rcases hq with rfl | rfl
    · have hj : j ≠ 0 := by omega
      by_cases h123 : j < 123
      · have : mapping (machineFrom N 0) (0, j) = none := by
          simp only [mapping, machineFrom, if_pos, h123, hj, if_false,
            show ¬ 126 ≤ j by omega, frame_clear]
        rw [this] at hm
        cases hm
      · have : mapping (machineFrom N 0) (0, j) = none := by
          simp only [mapping, if_pos, h123, if_false]
        rw [this] at hm
        cases hm
    · have hj : j < 128 ∧ j ≠ 0 ∧ j ≠ 1 ∧ j ≠ 2 ∧ j ≠ 127 := by simp only at hx; omega
      have : mapping (machineFrom N 0) (1, j) = none := by
        rw [mapping_table (by omega) hj.1]
        simp only [Kernel.table, machineFrom, if_pos, firstProcess, hj, if_false, frame_clear]
      rw [this] at hm
      cases hm

/-- The state while frames are being put on the list. -/
structure Filling (N n : Nat) : Prop where
  list : ∃ l, FreeList (machineFrom N n) l ∧ l.length = n ∧ (∀ f ∈ l, 300 ≤ f ∧ f < 300 + n) ∧
    Counts (machineFrom N n).frc_table
      (fun f => firstRefs f + if 300 + n ≤ f ∧ f < 300 + N then 1 else 0) l ∧
    Quiet (machineFrom N 0) (machineFrom N n) l

theorem filling (N : Nat) (hN : N ≤ 65536) : ∀ n ≤ N, Filling N n
  | 0, _ => by
    refine ⟨[], ⟨Ring.isRing_nil.mpr ⟨frameHeap_next_head, frameHeap_prev_head⟩, by simp,
      (by decide : (4096 : Nat) < 2 ^ 32)⟩, rfl, by simp, ⟨by simp, fun f => ?_⟩, Quiet.refl _ _⟩
    have := firstRefs_le f
    have hlarge : 300 ≤ f → firstRefs f = 0 := firstRefs_large
    have hle : firstRefs f + (if 300 ≤ f ∧ f < 300 + N then 1 else 0) ≤ 1 := by
      split
      · rename_i h
        rw [hlarge h.1]
      · omega
    change ((firstRefs f + if 300 ≤ f ∧ f < 300 + N then 1 else 0 : Nat) : Int) = _
    exact (char_of_range (by omega) (by omega)).symm
  | n + 1, hn => by
    obtain ⟨l, hlist, hlen, hmem, hcounts, hquiet⟩ := (filling N hN n (by omega)).list
    have hframe : IsFrame (machineFrom N n) (300 + n) := by
      unfold IsFrame pageAtIndex
      rw [hquiet.addr]
      refine ⟨by omega, by omega, ?_⟩
      change _ ≠ 4096
      omega
    have hr : firstRefs (300 + n) + (if 300 + n ≤ 300 + n ∧ 300 + n < 300 + N then 1 else 0) = 1 := by
      rw [firstRefs_large (by omega), if_pos (by omega)]
    obtain ⟨l', hl', hlist', hcounts', hquiet'⟩ := freePageFrame_spec hlist hcounts hframe
      hr.ge (by rw [hr]; omega)
      (t := fun f => firstRefs f + if 300 + (n + 1) ≤ f ∧ f < 300 + N then 1 else 0) fun g => by
        split_ifs <;> omega
    rw [if_pos hr] at hl'
    subst hl'
    refine ⟨(300 + n) :: l, hlist', by simp [hlen], fun f hf => ?_, hcounts',
      (hquiet.mono fun g hg => List.mem_cons_of_mem _ hg).trans hquiet'⟩
    rcases List.mem_cons.mp hf with rfl | hf
    · omega
    · have := hmem f hf
      omega

/-- **The machine is exact, and has `N` free frames.** -/
theorem machine_counted {N : Nat} (hN : N ≤ 65536) :
    ∃ l, Counted (machine N) (slots 1) (fun _ => 0) l ∧ l.length = N ∧
      Quiet (machineFrom N 0) (machine N) l := by
  obtain ⟨l, hlist, hlen, hmem, hcounts, hquiet⟩ := (filling N hN N le_rfl).list
  have hrefs : ∀ f, refs (slots 1) (mapping (machine N)) f = firstRefs f := fun f => by
    rw [machine, hquiet.mapping, refs_first]
  refine ⟨l, ⟨hlist, hcounts.congr fun f => ?_, fun x hx hx0 f hf => ?_⟩, hlen, hquiet⟩
  · rw [hrefs f, if_neg (by omega)]
  · have hpos := RefCount.refs_pos hx hf
    rw [hrefs f] at hpos
    have hf0 : f ≠ 0 := by
      rintro rfl
      have h1 : refs (slots 1) (mapping (machine N)) 0 ≤ 1 := by
        rw [hrefs 0]
        exact firstRefs_le 0
      have h00 : mapping (machine N) (0, 0) = some 0 := by
        rw [machine, hquiet.mapping]
        rfl
      have := RefCount.eq_of_refs_le_one h1 hx hf (mem_slots.mpr (by simp)) h00
      exact hx0 (by rw [this])
    have hle : f < 300 := by
      by_contra hlt
      rw [firstRefs_large (by omega)] at hpos
      omega
    unfold IsFrame pageAtIndex
    rw [machine, hquiet.addr]
    refine ⟨by omega, by omega, ?_⟩
    change _ ≠ 4096
    omega

theorem proc_machine {N : Nat} (hN : N ≤ 65536) :
    (machine N).proc = fun p => if p = 1 then firstProcess else newProcess := by
  obtain ⟨l, -, -, hquiet⟩ := machine_counted hN
  exact hquiet.proc

theorem max_pid_machine {N : Nat} (hN : N ≤ 65536) : (machine N).max_pid = 1 := by
  obtain ⟨l, -, -, hquiet⟩ := machine_counted hN
  exact hquiet.max_pid

theorem table_machine {N : Nat} (hN : N ≤ 65536) : (machine N).table 1 = firstProcess.page_table := by
  rw [Kernel.table, proc_machine hN]
  rfl

theorem running_machine {N : Nat} (hN : N ≤ 65536) : Running (machine N) 1 :=
  ⟨by decide, by rw [max_pid_machine hN], by rw [proc_machine hN]; rfl⟩

theorem tables_firstProcess : ∀ i, (firstProcess.page_table i).Ok := by
  intro i
  simp only [firstProcess]
  split_ifs
  · exact ⟨fun h => absurd h (by decide), fun _ => by decide⟩
  · exact ⟨fun h => absurd h (by decide), fun _ => by decide⟩
  · exact ⟨fun h => absurd h (by decide), fun _ => by decide⟩
  · exact ⟨fun h => absurd h (by decide), fun _ => by decide⟩
  · exact ⟨fun _ => by decide, fun h => absurd h (by decide)⟩

end Yalnix
