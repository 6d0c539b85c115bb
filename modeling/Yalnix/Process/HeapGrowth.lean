import Yalnix.Process.BrkBounds
import Yalnix.Process.Descriptors
import Yalnix.Process.Faults
import Yalnix.Lib.Transition

/-!
# Growth of the heap below a stack that has been deeper

A process calls `Brk` and takes traps on its stack, with stack pointers of its choice.  The pages its
stack has had stay mapped when the stack pointer goes up again, and so do the pages of a break that has
failed half-way.

* `HeapStep` — the calls and traps; `low` remembers how deep the stack has been.
* `HeapInv` — between the break and `low` no page is mapped; `HeapInv.step`.
* `heap_growth` — in a run of steps that are `Spacious`, a break that is raised replaces no page.
-/

set_option autoImplicit false

namespace Yalnix

open Transition (Run)

variable {k k' : Kernel} {p f : Nat} {a r status : Int} {is : List Int} {context : UserContext}

/-! ## Runs -/

/-- The kernel, and the lowest page the stack has had so far. -/
structure HeapState where
  kernel : Kernel
  low : Nat

inductive HeapEvent where
  | trap (context : UserContext) (address : Int)
  | brk (context : UserContext) (address : Int)

/-- A trap by which the stack of `p` grows, and a call of `Brk`. -/
inductive HeapStep (p : PID) : HeapState → HeapEvent → HeapState → Prop
  | trap {s : HeapState} {k' : Kernel} {context : UserContext} {a : Int} (region : InRegion1 a)
      (plain : (s.kernel.table p (userPage a)).cow = false) (above : DOWN_TO_PAGE context.sp ≤ a)
      (run : trapMemory p context a s.kernel = .ok k') :
      HeapStep p s (.trap context a) ⟨k', min s.low (userPage a)⟩
  | brk {s : HeapState} {k' : Kernel} {context : UserContext} {a r : Int}
      (run : setProcessBrk p a (saveUserContext p context s.kernel) = .ok (r, k')) :
      HeapStep p s (.brk context a) ⟨k', s.low⟩

/-- The call gets past the checks of `setProcessBrk` and raises the break. -/
def Raises (p : PID) (k : Kernel) (context : UserContext) (a : Int) : Prop :=
  ¬ brkRefused context.sp (k.proc p).info.heap_start a ∧ (k.proc p).info.current_brk < UP_TO_PAGE a

/-- There is room for what is asked: the address can be rounded, and a break that is raised stays below
the lowest page the stack has had, with a frame for every page or none at all. -/
def Spacious (p : PID) (s : HeapState) : HeapEvent → Prop
  | .trap _ _ => True
  | .brk context a => a ≤ LONG_MAX - 8191 ∧ (Raises p s.kernel context a →
      UP_TO_PAGE a ≤ VMEM_1_BASE + 8192 * s.low ∧
        (OutOfFrames s.kernel ∨ Enough (brkPages p a s.kernel).length s.kernel))

/-- A step with enough room. -/
structure SpaciousStep (p : PID) (s : HeapState) (e : HeapEvent) (t : HeapState) : Prop where
  step : HeapStep p s e t
  spacious : Spacious p s e

/-- The break is at a page boundary of region 1, and nothing is mapped between it and the lowest page
the stack has had. -/
structure HeapInv (p : PID) (s : HeapState) : Prop where
  process : p ≤ s.kernel.max_pid
  aligned : (s.kernel.proc p).info.current_brk % 8192 = 0
  lo : VMEM_1_BASE ≤ (s.kernel.proc p).info.heap_start
  le : (s.kernel.proc p).info.heap_start ≤ (s.kernel.proc p).info.current_brk
  hi : (s.kernel.proc p).info.current_brk ≤ VMEM_1_LIMIT
  gap : ∀ i : Nat, (s.kernel.proc p).info.current_brk ≤ VMEM_1_BASE + 8192 * i → i < s.low →
    (s.kernel.table p i).valid = false

/-- The frame has a count, and no page table maps it. -/
def Stray (k : Kernel) (f : Nat) : Prop :=
  0 < k.frc_table f ∧ ∀ q ≤ k.max_pid, ∀ i < 128, (k.table q i).frame ≠ some f

/-! ## One page after the other -/

theorem allocatePageFrame_frc (k : Kernel) : (allocatePageFrame k).2.frc_table =
    if k.frame_head.next = k.frame_head_addr then k.frc_table
    else Function.update k.frc_table (frameOf (allocatePageFrame k).1) 1 := by
  rw [allocatePageFrame_fst]
  unfold allocatePageFrame
  dsimp only
  split
  · rfl
  · split
    · rfl
    · rfl

/-- A page that is not mapped gets a frame, and no frame loses its page. -/
theorem stray_putEntry {frame : Nat} {k₁ : Kernel} {i : Nat} (hp : p ≤ k.max_pid) (hi : i < 128)
    (halloc : allocatePageFrame k = (frame, k₁)) (hframe : frame ≠ 0)
    (hinvalid : (k.table p i).valid = false)
    (hs : Stray (k₁.modify p (Kernel.putEntry i (createPTEWithOptions data_options (frameOf frame)))) f) :
    Stray k f := by
  have hproc := allocatePageFrame_proc k
  have hmax := (allocatePageFrame_elsewhere (fun _ => False) k).max_pid
  have hfst := allocatePageFrame_fst (k := k)
  have hfrc := allocatePageFrame_frc k
  rw [halloc] at hproc hmax hfst hfrc
  dsimp only at hproc hmax hfst hfrc
  have hempty : k.frame_head.next ≠ k.frame_head_addr := by
    intro h
    rw [if_pos h] at hfst
    exact hframe hfst
  rw [if_neg hempty] at hfrc
  have htable : k₁.table = k.table := by
    unfold Kernel.table
    rw [hproc]
  obtain ⟨hcount, hno⟩ := hs
  rw [Kernel.frc_modify, hfrc] at hcount
  rw [Kernel.max_pid_modify, hmax] at hno
  have hne : f ≠ frameOf frame := by
    rintro rfl
    refine hno p hp i hi ?_
    rw [Kernel.table_putEntry_self, Function.update_self]
    exact frame_eq_some.mpr ⟨(data_flags _).1, rfl⟩
  rw [Function.update_of_ne hne] at hcount
  refine ⟨hcount, fun q hq j hj hm => ?_⟩
  have hqj := hno q hq j hj
  by_cases hqp : q = p
  · subst hqp
    rw [Kernel.table_putEntry_self, htable] at hqj
    by_cases hji : j = i
    · subst hji
      rw [frame_eq_none.mpr hinvalid] at hm
      cases hm
    · rw [Function.update_of_ne hji] at hqj
      exact hqj hm
  · rw [Kernel.table_modify_ne (k := k₁) hqp, htable] at hqj
    exact hqj hm

/-- The whole loop, over pages that are not mapped. -/
theorem mapFrames_stray (hp : p ≤ k.max_pid) (hnd : is.Nodup)
    (hinvalid : ∀ j : Nat, (j : Int) ∈ is → (k.table p j).valid = false)
    (hrun : mapFrames p status is k = .ok (SUCCESS, k')) (hs : status ≠ SUCCESS) (hf : Stray k' f) :
    Stray k f := by
  induction is generalizing k with
  | nil =>
    cases hrun
    exact hf
  | cons i is ih =>
    obtain ⟨hi, hrest⟩ := List.nodup_cons.mp hnd
    unfold mapFrames at hrun
    have hproc := allocatePageFrame_proc k
    have hmax := (allocatePageFrame_elsewhere (fun _ => False) k).max_pid
    generalize halloc : allocatePageFrame k = result at hrun hproc hmax
    obtain ⟨frame, k₁⟩ := result
    dsimp only at hrun hproc hmax
    split at hrun
    · cases hrun
      exact absurd rfl hs
    · rename_i hframe
      by_cases hin : InTable i
      · obtain ⟨m, rfl, hm⟩ := hin.toNat
        rw [setEntry_inTable hin, Int.toNat_natCast] at hrun
        simp only [bind, Except.bind] at hrun
        refine stray_putEntry hp hm halloc hframe (hinvalid m List.mem_cons_self) ?_
        refine ih (by rw [Kernel.max_pid_modify, hmax]; exact hp) hrest (fun j hj => ?_) hrun
        have hjm : j ≠ m := by
          rintro rfl
          exact hi hj
        rw [Kernel.table_putEntry_self, Function.update_of_ne hjm]
        unfold Kernel.table
        rw [hproc]
        exact hinvalid j (List.mem_cons_of_mem _ hj)
      · rw [setEntry_outside hin] at hrun
        cases hrun

/-! ## One step -/

theorem HeapInv.saveUserContext {s : HeapState} (h : HeapInv p s) (context : UserContext) :
    HeapInv p ⟨Yalnix.saveUserContext p context s.kernel, s.low⟩ := by
  have hinfo : ((Yalnix.saveUserContext p context s.kernel).proc p).info = (s.kernel.proc p).info := by
    unfold Yalnix.saveUserContext
    rw [Kernel.proc_modify_self]
  refine ⟨h.process, ?_, ?_, ?_, ?_, ?_⟩
  · rw [hinfo]
    exact h.aligned
  · rw [hinfo]
    exact h.lo
  · rw [hinfo]
    exact h.le
  · rw [hinfo]
    exact h.hi
  · rw [hinfo, table_saveUserContext]
    exact h.gap

/-- The stack grows at or above `low`, which follows it. -/
theorem HeapInv.trap {s : HeapState} (h : HeapInv p s) (hr : InRegion1 a)
    (hcow : (s.kernel.table p (userPage a)).cow = false)
    (hsp : DOWN_TO_PAGE (s.kernel.proc p).user_context.sp ≤ a)
    (hrun : handleMemoryTrap p a s.kernel = .ok k') : HeapInv p ⟨k', min s.low (userPage a)⟩ := by
  have hmax := (handleMemoryTrap_elsewhere hrun).max_pid
  have hproc := allocatePageFrame_proc s.kernel
  generalize halloc : allocatePageFrame s.kernel = result at hproc
  obtain ⟨frame, k₁⟩ := result
  rw [handleMemoryTrap_grow hr hcow hsp halloc] at hrun
  split at hrun
  · cases hrun
  · cases hrun
    have hinfo : ((k₁.modify p (Kernel.putEntry (userPage a)
        (createPTEWithOptions data_options (frameOf frame)))).proc p).info = (s.kernel.proc p).info := by
      rw [Kernel.proc_modify_self, hproc]
      rfl
    refine ⟨hmax ▸ h.process, ?_, ?_, ?_, ?_, fun i hi hlow => ?_⟩
    · rw [hinfo]
      exact h.aligned
    · rw [hinfo]
      exact h.lo
    · rw [hinfo]
      exact h.le
    · rw [hinfo]
      exact h.hi
    · rw [hinfo] at hi
      dsimp only at hlow
      rw [Kernel.table_putEntry_self, Function.update_of_ne (by omega)]
      unfold Kernel.table
      rw [hproc]
      exact h.gap i hi (by omega)

/-- The pages of a break that is raised. -/
theorem HeapInv.mem_brkPages {s : HeapState} (h : HeapInv p s) (ha : Roundable a)
    (hup : (s.kernel.proc p).info.current_brk < UP_TO_PAGE a) (i : Int) : i ∈ brkPages p a s.kernel ↔
      ((s.kernel.proc p).info.current_brk - VMEM_1_BASE) / 8192 ≤ i ∧
        i < (UP_TO_PAGE a - VMEM_1_BASE) / 8192 := by
  have hlo := h.lo
  have hle := h.le
  have hhi := h.hi
  have haligned := h.aligned
  have hrange := UP_TO_PAGE_range ha
  obtain ⟨halo, hahi⟩ := ha
  unfold LONG_MAX at hahi
  unfold VMEM_1_LIMIT at hhi
  unfold VMEM_1_BASE at hlo
  unfold brkPages indexOfPage VMEM_1_BASE
  dsimp only
  rw [mem_pages, long_of_range (by omega) (by omega), long_of_range (by omega) (by omega)]
  omega

/-- None of them is mapped if they all lie below `low`. -/
theorem HeapInv.pages_invalid {s : HeapState} (h : HeapInv p s) (ha : Roundable a)
    (hup : (s.kernel.proc p).info.current_brk < UP_TO_PAGE a)
    (hlow : UP_TO_PAGE a ≤ VMEM_1_BASE + 8192 * s.low) (j : Nat)
    (hj : (j : Int) ∈ brkPages p a s.kernel) : (s.kernel.table p j).valid = false := by
  rw [h.mem_brkPages ha hup] at hj
  have hrange := UP_TO_PAGE_range ha
  have haligned := h.aligned
  unfold VMEM_1_BASE at hlow hj
  exact h.gap j (by unfold VMEM_1_BASE; omega) (by omega)

theorem HeapInv.brkPages_cons {s : HeapState} (h : HeapInv p s) (ha : Roundable a)
    (hup : (s.kernel.proc p).info.current_brk < UP_TO_PAGE a) : ∃ i is, brkPages p a s.kernel = i :: is := by
  have haligned := h.aligned
  have hrange := UP_TO_PAGE_range ha
  have hfirst : ((s.kernel.proc p).info.current_brk - VMEM_1_BASE) / 8192 ∈ brkPages p a s.kernel := by
    rw [h.mem_brkPages ha hup]
    unfold VMEM_1_BASE
    omega
  exact List.exists_cons_of_ne_nil (List.ne_nil_of_mem hfirst)

/-- Without a free frame the loop does nothing. -/
theorem mapFrames_none {i : Int} (h : OutOfFrames k) :
    mapFrames p status (i :: is) k = .ok (status, k) := by
  have halloc : allocatePageFrame k = (0, k) := if_pos h
  unfold mapFrames
  rw [halloc]
  rfl

/-- The break is raised. -/
theorem HeapInv.raise {s : HeapState} (h : HeapInv p s) (ha : Roundable a)
    (hup : (s.kernel.proc p).info.current_brk < UP_TO_PAGE a)
    (hrun : mapFrames p ERROR (brkPages p a s.kernel) s.kernel = .ok (SUCCESS, k')) :
    HeapInv p ⟨k'.modify p (setCurrentBrk (UP_TO_PAGE a)), s.low⟩ := by
  have hlo := h.lo
  have hle := h.le
  have hhi := h.hi
  have haligned := h.aligned
  have hrange := UP_TO_PAGE_range ha
  obtain ⟨hext, -⟩ := mapFrames_extends (by decide) hrun
  obtain ⟨-, hin⟩ := (mapFrames_success_iff (by decide)).mp ⟨k', hrun⟩
  have hmax := (mapFrames_elsewhere hrun).max_pid
  have hmem := h.mem_brkPages ha hup
  unfold VMEM_1_BASE at hlo hmem
  unfold VMEM_1_LIMIT at hhi
  have hlimit : UP_TO_PAGE a ≤ 0x200000 := by
    have hlast := hin ((UP_TO_PAGE a - 0x100000) / 8192 - 1) ((hmem _).mpr (by omega))
    unfold InTable MAX_PT_LEN at hlast
    omega
  have hinfo : ((k'.modify p (setCurrentBrk (UP_TO_PAGE a))).proc p).info =
      { (s.kernel.proc p).info with current_brk := UP_TO_PAGE a } := by
    rw [Kernel.proc_modify_self, hext.self]
    rfl
  refine ⟨?_, ?_, ?_, ?_, ?_, fun i hi hlow => ?_⟩
  · dsimp only
    rw [Kernel.max_pid_modify, hmax]
    exact h.process
  · rw [hinfo]
    dsimp only
    omega
  · rw [hinfo]
    exact h.lo
  · rw [hinfo]
    dsimp only
    omega
  · rw [hinfo]
    exact hlimit
  · rw [hinfo] at hi
    dsimp only at hi hlow
    unfold VMEM_1_BASE at hi
    have hoff : (i : Int) ∉ brkPages p a s.kernel := by
      rw [hmem]
      omega
    rw [table_setCurrentBrk, hext.other i hoff]
    exact h.gap i (by unfold VMEM_1_BASE; omega) hlow

/-- The break is lowered. -/
theorem HeapInv.lower {s : HeapState} (h : HeapInv p s) (ha : Roundable a)
    (hstart : (s.kernel.proc p).info.heap_start ≤ UP_TO_PAGE a)
    (hlt : UP_TO_PAGE a < (s.kernel.proc p).info.current_brk) (hrun : decreaseBrk p a s.kernel = .ok k') :
    HeapInv p ⟨k'.modify p (setCurrentBrk (UP_TO_PAGE a)), s.low⟩ := by
  have hlo := h.lo
  have hle := h.le
  have hhi := h.hi
  have haligned := h.aligned
  have hrange := UP_TO_PAGE_range ha
  have hmax := (decreaseBrk_elsewhere hrun).max_pid
  unfold VMEM_1_LIMIT at hhi
  unfold VMEM_1_BASE at hlo
  obtain ⟨i, hi⟩ : ∃ i : Nat, indexOfPage (UP_TO_PAGE a - VMEM_1_BASE) = i :=
    Int.eq_ofNat_of_zero_le (by unfold indexOfPage VMEM_1_BASE; omega)
  obtain ⟨m, hm⟩ : ∃ m : Nat, indexOfPage ((s.kernel.proc p).info.current_brk - UP_TO_PAGE a) = m :=
    Int.eq_ofNat_of_zero_le (by unfold indexOfPage; omega)
  have hi' := hi
  have hm' := hm
  unfold indexOfPage VMEM_1_BASE at hi'
  unfold indexOfPage at hm'
  obtain ⟨k₁, hdec, hself, htable⟩ := decreaseBrk_table (k := s.kernel) (p := p) (a := a) (i := i)
    (b := i + m)
    (by
      unfold VMEM_1_BASE
      rw [long_of_range (by omega) (by omega)]
      exact hi)
    (by
      rw [long_of_range (by omega) (by omega), hm]
      push_cast
      omega) (by omega) (by omega)
  rw [hrun, Except.ok.injEq] at hdec
  subst hdec
  have hinfo : ((k'.modify p (setCurrentBrk (UP_TO_PAGE a))).proc p).info =
      { (s.kernel.proc p).info with current_brk := UP_TO_PAGE a } := by
    rw [Kernel.proc_modify_self, hself]
    rfl
  refine ⟨?_, ?_, ?_, ?_, ?_, fun j hj hlow => ?_⟩
  · dsimp only
    rw [Kernel.max_pid_modify, hmax]
    exact h.process
  · rw [hinfo]
    dsimp only
    omega
  · rw [hinfo]
    exact h.lo
  · rw [hinfo]
    exact hstart
  · rw [hinfo]
    dsimp only
    unfold VMEM_1_LIMIT
    omega
  · rw [hinfo] at hj
    dsimp only at hj hlow
    unfold VMEM_1_BASE at hj
    rw [table_setCurrentBrk, htable j]
    split
    · rfl
    · exact h.gap j (by unfold VMEM_1_BASE; omega) hlow

/-- An address that is accepted lies above the heap's start, and can be rounded. -/
theorem HeapInv.roundable {s : HeapState} (h : HeapInv p s) (ha : a ≤ LONG_MAX - 8191)
    (hstart : ¬ DOWN_TO_PAGE a < (s.kernel.proc p).info.heap_start) : Roundable a := by
  have hlo := h.lo
  unfold VMEM_1_BASE at hlo
  unfold DOWN_TO_PAGE at hstart
  exact ⟨by omega, ha⟩

/-- How a call of `Brk` with enough room ends. -/
theorem HeapInv.brk_cases {s : HeapState} (h : HeapInv p s) (ha : a ≤ LONG_MAX - 8191)
    (hroom : Raises p s.kernel (s.kernel.proc p).user_context a →
      OutOfFrames s.kernel ∨ Enough (brkPages p a s.kernel).length s.kernel)
    (hrun : setProcessBrk p a s.kernel = .ok (r, k')) :
    k' = s.kernel ∨ Roundable a ∧
      ((s.kernel.proc p).info.current_brk < UP_TO_PAGE a ∧
        (∃ k₁, mapFrames p ERROR (brkPages p a s.kernel) s.kernel = .ok (SUCCESS, k₁) ∧
          k' = k₁.modify p (setCurrentBrk (UP_TO_PAGE a))) ∨
      UP_TO_PAGE a < (s.kernel.proc p).info.current_brk ∧
        (s.kernel.proc p).info.heap_start ≤ UP_TO_PAGE a ∧
        ∃ k₁, decreaseBrk p a s.kernel = .ok k₁ ∧ k' = k₁.modify p (setCurrentBrk (UP_TO_PAGE a))) := by
  rcases setProcessBrk_cases hrun with ⟨-, -, rfl⟩ | ⟨href, ⟨-, -, rfl⟩ | ⟨hlt, status, k₁, hinc, hend⟩ |
    ⟨hlt, k₁, hdec, -, rfl⟩⟩
  · exact .inl rfl
  · exact .inl rfl
  · obtain ⟨-, hstart⟩ := not_or.mp href
    have hround := h.roundable ha hstart
    rw [increaseBrk_eq] at hinc
    rcases hroom ⟨href, hlt⟩ with hnone | henough
    · -- the first allocation fails
      obtain ⟨i, is, hpages⟩ := h.brkPages_cons hround hlt
      rw [hpages, mapFrames_none hnone] at hinc
      cases hinc
      rcases hend with ⟨-, -, rfl⟩ | ⟨hne, -, -⟩
      · exact .inl rfl
      · exact absurd rfl hne
    · obtain rfl := mapFrames_enough henough hinc
      rcases hend with ⟨herr, -, -⟩ | ⟨-, -, rfl⟩
      · cases herr
      · exact .inr ⟨hround, .inl ⟨hlt, k₁, hinc, rfl⟩⟩
  · obtain ⟨-, hstart⟩ := not_or.mp href
    have hround := h.roundable ha hstart
    refine .inr ⟨hround, .inr ⟨hlt, ?_, k₁, hdec, rfl⟩⟩
    have hrange := UP_TO_PAGE_range hround
    unfold DOWN_TO_PAGE at hstart
    omega

theorem HeapInv.brk {s : HeapState} (h : HeapInv p s) (ha : a ≤ LONG_MAX - 8191)
    (hroom : Raises p s.kernel (s.kernel.proc p).user_context a →
      OutOfFrames s.kernel ∨ Enough (brkPages p a s.kernel).length s.kernel)
    (hrun : setProcessBrk p a s.kernel = .ok (r, k')) : HeapInv p ⟨k', s.low⟩ := by
  rcases h.brk_cases ha hroom hrun with rfl | ⟨hround, ⟨hlt, k₁, hinc, rfl⟩ | ⟨hlt, hstart, k₁, hdec, rfl⟩⟩
  · exact h
  · exact h.raise hround hlt hinc
  · exact h.lower hround hstart hlt hdec

/-- A break that is raised below `low` makes no frame stray. -/
theorem HeapInv.brk_stray {s : HeapState} (h : HeapInv p s) (ha : a ≤ LONG_MAX - 8191)
    (hraises : Raises p s.kernel (s.kernel.proc p).user_context a)
    (hlow : UP_TO_PAGE a ≤ VMEM_1_BASE + 8192 * s.low)
    (hroom : OutOfFrames s.kernel ∨ Enough (brkPages p a s.kernel).length s.kernel)
    (hrun : setProcessBrk p a s.kernel = .ok (r, k')) (hf : Stray k' f) : Stray s.kernel f := by
  rcases h.brk_cases ha (fun _ => hroom) hrun with rfl | ⟨hround, ⟨hlt, k₁, hinc, rfl⟩ | ⟨hlt, -⟩⟩
  · exact hf
  · refine mapFrames_stray h.process (nodup_pages _ _) (h.pages_invalid hround hlt hlow) hinc (by decide) ?_
    unfold Stray at hf ⊢
    rwa [Kernel.frc_modify, Kernel.max_pid_modify, table_setCurrentBrk] at hf
  · have := hraises.2
    omega

/-- Storing the context changes neither the break nor the table. -/
theorem raises_saveUserContext : Raises p (saveUserContext p context k)
    ((saveUserContext p context k).proc p).user_context a ↔ Raises p k context a := by
  unfold Raises saveUserContext
  rw [Kernel.proc_modify_self]

theorem brkPages_saveUserContext : brkPages p a (saveUserContext p context k) = brkPages p a k := by
  unfold brkPages saveUserContext
  rw [Kernel.proc_modify_self]

theorem enough_saveUserContext {n : Nat} : Enough n (saveUserContext p context k) ↔ Enough n k :=
  enough_modify _

/-- **A step with enough room keeps the pages between heap and stack unmapped.** -/
theorem HeapInv.step {s t : HeapState} {e : HeapEvent} (h : HeapInv p s) (hstep : SpaciousStep p s e t) :
    HeapInv p t := by
  obtain ⟨hstep, hroom⟩ := hstep
  cases hstep with
  | @trap k' context a region plain above run =>
    refine (h.saveUserContext context).trap region ?_ ?_ run
    · rw [table_saveUserContext]
      exact plain
    · dsimp only
      unfold Yalnix.saveUserContext
      rw [Kernel.proc_modify_self]
      exact above
  | @brk k' context a r run =>
    refine (h.saveUserContext context).brk hroom.1 (fun hraises => ?_) run
    rw [brkPages_saveUserContext, enough_saveUserContext]
    exact (hroom.2 (raises_saveUserContext.mp hraises)).2

/-! ## The heap grows -/

/-- **In every run with enough room, a break that is raised is given pages that were not mapped, and no
frame that is counted loses its page.** -/
theorem heap_growth {s₀ s t : HeapState} {es : List HeapEvent} (h₀ : HeapInv p s₀)
    (hrun : Run (SpaciousStep p) s₀ es s) (hstep : SpaciousStep p s (.brk context a) t)
    (hraises : Raises p s.kernel context a) :
    (∀ j : Nat, (j : Int) ∈ brkPages p a s.kernel → (s.kernel.table p j).valid = false) ∧
      ∀ f, Stray t.kernel f → Stray s.kernel f := by
  have h : HeapInv p s := hrun.invariant (fun _ _ _ h hstep => h.step hstep) h₀
  obtain ⟨hstep, hroom⟩ := hstep
  obtain ⟨hlow, henough⟩ := hroom.2 hraises
  have hround := h.roundable hroom.1 (not_or.mp hraises.1).2
  have hinvalid := h.pages_invalid hround hraises.2 hlow
  refine ⟨hinvalid, fun f hf => ?_⟩
  cases hstep with
  | @brk k' _ _ r run =>
    have hsave := (h.saveUserContext context).brk_stray hroom.1 (raises_saveUserContext.mpr hraises) hlow
      (by rw [brkPages_saveUserContext, enough_saveUserContext]; exact henough) run hf
    unfold Stray at hsave ⊢
    rwa [table_saveUserContext] at hsave

theorem heapInv_machine : HeapInv 1 ⟨machine 2, 127⟩ := by
  refine ⟨by decide, by decide, by decide, by decide, by decide, fun i hi hlow => ?_⟩
  have hbrk : ((machine 2).proc 1).info.current_brk = 0x106000 := by decide
  unfold VMEM_1_BASE at hi
  dsimp only at hi hlow ⊢
  rw [hbrk] at hi
  rw [table_machine (by omega)]
  unfold firstProcess
  dsimp only
  rw [if_neg (by omega), if_neg (by omega), if_neg (by omega), if_neg (by omega)]
  rfl

/-- The stack has grown by one page, down to 0x1FC000. -/
def deeper : HeapState :=
  ⟨((trapMemory 1 ⟨0x100000, 0x1FDF00, fun _ => 0⟩ 0x1FDF00 (machine 2)).toOption.getD (machine 2)), 126⟩

/-- `heap_growth` where the break is then raised by a page. -/
theorem heap_growth_first : ∃ t, SpaciousStep 1 deeper (.brk firstContext 0x107000) t ∧
    ∀ f, Stray t.kernel f → Stray deeper.kernel f := by
  have htrap : SpaciousStep 1 ⟨machine 2, 127⟩ (.trap ⟨0x100000, 0x1FDF00, fun _ => 0⟩ 0x1FDF00) deeper :=
    ⟨.trap (by decide) (by decide) (by decide) rfl, True.intro⟩
  have hraises : Raises 1 deeper.kernel firstContext 0x107000 := ⟨by decide, by decide⟩
  have hroom : Spacious 1 deeper (.brk firstContext 0x107000) :=
    ⟨by decide, fun _ => ⟨by decide, .inr ⟨by decide, True.intro⟩⟩⟩
  obtain ⟨t, hstep⟩ : ∃ t, HeapStep 1 deeper (.brk firstContext 0x107000) t := ⟨_, .brk rfl⟩
  exact ⟨t, ⟨hstep, hroom⟩, (heap_growth heapInv_machine (.single htrap) ⟨hstep, hroom⟩ hraises).2⟩

/-- **The stack has been down to page 3 and has gone up again: the break is raised over the page, whose
frame keeps its count and is mapped nowhere.** -/
theorem heap_over_stack : HeapInv 1 ⟨machine 2, 127⟩ ∧ ∃ s t,
    Run (HeapStep 1) ⟨machine 2, 127⟩ [.trap ⟨0x100000, 0x106000, fun _ => 0⟩ 0x106000] s ∧
      HeapStep 1 s (.brk firstContext 0x108000) t ∧ Raises 1 s.kernel firstContext 0x108000 ∧
      (3 : Int) ∈ brkPages 1 0x108000 s.kernel ∧ (s.kernel.table 1 3).valid = true ∧
      Stray t.kernel 301 ∧ ¬ Stray s.kernel 301 := by
  refine ⟨heapInv_machine, _, _, .single (.trap (by decide) (by decide) (by decide) rfl), .brk rfl, ?_, ?_,
    ?_, ?_, ?_⟩
  · exact ⟨by decide, by decide⟩
  · decide
  · decide
  · exact ⟨by decide, by decide +kernel⟩
  · rintro ⟨-, hno⟩
    exact hno 1 (by decide) 3 (by decide) (by decide)

end Yalnix
