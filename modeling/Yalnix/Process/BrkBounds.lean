import Yalnix.Process.BrkErrors
import Yalnix.Process.Teardown

/-!
# Where the break ends up

* `roundUp` — the end of a page, without overflow.
* `BrkKept` — what a call of `setProcessBrk` owes its caller: a new break between heap and stack, with
  the heap mapped below it, or an error and the old break.
* `brk_bounds_iff` — the calls that deliver.
-/

set_option autoImplicit false

namespace Yalnix

variable {k k' : Kernel} {p i b : Nat} {a : Int}

/-- The next multiple of the page size. -/
def roundUp (a : Int) : Int := (a + 8191) / 8192 * 8192

theorem UP_TO_PAGE_eq_roundUp (h : Roundable a) : UP_TO_PAGE a = roundUp a := by
  rw [UP_TO_PAGE_range h]
  unfold roundUp
  omega

/-- The sum in `UP_TO_PAGE` wraps for the last page before 2^31, and the result is the least `long`. -/
theorem UP_TO_PAGE_wrap (hlo : LONG_MAX - 8191 < a) (hhi : a ≤ LONG_MAX) : UP_TO_PAGE a = -2147483648 := by
  unfold LONG_MAX at hlo hhi
  have hlong : long (a + 8191) = a + 8191 - 4294967296 := long_eq (by omega) (by omega) (by omega)
  unfold UP_TO_PAGE DOWN_TO_PAGE
  rw [hlong]
  omega

/-! ## The promise -/

/-- The heap ends below the page of the stack pointer, and all of it is in region 1. -/
structure BreakBounds (P : Process) : Prop where
  lo : VMEM_1_BASE ≤ P.info.heap_start
  le : P.info.heap_start ≤ P.info.current_brk
  lt : P.info.current_brk < DOWN_TO_PAGE P.user_context.sp
  hi : P.user_context.sp ≤ VMEM_1_LIMIT

/-- Every page of the heap is mapped. -/
def HeapMapped (P : Process) : Prop :=
  ∀ i : Nat, indexOfPage (P.info.heap_start - VMEM_1_BASE) ≤ i →
    VMEM_1_BASE + 8192 * i < P.info.current_brk → (P.page_table i).valid = true

/-- The break is where the address asks for it. -/
structure BrkMoved (a : Int) (P P' : Process) : Prop where
  rounded : P'.info.current_brk = roundUp a
  above : P.info.heap_start ≤ P'.info.current_brk
  below : P'.info.current_brk < DOWN_TO_PAGE P.user_context.sp
  mapped : HeapMapped P → HeapMapped P'

/-- A result 0 means that the break has been moved, any other that it has not. -/
def BrkKept (p : PID) (a : Int) (k : Kernel) : Except Stop (Int × Kernel) → Prop
  | .ok r => if r.1 = 0 then BrkMoved a (k.proc p) (r.2.proc p)
      else r.1 = ERROR ∧ (r.2.proc p).info.current_brk = (k.proc p).info.current_brk
  | .error _ => False

@[simp] theorem brkKept_zero : BrkKept p a k (.ok (0, k')) ↔ BrkMoved a (k.proc p) (k'.proc p) := by
  dsimp only [BrkKept]
  rw [if_pos rfl]

@[simp] theorem brkKept_error : BrkKept p a k (.ok (ERROR, k')) ↔
    (k'.proc p).info.current_brk = (k.proc p).info.current_brk := by
  dsimp only [BrkKept]
  rw [if_neg (by decide)]
  exact and_iff_right rfl

/-- A break inside a page is to be raised by more than that page: the number of pages is rounded down,
and the last one is left out. -/
structure Uneven (p : PID) (a : Int) (k : Kernel) : Prop where
  accepted : ¬ brkRefused (k.proc p).user_context.sp (k.proc p).info.heap_start a
  inside : (k.proc p).info.current_brk % 8192 ≠ 0
  above : (k.proc p).info.current_brk + 8192 ≤ UP_TO_PAGE a
  enough : Enough (brkPages p a k).length k
  mapped : HeapMapped (k.proc p)
  last : (k.table p (userPage (UP_TO_PAGE a - 8192))).valid = false

/-! ## The four ways through the call -/

/-- The pages of a higher break are those from the old break on, and lie in the table. -/
theorem BreakBounds.brkPages (h : BreakBounds (k.proc p))
    (hlt : (k.proc p).info.current_brk < UP_TO_PAGE a)
    (hsp : UP_TO_PAGE a < DOWN_TO_PAGE (k.proc p).user_context.sp) (i : Int) :
    i ∈ Yalnix.brkPages p a k ↔ ((k.proc p).info.current_brk - VMEM_1_BASE) / 8192 ≤ i ∧
      i < ((k.proc p).info.current_brk - VMEM_1_BASE) / 8192 +
        (UP_TO_PAGE a - (k.proc p).info.current_brk) / 8192 := by
  have hlo := h.lo
  have hle := h.le
  have hhi := h.hi
  unfold DOWN_TO_PAGE at hsp
  unfold VMEM_1_LIMIT at hhi
  unfold VMEM_1_BASE at hlo
  unfold Yalnix.brkPages indexOfPage VMEM_1_BASE
  dsimp only
  rw [mem_pages, long_of_range (by omega) (by omega), long_of_range (by omega) (by omega)]
  omega

/-- Raising the break. -/
theorem brk_raised_iff (h : BreakBounds (k.proc p)) (ha : Roundable a)
    (href : ¬ brkRefused (k.proc p).user_context.sp (k.proc p).info.heap_start a)
    (hlt : (k.proc p).info.current_brk < UP_TO_PAGE a) :
    BrkKept p a k (setProcessBrk p a k) ↔ ¬ Uneven p a k := by
  have hlo := h.lo
  have hle := h.le
  have hhi := h.hi
  obtain ⟨hsp, hstart⟩ := not_or.mp href
  have hmem := h.brkPages hlt (by omega)
  have hround := UP_TO_PAGE_eq_roundUp ha
  have hup := UP_TO_PAGE_range ha
  unfold DOWN_TO_PAGE at hsp hstart
  have htable : ∀ i ∈ Yalnix.brkPages p a k, InTable i := by
    intro i hi
    rw [hmem] at hi
    unfold VMEM_1_BASE at hlo hi
    unfold VMEM_1_LIMIT at hhi
    unfold InTable MAX_PT_LEN
    omega
  obtain ⟨r, k₁, hloop⟩ : ∃ r k₁, mapFrames p ERROR (Yalnix.brkPages p a k) k = .ok (r, k₁) :=
    mapFrames_total htable
  obtain ⟨hext, hall⟩ := mapFrames_extends (by decide) hloop
  by_cases henough : Enough (Yalnix.brkPages p a k).length k
  · obtain rfl := mapFrames_enough henough hloop
    rw [setProcessBrk_raise href hlt hloop, brkKept_zero, Kernel.proc_modify_self, hext.self]
    -- the pages below the new break, and those the loop has mapped
    have hvalid : HeapMapped (k.proc p) → ∀ i : Nat,
        indexOfPage ((k.proc p).info.heap_start - VMEM_1_BASE) ≤ i → VMEM_1_BASE + 8192 * i < UP_TO_PAGE a →
        (k₁.table p i).valid = true ∨ VMEM_1_BASE + 8192 * i = UP_TO_PAGE a - 8192 ∧
          (k.proc p).info.current_brk % 8192 ≠ 0 ∧ (k.proc p).info.current_brk + 8192 ≤ UP_TO_PAGE a ∧
          k₁.table p i = k.table p i := by
      intro hmapped i hi hiu
      by_cases hold : VMEM_1_BASE + 8192 * i < (k.proc p).info.current_brk
      · exact .inl (hext.valid i (hmapped i hi hold))
      · by_cases hnew : (i : Int) ∈ Yalnix.brkPages p a k
        · exact .inl (hall rfl i hnew)
        · have hother := hext.other i hnew
          rw [hmem] at hnew
          unfold VMEM_1_BASE at *
          refine .inr ⟨by omega, by omega, by omega, hother⟩
    constructor
    · rintro hmoved hun
      have hlast := hmoved.mapped hun.mapped (userPage (UP_TO_PAGE a - 8192))
      have habove := hun.above
      have hinside := hun.inside
      have hoff : ((userPage (UP_TO_PAGE a - 8192) : Nat) : Int) ∉ Yalnix.brkPages p a k := by
        rw [hmem]
        unfold userPage indexOfPage VMEM_1_BASE
        unfold VMEM_1_BASE at hlo
        omega
      have hfalse := hun.last
      rw [← hext.other _ hoff] at hfalse
      have htrue : (k₁.table p (userPage (UP_TO_PAGE a - 8192))).valid = true := by
        refine hlast ?_ ?_
        · simp only [setCurrentBrk]
          unfold userPage indexOfPage VMEM_1_BASE
          unfold VMEM_1_BASE at hlo
          omega
        · simp only [setCurrentBrk]
          unfold userPage indexOfPage VMEM_1_BASE
          unfold VMEM_1_BASE at hlo
          omega
      rw [hfalse] at htrue
      cases htrue
    · intro hun
      refine ⟨hround, ?_, ?_, fun hmapped i hi hiu => ?_⟩
      · simp only [setCurrentBrk]
        omega
      · simp only [setCurrentBrk]
        unfold DOWN_TO_PAGE
        omega
      · simp only [setCurrentBrk] at hi hiu ⊢
        rcases hvalid hmapped i hi hiu with hv | ⟨hilast, hinside, habove, hsame⟩
        · exact hv
        · cases hv : (k₁.table p i).valid with
          | true => rfl
          | false =>
            refine absurd ⟨href, hinside, habove, henough, hmapped, ?_⟩ hun
            rw [show userPage (UP_TO_PAGE a - 8192) = i by
              unfold userPage indexOfPage VMEM_1_BASE
              unfold VMEM_1_BASE at hilast
              omega, ← hsame]
            exact hv
  · obtain rfl := mapFrames_short henough hloop
    rw [setProcessBrk_short href hlt hloop]
    refine iff_of_true ?_ fun hun => henough hun.enough
    rw [brkKept_error, hext.self]

/-- `decreaseBrk` comes to an end, whatever the entries it clears. -/
theorem decreaseBrk_table (hnew : indexOfPage (long (UP_TO_PAGE a - VMEM_1_BASE)) = (i : Int))
    (hfreed : indexOfPage (long ((k.proc p).info.current_brk - UP_TO_PAGE a)) = (b : Int) - i)
    (hib : i ≤ b) (hb : b ≤ 128) : ∃ k', decreaseBrk p a k = .ok k' ∧
      k'.proc p = { k.proc p with page_table := k'.table p } ∧
      ∀ j, k'.table p j = if i ≤ j ∧ j < b then PTE.clear else k.table p j := by
  unfold decreaseBrk
  simp only [hnew, hfreed]
  have hloop := Loop.forRange_ok (a := 0) (b := (b : Int) - i) (s := k)
    (P := fun m k' => k'.proc p = { k.proc p with page_table := k'.table p } ∧
      ∀ j : Nat, k'.table p j = if i ≤ j ∧ (j : Int) < i + m then PTE.clear else k.table p j)
    (g := fun m k => do
      let pte_index := (i : Int) + m
      let entry ← k.entry p pte_index
      let k := freePageFrame (pageAtIndex entry.pfn) k
      k.setEntry p pte_index (createPTEWithOptions 0 0))
    (by omega) ⟨rfl, fun j => by rw [if_neg (by omega)]⟩ ?_
  · obtain ⟨k', hrun, hself, htable⟩ := hloop
    refine ⟨k', hrun, hself, fun j => ?_⟩
    rw [htable j]
    simp only [show (j : Int) < i + ((b : Int) - i) ↔ j < b by omega]
  · rintro m k₁ hm hmb ⟨hself, htable⟩
    obtain ⟨m, rfl⟩ := Int.eq_ofNat_of_zero_le hm
    have him : i + m < 128 := by omega
    have hcast : (i : Int) + (m : Int) = ((i + m : Nat) : Int) := by push_cast; rfl
    simp only [hcast, Kernel.entry_ok him, bind, Except.bind, Kernel.setEntry_ok him, create_zero]
    have hproc := freePageFrame_proc (pageAtIndex (k₁.table p (i + m)).pfn) k₁
    generalize freePageFrame (pageAtIndex (k₁.table p (i + m)).pfn) k₁ = k₂ at hproc
    have hsame : k₂.table p = k₁.table p := by
      unfold Kernel.table
      rw [hproc]
    refine ⟨_, rfl, ?_, fun j => ?_⟩
    · rw [Kernel.table_putEntry_self, hsame, Kernel.proc_modify_self, hproc, hself]
      rfl
    · rw [Kernel.table_putEntry_self, hsame]
      by_cases hj : j = i + m
      · rw [hj, Function.update_self, if_pos (by omega)]
      · rw [Function.update_of_ne hj, htable j]
        simp only [show (j : Int) < i + ((m : Int) + 1) ↔ (j : Int) < i + m by omega]

/-- Lowering the break. -/
theorem brk_lowered (h : BreakBounds (k.proc p)) (ha : Roundable a)
    (href : ¬ brkRefused (k.proc p).user_context.sp (k.proc p).info.heap_start a)
    (hlt : UP_TO_PAGE a < (k.proc p).info.current_brk) : BrkKept p a k (setProcessBrk p a k) := by
  have hlo := h.lo
  have hle := h.le
  have hhi := h.hi
  have hbrk := h.lt
  obtain ⟨hsp, hstart⟩ := not_or.mp href
  have hround := UP_TO_PAGE_eq_roundUp ha
  have hup := UP_TO_PAGE_range ha
  unfold DOWN_TO_PAGE at hbrk
  unfold DOWN_TO_PAGE at hstart
  unfold VMEM_1_BASE at hlo
  unfold VMEM_1_LIMIT at hhi
  obtain ⟨i, hi⟩ : ∃ i : Nat, indexOfPage (UP_TO_PAGE a - VMEM_1_BASE) = i :=
    Int.eq_ofNat_of_zero_le (by unfold indexOfPage VMEM_1_BASE; omega)
  obtain ⟨m, hm⟩ : ∃ m : Nat, indexOfPage ((k.proc p).info.current_brk - UP_TO_PAGE a) = m :=
    Int.eq_ofNat_of_zero_le (by unfold indexOfPage; omega)
  have hi' := hi
  have hm' := hm
  unfold indexOfPage VMEM_1_BASE at hi'
  unfold indexOfPage at hm'
  obtain ⟨k₁, hdec, hself, htable⟩ := decreaseBrk_table (k := k) (p := p) (a := a) (i := i) (b := i + m)
    (by
      unfold VMEM_1_BASE
      rw [long_of_range (by omega) (by omega)]
      exact hi)
    (by
      rw [long_of_range (by omega) (by omega), hm]
      push_cast
      omega) (by omega) (by omega)
  have hrun : setProcessBrk p a k = .ok (0, k₁.modify p (setCurrentBrk (UP_TO_PAGE a))) := by
    unfold setProcessBrk
    dsimp only
    rw [if_neg hsp, if_neg (by unfold DOWN_TO_PAGE; omega), if_neg (by omega), if_neg (by omega), hdec]
    rfl
  rw [hrun, brkKept_zero, Kernel.proc_modify_self, hself]
  refine ⟨hround, ?_, ?_, fun hmapped j hj hju => ?_⟩
  · simp only [setCurrentBrk]
    omega
  · simp only [setCurrentBrk]
    omega
  · simp only [setCurrentBrk] at hj hju ⊢
    rw [htable j, if_neg (by unfold VMEM_1_BASE at hju; omega)]
    exact hmapped j hj (by omega)

/-- The sum has wrapped: nothing is given back, and the break is stored below all memory. -/
theorem brk_wrapped (h : BreakBounds (k.proc p)) (hlo : LONG_MAX - 8191 < a) (hhi : a ≤ LONG_MAX) :
    setProcessBrk p a k = .ok (0, k.modify p (setCurrentBrk (-2147483648))) := by
  have hstart := h.lo
  have hle := h.le
  have hbrk := h.lt
  have hsp := h.hi
  have hup := UP_TO_PAGE_wrap hlo hhi
  unfold LONG_MAX at hlo hhi
  unfold VMEM_1_BASE at hstart
  unfold VMEM_1_LIMIT at hsp
  unfold DOWN_TO_PAGE at hbrk
  have hlong : long ((k.proc p).info.current_brk - -2147483648) =
      (k.proc p).info.current_brk - 2147483648 := long_eq (by omega) (by omega) (by omega)
  have hdec : decreaseBrk p a k = .ok k := by
    unfold decreaseBrk
    dsimp only
    rw [hup, hlong]
    exact Loop.forRange_empty (by unfold indexOfPage; omega)
  unfold setProcessBrk
  dsimp only
  rw [if_neg (by unfold DOWN_TO_PAGE; omega), if_neg (by unfold DOWN_TO_PAGE; omega), if_neg (by omega),
    if_neg (by omega), hdec, hup]
  rfl

/-- **`setProcessBrk` keeps the break between heap and stack, and tells the truth, exactly for the
addresses that can be rounded up, unless a break inside a page is raised beyond that page.** -/
theorem brk_bounds_iff (h : BreakBounds (k.proc p)) (hlo : -2147483648 ≤ a) (hhi : a ≤ LONG_MAX) :
    BrkKept p a k (setProcessBrk p a k) ↔ a ≤ LONG_MAX - 8191 ∧ ¬ Uneven p a k := by
  by_cases ha : a ≤ LONG_MAX - 8191
  · have hround : Roundable a := ⟨hlo, ha⟩
    rw [and_iff_right ha]
    by_cases href : brkRefused (k.proc p).user_context.sp (k.proc p).info.heap_start a
    · refine iff_of_true ?_ fun hun => hun.accepted href
      rw [setProcessBrk_refused href, brkKept_error]
    · by_cases hlt : (k.proc p).info.current_brk < UP_TO_PAGE a
      · exact brk_raised_iff h hround href hlt
      · refine iff_of_true ?_ fun hun => by
          have := hun.above
          omega
        by_cases heq : UP_TO_PAGE a = (k.proc p).info.current_brk
        · obtain ⟨hsp, hstart⟩ := not_or.mp href
          have hrun : setProcessBrk p a k = .ok (0, k) := by
            unfold setProcessBrk
            dsimp only
            rw [if_neg hsp, if_neg hstart, if_pos heq]
          rw [hrun, brkKept_zero]
          refine ⟨?_, h.le, h.lt, id⟩
          rw [← heq, UP_TO_PAGE_eq_roundUp hround]
        · exact brk_lowered h hround href (by omega)
  · refine iff_of_false ?_ fun hno => ha hno.1
    rw [brk_wrapped h (by omega) hhi, brkKept_zero]
    intro hmoved
    have hstart := h.lo
    have habove := hmoved.above
    rw [Kernel.proc_modify_self] at habove
    simp only [setCurrentBrk] at habove
    unfold VMEM_1_BASE at hstart
    omega

theorem breakBounds_first : BreakBounds ((machine 1).proc 1) := ⟨by decide, by decide, by decide, by decide⟩

/-- `brk_bounds_iff` for a break raised by a page, and for one lowered to the start of the heap. -/
theorem brk_bounds_iff_first :
    (BrkKept 1 0x107000 (machine 1) (setProcessBrk 1 0x107000 (machine 1)) ∧
      BrkKept 1 0x104000 (machine 1) (setProcessBrk 1 0x104000 (machine 1))) ∧
    (setProcessBrk 1 0x107000 (machine 1)).toOption.map
      (fun r => (r.1, (r.2.proc 1).info.current_brk)) = some (0, 0x108000) ∧
    (setProcessBrk 1 0x104000 (machine 1)).toOption.map
      (fun r => (r.1, (r.2.proc 1).info.current_brk)) = some (0, 0x104000) := by
  have hkept : ∀ a, -2147483648 ≤ a → a ≤ LONG_MAX - 8191 → BrkKept 1 a (machine 1)
      (setProcessBrk 1 a (machine 1)) := fun a hlo hhi =>
    (brk_bounds_iff breakBounds_first hlo (by omega)).mpr ⟨hhi, fun hun => hun.inside (by decide)⟩
  exact ⟨⟨hkept _ (by decide) (by decide), hkept _ (by decide) (by decide)⟩, by decide +kernel,
    by decide +kernel⟩

/-- **For the address 0x7FFFFFFF the call returns 0, and the break is at -2^31.** -/
theorem brk_below_memory : BreakBounds ((machine 1).proc 1) ∧
    ∃ k', setProcessBrk 1 0x7FFFFFFF (machine 1) = .ok (0, k') ∧
      (k'.proc 1).info.current_brk = -2147483648 ∧
      ¬ BrkKept 1 0x7FFFFFFF (machine 1) (.ok (0, k')) := by
  refine ⟨breakBounds_first, _, brk_wrapped breakBounds_first (by decide) (by decide), ?_, ?_⟩
  · rw [Kernel.proc_modify_self]
    rfl
  · rw [brkKept_zero, Kernel.proc_modify_self]
    intro hmoved
    have habove := hmoved.above
    revert habove
    decide

end Yalnix
