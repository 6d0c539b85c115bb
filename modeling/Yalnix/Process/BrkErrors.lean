import Yalnix.Memory.Supply
import Yalnix.Process.Boot
import Yalnix.Process.Break

/-!
# A break that is refused, and one that fails half-way

`setProcessBrk` returns `ERROR` for two reasons: the address is out of bounds, or the frames run out.

* `setProcessBrk_raise`, `setProcessBrk_short` — a higher break, with and without enough frames.
* `Unchanged`, `brk_error_iff` — which of the errors leave everything as it was.
-/

set_option autoImplicit false

namespace Yalnix

variable {k k' k₁ : Kernel} {l l' : List Nat} {f p : Nat} {a : Int}

/-! ## Raising the break -/

/-- An address out of bounds. -/
theorem setProcessBrk_refused (href : brkRefused (k.proc p).user_context.sp (k.proc p).info.heap_start a) :
    setProcessBrk p a k = .ok (ERROR, k) := by
  unfold setProcessBrk
  dsimp only
  rcases href with hsp | hstart
  · exact if_pos hsp
  · split
    · rfl
    · rfl

/-- There is a frame for every page: the break is raised. -/
theorem setProcessBrk_raise (href : ¬ brkRefused (k.proc p).user_context.sp (k.proc p).info.heap_start a)
    (hlt : (k.proc p).info.current_brk < UP_TO_PAGE a)
    (hmap : mapFrames p ERROR (brkPages p a k) k = .ok (SUCCESS, k₁)) :
    setProcessBrk p a k = .ok (0, k₁.modify p (setCurrentBrk (UP_TO_PAGE a))) := by
  obtain ⟨hsp, hstart⟩ := not_or.mp href
  unfold setProcessBrk
  dsimp only
  rw [if_neg hsp, if_neg hstart, if_neg (by omega), if_pos hlt, increaseBrk_eq, hmap]
  rfl

/-- There is not: the break stays, and the pages that have got a frame keep it. -/
theorem setProcessBrk_short (href : ¬ brkRefused (k.proc p).user_context.sp (k.proc p).info.heap_start a)
    (hlt : (k.proc p).info.current_brk < UP_TO_PAGE a)
    (hmap : mapFrames p ERROR (brkPages p a k) k = .ok (ERROR, k₁)) :
    setProcessBrk p a k = .ok (ERROR, k₁) := by
  obtain ⟨hsp, hstart⟩ := not_or.mp href
  unfold setProcessBrk
  dsimp only
  rw [if_neg hsp, if_neg hstart, if_neg (by omega), if_pos hlt, increaseBrk_eq, hmap]
  rfl

/-- **How `ERROR` comes about: the address was refused, or the loop ran out of frames.** -/
theorem setProcessBrk_error (hrun : setProcessBrk p a k = .ok (ERROR, k')) :
    brkRefused (k.proc p).user_context.sp (k.proc p).info.heap_start a ∧ k' = k ∨
      mapFrames p ERROR (brkPages p a k) k = .ok (ERROR, k') := by
  rcases setProcessBrk_cases hrun with ⟨href, -, rfl⟩ | ⟨-, ⟨-, h0, -⟩ | ⟨-, s, k₁, hinc, hend⟩ |
    ⟨-, k₁, -, h0, -⟩⟩
  · exact .inl ⟨href, rfl⟩
  · cases h0
  · rcases hend with ⟨rfl, -, rfl⟩ | ⟨-, h0, -⟩
    · right
      rw [← increaseBrk_eq]
      exact hinc
    · cases h0
  · cases h0

/-! ## What an error leaves behind -/

/-- A frame that can be allocated. -/
def FreeFrame (k : Kernel) (f : Nat) : Prop := ∃ l, FreeList k l ∧ f ∈ l

theorem FreeList.freeFrame_iff (h : FreeList k l) : FreeFrame k f ↔ f ∈ l := by
  constructor
  · rintro ⟨l', hl', hf⟩
    rwa [h.unique hl']
  · intro hf
    exact ⟨l, h, hf⟩

/-- The break, the page table, the counts and the set of free frames are as before. -/
structure Unchanged (p : PID) (k k' : Kernel) : Prop where
  brk : (k'.proc p).info.current_brk = (k.proc p).info.current_brk
  table : k'.table p = k.table p
  counts : k'.frc_table = k.frc_table
  free : ∀ f, FreeFrame k' f ↔ FreeFrame k f

theorem Unchanged.refl (p : PID) (k : Kernel) : Unchanged p k k := ⟨rfl, rfl, rfl, fun _ => Iff.rfl⟩

/-- Frames that have run out were there before. -/
theorem not_unchanged (h : FreeList k l) (h' : FreeList k' []) (hl : l ≠ []) : ¬ Unchanged p k k' := by
  intro hu
  obtain ⟨f, hf⟩ := List.exists_mem_of_ne_nil l hl
  have hfree := (hu.free f).mpr (h.freeFrame_iff.mpr hf)
  rw [h'.freeFrame_iff] at hfree
  cases hfree

/-- **An error of `setProcessBrk` leaves everything as it was exactly if the address was refused, or no
frame at all was free.** -/
theorem brk_error_iff (h : FreeList k l) (hrun : setProcessBrk p a k = .ok (ERROR, k')) :
    Unchanged p k k' ↔
      brkRefused (k.proc p).user_context.sp (k.proc p).info.heap_start a ∨ l = [] := by
  rcases setProcessBrk_error hrun with ⟨href, rfl⟩ | hloop
  · exact ⟨fun _ => .inl href, fun _ => .refl p k'⟩
  · obtain ⟨hfill, hstatus⟩ := mapFrames_spec h hloop
    have hshort : l.length < (brkPages p a k).length := by
      by_contra hle
      rw [if_pos (by omega)] at hstatus
      cases hstatus
    constructor
    · intro hu
      right
      by_contra hl
      refine not_unchanged h ?_ hl hu
      have hlist := hfill.list
      rwa [List.drop_eq_nil_of_le (by omega)] at hlist
    · rintro (href | rfl)
      · -- the loop is not reached
        rw [setProcessBrk_refused href] at hrun
        cases hrun
        exact .refl p k
      · have hsame : k' = k := by
          cases his : brkPages p a k with
          | nil => simp [his] at hshort
          | cons i is =>
            rw [his] at hloop
            unfold mapFrames at hloop
            rw [allocatePageFrame_nil h] at hloop
            cases hloop
            rfl
        rw [hsame]
        exact .refl p k

/-- `brk_error_iff` without a free frame. -/
theorem brk_error_iff_full : Unchanged 1 (machine 0) (machine 0) := by
  obtain ⟨l, hc, hlen, -⟩ := machine_counted (N := 0) (by omega)
  have hrun : setProcessBrk 1 0x10A000 (machine 0) = .ok (ERROR, machine 0) := rfl
  exact (brk_error_iff hc.list hrun).mpr (.inr (List.length_eq_zero_iff.mp hlen))

/-- **With one free frame a break two pages higher fails, and the first of the pages is mapped.** -/
theorem brk_half_way : ∃ k', setProcessBrk 1 0x10A000 (machine 1) = .ok (ERROR, k') ∧
    ((machine 1).table 1 3).valid = false ∧ (k'.table 1 3).valid = true ∧ ¬ Unchanged 1 (machine 1) k' := by
  obtain ⟨l, hc, hlen, -⟩ := machine_counted (N := 1) (by omega)
  have hproc : (machine 1).proc 1 = firstProcess := by
    rw [proc_machine (by omega)]
    rfl
  have hpages : brkPages 1 0x10A000 (machine 1) = pages 3 2 := by
    unfold brkPages
    rw [hproc]
    decide
  have htable := table_machine (N := 1) (by omega)
  obtain ⟨r, k', hloop⟩ : ∃ r k', mapFrames 1 ERROR (pages 3 2) (machine 1) = .ok (r, k') :=
    mapFrames_total (by decide)
  obtain ⟨hfill, hr⟩ := mapFrames_spec hc.list hloop
  rw [hlen, if_neg (by decide)] at hr
  subst hr
  obtain ⟨f, -, hentry⟩ := hfill.filled 3 (by rw [hlen]; decide)
  refine ⟨k', ?_, by rw [htable]; decide, by rw [hentry]; exact (data_flags f).1, fun hu => ?_⟩
  · refine setProcessBrk_short ?_ ?_ (by rw [hpages]; exact hloop)
    · rw [hproc]
      decide
    · rw [hproc]
      decide
  · have := congrFun hu.table 3
    rw [hentry, htable] at this
    have hv := congrArg PTE.valid this
    rw [(data_flags f).1] at hv
    revert hv
    decide

end Yalnix
