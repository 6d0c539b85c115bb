import Yalnix.Memory.Frames
import Yalnix.Lib.Transition

/-!
# The page-frame allocator as a list

What `allocatePageFrame` and `freePageFrame` are for: a list of free frames and a count for each
frame, with nothing said of windows and links.

* `Allocator` — the free frames, in the order in which they are handed out, and the counts.
* `FrameStep.refines`, `frames_refine` — every run of the two functions is a run of it.
* `OnlyNodes` — a call writes to nothing in memory but list nodes.
* `free_frame_zero` — frame 0 is not for the allocator: its address is the error value.
-/

set_option autoImplicit false

namespace Yalnix

open Transition (Run)

variable {k k' : Kernel} {l : List Nat} {f : Nat}

/-! ## The abstract allocator -/

structure Allocator where
  free : List Nat
  count : Nat → Int

inductive FrameOp where
  | allocate (frame : Nat)
  | free (f : Nat)

/-- One more frame is free, or one more reference is gone. -/
def Allocator.release (s : Allocator) (f : Nat) : Allocator where
  free := if s.count f = 1 then f :: s.free else s.free
  count := Function.update s.count f (s.count f - 1)

inductive AllocatorStep : Allocator → FrameOp → Allocator → Prop
  | allocate {f : Nat} {l : List Nat} {c : Nat → Int} :
      AllocatorStep ⟨f :: l, c⟩ (.allocate (pageAtIndex f)) ⟨l, Function.update c f 1⟩
  | empty {c : Nat → Int} : AllocatorStep ⟨[], c⟩ (.allocate 0) ⟨[], c⟩
  | free {s : Allocator} {f : Nat} (lo : 1 ≤ s.count f) (hi : s.count f ≤ 127) :
      AllocatorStep s (.free f) (s.release f)

/-! ## The functions of the kernel -/

/-- A call of one of the two functions.  Frames are freed while their count is between 1 and 127. -/
inductive FrameStep : Kernel → FrameOp → Kernel → Prop
  | allocate {k k' : Kernel} {frame : Nat} (run : allocatePageFrame k = (frame, k')) :
      FrameStep k (.allocate frame) k'
  | free {k : Kernel} {f : Nat} (frame : IsFrame k f) (lo : 1 ≤ k.frc_table f)
      (hi : k.frc_table f ≤ 127) : FrameStep k (.free f) (freePageFrame (pageAtIndex f) k)

/-- The kernel's list is the allocator's, and exactly the frames on it have count 0. -/
structure Refines (k : Kernel) (s : Allocator) : Prop where
  list : FreeList k s.free
  count : k.frc_table = s.count
  zero : ∀ f, IsFrame k f → (f ∈ s.free ↔ s.count f = 0)

/-- Besides `frame_head`, the counts and the window entries, only nodes of the frames in `X` have
been written: the first eight bytes. -/
structure OnlyNodes (k k' : Kernel) (X : List Nat) : Prop where
  quiet : Quiet k k' X
  node : ∀ f o, 8 ≤ o → k'.pmem f o = k.pmem f o

/-! ## Writes to memory -/

theorem pmem_setWindowNext (k : Kernel) (i a g : Nat) {o : Nat} (ho : 8 ≤ o) :
    (k.setWindowNext i a).pmem g o = k.pmem g o := by
  unfold Kernel.setWindowNext Kernel.setWindowPage Kernel.window
  by_cases hg : g = k.windowFrame i
  · subst hg
    simp only [Function.update_self]
    exact Word.writeWord_of_off _ _ (by omega)
  · simp only [Function.update_of_ne hg]

theorem pmem_setWindowPrev (k : Kernel) (i a g : Nat) {o : Nat} (ho : 8 ≤ o) :
    (k.setWindowPrev i a).pmem g o = k.pmem g o := by
  unfold Kernel.setWindowPrev Kernel.setWindowPage Kernel.window
  by_cases hg : g = k.windowFrame i
  · subst hg
    simp only [Function.update_self]
    exact Word.writeWord_of_off _ _ (by omega)
  · simp only [Function.update_of_ne hg]

theorem allocatePageFrame_node (k : Kernel) (g : Nat) {o : Nat} (ho : 8 ≤ o) :
    (allocatePageFrame k).2.pmem g o = k.pmem g o := by
  unfold allocatePageFrame
  dsimp only
  split
  · rfl
  · split
    · rfl
    · rw [pmem_setWindowPrev _ _ _ _ ho]
      rfl

theorem freePageFrame_node (k : Kernel) (frame g : Nat) {o : Nat} (ho : 8 ≤ o) :
    (freePageFrame frame k).pmem g o = k.pmem g o := by
  unfold freePageFrame
  dsimp only
  split
  · rfl
  · split
    · rw [pmem_setWindowNext _ _ _ _ ho]
      exact pmem_setWindowPrev _ _ _ _ ho
    · rw [pmem_setWindowPrev _ _ _ _ ho, pmem_setWindowNext _ _ _ _ ho]
      exact pmem_setWindowPrev _ _ _ _ ho

/-! ## Refinement -/

/-- **Every call does to the list and the counts what the allocator does, and writes to nothing but
nodes of frames that are on the list before or after it.** -/
theorem FrameStep.refines {op : FrameOp} {s : Allocator} (h : Refines k s)
    (hstep : FrameStep k op k') :
    ∃ s', AllocatorStep s op s' ∧ Refines k' s' ∧ OnlyNodes k k' (s.free ++ s'.free) := by
  obtain ⟨free, count⟩ := s
  have hcount : k.frc_table = count := h.count
  cases hstep with
  | allocate run =>
    have hnode : ∀ f o, 8 ≤ o → k'.pmem f o = k.pmem f o := by
      intro f o ho
      have := allocatePageFrame_node k f ho
      rwa [run] at this
    cases free with
    | nil =>
      rw [allocatePageFrame_nil h.list, Prod.mk.injEq] at run
      obtain ⟨rfl, rfl⟩ := run
      exact ⟨_, .empty, h, Quiet.refl _ _, hnode⟩
    | cons f l =>
      obtain ⟨k₁, hrun, hlist, hfrc, hquiet⟩ := allocatePageFrame_cons h.list
      rw [run, Prod.mk.injEq] at hrun
      obtain ⟨rfl, rfl⟩ := hrun
      have hnodup : f ∉ l := (List.nodup_cons.mp h.list.nodup).1
      refine ⟨_, .allocate, ⟨hlist, by rw [hfrc, hcount], fun g hg => ?_⟩,
        hquiet.mono fun g hg => by simp [hg], hnode⟩
      have hzero := h.zero g (by unfold IsFrame at hg ⊢; rw [← hquiet.addr]; exact hg)
      dsimp only at hzero ⊢
      by_cases hgf : g = f
      · subst hgf
        simp [hnodup]
      · rw [Function.update_of_ne hgf, ← hzero]
        simp [hgf]
  | free frame lo hi =>
    rename_i f
    have hnode : ∀ g o, 8 ≤ o → (freePageFrame (pageAtIndex f) k).pmem g o = k.pmem g o :=
      fun g o ho => freePageFrame_node k _ g ho
    have hchar : char (k.frc_table f - 1) = k.frc_table f - 1 := char_of_range (by omega) (by omega)
    have hf : f ∉ free := by
      intro hf
      have hzero : count f = 0 := (h.zero f frame).mp hf
      rw [← hcount] at hzero
      omega
    refine ⟨_, .free (by rw [← hcount]; exact lo) (by rw [← hcount]; exact hi), ?_⟩
    unfold Allocator.release
    by_cases hone : count f = 1
    · -- the last reference
      rw [if_pos hone]
      have hfk : k.frc_table f = 1 := by rw [hcount, hone]
      obtain ⟨hlist, hfrc, hquiet⟩ := freePageFrame_last h.list frame hf (by rw [hchar, hfk]; decide)
      rw [hchar, hcount] at hfrc
      refine ⟨⟨hlist, hfrc, fun g hg => ?_⟩, hquiet.mono fun g hg => ?_, hnode⟩
      · have hzero := h.zero g (by unfold IsFrame at hg ⊢; rw [← hquiet.addr]; exact hg)
        dsimp only at hzero ⊢
        by_cases hgf : g = f
        · subst hgf
          simp [hone]
        · rw [Function.update_of_ne hgf, ← hzero]
          simp [hgf]
      · simp only [List.mem_append]
        exact .inr hg
    · rw [if_neg hone]
      have hk := freePageFrame_shared (k := k) (f := f) (by rw [hchar]; rw [hcount] at lo ⊢; omega)
      rw [hchar] at hk
      refine ⟨⟨?_, ?_, fun g hg => ?_⟩, ?_, hnode⟩
      · rw [hk]
        exact h.list.of_eq rfl rfl rfl
      · rw [hk]
        simp [Kernel.setFrc, hcount]
      · rw [hk] at hg
        have hzero := h.zero g hg
        dsimp only at hzero ⊢
        by_cases hgf : g = f
        · subst hgf
          rw [Function.update_self, hzero]
          rw [hcount] at lo
          constructor
          · intro h0
            omega
          · intro h0
            omega
        · rw [Function.update_of_ne hgf]
          exact hzero
      · rw [hk]
        exact Quiet.setFrc _ _ _

/-- The allocator stands for the kernel after every run. -/
theorem Refines.run {s : Allocator} {ops : List FrameOp} (h : Refines k s)
    (hrun : Run FrameStep k ops k') : ∃ s', Run AllocatorStep s ops s' ∧ Refines k' s' :=
  hrun.simulates (g := AllocatorStep) (R := Refines) (fun _ _ _ _ hr hs =>
    let ⟨s', hs', hr', _⟩ := FrameStep.refines hr hs
    ⟨s', hs', hr'⟩) h

/-- **From every well-formed free list, in every run of `allocatePageFrame` and `freePageFrame`, each
call is the call of the abstract allocator: the list stays well formed, exactly the frames on it
have count 0, and nothing but nodes of listed frames is written.** -/
theorem frames_refine {k₀ : Kernel} {s₀ : Allocator} {ops : List FrameOp} {op : FrameOp}
    (h₀ : Refines k₀ s₀) (hrun : Run FrameStep k₀ ops k) (hstep : FrameStep k op k') :
    ∃ s s', Run AllocatorStep s₀ ops s ∧ AllocatorStep s op s' ∧ Refines k s ∧ Refines k' s' ∧
      s'.free.Nodup ∧ OnlyNodes k k' (s.free ++ s'.free) := by
  obtain ⟨s, hs, hr⟩ := h₀.run hrun
  obtain ⟨s', hs', hr', honly⟩ := hstep.refines hr
  exact ⟨s, s', hs, hs', hr, hr', hr'.list.nodup, honly⟩

/-! ## Frame 0 -/

/-- A kernel without free frames, each frame of which is in use once. -/
def fullKernel : Kernel where
  pmem := fun _ _ => 0
  frame_head := ⟨0x1000, 0x1000⟩
  frame_head_addr := 0x1000
  frc_table := fun _ => 1
  kernel_page_table := fun _ => PTE.clear
  max_pid := 1
  proc := fun _ => ⟨false, false, fun _ => 0, none, fun _ => PTE.clear, ⟨0, 0, fun _ => 0⟩, ⟨0, 0, 0⟩⟩

theorem fullKernel_refines : Refines fullKernel ⟨[], fun _ => 1⟩ := by
  refine ⟨⟨Ring.isRing_nil.mpr ⟨frameHeap_next_head, frameHeap_prev_head⟩, by simp, by decide⟩, rfl,
    fun f _ => by simp⟩

/-- `frames_refine` where frame 5 is freed and allocated again. -/
theorem frames_refine_full : ∃ s s', Run AllocatorStep ⟨[], fun _ => 1⟩ [.free 5] s ∧
    AllocatorStep s (.allocate (pageAtIndex 5)) s' := by
  have hframe : IsFrame fullKernel 5 := ⟨by decide, by decide, by decide⟩
  have hfree : FrameStep fullKernel (.free 5) (freePageFrame (pageAtIndex 5) fullKernel) :=
    .free hframe (by decide) (by decide)
  have hallocate : FrameStep (freePageFrame (pageAtIndex 5) fullKernel) (.allocate (pageAtIndex 5))
      (allocatePageFrame (freePageFrame (pageAtIndex 5) fullKernel)).2 := .allocate rfl
  obtain ⟨s, s', hs, hs', -⟩ := frames_refine fullKernel_refines (.single hfree) hallocate
  exact ⟨s, s', hs, hs'⟩

/-- **Once frame 0 has been freed the list is not empty, and yet `allocatePageFrame` returns what it
returns for an empty list.** -/
theorem free_frame_zero : Refines fullKernel ⟨[], fun _ => 1⟩ ∧ fullKernel.frc_table 0 = 1 ∧
    (freePageFrame (pageAtIndex 0) fullKernel).frame_head.next ≠ fullKernel.frame_head_addr ∧
    (allocatePageFrame (freePageFrame (pageAtIndex 0) fullKernel)).1 = 0 :=
  ⟨fullKernel_refines, rfl, by decide, by decide⟩

end Yalnix
