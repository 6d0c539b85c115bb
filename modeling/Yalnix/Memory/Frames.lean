import Yalnix.Memory.Kernel

/-!
# The page-frame allocator

`allocatePageFrame` and `freePageFrame` of `memory.c`.  A free frame holds the two links of its
list node in its own first eight bytes; the kernel reaches them through the frame windows.

* `allocatePageFrame_cons` — the first frame of the list is taken, with count 1.
* `freePageFrame_shared` — a frame with further references only loses one.
* `freePageFrame_last` — the last reference puts the frame at the front of the list.

`Quiet k k' X` is what all of them leave alone: everything but the head of the list, the counts,
the frame windows, and the contents of the frames in `X`.
-/

set_option autoImplicit false

namespace Yalnix

open Ring (IsRing Linked)

/-- Physical address of a frame taken off the list, or 0. -/
def allocatePageFrame (k : Kernel) : Nat × Kernel :=
  if k.frame_head.next = k.frame_head_addr then (0, k)
  else
    let frame := k.frame_head.next
    let k := (k.setWindow 0 (frameOf frame)).setFrc (frameOf frame) 1
    if k.windowNext 0 = k.frame_head_addr then
      (frame, (k.setHeadPrev k.frame_head_addr).setHeadNext k.frame_head_addr)
    else
      let k := k.setWindow 1 (frameOf (k.windowNext 0))
      let k := k.setHeadNext (k.windowNext 0)
      (frame, k.setWindowPrev 1 k.frame_head_addr)

/-- Give back one reference to a frame. -/
def freePageFrame (frame : Nat) (k : Kernel) : Kernel :=
  let k := k.setFrc (frameOf frame) (char (k.frc_table (frameOf frame) - 1))
  if k.frc_table (frameOf frame) > 0 then k
  else
    let k := k.setWindow 0 (frameOf frame)
    let next_page := k.frame_head.next
    let k := k.setHeadNext frame
    let k := k.setWindowPrev 0 k.frame_head_addr
    if next_page = k.frame_head_addr then
      (k.setHeadPrev frame).setWindowNext 0 k.frame_head_addr
    else
      let k := k.setWindow 1 (frameOf next_page)
      let k := k.setWindowNext 0 next_page
      k.setWindowPrev 1 frame

/-! ## The list of free frames -/

/-- The links of the frame list: those of `frame_head`, and those at the base of a frame. -/
def frameHeap (k : Kernel) : Ring.Heap Nat := fun a =>
  some (if a = k.frame_head_addr then k.frame_head
    else ⟨Word.readWord (k.pmem (frameOf a)) 0, Word.readWord (k.pmem (frameOf a)) 4⟩)

/-- A frame that can be on the list: not frame 0, whose address is the error value of
`allocatePageFrame`, and addressable. -/
def IsFrame (k : Kernel) (f : Nat) : Prop :=
  0 < f ∧ pageAtIndex f < 2 ^ 32 ∧ pageAtIndex f ≠ k.frame_head_addr

/-- The free frames are those of `l`, in the order in which they will be handed out. -/
structure FreeList (k : Kernel) (l : List Nat) : Prop where
  ring : IsRing (frameHeap k) k.frame_head_addr (l.map pageAtIndex)
  frame : ∀ f ∈ l, IsFrame k f
  addr : k.frame_head_addr < 2 ^ 32

/-- `k'` is `k` but for the head of the frame list, the counts, the frame windows, and the
contents of the frames in `X`. -/
structure Quiet (k k' : Kernel) (X : List Nat) : Prop where
  proc : k'.proc = k.proc
  max_pid : k'.max_pid = k.max_pid
  addr : k'.frame_head_addr = k.frame_head_addr
  kpt : ∀ i, i < 123 ∨ 126 ≤ i → k'.kernel_page_table i = k.kernel_page_table i
  pmem : ∀ f, f ∉ X → k'.pmem f = k.pmem f

variable {k k' k₁ k₂ : Kernel} {l X Y : List Nat} {f g : Nat} {c : Int}

theorem Quiet.refl (k : Kernel) (X : List Nat) : Quiet k k X :=
  ⟨rfl, rfl, rfl, fun _ _ => rfl, fun _ _ => rfl⟩

theorem Quiet.mono (h : Quiet k k' X) (hX : ∀ f ∈ X, f ∈ Y) : Quiet k k' Y :=
  ⟨h.proc, h.max_pid, h.addr, h.kpt, fun f hf => h.pmem f fun hx => hf (hX f hx)⟩

theorem Quiet.trans (h : Quiet k k₁ X) (h' : Quiet k₁ k₂ X) : Quiet k k₂ X :=
  ⟨h'.proc.trans h.proc, h'.max_pid.trans h.max_pid, h'.addr.trans h.addr,
    fun i hi => (h'.kpt i hi).trans (h.kpt i hi), fun f hf => (h'.pmem f hf).trans (h.pmem f hf)⟩

theorem Quiet.setWindow {i : Nat} (hi : i < 3) (f : Nat) (X : List Nat) :
    Quiet k (k.setWindow i f) X :=
  ⟨rfl, rfl, rfl, fun _ hj => Kernel.kpt_setWindow k f hi hj, fun _ _ => rfl⟩

theorem Quiet.setFrc (f : Nat) (c : Int) (X : List Nat) : Quiet k (k.setFrc f c) X :=
  ⟨rfl, rfl, rfl, fun _ _ => rfl, fun _ _ => rfl⟩

theorem Quiet.table (h : Quiet k k' X) : k'.table = k.table := by
  unfold Kernel.table
  rw [h.proc]

theorem frameHeap_next_head : (frameHeap k).next k.frame_head_addr = some k.frame_head.next := by
  simp [Ring.Heap.next, frameHeap]

theorem frameHeap_prev_head : (frameHeap k).prev k.frame_head_addr = some k.frame_head.prev := by
  simp [Ring.Heap.prev, frameHeap]

theorem frameHeap_next (h : pageAtIndex f ≠ k.frame_head_addr) :
    (frameHeap k).next (pageAtIndex f) = some (Word.readWord (k.pmem f) 0) := by
  simp [Ring.Heap.next, frameHeap, h]

theorem frameHeap_prev (h : pageAtIndex f ≠ k.frame_head_addr) :
    (frameHeap k).prev (pageAtIndex f) = some (Word.readWord (k.pmem f) 4) := by
  simp [Ring.Heap.prev, frameHeap, h]

theorem FreeList.nodup (h : FreeList k l) : l.Nodup := h.ring.nodup.of_map _

theorem FreeList.unique (h : FreeList k l) (h' : FreeList k X) : l = X :=
  List.map_injective_iff.mpr pageAtIndex_injective (h.ring.unique h'.ring)

/-- The list depends on its head and on the links inside the free frames only. -/
theorem FreeList.congr (h : FreeList k l) (hh : k'.frame_head = k.frame_head)
    (ha : k'.frame_head_addr = k.frame_head_addr) (hp : ∀ f ∈ l, k'.pmem f = k.pmem f) :
    FreeList k' l := by
  refine ⟨?_, fun f hf => by unfold IsFrame; rw [ha]; exact h.frame f hf, ha ▸ h.addr⟩
  have hx : ∀ a ∈ k.frame_head_addr :: l.map pageAtIndex, frameHeap k' a = frameHeap k a := by
    intro a hm
    unfold frameHeap
    rw [ha, hh]
    rcases List.mem_cons.mp hm with rfl | hm
    · simp
    · obtain ⟨f, hf, rfl⟩ := List.mem_map.mp hm
      rw [frameOf_pageAtIndex, hp f hf]
  rw [ha]
  exact h.ring.congr (fun a hm => by unfold Ring.Heap.next; rw [hx a hm])
    fun a hm => by unfold Ring.Heap.prev; rw [hx a hm]

/-- A change of processes, counts and windows leaves the list alone. -/
theorem FreeList.of_eq (h : FreeList k l) (hh : k'.frame_head = k.frame_head)
    (ha : k'.frame_head_addr = k.frame_head_addr) (hp : k'.pmem = k.pmem) : FreeList k' l :=
  h.congr hh ha fun f _ => by rw [hp]

/-! ## Allocation -/

theorem allocatePageFrame_proc (k : Kernel) : (allocatePageFrame k).2.proc = k.proc := by
  unfold allocatePageFrame
  split
  · rfl
  · dsimp only
    split
    · rfl
    · rfl

theorem allocatePageFrame_nil (h : FreeList k []) : allocatePageFrame k = (0, k) := by
  have hn := (Ring.isRing_nil.mp h.ring).1
  rw [frameHeap_next_head, Option.some.injEq] at hn
  unfold allocatePageFrame
  rw [if_pos hn]

/-- The link stored in the first free frame, as window 0 shows it. -/
theorem windowNext_first (h : FreeList k (f :: l)) :
    ((k.setWindow 0 f).setFrc f 1).windowNext 0 =
      ((l.map pageAtIndex).head?).getD k.frame_head_addr := by
  have hlink := (h.ring.linked [k.frame_head_addr]
    ((l.map pageAtIndex ++ [k.frame_head_addr]).tail) (a := pageAtIndex f)
    (b := ((l.map pageAtIndex).head?).getD k.frame_head_addr)
    (by cases l <;> simp)).1
  rw [frameHeap_next (h.frame f List.mem_cons_self).2.2, Option.some.injEq] at hlink
  rw [← hlink]
  simp [Kernel.windowNext, Kernel.window]

/-- **Allocation takes the first free frame and gives it count 1; nothing but the link stored in
the frame that is now first changes.** -/
theorem allocatePageFrame_cons (h : FreeList k (f :: l)) :
    ∃ k', allocatePageFrame k = (pageAtIndex f, k') ∧ FreeList k' l ∧
      k'.frc_table = Function.update k.frc_table f 1 ∧ Quiet k k' l := by
  have hf := h.frame f List.mem_cons_self
  have hnext : k.frame_head.next = pageAtIndex f := by
    have := h.ring.next_head
    rwa [frameHeap_next_head, Option.some.injEq] at this
  have hwin := windowNext_first h
  unfold allocatePageFrame
  rw [if_neg (by rw [hnext]; exact hf.2.2)]
  simp only [hnext, frameOf_pageAtIndex, hwin, Kernel.addr_setFrc, Kernel.addr_setWindow]
  cases l with
  | nil =>
    refine ⟨_, if_pos rfl, ⟨?_, by simp, h.addr⟩, rfl, ?_⟩
    · exact Ring.isRing_nil.mpr ⟨frameHeap_next_head, frameHeap_prev_head⟩
    · exact ⟨rfl, rfl, rfl, fun i hi => Kernel.kpt_setWindow k f (by omega) hi, fun _ _ => rfl⟩
  | cons g l =>
    have hg := h.frame g (by simp)
    refine ⟨_, if_neg hg.2.2, ?_⟩
    have hwin' : (((k.setWindow 0 f).setFrc f 1).setWindow 1 g).windowNext 0 = pageAtIndex g := by
      simp only [Kernel.windowNext, Kernel.window,
        Kernel.windowFrame_setWindow_ne _ 0 1 g (show 0 ≠ 1 by omega)]
      exact hwin
    simp only [List.map_cons, List.head?_cons, Option.getD_some, frameOf_pageAtIndex, hwin']
    generalize hk' : ((((k.setWindow 0 f).setFrc f 1).setWindow 1 g).setHeadNext
      (pageAtIndex g)).setWindowPrev 1 _ = k'
    have hhead : k'.frame_head = { k.frame_head with next := pageAtIndex g } := by subst hk'; rfl
    have haddr : k'.frame_head_addr = k.frame_head_addr := by subst hk'; rfl
    have hpg : k'.pmem = Function.update k.pmem g
        (Word.writeWord (k.pmem g) 4 k.frame_head_addr) := by
      subst hk'
      simp [Kernel.setWindowPrev, Kernel.window]
      rfl
    refine ⟨⟨?_, fun y hy => ?_, haddr ▸ h.addr⟩, by subst hk'; rfl, ⟨by subst hk'; rfl,
      by subst hk'; rfl, haddr, fun i hi => ?_, fun y hy => ?_⟩⟩
    · -- the junction is between `frame_head` and the second frame
      have hr := h.ring
      simp only [List.map_cons] at hr ⊢
      rw [haddr]
      refine Ring.IsRing.unlink (u := []) (b := pageAtIndex f)
        (v := pageAtIndex g :: l.map pageAtIndex) hr
        (show [k.frame_head_addr] = [] ++ [k.frame_head_addr] from rfl) rfl ⟨?_, ?_⟩ ?_ ?_
      · rw [← haddr, frameHeap_next_head, hhead]
      · rw [frameHeap_prev (by rw [haddr]; exact hg.2.2), hpg, Function.update_self,
          Word.readWord_writeWord _ _ h.addr]
      · intro x hx hxa
        rcases List.mem_cons.mp hx with rfl | hx
        · exact absurd rfl hxa
        obtain ⟨y, hy, rfl⟩ := List.mem_map.mp (show x ∈ (g :: l).map pageAtIndex from hx)
        rw [frameHeap_next (by rw [haddr]; exact hxa), frameHeap_next hxa, hpg]
        by_cases hyg : y = g
        · subst hyg
          rw [Function.update_self, Word.readWord_writeWord_ne _ _ (by omega)]
        · rw [Function.update_of_ne hyg]
      · intro x hx hxg
        rcases List.mem_cons.mp hx with rfl | hx
        · rw [frameHeap_prev_head, ← haddr, frameHeap_prev_head, hhead]
        obtain ⟨y, hy, rfl⟩ := List.mem_map.mp (show x ∈ (g :: l).map pageAtIndex from hx)
        have hya := (h.frame y (List.mem_cons_of_mem _ hy)).2.2
        rw [frameHeap_prev hya, frameHeap_prev (by rw [haddr]; exact hya), hpg,
          Function.update_of_ne fun hyg => hxg (by rw [hyg])]
    · unfold IsFrame
      rw [haddr]
      exact h.frame y (List.mem_cons_of_mem _ hy)
    · subst hk'
      exact (Kernel.kpt_setWindow _ g (by omega) hi).trans (Kernel.kpt_setWindow k f (by omega) hi)
    · rw [hpg, Function.update_of_ne fun hyg => hy (by simp [hyg])]

/-! ## Giving a frame back -/

/-- A frame that has further references stays in use. -/
theorem freePageFrame_shared (hc : 0 < char (k.frc_table f - 1)) :
    freePageFrame (pageAtIndex f) k = k.setFrc f (char (k.frc_table f - 1)) := by
  unfold freePageFrame
  simp only [frameOf_pageAtIndex]
  exact if_pos (by simpa using hc)

/-- The head of the free list points to its first frame. -/
theorem FreeList.head_next (h : FreeList k l) :
    k.frame_head.next = ((l.map pageAtIndex).head?).getD k.frame_head_addr := by
  have hlink := (h.ring.linked [] ((l.map pageAtIndex ++ [k.frame_head_addr]).tail)
    (a := k.frame_head_addr) (b := ((l.map pageAtIndex).head?).getD k.frame_head_addr)
    (by cases l <;> simp)).1
  rwa [frameHeap_next_head, Option.some.injEq] at hlink

/-- A frame goes onto the empty list. -/
theorem freePageFrame_onto_nil (h : FreeList k []) (hf : IsFrame k f)
    (hc : char (k.frc_table f - 1) ≤ 0) :
    FreeList (freePageFrame (pageAtIndex f) k) [f] ∧
      (freePageFrame (pageAtIndex f) k).frc_table =
        Function.update k.frc_table f (char (k.frc_table f - 1)) ∧
      Quiet k (freePageFrame (pageAtIndex f) k) [f] := by
  generalize hk' : freePageFrame (pageAtIndex f) k = k'
  unfold freePageFrame at hk'
  simp only [frameOf_pageAtIndex] at hk'
  rw [if_neg (by simpa using hc)] at hk'
  rw [if_pos (by exact h.head_next)] at hk'
  have hhead : k'.frame_head = ⟨pageAtIndex f, pageAtIndex f⟩ := by subst hk'; rfl
  have haddr : k'.frame_head_addr = k.frame_head_addr := by subst hk'; rfl
  have hpm : k'.pmem = Function.update k.pmem f (Word.writeWord
      (Word.writeWord (k.pmem f) 4 k.frame_head_addr) 0 k.frame_head_addr) := by
    subst hk'
    simp [Kernel.setWindowNext, Kernel.setWindowPrev, Kernel.window]
    rfl
  refine ⟨⟨?_, fun y hy => ?_, haddr ▸ h.addr⟩, by subst hk'; rfl, ⟨by subst hk'; rfl,
    by subst hk'; rfl, haddr, fun i hi => ?_, fun y hy => ?_⟩⟩
  · rw [haddr]
    refine Ring.IsRing.link (u := []) (v := []) h.ring
      (show [k.frame_head_addr] = [] ++ [k.frame_head_addr] from rfl) rfl
      (by simpa using hf.2.2) ⟨?_, ?_⟩ ⟨?_, ?_⟩ ?_ ?_
    · rw [← haddr, frameHeap_next_head, hhead]
    · rw [frameHeap_prev (by rw [haddr]; exact hf.2.2), hpm, Function.update_self,
        Word.readWord_writeWord_ne _ _ (by omega), Word.readWord_writeWord _ _ h.addr]
    · rw [frameHeap_next (by rw [haddr]; exact hf.2.2), hpm, Function.update_self,
        Word.readWord_writeWord _ _ h.addr]
    · rw [← haddr, frameHeap_prev_head, hhead]
    · simp
    · simp
  · rw [List.mem_singleton.mp hy]
    unfold IsFrame
    rw [haddr]
    exact hf
  · subst hk'
    exact Kernel.kpt_setWindow _ f (by omega) hi
  · rw [hpm, Function.update_of_ne fun hyf => hy (by simp [hyf])]

/-- A frame goes before the first of the list. -/
theorem freePageFrame_onto_cons (h : FreeList k (g :: l)) (hf : IsFrame k f) (hfl : f ∉ g :: l)
    (hc : char (k.frc_table f - 1) ≤ 0) :
    FreeList (freePageFrame (pageAtIndex f) k) (f :: g :: l) ∧
      (freePageFrame (pageAtIndex f) k).frc_table =
        Function.update k.frc_table f (char (k.frc_table f - 1)) ∧
      Quiet k (freePageFrame (pageAtIndex f) k) (f :: g :: l) := by
  generalize hk' : freePageFrame (pageAtIndex f) k = k'
  unfold freePageFrame at hk'
  simp only [frameOf_pageAtIndex] at hk'
  rw [if_neg (by simpa using hc)] at hk'
  have hg := h.frame g List.mem_cons_self
  have hgf : g ≠ f := fun he => hfl (he ▸ List.mem_cons_self)
  have hnext' : k.frame_head.next = pageAtIndex g := h.head_next
  rw [if_neg (by change k.frame_head.next ≠ k.frame_head_addr; rw [hnext']; exact hg.2.2)] at hk'
  simp only [Kernel.head_setWindow, Kernel.head_setFrc, hnext', frameOf_pageAtIndex] at hk'
  have hhead : k'.frame_head = { k.frame_head with next := pageAtIndex f } := by subst hk'; rfl
  have haddr : k'.frame_head_addr = k.frame_head_addr := by subst hk'; rfl
  have hpm : k'.pmem = Function.update (Function.update k.pmem f (Word.writeWord
      (Word.writeWord (k.pmem f) 4 k.frame_head_addr) 0 (pageAtIndex g))) g
      (Word.writeWord (k.pmem g) 4 (pageAtIndex f)) := by
    subst hk'
    simp [Kernel.setWindowNext, Kernel.setWindowPrev, Kernel.window,
      Kernel.windowFrame_setWindow_ne, hgf]
    rfl
  have hpg : k'.pmem g = Word.writeWord (k.pmem g) 4 (pageAtIndex f) := by simp [hpm]
  have hpf : k'.pmem f = Word.writeWord (Word.writeWord (k.pmem f) 4 k.frame_head_addr) 0
      (pageAtIndex g) := by
    rw [hpm, Function.update_of_ne hgf.symm, Function.update_self]
  have hpy : ∀ y, y ≠ f → y ≠ g → k'.pmem y = k.pmem y := fun y hyf hyg => by
    rw [hpm, Function.update_of_ne hyg, Function.update_of_ne hyf]
  have hmem : ∀ y ∈ f :: g :: l, IsFrame k y := fun y hy => by
    rcases List.mem_cons.mp hy with rfl | hy
    · exact hf
    · exact h.frame y hy
  refine ⟨⟨?_, fun y hy => ?_, haddr ▸ h.addr⟩, by subst hk'; rfl, ⟨by subst hk'; rfl,
    by subst hk'; rfl, haddr, fun i hi => ?_, fun y hy => ?_⟩⟩
  · rw [haddr]
    refine Ring.IsRing.link (u := []) (v := (g :: l).map pageAtIndex) (b := pageAtIndex f)
      h.ring (show [k.frame_head_addr] = [] ++ [k.frame_head_addr] from rfl) rfl ?_
      ⟨?_, ?_⟩ ⟨?_, ?_⟩ ?_ ?_
    · intro hm
      rcases List.mem_cons.mp hm with hm | hm
      · exact hf.2.2 hm
      · obtain ⟨y, hy, hyf⟩ := List.mem_map.mp hm
        exact hfl (pageAtIndex_injective hyf ▸ hy)
    · rw [← haddr, frameHeap_next_head, hhead]
    · rw [frameHeap_prev (by rw [haddr]; exact hf.2.2), hpf,
        Word.readWord_writeWord_ne _ _ (by omega), Word.readWord_writeWord _ _ h.addr]
    · rw [frameHeap_next (by rw [haddr]; exact hf.2.2), hpf,
        Word.readWord_writeWord _ _ hg.2.1]
    · rw [frameHeap_prev (by rw [haddr]; exact hg.2.2), hpg,
        Word.readWord_writeWord _ _ hf.2.1]
    · intro x hx hxa
      rcases List.mem_cons.mp hx with rfl | hx
      · exact absurd rfl hxa
      obtain ⟨y, hy, rfl⟩ := List.mem_map.mp (show x ∈ (g :: l).map pageAtIndex from hx)
      rw [frameHeap_next (by rw [haddr]; exact hxa), frameHeap_next hxa]
      by_cases hyg : y = g
      · subst hyg
        rw [hpg, Word.readWord_writeWord_ne _ _ (by omega)]
      · rw [hpy y (fun he => hfl (he ▸ hy)) hyg]
    · intro x hx hxg
      rcases List.mem_cons.mp hx with rfl | hx
      · rw [frameHeap_prev_head, ← haddr, frameHeap_prev_head, hhead]
      obtain ⟨y, hy, rfl⟩ := List.mem_map.mp (show x ∈ (g :: l).map pageAtIndex from hx)
      have hya := (h.frame y hy).2.2
      rw [frameHeap_prev hya, frameHeap_prev (by rw [haddr]; exact hya),
        hpy y (fun he => hfl (he ▸ hy)) fun hyg => hxg (by rw [hyg])]
  · unfold IsFrame
    rw [haddr]
    exact hmem y hy
  · subst hk'
    exact (Kernel.kpt_setWindow _ _ (by omega) hi).trans (Kernel.kpt_setWindow _ f (by omega) hi)
  · exact hpy y (fun he => hy (by simp [he])) fun he => hy (by simp [he])

/-- **The last reference to a frame puts it at the front of the list; nothing changes but the
links stored in it and in the frame that was first before.** -/
theorem freePageFrame_last (h : FreeList k l) (hf : IsFrame k f) (hfl : f ∉ l)
    (hc : char (k.frc_table f - 1) ≤ 0) :
    FreeList (freePageFrame (pageAtIndex f) k) (f :: l) ∧
      (freePageFrame (pageAtIndex f) k).frc_table =
        Function.update k.frc_table f (char (k.frc_table f - 1)) ∧
      Quiet k (freePageFrame (pageAtIndex f) k) (f :: l) := by
  cases l with
  | nil => exact freePageFrame_onto_nil h hf hc
  | cons g l => exact freePageFrame_onto_cons h hf hfl hc

end Yalnix
