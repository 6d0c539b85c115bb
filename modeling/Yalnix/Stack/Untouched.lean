import Yalnix.Stack.Owned

/-!
# Operations that leave a page alone

A page that no operation on the way reads or writes can be replaced before or after it.

* `Kernel.putPage` — another page in a frame.
* `Untouched` — the stacks are mapped as they were, and only some frames have changed.
* `copyParentStack_putPage`, `setCopyOnWrite_putPage`, … — the operations that pass a page on.
-/

set_option autoImplicit false

namespace Yalnix

open RefCount (refs)
open Yalnix.Stack (pcbFrame stackFrame stackPage getCurrentProcess readInfo writeInfo
  readInfo_writeInfo)

variable {k k' k₁ : Kernel} {l l' : List Nat} {f f₀ f₁ g p c q n i j sb cur : Nat} {a : Int}
  {leak : Nat → Nat} {pg pg' : Word.Page}

/-! ## Another page in a frame -/

def Kernel.putPage (k : Kernel) (f : Nat) (pg : Word.Page) : Kernel :=
  { k with pmem := Function.update k.pmem f pg }

theorem setWindowPage_eq (k : Kernel) (i : Nat) (pg : Word.Page) :
    k.setWindowPage i pg = k.putPage (k.windowFrame i) pg := rfl

theorem Kernel.putPage_same (k : Kernel) (f : Nat) (pg pg' : Word.Page) :
    (k.putPage f pg).putPage f pg' = k.putPage f pg' := by
  unfold Kernel.putPage
  simp only [Function.update_idem]

theorem Kernel.putPage_comm (k : Kernel) (pg pg' : Word.Page) (h : f ≠ g) :
    (k.putPage f pg).putPage g pg' = (k.putPage g pg').putPage f pg := by
  unfold Kernel.putPage
  simp only [Function.update_comm h]

theorem Kernel.pmem_putPage_ne (k : Kernel) (pg : Word.Page) (h : g ≠ f) :
    (k.putPage f pg).pmem g = k.pmem g := Function.update_of_ne h _ _

theorem Kernel.pmem_putPage_self (k : Kernel) (f : Nat) (pg : Word.Page) :
    (k.putPage f pg).pmem f = pg := Function.update_self _ _ _

theorem FreeList.putPage (h : FreeList k l) (hf : f ∉ l) (pg : Word.Page) :
    FreeList (k.putPage f pg) l :=
  h.congr rfl rfl fun _ hg => k.pmem_putPage_ne pg fun he => hf (he ▸ hg)

theorem running_putPage : Running (k.putPage f pg) q ↔ Running k q :=
  ⟨fun h => ⟨h.pos, h.le, h.live⟩, fun h => ⟨h.pos, h.le, h.live⟩⟩

/-- **A page in a frame that is in use is nobody's business but its owners'.** -/
theorem Sound.putPage (h : Sound k) {x : Slot} (hx : x ∈ slots k.max_pid) (hm : mapping k x = some f)
    (pg : Word.Page) : Sound (k.putPage f pg) := by
  obtain ⟨leak, l, hc, hb⟩ := h.bounded
  exact ⟨⟨leak, l, hc.congr (hc.list.putPage (hc.not_free hx hm) pg) rfl rfl fun _ _ => rfl, hb⟩,
    h.tables, h.distinct, fun q hq => h.process q ⟨hq.pos, hq.le, hq.live⟩⟩

theorem StacksOwned.putPage (h : StacksOwned k) (f : Nat) (pg : Word.Page) :
    StacksOwned (k.putPage f pg) :=
  fun q hq => h q ⟨hq.pos, hq.le, hq.live⟩

/-! ## Stacks elsewhere -/

/-- Kernel stacks are mapped as they were, and frames outside `l` hold what they held. -/
structure Untouched (l : List Nat) (k k' : Kernel) : Prop where
  frames : ∀ q, (k'.proc q).pcb_frames = (k.proc q).pcb_frames
  stack : ∀ i, 126 ≤ i → k'.kernel_page_table i = k.kernel_page_table i
  pmem : ∀ g, g ∉ l → g ≠ 0 → k'.pmem g = k.pmem g

theorem Untouched.refl (l : List Nat) (k : Kernel) : Untouched l k k :=
  ⟨fun _ => rfl, fun _ _ => rfl, fun _ _ _ => rfl⟩

theorem Untouched.trans (h : Untouched l k k₁) (h' : Untouched l k₁ k') : Untouched l k k' :=
  ⟨fun q => (h'.frames q).trans (h.frames q), fun i hi => (h'.stack i hi).trans (h.stack i hi),
    fun g hg h0 => (h'.pmem g hg h0).trans (h.pmem g hg h0)⟩

theorem Untouched.pcbFrame (h : Untouched l k k') (q : PID) (j : Nat) :
    pcbFrame k' q j = Yalnix.Stack.pcbFrame k q j := by
  unfold Yalnix.Stack.pcbFrame
  rw [h.frames q]

theorem Untouched.stackFrame (h : Untouched l k k') (j : Nat) :
    stackFrame k' j = Yalnix.Stack.stackFrame k j := by
  unfold Yalnix.Stack.stackFrame
  rw [h.stack _ (by simp only [KERNEL_STACK_BASE, frameOf]; omega)]

theorem Untouched.stackPage (h : Untouched l k k') (hj : Yalnix.Stack.stackFrame k j ∉ l)
    (h0 : Yalnix.Stack.stackFrame k j ≠ 0) : stackPage k' j = Yalnix.Stack.stackPage k j := by
  unfold Yalnix.Stack.stackPage
  rw [h.stackFrame, h.pmem _ hj h0]

theorem stackPage_putPage_ne (h : stackFrame k j ≠ f) : stackPage (k.putPage f pg) j = stackPage k j :=
  k.pmem_putPage_ne pg h

theorem getCurrentProcess_putPage (h : stackFrame k 0 ≠ f) :
    getCurrentProcess (k.putPage f pg) = getCurrentProcess k := by
  unfold getCurrentProcess
  rw [stackPage_putPage_ne h]

/-! ## Operations that pass a page on -/

theorem setEntry_putPage (p : PID) (i : Int) (e : PTE) (f : Nat) (pg : Word.Page) :
    (k.putPage f pg).setEntry p i e = (k.setEntry p i e).map fun k => k.putPage f pg := by
  unfold Kernel.setEntry
  split
  · rfl
  · rfl

/-- The kernel after it has taken frame `g` from the front of the list; those of `l` follow. -/
def takeFirst (k : Kernel) (g : Nat) (l : List Nat) : Kernel :=
  let k₁ := (k.setWindow 0 g).setFrc g 1
  match l with
  | [] => (k₁.setHeadPrev k.frame_head_addr).setHeadNext k.frame_head_addr
  | g' :: _ => ((k₁.setWindow 1 g').setHeadNext (pageAtIndex g')).putPage g'
      (Word.writeWord (k.pmem g') 4 k.frame_head_addr)

theorem allocatePageFrame_eq (h : FreeList k (g :: l)) :
    allocatePageFrame k = (pageAtIndex g, takeFirst k g l) := by
  have hg := h.frame g List.mem_cons_self
  have hnext : k.frame_head.next = pageAtIndex g := by
    have := h.ring.next_head
    rwa [frameHeap_next_head, Option.some.injEq] at this
  have hwin := windowNext_first h
  unfold allocatePageFrame
  rw [if_neg (by rw [hnext]; exact hg.2.2)]
  simp only [hnext, frameOf_pageAtIndex, hwin, Kernel.addr_setFrc, Kernel.addr_setWindow]
  cases l with
  | nil => exact if_pos rfl
  | cons g' l =>
    have hg' := h.frame g' (by simp)
    have hwin' : (((k.setWindow 0 g).setFrc g 1).setWindow 1 g').windowNext 0 = pageAtIndex g' := by
      simp only [Kernel.windowNext, Kernel.window,
        Kernel.windowFrame_setWindow_ne _ 0 1 g' (show 0 ≠ 1 by omega)]
      exact hwin
    simp only [List.map_cons, List.head?_cons, Option.getD_some, hg'.2.2, if_false,
      frameOf_pageAtIndex, hwin']
    refine Prod.ext rfl ?_
    unfold takeFirst Kernel.setWindowPrev Kernel.window
    rw [setWindowPage_eq, Kernel.windowFrame_setHeadNext, Kernel.windowFrame_setWindow]
    rfl

/-- Allocation reads and writes free frames only. -/
theorem allocatePageFrame_putPage (h : FreeList k l) (hf : f ∉ l) (pg : Word.Page) :
    allocatePageFrame (k.putPage f pg) =
      ((allocatePageFrame k).1, (allocatePageFrame k).2.putPage f pg) := by
  cases l with
  | nil => rw [allocatePageFrame_nil h, allocatePageFrame_nil (h.putPage hf pg)]
  | cons g l =>
    rw [allocatePageFrame_eq h, allocatePageFrame_eq (h.putPage hf pg)]
    refine Prod.ext rfl ?_
    cases l with
    | nil => rfl
    | cons g' l =>
      have hgf : g' ≠ f := fun he => hf (by simp [he])
      unfold takeFirst
      dsimp only
      rw [k.pmem_putPage_ne pg hgf, Kernel.putPage_comm _ _ _ hgf]
      rfl

/-- Allocation, with or without success. -/
theorem allocatePageFrame_any (h : FreeList k l) : ∃ g l₂ k₂,
    allocatePageFrame k = (pageAtIndex g, k₂) ∧ FreeList k₂ l₂ ∧ (∀ x ∈ l₂, x ∈ l) ∧ g ∉ l₂ ∧
      (g ∈ l ∨ g = 0) ∧ Quiet k k₂ l := by
  cases l with
  | nil => exact ⟨0, [], k, allocatePageFrame_nil h, h, fun _ hx => hx, by simp, .inr rfl, Quiet.refl k []⟩
  | cons g l =>
    obtain ⟨k₂, halloc, hl₂, -, hquiet⟩ := allocatePageFrame_cons h
    exact ⟨g, l, k₂, halloc, hl₂, fun _ hx => List.mem_cons_of_mem _ hx,
      (List.nodup_cons.mp h.nodup).1, .inl List.mem_cons_self,
      hquiet.mono fun _ hx => List.mem_cons_of_mem _ hx⟩

theorem readPage_putPage {m : Nat} (hm : m < 128)
    (h : (k.table p m).valid = true → (k.table p m).pfn ≠ f) :
    (k.putPage f pg).readPage p m = k.readPage p m := by
  unfold Kernel.readPage
  have hentry : (k.putPage f pg).entry p m = .ok (k.table p m) := Kernel.entry_ok hm
  rw [hentry, Kernel.entry_ok hm]
  simp only [bind, Except.bind]
  by_cases hv : ((k.table p m).valid && (k.table p m).readable) = true
  · rw [if_pos hv, if_pos hv, k.pmem_putPage_ne pg (h (by rw [Bool.and_eq_true] at hv; exact hv.1))]
  · rw [if_neg hv, if_neg hv]

/-- What the copying of the stack needs to know of a state it comes to. -/
structure StackCopying (f p : Nat) (l : List Nat) (k k₁ : Kernel) : Prop where
  list : ∃ l₁, FreeList k₁ l₁ ∧ ∀ g ∈ l₁, g ∈ l
  table : k₁.table p = k.table p
  untouched : Untouched l k k₁

/-- **The copying of the parent's stack passes on a page that is not the parent's.** -/
theorem copyParentStack_putPage (hl : FreeList k l) (hf : f ∉ l) (hf0 : f ≠ 0) (hpc : p ≠ c)
    (hold : ∀ i < 128, (k.table p i).valid = true → (k.table p i).pfn ≠ f) (pg : Word.Page) :
    copyParentStack p c p (k.putPage f pg) = (copyParentStack p c p k).map (fun k => k.putPage f pg) ∧
      ∀ k', copyParentStack p c p k = .ok k' → Untouched l k k' := by
  have hloop : copyParentStack p c p (k.putPage f pg) =
      (copyParentStack p c p k).map (fun k => k.putPage f pg) ∧
      ∀ k', copyParentStack p c p k = .ok k' → StackCopying f p l k k' := by
    unfold copyParentStack
    refine Loop.forRange_map (P := StackCopying f p l k) (g := fun k => k.putPage f pg) (s := k)
      ⟨⟨l, hl, fun _ hg => hg⟩, rfl, .refl l k⟩ ?_
    rintro i k₁ - - ⟨⟨l₁, hl₁, hsub⟩, htable, helse⟩
    have hf₁ : f ∉ l₁ := fun hm => hf (hsub f hm)
    have hentry : (k₁.putPage f pg).entry p i = k₁.entry p i := rfl
    unfold copyStackPage
    rw [hentry]
    cases he : k₁.entry p i with
    | error e => exact ⟨rfl, fun s' hs => by cases hs⟩
    | ok e =>
      simp only [bind, Except.bind]
      cases hv : e.valid with
      | false => exact ⟨rfl, fun s' hs => by cases hs; exact ⟨⟨l₁, hl₁, hsub⟩, htable, helse⟩⟩
      | true =>
        obtain ⟨m, rfl⟩ := Int.eq_ofNat_of_zero_le (entry_bound he).1
        have hm : m < 128 := by
          have := (entry_bound he).2
          omega
        rw [Kernel.entry_ok hm, htable, Except.ok.injEq] at he
        subst he
        obtain ⟨g, l₂, k₂, halloc, hl₂, hsub₂, hg₂, hg, hquiet⟩ := allocatePageFrame_any hl₁
        have hgf : g ≠ f := by
          rintro rfl
          exact hg.elim hf₁ hf0
        rw [allocatePageFrame_putPage hl₁ hf₁, halloc]
        simp only [Kernel.setEntry_ok hm, Bool.not_true, Bool.false_eq_true, if_false,
          frameOf_pageAtIndex]
        generalize hk₃ : (k₂.modify c (Kernel.putEntry m
          (createPTEWithOptions (k.table p m).options g))).setWindow 0 g = k₃
        have hk₃' : ((k₂.putPage f pg).modify c (Kernel.putEntry m
            (createPTEWithOptions (k.table p m).options g))).setWindow 0 g = k₃.putPage f pg := by
          rw [← hk₃]
          rfl
        have htable₃ : k₃.table p = k.table p := by
          rw [← hk₃, Kernel.table_setWindow, Kernel.table_modify_ne hpc, hquiet.table, htable]
        rw [hk₃', readPage_putPage hm (by rw [htable₃]; exact hold m hm)]
        cases hread : k₃.readPage p m with
        | error e => exact ⟨rfl, fun s' hs => by cases hs⟩
        | ok page =>
          have hwin : k₃.windowFrame 0 = g := by
            rw [← hk₃, Kernel.windowFrame_setWindow]
          simp only [setWindowPage_eq, Except.map, Except.ok.injEq]
          have hwin' : (k₃.putPage f pg).windowFrame 0 = g := hwin
          rw [hwin', hwin, Kernel.putPage_comm _ _ _ hgf]
          refine ⟨rfl, fun s' hs => ?_⟩
          subst hs
          refine ⟨⟨l₂, ?_, fun x hx => hsub x (hsub₂ x hx)⟩, htable₃, helse.trans ⟨fun q => ?_,
            fun i hi => ?_, fun x hx hx0 => ?_⟩⟩
          · exact FreeList.putPage (hl₂.of_eq (by rw [← hk₃]; rfl) (by rw [← hk₃]; rfl)
              (by rw [← hk₃]; rfl)) hg₂ page
          · change (k₃.proc q).pcb_frames = _
            rw [← hk₃, Kernel.proc_setWindow, Kernel.proc_modify, hquiet.proc]
            by_cases hqc : q = c
            · rw [hqc, Function.update_self]
              rfl
            · rw [Function.update_of_ne hqc]
          · change k₃.kernel_page_table i = _
            rw [← hk₃, Kernel.kpt_setWindow _ _ (by omega) (.inr hi)]
            exact hquiet.kpt i (.inr hi)
          · have hxg : x ≠ g := by
              rintro rfl
              exact hg.elim (fun hm => hx (hsub _ hm)) hx0
            rw [Kernel.pmem_putPage_ne _ _ hxg, ← hk₃]
            exact hquiet.pmem x fun hm => hx (hsub x hm)
  exact ⟨hloop.1, fun k' hk' => (hloop.2 k' hk').untouched⟩

/-- Both loops below the stack pointer leave physical memory alone. -/
theorem entryLoop_putPage {hi : Int} {body : Int → Kernel → Except Stop Kernel}
    (hbody : ∀ i k, body i (k.putPage f pg) = (body i k).map (fun k => k.putPage f pg) ∧
      ∀ k', body i k = .ok k' → Untouched [] k k' ∧ k'.pmem = k.pmem) :
    Loop.forRange 0 hi body (k.putPage f pg) =
        (Loop.forRange 0 hi body k).map (fun k => k.putPage f pg) ∧
      ∀ k', Loop.forRange 0 hi body k = .ok k' → Untouched [] k k' ∧ k'.pmem = k.pmem :=
  Loop.forRange_map (P := fun k' => Untouched [] k k' ∧ k'.pmem = k.pmem) ⟨.refl [] k, rfl⟩
    fun i k₁ _ _ hk₁ => ⟨(hbody i k₁).1, fun k' hk' => by
      obtain ⟨he, hp⟩ := (hbody i k₁).2 k' hk'
      exact ⟨hk₁.1.trans he, hp.trans hk₁.2⟩⟩

theorem untouched_setEntry {i : Int} {e : PTE} (h : k.setEntry p i e = .ok k') :
    Untouched [] k k' ∧ k'.pmem = k.pmem := by
  unfold Kernel.setEntry at h
  split at h
  · cases h
    refine ⟨⟨fun q => ?_, fun _ _ => rfl, fun _ _ _ => rfl⟩, rfl⟩
    rw [Kernel.proc_modify]
    by_cases hq : q = p
    · rw [hq, Function.update_self]
      rfl
    · rw [Function.update_of_ne hq]
  · cases h

theorem setCopyOnWrite_putPage (cur table : PID) (is_child : Bool) (k : Kernel) (f : Nat)
    (pg : Word.Page) : setCopyOnWrite cur table is_child (k.putPage f pg) =
        (setCopyOnWrite cur table is_child k).map (fun k => k.putPage f pg) ∧
      ∀ k', setCopyOnWrite cur table is_child k = .ok k' → Untouched [] k k' ∧ k'.pmem = k.pmem := by
  unfold setCopyOnWrite
  refine entryLoop_putPage fun i k => ?_
  have hentry : (k.putPage f pg).entry table i = k.entry table i := rfl
  unfold markEntry
  rw [hentry]
  cases he : k.entry table i with
  | error e => exact ⟨rfl, fun k' hk' => by cases hk'⟩
  | ok e =>
    simp only [bind, Except.bind]
    cases hv : e.valid with
    | false => exact ⟨rfl, fun k' hk' => by cases hk'; exact ⟨.refl [] k, rfl⟩⟩
    | true =>
      cases is_child with
      | false => exact ⟨setEntry_putPage _ _ _ _ _, fun k' hk' => untouched_setEntry hk'⟩
      | true =>
        refine ⟨setEntry_putPage (k := k.setFrc e.pfn (char (k.frc_table e.pfn + 1))) _ _ _ _ _,
          fun k' hk' => ?_⟩
        obtain ⟨hel, hpm⟩ := untouched_setEntry
          (k := k.setFrc e.pfn (char (k.frc_table e.pfn + 1))) hk'
        exact ⟨⟨hel.frames, hel.stack, hel.pmem⟩, hpm⟩

theorem increaseFRCEntries_putPage (cur child : PID) (k : Kernel) (f : Nat) (pg : Word.Page) :
    increaseFRCEntries cur child (k.putPage f pg) =
        (increaseFRCEntries cur child k).map (fun k => k.putPage f pg) ∧
      ∀ k', increaseFRCEntries cur child k = .ok k' → Untouched [] k k' ∧ k'.pmem = k.pmem := by
  unfold increaseFRCEntries
  refine entryLoop_putPage fun i k => ?_
  have hentry : (k.putPage f pg).entry child i = k.entry child i := rfl
  unfold raiseEntry
  rw [hentry]
  cases he : k.entry child i with
  | error e => exact ⟨rfl, fun k' hk' => by cases hk'⟩
  | ok e =>
    simp only [bind, Except.bind]
    cases hv : e.valid with
    | false => exact ⟨rfl, fun k' hk' => by cases hk'; exact ⟨.refl [] k, rfl⟩⟩
    | true =>
      refine ⟨rfl, fun k' hk' => ?_⟩
      cases hk'
      exact ⟨⟨fun _ => rfl, fun _ _ => rfl, fun _ _ _ => rfl⟩, rfl⟩

end Yalnix
