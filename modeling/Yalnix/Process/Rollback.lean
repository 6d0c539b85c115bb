import Yalnix.Memory.Allocator
import Yalnix.Process.Boot
import Yalnix.Process.Threads

/-!
# Allocations that fail half-way

`createProcessDescriptor` gives back the frames it has got when it cannot get the next one, and the
result of the one that failed with them: the address 0, which is that of a frame.  `copyParentStack`
takes the address 0 for that of a frame as well.

* `RolledBack` — what a descriptor that could not be made leaves; `descriptor_never_rolled_back`.
* `NoTrace` — what a fork that fails leaves; `failing_fork_traces`.
-/

set_option autoImplicit false

namespace Yalnix

variable {k k' k₁ : Kernel} {l l' : List Nat} {f p c i j sb : Nat} {m₂ : Bool}

/-! ## The descriptor -/

/-- Whether or not the frame goes on the list. -/
theorem freePageFrame_frc (frame : Nat) (k : Kernel) :
    (freePageFrame frame k).frc_table =
      Function.update k.frc_table (frameOf frame) (char (k.frc_table (frameOf frame) - 1)) := by
  unfold freePageFrame
  dsimp only
  split
  · rfl
  · split
    · rfl
    · rfl

/-- No count is left alone by a decrement, not even one that wraps. -/
theorem char_pred_ne (x : Int) : char (x - 1) ≠ x := by
  unfold char Word.wrap Int.bmod
  norm_num
  split <;> omega

/-- The frames that were free are free again, no count has changed, and no other frame has been
written to. -/
structure RolledBack (k k' : Kernel) (l : List Nat) : Prop where
  free : ∃ l', FreeList k' l' ∧ ∀ f, f ∈ l' ↔ f ∈ l
  counts : k'.frc_table = k.frc_table
  used : ∀ f, f ∉ l → k'.pmem f = k.pmem f

/-- When frames run out, `freePageFrame(0)` is called. -/
theorem createProcessDescriptor_short (hl : FreeList k l) (hpid : (k.max_pid : Int) < LONG_MAX)
    (h : createProcessDescriptor true k = (none, k')) :
    k'.frc_table 0 = char (k.frc_table 0 - 1) := by
  have hzero : frameOf 0 = 0 := rfl
  unfold createProcessDescriptor at h
  rw [nextAvailablePID_eq rfl hpid] at h
  simp only [Bool.not_true, Bool.false_eq_true, if_false, Nat.add_eq_zero_iff, one_ne_zero,
    and_false] at h
  cases l with
  | nil =>
    -- the first frame is missing
    have hlist : FreeList (({ k with max_pid := k.max_pid + 1 } : Kernel).modify (k.max_pid + 1)
        fun _ => newProcess) [] := hl.of_eq rfl rfl rfl
    rw [allocatePageFrame_nil hlist] at h
    simp only [if_true, Prod.mk.injEq, true_and] at h
    subst h
    rw [freePageFrame_frc, hzero, Function.update_self]
    rfl
  | cons f l =>
    have hf := (hl.frame f List.mem_cons_self).1
    obtain ⟨ka, halloc, hlist, hfrc, -⟩ := allocatePageFrame_cons
      (k := ({ k with max_pid := k.max_pid + 1 } : Kernel).modify (k.max_pid + 1) fun _ => newProcess)
      (hl.of_eq rfl rfl rfl)
    simp only [halloc, pageAtIndex_ne_zero hf, if_false] at h
    cases l with
    | nil =>
      -- the second frame is missing, and the first one is given back after the address 0
      have hnil : FreeList (ka.modify (k.max_pid + 1) (setPcbFrame 0 (pageAtIndex f))) [] :=
        hlist.of_eq rfl rfl rfl
      rw [allocatePageFrame_nil hnil] at h
      simp only [if_true, Prod.mk.injEq, true_and] at h
      subst h
      rw [freePageFrame_frc, frameOf_pageAtIndex, Function.update_of_ne hf.ne, freePageFrame_frc,
        hzero, Function.update_self]
      simp only [Kernel.frc_modify, hfrc, Function.update_of_ne hf.ne]
    | cons g l =>
      have hg := (hl.frame g (by simp)).1
      obtain ⟨kb, halloc', -⟩ := allocatePageFrame_cons
        (k := ka.modify (k.max_pid + 1) (setPcbFrame 0 (pageAtIndex f))) (hlist.of_eq rfl rfl rfl)
      simp only [halloc', pageAtIndex_ne_zero hg, if_false] at h
      cases h

theorem fullKernel_short : createProcessDescriptor true fullKernel =
    (none, (createProcessDescriptor true fullKernel).2) := by
  have hnone : (createProcessDescriptor true fullKernel).1 = none := rfl
  exact Prod.ext hnone rfl

/-- **Without free frames, frame 0 is given back, which is in use.** -/
theorem frame_zero_given_back : ¬ ∀ k k' l, FreeList k l → (k.max_pid : Int) < LONG_MAX →
    createProcessDescriptor true k = (none, k') → RolledBack k k' l := by
  intro hall
  have hback := hall fullKernel _ [] fullKernel_refines.list (by decide) fullKernel_short
  have hcount := createProcessDescriptor_short fullKernel_refines.list (by decide) fullKernel_short
  rw [hback.counts] at hcount
  exact char_pred_ne 1 hcount.symm

/-- **A descriptor that cannot be made for want of frames is never rolled back.** -/
theorem descriptor_never_rolled_back (hl : FreeList k l) (hpid : (k.max_pid : Int) < LONG_MAX)
    (h : createProcessDescriptor true k = (none, k')) :
    k'.frc_table 0 ≠ k.frc_table 0 ∧ ¬ RolledBack k k' l := by
  have hcount := createProcessDescriptor_short hl hpid h
  have hne : k'.frc_table 0 ≠ k.frc_table 0 := by
    rw [hcount]
    exact char_pred_ne _
  exact ⟨hne, fun hback => hne (by rw [hback.counts])⟩

theorem descriptor_never_rolled_back_full :
    (createProcessDescriptor true fullKernel).2.frc_table 0 ≠ 1 :=
  (descriptor_never_rolled_back fullKernel_refines.list (by decide) fullKernel_short).1

/-! ## The stack -/

/-- One of the first `i` pages of `c` is on frame 0. -/
def OnFrameZero (k : Kernel) (c i : Nat) : Prop := ∃ j < i, (k.table c j).frame = some 0

/-- How far the copying has got with the frames of `l`. -/
structure Copying (k k' : Kernel) (p c sb : Nat) (l : List Nat) (i : Nat) : Prop where
  parent : k'.table p = k.table p
  stack : ∀ j, i ≤ j → k'.table c j = k.table p j
  frames : (∃ l', FreeList k' l' ∧ l'.length + stackPages k p sb = l.length + stackPages k p i) ∨
    OnFrameZero k' c i

/-- One page of the stack. -/
theorem Copying.step (h : Copying k k₁ p c sb l i) (hi : i < 128) (hpc : p ≠ c)
    (hrun : (do
      let old_entry ← k₁.entry p i
      if !old_entry.valid then .ok k₁
      else
        let (frame, k) := allocatePageFrame k₁
        let k ← k.setEntry c i (createPTEWithOptions old_entry.options (frameOf frame))
        let k := k.setWindow 0 (frameOf frame)
        let page ← k.readPage p i
        Except.ok (k.setWindowPage 0 page)) = Except.ok (ε := Stop) k') :
    Copying k k' p c sb l (i + 1) := by
  rw [Kernel.entry_ok hi] at hrun
  simp only [bind, Except.bind] at hrun
  have hcount := stackPages_succ (k := k) (p := p) hi
  cases hv : (k₁.table p i).valid with
  | false =>
    simp only [hv, Bool.not_false, if_true, Except.ok.injEq] at hrun
    subst hrun
    rw [h.parent] at hv
    simp only [hv, Bool.false_eq_true, if_false] at hcount
    refine ⟨h.parent, fun j hj => h.stack j (by omega), ?_⟩
    rcases h.frames with ⟨l', hl', hlen⟩ | ⟨j, hj, hzero⟩
    · exact .inl ⟨l', hl', by omega⟩
    · exact .inr ⟨j, by omega, hzero⟩
  | true =>
    simp only [hv, Bool.not_true, Bool.false_eq_true, if_false, Kernel.setEntry_ok hi] at hrun
    rw [create_options hv] at hrun
    split at hrun
    · cases hrun
    rename_i page hpage
    simp only [Except.ok.injEq] at hrun
    subst hrun
    rw [h.parent] at hv
    simp only [hv, if_true] at hcount
    have hproc := allocatePageFrame_proc k₁
    have htable : ∀ q, (allocatePageFrame k₁).2.table q = k₁.table q := by
      intro q
      unfold Kernel.table
      rw [hproc]
    refine ⟨?_, fun j hj => ?_, ?_⟩
    · change (Kernel.modify _ c _).table p = _
      rw [Kernel.table_modify_ne hpc, htable, h.parent]
    · change (Kernel.modify _ c _).table c j = _
      rw [Kernel.table_putEntry_self, Function.update_of_ne (by omega), htable]
      exact h.stack j (by omega)
    · rcases h.frames with ⟨l', hl', hlen⟩ | hzero
      · cases l' with
        | nil =>
          -- the page goes to the frame of address 0
          right
          refine ⟨i, by omega, ?_⟩
          change ((Kernel.modify _ c _).table c i).frame = _
          rw [Kernel.table_putEntry_self, Function.update_self, allocatePageFrame_nil hl']
          exact frame_eq_some.mpr ⟨by rw [h.parent]; exact hv, show frameOf 0 = 0 from rfl⟩
        | cons f l' =>
          left
          obtain ⟨k₂, halloc, hlist, -⟩ := allocatePageFrame_cons hl'
          refine ⟨l', ?_, by simp only [List.length_cons] at hlen; omega⟩
          simp only [halloc, frameOf_pageAtIndex]
          refine hlist.congr rfl rfl fun g hg => ?_
          have hgf : g ≠ f := fun he => (List.nodup_cons.mp hl'.nodup).1 (he ▸ hg)
          rw [Kernel.pmem_setWindowPage, Kernel.windowFrame_setWindow, Function.update_of_ne hgf]
          rfl
      · right
        obtain ⟨j, hj, hzero⟩ := hzero
        refine ⟨j, by omega, ?_⟩
        change ((Kernel.modify _ c _).table c j).frame = _
        rw [Kernel.table_putEntry_self, Function.update_of_ne (by omega), htable]
        exact hzero

/-- **Where there are fewer free frames than pages to copy, the child gets a page on frame 0.** -/
theorem copyParentStack_short (hl : FreeList k l) (hsb : stack_base p k = sb) (hpc : p ≠ c)
    (htable : k.table c = k.table p) (hfew : l.length < stackPages k p sb)
    (h : copyParentStack p c p k = .ok k') : OnFrameZero k' c 128 ∧ k'.table p = k.table p := by
  have hle : sb ≤ 128 := by
    by_contra hgt
    have hempty : stackPages k p sb = 0 := by
      unfold stackPages
      rw [Finset.Ico_eq_empty (by omega)]
      rfl
    omega
  unfold copyParentStack at h
  rw [hsb] at h
  have hend : stackPages k p 128 = 0 := by
    unfold stackPages
    rw [Finset.Ico_self]
    rfl
  have hinv := Loop.forRange_inv (P := fun i k' => Copying k k' p c sb l i.toNat)
    (by unfold MAX_PT_LEN; omega) ?_ ?_ h
  · refine ⟨?_, hinv.parent⟩
    rcases hinv.frames with ⟨l', -, hlen⟩ | hzero
    · have : stackPages k p (Int.toNat MAX_PT_LEN) = 0 := hend
      omega
    · exact hzero
  · exact ⟨rfl, fun j _ => by rw [htable], .inl ⟨l, hl, rfl⟩⟩
  · intro i k₁ k₂ hlo hhi hP hrun
    obtain ⟨i, rfl⟩ := Int.eq_ofNat_of_zero_le (show 0 ≤ i by omega)
    rw [show ((i : Int) + 1).toNat = i + 1 by omega]
    rw [Int.toNat_natCast] at hP
    exact hP.step (by unfold MAX_PT_LEN at hhi; omega) hpc hrun

/-! ## The rest of a fork -/

theorem OnFrameZero.of_table {n : Nat} (h : OnFrameZero k c n) (ht : k'.table c = k.table c) :
    OnFrameZero k' c n := by
  unfold OnFrameZero
  rw [ht]
  exact h

theorem OnFrameZero.loop {n : Nat} {hi : Int} {body : Int → Kernel → Except Stop Kernel}
    (hbody : ∀ i k k', OnFrameZero k c n → body i k = .ok k' → OnFrameZero k' c n)
    (h : OnFrameZero k c n) (hrun : Loop.forRange 0 hi body k = .ok k') : OnFrameZero k' c n := by
  by_cases hhi : hi ≤ 0
  · rw [Loop.forRange_empty hhi] at hrun
    cases hrun
    exact h
  · exact Loop.forRange_inv (P := fun _ k => OnFrameZero k c n) (by omega) h
      (fun i s s' _ _ hP hs => hbody i s s' hP hs) hrun

/-- Protecting an entry changes its flags only. -/
theorem OnFrameZero.setCopyOnWrite {n : Nat} {t : PID} {child : Bool} (h : OnFrameZero k c n)
    (hrun : setCopyOnWrite p t child k = .ok k') : OnFrameZero k' c n := by
  refine h.loop (fun i k k' hzero hbody => ?_) hrun
  unfold markEntry at hbody
  cases he : k.entry t i with
  | error e =>
    rw [he] at hbody
    cases hbody
  | ok e =>
    obtain ⟨hlo, hhi⟩ := entry_bound he
    obtain ⟨i, rfl⟩ := Int.eq_ofNat_of_zero_le hlo
    have hi : i < 128 := by omega
    have hte : k.table t i = e := by
      rw [Kernel.entry_ok hi] at he
      exact Except.ok.inj he
    simp only [he, bind, Except.bind, Kernel.setEntry_ok hi] at hbody
    split at hbody
    · cases hbody
      exact hzero
    · cases hbody
      obtain ⟨j, hj, hframe⟩ := hzero
      refine ⟨j, hj, ?_⟩
      have htable : ∀ q, (if child = true then
          k.setFrc e.pfn (char (k.frc_table e.pfn + 1)) else k).table q = k.table q := by
        intro q
        split
        · rfl
        · rfl
      by_cases htc : t = c
      · subst htc
        rw [Kernel.table_putEntry_self, htable]
        by_cases hji : j = i
        · subst hji
          rw [Function.update_self, protect_frame]
          rw [hte] at hframe
          rw [(frame_eq_some.mp hframe).2]
        · rw [Function.update_of_ne hji]
          exact hframe
      · rw [Kernel.table_modify_ne (Ne.symm htc), htable]
        exact hframe

theorem OnFrameZero.increaseFRCEntries {n q : Nat} (h : OnFrameZero k c n)
    (hrun : increaseFRCEntries p q k = .ok k') : OnFrameZero k' c n := by
  refine h.loop (fun i k k' hzero hbody => ?_) hrun
  unfold raiseEntry at hbody
  cases he : k.entry q i with
  | error e =>
    rw [he] at hbody
    cases hbody
  | ok e =>
    simp only [he, bind, Except.bind] at hbody
    split at hbody
    · cases hbody
      exact hzero
    · cases hbody
      exact hzero.of_table rfl

/-! ## Forks that fail -/

/-- A fork or a thread creation by `p` that gets its descriptor, but not the page table, or not a
frame for every page of the stack. -/
structure Failing (k : Kernel) (p : Nat) (l : List Nat) (m₂ : Bool) : Prop where
  list : FreeList k l
  two : 2 ≤ l.length
  pid : (k.max_pid : Int) < LONG_MAX
  leader : (k.proc p).thread_leader = none
  le : p ≤ k.max_pid
  fails : m₂ = false ∨ ∃ sb : Nat, stack_base p k = sb ∧ l.length < 2 + stackPages k p sb

/-- The call returns `ERROR`, what the child had is given back, the other processes are as they were,
and nothing but frames of `l` has been mapped or written. -/
structure NoTrace (k : Kernel) (l : List Nat) (result : Int) (k' : Kernel) : Prop where
  error : result = ERROR
  frames : ∃ l', FreeList k' l' ∧ ∀ f, f ∈ l' ↔ f ∈ l
  table : (k'.proc (k.max_pid + 1)).live = false
  counts : ∀ f, f ∉ l → k'.frc_table f = k.frc_table f
  processes : ∀ q, q ≤ k.max_pid → k'.proc q = k.proc q
  mapped : ∀ q i f, (k'.table q i).frame = some f → (k.table q i).frame = some f ∨ f ∈ l
  written : ∀ f, f ∉ l → k'.pmem f = k.pmem f

theorem two_of_length (h : 2 ≤ l.length) : ∃ f₀ f₁ l₁, l = f₀ :: f₁ :: l₁ := by
  cases l with
  | nil => simp at h
  | cons f₀ l =>
    cases l with
    | nil => simp at h
    | cons f₁ l₁ => exact ⟨f₀, f₁, l₁, rfl⟩

/-- What a fork leaves that fails: two frames that are lost, or a child with a page on frame 0. -/
def Traces (k k' : Kernel) (l : List Nat) (m₂ : Bool) (result : Int) : Prop :=
  m₂ = false ∧ result = ERROR ∧ FreeList k' (l.drop 2) ∨
  m₂ = true ∧ result = ((k.max_pid + 1 : Nat) : Int) ∧ OnFrameZero k' (k.max_pid + 1) 128

theorem Traces.not_noTrace {result : Int} (h : Traces k k' l m₂ result) (hl : FreeList k l)
    (htwo : 2 ≤ l.length) : ¬ NoTrace k l result k' := by
  intro hno
  rcases h with ⟨-, -, hdrop⟩ | ⟨-, hres, -⟩
  · obtain ⟨l', hl', hmem⟩ := hno.frames
    rw [hl'.unique hdrop] at hmem
    obtain ⟨f₀, f₁, l₁, rfl⟩ := two_of_length htwo
    have hin : f₀ ∈ l₁ := (hmem f₀).mpr List.mem_cons_self
    exact (List.nodup_cons.mp hl.nodup).1 (List.mem_cons_of_mem _ hin)
  · have := hres.symm.trans hno.error
    unfold ERROR at this
    omega

theorem Failing.spawn {c : Option PID} (h : Failing k p l m₂)
    (hrun : spawn true m₂ p k = .ok (c, k')) :
    m₂ = false ∧ c = none ∧ FreeList k' (l.drop 2) ∨
    m₂ = true ∧ c = some (k.max_pid + 1) ∧ OnFrameZero k' (k.max_pid + 1) 128 := by
  obtain ⟨f₀, f₁, l₁, rfl⟩ := two_of_length h.two
  obtain ⟨-, kd, hdesc, -, -, hlist, honly, hmax, hproc, -⟩ :=
    createProcessDescriptor_two rfl h.list h.pid
  have hpc : p ≠ k.max_pid + 1 := by
    have := h.le
    omega
  unfold spawn at hrun
  simp only [h.leader, Option.isSome_none, Bool.false_eq_true, if_false, hdesc] at hrun
  cases m₂ with
  | false =>
    simp only [createPageTable, Bool.not_false, if_true, Except.ok.injEq, Prod.mk.injEq] at hrun
    obtain ⟨rfl, rfl⟩ := hrun
    exact .inl ⟨rfl, rfl, hlist⟩
  | true =>
    obtain ⟨sb, hsb, hfew⟩ := h.fails.resolve_left (by simp)
    simp only [createPageTable, Bool.not_true, Bool.false_eq_true, if_false, SUCCESS, ERROR,
      show ¬ (0 : Int) = -1 by omega, bind, Except.bind] at hrun
    split at hrun
    · cases hrun
    rename_i k₂ hcopy
    simp only [Except.ok.injEq, Prod.mk.injEq] at hrun
    obtain ⟨rfl, rfl⟩ := hrun
    generalize hkt : (kd.modify (k.max_pid + 1) fun P =>
      { P with live := true, page_table := kd.table p }) = kt at hcopy
    have htp : kt.table p = k.table p := by
      rw [← hkt, Kernel.table_modify_ne hpc, honly.table_ne hpc]
    have hsbt : stack_base p kt = sb := by
      rw [← hsb, ← hkt]
      unfold stack_base
      rw [Kernel.proc_modify, Function.update_of_ne hpc, honly.proc p hpc]
    have hpages : stackPages kt p sb = stackPages k p sb := by
      unfold stackPages
      rw [htp]
    have hzero := (copyParentStack_short (k := kt) (l := l₁) (hlist.of_eq (by rw [← hkt]; rfl)
      (by rw [← hkt]; rfl) (by rw [← hkt]; rfl)) hsbt hpc (by
        rw [htp, ← hkt]
        simp [Kernel.table, honly.proc p hpc]) (by
        rw [hpages]
        simp only [List.length_cons] at hfew
        omega) hcopy).1
    refine .inr ⟨rfl, rfl, hzero.of_table ?_⟩
    unfold createUserContext Kernel.table
    rw [Kernel.proc_modify_self]
    rfl

theorem Failing.fork {r : Int} (h : Failing k p l m₂)
    (hrun : forkProcess true m₂ p k = .ok (r, k')) : Traces k k' l m₂ r := by
  unfold forkProcess at hrun
  cases hs : Yalnix.spawn true m₂ p k with
  | error e =>
    rw [hs] at hrun
    cases hrun
  | ok s =>
    obtain ⟨c, k₁⟩ := s
    rcases h.spawn hs with ⟨hm, rfl, hlist⟩ | ⟨hm, rfl, hzero⟩
    · simp only [hs, bind, Except.bind, Except.ok.injEq, Prod.mk.injEq] at hrun
      obtain ⟨rfl, rfl⟩ := hrun
      exact .inl ⟨hm, rfl, hlist⟩
    · simp only [hs, bind, Except.bind] at hrun
      split at hrun
      · cases hrun
      rename_i k₂ hparent
      split at hrun
      · cases hrun
      rename_i k₃ hchild
      simp only [Except.ok.injEq, Prod.mk.injEq] at hrun
      obtain ⟨rfl, rfl⟩ := hrun
      exact .inr ⟨hm, rfl, ((hzero.setCopyOnWrite hparent).setCopyOnWrite hchild).of_table rfl⟩

theorem Failing.createThread {r : Int} (h : Failing k p l m₂)
    (hrun : Yalnix.createThread true m₂ p k = .ok (r, k')) : Traces k k' l m₂ r := by
  unfold Yalnix.createThread at hrun
  cases hs : Yalnix.spawn true m₂ p k with
  | error e =>
    rw [hs] at hrun
    cases hrun
  | ok s =>
    obtain ⟨c, k₁⟩ := s
    rcases h.spawn hs with ⟨hm, rfl, hlist⟩ | ⟨hm, rfl, hzero⟩
    · simp only [hs, bind, Except.bind, Except.ok.injEq, Prod.mk.injEq] at hrun
      obtain ⟨rfl, rfl⟩ := hrun
      exact .inl ⟨hm, rfl, hlist⟩
    · simp only [hs, bind, Except.bind] at hrun
      split at hrun
      · cases hrun
      rename_i k₂ hcounts
      simp only [Except.ok.injEq, Prod.mk.injEq] at hrun
      obtain ⟨rfl, rfl⟩ := hrun
      refine .inr ⟨hm, rfl, (hzero.increaseFRCEntries hcounts).of_table ?_⟩
      have hclone : ∀ q k, (cloneKernelContext p q k).table = k.table := fun _ _ => rfl
      rw [hclone]
      simp [Kernel.table]

/-- The first process, with two frames left: they go to the descriptor, and there is none for the
stack. -/
theorem failing_machine {l : List Nat} (hl : FreeList (machine 2) l) (hlen : l.length = 2) (m₂ : Bool) :
    Failing (machine 2) 1 l m₂ where
  list := hl
  two := by omega
  pid := by
    rw [max_pid_machine (by omega)]
    decide
  leader := by
    rw [proc_machine (by omega)]
    rfl
  le := by rw [max_pid_machine (by omega)]
  fails := by
    refine .inr ⟨127, by decide, ?_⟩
    rw [stackPages_succ (by omega), if_pos (by decide), hlen]
    omega

/-- **A fork whose page table finds no room keeps the frames of the descriptor.** -/
theorem forked_frames_lost : ¬ ∀ k p l m₂, Failing k p l m₂ →
    (∃ r, forkProcess true m₂ p k = .ok r ∧ NoTrace k l r.1 r.2) ∧
    ∃ r, createThread true m₂ p k = .ok r ∧ NoTrace k l r.1 r.2 := by
  intro hall
  obtain ⟨l, hc, hlen, -⟩ := machine_counted (N := 2) (by omega)
  have hfail := failing_machine hc.list hlen false
  obtain ⟨⟨⟨r, k'⟩, hrun, hno⟩, -⟩ := hall _ _ _ _ hfail
  exact (hfail.fork hrun).not_noTrace hfail.list hfail.two hno

/-- **A fork or a thread creation that cannot get its page table, or a frame for its stack, always
leaves a trace: lost frames in the first case, a child with a page on frame 0 in the second.** -/
theorem failing_fork_traces (h : Failing k p l m₂) :
    (∀ r k', forkProcess true m₂ p k = .ok (r, k') → Traces k k' l m₂ r) ∧
    (∀ r k', createThread true m₂ p k = .ok (r, k') → Traces k k' l m₂ r) ∧
    (¬ ∃ r, forkProcess true m₂ p k = .ok r ∧ NoTrace k l r.1 r.2) ∧
    ¬ ∃ r, createThread true m₂ p k = .ok r ∧ NoTrace k l r.1 r.2 := by
  refine ⟨fun r k' hrun => h.fork hrun, fun r k' hrun => h.createThread hrun, ?_, ?_⟩
  · rintro ⟨⟨r, k'⟩, hrun, hno⟩
    exact (h.fork hrun).not_noTrace h.list h.two hno
  · rintro ⟨⟨r, k'⟩, hrun, hno⟩
    exact (h.createThread hrun).not_noTrace h.list h.two hno

/-- The page table finds no room; the page of the stack finds no frame, and the child has it on
frame 0. -/
theorem failing_fork_traces_machine : ∃ l,
    (Failing (machine 2) 1 l false ∧
      ¬ ∃ r, forkProcess true false 1 (machine 2) = .ok r ∧ NoTrace (machine 2) l r.1 r.2) ∧
    Failing (machine 2) 1 l true ∧
    (¬ ∃ r, forkProcess true true 1 (machine 2) = .ok r ∧ NoTrace (machine 2) l r.1 r.2) ∧
    (forkProcess true true 1 (machine 2)).toOption.map (fun r => (r.1, (r.2.table 2 127).frame)) =
      some (2, some 0) := by
  obtain ⟨l, hc, hlen, -⟩ := machine_counted (N := 2) (by omega)
  have hfail := failing_machine hc.list hlen
  exact ⟨l, ⟨hfail false, (failing_fork_traces (hfail false)).2.2.1⟩, hfail true,
    (failing_fork_traces (hfail true)).2.2.1, by decide +kernel⟩

end Yalnix
