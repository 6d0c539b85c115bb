import Yalnix.Stack.Untouched

/-!
# Forks that write the kernel stack

The code on bytes does what the code of `Yalnix.Process.Fork` does, and leaves one page different:
the base of the new stack.

* `cloneStack_eq` — the child's stack is the parent's, with a `ProcessInfo` of its own.
* `spawn_bytes`, `forkProcess_bytes`, `createThread_bytes`.
-/

set_option autoImplicit false

namespace Yalnix

open RefCount (refs)
open Yalnix.Stack (pcbFrame stackFrame stackPage getCurrentProcess readInfo writeInfo
  readInfo_writeInfo)

variable {k k' k₁ : Kernel} {l l' : List Nat} {f f₀ f₁ g p c q n i j sb cur : Nat} {a : Int}
  {leak : Nat → Nat} {pg pg' : Word.Page}

/-! ## Cloning the stack -/

theorem frameOf_pcb_frames : frameOf ((k.proc q).pcb_frames j) = pcbFrame k q j := rfl

@[simp] theorem pcbFrame_setWindow : pcbFrame (k.setWindow i f) q j = pcbFrame k q j := rfl
@[simp] theorem pcbFrame_putPage : pcbFrame (k.putPage f pg) q j = pcbFrame k q j := rfl
@[simp] theorem windowFrame_putPage : (k.putPage f pg).windowFrame i = k.windowFrame i := rfl
@[simp] theorem stackFrame_putPage : stackFrame (k.putPage f pg) j = stackFrame k j := rfl

@[simp] theorem stackFrame_setWindow (hi : i < 3) :
    stackFrame (k.setWindow i f) j = stackFrame k j := by
  unfold stackFrame
  rw [Kernel.kpt_setWindow _ _ hi (.inr (by simp only [KERNEL_STACK_BASE, frameOf]; omega))]

theorem putPage_setWindow : (k.putPage f pg).setWindow i g = (k.setWindow i g).putPage f pg := rfl

/-- The windows as the cloning of a stack to frames `f₀` and `f₁` leaves them. -/
def cloneWindows (f₀ f₁ : Nat) (k : Kernel) : Kernel :=
  ((k.setWindow 0 f₀).setWindow 1 f₁).setWindow 0 f₀

theorem cloneKernelContext_pages (hne : pcbFrame k p 1 ≠ pcbFrame k c 0) : cloneKernelContext p c k =
    ((cloneWindows (pcbFrame k c 0) (pcbFrame k c 1) k).putPage (pcbFrame k c 0)
      (k.pmem (pcbFrame k p 0))).putPage (pcbFrame k c 1) (k.pmem (pcbFrame k p 1)) := by
  unfold cloneKernelContext
  simp only [setWindowPage_eq, frameOf_pcb_frames, pcbFrame_setWindow, pcbFrame_putPage, windowFrame_putPage,
    Kernel.windowFrame_setWindow, putPage_setWindow, Kernel.pmem_setWindow]
  rw [Kernel.pmem_putPage_ne _ _ hne]
  rfl

theorem cloneStack_pages (hs : ∀ j < 2, stackFrame k j = pcbFrame k p j)
    (h₁ : pcbFrame k p 1 ≠ pcbFrame k c 0) : Stack.cloneStack c k =
    (((cloneWindows (pcbFrame k c 0) (pcbFrame k c 1) k).putPage (pcbFrame k c 0)
      (k.pmem (pcbFrame k p 0))).putPage (pcbFrame k c 1) (k.pmem (pcbFrame k p 1))).putPage
        (pcbFrame k c 0) (writeInfo (readInfo (k.pmem (pcbFrame k c 0)))
          (((k.putPage (pcbFrame k c 0) (k.pmem (pcbFrame k p 0))).putPage (pcbFrame k c 1)
            (k.pmem (pcbFrame k p 1))).pmem (pcbFrame k c 0))) := by
  have hidem : (k.setWindow 0 (pcbFrame k c 0)).setWindow 0 (pcbFrame k c 0) =
      k.setWindow 0 (pcbFrame k c 0) := by
    unfold Kernel.setWindow
    simp only [Function.update_idem]
  unfold Stack.cloneStack
  simp (disch := omega) only [setWindowPage_eq, pcbFrame_setWindow, pcbFrame_putPage,
    windowFrame_putPage, Kernel.windowFrame_setWindow, putPage_setWindow, Kernel.pmem_setWindow,
    Kernel.window, stackPage, stackFrame_setWindow, stackFrame_putPage, hidem, hs]
  rw [Kernel.pmem_putPage_ne _ _ h₁]
  rfl

/-- **The child's stack is the parent's, but for the `ProcessInfo` that was there before.** -/
theorem cloneStack_eq (pg : Word.Page) (hs : ∀ j < 2, stackFrame k j = pcbFrame k p j)
    (h₀ : ∀ j < 2, pcbFrame k p j ≠ pcbFrame k c 0) (hne : pcbFrame k c 0 ≠ pcbFrame k c 1) :
    Stack.cloneStack c (k.putPage (pcbFrame k c 0) pg) =
      (cloneKernelContext p c k).putPage (pcbFrame k c 0)
        (writeInfo (readInfo pg) (k.pmem (pcbFrame k p 0))) := by
  have hp₀ := h₀ 0 (by omega)
  have hp₁ := h₀ 1 (by omega)
  rw [cloneStack_pages (k := k.putPage (pcbFrame k c 0) pg) (p := p) hs hp₁,
    cloneKernelContext_pages hp₁]
  simp only [pcbFrame_putPage, Kernel.pmem_putPage_self, Kernel.pmem_putPage_ne _ _ hp₀,
    Kernel.pmem_putPage_ne _ _ hp₁, Kernel.pmem_putPage_ne _ _ hne, Kernel.putPage_same]
  have hwin : cloneWindows (pcbFrame k c 0) (pcbFrame k c 1) (k.putPage (pcbFrame k c 0) pg) =
      (cloneWindows (pcbFrame k c 0) (pcbFrame k c 1) k).putPage (pcbFrame k c 0) pg := rfl
  rw [hwin, Kernel.putPage_same]

/-! ## The new process -/

/-- `p` runs, on its own stack. -/
structure OnStack (k : Kernel) (p : PID) : Prop where
  running : Running k p
  frame : ∀ j < 2, stackFrame k j = pcbFrame k p j
  process : getCurrentProcess k = p

/-- The frames of a stack in use are neither free nor frame 0. -/
theorem OnStack.apart (h : OnStack k p) (hc : Counted k (slots k.max_pid) leak l)
    (hpcb : PcbOk (k.proc p)) (hj : j < 2) : stackFrame k j ∉ l ∧ stackFrame k j ≠ 0 := by
  have hpos := h.running.pos
  rw [h.frame j hj]
  refine ⟨hc.pcb_not_free h.running hpcb hj, ?_⟩
  have := (hc.frame (p, 128 + j) (h.running.pcb_slot hj) (by simp only; omega) _
    (mapping_pcbFrame (by omega) hpcb.1 j)).1
  omega

theorem windowFrame_modify (u : Process → Process) :
    (k.modify p u).windowFrame i = k.windowFrame i := rfl

/-- Window 0 still shows the base of the new stack. -/
theorem createProcessDescriptor_window (hl : FreeList k (f₀ :: f₁ :: l))
    (hpid : (k.max_pid : Int) < LONG_MAX) (h : createProcessDescriptor true k = (some c, k')) :
    k'.windowFrame 0 = f₀ := by
  have hf₀ := (hl.frame f₀ (by simp)).1
  have hf₁ := (hl.frame f₁ (by simp)).1
  obtain ⟨ka, halloc₀, hlist₀, -, -⟩ := allocatePageFrame_cons
    (k := ({ k with max_pid := k.max_pid + 1 } : Kernel).modify (k.max_pid + 1) fun _ => newProcess)
    (hl.of_eq rfl rfl rfl)
  obtain ⟨kb, halloc₁, -⟩ := allocatePageFrame_cons
    (k := ka.modify (k.max_pid + 1) (setPcbFrame 0 (pageAtIndex f₀))) (hlist₀.of_eq rfl rfl rfl)
  unfold createProcessDescriptor at h
  rw [nextAvailablePID_eq rfl hpid] at h
  simp only [Bool.not_true, Bool.false_eq_true, if_false, Nat.add_eq_zero_iff, one_ne_zero,
    and_false, halloc₀, pageAtIndex_ne_zero hf₀, halloc₁, pageAtIndex_ne_zero hf₁,
    frameOf_pageAtIndex, Prod.mk.injEq] at h
  rw [← h.2, windowFrame_modify, Kernel.windowFrame_setWindow]

/-- Who reads the parent's pages is the parent. -/
theorem Stack.copyParentStack_eq (h : getCurrentProcess k = p) :
    Stack.copyParentStack p c p k = Yalnix.copyParentStack p c p k := by
  unfold Stack.copyParentStack Yalnix.copyParentStack
  rw [h]

/-- The new `ProcessInfo` is the parent's, with another descriptor. -/
theorem Stack.createUserContext_eq (h : pcbFrame k c 0 = f) (hne : stackFrame k 0 ≠ f) :
    Stack.createUserContext c p (k.putPage f pg) = (Yalnix.createUserContext c p k).putPage f
      (writeInfo { readInfo (stackPage k 0) with descriptor := c } pg) := by
  have hwin : (Yalnix.createUserContext c p (k.putPage f pg)).windowFrame 0 = f := by
    rw [← h]
    exact Kernel.windowFrame_setWindow _ _ _
  have hstack : stackPage (Yalnix.createUserContext c p (k.putPage f pg)) 0 = stackPage k 0 := by
    have hframe : stackFrame (Yalnix.createUserContext c p (k.putPage f pg)) 0 = stackFrame k 0 := by
      unfold Yalnix.createUserContext
      exact stackFrame_setWindow (k := k.putPage f pg) (by omega)
    unfold stackPage
    rw [hframe]
    exact k.pmem_putPage_ne pg hne
  unfold Stack.createUserContext
  dsimp only
  rw [setWindowPage_eq, hwin, hstack]
  unfold Kernel.window
  rw [hwin]
  have hput : Yalnix.createUserContext c p (k.putPage f pg) =
      (Yalnix.createUserContext c p k).putPage f pg := rfl
  rw [hput, Kernel.pmem_putPage_self, Kernel.putPage_same]

theorem readWord_lt (pg : Word.Page) (o : Nat) : Word.readWord pg o < 2 ^ 32 := by
  unfold Word.readWord
  have h₀ := (pg o).toNat_lt
  have h₁ := (pg (o + 1)).toNat_lt
  have h₂ := (pg (o + 2)).toNat_lt
  have h₃ := (pg (o + 3)).toNat_lt
  omega

/-- How `Stack.spawn` ends, against `spawn`; frames `f₀` and `f₁` are the next that are free. -/
inductive SpawnBytes (m₁ m₂ : Bool) (k : Kernel) (p f₀ f₁ : Nat) (l : List Nat) :
    Except Stop (Option PID × Kernel) → Prop
  | stopped {e : Stop} (same : spawn m₁ m₂ p k = .error e) : SpawnBytes m₁ m₂ k p f₀ f₁ l (.error e)
  | unchanged (same : spawn m₁ m₂ p k = .ok (none, k)) : SpawnBytes m₁ m₂ k p f₀ f₁ l (.ok (none, k))
  | described {k₁ : Kernel} (pid : (k.max_pid : Int) < LONG_MAX)
      (same : spawn m₁ m₂ p k = .ok (none, k₁))
      (desc : createProcessDescriptor true k = (some (k.max_pid + 1), k₁)) (pg : Word.Page) :
      SpawnBytes m₁ m₂ k p f₀ f₁ l (.ok (none, k₁.putPage f₀ pg))
  | spawned {k₁ : Kernel} (pid : (k.max_pid : Int) < LONG_MAX)
      (same : spawn m₁ m₂ p k = .ok (some (k.max_pid + 1), k₁))
      (first : pcbFrame k₁ (k.max_pid + 1) 0 = f₀) (second : pcbFrame k₁ (k.max_pid + 1) 1 = f₁)
      (parent : pcbFrame k₁ p = pcbFrame k p)
      (stack : ∀ i, 126 ≤ i → k₁.kernel_page_table i = k.kernel_page_table i)
      (pmem : ∀ g, g ∉ f₀ :: f₁ :: l → g ≠ 0 → k₁.pmem g = k.pmem g) (pg : Word.Page)
      (info : readInfo pg = { readInfo (stackPage k 0) with descriptor := k.max_pid + 1 }) :
      SpawnBytes m₁ m₂ k p f₀ f₁ l (.ok (some (k.max_pid + 1), k₁.putPage f₀ pg))

/-- The new process has its frames, and the kernel stacks of the others are as they were in `k`. -/
structure Begun (k k' : Kernel) (f₀ f₁ : Nat) (l : List Nat) : Prop where
  stack : ∀ i, 126 ≤ i → k'.kernel_page_table i = k.kernel_page_table i
  pmem : ∀ g, g ∉ f₀ :: f₁ :: l → g ≠ 0 → k'.pmem g = k.pmem g
  others : ∀ q, q ≠ k.max_pid + 1 → (k'.proc q).pcb_frames = (k.proc q).pcb_frames
  own : (k'.proc (k.max_pid + 1)).pcb_frames = (describedProcess f₀ f₁).pcb_frames

theorem Begun.first (h : Begun k k' f₀ f₁ l) : pcbFrame k' (k.max_pid + 1) 0 = f₀ := by
  unfold pcbFrame
  rw [h.own]
  simp [describedProcess]

theorem Begun.second (h : Begun k k' f₀ f₁ l) : pcbFrame k' (k.max_pid + 1) 1 = f₁ := by
  unfold pcbFrame
  rw [h.own]
  simp [describedProcess]

theorem Begun.stackFrame (h : Begun k k' f₀ f₁ l) : stackFrame k' 0 = stackFrame k 0 := by
  unfold Yalnix.Stack.stackFrame
  rw [h.stack _ (by simp only [KERNEL_STACK_BASE, frameOf]; omega)]

theorem Begun.stackPage (h : Begun k k' f₀ f₁ l) (hsf : Yalnix.Stack.stackFrame k 0 ∉ f₀ :: f₁ :: l)
    (hs0 : Yalnix.Stack.stackFrame k 0 ≠ 0) : stackPage k' 0 = stackPage k 0 := by
  unfold Yalnix.Stack.stackPage
  rw [h.stackFrame, h.pmem _ hsf hs0]

/-- The process that runs is still the one that was running. -/
theorem Begun.current (h : Begun k k' f₀ f₁ l) (hsf : Yalnix.Stack.stackFrame k 0 ∉ f₀ :: f₁ :: l)
    (hs0 : Yalnix.Stack.stackFrame k 0 ≠ 0) (pg : Word.Page) :
    getCurrentProcess (k'.putPage f₀ pg) = getCurrentProcess k := by
  rw [getCurrentProcess_putPage (by rw [h.stackFrame]; exact fun he => hsf (by simp [he]))]
  unfold getCurrentProcess
  rw [h.stackPage hsf hs0]

theorem Begun.untouched (h : Begun k k' f₀ f₁ l) (he : Untouched l k' k₁) : Begun k k₁ f₀ f₁ l := by
  refine ⟨fun i hi => (he.stack i hi).trans (h.stack i hi), fun g hg h0 => ?_,
    fun q hq => (he.frames q).trans (h.others q hq), (he.frames _).trans h.own⟩
  have hgl : g ∉ l := fun hm => hg (List.mem_cons_of_mem _ (List.mem_cons_of_mem _ hm))
  exact (he.pmem g hgl h0).trans (h.pmem g hg h0)

theorem Begun.userContext (h : Begun k k' f₀ f₁ l) (p : Nat) :
    Begun k (createUserContext (k.max_pid + 1) p k') f₀ f₁ l := by
  have hframes : ∀ q, ((createUserContext (k.max_pid + 1) p k').proc q).pcb_frames =
      (k'.proc q).pcb_frames := by
    intro q
    unfold createUserContext
    by_cases hq : q = k.max_pid + 1
    · rw [hq, Kernel.proc_modify_self]
      rfl
    · rw [Kernel.proc_modify, Function.update_of_ne hq, Kernel.proc_setWindow]
  refine ⟨fun i hi => ?_, h.pmem, fun q hq => (hframes q).trans (h.others q hq),
    (hframes _).trans h.own⟩
  rw [← h.stack i hi]
  exact Kernel.kpt_setWindow k' _ (by omega) (.inr hi)

/-- The new process gets its page table, whatever is at the base of its stack. -/
theorem createPageTable_begun (hc : Counted k (slots k.max_pid) leak (f₀ :: f₁ :: l))
    (hpid : (k.max_pid : Int) < LONG_MAX) (hpc : p ≠ k.max_pid + 1)
    (hdesc : createProcessDescriptor true k = (some (k.max_pid + 1), k₁)) :
    ∃ k₂, (∀ pg, createPageTable true (k.max_pid + 1) p (k₁.putPage f₀ pg) =
        (SUCCESS, k₂.putPage f₀ pg)) ∧ createPageTable true (k.max_pid + 1) p k₁ = (SUCCESS, k₂) ∧
      FreeList k₂ l ∧ k₂.table p = k.table p ∧ Begun k k₂ f₀ f₁ l := by
  obtain ⟨k₁', hdesc', hcounted, honly, -, hproc, -⟩ := createProcessDescriptor_spec rfl hc hpid
  rw [hdesc, Prod.mk.injEq] at hdesc'
  obtain ⟨-, rfl⟩ := hdesc'
  refine ⟨_, fun pg => rfl, rfl, hcounted.list.of_eq rfl rfl rfl, ?_, fun i hi => honly.kpt i (.inr hi),
    fun g hg _ => honly.pmem g fun hm => hg (List.mem_cons_of_mem _ hm), fun q hq => ?_, ?_⟩
  · rw [Kernel.table_modify_ne hpc, honly.table_ne hpc]
  · rw [Kernel.proc_modify, Function.update_of_ne hq, honly.proc q hq]
  · rw [Kernel.proc_modify_self, hproc]

/-- The pages of the parent's stack are copied past the base of the new kernel stack. -/
theorem copyParentStack_begun {k₂ : Kernel} (hc : Counted k (slots k.max_pid) leak (f₀ :: f₁ :: l))
    (hcur : OnStack k p) (hpcb : PcbOk (k.proc p)) (hl : FreeList k₂ l)
    (htable : k₂.table p = k.table p) (h : Begun k k₂ f₀ f₁ l) (pg : Word.Page) :
    Stack.copyParentStack p (k.max_pid + 1) p (k₂.putPage f₀ pg) =
        (copyParentStack p (k.max_pid + 1) p k₂).map (fun k => k.putPage f₀ pg) ∧
      ∀ k₃, copyParentStack p (k.max_pid + 1) p k₂ = .ok k₃ → Begun k k₃ f₀ f₁ l := by
  have hpn := hcur.running.le
  have hppos := hcur.running.pos
  obtain ⟨hsf, hs0⟩ := hcur.apart hc hpcb (j := 0) (by omega)
  have hnd := hc.list.nodup
  simp only [List.nodup_cons, List.mem_cons, not_or] at hnd
  have hf₀ := (hc.list.frame f₀ (by simp)).1
  obtain ⟨hcomm, helse⟩ := copyParentStack_putPage (k := k₂) (l := l) (f := f₀) (p := p)
    (c := k.max_pid + 1) hl hnd.1.2 (by omega) (by omega) (fun i hi hv => by
      rw [htable] at hv ⊢
      intro he
      have := hc.entry_not_free ⟨hppos, hpn⟩ hi (frame_eq_some.mpr ⟨hv, rfl⟩)
      exact this (by simp [he])) pg
  rw [Stack.copyParentStack_eq ((h.current hsf hs0 pg).trans hcur.process)]
  exact ⟨hcomm, fun k₃ hk₃ => h.untouched (helse k₃ hk₃)⟩

/-- **`spawn` on bytes is `spawn`, with a `ProcessInfo` in the new stack.** -/
theorem spawn_bytes {m₁ m₂ : Bool} {s : Except Stop (Option PID × Kernel)}
    (hc : Counted k (slots k.max_pid) leak (f₀ :: f₁ :: l)) (hcur : OnStack k p)
    (hpcb : PcbOk (k.proc p)) (hwords : ∀ w : Nat, w ≤ k.max_pid + 1 → w < 2 ^ 32)
    (hrun : Stack.spawn m₁ m₂ p p k = s) : SpawnBytes m₁ m₂ k p f₀ f₁ l s := by
  have hpc : p ≠ k.max_pid + 1 := by
    have := hcur.running.le
    omega
  obtain ⟨hsf, hs0⟩ := hcur.apart hc hpcb (j := 0) (by omega)
  unfold Stack.spawn at hrun
  by_cases hleader : (k.proc p).thread_leader.isSome = true
  · rw [if_pos hleader] at hrun
    cases hrun
    exact .unchanged (by unfold spawn; rw [if_pos hleader])
  rw [if_neg hleader] at hrun
  unfold Stack.createProcessDescriptor at hrun
  cases hdesc : createProcessDescriptor m₁ k with
  | mk o k₁ =>
    rw [hdesc] at hrun
    rcases createProcessDescriptor_cases hc hdesc with ⟨rfl, rfl⟩ | ⟨rfl, hpid, rfl⟩
    · cases hrun
      refine .unchanged ?_
      unfold spawn
      rw [if_neg hleader, hdesc]
    · have hwin := createProcessDescriptor_window hc.list hpid hdesc
      simp only [setWindowPage_eq, hwin] at hrun
      generalize Word.writeWord (k₁.window 0) 0 (k.max_pid + 1) = pg₀ at hrun
      cases m₂ with
      | false =>
        cases hrun
        refine .described hpid ?_ hdesc pg₀
        unfold spawn
        rw [if_neg hleader, hdesc]
        rfl
      | true =>
        obtain ⟨k₂, hpage, htable, hlist, htable₂, hbegun⟩ := createPageTable_begun hc hpid hpc hdesc
        obtain ⟨hcomm, hcopied⟩ := copyParentStack_begun hc hcur hpcb hlist htable₂ hbegun pg₀
        have hspawn : spawn true true p k = (copyParentStack p (k.max_pid + 1) p k₂).map fun k₃ =>
            (some (k.max_pid + 1), createUserContext (k.max_pid + 1) p k₃) := by
          unfold spawn
          rw [if_neg hleader, hdesc]
          simp only [htable, SUCCESS, ERROR, show ¬ (0 : Int) = -1 by omega, if_false]
          rfl
        simp only [hpage, SUCCESS, ERROR, show ¬ (0 : Int) = -1 by omega, if_false, hcomm] at hrun
        cases hcopy : copyParentStack p (k.max_pid + 1) p k₂ with
        | error e =>
          rw [hcopy] at hrun hspawn
          cases hrun
          exact .stopped hspawn
        | ok k₃ =>
          have hend := hcopied k₃ hcopy
          have huser := hend.userContext p
          rw [hcopy] at hrun hspawn
          simp only [Except.map, bind, Except.bind] at hrun
          subst hrun
          rw [Stack.createUserContext_eq hend.first
            (by rw [hend.stackFrame]; exact fun he => hsf (by simp [he]))]
          refine .spawned hpid hspawn huser.first huser.second ?_ huser.stack huser.pmem _ ?_
          · funext j
            unfold pcbFrame
            rw [huser.others p hpc]
          · rw [readInfo_writeInfo ⟨hwords _ le_rfl, ?_, ?_, ?_⟩, hend.stackPage hsf hs0]
            · exact readWord_lt _ _
            · exact readWord_lt _ _
            · exact readWord_lt _ _

/-! ## The whole fork -/

/-- What cloning needs of the state that `spawn` and the sharing of pages have left: the new frames,
and the stack in use as it was in `k`. -/
structure ReadyToClone (k k₂ : Kernel) (p c f₀ f₁ : Nat) : Prop where
  first : pcbFrame k₂ c 0 = f₀
  second : pcbFrame k₂ c 1 = f₁
  parent : pcbFrame k₂ p = pcbFrame k p
  stack : ∀ i, 126 ≤ i → k₂.kernel_page_table i = k.kernel_page_table i
  pmem : ∀ j < 2, k₂.pmem (pcbFrame k p j) = k.pmem (pcbFrame k p j)

theorem ReadyToClone.untouched {k₂ : Kernel} (h : ReadyToClone k k₁ p c f₀ f₁)
    (he : Untouched [] k₁ k₂) (hpm : k₂.pmem = k₁.pmem) : ReadyToClone k k₂ p c f₀ f₁ :=
  ⟨(he.pcbFrame c 0).trans h.first, (he.pcbFrame c 1).trans h.second,
    (funext fun j => he.pcbFrame p j).trans h.parent, fun i hi => (he.stack i hi).trans (h.stack i hi),
    fun j hj => by rw [hpm]; exact h.pmem j hj⟩

/-- The child has the parent's stack, and a `ProcessInfo` of its own; the parent runs on. -/
structure Cloned (k k₃ k' : Kernel) (p c f₀ f₁ : Nat) (info : Stack.InfoWords) : Prop where
  kernel : k' = k₃.putPage f₀ (writeInfo info (k.pmem (pcbFrame k p 0)))
  first : pcbFrame k₃ c 0 = f₀
  second : pcbFrame k₃ c 1 = f₁
  page : k₃.pmem f₁ = k.pmem (pcbFrame k p 1)
  process : getCurrentProcess k' = p

/-- **Cloning, from the state that holds the new `ProcessInfo`.** -/
theorem ReadyToClone.cloned {k₂ : Kernel} (h : ReadyToClone k k₂ p c f₀ f₁) (pg : Word.Page)
    (hcur : OnStack k p) (hapart : ∀ j < 2, stackFrame k j ≠ f₀ ∧ stackFrame k j ≠ f₁) (hne : f₀ ≠ f₁) :
    Cloned k (cloneKernelContext p c k₂) (Stack.cloneStack c (k₂.putPage f₀ pg)) p c f₀ f₁
      (readInfo pg) := by
  have hframe : ∀ j < 2, stackFrame k₂ j = pcbFrame k₂ p j := by
    intro j hj
    rw [h.parent, ← hcur.frame j hj]
    unfold stackFrame
    rw [h.stack _ (by simp only [KERNEL_STACK_BASE, frameOf]; omega)]
  have hp : ∀ j < 2, pcbFrame k₂ p j ≠ f₀ ∧ pcbFrame k₂ p j ≠ f₁ := by
    intro j hj
    rw [h.parent, ← hcur.frame j hj]
    exact hapart j hj
  have heq : Stack.cloneStack c (k₂.putPage f₀ pg) = (cloneKernelContext p c k₂).putPage f₀
      (writeInfo (readInfo pg) (k.pmem (pcbFrame k p 0))) := by
    have := cloneStack_eq (k := k₂) (p := p) (c := c) pg hframe
      (fun j hj => by rw [h.first]; exact (hp j hj).1) (by rw [h.first, h.second]; exact hne)
    rw [h.first, h.parent, h.pmem 0 (by omega)] at this
    exact this
  have hpages := cloneKernelContext_pages (k := k₂) (p := p) (c := c)
    (by rw [h.first]; exact (hp 1 (by omega)).1)
  rw [h.first, h.second, h.parent, h.pmem 0 (by omega), h.pmem 1 (by omega)] at hpages
  have hwins : ∀ i, 126 ≤ i → (cloneWindows f₀ f₁ k₂).kernel_page_table i = k.kernel_page_table i := by
    intro i hi
    unfold cloneWindows
    rw [Kernel.kpt_setWindow _ _ (by omega) (.inr hi), Kernel.kpt_setWindow _ _ (by omega) (.inr hi),
      Kernel.kpt_setWindow _ _ (by omega) (.inr hi)]
    exact h.stack i hi
  refine ⟨heq, ?_, ?_, ?_, ?_⟩
  · rw [hpages]
    exact h.first
  · rw [hpages]
    exact h.second
  · rw [hpages, Kernel.pmem_putPage_self]
  · have hsf : stackFrame (cloneKernelContext p c k₂) 0 = stackFrame k 0 := by
      rw [hpages, stackFrame_putPage, stackFrame_putPage]
      unfold stackFrame
      rw [hwins _ (by simp only [KERNEL_STACK_BASE, frameOf]; omega)]
    obtain ⟨hne₀, hne₁⟩ := hapart 0 (by omega)
    have hpage : (cloneKernelContext p c k₂).pmem (stackFrame k 0) = k.pmem (stackFrame k 0) := by
      rw [hpages, Kernel.pmem_putPage_ne _ _ hne₁, Kernel.pmem_putPage_ne _ _ hne₀]
      have := h.pmem 0 (by omega)
      rw [← hcur.frame 0 (by omega)] at this
      exact this
    have hsame : getCurrentProcess (cloneKernelContext p c k₂) = getCurrentProcess k := by
      unfold getCurrentProcess stackPage
      rw [hsf, hpage]
    rw [heq, getCurrentProcess_putPage (by rw [hsf]; exact hne₀), hsame, hcur.process]

open Yalnix.Stack (Cpu)

variable {κ : Type} {m m' : Cpu κ}

/-- How `Stack.forkProcess` and `Stack.createThread` end, against `run`, the same on memory only. -/
inductive ForkBytes (run : Except Stop (Int × Kernel)) (p f₀ f₁ : Nat) (m : Cpu κ) :
    Except Stop (Int × Cpu κ) → Prop
  | stopped {e : Stop} (same : run = .error e) : ForkBytes run p f₀ f₁ m (.error e)
  | unchanged (same : run = .ok (ERROR, m.kernel)) : ForkBytes run p f₀ f₁ m (.ok (ERROR, m))
  | described {k₁ : Kernel} (pid : (m.kernel.max_pid : Int) < LONG_MAX)
      (same : run = .ok (ERROR, k₁))
      (desc : createProcessDescriptor true m.kernel = (some (m.kernel.max_pid + 1), k₁))
      (pg : Word.Page) :
      ForkBytes run p f₀ f₁ m (.ok (ERROR, { m with kernel := k₁.putPage f₀ pg }))
  | cloned {k₃ k' : Kernel} (pid : (m.kernel.max_pid : Int) < LONG_MAX)
      (same : run = .ok (((m.kernel.max_pid + 1 : Nat) : Int), k₃))
      (clone : Cloned m.kernel k₃ k' p (m.kernel.max_pid + 1) f₀ f₁
        { readInfo (stackPage m.kernel 0) with descriptor := m.kernel.max_pid + 1 }) :
      ForkBytes run p f₀ f₁ m (.ok (((m.kernel.max_pid + 1 : Nat) : Int),
        { kernel := k', ptbr1 := m.ptbr1, context := m.context,
          kernel_context := Function.update (Function.update m.kernel_context p m.context)
            (m.kernel.max_pid + 1) m.context }))

/-- The same process runs in a state in which the stack in use is as it was. -/
theorem ReadyToClone.process {k₂ : Kernel} (h : ReadyToClone k k₂ p c f₀ f₁) (hcur : OnStack k p)
    (hapart : ∀ j < 2, stackFrame k j ≠ f₀ ∧ stackFrame k j ≠ f₁) :
    getCurrentProcess (k₂.putPage f₀ pg) = p := by
  have hsf : stackFrame k₂ 0 = stackFrame k 0 := by
    unfold stackFrame
    rw [h.stack _ (by simp only [KERNEL_STACK_BASE, frameOf]; omega)]
  have hsame : getCurrentProcess k₂ = getCurrentProcess k := by
    unfold getCurrentProcess stackPage
    rw [hsf, hcur.frame 0 (by omega), h.pmem 0 (by omega)]
  rw [getCurrentProcess_putPage (by rw [hsf]; exact (hapart 0 (by omega)).1), hsame, hcur.process]

/-- What `spawn` leaves is ready for cloning. -/
theorem ready_of_spawned (hc : Counted k (slots k.max_pid) leak (f₀ :: f₁ :: l)) (hcur : OnStack k p)
    (hpcb : PcbOk (k.proc p)) (hfirst : pcbFrame k₁ c 0 = f₀) (hsecond : pcbFrame k₁ c 1 = f₁)
    (hparent : pcbFrame k₁ p = pcbFrame k p)
    (hstack : ∀ i, 126 ≤ i → k₁.kernel_page_table i = k.kernel_page_table i)
    (hpm : ∀ g, g ∉ f₀ :: f₁ :: l → g ≠ 0 → k₁.pmem g = k.pmem g) :
    ReadyToClone k k₁ p c f₀ f₁ ∧
      (∀ j < 2, stackFrame k j ≠ f₀ ∧ stackFrame k j ≠ f₁) ∧ f₀ ≠ f₁ := by
  have hnd := hc.list.nodup
  simp only [List.nodup_cons, List.mem_cons, not_or] at hnd
  refine ⟨⟨hfirst, hsecond, hparent, hstack, fun j hj => ?_⟩, fun j hj => ?_, hnd.1.1⟩
  · obtain ⟨hnot, h0⟩ := hcur.apart hc hpcb hj
    rw [← hcur.frame j hj]
    exact hpm _ hnot h0
  · have hnot := (hcur.apart hc hpcb hj).1
    exact ⟨fun he => hnot (by simp [he]), fun he => hnot (by simp [he])⟩

/-- The result is the child's number: the parent has it. -/
theorem Cloned.result {k₃ k' : Kernel} {info : Stack.InfoWords} (h : Cloned k k₃ k' p c f₀ f₁ info) :
    Stack.spawnResult p c k' = (c : Int) := by
  unfold Stack.spawnResult
  rw [if_pos h.process]

/-- The switch to the kernel context of the clone, which the parent returns from first. -/
theorem ForkBytes.switched {run : Except Stop (Int × Kernel)} {k₃ k₄ : Kernel}
    (pid : (m.kernel.max_pid : Int) < LONG_MAX)
    (same : run = .ok (((m.kernel.max_pid + 1 : Nat) : Int), k₃))
    (clone : Cloned m.kernel k₃ (Stack.cloneStack (m.kernel.max_pid + 1) k₄) p (m.kernel.max_pid + 1)
      f₀ f₁ { readInfo (stackPage m.kernel 0) with descriptor := m.kernel.max_pid + 1 }) :
    ForkBytes run p f₀ f₁ m (.ok
      (Stack.spawnResult p (m.kernel.max_pid + 1) (Stack.KernelContextSwitch
        (Stack.cloneKernelContext p (m.kernel.max_pid + 1)) { m with kernel := k₄ }).kernel,
      Stack.KernelContextSwitch (Stack.cloneKernelContext p (m.kernel.max_pid + 1))
        { m with kernel := k₄ })) := by
  have hres : Stack.spawnResult p (m.kernel.max_pid + 1) (Stack.KernelContextSwitch
      (Stack.cloneKernelContext p (m.kernel.max_pid + 1)) { m with kernel := k₄ }).kernel =
        ((m.kernel.max_pid + 1 : Nat) : Int) := clone.result
  rw [hres]
  exact .cloned pid same clone

section Fork

variable {m₁ m₂ : Bool} {r : Except Stop (Int × Cpu κ)}
  (hc : Counted m.kernel (slots m.kernel.max_pid) leak (f₀ :: f₁ :: l))
  (hcur : OnStack m.kernel m.ptbr1) (hpcb : PcbOk (m.kernel.proc m.ptbr1))
  (hwords : ∀ w : Nat, w ≤ m.kernel.max_pid + 1 → w < 2 ^ 32)

include hc hcur hpcb hwords

/-- **`forkProcess` on bytes.** -/
theorem forkProcess_bytes (hrun : Stack.forkProcess m₁ m₂ m = r) :
    ForkBytes (forkProcess m₁ m₂ m.ptbr1 m.kernel) m.ptbr1 f₀ f₁ m r := by
  unfold Stack.forkProcess at hrun
  rw [hcur.process] at hrun
  dsimp only at hrun
  have hb := spawn_bytes hc hcur hpcb hwords (rfl : Stack.spawn m₁ m₂ _ _ _ = _)
  generalize Stack.spawn m₁ m₂ m.ptbr1 m.ptbr1 m.kernel = s at hb hrun
  cases hb with
  | stopped same =>
    subst hrun
    exact .stopped (by unfold forkProcess; rw [same]; rfl)
  | unchanged same =>
    subst hrun
    exact .unchanged (by unfold forkProcess; rw [same]; rfl)
  | @described k₁ pid same desc pg =>
    subst hrun
    exact .described pid (by unfold forkProcess; rw [same]; rfl) desc pg
  | @spawned k₁ pid same first second parent stack pmem pg info =>
    obtain ⟨hready, hapart, hne⟩ := ready_of_spawned hc hcur hpcb first second parent stack pmem
    obtain ⟨hcomm₁, hkeep₁⟩ := setCopyOnWrite_putPage m.ptbr1 m.ptbr1 false k₁ f₀ pg
    simp only [bind, Except.bind, hready.process hcur hapart, hcomm₁] at hrun
    cases hcow₁ : setCopyOnWrite m.ptbr1 m.ptbr1 false k₁ with
    | error e =>
      rw [hcow₁] at hrun
      subst hrun
      exact .stopped (by unfold forkProcess; rw [same]; simp only [bind, Except.bind, hcow₁])
    | ok k₂ =>
      obtain ⟨he₁, hpm₁⟩ := hkeep₁ k₂ hcow₁
      have hready₂ := hready.untouched he₁ hpm₁
      obtain ⟨hcomm₂, hkeep₂⟩ := setCopyOnWrite_putPage m.ptbr1 (m.kernel.max_pid + 1) true k₂ f₀ pg
      rw [hcow₁] at hrun
      simp only [Except.map, hready₂.process hcur hapart, hcomm₂] at hrun
      cases hcow₂ : setCopyOnWrite m.ptbr1 (m.kernel.max_pid + 1) true k₂ with
      | error e =>
        rw [hcow₂] at hrun
        subst hrun
        exact .stopped (by
          unfold forkProcess
          rw [same]
          simp only [bind, Except.bind, hcow₁, hcow₂])
      | ok k₃ =>
        obtain ⟨he₂, hpm₂⟩ := hkeep₂ k₃ hcow₂
        have hclone := (hready₂.untouched he₂ hpm₂).cloned pg hcur hapart hne
        rw [info] at hclone
        rw [hcow₂] at hrun
        subst hrun
        refine .switched pid ?_ hclone
        unfold forkProcess
        rw [same]
        simp only [bind, Except.bind, hcow₁, hcow₂]

/-- **`createThread` on bytes.** -/
theorem createThread_bytes (hrun : Stack.createThread m₁ m₂ m = r) :
    ForkBytes (createThread m₁ m₂ m.ptbr1 m.kernel) m.ptbr1 f₀ f₁ m r := by
  unfold Stack.createThread at hrun
  rw [hcur.process] at hrun
  dsimp only at hrun
  have hb := spawn_bytes hc hcur hpcb hwords (rfl : Stack.spawn m₁ m₂ _ _ _ = _)
  generalize Stack.spawn m₁ m₂ m.ptbr1 m.ptbr1 m.kernel = s at hb hrun
  cases hb with
  | stopped same =>
    subst hrun
    exact .stopped (by unfold createThread; rw [same]; rfl)
  | unchanged same =>
    subst hrun
    exact .unchanged (by unfold createThread; rw [same]; rfl)
  | @described k₁ pid same desc pg =>
    subst hrun
    exact .described pid (by unfold createThread; rw [same]; rfl) desc pg
  | @spawned k₁ pid same first second parent stack pmem pg info =>
    obtain ⟨hready, hapart, hne⟩ := ready_of_spawned hc hcur hpcb first second parent stack pmem
    obtain ⟨hcomm, hkeep⟩ := increaseFRCEntries_putPage m.ptbr1 (m.kernel.max_pid + 1) k₁ f₀ pg
    simp only [bind, Except.bind, hready.process hcur hapart, hcomm] at hrun
    cases hshare : increaseFRCEntries m.ptbr1 (m.kernel.max_pid + 1) k₁ with
    | error e =>
      rw [hshare] at hrun
      subst hrun
      exact .stopped (by unfold createThread; rw [same]; simp only [bind, Except.bind, hshare])
    | ok k₂ =>
      obtain ⟨he, hpm⟩ := hkeep k₂ hshare
      generalize hk₃ : k₂.modify (m.kernel.max_pid + 1)
        (fun C => { C with thread_leader := some m.ptbr1 }) = k₃
      have he₃ : Untouched [] k₂ k₃ := by
        refine ⟨fun q => ?_, fun i hi => by rw [← hk₃]; rfl, fun g _ _ => by rw [← hk₃]; rfl⟩
        rw [← hk₃, Kernel.proc_modify]
        by_cases hq : q = m.kernel.max_pid + 1
        · rw [hq, Function.update_self]
        · rw [Function.update_of_ne hq]
      have hput : (k₂.putPage f₀ pg).modify (m.kernel.max_pid + 1)
          (fun C => { C with thread_leader := some m.ptbr1 }) = k₃.putPage f₀ pg := by
        rw [← hk₃]
        rfl
      have hclone := ((hready.untouched he hpm).untouched he₃ (by rw [← hk₃]; rfl)).cloned pg
        hcur hapart hne
      rw [info] at hclone
      rw [hshare] at hrun
      simp only [Except.map, hput] at hrun
      subst hrun
      refine .switched pid ?_ hclone
      unfold createThread
      rw [same]
      simp only [bind, Except.bind, hshare, hk₃]

end Fork

end Yalnix
