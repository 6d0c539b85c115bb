import Yalnix.Memory.Supply
import Yalnix.Process.Rollback
import Yalnix.Process.Teardown

/-!
# The descriptors an operation writes

Whatever the state of memory, the functions of `memory/` and `process/` write to the descriptors and
page tables of the processes they are called for, and to no others.

* `Elsewhere` — all descriptors but some are as they were; one lemma for each function.
* `Keeps` — the same for a whole call of one process: it may make a new process, and `forkProcess_keeps`,
  `createThread_keeps` say that it leaves all others alone.
-/

set_option autoImplicit false

namespace Yalnix

variable {X Y : PID → Prop} {k k₁ k' : Kernel} {c p q child parent : PID} {f i : Nat} {a : Int}

/-! ## Descriptors that are left alone -/

/-- Descriptors outside `X` are as they were. -/
structure Elsewhere (X : PID → Prop) (k k' : Kernel) : Prop where
  max_pid : k'.max_pid = k.max_pid
  proc : ∀ q, ¬ X q → k'.proc q = k.proc q

theorem Elsewhere.refl (X : PID → Prop) (k : Kernel) : Elsewhere X k k := ⟨rfl, fun _ _ => rfl⟩

theorem Elsewhere.trans (h : Elsewhere X k k₁) (h' : Elsewhere X k₁ k') : Elsewhere X k k' :=
  ⟨h'.max_pid.trans h.max_pid, fun q hq => (h'.proc q hq).trans (h.proc q hq)⟩

theorem Elsewhere.mono (h : Elsewhere X k k') (hX : ∀ q, X q → Y q) : Elsewhere Y k k' :=
  ⟨h.max_pid, fun q hq => h.proc q fun hx => hq (hX q hx)⟩

theorem Elsewhere.of_proc (hmax : k'.max_pid = k.max_pid) (hproc : k'.proc = k.proc) :
    Elsewhere X k k' :=
  ⟨hmax, fun _ _ => by rw [hproc]⟩

theorem Elsewhere.modify (p : PID) (u : Process → Process) (k : Kernel) :
    Elsewhere (· = p) k (k.modify p u) := by
  refine ⟨rfl, fun q hq => ?_⟩
  rw [Kernel.proc_modify]
  exact Function.update_of_ne hq _ _

theorem Elsewhere.setEntry {e : PTE} (h : k.setEntry p a e = .ok k') : Elsewhere (· = p) k k' := by
  unfold Kernel.setEntry at h
  split at h
  · cases h
    exact .modify p _ k
  · cases h

theorem allocatePageFrame_elsewhere (X : PID → Prop) (k : Kernel) :
    Elsewhere X k (allocatePageFrame k).2 := by
  refine .of_proc ?_ (allocatePageFrame_proc k)
  unfold allocatePageFrame
  split
  · rfl
  · dsimp only
    split
    · rfl
    · rfl

theorem freePageFrame_elsewhere (X : PID → Prop) (frame : Nat) (k : Kernel) :
    Elsewhere X k (freePageFrame frame k) := by
  refine .of_proc ?_ (freePageFrame_proc frame k)
  unfold freePageFrame
  dsimp only
  split
  · rfl
  · split
    · rfl
    · rfl

/-- A loop all of whose rounds leave them alone. -/
theorem Elsewhere.forRange {lo hi : Int} {body : Int → Kernel → Except Stop Kernel}
    (hbody : ∀ i k k', body i k = .ok k' → Elsewhere X k k') (h : Loop.forRange lo hi body k = .ok k') :
    Elsewhere X k k' := by
  rcases le_or_gt lo hi with hle | hlt
  · exact Loop.forRange_inv (P := fun _ t => Elsewhere X k t) hle (.refl X k)
      (fun i s s' _ _ hs hrun => hs.trans (hbody i s s' hrun)) h
  · rw [Loop.forRange_empty hlt.le] at h
    cases h
    exact .refl X k

/-- A computation that succeeds has succeeded step by step. -/
theorem bind_ok {α β : Type} {x : Except Stop α} {g : α → Except Stop β} {r : β}
    (h : (x >>= g) = .ok r) : ∃ y, x = .ok y ∧ g y = .ok r := by
  cases x with
  | error e => cases h
  | ok y => exact ⟨y, rfl, h⟩

theorem ok_bind {α β : Type} {x : Except Stop α} {y : α} (h : x = .ok y) (g : α → Except Stop β) :
    (x >>= g) = g y := by
  rw [h]
  rfl

/-! ## Address spaces -/

theorem saveUserContext_elsewhere (c : PID) (context : UserContext) (k : Kernel) :
    Elsewhere (· = c) k (saveUserContext c context k) := .modify c _ k

theorem handleMemoryTrap_elsewhere (h : handleMemoryTrap c a k = .ok k') : Elsewhere (· = c) k k' := by
  unfold handleMemoryTrap at h
  dsimp only at h
  obtain ⟨old_entry, -, h⟩ := bind_ok h
  split at h
  · split at h
    · split at h
      · cases h
      · obtain ⟨page, -, h⟩ := bind_ok h
        have hframe := (allocatePageFrame_elsewhere (· = c)
          (k.setFrc old_entry.pfn (char (k.frc_table old_entry.pfn - 1))))
        have hset := Elsewhere.setEntry h
        exact ⟨hset.max_pid.trans hframe.max_pid, fun q hq => (hset.proc q hq).trans (hframe.proc q hq)⟩
    · exact .setEntry h
  · split at h
    · split at h
      · cases h
      · exact (allocatePageFrame_elsewhere _ k).trans (.setEntry h)
    · cases h
      exact .refl _ k

theorem trapMemory_elsewhere {context : UserContext} (h : trapMemory c context a k = .ok k') :
    Elsewhere (· = c) k k' :=
  (saveUserContext_elsewhere c context k).trans (handleMemoryTrap_elsewhere h)

theorem store_elsewhere {b : UInt8} (X : PID → Prop) (h : store k p a b = some k') : Elsewhere X k k' := by
  unfold store at h
  dsimp only at h
  split at h
  · cases h
    exact .of_proc rfl rfl
  · cases h

theorem mapFrames_elsewhere {is : List Int} {r status : Int} (h : mapFrames c status is k = .ok (r, k')) :
    Elsewhere (· = c) k k' := by
  induction is generalizing k with
  | nil =>
    cases h
    exact .refl _ _
  | cons i is ih =>
    unfold mapFrames at h
    dsimp only at h
    have hframe := allocatePageFrame_elsewhere (· = c) k
    split at h
    · cases h
      exact hframe
    · obtain ⟨k₁, hset, h⟩ := bind_ok h
      exact hframe.trans ((Elsewhere.setEntry hset).trans (ih h))

theorem increaseLoop_elsewhere {n : Nat} {r : Int} (h : increaseLoop c n a k = .ok (r, k')) :
    Elsewhere (· = c) k k' := by
  rw [increaseLoop_eq] at h
  exact mapFrames_elsewhere h

theorem decreaseBrk_elsewhere (h : decreaseBrk c a k = .ok k') : Elsewhere (· = c) k k' := by
  refine Elsewhere.forRange (fun i t t' ht => ?_) h
  obtain ⟨entry, -, ht⟩ := bind_ok ht
  exact (freePageFrame_elsewhere _ _ t).trans (.setEntry ht)

theorem setProcessBrk_elsewhere {r : Int} (h : setProcessBrk c a k = .ok (r, k')) :
    Elsewhere (· = c) k k' := by
  unfold setProcessBrk at h
  dsimp only at h
  split at h
  · cases h
    exact .refl _ k
  split at h
  · cases h
    exact .refl _ k
  split at h
  · cases h
    exact .refl _ k
  split at h
  · obtain ⟨⟨status, k₁⟩, hloop, h⟩ := bind_ok h
    have hk₁ : Elsewhere (· = c) k k₁ := increaseLoop_elsewhere hloop
    dsimp only at h
    split at h
    · cases h
      exact hk₁
    · cases h
      exact hk₁.trans (.modify c _ _)
  · obtain ⟨k₁, hloop, h⟩ := bind_ok h
    obtain ⟨⟨status, k₂⟩, hk₂, h⟩ := bind_ok h
    cases hk₂
    have hk₁ := decreaseBrk_elsewhere hloop
    dsimp only at h
    split at h
    · cases h
      exact hk₁
    · cases h
      exact hk₁.trans (.modify c _ _)

theorem freeAddressSpace_elsewhere (h : freeAddressSpace p k = .ok k') : Elsewhere (· = p) k k' := by
  unfold freeAddressSpace at h
  obtain ⟨k₁, hloop, h⟩ := bind_ok h
  cases h
  refine (Elsewhere.forRange (fun i t t' ht => ?_) hloop).trans (.modify p _ _)
  obtain ⟨entry, -, ht⟩ := bind_ok ht
  split at ht
  · cases ht
    exact .refl _ t
  · cases ht
    exact freePageFrame_elsewhere _ _ t

theorem setCopyOnWrite_elsewhere {is_child : Bool} (h : setCopyOnWrite c p is_child k = .ok k') :
    Elsewhere (· = p) k k' := by
  refine Elsewhere.forRange (fun i t t' ht => ?_) h
  obtain ⟨entry, -, ht⟩ := bind_ok ht
  split at ht
  · cases ht
    exact .refl _ t
  · have hset := Elsewhere.setEntry ht
    split at hset
    · exact ⟨hset.max_pid, hset.proc⟩
    · exact hset

/-! ## New processes -/

theorem copyParentStack_elsewhere (h : copyParentStack c child parent k = .ok k') :
    Elsewhere (· = child) k k' := by
  refine Elsewhere.forRange (fun i t t' ht => ?_) h
  obtain ⟨entry, -, ht⟩ := bind_ok ht
  split at ht
  · cases ht
    exact .refl _ t
  · obtain ⟨t₁, hset, ht⟩ := bind_ok ht
    obtain ⟨page, -, ht⟩ := bind_ok ht
    cases ht
    have h₁ := (allocatePageFrame_elsewhere _ t).trans (Elsewhere.setEntry hset)
    exact ⟨h₁.max_pid, h₁.proc⟩

theorem increaseFRCEntries_elsewhere (X : PID → Prop) (h : increaseFRCEntries c child k = .ok k') :
    Elsewhere X k k' := by
  refine Elsewhere.forRange (fun i t t' ht => ?_) h
  obtain ⟨entry, -, ht⟩ := bind_ok ht
  split at ht
  · cases ht
    exact .refl _ t
  · cases ht
    exact .of_proc rfl rfl

theorem freePcbFrames_elsewhere (p : PID) (k : Kernel) : Elsewhere (· = p) k (freePcbFrames p k) :=
  ((freePageFrame_elsewhere _ ((k.proc p).pcb_frames 0) k).trans (freePageFrame_elsewhere _ _ _)).trans
    (.modify p (fun P => { P with pcb := false }) _)

/-- There is a descriptor for the next pid, without a page table. -/
structure Reserved (k k' : Kernel) : Prop where
  max_pid : k'.max_pid = k.max_pid + 1
  proc : ∀ q, q ≠ k.max_pid + 1 → k'.proc q = k.proc q
  live : (k'.proc (k.max_pid + 1)).live = false

theorem Reserved.of_proc (h : Reserved k k₁) (he : Elsewhere (fun _ => False) k₁ k') : Reserved k k' := by
  have hproc : ∀ q, k'.proc q = k₁.proc q := fun q => he.proc q id
  refine ⟨he.max_pid.trans h.max_pid, fun q hq => (hproc q).trans (h.proc q hq), ?_⟩
  rw [hproc]
  exact h.live

theorem Reserved.modify (h : Reserved k k₁) {u : Process → Process} (hu : ∀ P, (u P).live = P.live) :
    Reserved k (k₁.modify (k.max_pid + 1) u) := by
  refine ⟨h.max_pid, fun q hq => ((Elsewhere.modify _ u k₁).proc q hq).trans (h.proc q hq), ?_⟩
  rw [Kernel.proc_modify_self, hu]
  exact h.live

theorem createProcessDescriptor_reserved {malloc : Bool} {r : Option PID}
    (h : createProcessDescriptor malloc k = (r, k')) :
    k' = k ∧ r = none ∨ Reserved k k' ∧ ∀ child, r = some child → child = k.max_pid + 1 := by
  unfold createProcessDescriptor at h
  split at h
  · cases h
    exact .inl ⟨rfl, rfl⟩
  by_cases hpid : (k.max_pid : Int) < LONG_MAX
  · right
    rw [nextAvailablePID_eq rfl hpid] at h
    dsimp only at h
    rw [if_neg (Nat.succ_ne_zero _)] at h
    have hnew : Reserved k (({ k with max_pid := k.max_pid + 1 } : Kernel).modify (k.max_pid + 1)
        fun _ => newProcess) := by
      refine ⟨rfl, fun q hq => ?_, ?_⟩
      · exact (Elsewhere.modify (k.max_pid + 1) (fun _ => newProcess) _).proc q hq
      · rw [Kernel.proc_modify_self]
        rfl
    generalize Kernel.modify _ _ (fun _ => newProcess) = k₁ at h hnew
    have hframe₀ := hnew.of_proc (allocatePageFrame_elsewhere _ k₁)
    generalize allocatePageFrame k₁ = r₀ at h hframe₀
    obtain ⟨frame₀, k₂⟩ := r₀
    have hset₀ := hframe₀.modify (u := setPcbFrame 0 frame₀) fun _ => rfl
    dsimp only at h hset₀
    split at h
    · cases h
      exact ⟨hset₀.of_proc (freePageFrame_elsewhere _ _ _), fun child hchild => by cases hchild⟩
    generalize Kernel.modify _ _ (setPcbFrame 0 frame₀) = k₃ at h hset₀
    have hframe₁ := hset₀.of_proc (allocatePageFrame_elsewhere _ k₃)
    generalize allocatePageFrame k₃ = r₁ at h hframe₁
    obtain ⟨frame₁, k₄⟩ := r₁
    have hset₁ := hframe₁.modify (u := setPcbFrame 1 frame₁) fun _ => rfl
    dsimp only at h hset₁
    split at h
    · cases h
      exact ⟨(hset₁.of_proc (freePageFrame_elsewhere _ _ _)).of_proc (freePageFrame_elsewhere _ _ _),
        fun child hchild => by cases hchild⟩
    · cases h
      have hwindow : Reserved k ((k₄.modify (k.max_pid + 1) (setPcbFrame 1 frame₁)).setWindow 0
          (frameOf frame₀)) := hset₁.of_proc (.of_proc rfl rfl)
      exact ⟨hwindow.modify (u := fun P => { P with pcb := true }) fun _ => rfl, fun child hchild => by
        cases hchild
        rfl⟩
  · rw [nextAvailablePID_none hpid] at h
    dsimp only at h
    rw [if_pos rfl] at h
    cases h
    exact .inl ⟨rfl, rfl⟩

/-! ## Calls -/

/-- What a call of `c` leaves alone: the other processes there are, and pids not given out. -/
structure Keeps (c : PID) (k k' : Kernel) : Prop where
  max_pid : k.max_pid ≤ k'.max_pid
  proc : ∀ q, q ≠ c → q ≤ k.max_pid → k'.proc q = k.proc q
  fresh : ∀ q, q ≠ c → k'.max_pid < q → k'.proc q = k.proc q

theorem Elsewhere.keeps (h : Elsewhere (· = c) k k') : Keeps c k k' :=
  ⟨h.max_pid.ge, fun q hq _ => h.proc q hq, fun q hq _ => h.proc q hq⟩

theorem Keeps.trans (h : Keeps c k k₁) (h' : Keeps c k₁ k') : Keeps c k k' :=
  ⟨h.max_pid.trans h'.max_pid,
    fun q hq hle => (h'.proc q hq (hle.trans h.max_pid)).trans (h.proc q hq hle),
    fun q hq hlt => (h'.fresh q hq hlt).trans (h.fresh q hq (lt_of_le_of_lt h'.max_pid hlt))⟩

theorem Reserved.keeps (h : Reserved k k') (c : PID) : Keeps c k k' := by
  refine ⟨by rw [h.max_pid]; exact Nat.le_succ _, fun q _ hle => h.proc q ?_, fun q _ hlt => h.proc q ?_⟩
  · exact ne_of_lt (Nat.lt_succ_of_le hle)
  · rw [h.max_pid] at hlt
    exact ne_of_gt hlt

/-- After the descriptor has been made, only it and the caller are written. -/
theorem Reserved.then (h : Reserved k k₁) (he : Elsewhere (fun q => q = k.max_pid + 1 ∨ q = c) k₁ k') :
    Keeps c k k' := by
  refine ⟨by rw [he.max_pid, h.max_pid]; exact Nat.le_succ _, fun q hq hle => ?_, fun q hq hlt => ?_⟩
  · have hne : q ≠ k.max_pid + 1 := ne_of_lt (Nat.lt_succ_of_le hle)
    exact (he.proc q (not_or.mpr ⟨hne, hq⟩)).trans (h.proc q hne)
  · rw [he.max_pid, h.max_pid] at hlt
    have hne : q ≠ k.max_pid + 1 := ne_of_gt hlt
    exact (he.proc q (not_or.mpr ⟨hne, hq⟩)).trans (h.proc q hne)

theorem cloneKernelContext_elsewhere (X : PID → Prop) (pa pb : PID) (k : Kernel) :
    Elsewhere X k (cloneKernelContext pa pb k) := .of_proc rfl rfl

theorem createUserContext_elsewhere (child parent : PID) (k : Kernel) :
    Elsewhere (· = child) k (createUserContext child parent k) := by
  have hmodify := Elsewhere.modify child (fun C => { C with
    user_context := (k.proc parent).user_context, info := (k.proc parent).info })
    (k.setWindow 0 (frameOf ((k.proc child).pcb_frames 0)))
  exact ⟨hmodify.max_pid, hmodify.proc⟩

/-- What `spawn` writes, up to the point where it returns the child. -/
theorem spawn_keeps {malloc₁ malloc₂ : Bool} {r : Option PID}
    (h : spawn malloc₁ malloc₂ parent k = .ok (r, k')) :
    (r = none → Keeps parent k k') ∧ ∀ child, r = some child → child = k.max_pid + 1 ∧
      ∃ k₁, Reserved k k₁ ∧ Elsewhere (fun q => q = k.max_pid + 1 ∨ q = parent) k₁ k' := by
  unfold spawn at h
  split at h
  · cases h
    exact ⟨fun _ => (Elsewhere.refl _ k).keeps, fun child hc => by cases hc⟩
  split at h
  · rename_i k₁ hd
    cases h
    refine ⟨fun _ => ?_, fun child hc => by cases hc⟩
    rcases createProcessDescriptor_reserved hd with ⟨rfl, -⟩ | ⟨hres, -⟩
    · exact (Elsewhere.refl _ k').keeps
    · exact hres.keeps parent
  · rename_i child k₁ hd
    rcases createProcessDescriptor_reserved hd with ⟨-, hnone⟩ | ⟨hres, hchild⟩
    · cases hnone
    have hc := hchild child rfl
    subst hc
    cases malloc₂ with
    | false =>
      cases h
      exact ⟨fun _ => hres.keeps parent, fun child hc => (by cases hc)⟩
    | true =>
      have hsuccess : ¬ SUCCESS = ERROR := by decide
      simp only [createPageTable, Bool.not_true, Bool.false_eq_true, if_false, if_neg hsuccess] at h
      obtain ⟨k₂, hcopy, h⟩ := bind_ok h
      cases h
      refine ⟨fun hnone => (by cases hnone), fun child hc => ?_⟩
      cases hc
      refine ⟨rfl, k₁, hres, ?_⟩
      have htable := Elsewhere.modify (k.max_pid + 1)
        (fun P => { P with live := true, page_table := k₁.table parent }) k₁
      have hstack := htable.trans (copyParentStack_elsewhere hcopy)
      have hcontext := hstack.trans (createUserContext_elsewhere (k.max_pid + 1) parent k₂)
      exact hcontext.mono fun q hq => .inl hq

theorem forkProcess_keeps {malloc₁ malloc₂ : Bool} {result : Int}
    (h : forkProcess malloc₁ malloc₂ parent k = .ok (result, k')) : Keeps parent k k' := by
  unfold forkProcess at h
  obtain ⟨⟨r, k₁⟩, hspawn, h⟩ := bind_ok h
  obtain ⟨hnone, hsome⟩ := spawn_keeps hspawn
  cases r with
  | none =>
    cases h
    exact hnone rfl
  | some child =>
    obtain ⟨rfl, k₀, hres, hspawned⟩ := hsome child rfl
    obtain ⟨k₂, hparent, h⟩ := bind_ok h
    obtain ⟨k₃, hchild, h⟩ := bind_ok h
    cases h
    apply hres.then
    apply hspawned.trans
    apply ((setCopyOnWrite_elsewhere hparent).mono fun q hq => .inr hq).trans
    apply ((setCopyOnWrite_elsewhere hchild).mono fun q hq => .inl hq).trans
    exact cloneKernelContext_elsewhere _ _ _ _

theorem createThread_keeps {malloc₁ malloc₂ : Bool} {result : Int}
    (h : createThread malloc₁ malloc₂ parent k = .ok (result, k')) : Keeps parent k k' := by
  unfold createThread at h
  obtain ⟨⟨r, k₁⟩, hspawn, h⟩ := bind_ok h
  obtain ⟨hnone, hsome⟩ := spawn_keeps hspawn
  cases r with
  | none =>
    cases h
    exact hnone rfl
  | some child =>
    obtain ⟨rfl, k₀, hres, hspawned⟩ := hsome child rfl
    obtain ⟨k₂, hcounts, h⟩ := bind_ok h
    cases h
    apply hres.then
    apply hspawned.trans
    apply (increaseFRCEntries_elsewhere _ hcounts).trans
    have hleader := Elsewhere.modify (k.max_pid + 1) (fun C => { C with thread_leader := some parent }) k₂
    apply (hleader.mono fun q hq => .inl hq).trans
    exact cloneKernelContext_elsewhere _ _ _ _

end Yalnix
