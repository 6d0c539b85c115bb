import Yalnix.Process.StackRounds

/-!
# Where a fork splits the page table

The loops of `forkProcess` and `createThread` each compute the page of the stack pointer from the
user register, which the kernel does not check: what lies above is copied for the child, what lies
below is shared with it.

* `stackRounds` — the rounds of the loops in one `forkProcess` or `createThread`.
* `split_exact_iff` — they stay inside the page table and handle every valid entry once exactly if
  the stack pointer is in region 1 or on the page after it, every page to be copied can be read and
  finds a free frame, and no count that is raised is at its maximum.
-/

set_option autoImplicit false

namespace Yalnix

open Loop (Iteration history times)

/-! ## The rounds of a fork -/

/-- The rounds of the loops in one call: of `copyParentStack`, of `setCopyOnWrite` on the parent's
table, and of the loop that raises the counts, which is `setCopyOnWrite` on the child's table in
`forkProcess` and `increaseFRCEntries` in `createThread`. -/
structure CallRounds where
  copy : Rounds
  mark : Rounds
  share : Rounds

/-- The loops of `forkProcess` or, if `thread`, of `createThread`, once the child has its page
table. -/
def tableRounds (thread : Bool) (parent child : PID) (k : Kernel) : CallRounds :=
  let copy := history (stack_base parent k) MAX_PT_LEN (copyStackPage parent child parent) k
  match copyParentStack parent child parent k with
  | .error _ => ⟨copy, [], []⟩
  | .ok k =>
    let k := createUserContext child parent k
    if thread then ⟨copy, [], history 0 (stack_base parent k) (raiseEntry child) k⟩
    else
      let mark := history 0 (stack_base parent k) (markEntry parent false) k
      match setCopyOnWrite parent parent false k with
      | .error _ => ⟨copy, mark, []⟩
      | .ok k => ⟨copy, mark, history 0 (stack_base parent k) (markEntry child true) k⟩

/-- The child and the rounds of the loops; `none` if the call gives up before the first of them. -/
def stackRounds (thread malloc₁ malloc₂ : Bool) (parent : PID) (k : Kernel) :
    Option (PID × CallRounds) :=
  if (k.proc parent).thread_leader.isSome then none
  else
    match createProcessDescriptor malloc₁ k with
    | (none, _) => none
    | (some child, k) =>
      match createPageTable malloc₂ child parent k with
      | (status, k) =>
        if status = ERROR then none else some (child, tableRounds thread parent child k)

/-- How often the page of entry `i` of the parent has been copied for the child. -/
def CallRounds.copies (r : CallRounds) (parent child : PID) (i : Nat) : Nat :=
  times r.copy i (copied parent child i)

/-- How often entry `i` of the parent has been marked copy-on-write. -/
def CallRounds.marks (r : CallRounds) (parent : PID) (i : Nat) : Nat :=
  times r.mark i (marked parent i)

/-- How often entry `i` of the child has been shared, with its count raised by one. -/
def CallRounds.shares (r : CallRounds) (child : PID) (i : Nat) : Nat :=
  times r.share i (raised child i)

/-- The loops access entries of the page table only, and between them handle every valid entry of
the parent once; a fork marks those it shares in the parent's table too. -/
structure SplitExact (thread malloc₁ malloc₂ : Bool) (parent : PID) (k : Kernel) : Prop where
  inside : ∀ child r, stackRounds thread malloc₁ malloc₂ parent k = some (child, r) →
    ∀ x ∈ r.copy ++ r.mark ++ r.share, 0 ≤ x.counter ∧ x.counter < 128
  once : ∀ child r, stackRounds thread malloc₁ malloc₂ parent k = some (child, r) →
    ∀ i < 128, (k.table parent i).valid = true → r.copies parent child i + r.shares child i = 1
  marked : ∀ child r, stackRounds thread malloc₁ malloc₂ parent k = some (child, r) →
    thread = false → ∀ i < 128, (k.table parent i).valid = true →
      r.marks parent i = r.shares child i

/-! ## The condition -/

/-- The list of free frames is whole, the counts are 8-bit numbers, and no page of `p` is on a free
frame. -/
structure Allocatable (k : Kernel) (p : Nat) (l : List Nat) : Prop where
  pid : p ≤ k.max_pid
  list : FreeList k l
  used : ∀ i < 128, (k.table p i).valid = true → (k.table p i).pfn ∉ l
  chars : ∀ f, -128 ≤ k.frc_table f ∧ k.frc_table f ≤ 127

/-- The call makes a descriptor and a page table: it comes to the loops. -/
structure Reaches (malloc₁ malloc₂ : Bool) (p : Nat) (k : Kernel) (l : List Nat) : Prop where
  leader : (k.proc p).thread_leader = none
  mallocs : malloc₁ = true ∧ malloc₂ = true
  pid : (k.max_pid : Int) < LONG_MAX
  frames : 2 ≤ l.length

/-- The stack pointer is in region 1 or on the page after it, the pages above it can be read, there
is a frame for each of them, and no count is taken past 127. -/
structure StackInside (k : Kernel) (p : Nat) (l : List Nat) : Prop where
  lo : 0 ≤ stack_base p k
  hi : stack_base p k ≤ 128
  readable : ∀ i : Nat, i < 128 → stack_base p k ≤ i → (k.table p i).valid = true →
    (k.table p i).readable = true
  frames : 2 + stackPages k p (stack_base p k).toNat ≤ l.length
  counts : ∀ f, k.frc_table f + sharesBelow k p (stack_base p k).toNat f ≤ 127

variable {k k' : Kernel} {l : List Nat} {p c i : Nat}

/-! ## Up to the loops -/

theorem createProcessDescriptor_frames {child : PID} (hl : FreeList k l)
    (h : createProcessDescriptor true k = (some child, k')) : 2 ≤ l.length := by
  by_cases hpid : (k.max_pid : Int) < LONG_MAX
  · unfold createProcessDescriptor at h
    rw [nextAvailablePID_eq rfl hpid] at h
    simp only [Bool.not_true, Bool.false_eq_true, if_false, Nat.add_eq_zero_iff, one_ne_zero,
      and_false] at h
    cases l with
    | nil =>
      have hlist : FreeList (({ k with max_pid := k.max_pid + 1 } : Kernel).modify (k.max_pid + 1)
          fun _ => newProcess) [] := hl.of_eq rfl rfl rfl
      rw [allocatePageFrame_nil hlist] at h
      simp at h
    | cons f l =>
      have hf := (hl.frame f List.mem_cons_self).1
      obtain ⟨ka, halloc, hlist, -, -⟩ := allocatePageFrame_cons
        (k := ({ k with max_pid := k.max_pid + 1 } : Kernel).modify (k.max_pid + 1) fun _ => newProcess)
        (hl.of_eq rfl rfl rfl)
      simp only [halloc, pageAtIndex_ne_zero hf, if_false] at h
      cases l with
      | nil =>
        have hnil : FreeList (ka.modify (k.max_pid + 1) (setPcbFrame 0 (pageAtIndex f))) [] :=
          hlist.of_eq rfl rfl rfl
        rw [allocatePageFrame_nil hnil] at h
        simp at h
      | cons g l => simp
  · unfold createProcessDescriptor at h
    rw [nextAvailablePID_none hpid] at h
    simp at h

/-- A call that does not come to the loops gives up before them. -/
theorem reaches_of_rounds {thread malloc₁ malloc₂ : Bool} {child : PID} {r : CallRounds}
    (hl : FreeList k l) (h : stackRounds thread malloc₁ malloc₂ p k = some (child, r)) :
    Reaches malloc₁ malloc₂ p k l := by
  unfold stackRounds at h
  split at h
  · cases h
  · rename_i hleader
    have hnone : (k.proc p).thread_leader = none := by simpa using hleader
    cases malloc₁ with
    | false => simp [createProcessDescriptor] at h
    | true =>
      cases hd : createProcessDescriptor true k with
      | mk c k₁ =>
        rw [hd] at h
        cases c with
        | none => cases h
        | some c =>
          have hlen := createProcessDescriptor_frames hl hd
          have hpid : (k.max_pid : Int) < LONG_MAX := by
            by_contra hpid
            unfold createProcessDescriptor at hd
            rw [nextAvailablePID_none hpid] at hd
            simp at hd
          cases malloc₂ with
          | false => simp [createPageTable] at h
          | true => exact ⟨hnone, ⟨rfl, rfl⟩, hpid, hlen⟩

/-- The state in which the loops begin. -/
structure TableMade (k k' : Kernel) (p c : Nat) (l : List Nat) : Prop where
  keeps : CopyKeeps k' k' p c (l.drop 2) (stack_base p k) (stack_base p k)
  base : stack_base p k' = stack_base p k
  parent : k'.table p = k.table p
  child : k'.table c = k.table p
  counts : ∀ f, f ∉ l → k'.frc_table f = k.frc_table f

theorem rounds_of_reaches {malloc₁ malloc₂ : Bool} (h : Allocatable k p l)
    (hr : Reaches malloc₁ malloc₂ p k l) (thread : Bool) :
    ∃ k', stackRounds thread malloc₁ malloc₂ p k =
        some (k.max_pid + 1, tableRounds thread p (k.max_pid + 1) k') ∧
      TableMade k k' p (k.max_pid + 1) l := by
  obtain ⟨hleader, ⟨rfl, rfl⟩, hpid, hlen⟩ := hr
  obtain ⟨f₀, f₁, l₁, rfl⟩ : ∃ f₀ f₁ l₁, l = f₀ :: f₁ :: l₁ := by
    cases l with
    | nil => simp at hlen
    | cons f₀ l =>
      cases l with
      | nil => simp at hlen
      | cons f₁ l => exact ⟨f₀, f₁, l, rfl⟩
  obtain ⟨-, k₁, hrun, -, -, hlist, honly, -, -, hfrc⟩ :=
    createProcessDescriptor_two rfl h.list hpid
  have hpc : p ≠ k.max_pid + 1 := by have := h.pid; omega
  have hproc : k₁.proc p = k.proc p := honly.proc p hpc
  have hparent : k₁.table p = k.table p := honly.table_ne hpc
  generalize hk₂ : (k₁.modify (k.max_pid + 1) fun P =>
    { P with live := true, page_table := k₁.table p }) = k₂
  have hproc₂ : k₂.proc p = k.proc p := by
    rw [← hk₂, Kernel.proc_modify, Function.update_of_ne hpc, hproc]
  have hfrc₂ : k₂.frc_table = Function.update (Function.update k.frc_table f₀ 1) f₁ 1 := by
    rw [← hk₂]
    exact hfrc
  refine ⟨k₂, ?_, ⟨⟨rfl, fun _ _ => rfl, ?_, fun _ _ => rfl, fun f => ?_⟩, ?_, ?_, ?_,
    fun f hf => ?_⟩⟩
  · unfold stackRounds
    rw [hleader]
    simp only [Option.isSome_none, Bool.false_eq_true, if_false, hrun, createPageTable, Bool.not_true,
      hk₂, SUCCESS, ERROR, show ¬ (0 : Int) = -1 by omega]
  · rw [Nat.sub_self, List.drop_zero, ← hk₂]
    exact hlist.of_eq rfl rfl rfl
  · rw [hfrc₂]
    have := h.chars f
    unfold Function.update
    simp only [eq_rec_constant, dite_eq_ite]
    split_ifs
    · omega
    · omega
    · exact this
  · unfold stack_base
    rw [hproc₂]
  · unfold Kernel.table
    rw [hproc₂]
  · rw [← hk₂, Kernel.table, Kernel.proc_modify_self]
    exact hparent
  · rw [hfrc₂, Function.update_of_ne (by rintro rfl; simp at hf),
      Function.update_of_ne (by rintro rfl; simp at hf)]

/-! ## The loops of one call -/

variable {thread : Bool} {k₁ : Kernel}

theorem rounds_copy (thread : Bool) (p c : Nat) (k : Kernel) : (tableRounds thread p c k).copy =
    history (stack_base p k) MAX_PT_LEN (copyStackPage p c p) k := by
  unfold tableRounds
  split
  · rfl
  · cases thread with
    | true => rfl
    | false =>
      simp only [Bool.false_eq_true, if_false]
      split
      · rfl
      · rfl

theorem rounds_of_error {e : Stop} (h : copyParentStack p c p k = .error e) :
    (tableRounds thread p c k).share = [] := by
  unfold tableRounds
  rw [h]

theorem rounds_thread (h : copyParentStack p c p k = .ok k₁) :
    (tableRounds true p c k).mark = [] ∧ (tableRounds true p c k).share =
      history 0 (stack_base p (createUserContext c p k₁)) (raiseEntry c) (createUserContext c p k₁) := by
  unfold tableRounds
  rw [h]
  exact ⟨rfl, rfl⟩

theorem rounds_mark (h : copyParentStack p c p k = .ok k₁) : (tableRounds false p c k).mark =
    history 0 (stack_base p (createUserContext c p k₁)) (markEntry p false)
      (createUserContext c p k₁) := by
  unfold tableRounds
  rw [h]
  simp only [Bool.false_eq_true, if_false]
  split
  · rfl
  · rfl

theorem rounds_fork {k₂ : Kernel} (h : copyParentStack p c p k = .ok k₁)
    (h₂ : setCopyOnWrite p p false (createUserContext c p k₁) = .ok k₂) :
    (tableRounds false p c k).share = history 0 (stack_base p k₂) (markEntry c true) k₂ := by
  unfold tableRounds
  rw [h]
  simp only [Bool.false_eq_true, if_false]
  rw [h₂]

/-- The loop that raises the counts works on a table with the parent's entries below the stack. -/
structure ShareLoop (k : Kernel) (p c : Nat) (l : List Nat) (rounds : Rounds) : Prop where
  loop : ∃ body k', Shares body c true ∧ rounds = history 0 (stack_base p k) body k' ∧
    (∀ f, -128 ≤ k'.frc_table f ∧ k'.frc_table f ≤ 127) ∧
    (∀ j : Nat, (j : Int) < stack_base p k → k'.table c j = k.table p j) ∧
    ∀ f, f ∉ l → k'.frc_table f = k.frc_table f

theorem shareLoop_of_ok (thread : Bool) {k₂ : Kernel} (hpc : p ≠ c) (hmade : TableMade k k₂ p c l)
    (h0 : 0 ≤ stack_base p k) (hle : stack_base p k ≤ 128)
    (hrun : copyParentStack p c p k₂ = .ok k₁)
    (hkeep : CopyKeeps k₂ k₁ p c (l.drop 2) (stack_base p k) MAX_PT_LEN) :
    ShareLoop k p c l (tableRounds thread p c k₂).share := by
  have hbase : stack_base p (createUserContext c p k₁) = stack_base p k := by
    rw [createUserContext_base hpc, ← hmade.base]
    unfold stack_base
    rw [hkeep.parent]
  have htable : ∀ j : Nat, (j : Int) < stack_base p k →
      (createUserContext c p k₁).table c j = k.table p j := fun j hj => by
    rw [createUserContext_table, hkeep.below j hj, hmade.child]
  have hfrc : ∀ f, f ∉ l → (createUserContext c p k₁).frc_table f = k.frc_table f := fun f hf =>
    (hkeep.counts f fun hm => hf (List.mem_of_mem_drop hm)).trans (hmade.counts f hf)
  cases thread with
  | true =>
    refine ⟨_, createUserContext c p k₁, shares_raiseEntry c, ?_, hkeep.chars, htable, hfrc⟩
    rw [(rounds_thread hrun).2, hbase]
  | false =>
    have hmark := setCopyOnWrite_parent (k := createUserContext c p k₁) (p := p)
      (n := (stack_base p k).toNat) (by rw [hbase]; omega) (by omega)
    generalize hk₃ : (createUserContext c p k₁).modify p (mapBelow (stack_base p k).toNat PTE.shared) =
      k₃ at hmark
    have hbase₃ : stack_base p k₃ = stack_base p k := by
      rw [← hbase, ← hk₃]
      unfold stack_base
      rw [Kernel.proc_modify_self]
      rfl
    refine ⟨_, k₃, shares_markEntry c true, by rw [rounds_fork hrun hmark, hbase₃], ?_, fun j hj => ?_,
      ?_⟩
    · rw [← hk₃]
      exact hkeep.chars
    · rw [← hk₃, Kernel.table_modify_ne (Ne.symm hpc)]
      exact htable j hj
    · rw [← hk₃]
      exact hfrc

/-- An entry below the stack pointer is shared once, unless the count of its frame has come to its
maximum; the others are not. -/
theorem ShareLoop.shares {rounds : Rounds} (h : ShareLoop k p c l rounds) (halloc : Allocatable k p l)
    (hi : i < 128) (hv : (k.table p i).valid = true) : times rounds i (raised c i) =
      if (i : Int) < stack_base p k ∧ raisedCount k p i (k.table p i).pfn ≠ 127 then 1 else 0 := by
  obtain ⟨body, k', hbody, rfl, hchars, htable, hfrc⟩ := h.loop
  by_cases hlt : (i : Int) < stack_base p k
  · have hcount : raisedCount k' c i (k.table p i).pfn = raisedCount k p i (k.table p i).pfn := by
      unfold raisedCount sharesBelow
      rw [hfrc _ (halloc.used i hi hv), RefCount.refs_congr fun j hj => ?_]
      have hji := Finset.mem_range.mp hj
      rw [htable j (by omega)]
    rw [share_raised hbody hchars hi (by rw [htable i hlt]; exact hv), htable i hlt, hcount]
  · rw [if_neg fun hn => hlt hn.1]
    refine Loop.times_eq_zero.mpr fun x hx hxi => ?_
    have := (Loop.history_range hx).1.2
    omega

/-- In a fork, the entries of the parent below the stack pointer are marked once. -/
theorem marks_of_ok {k₂ : Kernel} (hpc : p ≠ c) (hmade : TableMade k k₂ p c l)
    (hrun : copyParentStack p c p k₂ = .ok k₁)
    (hkeep : CopyKeeps k₂ k₁ p c (l.drop 2) (stack_base p k) MAX_PT_LEN)
    (hi : i < 128) (hv : (k.table p i).valid = true) :
    (tableRounds false p c k₂).marks p i = if (i : Int) < stack_base p k then 1 else 0 := by
  have hbase : stack_base p (createUserContext c p k₁) = stack_base p k := by
    rw [createUserContext_base hpc, ← hmade.base]
    unfold stack_base
    rw [hkeep.parent]
  unfold CallRounds.marks
  rw [rounds_mark hrun, hbase]
  refine mark_marked hkeep.chars hi ?_
  rw [createUserContext_table, hkeep.table, hmade.parent]
  exact hv

/-- A stack pointer beyond the page after region 1 takes the loops past the table. -/
theorem outside_of_high (thread : Bool) {k₂ : Kernel} (hpc : p ≠ c) (hmade : TableMade k k₂ p c l)
    (hhi : 128 < stack_base p k) : ∃ x, (x ∈ (tableRounds thread p c k₂).copy ++
      (tableRounds thread p c k₂).mark ++ (tableRounds thread p c k₂).share) ∧ x.counter = 128 := by
  have hrun : copyParentStack p c p k₂ = .ok k₂ := by
    unfold copyParentStack
    exact Loop.forRange_empty (by rw [hmade.base]; unfold MAX_PT_LEN; omega)
  have hbase : stack_base p (createUserContext c p k₂) = stack_base p k := by
    rw [createUserContext_base hpc, hmade.base]
  cases thread with
  | true =>
    obtain ⟨x, hx, hxi⟩ := share_reaches (i := 128) (k := createUserContext c p k₂)
      (n := stack_base p k) (shares_raiseEntry c) le_rfl (by omega)
    refine ⟨x, List.mem_append_right _ ?_, hxi⟩
    rw [(rounds_thread hrun).2, hbase]
    exact hx
  | false =>
    obtain ⟨x, hx, hxi⟩ := share_reaches (i := 128) (k := createUserContext c p k₂)
      (n := stack_base p k) (shares_markEntry p false) le_rfl (by omega)
    refine ⟨x, List.mem_append_left _ (List.mem_append_right _ ?_), hxi⟩
    rw [rounds_mark hrun, hbase]
    exact hx

/-- The loops of a call whose stack pointer is in the table or on the page after it stay inside. -/
theorem inside_of_base {k₂ : Kernel} (hpc : p ≠ c) (hmade : TableMade k k₂ p c l)
    (h0 : 0 ≤ stack_base p k) (hle : stack_base p k ≤ 128)
    (hrun : copyParentStack p c p k₂ = .ok k₁)
    (hkeep : CopyKeeps k₂ k₁ p c (l.drop 2) (stack_base p k) MAX_PT_LEN)
    {x : Iteration Stop Kernel} (hx : x ∈ (tableRounds thread p c k₂).copy ++
      (tableRounds thread p c k₂).mark ++ (tableRounds thread p c k₂).share) :
    0 ≤ x.counter ∧ x.counter < 128 := by
  have hbase : stack_base p (createUserContext c p k₁) = stack_base p k := by
    rw [createUserContext_base hpc, ← hmade.base]
    unfold stack_base
    rw [hkeep.parent]
  rcases List.mem_append.mp hx with hx | hx
  · rcases List.mem_append.mp hx with hx | hx
    · rw [rounds_copy, hmade.base] at hx
      have := (Loop.history_range hx).1
      unfold MAX_PT_LEN at this
      omega
    · cases thread with
      | true =>
        rw [(rounds_thread hrun).1] at hx
        cases hx
      | false =>
        rw [rounds_mark hrun, hbase] at hx
        have := (Loop.history_range hx).1
        omega
  · obtain ⟨body, k', -, hshare, -⟩ := (shareLoop_of_ok thread hpc hmade h0 hle hrun
      hkeep).loop
    rw [hshare] at hx
    have := (Loop.history_range hx).1
    omega

theorem TableMade.stackPages (hmade : TableMade k k' p c l) (b : Nat) :
    stackPages k' p b = stackPages k p b := by
  unfold Yalnix.stackPages
  rw [hmade.parent]

/-- The page of an entry from the stack pointer up is copied once, if a frame is left when the loop
comes to it. -/
theorem copies_rounds {k₂ : Kernel} (h : Allocatable k p l) (hpc : p ≠ c)
    (hmade : TableMade k k₂ p c l) (h0 : 0 ≤ stack_base p k)
    (hrun : copyParentStack p c p k₂ = .ok k₁) (hi : i < 128) (hv : (k.table p i).valid = true) :
    (tableRounds thread p c k₂).copies p c i = if stack_base p k ≤ i ∧
      stackPages k p (stack_base p k).toNat - stackPages k p i < l.length - 2 then 1 else 0 := by
  unfold CallRounds.copies
  rw [rounds_copy, hmade.base]
  unfold copyParentStack at hrun
  rw [hmade.base] at hrun
  rw [copies_of_ok hmade.keeps hpc h0 hrun hi (by rw [hmade.parent]; exact hv) (by
    rw [hmade.parent]
    exact fun hm => h.used i hi hv (List.mem_of_mem_drop hm)), hmade.stackPages, hmade.stackPages,
    List.length_drop]

variable {malloc₁ malloc₂ : Bool}

theorem SplitExact.stackInside (hs : SplitExact thread malloc₁ malloc₂ p k) (h : Allocatable k p l)
    (hr : Reaches malloc₁ malloc₂ p k l) : StackInside k p l := by
  have hpc : p ≠ k.max_pid + 1 := by have := h.pid; omega
  obtain ⟨k₂, hrounds, hmade⟩ := rounds_of_reaches h hr thread
  have hinside := hs.inside _ _ hrounds
  have honce := hs.once _ _ hrounds
  have h0 : 0 ≤ stack_base p k := by
    by_contra hneg
    obtain ⟨x, hx, hxi⟩ : ∃ x ∈ (tableRounds thread p (k.max_pid + 1) k₂).copy,
        x.counter = stack_base p k := by
      rw [rounds_copy, hmade.base]
      exact ⟨_, Loop.history_first (by unfold MAX_PT_LEN; omega), rfl⟩
    have := (hinside x (List.mem_append_left _ (List.mem_append_left _ hx))).1
    omega
  cases hrun : copyParentStack p (k.max_pid + 1) p k₂ with
  | error e =>
    have hloop := hrun
    unfold copyParentStack at hloop
    rw [hmade.base] at hloop
    obtain ⟨i, hi, hv, hcopy⟩ := copies_of_error hmade.keeps hpc h0 hloop
    rw [hmade.parent] at hv
    have hone := honce i hi hv
    unfold CallRounds.copies CallRounds.shares at hone
    rw [rounds_copy, hmade.base, hcopy, rounds_of_error hrun] at hone
    cases hone
  | ok k₁ =>
    have hloop := hrun
    unfold copyParentStack at hloop
    rw [hmade.base] at hloop
    have hread : ∀ i : Nat, i < 128 → stack_base p k ≤ i → (k.table p i).valid = true →
        (k.table p i).readable = true := fun i hi hle hv => by
      have := readable_of_copy_ok hmade.keeps hpc h0 hloop hi hle (by rw [hmade.parent]; exact hv)
      rwa [hmade.parent] at this
    have hle : stack_base p k ≤ 128 := by
      by_contra hhi
      obtain ⟨x, hx, hxi⟩ := outside_of_high thread hpc hmade (by omega)
      have := (hinside x hx).2
      omega
    obtain ⟨k₃, hrun₃, hkeep⟩ := copy_ok hmade.keeps hpc h0 hle (by rw [hmade.parent]; exact hread)
    obtain rfl : k₃ = k₁ := by rw [hrun₃] at hloop; cases hloop; rfl
    have hshares := fun i hi hv =>
      (shareLoop_of_ok thread hpc hmade h0 hle hrun hkeep).shares (i := i) h hi hv
    have hframes : stackPages k p (stack_base p k).toNat ≤ l.length - 2 :=
      (frames_iff h0 hle).mpr fun i hi hlo hv => by
        have hone := honce i hi hv
        by_contra hfew
        rw [copies_rounds h hpc hmade h0 hrun hi hv, if_neg fun hn => hfew hn.2, CallRounds.shares,
          hshares i hi hv, if_neg fun hn => absurd hn.1 (by omega)] at hone
        cases hone
    have htwo := hr.frames
    refine ⟨h0, hle, hread, by omega, (counts_iff h.chars).mpr fun i hi hv => ?_⟩
    have hi' : i < 128 := by omega
    have hone := honce i hi' hv
    rw [copies_rounds h hpc hmade h0 hrun hi' hv, if_neg fun hn => absurd hn.1 (by omega),
      Nat.zero_add, CallRounds.shares, hshares i hi' hv] at hone
    by_contra hmax
    rw [if_neg fun hn => hn.2 hmax] at hone
    cases hone

/-- A call that comes to the loops, with the state they begin in and the one the copying ends in. -/
theorem StackInside.rounds {child : PID} {r : CallRounds} (hin : StackInside k p l)
    (h : Allocatable k p l) (hr : stackRounds thread malloc₁ malloc₂ p k = some (child, r)) :
    p ≠ child ∧ ∃ k₁ k₂, r = tableRounds thread p child k₂ ∧ TableMade k k₂ p child l ∧
      copyParentStack p child p k₂ = .ok k₁ ∧
      CopyKeeps k₂ k₁ p child (l.drop 2) (stack_base p k) MAX_PT_LEN := by
  have hpc : p ≠ k.max_pid + 1 := by have := h.pid; omega
  obtain ⟨k₂, hrounds, hmade⟩ := rounds_of_reaches h (reaches_of_rounds h.list hr) thread
  rw [hr] at hrounds
  cases hrounds
  obtain ⟨k₁, hrun, hkeep⟩ := copy_ok hmade.keeps hpc hin.lo hin.hi
    (by rw [hmade.parent]; exact hin.readable)
  refine ⟨hpc, k₁, k₂, rfl, hmade, ?_, hkeep⟩
  unfold copyParentStack
  rw [hmade.base]
  exact hrun

theorem StackInside.shares {child : PID} {r : CallRounds} (hin : StackInside k p l)
    (h : Allocatable k p l) (hr : stackRounds thread malloc₁ malloc₂ p k = some (child, r))
    (hi : i < 128) (hv : (k.table p i).valid = true) :
    r.shares child i = if (i : Int) < stack_base p k then 1 else 0 := by
  obtain ⟨hpc, k₁, k₂, rfl, hmade, hrun, hkeep⟩ := hin.rounds h hr
  rw [CallRounds.shares, (shareLoop_of_ok thread hpc hmade hin.lo hin.hi hrun hkeep).shares h hi hv]
  by_cases hlt : (i : Int) < stack_base p k
  · rw [if_pos ⟨hlt, (counts_iff h.chars).mp hin.counts i (by omega) hv⟩, if_pos hlt]
  · rw [if_neg fun hn => hlt hn.1, if_neg hlt]

theorem StackInside.splitExact (h : Allocatable k p l)
    (hcond : Reaches malloc₁ malloc₂ p k l → StackInside k p l) :
    SplitExact thread malloc₁ malloc₂ p k := by
  have hin : ∀ child r, stackRounds thread malloc₁ malloc₂ p k = some (child, r) → StackInside k p l :=
    fun child r hr => hcond (reaches_of_rounds h.list hr)
  refine ⟨fun child r hr x hx => ?_, fun child r hr i hi hv => ?_, fun child r hr ht i hi hv => ?_⟩
  · have hstack := hin child r hr
    obtain ⟨hpc, k₁, k₂, rfl, hmade, hrun, hkeep⟩ := hstack.rounds h hr
    exact inside_of_base hpc hmade hstack.lo hstack.hi hrun hkeep hx
  · have hstack := hin child r hr
    rw [hstack.shares h hr hi hv]
    obtain ⟨hpc, k₁, k₂, rfl, hmade, hrun, hkeep⟩ := hstack.rounds h hr
    rw [copies_rounds h hpc hmade hstack.lo hrun hi hv]
    have hframes := hstack.frames
    by_cases hlo : stack_base p k ≤ i
    · have hleft := (frames_iff (k := k) (p := p) (n := l.length - 2) hstack.lo hstack.hi).mp
        (by omega) i hi hlo hv
      rw [if_pos ⟨hlo, hleft⟩, if_neg (by omega)]
    · rw [if_neg fun hn => hlo hn.1, if_pos (by omega)]
  · have hstack := hin child r hr
    rw [hstack.shares h hr hi hv]
    obtain ⟨hpc, k₁, k₂, rfl, hmade, hrun, hkeep⟩ := hstack.rounds h hr
    subst ht
    exact marks_of_ok hpc hmade hrun hkeep hi hv

/-- **The loops stay in the page table and split it exactly if the stack pointer is in region 1 or
on the page after it, what is copied can be read and finds a frame, and no count overflows.** -/
theorem split_exact_iff (h : Allocatable k p l) (thread malloc₁ malloc₂ : Bool) :
    SplitExact thread malloc₁ malloc₂ p k ↔ (Reaches malloc₁ malloc₂ p k l → StackInside k p l) := by
  constructor
  · intro hs hr
    exact hs.stackInside h hr
  · intro hcond
    exact StackInside.splitExact h hcond

/-! ## The first process -/

/-- A kernel whose references are counted can allocate. -/
theorem Counted.allocatable {leak : Nat → Nat} (hc : Counted k (slots k.max_pid) leak l)
    (hp : 0 < p ∧ p ≤ k.max_pid) : Allocatable k p l := by
  refine ⟨hp.2, hc.list, fun i hi hv => ?_, fun f => ?_⟩
  · refine hc.not_free (mem_slots.mpr ⟨hp.2, ?_⟩) (mapping_of_valid (by omega) hi hv)
    simp only
    omega
  · rw [hc.counts.count f]
    exact char_range _

/-- The first process after a trap with the given registers. -/
theorem machine_allocatable {N : Nat} (hN : N ≤ 65536) (context : UserContext) :
    ∃ l, Allocatable (saveUserContext 1 context (machine N)) 1 l ∧ l.length = N := by
  obtain ⟨l, hc, hlen, -⟩ := machine_counted hN
  have hmax := max_pid_machine hN
  rw [← hmax] at hc
  have hcounted := hc.saveUserContext 1 context
  refine ⟨l, hcounted.allocatable ⟨by omega, ?_⟩, hlen⟩
  change 1 ≤ (machine N).max_pid
  omega

theorem split_exact_first :
    SplitExact false true true 1 (saveUserContext 1 firstContext (machine 3)) := by
  obtain ⟨l, h, hlen⟩ := machine_allocatable (N := 3) (by omega) firstContext
  obtain ⟨-, -, -, -, -, -, hfit⟩ := (machine_sound (N := 3) (by omega)).forkReady
    (machine_roomy (by omega)) (running_machine (by omega)) (by rw [proc_machine (by omega)]; rfl)
    (by rw [max_pid_machine (by omega)]; decide) firstContext_sp (by omega)
    (by have := stackPages_le (k := machine 3) (p := 1); omega) (by omega)
  refine (split_exact_iff h false true true).mpr fun _ =>
    ⟨?_, ?_, fun i hi _ hv => ?_, ?_, fun f => ?_⟩
  · rw [stack_base_saveUserContext]
    decide
  · rw [stack_base_saveUserContext]
    decide
  · rw [table_saveUserContext, table_machine (by omega)] at hv ⊢
    exact (tables_firstProcess i).readable hv
  · have := stackPages_le (k := saveUserContext 1 firstContext (machine 3)) (p := 1)
    rw [stack_base_saveUserContext, hlen]
    change 2 + stackPages _ 1 127 ≤ 3
    omega
  · exact hfit.saved f

/-- **A process whose stack pointer is 0 forks: the kernel reads entry -128.** -/
theorem low_stack_outside : ¬ SplitExact false true true 1
    (saveUserContext 1 ⟨0x100000, 0, fun _ => 0⟩ (machine 3)) := by
  intro hs
  obtain ⟨l, h, hlen⟩ := machine_allocatable (N := 3) (by omega) ⟨0x100000, 0, fun _ => 0⟩
  have hreach : Reaches true true 1 (saveUserContext 1 ⟨0x100000, 0, fun _ => 0⟩ (machine 3)) l := by
    refine ⟨?_, ⟨rfl, rfl⟩, ?_, by omega⟩
    · rw [saveUserContext, Kernel.proc_modify_self, proc_machine (by omega)]
      rfl
    · change (((machine 3).max_pid : Nat) : Int) < LONG_MAX
      rw [max_pid_machine (by omega)]
      decide
  have hlo := (hs.stackInside h hreach).lo
  rw [stack_base_saveUserContext] at hlo
  exact absurd hlo (by decide)

end Yalnix
