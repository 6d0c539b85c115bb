import Yalnix.Memory.Counts

/-!
# Mapping several pages

The loops of `increaseBrk` and of `loadProgram` are one loop: each page in turn gets a frame, and the
loop ends early when there is none.

* `Enough n k` — the next `n` calls of `allocatePageFrame` find a frame; `FreeList.enough_iff`.
* `mapFrames` — the loop; `increaseLoop_eq`.
* `mapFrames_spec`, `mapFrames_total` — what it does on a well-formed free list, and that nothing but an
  index outside the page table can stop it.
-/

set_option autoImplicit false

namespace Yalnix

variable {k k' k₁ : Kernel} {l : List Nat} {f g p n : Nat} {r status : Int} {is : List Int}

/-! ## The supply of frames -/

/-- The next `n` calls of `allocatePageFrame` find a frame. -/
def Enough : Nat → Kernel → Prop
  | 0, _ => True
  | n + 1, k => (allocatePageFrame k).1 ≠ 0 ∧ Enough n (allocatePageFrame k).2

/-- The free list is empty. -/
def OutOfFrames (k : Kernel) : Prop := k.frame_head.next = k.frame_head_addr

theorem enough_one : Enough 1 k ↔ (allocatePageFrame k).1 ≠ 0 := by
  unfold Enough
  simp [Enough]

/-- Allocation does not look at processes. -/
theorem allocatePageFrame_modify (u : Process → Process) : allocatePageFrame (k.modify p u) =
    ((allocatePageFrame k).1, (allocatePageFrame k).2.modify p u) := by
  generalize hk₁ : (k.setWindow 0 (frameOf k.frame_head.next)).setFrc (frameOf k.frame_head.next) 1 = k₁
  have hm : ((k.modify p u).setWindow 0 (frameOf k.frame_head.next)).setFrc (frameOf k.frame_head.next) 1 =
      k₁.modify p u := by
    rw [← hk₁]
    rfl
  unfold allocatePageFrame
  simp only [Kernel.head_modify, Kernel.addr_modify, hk₁, hm]
  by_cases hempty : k.frame_head.next = k.frame_head_addr
  · simp only [if_pos hempty]
  · simp only [if_neg hempty]
    have hwin : (k₁.modify p u).windowNext 0 = k₁.windowNext 0 := rfl
    rw [hwin]
    by_cases hlast : k₁.windowNext 0 = k₁.frame_head_addr
    · simp only [if_pos hlast]
      rfl
    · simp only [if_neg hlast]
      rfl

/-- Which frame is handed out depends on the head of the list only. -/
theorem allocatePageFrame_fst : (allocatePageFrame k).1 =
    if k.frame_head.next = k.frame_head_addr then 0 else k.frame_head.next := by
  unfold allocatePageFrame
  dsimp only
  split
  · rfl
  · split
    · rfl
    · rfl

theorem enough_modify (u : Process → Process) : Enough n (k.modify p u) ↔ Enough n k := by
  induction n generalizing k with
  | zero => exact Iff.rfl
  | succ n ih =>
    unfold Enough
    rw [allocatePageFrame_modify]
    exact and_congr Iff.rfl ih

theorem enough_setFrc (c : Int) : Enough 1 (k.setFrc f c) ↔ Enough 1 k := by
  rw [enough_one, enough_one, allocatePageFrame_fst, allocatePageFrame_fst]
  exact Iff.rfl

/-- **As many frames can be had as the free list is long.** -/
theorem FreeList.enough_iff (h : FreeList k l) : Enough n k ↔ n ≤ l.length := by
  induction n generalizing k l with
  | zero => simp [Enough]
  | succ n ih =>
    cases l with
    | nil =>
      unfold Enough
      rw [allocatePageFrame_nil h]
      simp
    | cons f l =>
      obtain ⟨k₁, halloc, hlist, -, -⟩ := allocatePageFrame_cons h
      have hf := (h.frame f List.mem_cons_self).1
      unfold Enough
      rw [halloc, ih hlist, ne_eq, pageAtIndex_eq_zero]
      simp only [List.length_cons]
      omega

/-! ## The loop -/

/-- Each page gets a frame, until there is none: then the loop ends with `status`. -/
def mapFrames (p : PID) (status : Int) : List Int → Kernel → Except Stop (Int × Kernel)
  | [], k => .ok (SUCCESS, k)
  | i :: is, k =>
    let (frame, k) := allocatePageFrame k
    if frame = 0 then .ok (status, k)
    else do
      let k ← k.setEntry p i (createPTEWithOptions data_options (frameOf frame))
      mapFrames p status is k

/-- The indices of `n` pages from `pg1` on. -/
def pages (pg1 : Int) (n : Nat) : List Int := (List.range n).map fun i : Nat => pg1 + i

@[simp] theorem length_pages (pg1 : Int) (n : Nat) : (pages pg1 n).length = n := by simp [pages]

theorem pages_succ (pg1 : Int) (n : Nat) : pages pg1 (n + 1) = pg1 :: pages (pg1 + 1) n := by
  unfold pages
  rw [List.range_succ_eq_map, List.map_cons, List.map_map]
  refine congrArg₂ List.cons (by simp) (List.map_congr_left fun i _ => ?_)
  simp only [Function.comp_apply]
  push_cast
  omega

theorem mem_pages {pg1 i : Int} {n : Nat} : i ∈ pages pg1 n ↔ pg1 ≤ i ∧ i < pg1 + n := by
  unfold pages
  rw [List.mem_map]
  constructor
  · rintro ⟨j, hj, rfl⟩
    rw [List.mem_range] at hj
    omega
  · rintro ⟨hlo, hhi⟩
    exact ⟨(i - pg1).toNat, List.mem_range.mpr (by omega), by omega⟩

theorem nodup_pages (pg1 : Int) (n : Nat) : (pages pg1 n).Nodup := by
  refine List.Nodup.map (fun i j hij => ?_) List.nodup_range
  simpa using hij

/-- The loop of `increaseBrk`. -/
theorem increaseLoop_eq (p : PID) (n : Nat) (i : Int) (k : Kernel) :
    increaseLoop p n i k = mapFrames p ERROR (pages i n) k := by
  induction n generalizing i k with
  | zero => rfl
  | succ n ih =>
    rw [pages_succ]
    unfold increaseLoop mapFrames
    dsimp only
    split
    · rfl
    · exact congrArg _ (funext fun k => ih (i + 1) k)

/-- The pages `increaseBrk` maps for a new break. -/
def brkPages (p : PID) (address : Int) (k : Kernel) : List Int :=
  let current_brk := (k.proc p).info.current_brk
  pages (indexOfPage (long (current_brk - VMEM_1_BASE)))
    (indexOfPage (long (UP_TO_PAGE address - current_brk))).toNat

theorem increaseBrk_eq (p : PID) (a : Int) (k : Kernel) :
    increaseBrk p a k = mapFrames p ERROR (brkPages p a k) k := increaseLoop_eq p _ _ k

/-- An index of the page table. -/
def InTable (i : Int) : Prop := 0 ≤ i ∧ i < MAX_PT_LEN

instance (i : Int) : Decidable (InTable i) := by
  unfold InTable
  infer_instance

theorem InTable.toNat {i : Int} (h : InTable i) : ∃ j : Nat, i = j ∧ j < 128 := by
  obtain ⟨hlo, hhi⟩ := h
  unfold MAX_PT_LEN at hhi
  exact ⟨i.toNat, by omega, by omega⟩

theorem setEntry_inTable {i : Int} (h : InTable i) (e : PTE) :
    k.setEntry p i e = .ok (k.modify p (Kernel.putEntry i.toNat e)) := if_pos h

theorem setEntry_outside {i : Int} (h : ¬ InTable i) (e : PTE) : k.setEntry p i e = .error .fault :=
  if_neg h

/-- **Where it succeeds: there are enough frames, and all the pages are in the table.** -/
theorem mapFrames_success_iff (hs : status ≠ SUCCESS) : (∃ k', mapFrames p status is k = .ok (SUCCESS, k')) ↔
    Enough is.length k ∧ ∀ i ∈ is, InTable i := by
  induction is generalizing k with
  | nil => exact ⟨fun _ => ⟨True.intro, by simp⟩, fun _ => ⟨k, rfl⟩⟩
  | cons i is ih =>
    unfold mapFrames
    dsimp only [List.length_cons]
    unfold Enough
    split
    · rename_i hf
      constructor
      · rintro ⟨k', h⟩
        cases h
        exact absurd rfl hs
      · rintro ⟨⟨hne, -⟩, -⟩
        exact absurd hf hne
    · rename_i hf
      by_cases hi : InTable i
      · rw [setEntry_inTable hi]
        simp only [bind, Except.bind]
        rw [ih, enough_modify, List.forall_mem_cons]
        exact ⟨fun h => ⟨⟨hf, h.1⟩, hi, h.2⟩, fun h => ⟨h.1.2, h.2.2⟩⟩
      · rw [setEntry_outside hi]
        constructor
        · rintro ⟨k', h⟩
          cases h
        · rintro ⟨-, h⟩
          exact absurd (h i List.mem_cons_self) hi

/-- Pages of the table, and the loop comes to an end. -/
theorem mapFrames_total (h : ∀ i ∈ is, InTable i) : ∃ r k', mapFrames p status is k = .ok (r, k') := by
  induction is generalizing k with
  | nil => exact ⟨SUCCESS, k, rfl⟩
  | cons i is ih =>
    unfold mapFrames
    dsimp only
    split
    · exact ⟨_, _, rfl⟩
    · rw [setEntry_inTable (h i List.mem_cons_self)]
      exact ih fun j hj => h j (List.mem_cons_of_mem _ hj)

/-- Without enough frames it ends with `status`. -/
theorem mapFrames_short (hlt : ¬ Enough is.length k) (hrun : mapFrames p status is k = .ok (r, k')) :
    r = status := by
  induction is generalizing k with
  | nil => exact absurd True.intro hlt
  | cons i is ih =>
    unfold mapFrames at hrun
    dsimp only [List.length_cons] at hrun hlt
    unfold Enough at hlt
    split at hrun
    · cases hrun
      rfl
    · rename_i hf
      by_cases hi : InTable i
      · rw [setEntry_inTable hi] at hrun
        refine ih (fun h => hlt ⟨hf, ?_⟩) hrun
        rwa [enough_modify] at h
      · rw [setEntry_outside hi] at hrun
        cases hrun

/-- With enough frames it does not. -/
theorem mapFrames_enough (h : Enough is.length k) (hrun : mapFrames p status is k = .ok (r, k')) :
    r = SUCCESS := by
  induction is generalizing k with
  | nil =>
    cases hrun
    rfl
  | cons i is ih =>
    unfold mapFrames at hrun
    dsimp only [List.length_cons] at hrun h
    unfold Enough at h
    rw [if_neg h.1] at hrun
    by_cases hi : InTable i
    · rw [setEntry_inTable hi] at hrun
      exact ih ((enough_modify _).mpr h.2) hrun
    · rw [setEntry_outside hi] at hrun
      cases hrun

/-! ## What the loop leaves behind -/

/-- Whatever the free list looks like: only entries of `is` change, and those that do are valid. -/
structure Extends (p : PID) (is : List Int) (k k' : Kernel) : Prop where
  proc : ∀ q, q ≠ p → k'.proc q = k.proc q
  self : k'.proc p = { k.proc p with page_table := k'.table p }
  other : ∀ j : Nat, (j : Int) ∉ is → k'.table p j = k.table p j
  valid : ∀ j, (k.table p j).valid = true → (k'.table p j).valid = true

theorem mapFrames_extends (hs : status ≠ SUCCESS) (hrun : mapFrames p status is k = .ok (r, k')) :
    Extends p is k k' ∧ (r = SUCCESS → ∀ j : Nat, (j : Int) ∈ is → (k'.table p j).valid = true) := by
  induction is generalizing k with
  | nil =>
    cases hrun
    exact ⟨⟨fun _ _ => rfl, rfl, fun _ _ => rfl, fun _ h => h⟩, by simp⟩
  | cons i is ih =>
    unfold mapFrames at hrun
    have hproc := allocatePageFrame_proc k
    generalize halloc : allocatePageFrame k = result at hrun hproc
    obtain ⟨frame, k₁⟩ := result
    dsimp only at hrun hproc
    split at hrun
    · cases hrun
      have htable : k'.table = k.table := by
        unfold Kernel.table
        rw [hproc]
      refine ⟨⟨fun q _ => by rw [hproc], by rw [htable, hproc]; rfl, fun _ _ => by rw [htable],
        fun j hj => by rw [htable]; exact hj⟩, fun h => absurd h hs⟩
    · by_cases hi : InTable i
      · obtain ⟨m, rfl, hm⟩ := hi.toNat
        rw [setEntry_inTable hi, Int.toNat_natCast] at hrun
        simp only [bind, Except.bind] at hrun
        obtain ⟨⟨hproc', hself, hother, hvalid⟩, hall⟩ := ih hrun
        have htable : (k₁.modify p (Kernel.putEntry m (createPTEWithOptions data_options (frameOf frame)))).table p
            = Function.update (k.table p) m (createPTEWithOptions data_options (frameOf frame)) := by
          rw [Kernel.table_putEntry_self]
          unfold Kernel.table
          rw [hproc]
        have hmv : (k'.table p m).valid = true := by
          refine hvalid m ?_
          rw [htable, Function.update_self]
          exact (data_flags _).1
        refine ⟨⟨fun q hq => ?_, ?_, fun j hj => ?_, fun j hj => ?_⟩, fun hr j hj => ?_⟩
        · rw [hproc' q hq, Kernel.proc_modify, Function.update_of_ne hq, hproc]
        · rw [hself, Kernel.proc_modify_self, hproc]
          rfl
        · rw [List.mem_cons, not_or] at hj
          rw [hother j hj.2, htable, Function.update_of_ne (by omega)]
        · by_cases hjm : j = m
          · rw [hjm]
            exact hmv
          · refine hvalid j ?_
            rw [htable, Function.update_of_ne hjm]
            exact hj
        · rcases List.mem_cons.mp hj with hj | hj
          · rw [show j = m by omega]
            exact hmv
          · exact hall hr j hj
      · rw [setEntry_outside hi] at hrun
        cases hrun

/-- The pages of `is` have taken the first frames of `l`, as far as these last. -/
structure Filled (p : PID) (is : List Int) (l : List Nat) (k k' : Kernel) : Prop where
  list : FreeList k' (l.drop is.length)
  touches : Touches p k k' l
  frc : ∀ f, k'.frc_table f = if f ∈ l.take is.length then 1 else k.frc_table f
  filled : ∀ j : Nat, (j : Int) ∈ is.take l.length →
    ∃ f ∈ l, k'.table p j = createPTEWithOptions data_options f
  other : ∀ j : Nat, (j : Int) ∉ is.take l.length → k'.table p j = k.table p j
  used : is.Nodup → ∀ f ∈ l.take is.length, ∃ j : Nat, (j : Int) ∈ is ∧
    k'.table p j = createPTEWithOptions data_options f

theorem Filled.nil (h : FreeList k l) : Filled p [] l k k :=
  ⟨h, Touches.refl p k l, fun f => by simp, fun j hj => by simp at hj, fun _ _ => rfl, fun _ f hf => by simp at hf⟩

theorem Filled.none (h : FreeList k []) : Filled p is [] k k :=
  ⟨by simpa using h, Touches.refl p k [], fun f => by simp, fun j hj => by simp at hj, fun _ _ => rfl,
    fun _ f hf => by simp at hf⟩

/-- One more page before the others. -/
theorem Filled.cons {i : Nat}
    (hfrc : k₁.frc_table = Function.update k.frc_table f 1) (hquiet : Quiet k k₁ l)
    (hfill : Filled p is l (k₁.modify p (Kernel.putEntry i (createPTEWithOptions data_options f))) k') :
    Filled p ((i : Int) :: is) (f :: l) k k' := by
  have htable : (k₁.modify p (Kernel.putEntry i (createPTEWithOptions data_options f))).table p =
      Function.update (k.table p) i (createPTEWithOptions data_options f) := by
    rw [Kernel.table_putEntry_self, hquiet.table]
  refine ⟨hfill.list, ?_, fun g => ?_, fun j hj => ?_, fun j hj => ?_, fun hnd g hg => ?_⟩
  · refine ((hquiet.touches p).trans ((Touches.putEntry p i _ l).trans hfill.touches)).mono fun g hg => ?_
    exact List.mem_cons_of_mem _ hg
  · rw [hfill.frc, Kernel.frc_modify, hfrc, List.length_cons, List.take_succ_cons]
    by_cases hgf : g = f
    · subst hgf
      simp
    · rw [Function.update_of_ne hgf]
      simp [hgf]
  · rw [List.length_cons, List.take_succ_cons] at hj
    by_cases hjs : (j : Int) ∈ is.take l.length
    · obtain ⟨g, hg, hentry⟩ := hfill.filled j hjs
      exact ⟨g, List.mem_cons_of_mem _ hg, hentry⟩
    · have hji : j = i := by
        rcases List.mem_cons.mp hj with hj | hj
        · omega
        · exact absurd hj hjs
      refine ⟨f, List.mem_cons_self, ?_⟩
      rw [hfill.other j hjs, htable, hji, Function.update_self]
  · rw [List.length_cons, List.take_succ_cons, List.mem_cons, not_or] at hj
    rw [hfill.other j hj.2, htable, Function.update_of_ne (by omega)]
  · rw [List.length_cons, List.take_succ_cons] at hg
    obtain ⟨hi, hnd⟩ := List.nodup_cons.mp hnd
    rcases List.mem_cons.mp hg with rfl | hg
    · refine ⟨i, List.mem_cons_self, ?_⟩
      rw [hfill.other i fun hmem => hi (List.mem_of_mem_take hmem), htable, Function.update_self]
    · obtain ⟨j, hj, hentry⟩ := hfill.used hnd g hg
      exact ⟨j, List.mem_cons_of_mem _ hj, hentry⟩

/-- **Whatever the loop returns: the pages have got frames as far as the free list goes, and the status
says whether it went far enough.** -/
theorem mapFrames_spec (h : FreeList k l) (hrun : mapFrames p status is k = .ok (r, k')) :
    Filled p is l k k' ∧ r = if is.length ≤ l.length then SUCCESS else status := by
  induction is generalizing k l with
  | nil =>
    cases hrun
    exact ⟨.nil h, by simp⟩
  | cons i is ih =>
    unfold mapFrames at hrun
    cases l with
    | nil =>
      rw [allocatePageFrame_nil h] at hrun
      cases hrun
      exact ⟨.none h, by simp⟩
    | cons f l =>
      obtain ⟨k₁, halloc, hlist, hfrc, hquiet⟩ := allocatePageFrame_cons h
      have hf0 := (h.frame f List.mem_cons_self).1
      simp only [halloc, frameOf_pageAtIndex] at hrun
      rw [if_neg (by rw [pageAtIndex_eq_zero]; omega)] at hrun
      by_cases hi : InTable i
      · obtain ⟨j, rfl, hj⟩ := hi.toNat
        rw [setEntry_inTable hi, Int.toNat_natCast] at hrun
        simp only [bind, Except.bind] at hrun
        obtain ⟨hfill, hr⟩ := ih (k := k₁.modify p (Kernel.putEntry j
          (createPTEWithOptions data_options f))) (hlist.of_eq rfl rfl rfl) hrun
        refine ⟨.cons hfrc hquiet hfill, ?_⟩
        rw [hr]
        simp only [List.length_cons, Nat.add_le_add_iff_right]
      · rw [setEntry_outside hi] at hrun
        cases hrun

theorem mapFrames_status (hrun : mapFrames p status is k = .ok (r, k')) : r = SUCCESS ∨ r = status := by
  by_cases h : Enough is.length k
  · exact .inl (mapFrames_enough h hrun)
  · exact .inr (mapFrames_short h hrun)

/-- One turn of the loop. -/
theorem mapFrames_cons (i : Int) (is : List Int) (k : Kernel) : mapFrames p status (i :: is) k =
    if (allocatePageFrame k).1 = 0 then .ok (status, (allocatePageFrame k).2)
    else (allocatePageFrame k).2.setEntry p i
      (createPTEWithOptions data_options (frameOf (allocatePageFrame k).1)) >>= mapFrames p status is := rfl

/-- **The pages get the frames in the order of the free list.** -/
theorem mapFrames_get (h : FreeList k l) (hnd : is.Nodup) (hrun : mapFrames p status is k = .ok (r, k'))
    (hn : n < is.length) (hl : n < l.length) :
    k'.table p (is[n]).toNat = createPTEWithOptions data_options l[n] := by
  induction is generalizing k l n with
  | nil => exact absurd hn (Nat.not_lt_zero _)
  | cons i is ih =>
    cases l with
    | nil => exact absurd hl (Nat.not_lt_zero _)
    | cons f l =>
      obtain ⟨hi, hnd'⟩ := List.nodup_cons.mp hnd
      obtain ⟨k₁, halloc, hlist, -, -⟩ := allocatePageFrame_cons h
      have hf0 := (h.frame f List.mem_cons_self).1
      unfold mapFrames at hrun
      simp only [halloc, frameOf_pageAtIndex] at hrun
      rw [if_neg (by rw [pageAtIndex_eq_zero]; omega)] at hrun
      by_cases hin : InTable i
      · obtain ⟨j, rfl, hj⟩ := hin.toNat
        rw [setEntry_inTable hin, Int.toNat_natCast] at hrun
        simp only [bind, Except.bind] at hrun
        have hlist' : FreeList (k₁.modify p (Kernel.putEntry j (createPTEWithOptions data_options f))) l :=
          hlist.of_eq rfl rfl rfl
        cases n with
        | zero =>
          have hfill := (mapFrames_spec hlist' hrun).1
          rw [List.getElem_cons_zero, List.getElem_cons_zero, Int.toNat_natCast,
            hfill.other j fun hmem => hi (List.mem_of_mem_take hmem), Kernel.table_putEntry_self,
            Function.update_self]
        | succ n =>
          rw [List.getElem_cons_succ, List.getElem_cons_succ]
          exact ih hlist' hnd' hrun (Nat.lt_of_succ_lt_succ hn) (Nat.lt_of_succ_lt_succ hl)
      · rw [setEntry_outside hin] at hrun
        cases hrun

/-- Page number `n` has frame number `n`. -/
theorem mapFrames_frames (h : FreeList k l) (hnd : is.Nodup) (hs : status ≠ SUCCESS)
    (hrun : mapFrames p status is k = .ok (SUCCESS, k')) : ∀ i ∈ is, ∃ n, ∃ hl : n < l.length,
      is[n]? = some i ∧ k'.table p i.toNat = createPTEWithOptions data_options l[n] := by
  intro i hi
  obtain ⟨n, hn, rfl⟩ := List.mem_iff_getElem.mp hi
  have hlen : is.length ≤ l.length := h.enough_iff.mp ((mapFrames_success_iff hs).mp ⟨k', hrun⟩).1
  have hl : n < l.length := by omega
  exact ⟨n, hl, List.getElem?_eq_getElem hn, mapFrames_get h hnd hrun hn hl⟩

end Yalnix
