import Yalnix.Process.SoundSteps

/-!
# The break

* `setProcessBrk_cases` — the ways a call of `setProcessBrk` can end.
* `decreaseBrk_lowered` — lowering the break unmaps the pages in between.
* `increaseLoop_grown` — raising it maps them, as far as frames last.
* `Sound.setBrk` — either keeps a state sound.
-/

set_option autoImplicit false

namespace Yalnix

open RefCount (refs)

variable {k k' k₁ : Kernel} {l l' : List Nat} {f g p q n i : Nat} {a : Int} {leak : Nat → Nat}

/-! ## Addresses -/

/-- The pages of region 1 from one address up to another. -/
def pageBetween (lo hi : Int) (i : Nat) : Prop :=
  indexOfPage (lo - VMEM_1_BASE) ≤ i ∧ (i : Int) < indexOfPage (hi - VMEM_1_BASE)

instance (lo hi : Int) (i : Nat) : Decidable (pageBetween lo hi i) := by
  unfold pageBetween
  infer_instance

/-- Where `setProcessBrk` refuses a new break. -/
def brkRefused (sp heap_start address : Int) : Prop :=
  DOWN_TO_PAGE sp ≤ UP_TO_PAGE address ∨ DOWN_TO_PAGE address < heap_start

instance (sp heap_start address : Int) : Decidable (brkRefused sp heap_start address) := by
  unfold brkRefused
  infer_instance

/-! ## Storing the break -/

/-- Storing the new break in the `ProcessInfo` changes no mapping. -/
theorem mapping_setCurrentBrk (brk : Int) : mapping (k.modify p (setCurrentBrk brk)) = mapping k := by
  funext x
  unfold mapping Kernel.table
  by_cases hx : x.1 = p
  · simp [hx, setCurrentBrk]
  · simp [hx]

@[simp] theorem table_setCurrentBrk (brk : Int) :
    (k.modify p (setCurrentBrk brk)).table = k.table := by
  funext q
  unfold Kernel.table
  by_cases hq : q = p
  · simp [hq, setCurrentBrk]
  · simp [hq]

/-- How a call of `setProcessBrk` ends: refused, nothing to do, raised, or lowered. -/
theorem setProcessBrk_cases {r : Int} (h : setProcessBrk p a k = .ok (r, k')) :
    (brkRefused (k.proc p).user_context.sp (k.proc p).info.heap_start a ∧ r = ERROR ∧ k' = k) ∨
    ¬ brkRefused (k.proc p).user_context.sp (k.proc p).info.heap_start a ∧
      (UP_TO_PAGE a = (k.proc p).info.current_brk ∧ r = 0 ∧ k' = k ∨
      ((k.proc p).info.current_brk < UP_TO_PAGE a ∧ ∃ s k₁, increaseBrk p a k = .ok (s, k₁) ∧
        (s = ERROR ∧ r = ERROR ∧ k' = k₁ ∨
          s ≠ ERROR ∧ r = 0 ∧ k' = k₁.modify p (setCurrentBrk (UP_TO_PAGE a)))) ∨
      (UP_TO_PAGE a < (k.proc p).info.current_brk ∧ ∃ k₁, decreaseBrk p a k = .ok k₁ ∧ r = 0 ∧
        k' = k₁.modify p (setCurrentBrk (UP_TO_PAGE a)))) := by
  unfold setProcessBrk at h
  by_cases h₁ : UP_TO_PAGE a ≥ DOWN_TO_PAGE (k.proc p).user_context.sp
  · rw [if_pos h₁] at h
    cases h
    exact .inl ⟨.inl h₁, rfl, rfl⟩
  · by_cases h₂ : DOWN_TO_PAGE a < (k.proc p).info.heap_start
    · rw [if_neg h₁, if_pos h₂] at h
      cases h
      exact .inl ⟨.inr h₂, rfl, rfl⟩
    · refine .inr ⟨fun hr => hr.elim h₁ h₂, ?_⟩
      by_cases h₃ : UP_TO_PAGE a = (k.proc p).info.current_brk
      · rw [if_neg h₁, if_neg h₂, if_pos h₃] at h
        cases h
        exact .inl ⟨h₃, rfl, rfl⟩
      · rw [if_neg h₁, if_neg h₂, if_neg h₃] at h
        by_cases h₄ : UP_TO_PAGE a > (k.proc p).info.current_brk
        · rw [if_pos h₄] at h
          cases hinc : increaseBrk p a k with
          | error e =>
            rw [hinc] at h
            cases h
          | ok s =>
            obtain ⟨s, k₁⟩ := s
            simp only [hinc, bind, Except.bind] at h
            refine .inr (.inl ⟨h₄, s, k₁, rfl, ?_⟩)
            by_cases hs : s = ERROR
            · rw [if_pos hs] at h
              cases h
              exact .inl ⟨hs, rfl, rfl⟩
            · rw [if_neg hs] at h
              cases h
              exact .inr ⟨hs, rfl, rfl⟩
        · rw [if_neg h₄] at h
          cases hdec : decreaseBrk p a k with
          | error e =>
            rw [hdec] at h
            cases h
          | ok k₁ =>
            simp only [hdec, bind, Except.bind, show ¬ (0 : Int) = ERROR by decide, if_false] at h
            cases h
            exact .inr (.inr ⟨by omega, k₁, rfl, rfl, rfl⟩)

/-! ## Lowering -/

/-- The break of `p` has come down to `UP_TO_PAGE a`; the frames of `l'` are free. -/
structure Lowered (p : Nat) (a : Int) (k k' : Kernel) (l' : List Nat) : Prop where
  max_pid : k'.max_pid = k.max_pid
  proc : ∀ q, q ≠ p → k'.proc q = k.proc q
  self : k'.proc p = setCurrentBrk (UP_TO_PAGE a) { k.proc p with page_table := k'.table p }
  entry : ∀ q j, k'.table q j = if q = p ∧ pageBetween (UP_TO_PAGE a) (k.proc p).info.current_brk j
    then PTE.clear else k.table q j
  mapping : ∀ x : Slot, x.1 ≠ p ∨ 128 ≤ x.2 → mapping k' x = mapping k x
  pmem : ∀ f, f ∉ l' → k'.pmem f = k.pmem f
  heap : HeapOk (k'.proc p)

/-- **Lowering the break unmaps the pages between the new one and the old one.** -/
theorem decreaseBrk_lowered (hc : Counted k (slots n) leak l) (hp : 0 < p ∧ p ≤ n)
    (h127 : ∀ f, refs (slots n) (mapping k) f + leak f ≤ 127) (hheap : HeapOk (k.proc p))
    (ha : Roundable a) (hstart : (k.proc p).info.heap_start ≤ DOWN_TO_PAGE a)
    (hlt : UP_TO_PAGE a < (k.proc p).info.current_brk) (hdec : decreaseBrk p a k = .ok k₁) :
    ∃ l', Counted (k₁.modify p (setCurrentBrk (UP_TO_PAGE a))) (slots n) leak l' ∧
      Lowered p a k (k₁.modify p (setCurrentBrk (UP_TO_PAGE a))) l' ∧
      ∀ f, refs (slots n) (mapping (k₁.modify p (setCurrentBrk (UP_TO_PAGE a)))) f ≤
        refs (slots n) (mapping k) f := by
  have hlo := hheap.lo
  have hds := hheap.start
  have hle := hheap.le
  have hhi := hheap.hi
  have haligned := hheap.aligned
  have hup := UP_TO_PAGE_range ha
  unfold VMEM_1_BASE at hlo
  unfold VMEM_1_LIMIT at hhi
  unfold DOWN_TO_PAGE at hstart
  obtain ⟨i, hi⟩ : ∃ i : Nat, indexOfPage (UP_TO_PAGE a - VMEM_1_BASE) = i :=
    Int.eq_ofNat_of_zero_le (by unfold indexOfPage VMEM_1_BASE; omega)
  obtain ⟨m, hm⟩ : ∃ m : Nat, brkIndex (k.proc p).info = m :=
    Int.eq_ofNat_of_zero_le (by unfold brkIndex indexOfPage VMEM_1_BASE; omega)
  have hi' := hi
  have hm' := hm
  unfold indexOfPage VMEM_1_BASE at hi'
  unfold brkIndex indexOfPage VMEM_1_BASE at hm'
  have hdata : dataIndex (k.proc p).info ≤ i := by
    unfold dataIndex indexOfPage VMEM_1_BASE
    omega
  obtain ⟨k₂, l', hdec', -, hcounted, htouch, htable, hrefs⟩ := decreaseBrk_spec (k := k) (p := p)
    (a := a) (i := i) (b := m) hc (by omega)
    (by
      unfold VMEM_1_BASE
      rw [long_of_range (by omega) (by omega)]
      exact hi)
    (by
      rw [long_of_range (by omega) (by omega)]
      unfold indexOfPage
      omega)
    (by omega) (by omega) (fun j hj => mem_slots.mpr ⟨hp.2, by simp only; omega⟩)
    (fun j hj hj' => hheap.mapped j (by omega) (by omega)) h127
  rw [hdec, Except.ok.injEq] at hdec'
  subst hdec'
  have hbetween : ∀ j : Nat, pageBetween (UP_TO_PAGE a) (k.proc p).info.current_brk j ↔
      i ≤ j ∧ j < m := by
    intro j
    unfold pageBetween
    unfold brkIndex at hm
    rw [hi, hm]
    omega
  have hmap := mapping_setCurrentBrk (k := k₁) (p := p) (UP_TO_PAGE a)
  have hentry : ∀ q j, k₁.table q j =
      if q = p ∧ pageBetween (UP_TO_PAGE a) (k.proc p).info.current_brk j then PTE.clear
      else k.table q j := by
    intro q j
    by_cases hqp : q = p
    · subst hqp
      rw [htable]
      simp [hbetween]
    · rw [htouch.table_ne hqp, if_neg (fun hc => hqp hc.1)]
  have hself : (k₁.modify p (setCurrentBrk (UP_TO_PAGE a))).proc p =
      setCurrentBrk (UP_TO_PAGE a) { k.proc p with page_table := k₁.table p } := by
    rw [Kernel.proc_modify_self, ← htouch.self]
  refine ⟨l', ?_, ⟨htouch.max_pid, fun q hq => ?_, ?_, ?_, fun x hx => ?_, htouch.pmem, ?_⟩,
    fun f => ?_⟩
  · exact hcounted.congr (hcounted.list.of_eq rfl rfl rfl) rfl rfl fun x _ => by rw [hmap]
  · rw [Kernel.proc_modify, Function.update_of_ne hq, htouch.proc q hq]
  · rw [hself, table_setCurrentBrk]
  · rw [table_setCurrentBrk]
    exact hentry
  · rw [hmap, htouch.mapping hx]
  · rw [hself]
    refine ⟨hheap.lo, hheap.start, ?_, ?_, ?_, fun j hjlo hjhi => ?_⟩
    · simp only [setCurrentBrk]
      omega
    · simp only [setCurrentBrk]
      unfold VMEM_1_LIMIT
      omega
    · simp only [setCurrentBrk]
      omega
    · simp only [setCurrentBrk, brkIndex] at hjlo hjhi ⊢
      rw [hi] at hjhi
      rw [hentry, if_neg fun hc => by have := (hbetween j).mp hc.2; omega]
      exact hheap.mapped j hjlo (by omega)
  · rw [hmap]
    exact hrefs f

/-- The entry of a table from which the pages below the old break have gone. -/
theorem Lowered.entry_or (h : Lowered p a k k' l') (q j : Nat) :
    k'.table q j = PTE.clear ∨ k'.table q j = k.table q j := by
  rw [h.entry]
  split
  · exact .inl rfl
  · exact .inr rfl

theorem Lowered.running (h : Lowered p a k k' l') (hq : Running k' q) : Running k q := by
  refine ⟨hq.pos, h.max_pid ▸ hq.le, ?_⟩
  by_cases hqp : q = p
  · have := hq.live
    rw [hqp, h.self] at this
    rw [hqp]
    exact this
  · rw [← h.proc q hqp]
    exact hq.live

theorem Lowered.processOk (h : Lowered p a k k' l') (hk : ∀ q, Running k q → ProcessOk (k.proc q))
    (hq : Running k' q) : ProcessOk (k'.proc q) := by
  have hok := hk q (h.running hq)
  by_cases hqp : q = p
  · subst hqp
    refine ⟨hok.data.of_unmapped ?_ fun i _ => h.entry_or q i, h.heap, ?_⟩
    · rw [h.self]
      rfl
    · rw [h.self]
      exact hok.pcb
  · rw [h.proc q hqp]
    exact hok

/-- The pages of processes after the break of `p` has come down. -/
theorem Lowered.pageOf (h : Lowered p a k k' l') (hc : Counted k' (slots n) leak l')
    (hq : 0 < q ∧ q ≤ n) (hi : i < 128) : pageOf k' q i =
      if q = p ∧ pageBetween (UP_TO_PAGE a) (k.proc p).info.current_brk i then none
      else Yalnix.pageOf k q i := by
  by_cases hb : q = p ∧ pageBetween (UP_TO_PAGE a) (k.proc p).info.current_brk i
  · rw [if_pos hb]
    unfold Yalnix.pageOf
    rw [h.entry, if_pos hb]
    rfl
  · rw [if_neg hb]
    have hentry : k'.table q i = k.table q i := by
      rw [h.entry, if_neg hb]
    apply pageOf_congr
    · rw [hentry]
    · intro f hf
      exact h.pmem f (hc.entry_not_free hq hi (by rw [hentry]; exact hf))

/-! ## Raising -/

/-- Pages of `p` from index `i` on have been mapped, to frames that nothing else refers to. -/
structure Grown (p i : Nat) (k k' : Kernel) : Prop where
  sound : Sound k'
  max_pid : k'.max_pid = k.max_pid
  proc : ∀ q, q ≠ p → k'.proc q = k.proc q
  self : k'.proc p = { k.proc p with page_table := k'.table p }
  valid : ∀ j, (k.table p j).valid = true → (k'.table p j).valid = true
  entry : ∀ j < 128, k'.table p j = k.table p j ∨
    refs (slots k.max_pid) (mapping k') (k'.table p j).pfn ≤ 1
  refs : ∀ f, refs (slots k.max_pid) (mapping k') f ≤ max 1 (refs (slots k.max_pid) (mapping k) f)

theorem Grown.refl (h : Sound k) : Grown p i k k :=
  ⟨h, rfl, fun _ _ => rfl, rfl, fun _ hv => hv, fun _ _ => .inl rfl, fun _ => le_max_right _ _⟩

/-- **The loop of `increaseBrk`, step by step.** -/
theorem increaseLoop_grown {r : Int} : ∀ (m i : Nat) (k : Kernel), Sound k → Running k p →
    increaseLoop p m i k = .ok (r, k') → Grown p i k k' ∧ (r = 0 ∨ r = ERROR) ∧
      (r = 0 → ∀ j, i ≤ j → j < i + m → j < 128 ∧ (k'.table p j).valid = true)
  | 0, i, k, h, _, hrun => by
    cases hrun
    exact ⟨.refl h, .inl rfl, fun _ j hj hj' => by omega⟩
  | m + 1, i, k, h, hp, hrun => by
    obtain ⟨leak, l, hb⟩ := h.bounded
    unfold increaseLoop at hrun
    cases l with
    | nil =>
      rw [allocatePageFrame_nil hb.1.list] at hrun
      simp only [if_true] at hrun
      cases hrun
      exact ⟨.refl h, .inr rfl, fun h0 => by cases h0⟩
    | cons f l =>
      by_cases hi : i < 128
      · obtain ⟨k₁, leak', halloc, hf0, hb', htouch, htable, hone⟩ := hb.map_page hp hi
        simp only [halloc, frameOf_pageAtIndex, bind, Except.bind] at hrun
        rw [if_neg (by rw [pageAtIndex_eq_zero]; omega), Kernel.setEntry_ok hi] at hrun
        obtain ⟨hv, hw, hr, -⟩ := data_flags f
        have hframe : (createPTEWithOptions data_options f).frame = some f :=
          frame_eq_some.mpr ⟨hv, rfl⟩
        have hp0 := hp.pos
        have hself : (k₁.modify p (Kernel.putEntry i (createPTEWithOptions data_options f))).table p i =
            createPTEWithOptions data_options f := by
          rw [htable, Function.update_self]
        have hsound : Sound (k₁.modify p (Kernel.putEntry i (createPTEWithOptions data_options f))) := by
          refine h.putEntry hp hi htouch htable ⟨leak', l, hb'⟩ hv hr hw fun j hj hjf => ?_
          have := RefCount.eq_of_refs_le_one hone.le (x := (p, j)) (y := (p, i))
            (mem_slots.mpr ⟨hp.le, by simp only; omega⟩)
            (by rw [mapping_table (by omega) hj, hjf]; exact hframe)
            (mem_slots.mpr ⟨hp.le, by simp only; omega⟩)
            (by rw [mapping_table (by omega) hi, hself]; exact hframe)
          exact (Prod.mk.inj this).2
        have hrunning : Running
            (k₁.modify p (Kernel.putEntry i (createPTEWithOptions data_options f))) p :=
          ⟨hp.pos, htouch.max_pid.symm ▸ hp.le, by rw [htouch.self]; exact hp.live⟩
        obtain ⟨hg, hr', hdone⟩ := increaseLoop_grown m (i + 1) _ hsound hrunning (by exact_mod_cast hrun)
        have hupdate := htouch.mapping_update (by omega) hi htable
        rw [hframe] at hupdate
        have hentry := hg.entry
        have hrefs := hg.refs
        rw [htouch.max_pid] at hentry hrefs
        refine ⟨⟨hg.sound, hg.max_pid.trans htouch.max_pid,
          fun q hq => (hg.proc q hq).trans (htouch.proc q hq), by rw [hg.self, htouch.self],
          fun j hjv => hg.valid j ?_, fun j hj => ?_, fun g => ?_⟩, hr', fun h0 j hj hj' => ?_⟩
        · rw [htable]
          by_cases hji : j = i
          · rw [hji, Function.update_self]
            exact hv
          · rw [Function.update_of_ne hji]
            exact hjv
        · rcases hentry j hj with hsame | hown
          · by_cases hji : j = i
            · right
              have := hrefs f
              rw [hsame, hji, hself]
              exact this.trans (by rw [hone]; exact le_rfl)
            · left
              rw [hsame, htable, Function.update_of_ne hji]
          · exact .inr hown
        · have hg' := hrefs g
          by_cases hgf : g = f
          · subst hgf
            omega
          · have := RefCount.refs_update_le (m := mapping k) (D := slots k.max_pid) (x := (p, i))
              (mem_slots.mpr ⟨hp.le, by simp only; omega⟩) hgf
            rw [← hupdate] at this
            omega
        · by_cases hji : j = i
          · refine ⟨by omega, hg.valid j ?_⟩
            rw [hji, hself]
            exact hv
          · exact hdone h0 j (by omega) (by omega)
      · -- past the end of the page table
        obtain ⟨k₁, halloc, -, -⟩ := allocatePageFrame_cons hb.1.list
        have hf0 := (hb.1.list.frame f List.mem_cons_self).1
        simp only [halloc, bind, Except.bind] at hrun
        rw [if_neg (by rw [pageAtIndex_eq_zero]; omega)] at hrun
        unfold Kernel.setEntry at hrun
        rw [if_neg (by unfold MAX_PT_LEN; omega)] at hrun
        cases hrun

/-- Storing a break below which all pages are mapped. -/
theorem Sound.setCurrentBrk {brk : Int} (h : Sound k) (hp : Running k p)
    (hheap : HeapOk (Yalnix.setCurrentBrk brk (k.proc p))) :
    Sound (k.modify p (Yalnix.setCurrentBrk brk)) := by
  obtain ⟨leak, l, hc, hb⟩ := h.bounded
  have hmap := mapping_setCurrentBrk (k := k) (p := p) brk
  have htable := table_setCurrentBrk (k := k) (p := p) brk
  refine ⟨⟨leak, l, ?_, ?_⟩, ?_, ?_, fun q hq => ?_⟩
  · exact hc.congr (hc.list.of_eq rfl rfl rfl) rfl rfl fun x _ => by rw [hmap]
  · rw [hmap]
    exact hb
  · unfold TablesOk
    rw [htable]
    exact h.tables
  · unfold DistinctFrames
    rw [htable]
    exact h.distinct
  · by_cases hqp : q = p
    · subst hqp
      have hok := h.process q hp
      rw [Kernel.proc_modify_self]
      exact ⟨hok.data, hheap, hok.pcb⟩
    · have hproc : (k.modify p (Yalnix.setCurrentBrk brk)).proc q = k.proc q := by
        rw [Kernel.proc_modify, Function.update_of_ne hqp]
      rw [hproc]
      exact h.process q ⟨hq.pos, hq.le, by rw [← hproc]; exact hq.live⟩

/-- Raising the break: the pages are mapped as far as frames last, and the new break is stored if
there was one for each. -/
theorem increaseBrk_grown {s : Int} (h : Sound k) (hp : Running k p) (ha : Roundable a)
    (hlt : (k.proc p).info.current_brk < UP_TO_PAGE a) (hinc : increaseBrk p a k = .ok (s, k₁)) :
    (∃ i, Grown p i k k₁) ∧ (s = 0 ∨ s = ERROR) ∧
      (s = 0 → Sound (k₁.modify p (setCurrentBrk (UP_TO_PAGE a)))) := by
  have hheap := (h.process p hp).heap
  have hlo := hheap.lo
  have hds := hheap.start
  have hle := hheap.le
  have hhi := hheap.hi
  have haligned := hheap.aligned
  have hup := UP_TO_PAGE_range ha
  obtain ⟨halo, hahi⟩ := ha
  unfold LONG_MAX at hahi
  unfold VMEM_1_BASE at hlo
  unfold VMEM_1_LIMIT at hhi
  obtain ⟨i, hi⟩ : ∃ i : Nat, brkIndex (k.proc p).info = i :=
    Int.eq_ofNat_of_zero_le (by unfold brkIndex indexOfPage VMEM_1_BASE; omega)
  obtain ⟨m, hm⟩ : ∃ m : Nat, indexOfPage (UP_TO_PAGE a - (k.proc p).info.current_brk) = m :=
    Int.eq_ofNat_of_zero_le (by unfold indexOfPage; omega)
  have hi' := hi
  have hm' := hm
  unfold brkIndex indexOfPage VMEM_1_BASE at hi'
  unfold indexOfPage at hm'
  unfold increaseBrk at hinc
  have hbase : long ((k.proc p).info.current_brk - VMEM_1_BASE) =
      (k.proc p).info.current_brk - VMEM_1_BASE := by
    unfold VMEM_1_BASE
    exact long_of_range (by omega) (by omega)
  unfold brkIndex at hi
  simp only [hbase, hi, long_of_range (x := UP_TO_PAGE a - (k.proc p).info.current_brk) (by omega)
    (by omega), hm, Int.toNat_natCast] at hinc
  obtain ⟨hg, hs, hdone⟩ := increaseLoop_grown m i k h hp hinc
  refine ⟨⟨i, hg⟩, hs, fun h0 => ?_⟩
  have hrunning : Running k₁ p := ⟨hp.pos, hg.max_pid.symm ▸ hp.le, by rw [hg.self]; exact hp.live⟩
  have hlast := hdone h0 (i + m - 1) (by omega) (by omega)
  refine hg.sound.setCurrentBrk hrunning ?_
  rw [hg.self]
  refine ⟨hheap.lo, hheap.start, ?_, ?_, ?_, fun j hjlo hjhi => ?_⟩
  · simp only [setCurrentBrk]
    omega
  · simp only [setCurrentBrk]
    unfold VMEM_1_LIMIT
    omega
  · simp only [setCurrentBrk]
    omega
  · simp only [setCurrentBrk, brkIndex, indexOfPage, VMEM_1_BASE] at hjlo hjhi ⊢
    by_cases hji : j < i
    · refine hg.valid j (hheap.mapped j hjlo ?_)
      unfold brkIndex indexOfPage VMEM_1_BASE
      omega
    · exact (hdone h0 j (by omega) (by omega)).2

/-- **Moving the break keeps a state sound, and concerns no other process.** -/
theorem Sound.setBrk {r : Int} (h : Sound k) (hp : Running k p) (ha : Roundable a)
    (hrun : setProcessBrk p a k = .ok (r, k')) :
    Sound k' ∧ k'.max_pid = k.max_pid ∧ (∀ q, q ≠ p → k'.proc q = k.proc q) ∧
      (k'.proc p).live = (k.proc p).live ∧ (k'.proc p).thread_leader = (k.proc p).thread_leader := by
  obtain ⟨leak, l, hc, h127⟩ := h.bounded
  rcases setProcessBrk_cases hrun with ⟨-, -, rfl⟩ | ⟨href, ⟨-, -, rfl⟩ |
    ⟨hlt, s, k₁, hinc, hend⟩ | ⟨hlt, k₁, hdec, -, rfl⟩⟩
  · exact ⟨h, rfl, fun _ _ => rfl, rfl, rfl⟩
  · exact ⟨h, rfl, fun _ _ => rfl, rfl, rfl⟩
  · obtain ⟨⟨i, hg⟩, hs, hsound⟩ := increaseBrk_grown h hp ha hlt hinc
    rcases hend with ⟨-, -, rfl⟩ | ⟨hne, -, rfl⟩
    · exact ⟨hg.sound, hg.max_pid, hg.proc, by rw [hg.self], by rw [hg.self]⟩
    · have h0 : s = 0 := hs.resolve_right hne
      refine ⟨hsound h0, hg.max_pid, fun q hq => ?_, ?_, ?_⟩
      · rw [Kernel.proc_modify, Function.update_of_ne hq, hg.proc q hq]
      · rw [Kernel.proc_modify_self, hg.self]
        rfl
      · rw [Kernel.proc_modify_self, hg.self]
        rfl
  · have hstart : (k.proc p).info.heap_start ≤ DOWN_TO_PAGE a := by
      have := (not_or.mp href).2
      omega
    obtain ⟨l', hc', hlow, hrefs⟩ := decreaseBrk_lowered hc ⟨hp.pos, hp.le⟩ h127
      (h.process p hp).heap ha hstart hlt hdec
    refine ⟨?_, hlow.max_pid, hlow.proc, ?_, ?_⟩
    · refine h.of_unmapped hlow.max_pid ⟨leak, l', ?_⟩ (fun q _ _ j _ => hlow.entry_or q j)
        fun q hq => hlow.processOk h.process hq
      unfold Bounded
      rw [hlow.max_pid]
      refine ⟨hc', fun f => ?_⟩
      have := hrefs f
      have := h127 f
      omega
    · rw [hlow.self]
      rfl
    · rw [hlow.self]
      rfl

end Yalnix
