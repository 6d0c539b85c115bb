import Yalnix.Whole.Loadable

/-!
# The image that a load leaves

* `Separate` — the ranges of the file fit into region 1 and do not meet.
* `ImageExact` — the pages of text, data and stack, each on a frame of its own, and nothing else.
* `image_exact_iff` — a load that succeeds leaves it, unless the text fills the gap below the stack.
-/

set_option autoImplicit false

namespace Yalnix.Whole

variable {p : PID} {prog : Program} {li : LoadInfo} {args : List (List UInt8)} {k k' : Kernel}
  {l : List Nat}

/-! ## The states of a load -/

/-- What a load that succeeds has done to the descriptor, the entries and the counts, seen from the state
after the loops. -/
structure Finished (p : PID) (li : LoadInfo) (k₃ k' : Kernel) : Prop where
  frc : k'.frc_table = k₃.frc_table
  max_pid : k'.max_pid = k₃.max_pid
  info : (k'.proc p).info = ⟨li.data_start, li.heap_start, li.heap_start⟩
  table : ∀ j : Nat, k'.table p j =
    if (j : Int) ∈ li.textPages then textEntry (k₃.table p j) else k₃.table p j
  others : SameSlots p k₃ k'

theorem Image.finished (h : Image p prog li k k') (hc : CountsExact k l) (hp : Running k p)
    (hnd : (loadPages li prog.args).Nodup) : ∃ k₃, Mapped p (loadPages li prog.args) k k₃ ∧
      Finished p li k₃ k' := by
  have hin := h.inTable
  obtain ⟨s₄, s₅, k₃, k₄, k₅, h₃, ⟨h₄, -⟩, ⟨h₅, -⟩, h₆⟩ := h.states
  obtain ⟨l₀, hvacated⟩ := cleared_vacated li prog.args hc hp
  have hmapped := hvacated.mapped hp.pos.ne' hnd (by decide) h₃
  have hmemory := (readSegment_memoryOnly h₄).trans (readSegment_memoryOnly h₅)
  have hfinish := finishLoad_memoryOnly (inTable_text hin) h₆
  refine ⟨k₃, hmapped, ?_, ?_, ?_, fun j => ?_, ?_⟩
  · exact hfinish.frc.trans hmemory.frc
  · exact hfinish.max_pid.trans hmemory.max_pid
  · obtain ⟨table, hproc⟩ := h.proc
    rw [hproc]
  · have hpc : ((k₅.modify p (protectPages li.text_pg1 li.t_npg.toNat)).modify p (setPc li.entry.toNat)).table p =
        (k₅.modify p (protectPages li.text_pg1 li.t_npg.toNat)).table p := by
      unfold Kernel.table
      rw [Kernel.proc_modify_self]
      rfl
    rw [hfinish.table, hpc, table_protectPages, hmemory.table]
    exact if_congr mem_pages.symm rfl rfl
  · have hprotect : SameSlots p k₅ (k₅.modify p (protectPages li.text_pg1 li.t_npg.toNat)) := .modify rfl rfl
    have hpc : SameSlots p (k₅.modify p (protectPages li.text_pg1 li.t_npg.toNat))
        ((k₅.modify p (protectPages li.text_pg1 li.t_npg.toNat)).modify p (setPc li.entry.toNat)) :=
      .modify rfl rfl
    exact hmemory.sameSlots.trans ((hprotect.trans hpc).trans hfinish.sameSlots)

/-! ## The image -/

/-- The page after the data. -/
def dataEnd (li : LoadInfo) : Int := li.data_pg1 + (li.id_npg.toNat + li.ud_npg.toNat : Nat)

/-- The data fits into region 1, and the text meets neither the data nor the stack. -/
structure Separate (li : LoadInfo) (args : List (List UInt8)) : Prop where
  data : ∀ i ∈ pages li.data_pg1 (li.id_npg.toNat + li.ud_npg.toNat), InTable i
  text_data : ∀ i ∈ li.textPages, i ∉ pages li.data_pg1 (li.id_npg.toNat + li.ud_npg.toNat)
  text_stack : ∀ i ∈ li.textPages, i ∉ stackPages args

/-- The image that was asked for, after a load in state `k`. -/
structure ImageExact (p : PID) (li : LoadInfo) (args : List (List UInt8)) (k k' : Kernel) : Prop where
  valid : ∀ j : Nat, (k'.table p j).valid = true ↔ (j : Int) ∈ loadPages li args
  text : ∀ j : Nat, (j : Int) ∈ li.textPages → (k'.table p j).readable = true ∧
    (k'.table p j).executable = true ∧ (k'.table p j).writable = false
  data : ∀ j : Nat, (j : Int) ∈ li.dataPages ++ stackPages args → (k'.table p j).readable = true ∧
    (k'.table p j).writable = true ∧ (k'.table p j).cow = false
  /-- The frame of a page has count 1, and no other entry or stack has it. -/
  own : ∀ j : Nat, (k'.table p j).valid = true → k'.frc_table (k'.table p j).pfn = 1 ∧
    ∀ x ∈ slots k'.max_pid, mapping k' x = some (k'.table p j).pfn → x = (p, j)
  /-- Any other frame has lost one count for each entry that mapped it. -/
  released : ∀ f, (∀ j, (k'.table p j).frame ≠ some f) →
    k'.frc_table f = k.frc_table f - sharesBelow k p 128 f
  heap : (k'.proc p).info.heap_start = VMEM_1_BASE + 8192 * dataEnd li ∧
    (k'.proc p).info.current_brk = VMEM_1_BASE + 8192 * dataEnd li
  gap : ∃ j : Nat, dataEnd li ≤ j ∧ j < stack_pg1 args ∧ (k'.table p j).valid = false

/-- The text takes up all pages between the data and the stack. -/
def FillsGap (li : LoadInfo) (args : List (List UInt8)) : Prop :=
  li.text_pg1 ≤ dataEnd li ∧ stack_pg1 args ≤ li.text_pg1 + li.t_npg.toNat

instance (li : LoadInfo) (args : List (List UInt8)) : Decidable (FillsGap li args) :=
  inferInstanceAs (Decidable (_ ∧ _))

/-- Data in region 1 has not wrapped. -/
theorem Separate.data_npg (h : Separate li args) : li.data_npg = (li.id_npg.toNat + li.ud_npg.toNat : Nat) := by
  have hd := pages_inTable.mp h.data
  unfold LoadInfo.data_npg
  exact long_of_range (by omega) (by omega)

theorem Separate.dataPages (h : Separate li args) :
    li.dataPages = pages li.data_pg1 (li.id_npg.toNat + li.ud_npg.toNat) := by
  unfold LoadInfo.dataPages
  rw [h.data_npg, Int.toNat_natCast]

/-- Past the check there is a page between data and stack. -/
theorem Separate.room (h : Separate li prog.args) (hpass : Passes p prog li k) (hfits : Fits prog.args) :
    0 ≤ dataEnd li ∧ dataEnd li < stack_pg1 prog.args := by
  have hroom := hpass.room
  have hd := pages_inTable.mp h.data
  have hD := data_pg1_nonneg li
  have hle := stack_npg_le prog.args
  have hlt : li.data_pg1 < 524288 := by
    unfold LoadInfo.data_pg1 indexOfPage
    omega
  have hs : 0 ≤ stack_npg prog.args := by
    rw [hfits.stack_npg]
    omega
  have hpg1 : stack_pg1 prog.args = 128 - stack_npg prog.args := rfl
  rw [h.data_npg] at hroom
  unfold MAX_PT_LEN at hroom
  unfold dataEnd
  rw [long_of_range (by omega) (by omega)] at hroom
  omega

theorem Separate.nodup (h : Separate li prog.args) (hpass : Passes p prog li k) (hfits : Fits prog.args) :
    (loadPages li prog.args).Nodup := by
  have hroom := h.room hpass hfits
  unfold loadPages
  refine List.Nodup.append (List.Nodup.append (nodup_pages _ _) (nodup_pages _ _) ?_) (nodup_pages _ _) ?_
  · intro i hi hi'
    rw [h.dataPages] at hi'
    exact h.text_data i hi hi'
  · intro i hi hi'
    rcases List.mem_append.mp hi with hi | hi
    · exact h.text_stack i hi hi'
    · rw [h.dataPages, mem_pages] at hi
      unfold stackPages at hi'
      rw [mem_pages] at hi'
      unfold dataEnd at hroom
      omega

theorem data_entry_flags (f : Nat) : (createPTEWithOptions data_options f).valid = true ∧
    (createPTEWithOptions data_options f).readable = true ∧
    (createPTEWithOptions data_options f).writable = true ∧
    (createPTEWithOptions data_options f).cow = false :=
  ⟨(data_flags f).1, (data_flags f).2.2.1, (data_flags f).2.1, (data_flags f).2.2.2⟩

theorem mem_loadPages {i : Int} : i ∈ loadPages li args ↔
    i ∈ li.textPages ∨ i ∈ li.dataPages ∨ i ∈ stackPages args := by
  unfold loadPages
  rw [List.mem_append, List.mem_append, or_assoc]

/-- Only the text can be in the gap. -/
theorem Separate.gap_iff (h : Separate li args) (hroom : 0 ≤ dataEnd li ∧ dataEnd li < stack_pg1 args) :
    (∃ j : Nat, dataEnd li ≤ j ∧ j < stack_pg1 args ∧ (j : Int) ∉ loadPages li args) ↔ ¬ FillsGap li args := by
  have hnot : ∀ j : Nat, dataEnd li ≤ j → j < stack_pg1 args →
      ((j : Int) ∉ loadPages li args ↔ ¬ (li.text_pg1 ≤ j ∧ j < li.text_pg1 + li.t_npg.toNat)) := by
    intro j hlo hhi
    have hdata : (j : Int) ∉ li.dataPages := by
      rw [h.dataPages, mem_pages]
      unfold dataEnd at hlo
      omega
    have hstack : (j : Int) ∉ stackPages args := by
      unfold stackPages
      rw [mem_pages]
      omega
    rw [mem_loadPages, or_iff_left (not_or.mpr ⟨hdata, hstack⟩)]
    exact not_congr mem_pages
  unfold FillsGap
  constructor
  · rintro ⟨j, hlo, hhi, hj⟩
    rw [hnot j hlo hhi] at hj
    omega
  · intro hfill
    by_cases hstart : li.text_pg1 ≤ dataEnd li
    · -- the text ends in the gap, or before it
      refine ⟨(max (dataEnd li) (li.text_pg1 + li.t_npg.toNat)).toNat, by omega, by omega, ?_⟩
      rw [hnot _ (by omega) (by omega)]
      omega
    · refine ⟨(dataEnd li).toNat, by omega, by omega, ?_⟩
      rw [hnot _ (by omega) (by omega)]
      omega

section Final

variable {k₃ : Kernel} (hm : Mapped p (loadPages li args) k k₃) (hf : Finished p li k₃ k')
include hm hf

theorem final_valid (j : Nat) : (k'.table p j).valid = true ↔ (j : Int) ∈ loadPages li args := by
  rw [hf.table]
  by_cases hj : (j : Int) ∈ loadPages li args
  · refine iff_of_true ?_ hj
    split
    · exact (textEntry_flags _).1
    · obtain ⟨f, hentry, -⟩ := hm.table j hj
      rw [hentry]
      exact (data_flags f).1
  · refine iff_of_false ?_ hj
    rw [if_neg fun ht => hj (mem_loadPages.mpr (.inl ht)), hm.empty j hj]
    exact nofun

theorem final_frame (j : Nat) : (k'.table p j).frame = (k₃.table p j).frame := by
  rw [hf.table]
  split
  · rename_i ht
    obtain ⟨f, hentry, -⟩ := hm.table j (mem_loadPages.mpr (.inl ht))
    have hv := (data_flags f).1
    rw [← hentry] at hv
    rw [frame_eq_some.mpr ⟨(textEntry_flags _).1, rfl⟩, frame_eq_some.mpr ⟨hv, rfl⟩]
    rfl
  · rfl

theorem final_mapping (hp : p ≠ 0) (x : Slot) : mapping k' x = mapping k₃ x := by
  by_cases hx : x.1 ≠ p ∨ 128 ≤ x.2
  · exact hf.others x hx
  · obtain ⟨q, j⟩ := x
    rw [not_or, not_not, not_le] at hx
    obtain ⟨rfl, hj⟩ := hx
    rw [mapping_table hp hj, mapping_table hp hj, final_frame hm hf]

theorem final_own (hp : p ≠ 0) (j : Nat) (hv : (k'.table p j).valid = true) :
    k'.frc_table (k'.table p j).pfn = 1 ∧
      ∀ x ∈ slots k'.max_pid, mapping k' x = some (k'.table p j).pfn → x = (p, j) := by
  have hj := (final_valid hm hf j).mp hv
  obtain ⟨f, hentry, hone⟩ := hm.table j hj
  have hframe := final_frame hm hf j
  rw [frame_eq_some.mpr ⟨hv, rfl⟩, hentry, frame_eq_some.mpr ⟨(data_flags f).1, rfl⟩, Option.some.injEq,
    pfn_create] at hframe
  refine ⟨by rw [hf.frc, hframe]; exact hone, fun x hx hmx => ?_⟩
  rw [final_mapping hm hf hp, hframe] at hmx
  refine hm.own j hj x ?_ (by rw [hentry]; exact hmx)
  rw [hf.max_pid, hm.max_pid] at hx
  exact hx

theorem final_released (f : Nat) (hnot : ∀ j, (k'.table p j).frame ≠ some f) :
    k'.frc_table f = k.frc_table f - sharesBelow k p 128 f := by
  rw [hf.frc]
  refine hm.frc f fun j hj heq => hnot j ?_
  rw [final_frame hm hf]
  obtain ⟨g, hentry, -⟩ := hm.table j hj
  rw [hentry] at heq ⊢
  exact frame_eq_some.mpr ⟨(data_flags g).1, heq⟩

end Final

theorem Image.exact_iff (himage : Image p prog li k k') (h : CountsExact k l) (hp : Running k p)
    (hsep : Separate li prog.args) : ImageExact p li prog.args k k' ↔ ¬ FillsGap li prog.args := by
  have hfits := fits_of_saved himage.malloc himage.saved
  have hroom := hsep.room himage.passes hfits
  have hnd := hsep.nodup himage.passes hfits
  obtain ⟨k₃, hm, hf⟩ := himage.finished h hp hnd
  have hgap : (∃ j : Nat, dataEnd li ≤ j ∧ j < stack_pg1 prog.args ∧ (k'.table p j).valid = false) ↔
      ¬ FillsGap li prog.args := by
    rw [← hsep.gap_iff hroom]
    refine exists_congr fun j => and_congr_right fun _ => and_congr_right fun _ => ?_
    rw [← final_valid hm hf, Bool.not_eq_true]
  rw [← hgap]
  refine ⟨fun he => he.gap, fun hg => ?_⟩
  refine ⟨final_valid hm hf, fun j hj => ?_, fun j hj => ?_, final_own hm hf hp.pos.ne', final_released hm hf,
    ?_, hg⟩
  · rw [hf.table, if_pos hj]
    exact ⟨(textEntry_flags _).2.1, (textEntry_flags _).2.2.1, (textEntry_flags _).2.2.2.1⟩
  · have hnot : (j : Int) ∉ li.textPages := by
      intro ht
      rcases List.mem_append.mp hj with hj | hj
      · rw [hsep.dataPages] at hj
        exact hsep.text_data j ht hj
      · exact hsep.text_stack j ht hj
    obtain ⟨f, hentry, -⟩ := hm.table j (mem_loadPages.mpr (.inr (List.mem_append.mp hj)))
    rw [hf.table, if_neg hnot, hentry]
    exact (data_entry_flags f).2
  · have hstart : li.heap_start = VMEM_1_BASE + 8192 * dataEnd li := by
      have hstack : stack_pg1 prog.args ≤ 128 := by
        have hs : stack_pg1 prog.args = 128 - stack_npg prog.args := rfl
        rw [hs, hfits.stack_npg]
        omega
      have hend : dataEnd li = li.data_pg1 + li.data_npg := by
        rw [hsep.data_npg]
        rfl
      unfold LoadInfo.heap_start VMEM_1_BASE
      rw [← hend, long_of_range (by omega) (by omega)]
      ring
    rw [hf.info]
    exact ⟨hstart, hstart⟩

/-- **A load that succeeds leaves exactly the image that was asked for, unless the text fills the gap
between the data and the stack.** -/
theorem image_exact_iff (h : CountsExact k l) (hp : Running k p) (hinfo : prog.info = some li)
    (hsep : Separate li prog.args) (hrun : loadProgram p prog k = .ok (SUCCESS, k')) :
    ImageExact p li prog.args k k' ↔ ¬ FillsGap li prog.args := by
  obtain ⟨li', himage⟩ := loadProgram_success.mp hrun
  obtain rfl : li' = li := Option.some.inj (himage.passes.info.symm.trans hinfo)
  exact himage.exact_iff h hp hsep

/-- Data in page 124, text in the two pages above it; the stack is in page 127. -/
def tightText : LoadInfo where
  entry := 0x1FA000
  t_vaddr := 0x1FA000
  t_npg := 2
  id_vaddr := 0x1F8000
  id_npg := 1
  id_end := 0x1FA000
  ud_npg := 0
  ud_end := 0x1FA000
  t_aligned := rfl
  id_aligned := rfl

/-- **Text between data and stack leaves no page unmapped.** -/
theorem tightText_leaves_no_gap : ¬ ∀ (p : PID) (prog : Program) (li : LoadInfo) (k k' : Kernel) (l : List Nat),
    CountsExact k l → Running k p → prog.info = some li → Separate li prog.args →
    (loadPages li prog.args).Nodup → (∀ i ∈ loadPages li prog.args, InTable i) →
    loadProgram p prog k = .ok (SUCCESS, k') → ImageExact p li prog.args k k' := by
  intro hall
  obtain ⟨l, hcounts, -⟩ := machine_countsExact (N := 4) (by omega)
  have hrunning := running_machine (N := 4) (by omega)
  have hsep : Separate tightText (fromFile tightText).args := ⟨by decide, by decide, by decide⟩
  have hloads : ∃ k', loadProgram 1 (fromFile tightText) (machine 4) = .ok (SUCCESS, k') :=
    file_loads (by omega) ⟨rfl, rfl, rfl, by decide, by decide⟩ rfl ⟨rfl, rfl⟩ (by decide) (by decide)
      (by decide) (by decide) (by decide) (by decide) (by decide)
  obtain ⟨k', hrun⟩ := hloads
  obtain ⟨li', himage⟩ := loadProgram_success.mp hrun
  have hli : li' = tightText := Option.some.inj (himage.passes.info.symm.trans rfl)
  subst hli
  have hexact := hall 1 (fromFile tightText) tightText (machine 4) k' l hcounts hrunning rfl hsep (by decide)
    (by decide) hrun
  exact (himage.exact_iff hcounts hrunning hsep).mp hexact (by decide)

/-- The image of `smallFile`. -/
theorem smallFile_exact : ∃ k', loadProgram 1 (fromFile smallFile) (machine 3) = .ok (SUCCESS, k') ∧
    ImageExact 1 smallFile [] (machine 3) k' := by
  obtain ⟨l, hcounts, -⟩ := machine_countsExact (N := 3) (by omega)
  obtain ⟨k', hrun⟩ := smallFile_loads
  refine ⟨k', hrun, ?_⟩
  exact (image_exact_iff hcounts (running_machine (by omega)) rfl ⟨by decide, by decide, by decide⟩ hrun).mpr
    (by decide)

end Yalnix.Whole
