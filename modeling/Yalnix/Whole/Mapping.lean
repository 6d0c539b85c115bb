import Yalnix.Process.Faults
import Yalnix.Whole.Layout

/-!
# The frames of a new image

* `SameSlots` — what a step of the loader leaves of the references of others.
* `Vacated` — the state before the first page is mapped: the frames of the old image are free.
* `Mapped` — the state after the last: each page has a frame of its own; `Vacated.mapped`.
* `Image.inTable`, `Image.proc` — a load that succeeds has stayed in the table; the descriptor after it.
-/

set_option autoImplicit false

namespace Yalnix.Whole

open RefCount (refs)

variable {p q : PID} {prog : Program} {li : LoadInfo} {args : List (List UInt8)} {k k' k₀ k₁ k₂ : Kernel}
  {l : List Nat} {f : Nat}

/-! ## References of others -/

/-- The references have not changed but for the page table of `p`. -/
def SameSlots (p : PID) (k k' : Kernel) : Prop :=
  ∀ x : Slot, x.1 ≠ p ∨ 128 ≤ x.2 → mapping k' x = mapping k x

theorem SameSlots.trans (h : SameSlots p k k₁) (h' : SameSlots p k₁ k') : SameSlots p k k' :=
  fun x hx => (h' x hx).trans (h x hx)

theorem MemoryOnly.mapping (h : MemoryOnly k k') : mapping k' = mapping k := by
  rw [h]
  rfl

theorem MemoryOnly.sameSlots (h : MemoryOnly k k') : SameSlots p k k' := fun x _ => by rw [h.mapping]

/-- A change to a descriptor that leaves the frames of the kernel stack alone. -/
theorem SameSlots.modify {u : Process → Process} (hpcb : (u (k.proc p)).pcb = (k.proc p).pcb)
    (hframes : (u (k.proc p)).pcb_frames = (k.proc p).pcb_frames) : SameSlots p k (k.modify p u) := by
  intro x hx
  by_cases hxp : x.1 = p
  · have h128 : ¬ x.2 < 128 := by
      rcases hx with hx | hx
      · exact absurd hxp hx
      · omega
    unfold mapping
    rw [if_neg h128, if_neg h128, hxp, Kernel.proc_modify_self, hpcb, hframes]
    rfl
  · exact (Only.modify p u []).mapping hxp

/-! ## Before the loops -/

/-- All that `p` had mapped has been given back. -/
structure Vacated (p : PID) (k k₀ : Kernel) (l : List Nat) : Prop where
  list : FreeList k₀ l
  table : ∀ j, k₀.table p j = PTE.clear
  max_pid : k₀.max_pid = k.max_pid
  frc : ∀ f, k₀.frc_table f = k.frc_table f - sharesBelow k p 128 f
  unused : ∀ f ∈ l, ∀ x ∈ slots k.max_pid, mapping k₀ x ≠ some f
  others : SameSlots p k k₀

/-- **Freeing an address space with exact counts releases each of its entries once.** -/
theorem freed_vacated (h : CountsExact k l) (hp : Running k p) : ∃ l₀, Vacated p k (freed p k) l₀ := by
  have hp0 := hp.pos
  obtain ⟨k₁, l₀, hrun, -, hcounted, htouches, htable, -⟩ := freeAddressSpace_spec h.counted
    (by omega) (fun j hj => mem_slots.mpr ⟨hp.le, by simp only; omega⟩) h.bound
  obtain ⟨l₁, -, hcounts, -⟩ := h.freeTable hp
  rw [freeAddressSpace_eq] at hrun
  cases hrun
  refine ⟨l₀, hcounted.list, htable, htouches.max_pid, fun f => ?_, fun f hf x hx => hcounted.unmapped hf hx,
    fun x hx => htouches.mapping hx⟩
  have hbound := h.bound f
  have hle := hp.mapped_le f
  have hexact := hcounts.exact (f := f) (by unfold refsWithout; omega)
  change (freeAll (mappedFrames k p 128) k).frc_table f = _
  rw [hexact, h.frc, ← count_mappedFrames]
  unfold refsWithout
  omega

theorem setSp_eq (sp : Int) : k.modify p (setSp sp) =
    saveUserContext p { (k.proc p).user_context with sp := sp } k := rfl

theorem sameSlots_setSp (sp : Int) : SameSlots p k (k.modify p (setSp sp)) := .modify rfl rfl

theorem mapping_setInfo (li : LoadInfo) : mapping (k.modify p (setInfo li)) = mapping k := by
  funext x
  by_cases hx : x.1 ≠ p ∨ 128 ≤ x.2
  · exact SameSlots.modify rfl rfl x hx
  · obtain ⟨q, j⟩ := x
    rw [not_or, not_not] at hx
    obtain ⟨rfl, -⟩ := hx
    unfold mapping Kernel.table
    rw [Kernel.proc_modify_self]
    rfl

/-- The state in which the loops begin. -/
theorem cleared_vacated (li : LoadInfo) (args : List (List UInt8)) (h : CountsExact k l) (hp : Running k p) :
    ∃ l₀, Vacated p k (cleared p li args k) l₀ := by
  have hsaved := h.saveUserContext p { (k.proc p).user_context with sp := cp2 args }
  rw [← setSp_eq] at hsaved
  have hrunning : Running (k.modify p (setSp (cp2 args))) p := running_saveUserContext.mpr hp
  obtain ⟨l₀, hlist, htable, hmax, hfrc, hunused, hothers⟩ := freed_vacated hsaved hrunning
  have hshares : sharesBelow (k.modify p (setSp (cp2 args))) p 128 = sharesBelow k p 128 := by
    rw [setSp_eq]
    unfold sharesBelow
    rw [table_saveUserContext]
  unfold cleared
  generalize freed p (k.modify p (setSp (cp2 args))) = k₁ at *
  refine ⟨l₀, hlist.of_eq rfl rfl rfl, fun j => ?_, hmax, fun f => ?_, fun f hf x hx => ?_, ?_⟩
  · have hj := htable j
    unfold Kernel.table at hj ⊢
    rw [Kernel.proc_modify_self]
    exact hj
  · have hf := hfrc f
    rw [hshares] at hf
    exact hf
  · rw [mapping_setInfo]
    exact hunused f hf x hx
  · have hinfo : SameSlots p k₁ (k₁.modify p (setInfo li)) := .modify rfl rfl
    exact ((sameSlots_setSp (cp2 args)).trans hothers).trans hinfo

/-! ## After the loops -/

/-- Each page of `is` has a frame of its own, and no other page is mapped. -/
structure Mapped (p : PID) (is : List Int) (k k' : Kernel) : Prop where
  max_pid : k'.max_pid = k.max_pid
  others : SameSlots p k k'
  table : ∀ j : Nat, (j : Int) ∈ is →
    ∃ f, k'.table p j = createPTEWithOptions data_options f ∧ k'.frc_table f = 1
  empty : ∀ j : Nat, (j : Int) ∉ is → k'.table p j = PTE.clear
  /-- Whoever refers to the frame of a page of `is` is that page. -/
  own : ∀ j : Nat, (j : Int) ∈ is → ∀ x ∈ slots k.max_pid,
    mapping k' x = some (k'.table p j).pfn → x = (p, j)
  frc : ∀ f, (∀ j : Nat, (j : Int) ∈ is → (k'.table p j).pfn ≠ f) →
    k'.frc_table f = k.frc_table f - sharesBelow k p 128 f

/-- **The loops give each page a frame that nothing refers to.** -/
theorem Vacated.mapped {is : List Int} {status : Int} (h : Vacated p k k₀ l) (hp : p ≠ 0) (hnd : is.Nodup)
    (hs : status ≠ SUCCESS) (hrun : mapFrames p status is k₀ = .ok (SUCCESS, k')) :
    Mapped p is k k' := by
  obtain ⟨hfill, hr⟩ := mapFrames_spec h.list hrun
  have hlen : is.length ≤ l.length := by
    by_contra hlt
    rw [if_neg hlt] at hr
    exact hs hr.symm
  have htake : is.take l.length = is := List.take_of_length_le hlen
  have hget : ∀ j : Nat, (j : Int) ∈ is → ∃ n, ∃ hl : n < l.length, is[n]? = some (j : Int) ∧
      k'.table p j = createPTEWithOptions data_options l[n] :=
    fun j hj => mapFrames_frames h.list hnd hs hrun j hj
  have hfree : ∀ f ∈ l, ∀ x ∈ slots k.max_pid, x.1 ≠ p ∨ 128 ≤ x.2 → mapping k' x ≠ some f := by
    intro f hf x hx hxp
    rw [hfill.touches.mapping hxp]
    exact h.unused f hf x hx
  have hempty : ∀ j : Nat, (j : Int) ∉ is → k'.table p j = PTE.clear := by
    intro j hj
    rw [hfill.other j (by rw [htake]; exact hj)]
    exact h.table j
  refine ⟨hfill.touches.max_pid.trans h.max_pid, ?_, fun j hj => ?_, hempty, ?_, fun f hf => ?_⟩
  · exact h.others.trans fun x hx => hfill.touches.mapping hx
  · obtain ⟨n, hl, hjn, hentry⟩ := hget j hj
    have hn := (List.getElem?_eq_some_iff.mp hjn).1
    refine ⟨_, hentry, ?_⟩
    rw [hfill.frc, if_pos]
    exact List.mem_take_iff_getElem.mpr ⟨n, by omega, rfl⟩
  · rintro j hj ⟨q, i⟩ hx hm
    obtain ⟨n, hl, hjn, hentry⟩ := hget j hj
    rw [hentry, pfn_create] at hm
    by_cases hxp : q ≠ p ∨ 128 ≤ i
    · exact absurd hm (hfree _ (List.getElem_mem _) _ hx hxp)
    · rw [not_or, not_not] at hxp
      obtain ⟨rfl, hi⟩ := hxp
      rw [mapping_table hp (by omega)] at hm
      by_cases hi' : (i : Int) ∈ is
      · obtain ⟨m, hl', him, hentry'⟩ := hget i hi'
        rw [hentry'] at hm
        have hframe := (frame_eq_some.mp hm).2
        rw [pfn_create] at hframe
        have hmn := (h.list.nodup.getElem_inj_iff).mp hframe
        subst hmn
        have hij : (j : Int) = i := Option.some.inj (hjn.symm.trans him)
        rw [Int.ofNat_inj.mp hij]
      · rw [hempty i hi'] at hm
        cases hm
  · rw [hfill.frc, if_neg, h.frc]
    intro hmem
    obtain ⟨j, hj, hentry⟩ := hfill.used hnd f hmem
    exact hf j hj (by rw [hentry, pfn_create])

/-! ## A load that succeeds -/

/-- With the arguments saved, the size has not wrapped and the block is small. -/
theorem fits_of_saved (hmalloc : prog.malloc = true) (hsaved : argSize prog.args ≤ size prog.args) :
    Fits prog.args := by
  have hheap := prog.heap hmalloc
  have hrange := (size_range prog.args).2
  have hlength := length_le_argSize prog.args
  unfold VMEM_REGION_SIZE at hheap
  unfold Fits blockSize
  rw [Nat.mod_eq_of_lt (by omega)] at hheap
  omega

/-- The text has stayed in the table if all pages have. -/
theorem inTable_text (h : ∀ i ∈ loadPages li args, InTable i) : ∀ i ∈ li.textPages, InTable i :=
  fun i hi => h i (List.mem_append_left _ (List.mem_append_left _ hi))

/-- The loops have stayed in the table. -/
theorem Image.inTable (h : Image p prog li k k') : ∀ i ∈ loadPages li prog.args, InTable i := by
  obtain ⟨s₄, s₅, k₃, k₄, k₅, hrun, -⟩ := h.states
  exact ((mapFrames_success_iff (by decide)).mp ⟨k₃, hrun⟩).2

/-- The descriptor before the first page is mapped. -/
theorem cleared_proc : (cleared p li args k).proc p = { k.proc p with
    page_table := fun _ => PTE.clear
    info := ⟨li.data_start, li.heap_start, li.heap_start⟩
    user_context := { (k.proc p).user_context with sp := cp2 args } } := by
  have hP : ∀ (P : Process) (sp : Int), setInfo li (clearPageTable (setSp sp P)) = { P with
      page_table := fun _ => PTE.clear
      info := ⟨li.data_start, li.heap_start, li.heap_start⟩
      user_context := { P.user_context with sp := sp } } := fun P sp => rfl
  unfold cleared freed
  rw [Kernel.proc_modify_self, Kernel.proc_modify_self, freeAll_proc, Kernel.proc_modify_self, hP]

theorem setPc_protectPages (P : Process) (table : Nat → PTE) (pg1 n pc : Int) : ∃ table',
    setPc pc (protectPages pg1 n { P with page_table := table }) =
      { P with page_table := table', user_context := { P.user_context with pc := pc } } := ⟨_, rfl⟩

/-- One change after the other. -/
theorem with_pc {P Q R : Process} {info : ProcessInfo} {sp pc : Int} {table table' : Nat → PTE}
    (hQ : Q = { P with
      page_table := table
      info := info
      user_context := { P.user_context with sp := sp } })
    (hR : R = { Q with page_table := table', user_context := { Q.user_context with pc := pc } }) :
    R = { P with
      page_table := table'
      info := info
      user_context := { P.user_context with sp := sp, pc := pc } } := by
  rw [hR, hQ]

/-- **The descriptor after a load that succeeds.** -/
theorem Image.proc (h : Image p prog li k k') : ∃ table, k'.proc p = { k.proc p with
    page_table := table
    info := ⟨li.data_start, li.heap_start, li.heap_start⟩
    user_context := { (k.proc p).user_context with sp := cp2 prog.args, pc := li.entry.toNat } } := by
  have hin := h.inTable
  obtain ⟨s₄, s₅, k₃, k₄, k₅, h₃, ⟨h₄, -⟩, ⟨h₅, -⟩, h₆⟩ := h.states
  have hmemory := (readSegment_memoryOnly h₄).trans (readSegment_memoryOnly h₅)
  have hfinish := finishLoad_memoryOnly (inTable_text hin) h₆
  have hself := (mapFrames_extends (by decide) h₃).1.self
  obtain ⟨table, hlast⟩ := setPc_protectPages ((cleared p li prog.args k).proc p) (k₃.table p) li.text_pg1
    li.t_npg.toNat li.entry.toNat
  have hproc : k'.proc p = setPc li.entry.toNat (protectPages li.text_pg1 li.t_npg.toNat (k₃.proc p)) := by
    rw [hfinish.proc, Kernel.proc_modify_self, Kernel.proc_modify_self, hmemory.proc]
  rw [← hself, ← hproc] at hlast
  exact ⟨table, with_pc cleared_proc hlast⟩

end Yalnix.Whole
