import Yalnix.Memory.Supply
import Yalnix.Process.Boot
import Yalnix.Process.Pages
import Yalnix.Process.Teardown

/-!
# Memory traps

What a user program can bring about with an address and a stack pointer of its choice.

* `Resolved`, `trap_resolved_iff` — the traps after which the access that trapped goes through.
* `Careful`, `trap_careful_iff` — the traps that keep the counts exact and replace no page.
-/

set_option autoImplicit false

namespace Yalnix

open RefCount (refs)

variable {k k' : Kernel} {l l' : List Nat} {f g p i : Nat} {a : Int} {context : UserContext}

/-! ## Accesses -/

/-- The ways in which a program uses an address. -/
inductive Access where
  | read
  | write
  | exec
  deriving DecidableEq, Repr

namespace PTE

/-- What the machine checks on an instruction fetch. -/
def executable (e : PTE) : Bool := e.perm.getLsbD 2

def permits (e : PTE) : Access → Bool
  | .read => e.readable
  | .write => e.writable
  | .exec => e.executable

end PTE

/-- The machine lets `p` use the address. -/
def accessible (k : Kernel) (p : PID) (a : Int) (acc : Access) : Bool :=
  (userEntry k p a).valid && (userEntry k p a).permits acc

/-- The trap is dealt with: the access goes through when it is repeated, or the machine has halted. -/
def Resolved (p : PID) (a : Int) (acc : Access) : Except Stop Kernel → Prop
  | .ok k => accessible k p a acc = true
  | .error .halt => True
  | .error .fault => False

@[simp] theorem resolved_ok (p : PID) (a : Int) (acc : Access) (k : Kernel) :
    Resolved p a acc (.ok k) ↔ accessible k p a acc = true := Iff.rfl

@[simp] theorem resolved_halt (p : PID) (a : Int) (acc : Access) : Resolved p a acc (.error .halt) :=
  True.intro

@[simp] theorem not_resolved_fault (p : PID) (a : Int) (acc : Access) :
    ¬ Resolved p a acc (.error .fault) := id

def InRegion1 (a : Int) : Prop := VMEM_1_BASE ≤ a ∧ a < VMEM_1_LIMIT

instance (a : Int) : Decidable (InRegion1 a) := by
  unfold InRegion1
  infer_instance

theorem unprotect_executable (e : PTE) (f : Nat) : (e.unprotect f).executable = e.executable := by
  obtain ⟨v, perm, misc, g⟩ := e
  have h : ∀ (perm : BitVec 3) (misc : BitVec 4),
      (PTE.unprotect ⟨true, perm, misc, 0⟩ 0).executable = PTE.executable ⟨true, perm, misc, 0⟩ := by decide
  exact h perm misc

/-- What a page that has been copied or given back its write bit is open to. -/
theorem unprotect_permits (e : PTE) (f : Nat) (acc : Access) :
    (e.unprotect f).permits acc = (decide (acc = .write) || e.permits acc) := by
  obtain ⟨-, hw, hr, -⟩ := unprotect_flags e f
  cases acc with
  | read => exact hr
  | write => exact hw
  | exec => exact unprotect_executable e f

/-- A page of data is open to everything but execution. -/
theorem data_permits (f : Nat) (acc : Access) :
    (createPTEWithOptions data_options f).permits acc = decide (acc ≠ .exec) := by
  obtain ⟨-, hw, hr, -⟩ := data_flags f
  cases acc with
  | read => exact hr
  | write => exact hw
  | exec =>
    have h : (createPTEWithOptions data_options 0).executable = false := by decide
    exact h

theorem userEntry_of_region (h : InRegion1 a) : userEntry k p a = k.table p (userPage a) := if_pos h

/-- After a store into the entry of the page, that entry decides. -/
theorem accessible_putEntry (h : InRegion1 a) (e : PTE) (acc : Access) :
    accessible (k.modify p (Kernel.putEntry (userPage a) e)) p a acc = (e.valid && e.permits acc) := by
  unfold accessible
  rw [userEntry_of_region h, Kernel.table_putEntry_self, Function.update_self]

/-- An address outside region 1 has no entry in the page table. -/
theorem trap_index_outside (h : ¬ InRegion1 a) (hlo : -2147483648 ≤ a) (hhi : a ≤ LONG_MAX) :
    ¬ InTable (indexOfPage (long (DOWN_TO_PAGE a - VMEM_1_BASE))) := by
  unfold InRegion1 VMEM_1_BASE VMEM_1_LIMIT at h
  unfold LONG_MAX at hhi
  unfold InTable MAX_PT_LEN indexOfPage DOWN_TO_PAGE VMEM_1_BASE
  by_cases hwrap : -2147483648 ≤ a - a % 8192 - 0x100000
  · rw [long_of_range (by omega) (by omega)]
    omega
  · have hlong : long (a - a % 8192 - 0x100000) = a - a % 8192 - 0x100000 + 4294967296 :=
      long_eq (by omega) (by omega) (by omega)
    rw [hlong]
    omega

/-! ## The branches of the handler -/

/-- Outside region 1 the handler reads beyond the page table. -/
theorem handleMemoryTrap_outside (h : ¬ InTable (indexOfPage (long (DOWN_TO_PAGE a - VMEM_1_BASE)))) :
    handleMemoryTrap p a k = .error .fault := by
  unfold handleMemoryTrap
  have hentry : k.entry p (indexOfPage (long (DOWN_TO_PAGE a - VMEM_1_BASE))) = .error .fault := if_neg h
  simp only [hentry, bind, Except.bind]

/-- The copy of a shared page, when there is a frame for it. -/
theorem handleMemoryTrap_copy {frame : Nat} {k₁ : Kernel} (h : InRegion1 a)
    (hcow : (k.table p (userPage a)).cow = true)
    (hshared : k.frc_table (k.table p (userPage a)).pfn > 1)
    (halloc : allocatePageFrame (k.setFrc (k.table p (userPage a)).pfn
      (char (k.frc_table (k.table p (userPage a)).pfn - 1))) = (frame, k₁)) :
    handleMemoryTrap p a k =
      if frame = 0 then .error .halt
      else if (k₁.table p (userPage a)).valid && (k₁.table p (userPage a)).readable then
        .ok (((k₁.setWindow 0 (frameOf frame)).setWindowPage 0
          (k₁.pmem (k₁.table p (userPage a)).pfn)).modify p
            (Kernel.putEntry (userPage a) ((k.table p (userPage a)).unprotect (frameOf frame))))
      else .error .fault := by
  obtain ⟨hidx, hi⟩ := trap_index h.1 h.2
  unfold handleMemoryTrap
  simp only [hidx, Kernel.entry_ok hi, bind, Except.bind, hcow, if_true, if_pos hshared, halloc]
  split
  · rfl
  · unfold Kernel.readPage
    simp only [Kernel.entry_ok hi, bind, Except.bind, Kernel.table_setWindow, Kernel.pmem_setWindow]
    split
    · rename_i hb
      split at hb
      · cases hb
      · rename_i hno
        rw [if_neg hno]
        cases hb
        rfl
    · rename_i hb
      split at hb
      · rename_i hyes
        rw [if_pos hyes]
        cases hb
        exact Kernel.setEntry_ok hi _
      · cases hb

/-- The last reference to a page: its write bit is given back. -/
theorem handleMemoryTrap_last (h : InRegion1 a) (hcow : (k.table p (userPage a)).cow = true)
    (hlast : ¬ k.frc_table (k.table p (userPage a)).pfn > 1) :
    handleMemoryTrap p a k = .ok (k.modify p (Kernel.putEntry (userPage a)
      ((k.table p (userPage a)).unprotect (k.table p (userPage a)).pfn))) := by
  obtain ⟨hidx, hi⟩ := trap_index h.1 h.2
  unfold handleMemoryTrap
  simp only [hidx, Kernel.entry_ok hi, bind, Except.bind, hcow, if_true, if_neg hlast]
  exact Kernel.setEntry_ok hi _

/-- Growth of the stack. -/
theorem handleMemoryTrap_grow {frame : Nat} {k₁ : Kernel} (h : InRegion1 a)
    (hcow : (k.table p (userPage a)).cow = false)
    (hsp : DOWN_TO_PAGE (k.proc p).user_context.sp ≤ a) (halloc : allocatePageFrame k = (frame, k₁)) :
    handleMemoryTrap p a k =
      if frame = 0 then .error .halt
      else .ok (k₁.modify p (Kernel.putEntry (userPage a)
        (createPTEWithOptions data_options (frameOf frame)))) := by
  obtain ⟨hidx, hi⟩ := trap_index h.1 h.2
  unfold handleMemoryTrap
  simp only [hidx, Kernel.entry_ok hi, bind, Except.bind, hcow, Bool.false_eq_true, if_false, if_pos hsp,
    halloc]
  split
  · rfl
  · exact Kernel.setEntry_ok hi _

/-! ## Traps that are resolved -/

/-- The trap finds a case of the handler that is meant for it: a copy-on-write page that is open to the
access once it may be written to, or growth of the stack for a load or a store. -/
def Resolvable (p : PID) (context : UserContext) (a : Int) (acc : Access) (k : Kernel) : Prop :=
  let e := k.table p (userPage a)
  InRegion1 a ∧
    if e.cow then
      (k.frc_table e.pfn > 1 ∧ ¬ Enough 1 k) ∨
        (k.frc_table e.pfn > 1 → e.valid = true ∧ e.readable = true) ∧ (acc = .write ∨ e.permits acc = true)
    else DOWN_TO_PAGE context.sp ≤ a ∧ (¬ Enough 1 k ∨ acc ≠ .exec)

/-- The handler on a copy-on-write page. -/
theorem resolved_cow_iff {acc : Access} (h : InRegion1 a) (hcow : (k.table p (userPage a)).cow = true) :
    Resolved p a acc (handleMemoryTrap p a k) ↔
      (k.frc_table (k.table p (userPage a)).pfn > 1 ∧ ¬ Enough 1 k) ∨
        (k.frc_table (k.table p (userPage a)).pfn > 1 → (k.table p (userPage a)).valid = true ∧
          (k.table p (userPage a)).readable = true) ∧
          (acc = .write ∨ (k.table p (userPage a)).permits acc = true) := by
  by_cases hshared : k.frc_table (k.table p (userPage a)).pfn > 1
  · have hfst := enough_setFrc (k := k) (f := (k.table p (userPage a)).pfn)
      (char (k.frc_table (k.table p (userPage a)).pfn - 1))
    rw [enough_one] at hfst
    have hproc := allocatePageFrame_proc (k.setFrc (k.table p (userPage a)).pfn
      (char (k.frc_table (k.table p (userPage a)).pfn - 1)))
    generalize halloc : allocatePageFrame (k.setFrc (k.table p (userPage a)).pfn
      (char (k.frc_table (k.table p (userPage a)).pfn - 1))) = result at hfst hproc
    obtain ⟨frame, k₁⟩ := result
    have htable : k₁.table p = k.table p := by
      unfold Kernel.table
      rw [hproc]
      rfl
    rw [handleMemoryTrap_copy h hcow hshared halloc, htable, ← hfst]
    by_cases hframe : frame = 0
    · rw [if_pos hframe]
      simp [hshared, hframe]
    · rw [if_neg hframe]
      by_cases hread : ((k.table p (userPage a)).valid && (k.table p (userPage a)).readable) = true
      · rw [if_pos hread]
        rw [resolved_ok, accessible_putEntry h, (unprotect_flags _ _).1, unprotect_permits]
        simp only [Bool.and_eq_true] at hread
        simp [hshared, hframe, hread]
      · rw [if_neg hread]
        simp only [Bool.and_eq_true] at hread
        simp [hshared, hframe, hread]
  · rw [handleMemoryTrap_last h hcow hshared]
    rw [resolved_ok, accessible_putEntry h, (unprotect_flags _ _).1, unprotect_permits]
    simp [hshared]

/-- The handler on any other page. -/
theorem resolved_plain_iff {acc : Access} (h : InRegion1 a) (hcow : (k.table p (userPage a)).cow = false)
    (htrap : accessible k p a acc = false) :
    Resolved p a acc (handleMemoryTrap p a k) ↔
      DOWN_TO_PAGE (k.proc p).user_context.sp ≤ a ∧ (¬ Enough 1 k ∨ acc ≠ .exec) := by
  by_cases hsp : DOWN_TO_PAGE (k.proc p).user_context.sp ≤ a
  · rw [enough_one]
    generalize halloc : allocatePageFrame k = result
    obtain ⟨frame, k₁⟩ := result
    rw [handleMemoryTrap_grow h hcow hsp halloc]
    by_cases hframe : frame = 0
    · rw [if_pos hframe]
      simp [hsp, hframe]
    · rw [if_neg hframe]
      rw [resolved_ok, accessible_putEntry h, (data_flags _).1, data_permits]
      simp [hsp, hframe]
  · rw [handleMemoryTrap_other h.1 h.2 hcow hsp]
    rw [resolved_ok, htrap]
    simp [hsp]

/-- **A trap is resolved, or fatal, exactly if one of the two cases of the handler is meant for it.** -/
theorem trap_resolved_iff {acc : Access} (hlo : -2147483648 ≤ a) (hhi : a ≤ LONG_MAX)
    (htrap : accessible k p a acc = false) :
    Resolved p a acc (trapMemory p context a k) ↔ Resolvable p context a acc k := by
  have htable : (saveUserContext p context k).table = k.table := table_saveUserContext p context
  have hfrc : (saveUserContext p context k).frc_table = k.frc_table := rfl
  have henough : Enough 1 (saveUserContext p context k) ↔ Enough 1 k := enough_modify _
  have hsp : ((saveUserContext p context k).proc p).user_context = context := by
    unfold saveUserContext
    rw [Kernel.proc_modify_self]
  unfold trapMemory Resolvable
  dsimp only
  by_cases h : InRegion1 a
  · cases hcow : (k.table p (userPage a)).cow with
    | true =>
      rw [resolved_cow_iff h (by rw [htable]; exact hcow), htable, hfrc, henough]
      simp [h]
    | false =>
      have haccess : accessible (saveUserContext p context k) p a acc = false := by
        rw [← htrap]
        unfold accessible
        rw [userEntry_of_region h, userEntry_of_region h, htable]
      rw [resolved_plain_iff h (by rw [htable]; exact hcow) haccess, hsp, henough]
      simp [h]
  · rw [handleMemoryTrap_outside (trap_index_outside h hlo hhi)]
    simp [h]

/-- `trap_resolved_iff` for a store just below the stack: there is a frame, and the store goes through. -/
theorem trap_resolved_iff_stack :
    Resolved 1 0x1FDF00 .write (trapMemory 1 ⟨0x100000, 0x1FDF00, fun _ => 0⟩ 0x1FDF00 (machine 1)) ∧
    (trapMemory 1 ⟨0x100000, 0x1FDF00, fun _ => 0⟩ 0x1FDF00 (machine 1)).toOption.map
      (fun k => accessible k 1 0x1FDF00 .write) = some true :=
  ⟨(trap_resolved_iff (by decide) (by decide) (by decide)).mpr
    ⟨by decide, by rw [if_neg (by decide)]; exact ⟨by decide, .inr (by decide)⟩⟩, by decide +kernel⟩

/-- **A store into the text falls through every branch, and traps again for ever.** -/
theorem text_store_trap : accessible (machine 0) 1 0x100000 .write = false ∧
    ∃ k', trapMemory 1 firstContext 0x100000 (machine 0) = .ok k' ∧
      accessible k' 1 0x100000 .write = false := ⟨by decide, _, rfl, by decide⟩

/-! ## Traps that lose nothing -/

/-- The counts are still exact, and a page that is mapped and not copy-on-write is still there. -/
@[mk_iff]
structure Careful (p : PID) (a : Int) (k k' : Kernel) : Prop where
  counts : ∃ l', CountsExact k' l'
  kept : (k.table p (userPage a)).valid = true → (k.table p (userPage a)).cow = false →
    k'.table p (userPage a) = k.table p (userPage a)

/-- An operation that changes no reference keeps exact counts exact. -/
theorem CountsExact.of_mapping_eq (h : CountsExact k l) (hl : FreeList k' l)
    (hfrc : k'.frc_table = k.frc_table) (haddr : k'.frame_head_addr = k.frame_head_addr)
    (hmax : k'.max_pid = k.max_pid) (hmap : mapping k' = mapping k) : CountsExact k' l := by
  refine ⟨?_, fun f => ?_, fun f hf => ?_⟩
  · rw [hmax]
    exact h.counted.congr hl hfrc haddr fun x _ => by rw [hmap]
  · rw [hmax, hmap]
    exact h.bound f
  · obtain ⟨x, hx, hkx, hm⟩ := hf
    rw [hmax] at hx ⊢
    rw [hmap] at hm ⊢
    exact h.held f ⟨x, hx, hkx, hm⟩

/-- Nor does one that gives an entry of `p` a frame nothing else refers to. -/
theorem CountsExact.assigned (h : CountsExact k l) (hc : Counted k' (slots k.max_pid) (fun _ => 0) l')
    (hmax : k'.max_pid = k.max_pid) (hp : Running k p) (hi : i < 128)
    (hmap : mapping k' = Function.update (mapping k) (p, i) (some f))
    (hone : refs (slots k.max_pid) (mapping k') f = 1) : CountsExact k' l' := by
  have hp0 := hp.pos
  have hle : ∀ g, refs (slots k.max_pid) (mapping k') g ≤ refs (slots k.max_pid) (mapping k) g ∨ g = f := by
    intro g
    by_cases hgf : g = f
    · exact .inr hgf
    · rw [hmap]
      exact .inl (RefCount.refs_update_le (mem_slots.mpr ⟨hp.le, by simp only; omega⟩) hgf)
  refine ⟨?_, fun g => ?_, fun g hg => ?_⟩
  · rw [hmax]
    exact hc
  · rw [hmax]
    have := h.bound g
    rcases hle g with hle | rfl
    · omega
    · omega
  · obtain ⟨x, hx, hkx, hm⟩ := hg
    rw [hmax] at hx ⊢
    have hpos := RefCount.refs_pos hx hm
    have hxp : x ≠ (p, i) := by
      rintro rfl
      simp only at hkx
      omega
    rw [hmap, Function.update_of_ne hxp] at hm
    have := h.held g ⟨x, hx, hkx, hm⟩
    rcases hle g with hle | rfl
    · omega
    · omega

theorem CountsExact.saveUserContext (h : CountsExact k l) (p : PID) (context : UserContext) :
    CountsExact (saveUserContext p context k) l :=
  h.of_mapping_eq (h.counted.list.of_eq rfl rfl rfl) rfl rfl rfl (mapping_saveUserContext p context)

theorem CountsExact.slot (h : CountsExact k l) (hp : Running k p) (hi : i < 128)
    (hv : (k.table p i).valid = true) :
    mapping k (p, i) = some (k.table p i).pfn ∧ (k.table p i).pfn ∉ l := by
  have hp0 := hp.pos
  have hmap := mapping_of_valid (k := k) (p := p) (by omega) hi hv
  exact ⟨hmap, h.counted.not_free (mem_slots.mpr ⟨hp.le, by simp only; omega⟩) hmap⟩

/-- A trap on a copy-on-write page. -/
theorem cow_careful_iff (h : CountsExact k l) (hp : Running k p) (hr : InRegion1 a)
    (hcow : (k.table p (userPage a)).cow = true) :
    (∀ k', handleMemoryTrap p a k = .ok k' → Careful p a k k') ↔
      (k.table p (userPage a)).valid = true ∨ k.frc_table (k.table p (userPage a)).pfn > 1 := by
  have hp0 := hp.pos
  have hi := (trap_index hr.1 hr.2).2
  have hx : (p, userPage a) ∈ slots k.max_pid := mem_slots.mpr ⟨hp.le, by simp only; omega⟩
  have hkept : ∀ k' : Kernel, (k.table p (userPage a)).valid = true → (k.table p (userPage a)).cow = false →
      k'.table p (userPage a) = k.table p (userPage a) := by
    intro k' _ hno
    rw [hcow] at hno
    cases hno
  by_cases hshared : k.frc_table (k.table p (userPage a)).pfn > 1
  · refine iff_of_true (fun k' hrun => ⟨?_, hkept k'⟩) (.inr hshared)
    generalize halloc : allocatePageFrame (k.setFrc (k.table p (userPage a)).pfn
      (char (k.frc_table (k.table p (userPage a)).pfn - 1))) = result
    obtain ⟨frame, k₁⟩ := result
    have htable : k₁.table p = k.table p := by
      have hproc := allocatePageFrame_proc (k.setFrc (k.table p (userPage a)).pfn
        (char (k.frc_table (k.table p (userPage a)).pfn - 1)))
      rw [halloc] at hproc
      unfold Kernel.table
      rw [hproc]
      rfl
    have hbranch := handleMemoryTrap_copy hr hcow hshared halloc
    rw [hrun, htable] at hbranch
    split at hbranch
    · cases hbranch
    · split at hbranch
      · -- the page was mapped and could be read: it has been copied
        rename_i hframe hread
        simp only [Bool.and_eq_true] at hread
        obtain ⟨hv, hreadable⟩ := hread
        have hexact := h.frc (k.table p (userPage a)).pfn
        have hb := h.bound (k.table p (userPage a)).pfn
        obtain ⟨k₂, l', f, hrun', hcounted, htouch, htable', -, -, hone⟩ := handleMemoryTrap_cow h.counted
          (by omega) hr.1 hr.2 hx hv hreadable hcow (by omega) fun _ hnil => by
            subst hnil
            rw [handleMemoryTrap_halt h.counted.list hr.1 hr.2 hcow hshared] at hrun
            cases hrun
        rw [hrun, Except.ok.injEq] at hrun'
        subst hrun'
        have hupdate := htouch.mapping_update (by omega) hi htable'
        rw [unprotect_frame] at hupdate
        exact ⟨l', h.assigned hcounted htouch.max_pid hp hi hupdate hone⟩
      · cases hbranch
  · have hrun := handleMemoryTrap_last hr hcow hshared
    cases hv : (k.table p (userPage a)).valid with
    | true =>
      refine iff_of_true (fun k' hrun' => ⟨?_, hkept k'⟩) (.inl rfl)
      rw [hrun, Except.ok.injEq] at hrun'
      subst hrun'
      refine ⟨l, h.of_mapping_eq (h.counted.list.of_eq rfl rfl rfl) rfl rfl rfl ?_⟩
      refine mapping_putEntry_same (by omega) hi ?_
      rw [unprotect_frame, frame_eq_some.mpr ⟨hv, rfl⟩]
    | false =>
      refine iff_of_false (fun hall => ?_) (by simp [hshared])
      -- the frame gets a reference that is not counted
      obtain ⟨l', h'⟩ := (hall _ hrun).counts
      have hfrc := h.frc (k.table p (userPage a)).pfn
      have hfrc' := h'.frc (k.table p (userPage a)).pfn
      have hup := RefCount.refs_update (m := mapping k) (f := (k.table p (userPage a)).pfn) hx
        (some (k.table p (userPage a)).pfn)
      rw [mapping_putEntry (by omega) hi, unprotect_frame] at hfrc'
      rw [mapping_table (by omega) hi, frame_eq_none.mpr hv] at hup
      simp only [reduceCtorEq, if_false, if_true, Kernel.frc_modify, Kernel.max_pid_modify] at hup hfrc'
      omega

/-- A trap on any other page. -/
theorem plain_careful_iff (h : CountsExact k l) (hp : Running k p) (hr : InRegion1 a)
    (hcow : (k.table p (userPage a)).cow = false) :
    (∀ k', handleMemoryTrap p a k = .ok k' → Careful p a k k') ↔
      ((k.table p (userPage a)).valid = true → a < DOWN_TO_PAGE (k.proc p).user_context.sp ∨ l = []) := by
  have hp0 := hp.pos
  have hi := (trap_index hr.1 hr.2).2
  by_cases hsp : DOWN_TO_PAGE (k.proc p).user_context.sp ≤ a
  · cases l with
    | nil =>
      refine iff_of_true (fun k' hrun => ?_) fun _ => .inr rfl
      rw [handleMemoryTrap_full h.counted.list hr.1 hr.2 hcow hsp] at hrun
      cases hrun
    | cons f l =>
      obtain ⟨k₁, halloc, -, hcounted, htouch, htable⟩ := map_page h.counted (p := p) (by omega) hi
        (mem_slots.mpr ⟨hp.le, by simp only; omega⟩)
      have hrun := handleMemoryTrap_stack hr.1 hr.2 hcow hsp
        (h.counted.list.frame f List.mem_cons_self).1 halloc
      cases hv : (k.table p (userPage a)).valid with
      | true =>
        refine iff_of_false (fun hall => ?_) fun hno => (hno rfl).elim (by omega) (by simp)
        -- the page is replaced by one on a free frame
        have hkept := (hall _ hrun).kept hv hcow
        rw [htable, Function.update_self] at hkept
        refine (h.slot hp hi hv).2 ?_
        rw [← hkept]
        exact List.mem_cons_self
      | false =>
        refine iff_of_true (fun k' hrun' => ?_) nofun
        rw [hrun, Except.ok.injEq] at hrun'
        subst hrun'
        have hnone : mapping k (p, userPage a) = none := by
          rw [mapping_table (by omega) hi]
          exact frame_eq_none.mpr hv
        simp only [hnone, reduceCtorEq, if_false, Nat.add_zero] at hcounted
        have hupdate := htouch.mapping_update (by omega) hi htable
        rw [frame_eq_some.mpr ⟨(data_flags f).1, pfn_create data_options f⟩] at hupdate
        refine ⟨⟨l, h.assigned hcounted htouch.max_pid hp hi hupdate ?_⟩, fun hv' => ?_⟩
        · have hfree := h.counted.counts.free f List.mem_cons_self
          have hx : (p, userPage a) ∈ slots k.max_pid := mem_slots.mpr ⟨hp.le, by simp only; omega⟩
          have hup := RefCount.refs_update (m := mapping k) (f := f) hx (some f)
          rw [← hupdate, hnone] at hup
          simp only [reduceCtorEq, if_false, if_true] at hup
          omega
        · rw [hv] at hv'
          cases hv'
  · refine iff_of_true (fun k' hrun => ?_) fun _ => .inl (by omega)
    rw [handleMemoryTrap_other hr.1 hr.2 hcow hsp, Except.ok.injEq] at hrun
    subst hrun
    exact ⟨⟨l, h⟩, fun _ _ => rfl⟩

/-- **A trap keeps the counts exact and replaces no mapped page exactly if a page that is mapped and
not copy-on-write lies below the stack pointer (or no frame is free, and the machine halts), and one
that is copy-on-write is mapped or shared.** -/
theorem trap_careful_iff (h : CountsExact k l) (hp : Running k p) (hr : InRegion1 a) :
    (∀ k', trapMemory p context a k = .ok k' → Careful p a k k') ↔
      ((k.table p (userPage a)).valid = true → (k.table p (userPage a)).cow = false →
        a < DOWN_TO_PAGE context.sp ∨ l = []) ∧
      ((k.table p (userPage a)).cow = true → (k.table p (userPage a)).valid = true ∨
        k.frc_table (k.table p (userPage a)).pfn > 1) := by
  have htable : (saveUserContext p context k).table = k.table := table_saveUserContext p context
  have hsp : ((saveUserContext p context k).proc p).user_context = context := by
    unfold saveUserContext
    rw [Kernel.proc_modify_self]
  have hp' : Running (saveUserContext p context k) p := running_saveUserContext.mpr hp
  have h' := h.saveUserContext p context
  have hsame : ∀ k', Careful p a (saveUserContext p context k) k' ↔ Careful p a k k' := by
    intro k'
    rw [careful_iff, careful_iff, htable]
  unfold trapMemory
  simp only [← hsame]
  cases hcow : (k.table p (userPage a)).cow with
  | true =>
    rw [cow_careful_iff h' hp' hr (by rw [htable]; exact hcow), htable]
    simp
    rfl
  | false =>
    rw [plain_careful_iff h' hp' hr (by rw [htable]; exact hcow), htable, hsp]
    simp

theorem machine_countsExact {N : Nat} (hN : N ≤ 65536) : ∃ l, CountsExact (machine N) l ∧ l.length = N := by
  obtain ⟨l, h⟩ := (machine_exact hN).countsExact
  obtain ⟨l', hc, hlen, -⟩ := machine_counted hN
  refine ⟨l, h, ?_⟩
  rw [h.counted.list.unique hc.list, hlen]

/-- `trap_careful_iff` for a store just below the stack. -/
theorem trap_careful_iff_stack : ∃ k',
    trapMemory 1 ⟨0x100000, 0x1FDF00, fun _ => 0⟩ 0x1FDF00 (machine 1) = .ok k' ∧
      Careful 1 0x1FDF00 (machine 1) k' := by
  obtain ⟨l, h, -⟩ := machine_countsExact (N := 1) (by omega)
  have hcareful : ∀ k', trapMemory 1 ⟨0x100000, 0x1FDF00, fun _ => 0⟩ 0x1FDF00 (machine 1) = .ok k' →
      Careful 1 0x1FDF00 (machine 1) k' := by
    refine (trap_careful_iff h (running_machine (by omega)) (by decide)).mpr ⟨fun hv => ?_, fun hcow => ?_⟩
    · rw [table_machine (by omega)] at hv
      exact absurd hv (by decide)
    · rw [table_machine (by omega)] at hcow
      exact absurd hcow (by decide)
  exact ⟨_, rfl, hcareful _ rfl⟩

/-- **An instruction fetch from the stack replaces the page it is on: the frame keeps its count, and no
table maps it.** -/
theorem stack_fetch_trap : ∃ k', trapMemory 1 firstContext 0x1FFF00 (machine 1) = .ok k' ∧
    ((machine 1).table 1 127).frame = some 203 ∧ (machine 1).frc_table 203 = 1 ∧
    k'.frc_table 203 = 1 ∧ (∀ x ∈ slots k'.max_pid, mapping k' x ≠ some 203) ∧
    ¬ Careful 1 0x1FFF00 (machine 1) k' := by
  have hentry : ((machine 1).table 1 (userPage 0x1FFF00)).valid = true := by decide
  have hcow : ((machine 1).table 1 (userPage 0x1FFF00)).cow = false := by decide
  refine ⟨_, rfl, by decide, by decide, by decide, by decide +kernel, fun hcareful => ?_⟩
  have hkept := congrArg PTE.pfn (hcareful.kept hentry hcow)
  revert hkept
  decide

end Yalnix
