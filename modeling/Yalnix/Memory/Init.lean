import Yalnix.Memory.Frames
import Yalnix.Lib.Loop
import Mathlib.Data.List.Range
import Mathlib.Data.Int.Basic

/-!
# Physical memory at boot

`init_memory.c`, and the part of `SetKernelData`, `SetKernelBrk` and `KernelStart` that runs before
virtual memory is enabled.  Physical addresses are used as they are.

* `boot_partitions_iff` — free frames, kernel pages and the kernel stack divide memory exactly if
  the break the kernel has reached is at a page boundary.
* `boot_unaligned` — one byte past a boundary, a page of kernel data is on the free list.
-/

set_option autoImplicit false

namespace Yalnix

open Ring (Linked)

variable {k k' : Kernel} {f n : Nat} {i j : Int}

/-! ## The code -/

/-- The variables of the memory manager. -/
structure KernelMemory where
  KERNEL_DATA : Int
  KERNEL_BRK : Int
  PMEM_SIZE : Int
  kernel : Kernel

def SetKernelData (kernel_data_start kernel_data_end : Int) (m : KernelMemory) : KernelMemory :=
  { m with KERNEL_DATA := kernel_data_start, KERNEL_BRK := UP_TO_PAGE kernel_data_end }

/-- `SetKernelBrk` before virtual memory is enabled. -/
def SetKernelBrkAtBoot (m : KernelMemory) (address : Int) : KernelMemory :=
  { m with KERNEL_BRK := if address > m.KERNEL_BRK then address else m.KERNEL_BRK }

/-- `malloc` has no room for a negative size, which it takes for a huge one. -/
def initFRCTable (malloc : Bool) (m : KernelMemory) : Except Stop KernelMemory :=
  if !malloc || indexOfPage m.PMEM_SIZE < 0 then .error .halt
  else .ok { m with kernel := { m.kernel with frc_table := fun _ => 0 } }

/-- A list node at the base of a frame. -/
def Kernel.setNode (k : Kernel) (f : Nat) (prev next : Nat) : Kernel :=
  { k with pmem := Function.update k.pmem f (Word.writeWord (Word.writeWord (k.pmem f) 4 prev) 0 next) }

/-- One round of the loop of `initFrameList`. -/
def initNode (m : KernelMemory) (i : Int) (k : Kernel) : Kernel :=
  if indexOfPage KERNEL_STACK_BASE ≤ i ∧ i < indexOfPage KERNEL_STACK_LIMIT then k
  else if i = indexOfPage KERNEL_STACK_BASE - 1 then
    k.setNode i.toNat (pageAtIndex (i - 1).toNat)
      (if KERNEL_STACK_LIMIT < m.PMEM_SIZE then KERNEL_STACK_LIMIT else k.frame_head_addr)
  else if i = indexOfPage KERNEL_STACK_LIMIT then
    k.setNode i.toNat (KERNEL_STACK_BASE - PAGESIZE)
      (if i = indexOfPage m.PMEM_SIZE - 1 then k.frame_head_addr else pageAtIndex (i + 1).toNat)
  else
    k.setNode i.toNat
      (if i = indexOfPage m.KERNEL_BRK then k.frame_head_addr else pageAtIndex (i - 1).toNat)
      (if i = indexOfPage m.PMEM_SIZE - 1 then k.frame_head_addr else pageAtIndex (i + 1).toNat)

def initFrameList (m : KernelMemory) : Except Stop KernelMemory := do
  let k ← Loop.forRange (indexOfPage m.KERNEL_BRK) (indexOfPage m.PMEM_SIZE)
    (fun i k => .ok (initNode m i k)) m.kernel
  .ok { m with kernel :=
    { k with frame_head := { next := m.KERNEL_BRK.toNat, prev := (m.PMEM_SIZE - PAGESIZE).toNat } } }

/-- Map page `i` of region 0 to frame `i`. -/
def mapIdentity (options : BitVec 32) (i : Int) (k : Kernel) : Except Stop Kernel :=
  if 0 ≤ i ∧ i < MAX_PT_LEN then
    let entries := Function.update k.kernel_page_table i.toNat (createPTEWithOptions options i.toNat)
    .ok (Kernel.setFrc { k with kernel_page_table := entries } i.toNat 1)
  else .error .fault

def initKernelPageTable (m : KernelMemory) : Except Stop KernelMemory := do
  let k := { m.kernel with kernel_page_table := fun _ => PTE.clear }
  let k ← Loop.forRange 0 (indexOfPage m.KERNEL_DATA) (mapIdentity text_options) k
  let k ← Loop.forRange (indexOfPage m.KERNEL_DATA) (indexOfPage m.KERNEL_BRK)
    (mapIdentity data_options) k
  let k ← Loop.forRange (indexOfPage KERNEL_STACK_BASE) (indexOfPage KERNEL_STACK_LIMIT)
    (mapIdentity data_options) k
  .ok { m with kernel := k }

/-- The base address of the frame windows. -/
def FRAME_WINDOW_BASE : Int := (KERNEL_STACK_BASE : Int) - 3 * PAGESIZE

/-- What the machine and `malloc` give the kernel at boot.  Its variables, `frame_head` among them,
lie in its data, and its data and heap below the frame windows. -/
structure BootInput where
  kernel_data_start : Int
  kernel_data_end : Int
  brks : List Int
  pmem_size : Nat
  initial : Kernel
  start_lo : 0 ≤ kernel_data_start
  start_hi : kernel_data_start ≤ kernel_data_end
  end_hi : kernel_data_end ≤ FRAME_WINDOW_BASE
  head_addr : (initial.frame_head_addr : Int) < kernel_data_end
  brk_hi : ∀ a ∈ brks, a < FRAME_WINDOW_BASE
  pages : pmem_size % PAGESIZE = 0
  size : 0x100000 ≤ pmem_size
  unsigned : pmem_size < 2 ^ 32

/-- The memory part of `KernelStart`, after `SetKernelData` and the early calls of `SetKernelBrk`. -/
def boot (malloc : Bool) (input : BootInput) : Except Stop KernelMemory := do
  let m := SetKernelData input.kernel_data_start input.kernel_data_end ⟨0, 0, 0, input.initial⟩
  let m := input.brks.foldl SetKernelBrkAtBoot m
  let m := { m with PMEM_SIZE := long input.pmem_size }
  let m ← initFRCTable malloc m
  let m ← initFrameList m
  initKernelPageTable m

/-! ## What it is for -/

def IsStackFrame (f : Nat) : Prop := 126 ≤ f ∧ f < 128

instance : DecidablePred IsStackFrame := fun f => inferInstanceAs (Decidable (126 ≤ f ∧ f < 128))

/-- Free frames hold no byte below the break. -/
def IsFreeFrame (m : KernelMemory) (f : Nat) : Prop :=
  (f : Int) * 8192 < m.PMEM_SIZE ∧ m.KERNEL_BRK ≤ (f : Int) * 8192 ∧ ¬ IsStackFrame f

/-- `next` leads from `a` to `b`. -/
def Follows (k : Kernel) (a b : Nat) : Prop := (frameHeap k).next a = some b

/-- The free list visits the free frames, and the other pages of the kernel are mapped to
themselves. -/
structure Partitioned (m : KernelMemory) : Prop where
  list : ∃ l : List Nat, l.Nodup ∧ (∀ f, f ∈ l ↔ IsFreeFrame m f) ∧
    (m.kernel.frame_head_addr :: (l.map pageAtIndex ++ [m.kernel.frame_head_addr])).IsChain
      (Follows m.kernel)
  kernel : ∀ f : Nat, (f : Int) * 8192 < m.KERNEL_BRK ∨ IsStackFrame f →
    (m.kernel.kernel_page_table f).frame = some f ∧ m.kernel.frc_table f = 1

/-- The break is at a page boundary when virtual memory is enabled. -/
def BootInput.Aligned (input : BootInput) : Prop :=
  ∀ a ∈ input.brks, UP_TO_PAGE input.kernel_data_end < a → (∀ b ∈ input.brks, b ≤ a) → a % 8192 = 0

/-! ## The break -/

theorem foldl_SetKernelBrk (brks : List Int) (m : KernelMemory) :
    brks.foldl SetKernelBrkAtBoot m = { m with KERNEL_BRK := brks.foldl max m.KERNEL_BRK } := by
  induction brks generalizing m with
  | nil => rfl
  | cons a brks ih =>
    rw [List.foldl_cons, List.foldl_cons, ih]
    unfold SetKernelBrkAtBoot
    rw [show max m.KERNEL_BRK a = if a > m.KERNEL_BRK then a else m.KERNEL_BRK by
      rw [max_def]
      split_ifs <;> omega]

theorem foldl_max_le {b c : Int} {brks : List Int} (hb : b ≤ c) (h : ∀ a ∈ brks, a ≤ c) :
    brks.foldl max b ≤ c := by
  induction brks generalizing b with
  | nil => exact hb
  | cons a brks ih =>
    rw [List.foldl_cons]
    exact ih (max_le hb (h a (by simp))) fun x hx => h x (by simp [hx])

theorem le_foldl_max (b : Int) (brks : List Int) : b ≤ brks.foldl max b ∧
    ∀ a ∈ brks, a ≤ brks.foldl max b := by
  induction brks generalizing b with
  | nil => exact ⟨le_rfl, by simp⟩
  | cons a brks ih =>
    rw [List.foldl_cons]
    obtain ⟨h, hall⟩ := ih (max b a)
    refine ⟨(le_max_left b a).trans h, fun x hx => ?_⟩
    rcases List.mem_cons.mp hx with rfl | hx
    · exact (le_max_right b x).trans h
    · exact hall x hx

theorem foldl_max_mem (b : Int) (brks : List Int) : brks.foldl max b = b ∨ brks.foldl max b ∈ brks := by
  induction brks generalizing b with
  | nil => exact .inl rfl
  | cons a brks ih =>
    rw [List.foldl_cons]
    rcases ih (max b a) with h | h
    · rcases max_choice b a with hm | hm
      · exact .inl (h.trans hm)
      · right
        rw [h, hm]
        exact List.mem_cons_self
    · exact .inr (List.mem_cons_of_mem _ h)

/-- The break the kernel has reached. -/
def BootInput.brk (input : BootInput) : Int :=
  input.brks.foldl max (UP_TO_PAGE input.kernel_data_end)

theorem BootInput.end_range (input : BootInput) : 0 < input.kernel_data_end ∧
    input.kernel_data_end ≤ UP_TO_PAGE input.kernel_data_end ∧
    UP_TO_PAGE input.kernel_data_end ≤ 0xF6000 := by
  have hv := input.head_addr
  have hhi := input.end_hi
  unfold FRAME_WINDOW_BASE KERNEL_STACK_BASE PAGESIZE at hhi
  unfold UP_TO_PAGE DOWN_TO_PAGE
  rw [long_of_range (by omega) (by omega)]
  omega

theorem BootInput.brk_range (input : BootInput) :
    input.kernel_data_end ≤ input.brk ∧ input.brk ≤ 0xF6000 := by
  obtain ⟨-, hle, hhi⟩ := input.end_range
  refine ⟨hle.trans (le_foldl_max _ _).1, foldl_max_le hhi fun a ha => ?_⟩
  have := input.brk_hi a ha
  unfold FRAME_WINDOW_BASE KERNEL_STACK_BASE PAGESIZE at this
  omega

/-- The condition on the calls is one on the largest of them. -/
theorem BootInput.aligned_iff (input : BootInput) : input.Aligned ↔ input.brk % 8192 = 0 := by
  have hup : UP_TO_PAGE input.kernel_data_end % 8192 = 0 := DOWN_TO_PAGE_dvd _
  obtain ⟨hle, hall⟩ := le_foldl_max (UP_TO_PAGE input.kernel_data_end) input.brks
  constructor
  · intro h
    rcases foldl_max_mem (UP_TO_PAGE input.kernel_data_end) input.brks with he | hm
    · unfold BootInput.brk
      rw [he]
      exact hup
    · by_cases hlt : UP_TO_PAGE input.kernel_data_end < input.brk
      · exact h _ hm hlt hall
      · have : input.brk = UP_TO_PAGE input.kernel_data_end := le_antisymm (by omega) hle
        rw [this]
        exact hup
  · intro h a ha hlt hmax
    have : a = input.brk := le_antisymm (hall a ha) (foldl_max_le hlt.le hmax)
    rw [this]
    exact h

/-! ## The kernel page table -/

/-- The loop maps the pages from `a` to `b` to themselves, with count 1. -/
theorem mapIdentity_loop (options : BitVec 32) {a b : Int} (ha : 0 ≤ a) (hab : a ≤ b) (hb : b ≤ 128)
    (k : Kernel) : ∃ k' : Kernel, Loop.forRange a b (mapIdentity options) k = .ok k' ∧
      k'.frame_head = k.frame_head ∧ k'.frame_head_addr = k.frame_head_addr ∧ k'.pmem = k.pmem ∧
      (∀ f : Nat, k'.kernel_page_table f =
        if a ≤ f ∧ (f : Int) < b then createPTEWithOptions options f else k.kernel_page_table f) ∧
      ∀ f : Nat, k'.frc_table f = if a ≤ f ∧ (f : Int) < b then 1 else k.frc_table f := by
  refine Loop.forRange_ok (P := fun i (k' : Kernel) => k'.frame_head = k.frame_head ∧
    k'.frame_head_addr = k.frame_head_addr ∧ k'.pmem = k.pmem ∧
    (∀ f : Nat, k'.kernel_page_table f =
      if a ≤ f ∧ (f : Int) < i then createPTEWithOptions options f else k.kernel_page_table f) ∧
    ∀ f : Nat, k'.frc_table f = if a ≤ f ∧ (f : Int) < i then 1 else k.frc_table f) hab ?_ ?_
  · refine ⟨rfl, rfl, rfl, fun f => ?_, fun f => ?_⟩
    · rw [if_neg (by omega)]
    · rw [if_neg (by omega)]
  · rintro i k₁ hlo hhi ⟨hhead, haddr, hpmem, hentry, hfrc⟩
    unfold mapIdentity MAX_PT_LEN
    rw [if_pos (by omega)]
    refine ⟨_, rfl, hhead, haddr, hpmem, fun f => ?_, fun f => ?_⟩
    · by_cases hf : f = i.toNat
      · subst hf
        simp only [Kernel.setFrc, Function.update_self]
        rw [if_pos (by omega)]
      · simp only [Kernel.setFrc, Function.update_of_ne hf, hentry f]
        by_cases hin : a ≤ f ∧ (f : Int) < i
        · rw [if_pos hin, if_pos (by omega)]
        · rw [if_neg hin, if_neg (by omega)]
    · by_cases hf : f = i.toNat
      · subst hf
        simp only [Kernel.setFrc, Function.update_self]
        rw [if_pos (by omega)]
      · simp only [Kernel.setFrc, Function.update_of_ne hf, hfrc f]
        by_cases hin : a ≤ f ∧ (f : Int) < i
        · rw [if_pos hin, if_pos (by omega)]
        · rw [if_neg hin, if_neg (by omega)]

/-- Exactly the pages below that of the break, and those of the kernel stack, are mapped. -/
theorem initKernelPageTable_spec {m : KernelMemory} (hdata : 0 ≤ m.KERNEL_DATA)
    (hle : m.KERNEL_DATA ≤ m.KERNEL_BRK) (hbrk : m.KERNEL_BRK ≤ 0xF6000) :
    ∃ k', initKernelPageTable m = .ok { m with kernel := k' } ∧
      k'.frame_head = m.kernel.frame_head ∧ k'.frame_head_addr = m.kernel.frame_head_addr ∧
      k'.pmem = m.kernel.pmem ∧
      ∀ f : Nat, if (f : Int) < indexOfPage m.KERNEL_BRK ∨ IsStackFrame f then
        (k'.kernel_page_table f).frame = some f ∧ k'.frc_table f = 1
        else (k'.kernel_page_table f).frame = none := by
  unfold indexOfPage
  obtain ⟨k₁, hrun₁, hhead₁, haddr₁, hpmem₁, hentry₁, hfrc₁⟩ := mapIdentity_loop text_options
    (a := 0) (b := m.KERNEL_DATA / 8192) le_rfl (by omega) (by omega)
    { m.kernel with kernel_page_table := fun _ => PTE.clear }
  obtain ⟨k₂, hrun₂, hhead₂, haddr₂, hpmem₂, hentry₂, hfrc₂⟩ := mapIdentity_loop data_options
    (a := m.KERNEL_DATA / 8192) (b := m.KERNEL_BRK / 8192) (by omega) (by omega) (by omega) k₁
  obtain ⟨k₃, hrun₃, hhead₃, haddr₃, hpmem₃, hentry₃, hfrc₃⟩ := mapIdentity_loop data_options
    (a := 126) (b := 128) (by omega) (by omega) (by omega) k₂
  refine ⟨k₃, ?_, hhead₃.trans (hhead₂.trans hhead₁), haddr₃.trans (haddr₂.trans haddr₁),
    hpmem₃.trans (hpmem₂.trans hpmem₁), fun f => ?_⟩
  · unfold initKernelPageTable indexOfPage
    simp only [bind, Except.bind, hrun₁, hrun₂]
    rw [show ((KERNEL_STACK_BASE : Int)) / 8192 = 126 by decide,
      show ((KERNEL_STACK_LIMIT : Int)) / 8192 = 128 by decide, hrun₃]
  · have hd := frame_eq_some.mpr ⟨(data_flags f).1, pfn_create data_options f⟩
    have ht : (createPTEWithOptions text_options f).frame = some f :=
      frame_eq_some.mpr ⟨by rfl, pfn_create text_options f⟩
    rw [hentry₃, hentry₂, hentry₁, hfrc₃, hfrc₂, hfrc₁]
    unfold IsStackFrame
    by_cases hstack : 126 ≤ f ∧ f < 128
    · rw [if_pos (.inr hstack), if_pos (by omega), if_pos (by omega)]
      exact ⟨hd, rfl⟩
    · rw [if_neg (show ¬ ((126 : Int) ≤ f ∧ (f : Int) < 128) by omega),
        if_neg (show ¬ ((126 : Int) ≤ f ∧ (f : Int) < 128) by omega)]
      by_cases hdat : m.KERNEL_DATA / 8192 ≤ f ∧ (f : Int) < m.KERNEL_BRK / 8192
      · rw [if_pos (.inl hdat.2), if_pos hdat, if_pos hdat]
        exact ⟨hd, rfl⟩
      · rw [if_neg hdat, if_neg hdat]
        by_cases htext : (f : Int) < m.KERNEL_DATA / 8192
        · rw [if_pos (.inl (by omega)), if_pos (by omega), if_pos (by omega)]
          exact ⟨ht, rfl⟩
        · rw [if_neg (by omega), if_neg (by omega)]
          rfl

/-! ## The free list -/

/-- What the node of a free frame points to. -/
def nextNode (m : KernelMemory) (f : Nat) : Nat :=
  if f = 125 then
    if KERNEL_STACK_LIMIT < m.PMEM_SIZE then KERNEL_STACK_LIMIT else m.kernel.frame_head_addr
  else if (f : Int) = indexOfPage m.PMEM_SIZE - 1 then m.kernel.frame_head_addr
  else pageAtIndex (f + 1)

theorem pmem_setNode_ne {a b : Nat} {g : Nat} (h : g ≠ f) : (k.setNode f a b).pmem g = k.pmem g :=
  Function.update_of_ne h _ _

theorem readWord_setNode {a b : Nat} (hb : b < 2 ^ 32) :
    Word.readWord ((k.setNode f a b).pmem f) 0 = b := by
  unfold Kernel.setNode
  simp only [Function.update_self]
  exact Word.readWord_writeWord _ _ hb

theorem nextNode_lt {m : KernelMemory} (hp : m.PMEM_SIZE ≤ LONG_MAX)
    (haddr : m.kernel.frame_head_addr < 2 ^ 32) (hf : (f : Int) < indexOfPage m.PMEM_SIZE) :
    nextNode m f < 2 ^ 32 := by
  unfold LONG_MAX at hp
  unfold indexOfPage at hf
  unfold nextNode KERNEL_STACK_LIMIT pageAtIndex
  split_ifs <;> omega

/-- One round of the loop sets the node of frame `i`. -/
theorem initNode_eq {m : KernelMemory} (hi : 0 ≤ i) (hns : ¬ IsStackFrame i.toNat)
    (hk : k.frame_head_addr = m.kernel.frame_head_addr) :
    ∃ prev, initNode m i k = k.setNode i.toNat prev (nextNode m i.toNat) := by
  have h126 : indexOfPage (KERNEL_STACK_BASE : Nat) = 126 := by decide
  have h128 : indexOfPage (KERNEL_STACK_LIMIT : Nat) = 128 := by decide
  have hnot : ¬ (126 ≤ i ∧ i < 128) := by
    unfold IsStackFrame at hns
    omega
  unfold initNode nextNode
  rw [h126, h128, hk, if_neg hnot, Int.toNat_of_nonneg hi, show (i + 1).toNat = i.toNat + 1 by omega]
  by_cases h125 : i = 126 - 1
  · rw [if_pos h125, if_pos (show i.toNat = 125 by omega)]
    exact ⟨_, rfl⟩
  · rw [if_neg h125, if_neg (show ¬ i.toNat = 125 by omega)]
    split
    · exact ⟨_, rfl⟩
    · exact ⟨_, rfl⟩

theorem initNode_stack {m : KernelMemory} (hs : IsStackFrame i.toNat) : initNode m i k = k := by
  have h126 : indexOfPage (KERNEL_STACK_BASE : Nat) = 126 := by decide
  have h128 : indexOfPage (KERNEL_STACK_LIMIT : Nat) = 128 := by decide
  unfold initNode
  rw [h126, h128, if_pos]
  unfold IsStackFrame at hs
  omega

/-- The node of frame `i` is set, and no other frame is written to. -/
theorem initNode_spec {m : KernelMemory} (hp : m.PMEM_SIZE ≤ LONG_MAX)
    (haddr : m.kernel.frame_head_addr < 2 ^ 32) (hi : 0 ≤ i) (hi' : i < indexOfPage m.PMEM_SIZE)
    (hk : k.frame_head_addr = m.kernel.frame_head_addr) :
    (initNode m i k).frame_head_addr = k.frame_head_addr ∧
      (initNode m i k).frc_table = k.frc_table ∧
      (∀ f : Nat, (f : Int) ≠ i → (initNode m i k).pmem f = k.pmem f) ∧
      ∀ f : Nat, (f : Int) = i → ¬ IsStackFrame f →
        Word.readWord ((initNode m i k).pmem f) 0 = nextNode m f := by
  by_cases hs : IsStackFrame i.toNat
  · rw [initNode_stack hs]
    refine ⟨rfl, rfl, fun _ _ => rfl, fun f hf hns => ?_⟩
    rw [show i.toNat = f by omega] at hs
    exact absurd hs hns
  · obtain ⟨prev, heq⟩ := initNode_eq hi hs hk
    rw [heq]
    refine ⟨rfl, rfl, fun f hf => pmem_setNode_ne (by omega), fun f hf _ => ?_⟩
    rw [show i.toNat = f by omega]
    exact readWord_setNode (nextNode_lt hp haddr (by omega))

/-- After the loop the node of every frame from the break on, the stack apart, is set. -/
theorem initFrameList_spec {m : KernelMemory} (hbrk : 0 ≤ m.KERNEL_BRK) (hp : m.PMEM_SIZE ≤ LONG_MAX)
    (haddr : m.kernel.frame_head_addr < 2 ^ 32) (hle : m.KERNEL_BRK ≤ m.PMEM_SIZE) :
    ∃ k' : Kernel, initFrameList m = .ok { m with kernel := k' } ∧
      k'.frame_head_addr = m.kernel.frame_head_addr ∧ k'.frame_head.next = m.KERNEL_BRK.toNat ∧
      k'.frc_table = m.kernel.frc_table ∧
      ∀ f : Nat, indexOfPage m.KERNEL_BRK ≤ f → (f : Int) < indexOfPage m.PMEM_SIZE →
        ¬ IsStackFrame f → Word.readWord (k'.pmem f) 0 = nextNode m f := by
  have hrange : indexOfPage m.KERNEL_BRK ≤ indexOfPage m.PMEM_SIZE := by
    unfold indexOfPage
    omega
  have hlo : 0 ≤ indexOfPage m.KERNEL_BRK := by
    unfold indexOfPage
    omega
  have hloop := Loop.forRange_ok (a := indexOfPage m.KERNEL_BRK) (b := indexOfPage m.PMEM_SIZE)
    (s := m.kernel) (g := fun i k => Except.ok (ε := Stop) (initNode m i k))
    (P := fun i (k' : Kernel) => k'.frame_head_addr = m.kernel.frame_head_addr ∧
      k'.frc_table = m.kernel.frc_table ∧ ∀ f : Nat, indexOfPage m.KERNEL_BRK ≤ f → (f : Int) < i →
        ¬ IsStackFrame f → Word.readWord (k'.pmem f) 0 = nextNode m f)
    hrange ⟨rfl, rfl, fun f hlo hhi _ => by omega⟩ ?_
  · obtain ⟨k₁, hrun, haddr₁, hfrc₁, hnode₁⟩ := hloop
    refine ⟨{ k₁ with frame_head := ⟨m.KERNEL_BRK.toNat, (m.PMEM_SIZE - PAGESIZE).toNat⟩ }, ?_, haddr₁,
      rfl, hfrc₁, hnode₁⟩
    unfold initFrameList
    simp only [bind, Except.bind, hrun]
  · rintro i k hi hi' ⟨haddrk, hfrck, hnodek⟩
    obtain ⟨haddr', hfrc', hother, hself⟩ := initNode_spec (k := k) hp haddr (by omega) hi' haddrk
    refine ⟨_, rfl, haddr'.trans haddrk, hfrc'.trans hfrck, fun f hlo hhi hns => ?_⟩
    by_cases hfi : (f : Int) = i
    · exact hself f hfi hns
    · rw [hother f hfi]
      exact hnodek f hlo (by omega) hns

/-! ## Following `next` -/

/-- Frames one after the other, each pointing to the one above it, the last to `z`. -/
theorem chain_range {k : Kernel} {z : Nat} {rest : List Nat}
    (hrest : (z :: rest).IsChain (Follows k)) : ∀ (n a : Nat),
      (∀ f, a ≤ f → f + 1 < a + n → Follows k (pageAtIndex f) (pageAtIndex (f + 1))) →
      (0 < n → Follows k (pageAtIndex (a + n - 1)) z) →
      ((List.range' a n).map pageAtIndex ++ z :: rest).IsChain (Follows k)
  | 0, _, _, _ => hrest
  | n + 1, a, hsucc, hlast => by
    have ih := chain_range hrest n (a + 1) (fun f hf hf' => hsucc f (by omega) (by omega))
      fun hn => by
        have := hlast (by omega)
        rwa [show a + (n + 1) - 1 = a + 1 + n - 1 by omega] at this
    rw [List.range'_succ, List.map_cons, List.cons_append]
    cases n with
    | zero =>
      refine List.isChain_cons_cons.mpr ⟨?_, ih⟩
      exact hlast (by omega)
    | succ n =>
      rw [List.range'_succ, List.map_cons, List.cons_append] at ih ⊢
      exact List.isChain_cons_cons.mpr ⟨hsucc a (by omega) (by omega), ih⟩

/-! ## Memory after boot -/

variable {input : BootInput} {m : KernelMemory}

/-- What boot leaves behind. -/
structure Booted (input : BootInput) (m : KernelMemory) : Prop where
  brk : m.KERNEL_BRK = input.brk
  size : m.PMEM_SIZE = input.pmem_size
  fits : (input.pmem_size : Int) ≤ LONG_MAX
  addr : m.kernel.frame_head_addr = input.initial.frame_head_addr
  head : m.kernel.frame_head.next = input.brk.toNat
  node : ∀ f : Nat, indexOfPage input.brk ≤ f → (f : Int) < indexOfPage input.pmem_size →
    ¬ IsStackFrame f → Word.readWord (m.kernel.pmem f) 0 = nextNode m f
  mapped : ∀ f : Nat, if (f : Int) < indexOfPage input.brk ∨ IsStackFrame f then
    (m.kernel.kernel_page_table f).frame = some f ∧ m.kernel.frc_table f = 1
    else (m.kernel.kernel_page_table f).frame = none

/-- A size too large for a `long` is stored as a negative one. -/
theorem long_neg {n : Nat} (hlo : LONG_MAX < n) (hhi : n < 2 ^ 32) : long n = (n : Int) - 4294967296 := by
  unfold LONG_MAX at hlo
  norm_num at hhi
  exact long_eq (by omega) (by omega) (by omega)

theorem boot_eq (malloc : Bool) (input : BootInput) : boot malloc input =
    (initFRCTable malloc ⟨input.kernel_data_start, input.brk, long input.pmem_size, input.initial⟩).bind
      fun m => (initFrameList m).bind initKernelPageTable := by
  unfold boot
  dsimp only
  rw [foldl_SetKernelBrk]
  rfl

/-- Boot comes to an end, unless memory is too large for a `long`. -/
theorem boot_spec (input : BootInput) :
    if (input.pmem_size : Int) ≤ LONG_MAX then ∃ m, boot true input = .ok m ∧ Booted input m
    else boot true input = .error .halt := by
  have hsize := input.size
  have hunsigned := input.unsigned
  obtain ⟨hend, hle, -⟩ := input.end_range
  obtain ⟨hlo, hhi⟩ := input.brk_range
  have hstart := input.start_lo
  have hstart' := input.start_hi
  have haddr := input.head_addr
  rw [boot_eq]
  split
  · rename_i hfits
    have hlong : long input.pmem_size = input.pmem_size := by
      unfold LONG_MAX at hfits
      exact long_of_range (by omega) (by omega)
    rw [hlong]
    have hnonneg : ¬ indexOfPage (input.pmem_size : Int) < 0 := by
      unfold indexOfPage
      omega
    obtain ⟨k₁, hrun₁, haddr₁, hhead₁, hfrc₁, hnode₁⟩ := initFrameList_spec
      (m := ⟨input.kernel_data_start, input.brk, input.pmem_size,
        { input.initial with frc_table := fun _ => 0 }⟩)
      (by simp only; omega) hfits (by simp only; omega) (by simp only; omega)
    obtain ⟨k₂, hrun₂, hhead₂, haddr₂, hpmem₂, hmapped₂⟩ := initKernelPageTable_spec
      (m := ⟨input.kernel_data_start, input.brk, input.pmem_size, k₁⟩) hstart
      (by simp only; omega) (by simp only; omega)
    refine ⟨⟨input.kernel_data_start, input.brk, input.pmem_size, k₂⟩, ?_, rfl, rfl, hfits,
      haddr₂.trans haddr₁, by rw [hhead₂]; exact hhead₁, fun f hf hf' hns => ?_, hmapped₂⟩
    · unfold initFRCTable
      rw [if_neg (by simpa using hnonneg), Except.bind, hrun₁, Except.bind, hrun₂]
    · rw [hpmem₂]
      have := hnode₁ f hf hf' hns
      unfold nextNode at this ⊢
      rw [this]
      simp only [haddr₂, haddr₁]
  · rename_i hfits
    have hneg : indexOfPage (long input.pmem_size) < 0 := by
      rw [long_neg (by omega) hunsigned]
      unfold indexOfPage
      omega
    unfold initFRCTable
    rw [if_pos (by simpa using hneg), Except.bind]

/-- A frame below the break or of the stack is no free frame, and the others are. -/
theorem Booted.isFreeFrame (h : Booted input m) (haligned : input.brk % 8192 = 0) {f : Nat} :
    IsFreeFrame m f ↔ indexOfPage input.brk ≤ f ∧ (f : Int) < indexOfPage input.pmem_size ∧
      ¬ IsStackFrame f := by
  have hpages := input.pages
  unfold PAGESIZE at hpages
  unfold IsFreeFrame indexOfPage
  rw [h.size, h.brk]
  constructor
  · rintro ⟨hsize, hbrk, hns⟩
    exact ⟨by omega, by omega, hns⟩
  · rintro ⟨hbrk, hsize, hns⟩
    exact ⟨by omega, by omega, hns⟩

/-- The node of a free frame leads where the code set it to lead. -/
theorem Booted.follows (h : Booted input m) (haligned : input.brk % 8192 = 0) {f a : Nat}
    (hf : IsFreeFrame m f) (ha : nextNode m f = a) : Follows m.kernel (pageAtIndex f) a := by
  obtain ⟨hlo, hhi, hns⟩ := (h.isFreeFrame haligned).mp hf
  have haddr := input.head_addr
  have hbrk := input.brk_range
  have hne : pageAtIndex f ≠ m.kernel.frame_head_addr := by
    have := hf.2.1
    rw [h.addr]
    rw [h.brk] at this
    unfold pageAtIndex
    omega
  unfold Follows
  rw [frameHeap_next hne, h.node f hlo hhi hns, ha]

/-- **The break at a page boundary: memory is partitioned.** -/
theorem Booted.partitioned (h : Booted input m) (haligned : input.brk % 8192 = 0) :
    Partitioned m := by
  have hsize := input.size
  have hpages := input.pages
  unfold PAGESIZE at hpages
  have hrange := input.brk_range
  obtain ⟨hend, -, -⟩ := input.end_range
  have hfree : ∀ f, IsFreeFrame m f ↔ input.brk / 8192 ≤ f ∧ f < input.pmem_size / 8192 ∧
      ¬ (126 ≤ f ∧ f < 128) := by
    intro f
    rw [h.isFreeFrame haligned]
    unfold indexOfPage IsStackFrame
    omega
  refine ⟨?_, fun f hf => ?_⟩
  · generalize hb : (input.brk / 8192).toNat = b
    generalize hN : input.pmem_size / 8192 = N
    have hnext : ∀ f a, IsFreeFrame m f → nextNode m f = a → Follows m.kernel (pageAtIndex f) a :=
      fun f a hf ha => h.follows haligned hf ha
    have hlast : indexOfPage m.PMEM_SIZE = N := by
      unfold indexOfPage
      rw [h.size]
      omega
    -- the part above the stack
    have hsecond : ((List.range' 128 (N - 128)).map pageAtIndex ++
        [m.kernel.frame_head_addr]).IsChain (Follows m.kernel) := by
      have hhead : [m.kernel.frame_head_addr].IsChain (Follows m.kernel) := List.isChain_singleton _
      refine chain_range hhead _ _ (fun f hf hf' => ?_) fun hn => ?_
      · refine hnext f _ ((hfree f).mpr (by omega)) ?_
        unfold nextNode
        rw [if_neg (by omega), hlast, if_neg (by omega)]
      · refine hnext _ _ ((hfree _).mpr (by omega)) ?_
        unfold nextNode
        rw [if_neg (by omega), hlast, if_pos (by omega)]
    have hbelow : ∀ z rest, (z :: rest).IsChain (Follows m.kernel) → nextNode m 125 = z →
        ((List.range' b (126 - b)).map pageAtIndex ++ z :: rest).IsChain (Follows m.kernel) := by
      intro z rest hrest hz
      refine chain_range hrest _ _ (fun f hf hf' => ?_) fun hn => ?_
      · refine hnext f _ ((hfree f).mpr (by omega)) ?_
        unfold nextNode
        rw [if_neg (by omega), hlast, if_neg (by omega)]
      · rw [show b + (126 - b) - 1 = 125 by omega]
        exact hnext 125 z ((hfree 125).mpr (by omega)) hz
    have h125 : nextNode m 125 = if 128 < N then pageAtIndex 128 else m.kernel.frame_head_addr := by
      unfold nextNode KERNEL_STACK_LIMIT pageAtIndex
      rw [if_pos rfl, h.size]
      split_ifs <;> omega
    have hhead : ∀ rest, ((List.range' b (126 - b)).map pageAtIndex ++ rest).IsChain
        (Follows m.kernel) → (m.kernel.frame_head_addr ::
          ((List.range' b (126 - b)).map pageAtIndex ++ rest)).IsChain (Follows m.kernel) := by
      intro rest hrest
      rw [show 126 - b = (125 - b) + 1 by omega, List.range'_succ, List.map_cons,
        List.cons_append] at hrest ⊢
      refine List.isChain_cons_cons.mpr ⟨?_, hrest⟩
      unfold Follows
      rw [frameHeap_next_head, h.head]
      unfold pageAtIndex
      congr 1
      omega
    refine ⟨List.range' b (126 - b) ++ List.range' 128 (N - 128), ?_, fun f => ?_, ?_⟩
    · refine List.nodup_append.mpr ⟨List.nodup_range', List.nodup_range', fun x hx y hy => ?_⟩
      rw [List.mem_range'_1] at hx hy
      omega
    · rw [List.mem_append, List.mem_range'_1, List.mem_range'_1, hfree]
      omega
    · rw [List.map_append, List.append_assoc]
      apply hhead
      by_cases hN128 : 128 < N
      · rw [if_pos hN128] at h125
        rw [show N - 128 = (N - 129) + 1 by omega, List.range'_succ, List.map_cons,
          List.cons_append] at hsecond ⊢
        exact hbelow _ _ hsecond h125
      · rw [if_neg hN128] at h125
        rw [show N - 128 = 0 by omega]
        exact hbelow _ _ (by simp) h125
  · have hmapped := h.mapped f
    rw [if_pos] at hmapped
    · exact hmapped
    · rw [h.brk] at hf
      unfold indexOfPage
      exact hf.imp_left fun hlt => by omega

/-- The page the break is in is not mapped where the break is not at its beginning. -/
theorem Booted.not_partitioned (h : Booted input m) (haligned : input.brk % 8192 ≠ 0) :
    ¬ Partitioned m := by
  intro hpart
  have hrange := input.brk_range
  obtain ⟨hend, -, -⟩ := input.end_range
  have hmapped := h.mapped (input.brk / 8192).toNat
  unfold indexOfPage IsStackFrame at hmapped
  rw [if_neg (by omega)] at hmapped
  have := (hpart.kernel (input.brk / 8192).toNat (.inl (by rw [h.brk]; omega))).1
  rw [hmapped] at this
  cases this

/-- **Boot partitions physical memory exactly if the largest address given to `SetKernelBrk` is at a
page boundary or not above the kernel's data (or if memory does not fit a `long`, and the machine
halts).** -/
theorem boot_partitions_iff (input : BootInput) :
    (∀ m, boot true input = .ok m → Partitioned m) ↔
      input.Aligned ∨ LONG_MAX < (input.pmem_size : Int) := by
  have hspec := boot_spec input
  rw [input.aligned_iff]
  split at hspec
  · rename_i hfits
    obtain ⟨m, hrun, hm⟩ := hspec
    constructor
    · intro hall
      by_contra hno
      exact hm.not_partitioned (fun he => hno (.inl he)) (hall m hrun)
    · intro hcond m' hrun'
      rw [hrun, Except.ok.injEq] at hrun'
      subst hrun'
      exact hm.partitioned (hcond.resolve_right (by omega))
  · rename_i hfits
    constructor
    · intro _
      exact .inr (by omega)
    · intro _ m hrun
      rw [hspec] at hrun
      cases hrun

/-- A kernel whose data end at 0x10000, and whose heap is one byte longer than a page. -/
def unalignedInput : BootInput where
  kernel_data_start := 0x8000
  kernel_data_end := 0x10000
  brks := [0x12001]
  pmem_size := 0x200000
  initial := ⟨fun _ _ => 0, ⟨0, 0⟩, 0x9000, fun _ => 0, fun _ => PTE.clear, 0,
    fun _ => ⟨false, false, fun _ => 0, none, fun _ => PTE.clear, ⟨0, 0, fun _ => 0⟩, ⟨0, 0, 0⟩⟩⟩
  start_lo := by decide
  start_hi := by decide
  end_hi := by decide
  head_addr := by decide
  brk_hi := by decide
  pages := by decide
  size := by decide
  unsigned := by decide

/-- **With the break at 0x12001, boot ends and leaves the page that holds the last byte of the
kernel's heap unmapped.** -/
theorem boot_unaligned : ∃ m, boot true unalignedInput = .ok m ∧ m.KERNEL_BRK = 0x12001 ∧
    (m.kernel.kernel_page_table 9).frame = none ∧ ¬ Partitioned m := by
  have hspec := boot_spec unalignedInput
  rw [if_pos (by decide)] at hspec
  obtain ⟨m, hrun, hm⟩ := hspec
  have hbrk : unalignedInput.brk = 0x12001 := by decide
  have hmapped := hm.mapped 9
  rw [if_neg (by rw [hbrk]; decide)] at hmapped
  exact ⟨m, hrun, by rw [hm.brk, hbrk], hmapped, hm.not_partitioned (by rw [hbrk]; decide)⟩

end Yalnix
