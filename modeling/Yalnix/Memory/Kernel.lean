import Yalnix.Memory.PageTable
import Yalnix.Lib.Ring

/-!
# The memory state of the kernel

What `memory.c`, `brk.c`, `fork.c`, `process.c` and `load.c` read and write: physical memory,
the list of free frames, the reference counts, the kernel's page table, and for every process
its region-1 page table, the frames of its kernel stack, and the fields of its descriptor and
`ProcessInfo` these files use.

The frame windows are three entries of the kernel's page table: what is read or written through
`frame_window(i)` is the frame entry `123 + i` maps.
-/

set_option autoImplicit false

namespace Yalnix

abbrev PID := Nat

/-- The registers a trap saves into the descriptor and restores from it. -/
structure UserContext where
  pc : Int
  sp : Int
  regs : Nat → Int

structure ProcessInfo where
  data_start : Int
  heap_start : Int
  current_brk : Int
  deriving DecidableEq, Repr

/-- The fields of a process descriptor that the memory code uses. -/
structure Process where
  /-- The descriptor is in use and its page table has not been freed. -/
  live : Bool
  /-- The frames of `pcb_frames` have not been given back. -/
  pcb : Bool
  /-- Physical addresses of the frames of the kernel stack. -/
  pcb_frames : Nat → Nat
  thread_leader : Option PID
  page_table : Nat → PTE
  user_context : UserContext
  info : ProcessInfo

structure Kernel where
  /-- Physical memory, by frame. -/
  pmem : Nat → Word.Page
  frame_head : Ring.Link Nat
  /-- The address of the variable `frame_head`. -/
  frame_head_addr : Nat
  /-- A signed 8-bit counter for every frame. -/
  frc_table : Nat → Int
  kernel_page_table : Nat → PTE
  max_pid : Nat
  proc : PID → Process

/-- The value of a `char` after `x` is stored in it. -/
def char (x : Int) : Int := Word.wrap 8 x

theorem char_of_range {x : Int} (hlo : -128 ≤ x) (hhi : x ≤ 127) : char x = x :=
  Word.wrap_of_range (by omega) (by omega)

theorem char_range (x : Int) : -128 ≤ char x ∧ char x ≤ 127 := by
  have hle := Int.le_bmod (x := x) (m := 2 ^ 8) (by decide)
  have hlt := Int.bmod_lt (x := x) (m := 2 ^ 8) (by decide)
  unfold char Word.wrap
  omega

/-- The counter comes round to 1 only after 256 increments. -/
theorem eq_one_of_char {x : Nat} (hx : x ≤ 255) (h : char x = 1) : x = 1 := by
  unfold char Word.wrap Int.bmod at h
  norm_num at h
  split at h <;> omega

theorem char_char_add (x y : Int) : char (char x + y) = char (x + y) := Word.wrap_wrap_add 8 x y

namespace Kernel

/-- `frc_table[f] = c`. -/
def setFrc (k : Kernel) (f : Nat) (c : Int) : Kernel :=
  { k with frc_table := Function.update k.frc_table f c }

/-- Remapping a frame window: `frame_window_pte(i) = createPTEWithOptions(options, f)`. -/
def setWindow (k : Kernel) (i f : Nat) : Kernel :=
  { k with kernel_page_table :=
      Function.update k.kernel_page_table (123 + i) (createPTEWithOptions data_options f) }

/-- The frame behind `frame_window(i)`. -/
def windowFrame (k : Kernel) (i : Nat) : Nat := (k.kernel_page_table (123 + i)).pfn

/-- What `frame_window(i)` shows. -/
def window (k : Kernel) (i : Nat) : Word.Page := k.pmem (k.windowFrame i)

/-- Filling `frame_window(i)`. -/
def setWindowPage (k : Kernel) (i : Nat) (pg : Word.Page) : Kernel :=
  { k with pmem := Function.update k.pmem (k.windowFrame i) pg }

/-- `((LinkedListNode *) frame_window(i))->next`. -/
def windowNext (k : Kernel) (i : Nat) : Nat := Word.readWord (k.window i) 0

/-- `((LinkedListNode *) frame_window(i))->next = a`. -/
def setWindowNext (k : Kernel) (i a : Nat) : Kernel :=
  k.setWindowPage i (Word.writeWord (k.window i) 0 a)

/-- `((LinkedListNode *) frame_window(i))->prev = a`. -/
def setWindowPrev (k : Kernel) (i a : Nat) : Kernel :=
  k.setWindowPage i (Word.writeWord (k.window i) 4 a)

/-- `frame_head.next = a`. -/
def setHeadNext (k : Kernel) (a : Nat) : Kernel :=
  { k with frame_head := { k.frame_head with next := a } }

/-- `frame_head.prev = a`. -/
def setHeadPrev (k : Kernel) (a : Nat) : Kernel :=
  { k with frame_head := { k.frame_head with prev := a } }

/-- Storing into the descriptor of `p`. -/
def modify (k : Kernel) (p : PID) (g : Process → Process) : Kernel :=
  { k with proc := Function.update k.proc p (g (k.proc p)) }

/-- The region-1 page table of `p`. -/
def table (k : Kernel) (p : PID) : Nat → PTE := (k.proc p).page_table

/-- The entry at an index of the page table of `p`; there is none outside the table. -/
def entry (k : Kernel) (p : PID) (i : Int) : Except Stop PTE :=
  if 0 ≤ i ∧ i < MAX_PT_LEN then .ok (k.table p i.toNat) else .error .fault

/-- The process record with one entry of its page table replaced. -/
def putEntry (i : Nat) (e : PTE) (P : Process) : Process :=
  { P with page_table := Function.update P.page_table i e }

/-- `p->page_table->entries[i] = e`. -/
def setEntry (k : Kernel) (p : PID) (i : Int) (e : PTE) : Except Stop Kernel :=
  if 0 ≤ i ∧ i < MAX_PT_LEN then .ok (k.modify p (putEntry i.toNat e)) else .error .fault

/-- The page at an index of region 1, as the kernel reads it through the page table of the
running process `p`. -/
def readPage (k : Kernel) (p : PID) (i : Int) : Except Stop Word.Page := do
  let e ← k.entry p i
  if e.valid && e.readable then .ok (k.pmem e.pfn) else .error .fault

variable (k : Kernel) (p q : PID) (i j f g : Nat)

@[simp] theorem frc_setFrc (c : Int) : (k.setFrc f c).frc_table = Function.update k.frc_table f c := rfl
@[simp] theorem pmem_setFrc (c : Int) : (k.setFrc f c).pmem = k.pmem := rfl
@[simp] theorem proc_setFrc (c : Int) : (k.setFrc f c).proc = k.proc := rfl
@[simp] theorem max_pid_setFrc (c : Int) : (k.setFrc f c).max_pid = k.max_pid := rfl
@[simp] theorem head_setFrc (c : Int) : (k.setFrc f c).frame_head = k.frame_head := rfl
@[simp] theorem addr_setFrc (c : Int) : (k.setFrc f c).frame_head_addr = k.frame_head_addr := rfl
@[simp] theorem kpt_setFrc (c : Int) : (k.setFrc f c).kernel_page_table = k.kernel_page_table := rfl
@[simp] theorem table_setFrc (c : Int) : (k.setFrc f c).table = k.table := rfl

@[simp] theorem frc_setWindow : (k.setWindow i f).frc_table = k.frc_table := rfl
@[simp] theorem pmem_setWindow : (k.setWindow i f).pmem = k.pmem := rfl
@[simp] theorem proc_setWindow : (k.setWindow i f).proc = k.proc := rfl
@[simp] theorem max_pid_setWindow : (k.setWindow i f).max_pid = k.max_pid := rfl
@[simp] theorem head_setWindow : (k.setWindow i f).frame_head = k.frame_head := rfl
@[simp] theorem addr_setWindow : (k.setWindow i f).frame_head_addr = k.frame_head_addr := rfl
@[simp] theorem table_setWindow : (k.setWindow i f).table = k.table := rfl

@[simp] theorem windowFrame_setWindow : (k.setWindow i f).windowFrame i = f := by
  simp [windowFrame, setWindow]

@[simp] theorem windowFrame_setFrc (c : Int) : (k.setFrc f c).windowFrame i = k.windowFrame i := rfl
@[simp] theorem windowFrame_setHeadNext : (k.setHeadNext f).windowFrame i = k.windowFrame i := rfl
@[simp] theorem windowFrame_setHeadPrev : (k.setHeadPrev f).windowFrame i = k.windowFrame i := rfl
@[simp] theorem windowFrame_setWindowPage (pg : Word.Page) :
    (k.setWindowPage j pg).windowFrame i = k.windowFrame i := rfl

@[simp] theorem pmem_setHeadNext : (k.setHeadNext f).pmem = k.pmem := rfl
@[simp] theorem pmem_setHeadPrev : (k.setHeadPrev f).pmem = k.pmem := rfl
@[simp] theorem pmem_setWindowPage (pg : Word.Page) :
    (k.setWindowPage i pg).pmem = Function.update k.pmem (k.windowFrame i) pg := rfl

theorem windowFrame_setWindow_ne (h : i ≠ j) :
    (k.setWindow j f).windowFrame i = k.windowFrame i := by
  simp [windowFrame, setWindow, h]

theorem kpt_setWindow {i j : Nat} (hi : i < 3) (hj : j < 123 ∨ 126 ≤ j) :
    (k.setWindow i f).kernel_page_table j = k.kernel_page_table j := by
  exact Function.update_of_ne (by omega) _ _

@[simp] theorem frc_modify (u : Process → Process) : (k.modify p u).frc_table = k.frc_table := rfl
@[simp] theorem pmem_modify (u : Process → Process) : (k.modify p u).pmem = k.pmem := rfl
@[simp] theorem max_pid_modify (u : Process → Process) : (k.modify p u).max_pid = k.max_pid := rfl
@[simp] theorem head_modify (u : Process → Process) : (k.modify p u).frame_head = k.frame_head := rfl
@[simp] theorem addr_modify (u : Process → Process) :
    (k.modify p u).frame_head_addr = k.frame_head_addr := rfl
@[simp] theorem kpt_modify (u : Process → Process) :
    (k.modify p u).kernel_page_table = k.kernel_page_table := rfl
@[simp] theorem proc_modify (u : Process → Process) :
    (k.modify p u).proc = Function.update k.proc p (u (k.proc p)) := rfl

theorem proc_modify_self (u : Process → Process) : (k.modify p u).proc p = u (k.proc p) := by simp

variable {k p q i j}

theorem entry_ok (hi : i < 128) : k.entry p i = .ok (k.table p i) := by
  unfold entry
  rw [if_pos (by unfold MAX_PT_LEN; omega)]
  simp

theorem setEntry_ok (hi : i < 128) (e : PTE) :
    k.setEntry p i e = .ok (k.modify p (putEntry i e)) := by
  unfold setEntry
  rw [if_pos (by unfold MAX_PT_LEN; omega)]
  simp

theorem readPage_ok (hi : i < 128) (hv : (k.table p i).valid = true)
    (hr : (k.table p i).readable = true) :
    k.readPage p i = .ok (k.pmem (k.table p i).pfn) := by
  simp [readPage, entry_ok hi, bind, Except.bind, hv, hr]

@[simp] theorem table_putEntry_self (e : PTE) :
    (k.modify p (putEntry i e)).table p = Function.update (k.table p) i e := by
  simp [table, putEntry]

theorem table_modify_ne (h : q ≠ p) (u : Process → Process) :
    (k.modify p u).table q = k.table q := by
  simp [table, h]

end Kernel

end Yalnix
