import Yalnix.Memory.Frames
import Yalnix.Lib.Loop

/-!
# Address spaces

The functions that change the region-1 page table of one process: the memory trap
(`handleMemoryTrap`), the break (`setProcessBrk` with `increaseBrk` and `decreaseBrk`),
`freeAddressSpace` and `setCopyOnWrite`, and the loads and stores of the machine itself.

`cur` is the running process throughout, the one `getCurrentProcess()` returns.
-/

set_option autoImplicit false

namespace Yalnix

/-- `saveUserContext`. -/
def saveUserContext (cur : PID) (context : UserContext) (k : Kernel) : Kernel :=
  k.modify cur fun P => { P with user_context := context }

/-! ## The memory trap -/

def handleMemoryTrap (cur : PID) (address : Int) (k : Kernel) : Except Stop Kernel := do
  let index := indexOfPage (long (DOWN_TO_PAGE address - VMEM_1_BASE))
  let old_entry ← k.entry cur index
  -- if the user is trying to write to a copy-on-write page
  if old_entry.cow then
    if k.frc_table old_entry.pfn > 1 then
      let k := k.setFrc old_entry.pfn (char (k.frc_table old_entry.pfn - 1))
      let (frame, k) := allocatePageFrame k
      if frame = 0 then .error .halt
      else
        let k := k.setWindow 0 (frameOf frame)
        let page ← k.readPage cur index
        let k := k.setWindowPage 0 page
        k.setEntry cur index (old_entry.unprotect (frameOf frame))
    else k.setEntry cur index (old_entry.unprotect old_entry.pfn)
  -- if the user is allocating more space for the stack
  else if DOWN_TO_PAGE (k.proc cur).user_context.sp ≤ address then
    let (frame, k) := allocatePageFrame k
    if frame = 0 then .error .halt
    else k.setEntry cur index (createPTEWithOptions data_options (frameOf frame))
  else .ok k

def trapMemory (cur : PID) (context : UserContext) (addr : Int) (k : Kernel) :
    Except Stop Kernel :=
  handleMemoryTrap cur addr (saveUserContext cur context k)

/-! ## Loads and stores of a user program -/

/-- The page-table index of an address of region 1. -/
def userPage (a : Int) : Nat := (indexOfPage (a - VMEM_1_BASE)).toNat

def pageOffset (a : Int) : Nat := (a % 8192).toNat

/-- The entry the machine uses for an address: only region 1 is open to user programs. -/
def userEntry (k : Kernel) (p : PID) (a : Int) : PTE :=
  if VMEM_1_BASE ≤ a ∧ a < VMEM_1_LIMIT then k.table p (userPage a) else PTE.clear

/-- A load; `none` is a `TRAP_MEMORY`. -/
def load (k : Kernel) (p : PID) (a : Int) : Option UInt8 :=
  let e := userEntry k p a
  if e.valid && e.readable then some (k.pmem e.pfn (pageOffset a)) else none

/-- Storing a byte in a frame. -/
def Kernel.poke (k : Kernel) (f o : Nat) (b : UInt8) : Kernel :=
  { k with pmem := Function.update k.pmem f (Function.update (k.pmem f) o b) }

/-- A store; `none` is a `TRAP_MEMORY`. -/
def store (k : Kernel) (p : PID) (a : Int) (b : UInt8) : Option Kernel :=
  let e := userEntry k p a
  if e.valid && e.writable then some (k.poke e.pfn (pageOffset a) b) else none

/-- A store instruction of `p`: when it traps, the trap is handled and the instruction is run
again.  If it traps again the program has got no further and tries once more. -/
def userWrite (p : PID) (context : UserContext) (a : Int) (b : UInt8) (k : Kernel) :
    Except Stop Kernel :=
  match store k p a b with
  | some k => .ok k
  | none => do
    let k ← trapMemory p context a k
    .ok ((store k p a b).getD k)

/-! ## The break -/

/-- The loop of `increaseBrk`: `n` more pages, from `index` on. -/
def increaseLoop (cur : PID) : Nat → Int → Kernel → Except Stop (Int × Kernel)
  | 0, _, k => .ok (0, k)
  | n + 1, index, k =>
    let (frame, k) := allocatePageFrame k
    if frame = 0 then .ok (ERROR, k)
    else do
      let k ← k.setEntry cur index (createPTEWithOptions data_options (frameOf frame))
      increaseLoop cur n (index + 1) k

def increaseBrk (cur : PID) (address : Int) (k : Kernel) : Except Stop (Int × Kernel) :=
  let current_brk := (k.proc cur).info.current_brk
  let frames_needed := indexOfPage (long (UP_TO_PAGE address - current_brk))
  increaseLoop cur frames_needed.toNat (indexOfPage (long (current_brk - VMEM_1_BASE))) k

def decreaseBrk (cur : PID) (address : Int) (k : Kernel) : Except Stop Kernel :=
  let current_brk := (k.proc cur).info.current_brk
  let frames_freed := indexOfPage (long (current_brk - UP_TO_PAGE address))
  Loop.forRange 0 frames_freed (fun i k => do
    let pte_index := indexOfPage (long (UP_TO_PAGE address - VMEM_1_BASE)) + i
    let entry ← k.entry cur pte_index
    let k := freePageFrame (pageAtIndex entry.pfn) k
    k.setEntry cur pte_index (createPTEWithOptions 0 0)) k

/-- `((ProcessInfo *) KERNEL_STACK_BASE)->current_brk = brk`. -/
def setCurrentBrk (brk : Int) (P : Process) : Process :=
  { P with info := { P.info with current_brk := brk } }

def setProcessBrk (cur : PID) (address : Int) (k : Kernel) : Except Stop (Int × Kernel) :=
  let P := k.proc cur
  if UP_TO_PAGE address ≥ DOWN_TO_PAGE P.user_context.sp then .ok (ERROR, k)
  else if DOWN_TO_PAGE address < P.info.heap_start then .ok (ERROR, k)
  else if UP_TO_PAGE address = P.info.current_brk then .ok (0, k)
  else do
    let (status, k) ←
      if UP_TO_PAGE address > P.info.current_brk then increaseBrk cur address k
      else do .ok (0, ← decreaseBrk cur address k)
    if status = ERROR then .ok (ERROR, k)
    else .ok (0, k.modify cur (setCurrentBrk (UP_TO_PAGE address)))

/-! ## Whole page tables -/

/-- `clearPageTable`. -/
def clearPageTable (P : Process) : Process := { P with page_table := fun _ => PTE.clear }

def freeAddressSpace (process : PID) (k : Kernel) : Except Stop Kernel := do
  let k ← Loop.forRange 0 MAX_PT_LEN (fun i k => do
    let entry ← k.entry process i
    if !entry.valid then .ok k
    else .ok (freePageFrame (pageAtIndex entry.pfn) k)) k
  .ok (k.modify process clearPageTable)

/-- The page-table index of the page `sp` points into. -/
def stack_base (cur : PID) (k : Kernel) : Int :=
  indexOfPage (long ((k.proc cur).user_context.sp - VMEM_1_BASE))

/-- A round of `setCopyOnWrite`. -/
def markEntry (table : PID) (is_child : Bool) (i : Int) (k : Kernel) : Except Stop Kernel := do
  let old_entry ← k.entry table i
  if !old_entry.valid then .ok k
  else
    let k := if is_child then
        k.setFrc old_entry.pfn (char (k.frc_table old_entry.pfn + 1))
      else k
    k.setEntry table i old_entry.protect

/-- Mark the writable entries below the stack pointer of `cur` in the table of `table` as
copy-on-write. -/
def setCopyOnWrite (cur table : PID) (is_child : Bool) (k : Kernel) : Except Stop Kernel :=
  Loop.forRange 0 (stack_base cur k) (markEntry table is_child) k

end Yalnix
