import Yalnix.Process.Teardown

/-!
# Who is running

`getCurrentProcess()` reads the pointer at the base of the kernel stack.  The stack of another
process comes to that address when a switch writes its frames into the kernel's page table, and a
new process gets its stack, and the pointer in it, through the frame windows.

* `infoWords`, `readInfo`, `writeInfo` — the structure in memory.
* `Cpu` — the kernel together with `REG_PTBR1` and the kernel contexts.
* `forkProcess`, `createThread`, `cloneKernelContext`, `switchKernelContext`, `killKernelContext` —
  the code on these bytes.  For the rest of the memory they are those of `Yalnix.Process.Fork`.

A pointer to a descriptor is the number of the process.
-/

set_option autoImplicit false

namespace Yalnix

/-! ## The structure in memory -/

/-- The 32-bit word that holds an address. -/
def addressWord (a : Int) : Nat := (a % 4294967296).toNat

namespace Stack

/-- The four words of a `ProcessInfo`. -/
structure InfoWords where
  descriptor : Nat
  data_start : Nat
  heap_start : Nat
  current_brk : Nat
  deriving DecidableEq, Repr

def readInfo (pg : Word.Page) : InfoWords :=
  ⟨Word.readWord pg 0, Word.readWord pg 4, Word.readWord pg 8, Word.readWord pg 12⟩

def writeInfo (w : InfoWords) (pg : Word.Page) : Word.Page :=
  Word.writeWord (Word.writeWord (Word.writeWord (Word.writeWord pg 0 w.descriptor) 4 w.data_start)
    8 w.heap_start) 12 w.current_brk

/-- The `ProcessInfo` of `p` as it should be stored. -/
def infoWords (p : PID) (info : ProcessInfo) : InfoWords :=
  ⟨p, addressWord info.data_start, addressWord info.heap_start, addressWord info.current_brk⟩

/-- Every field fits its word. -/
structure InfoWords.Fits (w : InfoWords) : Prop where
  descriptor : w.descriptor < 2 ^ 32
  data_start : w.data_start < 2 ^ 32
  heap_start : w.heap_start < 2 ^ 32
  current_brk : w.current_brk < 2 ^ 32

theorem addressWord_lt (a : Int) : addressWord a < 2 ^ 32 := by
  unfold addressWord
  omega

theorem infoWords_fits {p : PID} (hp : p < 2 ^ 32) (info : ProcessInfo) : (infoWords p info).Fits :=
  ⟨hp, addressWord_lt _, addressWord_lt _, addressWord_lt _⟩

/-- **What is stored in a page is read back.** -/
theorem readInfo_writeInfo {w : InfoWords} (hw : w.Fits) (pg : Word.Page) :
    readInfo (writeInfo w pg) = w := by
  unfold readInfo writeInfo
  have h₀ := Word.readWord_writeWord pg 0 hw.descriptor
  have h₄ := Word.readWord_writeWord (Word.writeWord pg 0 w.descriptor) 4 hw.data_start
  rw [Word.readWord_writeWord _ 12 hw.current_brk]
  simp only [Word.readWord_writeWord_ne _ _ (show 0 + 4 ≤ 12 ∨ 12 + 4 ≤ 0 by omega),
    Word.readWord_writeWord_ne _ _ (show 4 + 4 ≤ 12 ∨ 12 + 4 ≤ 4 by omega),
    Word.readWord_writeWord_ne _ _ (show 8 + 4 ≤ 12 ∨ 12 + 4 ≤ 8 by omega),
    Word.readWord_writeWord_ne _ _ (show 0 + 4 ≤ 8 ∨ 8 + 4 ≤ 0 by omega),
    Word.readWord_writeWord_ne _ _ (show 4 + 4 ≤ 8 ∨ 8 + 4 ≤ 4 by omega),
    Word.readWord_writeWord_ne _ _ (show 0 + 4 ≤ 4 ∨ 4 + 4 ≤ 0 by omega),
    Word.readWord_writeWord _ 8 hw.heap_start, h₀, h₄]

/-- The rest of the page is left alone. -/
theorem writeInfo_above (w : InfoWords) (pg : Word.Page) {o : Nat} (ho : 16 ≤ o) :
    writeInfo w pg o = pg o := by
  unfold writeInfo
  rw [Word.writeWord_of_off _ _ (by omega), Word.writeWord_of_off _ _ (by omega),
    Word.writeWord_of_off _ _ (by omega), Word.writeWord_of_off _ _ (by omega)]

/-- The structure is the first sixteen bytes of its page. -/
theorem readInfo_congr {pg pg' : Word.Page} (h : ∀ o < 16, pg' o = pg o) :
    readInfo pg' = readInfo pg := by
  unfold readInfo Word.readWord
  simp only [h _ (show 0 < 16 by omega), h _ (show 0 + 1 < 16 by omega),
    h _ (show 0 + 2 < 16 by omega), h _ (show 0 + 3 < 16 by omega), h _ (show 4 < 16 by omega),
    h _ (show 4 + 1 < 16 by omega), h _ (show 4 + 2 < 16 by omega), h _ (show 4 + 3 < 16 by omega),
    h _ (show 8 < 16 by omega), h _ (show 8 + 1 < 16 by omega), h _ (show 8 + 2 < 16 by omega),
    h _ (show 8 + 3 < 16 by omega), h _ (show 12 < 16 by omega), h _ (show 12 + 1 < 16 by omega),
    h _ (show 12 + 2 < 16 by omega), h _ (show 12 + 3 < 16 by omega)]

/-! ## The kernel stack -/

/-- The frame behind page `i` of the kernel stack, in the kernel's page table. -/
def stackFrame (k : Kernel) (i : Nat) : Nat :=
  (k.kernel_page_table (frameOf KERNEL_STACK_BASE + i)).pfn

/-- What the kernel sees at `KERNEL_STACK_BASE + PAGESIZE*i`. -/
def stackPage (k : Kernel) (i : Nat) : Word.Page := k.pmem (stackFrame k i)

/-- `((ProcessInfo *) KERNEL_STACK_BASE)->descriptor`. -/
def getCurrentProcess (k : Kernel) : PID := (readInfo (stackPage k 0)).descriptor

/-- Frame `i` of the kernel stack of `p`. -/
def pcbFrame (k : Kernel) (p : PID) (i : Nat) : Nat := frameOf ((k.proc p).pcb_frames i)

/-! ## Making a process -/

/-- The descriptor stores its own address at the base of the new stack. -/
def createProcessDescriptor (malloc : Bool) (k : Kernel) : Option PID × Kernel :=
  match Yalnix.createProcessDescriptor malloc k with
  | (none, k) => (none, k)
  | (some process, k) =>
    (some process, k.setWindowPage 0 (Word.writeWord (k.window 0) 0 process))

/-- The pages of the parent are read through the page table of `REG_PTBR1`. -/
def copyParentStack (ptbr1 child parent : PID) (k : Kernel) : Except Stop Kernel :=
  Loop.forRange (stack_base (getCurrentProcess k) k) MAX_PT_LEN (copyStackPage ptbr1 child parent) k

/-- The new `ProcessInfo` is written through window 0; the parent's is at the base of the stack. -/
def createUserContext (child parent : PID) (k : Kernel) : Kernel :=
  let k := Yalnix.createUserContext child parent k
  let parent_info := readInfo (stackPage k 0)
  k.setWindowPage 0 (writeInfo { parent_info with descriptor := child } (k.window 0))

def spawn (malloc₁ malloc₂ : Bool) (ptbr1 parent : PID) (k : Kernel) :
    Except Stop (Option PID × Kernel) :=
  if (k.proc parent).thread_leader.isSome then .ok (none, k)
  else
    match createProcessDescriptor malloc₁ k with
    | (none, k) => .ok (none, k)
    | (some child, k) =>
      match createPageTable malloc₂ child parent k with
      | (status, k) =>
        if status = ERROR then .ok (none, k)
        else do
          let k ← copyParentStack ptbr1 child parent k
          .ok (some child, createUserContext child parent k)

/-- The stack of the running process is copied to `pb`; the new `ProcessInfo` is kept aside
meanwhile, and put back. -/
def cloneStack (pb : PID) (k : Kernel) : Kernel :=
  let k := k.setWindow 0 (pcbFrame k pb 0)
  let info := readInfo (k.window 0)
  let k := k.setWindow 0 (pcbFrame k pb 0)
  let k := k.setWindowPage 0 (stackPage k 0)
  let k := k.setWindow 1 (pcbFrame k pb 1)
  let k := k.setWindowPage 1 (stackPage k 1)
  let k := k.setWindow 0 (pcbFrame k pb 0)
  k.setWindowPage 0 (writeInfo info (k.window 0))

/-! ## The machine -/

/-- The kernel, and what the machine goes by besides memory. -/
structure Cpu (κ : Type) where
  kernel : Kernel
  /-- `REG_PTBR1`: the process whose page table is in use. -/
  ptbr1 : PID
  /-- The field `kernel_context` of the descriptors. -/
  kernel_context : PID → κ
  /-- The registers of the kernel. -/
  context : κ

variable {κ : Type}

/-- The function gets the kernel context that is running, and the machine goes on with the one it
returns. -/
def KernelContextSwitch (f : κ → Cpu κ → κ × Cpu κ) (m : Cpu κ) : Cpu κ :=
  let (context, m) := f m.context m
  { m with context := context }

/-- `memcpy(&p->kernel_context, context, sizeof(KernelContext))`. -/
def Cpu.save (m : Cpu κ) (p : PID) (context : κ) : Cpu κ :=
  { m with kernel_context := Function.update m.kernel_context p context }

def cloneKernelContext (pa pb : PID) (context : κ) (m : Cpu κ) : κ × Cpu κ :=
  let m := (m.save pa context).save pb context
  (context, { m with kernel := cloneStack pb m.kernel })

def switchKernelContext (pa pb : PID) (context : κ) (m : Cpu κ) : κ × Cpu κ :=
  if pa ≠ getCurrentProcess m.kernel then (context, m)
  else
    let m := m.save pa context
    let m := { m with kernel := Yalnix.switchKernelContext pb m.kernel, ptbr1 := pb }
    (m.kernel_context pb, m)

def killKernelContext (pa pb : PID) (context : κ) (m : Cpu κ) : κ × Cpu κ :=
  let (_, m) := switchKernelContext pa pb context m
  let m := { m with kernel := freePcbFrames pa m.kernel }
  (m.kernel_context pb, m)

/-- The result of `forkProcess` and `createThread`, which both processes come to:
`getCurrentProcess() == parent ? child->pid : 0`. -/
def spawnResult (parent child : PID) (k : Kernel) : Int :=
  if getCurrentProcess k = parent then child else 0

def forkProcess (malloc₁ malloc₂ : Bool) (m : Cpu κ) : Except Stop (Int × Cpu κ) := do
  let parent := getCurrentProcess m.kernel
  match ← spawn malloc₁ malloc₂ m.ptbr1 parent m.kernel with
  | (none, k) => .ok (ERROR, { m with kernel := k })
  | (some child, k) =>
    let k ← setCopyOnWrite (getCurrentProcess k) parent false k
    let k ← setCopyOnWrite (getCurrentProcess k) child true k
    let m := KernelContextSwitch (cloneKernelContext parent child) { m with kernel := k }
    .ok (spawnResult parent child m.kernel, m)

def createThread (malloc₁ malloc₂ : Bool) (m : Cpu κ) : Except Stop (Int × Cpu κ) := do
  let parent := getCurrentProcess m.kernel
  match ← spawn malloc₁ malloc₂ m.ptbr1 parent m.kernel with
  | (none, k) => .ok (ERROR, { m with kernel := k })
  | (some child, k) =>
    let k ← increaseFRCEntries (getCurrentProcess k) child k
    let k := k.modify child fun C => { C with thread_leader := some parent }
    let m := KernelContextSwitch (cloneKernelContext parent child) { m with kernel := k }
    .ok (spawnResult parent child m.kernel, m)

/-! ## Switching and exiting -/

/-- `schedule()`, once it has chosen `new_process`. -/
def schedule (new_process : PID) (m : Cpu κ) : Cpu κ :=
  KernelContextSwitch (switchKernelContext (getCurrentProcess m.kernel) new_process) m

/-- The memory that `killProcess` gives back before any switch. -/
def killMemory (process : PID) (k : Kernel) : Except Stop Kernel := do
  let k ← freeAddressSpace process k
  .ok (k.modify process fun P => { P with live := false })

/-- `killCurrentProcess`, once it has chosen `new_process`. -/
def killCurrentProcess (new_process : PID) (m : Cpu κ) : Except Stop (Cpu κ) := do
  let process := getCurrentProcess m.kernel
  let k ← killMemory process m.kernel
  .ok (KernelContextSwitch (killKernelContext process new_process) { m with kernel := k })

/-- `setProcessBrk`; the break it leaves is the last word of the `ProcessInfo`. -/
def setProcessBrk (address : Int) (k : Kernel) : Except Stop (Int × Kernel) := do
  let cur := getCurrentProcess k
  let (status, k) ← Yalnix.setProcessBrk cur address k
  let page := Word.writeWord (stackPage k 0) 12 (addressWord (k.proc cur).info.current_brk)
  .ok (status, { k with pmem := Function.update k.pmem (stackFrame k 0) page })

end Stack

end Yalnix
