import Yalnix.Memory.AddressSpace

/-!
# Forking: the memory of the new process

`createProcessDescriptor` (`process.c`), the helpers of `fork.c`, `cloneKernelContext`
(`switch.c`), and what `forkProcess` and `createThread` do to memory with them.  The lists that
connect the new process to the others are in `Yalnix.System.Syscalls`.

Every `malloc` is a parameter: `true` if it finds room in the kernel heap.
-/

set_option autoImplicit false

namespace Yalnix

/-- A descriptor just after `processDescriptorInit`. -/
def newProcess : Process where
  live := false
  pcb := false
  pcb_frames := fun _ => 0
  thread_leader := none
  page_table := fun _ => PTE.clear
  user_context := ⟨0, 0, fun _ => 0⟩
  info := ⟨0, 0, 0⟩

/-- `nextAvailablePID()`; 0 when there is none. -/
def nextAvailablePID (k : Kernel) : PID × Kernel :=
  if (k.max_pid : Int) < LONG_MAX then (k.max_pid + 1, { k with max_pid := k.max_pid + 1 })
  else (0, k)

/-- `process->pcb_frames[i] = frame`. -/
def setPcbFrame (i frame : Nat) (P : Process) : Process :=
  { P with pcb_frames := Function.update P.pcb_frames i frame }

/-- A new descriptor with its two PCB frames; if a frame is missing, those already taken are
given back. -/
def createProcessDescriptor (malloc : Bool) (k : Kernel) : Option PID × Kernel :=
  if !malloc then (none, k)
  else
    let (pid, k) := nextAvailablePID k
    if pid = 0 then (none, k)
    else
      let k := k.modify pid fun _ => newProcess
      let (frame₀, k) := allocatePageFrame k
      let k := k.modify pid (setPcbFrame 0 frame₀)
      if frame₀ = 0 then (none, freePageFrame frame₀ k)
      else
        let (frame₁, k) := allocatePageFrame k
        let k := k.modify pid (setPcbFrame 1 frame₁)
        if frame₁ = 0 then (none, freePageFrame frame₀ (freePageFrame frame₁ k))
        else
          let k := k.setWindow 0 (frameOf frame₀)
          (some pid, k.modify pid fun P => { P with pcb := true })

/-- A page table of its own for `child`, with the entries of `parent`. -/
def createPageTable (malloc : Bool) (child parent : PID) (k : Kernel) : Int × Kernel :=
  if !malloc then (ERROR, k)
  else (SUCCESS, k.modify child fun P => { P with live := true, page_table := k.table parent })

/-- A round of `copyParentStack`.  The result of `allocatePageFrame` is not checked. -/
def copyStackPage (cur child parent : PID) (i : Int) (k : Kernel) : Except Stop Kernel := do
  let old_entry ← k.entry parent i
  if !old_entry.valid then .ok k
  else
    let (frame, k) := allocatePageFrame k
    let k ← k.setEntry child i (createPTEWithOptions old_entry.options (frameOf frame))
    let k := k.setWindow 0 (frameOf frame)
    let page ← k.readPage cur i
    .ok (k.setWindowPage 0 page)

def copyParentStack (cur child parent : PID) (k : Kernel) : Except Stop Kernel :=
  Loop.forRange (stack_base cur k) MAX_PT_LEN (copyStackPage cur child parent) k

/-- A round of `increaseFRCEntries`. -/
def raiseEntry (child : PID) (i : Int) (k : Kernel) : Except Stop Kernel := do
  let old_entry ← k.entry child i
  if !old_entry.valid then .ok k
  else .ok (k.setFrc old_entry.pfn (char (k.frc_table old_entry.pfn + 1)))

/-- Increase the counts of the frames that `child` shares. -/
def increaseFRCEntries (cur child : PID) (k : Kernel) : Except Stop Kernel :=
  Loop.forRange 0 (stack_base cur k) (raiseEntry child) k

def createUserContext (child parent : PID) (k : Kernel) : Kernel :=
  let P := k.proc parent
  (k.setWindow 0 (frameOf ((k.proc child).pcb_frames 0))).modify child fun C =>
    { C with user_context := P.user_context, info := P.info }

/-- The kernel stack of the running process `pa` is copied to `pb`, page by page; the
`ProcessInfo` of `pb` at its base is kept. -/
def cloneKernelContext (pa pb : PID) (k : Kernel) : Kernel :=
  let k := k.setWindow 0 (frameOf ((k.proc pb).pcb_frames 0))
  let k := k.setWindowPage 0 (k.pmem (frameOf ((k.proc pa).pcb_frames 0)))
  let k := k.setWindow 1 (frameOf ((k.proc pb).pcb_frames 1))
  let k := k.setWindowPage 1 (k.pmem (frameOf ((k.proc pa).pcb_frames 1)))
  k.setWindow 0 (frameOf ((k.proc pb).pcb_frames 0))

/-- What `forkProcess` and `createThread` begin with: a descriptor, a page table, the stack and
the user context. -/
def spawn (malloc₁ malloc₂ : Bool) (parent : PID) (k : Kernel) :
    Except Stop (Option PID × Kernel) :=
  if (k.proc parent).thread_leader.isSome then .ok (none, k)
  else
    match createProcessDescriptor malloc₁ k with
    | (none, k) => .ok (none, k)
    | (some child, k) =>
      match createPageTable malloc₂ child parent k with
      | (status, k) =>
        if status = ERROR then .ok (none, k)
        else do
          let k ← copyParentStack parent child parent k
          .ok (some child, createUserContext child parent k)

/-- The result is what the parent gets; in the child the call returns 0. -/
def forkProcess (malloc₁ malloc₂ : Bool) (parent : PID) (k : Kernel) :
    Except Stop (Int × Kernel) := do
  match ← spawn malloc₁ malloc₂ parent k with
  | (none, k) => .ok (ERROR, k)
  | (some child, k) =>
    let k ← setCopyOnWrite parent parent false k
    let k ← setCopyOnWrite parent child true k
    .ok (child, cloneKernelContext parent child k)

def createThread (malloc₁ malloc₂ : Bool) (parent : PID) (k : Kernel) :
    Except Stop (Int × Kernel) := do
  match ← spawn malloc₁ malloc₂ parent k with
  | (none, k) => .ok (ERROR, k)
  | (some child, k) =>
    let k ← increaseFRCEntries parent child k
    let k := k.modify child fun C => { C with thread_leader := some parent }
    .ok (child, cloneKernelContext parent child k)

/-! ## The end of a process -/

/-- `killKernelContext`: the frames of the kernel stack. -/
def freePcbFrames (process : PID) (k : Kernel) : Kernel :=
  let k := freePageFrame ((k.proc process).pcb_frames 0) k
  let k := freePageFrame ((k.proc process).pcb_frames 1) k
  k.modify process fun P => { P with pcb := false }

/-- The memory of a process without threads that exits: `freeAddressSpace` and
`free(process->page_table)` in `killProcess`, then `killKernelContext`. -/
def exitProcess (process : PID) (k : Kernel) : Except Stop Kernel := do
  let k ← freeAddressSpace process k
  .ok (freePcbFrames process (k.modify process fun P => { P with live := false }))

end Yalnix
