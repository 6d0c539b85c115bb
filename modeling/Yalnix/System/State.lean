import Yalnix.Core.List
import Yalnix.Hardware
import Yalnix.Memory.Kernel

/-!
# The state of the kernel

Descriptors, lists of processes, wait queues, resources and terminals, and for every process the
point in the kernel where it will go on.  A descriptor is named by its pid: pids are not given out
twice (`Owners` has the addresses, which may be).  A released descriptor keeps its contents, so that a
pointer to it that is still around reads what was there last; `stale_read` records that a list led to
one.

Memory is another matter (`Memory`, `Process`): a fork that finds no frame is an event here.
-/

set_option autoImplicit false

namespace Yalnix.System

/-! ## Processes -/

inductive ProcessState where
  | RUNNING
  | WAITING
  | STOPPED
  | ZOMBIE
  | DEAD
  deriving DecidableEq, Repr

/-- The fields of a `ProcessDescriptor` that this part of the kernel uses. -/
structure Descriptor where
  /-- The descriptor has been made and has not been released. -/
  allocated : Bool
  wake_up_time : Int
  exit_status : Int
  state : ProcessState
  parent : Option PID
  thread_leader : Option PID

/-- The nodes of the process list. -/
inductive ProcNode where
  | process_head
  | process_list (p : PID)
  deriving DecidableEq, Repr

/-- The nodes of the lists of children. -/
inductive TreeNode where
  | children (p : PID)
  | siblings (p : PID)
  deriving DecidableEq, Repr

/-- The nodes of the lists of threads. -/
inductive GroupNode where
  | thread_group (p : PID)
  | thread_peers (p : PID)
  deriving DecidableEq, Repr

/-! ## Synchronization -/

structure WaitQueueNode where
  is_exclusive : Bool
  process : PID
  deriving DecidableEq, Repr

/-- Mutexes and condition variables are numbered as they are allocated. -/
inductive WaitQueue where
  | mutex (m : Nat)
  | cvar (c : Nat)
  | tty_read (tty : Nat)
  | tty_write (tty : Nat)
  deriving DecidableEq, Repr

inductive ResourceType where
  | RESOURCE_MUTEX
  | RESOURCE_CVAR
  deriving DecidableEq, Repr

structure Resource where
  id : Nat
  type : ResourceType
  /-- The object, or `NULL`. -/
  location : Option Nat

structure Mutex where
  locked : Bool
  current_owner : Option PID

/-! ## Terminals -/

structure TTY where
  /-- 0 when no process is writing. -/
  write_current : PID
  read_buffer : Option (List UInt8)
  read_buffer_size : Int
  read_buffer_position : Int

/-! ## Where a process goes on -/

/-- Where in the kernel a process will go on when it is switched to. -/
inductive Cont where
  /-- It is not in the kernel. -/
  | user
  /-- The call it is in is about to return. -/
  | returns (result : Int)
  /-- In the loop of `waitForPID`. -/
  | waitForPID
  /-- In the loop of `joinThread`. -/
  | joinThread (thread_id : Int)
  /-- In the loop of `mutexAcquire`, called by itself or from a `cvarWait`. -/
  | mutexAcquire (m : Nat) (cvar : Option Nat)
  /-- In `cvarWait`, at the wait queue of the condition variable. -/
  | cvarWait (c : Nat) (mutex_id : Int)
  /-- In the first loop of `ttyRead`. -/
  | ttyRead (tty : Nat) (u_length : Int)
  /-- In the first loop of `ttyWrite`. -/
  | ttyWriteTurn (tty : Nat) (buffer : List UInt8)
  /-- In the second loop of `ttyWrite`, `position` being that of the next chunk. -/
  | ttyWriteChunk (tty : Nat) (buffer : List UInt8) (position : Nat)
  deriving DecidableEq

/-- The queue a process sleeps on when it will go on at `k`. -/
def Cont.queue : Cont → Option WaitQueue
  | .mutexAcquire m _ => some (.mutex m)
  | .cvarWait c _ => some (.cvar c)
  | .ttyRead tty _ => some (.tty_read tty)
  | .ttyWriteTurn tty _ => some (.tty_write tty)
  | .ttyWriteChunk tty _ _ => some (.tty_write tty)
  | _ => none

/-! ## The kernel -/

inductive LockAct where
  /-- A call of `mutexAcquire` has returned successfully. -/
  | acquired (p : PID) (m : Nat)
  /-- `mutexRelease` was called, by itself or from a `cvarWait`. -/
  | released (p : PID) (m : Nat)
  deriving DecidableEq, Repr

structure Sys where
  current : PID
  max_pid : Nat
  elapsed_clock_ticks : Int
  desc : PID → Descriptor
  procs : Ring.Heap ProcNode
  tree : Ring.Heap TreeNode
  groups : Ring.Heap GroupNode
  queue : WaitQueue → List WaitQueueNode
  resources : List Resource
  max_resource_id : Nat
  /-- How many mutexes and condition variables there are. -/
  objects : Nat
  mutex : Nat → Mutex
  ttys : Nat → TTY
  /-- Transmissions a terminal has not finished. -/
  outstanding : Nat → Nat
  cont : PID → Cont
  /-- What has happened to the mutexes so far. -/
  locks : List LockAct
  /-- The lines a terminal has received so far, and the bytes its readers have got. -/
  received : Nat → List (List UInt8)
  delivered : Nat → List UInt8
  /-- The messages that have got their turn at a terminal, and the chunks transmitted. -/
  messages : Nat → List (List UInt8)
  transmitted : Nat → List (List UInt8)
  /-- The statuses `waitForPID` has returned: of whom, to whom. -/
  reaped : List (PID × PID × Int)
  /-- A released descriptor has been met on a list. -/
  stale_read : Bool

namespace Sys

def setDesc (s : Sys) (p : PID) (g : Descriptor → Descriptor) : Sys :=
  { s with desc := Function.update s.desc p (g (s.desc p)) }

def setState (s : Sys) (p : PID) (state : ProcessState) : Sys :=
  s.setDesc p fun d => { d with state := state }

def setQueue (s : Sys) (q : WaitQueue) (l : List WaitQueueNode) : Sys :=
  { s with queue := Function.update s.queue q l }

def setMutex (s : Sys) (m : Nat) (x : Mutex) : Sys := { s with mutex := Function.update s.mutex m x }

def setTty (s : Sys) (tty : Nat) (x : TTY) : Sys := { s with ttys := Function.update s.ttys tty x }

def setCont (s : Sys) (p : PID) (k : Cont) : Sys := { s with cont := Function.update s.cont p k }

end Sys

/-- A descriptor as `processDescriptorInit` leaves it. -/
def newDescriptor : Descriptor where
  allocated := true
  wake_up_time := 0
  exit_status := 0
  state := .RUNNING
  parent := none
  thread_leader := none

/-- The nodes of a new descriptor, each a list of its own. -/
def Sys.initNodes (s : Sys) (p : PID) : Sys :=
  { s with
    procs := linkedListNodeInit (.process_list p) s.procs
    tree := linkedListNodeInit (.siblings p) (linkedListNodeInit (.children p) s.tree)
    groups := linkedListNodeInit (.thread_peers p) (linkedListNodeInit (.thread_group p) s.groups) }

/-- The kernel before it has made a process: empty lists, queues and terminals. -/
def emptySys : Sys where
  current := 1
  max_pid := 0
  elapsed_clock_ticks := 0
  desc := fun _ => { newDescriptor with allocated := false }
  procs := linkedListNodeInit .process_head fun _ => none
  tree := fun _ => none
  groups := fun _ => none
  queue := fun _ => []
  resources := []
  max_resource_id := 0
  objects := 0
  mutex := fun _ => ⟨false, none⟩
  ttys := fun _ => ⟨0, none, 0, 0⟩
  outstanding := fun _ => 0
  cont := fun _ => .user
  locks := []
  received := fun _ => []
  delivered := fun _ => []
  messages := fun _ => []
  transmitted := fun _ => []
  reaped := []
  stale_read := false

/-- `loadInit`: process 1, alone on the process list. -/
def bootSys : Sys :=
  let s := (emptySys.setDesc 1 fun _ => newDescriptor).initNodes 1
  { s with max_pid := 1, procs := (addLastNode (.process_list 1) .process_head s.procs).getD s.procs }

end Yalnix.System
