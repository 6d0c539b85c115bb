import Yalnix.System.Kill
import Yalnix.Lib.Transition

/-!
# System calls and interrupts

`sync/`, `traps/tty.c`, and what `process.c` and `fork.c` do to lists of processes.  A handler ends
by returning to the user, by calling `schedule`, with the point where it will go on, or by a switch
away from an exiting process.  `mallocs` are the results of the calls of `malloc`, in order; those
past the end of the list succeed.

`Step` is the machine: the running process traps or is interrupted in user mode, or goes on in the
kernel.
-/

set_option autoImplicit false

namespace Yalnix.System

/-! ## Wait queues -/

/-- `addNodeToWaitQueue`: exclusive nodes to the back, others to the front. -/
def addNodeToWaitQueue (node : WaitQueueNode) (l : List WaitQueueNode) : List WaitQueueNode :=
  if node.is_exclusive then l ++ [node] else node :: l

/-- `sleepOnWaitQueueWithOptions` up to the call of `schedule`, when it has got a node. -/
def sleepOnWaitQueue (q : WaitQueue) (exclusive : Bool) (s : Sys) : Sys :=
  (s.setQueue q (addNodeToWaitQueue ⟨exclusive, s.current⟩ (s.queue q))).setState s.current .WAITING

/-- The loop of `signalWaitQueueWithOptions`.  The link of a node that has just been freed is taken
as still readable. -/
def wakeLoop (q : WaitQueue) (wakeup_is_exclusive : Bool) : List WaitQueueNode → Sys → Sys
  | [], s => s.setQueue q []
  | node :: rest, s =>
    let s := s.setState node.process .RUNNING
    if node.is_exclusive && wakeup_is_exclusive then s.setQueue q rest
    else wakeLoop q wakeup_is_exclusive rest s

def signalWaitQueueWithOptions (q : WaitQueue) (wakeup_is_exclusive : Bool) (s : Sys) : Sys :=
  wakeLoop q wakeup_is_exclusive (s.queue q) s

def signalWaitQueue (q : WaitQueue) (s : Sys) : Sys := signalWaitQueueWithOptions q true s

/-! ## Outcomes -/

inductive Outcome where
  /-- Back to user mode. -/
  | ret (result : Int) (s : Sys)
  /-- `schedule()` is called; the process will go on at `k`. -/
  | schedule (k : Cont) (s : Sys)
  /-- The process has exited, and another one runs. -/
  | switched (s : Sys)
  /-- The code has no meaning, or does not come to an end. -/
  | fault

/-! ## Processes -/

/-- A child or a thread in its first state: its call returns 0. -/
def Sys.newProcess (s : Sys) (child : PID) (d : Descriptor) : Sys :=
  (((s.setDesc child fun _ => d).initNodes child).setCont child (.returns 0))

/-- `forkProcess`; `memory` tells whether there was room for the child. -/
def forkProcess (memory : Bool) (s : Sys) : Outcome :=
  if (s.desc s.current).thread_leader.isSome then .ret ERROR s
  else if LONG_MAX ≤ s.max_pid then .ret ERROR s
  else
    let child := s.max_pid + 1
    let s := { s with max_pid := child }
    if !memory then .ret ERROR s
    else
      let s := s.newProcess child { newDescriptor with parent := some s.current }
      match addLastNode (.siblings child) (.children s.current) s.tree,
        addLastNode (.process_list child) .process_head s.procs with
      | some tree, some procs => .ret child { s with tree := tree, procs := procs }
      | _, _ => .fault

def createThread (memory : Bool) (s : Sys) : Outcome :=
  if (s.desc s.current).thread_leader.isSome then .ret ERROR s
  else if LONG_MAX ≤ s.max_pid then .ret ERROR s
  else
    let child := s.max_pid + 1
    let s := { s with max_pid := child }
    if !memory then .ret ERROR s
    else
      let s := s.newProcess child { newDescriptor with thread_leader := some s.current }
      match addLastNode (.thread_peers child) (.thread_group s.current) s.groups,
        insertNode (.process_list child) (.process_list s.current) s.procs with
      | some groups, some procs => .ret child { s with groups := groups, procs := procs }
      | _, _ => .fault

def delayProcess (ticks : Int) (s : Sys) : Outcome :=
  if ticks = 0 then .ret SUCCESS s
  else if ticks < 0 then .ret ERROR s
  else .schedule (.returns SUCCESS) (s.setDesc s.current fun d =>
    { d with wake_up_time := long (s.elapsed_clock_ticks + ticks) })

/-- The first zombie after `pos` in a list of children; `none` inside if there is none. -/
def findZombie (s : Sys) (head : TreeNode) : Nat → TreeNode → Option (Option PID)
  | 0, _ => none
  | n + 1, pos =>
    if pos = head then some none
    else
      match pos with
      | .children _ => none
      | .siblings p =>
        if (s.desc p).state = .ZOMBIE then some (some p)
        else (s.tree.next (.siblings p)).bind (findZombie s head n)

/-- The loop of `waitForPID(1, status)`, which takes any child. -/
def waitLoop (n : Nat) (s : Sys) : Outcome :=
  match (s.tree.next (.children s.current)).bind (findZombie s (.children s.current) n) with
  | none => .fault
  | some none => .schedule .waitForPID s
  | some (some p) =>
    match releaseProcess n p s with
    | none => .fault
    | some s' => .ret 0 { s' with reaped := s.reaped ++ [(p, s.current, (s.desc p).exit_status)] }

def waitForPID (n : Nat) (s : Sys) : Outcome :=
  match listIsEmpty (.children s.current) s.tree with
  | none => .fault
  | some true => .ret (-1) s
  | some false => waitLoop n s

/-- The first zombie of that pid after `pos` in a list of threads.  Those that have been joined are
still on it, and are read. -/
def findThread (head : GroupNode) (thread_id : Int) :
    Nat → GroupNode → Sys → Option (Option PID × Sys)
  | 0, _, _ => none
  | n + 1, pos, s =>
    if pos = head then some (none, s)
    else
      match pos with
      | .thread_group _ => none
      | .thread_peers p =>
        let s := s.follow p
        if (s.desc p).state = .ZOMBIE ∧ (p : Int) = thread_id then some (some p, s)
        else (s.groups.next (.thread_peers p)).bind fun next => findThread head thread_id n next s

def joinLoop (n : Nat) (thread_id : Int) (s : Sys) : Outcome :=
  match (s.groups.next (.thread_group s.current)).bind
      fun first => findThread (.thread_group s.current) thread_id n first s with
  | none => .fault
  | some (none, s) => .schedule (.joinThread thread_id) s
  | some (some p, s) =>
    match releaseProcess n p s with
    | none => .fault
    | some s => .ret 0 s

def joinThread (n : Nat) (thread_id : Int) (s : Sys) : Outcome :=
  match listIsEmpty (.thread_group s.current) s.groups with
  | none => .fault
  | some true => .ret (-1) s
  | some false => joinLoop n thread_id s

/-- `killCurrentProcess`, with the switch at its end. -/
def killCurrentProcess (n : Nat) (status : Int) (s : Sys) : Outcome :=
  match killProcess n s.current status s with
  | none => .fault
  | some (none, s) => .ret 0 s
  | some (some q, s') =>
    match killKernelContext n s.current q s' with
    | none => .fault
    | some s'' => .switched s''

/-! ## Resources -/

def getResourceWithID (id : Int) (type : ResourceType) (s : Sys) : Option Resource :=
  match s.resources.find? fun r => (r.id : Int) = id % 2 ^ 32 with
  | some r => if r.type = type then some r else none
  | none => none

/-- `createResourceWithType` and the object it is for. -/
def initializeResource (type : ResourceType) (malloc₁ malloc₂ : Bool) (s : Sys) : Outcome :=
  if !malloc₁ then .ret ERROR s
  else
    let id := (s.max_resource_id + 1) % 2 ^ 32
    let s := { s with max_resource_id := id }
    if !malloc₂ then .ret ERROR { s with resources := s.resources ++ [⟨id, type, none⟩] }
    else .ret SUCCESS
      { s with resources := s.resources ++ [⟨id, type, some s.objects⟩], objects := s.objects + 1 }

def mutexInitialize (malloc₁ malloc₂ : Bool) (s : Sys) : Outcome :=
  match initializeResource .RESOURCE_MUTEX malloc₁ malloc₂ s with
  | .ret r s' =>
    if r = ERROR then .ret r s'
    else .ret r ((s'.setMutex s.objects ⟨false, none⟩).setQueue (.mutex s.objects) [])
  | o => o

def cvarInitialize (malloc₁ malloc₂ : Bool) (s : Sys) : Outcome :=
  match initializeResource .RESOURCE_CVAR malloc₁ malloc₂ s with
  | .ret r s' => if r = ERROR then .ret r s' else .ret r (s'.setQueue (.cvar s.objects) [])
  | o => o

/-! ## Mutexes -/

/-- `mutex->locked = 1; mutex->current_owner = getCurrentProcess();` -/
def takeMutex (m : Nat) (s : Sys) : Sys :=
  { s.setMutex m ⟨true, some s.current⟩ with locks := s.locks ++ [.acquired s.current m] }

/-- The loop of `mutexAcquire` and what follows.  A failed sleep returns `errno`, which is not
`ERROR`: the lock is tested again. -/
def mutexAcquireLoop (m : Nat) (cvar : Option Nat) : List Bool → Sys → Outcome
  | false :: mallocs, s =>
    if (s.mutex m).locked then mutexAcquireLoop m cvar mallocs s else .ret SUCCESS (takeMutex m s)
  | _, s =>
    if (s.mutex m).locked then .schedule (.mutexAcquire m cvar) (sleepOnWaitQueue (.mutex m) true s)
    else .ret SUCCESS (takeMutex m s)

/-- The owner is known by its pid.  The code compares addresses of descriptors: `mutexAcquireAt` in
`Owners`, which does the same where no dead owner is taken for the caller. -/
def mutexAcquire (mallocs : List Bool) (mutex_id : Int) (cvar : Option Nat) (s : Sys) : Outcome :=
  match getResourceWithID mutex_id .RESOURCE_MUTEX s with
  | none => .ret ERROR s
  | some resource =>
    match resource.location with
    | none => .fault
    | some m =>
      if (s.mutex m).current_owner = some s.current then
        .ret 0 { s with locks := s.locks ++ [.acquired s.current m] }
      else mutexAcquireLoop m cvar mallocs s

/-- `mutex->locked = 0; mutex->current_owner = 0; signalWaitQueue(&mutex->waitqueue);` -/
def openMutex (m : Nat) (s : Sys) : Sys :=
  signalWaitQueue (.mutex m)
    { s.setMutex m ⟨false, none⟩ with locks := s.locks ++ [.released s.current m] }

def mutexRelease (mutex_id : Int) (s : Sys) : Outcome :=
  match getResourceWithID mutex_id .RESOURCE_MUTEX s with
  | none => .ret ERROR s
  | some resource =>
    match resource.location with
    | none => .fault
    | some m => .ret SUCCESS (openMutex m s)

/-! ## Condition variables -/

/-- A sleep that fails returns `errno`, which is not `ERROR`: the mutex is acquired again. -/
def cvarWait (mallocs : List Bool) (cvar_id mutex_id : Int) (s : Sys) : Outcome :=
  match getResourceWithID cvar_id .RESOURCE_CVAR s with
  | none => .ret ERROR s
  | some resource =>
    match mutexRelease mutex_id s with
    | .ret r s =>
      if r = ERROR then .ret ERROR s
      else
        match mallocs, resource.location with
        | false :: mallocs, c => mutexAcquire mallocs mutex_id c s
        | _, none => .fault
        | _, some c => .schedule (.cvarWait c mutex_id) (sleepOnWaitQueue (.cvar c) true s)
    | o => o

def cvarSignal (cvar_id : Int) (s : Sys) : Outcome :=
  match getResourceWithID cvar_id .RESOURCE_CVAR s with
  | none => .ret ERROR s
  | some resource =>
    match resource.location with
    | none => .fault
    | some c => .ret SUCCESS (signalWaitQueue (.cvar c) s)

def cvarBroadcast (cvar_id : Int) (s : Sys) : Outcome :=
  match getResourceWithID cvar_id .RESOURCE_CVAR s with
  | none => .ret ERROR s
  | some resource =>
    match resource.location with
    | none => .fault
    | some c => .ret SUCCESS (signalWaitQueueWithOptions (.cvar c) false s)

/-! ## Terminals -/

/-- There is nothing to read: `!read_buffer || read_buffer_position >= read_buffer_size`. -/
def TTY.drained (x : TTY) : Bool :=
  x.read_buffer.isNone || decide (x.read_buffer_position ≥ x.read_buffer_size)

/-- What follows the first loop of `ttyRead`. -/
def ttyReadChunk (tty : Nat) (u_length : Int) (s : Sys) : Outcome :=
  let x := s.ttys tty
  let length := x.read_buffer_size
  let position := x.read_buffer_position
  let sub_length := if length - position > u_length then u_length else length - position
  if sub_length < 0 then .fault
  else
    let bytes := ((x.read_buffer.getD []).drop position.toNat).take sub_length.toNat
    let s := { s.setTty tty { x with read_buffer_position := position + sub_length } with
      delivered := Function.update s.delivered tty (s.delivered tty ++ bytes) }
    .ret sub_length (signalWaitQueue (.tty_read tty) s)

/-- The first loop of `ttyRead`: the result of the sleep is ignored. -/
def ttyReadLoop (tty : Nat) (u_length : Int) : List Bool → Sys → Outcome
  | false :: mallocs, s =>
    if (s.ttys tty).drained then ttyReadLoop tty u_length mallocs s else ttyReadChunk tty u_length s
  | _, s =>
    if (s.ttys tty).drained then
      .schedule (.ttyRead tty u_length) (sleepOnWaitQueue (.tty_read tty) true s)
    else ttyReadChunk tty u_length s

def ttyRead (mallocs : List Bool) (tty u_length : Int) (s : Sys) : Outcome :=
  if tty ≥ NUM_TERMINALS ∨ tty < 0 then .ret ERROR s
  else ttyReadLoop tty.toNat u_length mallocs s

/-- The line that has come in replaces the one in the buffer. -/
def ttyReadBegin (malloc : Bool) (tty : Nat) (line : List UInt8) (s : Sys) : Sys :=
  if tty ≥ NUM_TERMINALS then s
  else if !malloc then s.setTty tty { s.ttys tty with read_buffer := none }
  else
    let s := { s.setTty tty { s.ttys tty with read_buffer := some line, read_buffer_size := line.length,
                                              read_buffer_position := 0 } with
      received := Function.update s.received tty (s.received tty ++ [line]) }
    signalWaitQueue (.tty_read tty) s

/-- `TtyTransmit`: the terminal will interrupt when it has sent the bytes. -/
def TtyTransmit (tty : Nat) (bytes : List UInt8) (s : Sys) : Sys :=
  { s with
    outstanding := Function.update s.outstanding tty (s.outstanding tty + 1)
    transmitted := Function.update s.transmitted tty (s.transmitted tty ++ [bytes]) }

/-- The second loop of `ttyWrite`, and its end.  The result of the sleep is ignored. -/
def ttyWriteChunks (tty : Nat) (buffer : List UInt8) : List Bool → Nat → Sys → Outcome
  | false :: mallocs, position, s =>
    if position < buffer.length then
      ttyWriteChunks tty buffer mallocs (position + TERMINAL_MAX_LINE)
        (TtyTransmit tty ((buffer.drop position).take TERMINAL_MAX_LINE) s)
    else .ret SUCCESS (s.setTty tty { s.ttys tty with write_current := 0 })
  | _, position, s =>
    if position < buffer.length then
      .schedule (.ttyWriteChunk tty buffer (position + TERMINAL_MAX_LINE))
        (sleepOnWaitQueue (.tty_write tty) false
          (TtyTransmit tty ((buffer.drop position).take TERMINAL_MAX_LINE) s))
    else .ret SUCCESS (s.setTty tty { s.ttys tty with write_current := 0 })

/-- `ttys[tty].write_current = getCurrentProcess()->pid`. -/
def takeTurn (tty : Nat) (buffer : List UInt8) (s : Sys) : Sys :=
  { s.setTty tty { s.ttys tty with write_current := s.current } with
    messages := Function.update s.messages tty (s.messages tty ++ [buffer]) }

/-- The first loop of `ttyWrite`: the result of the sleep is ignored. -/
def ttyWriteTurn (tty : Nat) (buffer : List UInt8) : List Bool → Sys → Outcome
  | false :: mallocs, s =>
    if (s.ttys tty).write_current ≠ 0 then ttyWriteTurn tty buffer mallocs s
    else ttyWriteChunks tty buffer (false :: mallocs) 0 (takeTurn tty buffer s)
  | mallocs, s =>
    if (s.ttys tty).write_current ≠ 0 then
      .schedule (.ttyWriteTurn tty buffer) (sleepOnWaitQueue (.tty_write tty) true s)
    else ttyWriteChunks tty buffer mallocs 0 (takeTurn tty buffer s)

/-- `buffer` are the bytes at `u_buffer`.  `malloc` has no room for a negative length. -/
def ttyWrite (mallocs : List Bool) (tty length : Int) (buffer : List UInt8) (s : Sys) : Outcome :=
  if tty ≥ NUM_TERMINALS ∨ tty < 0 then .ret ERROR s
  else if mallocs.head? = some false ∨ length < 0 then .ret ERROR s
  else ttyWriteTurn tty.toNat (buffer.take length.toNat) mallocs.tail s

/-- Leading nodes that are not exclusive become exclusive. -/
def promote : List WaitQueueNode → List WaitQueueNode
  | [] => []
  | node :: rest =>
    if node.is_exclusive then node :: rest else { node with is_exclusive := true } :: promote rest

def ttyWriteFinished (tty : Nat) (s : Sys) : Sys :=
  if tty ≥ NUM_TERMINALS then s
  else signalWaitQueue (.tty_write tty) (s.setQueue (.tty_write tty) (promote (s.queue (.tty_write tty))))

/-! ## The machine -/

/-- What makes the kernel run: a system call of the running process, an interrupt, or that the
running process goes on in the kernel. -/
inductive Event where
  | fork (memory : Bool)
  | createThread (memory : Bool)
  | delay (ticks : Int)
  | exit (status : Int)
  | wait
  | joinThread (thread_id : Int)
  | mutexInitialize (malloc₁ malloc₂ : Bool)
  | mutexAcquire (mallocs : List Bool) (mutex_id : Int)
  | mutexRelease (mutex_id : Int)
  | cvarInitialize (malloc₁ malloc₂ : Bool)
  | cvarWait (mallocs : List Bool) (cvar_id mutex_id : Int)
  | cvarSignal (cvar_id : Int)
  | cvarBroadcast (cvar_id : Int)
  | ttyRead (mallocs : List Bool) (tty u_length : Int)
  | ttyWrite (mallocs : List Bool) (tty length : Int) (buffer : List UInt8)
  | clock
  | ttyReceive (malloc : Bool) (tty : Nat) (line : List UInt8)
  | ttyTransmit (tty : Nat)
  | resume (mallocs : List Bool)

/-- Where the running process goes on. -/
def resume (n : Nat) (mallocs : List Bool) (s : Sys) : Cont → Outcome
  | .user => .fault
  | .returns result => .ret result s
  | .waitForPID => waitLoop n s
  | .joinThread thread_id => joinLoop n thread_id s
  | .mutexAcquire m cvar => mutexAcquireLoop m cvar mallocs s
  | .cvarWait c mutex_id => mutexAcquire mallocs mutex_id (some c) s
  | .ttyRead tty u_length => ttyReadLoop tty u_length mallocs s
  | .ttyWriteTurn tty buffer => ttyWriteTurn tty buffer mallocs s
  | .ttyWriteChunk tty buffer position => ttyWriteChunks tty buffer mallocs position s

def handle (n : Nat) (s : Sys) : Event → Outcome
  | .fork memory => forkProcess memory s
  | .createThread memory => createThread memory s
  | .delay ticks => delayProcess ticks s
  | .exit status => killCurrentProcess n status s
  | .wait => waitForPID n s
  | .joinThread thread_id => joinThread n thread_id s
  | .mutexInitialize m₁ m₂ => mutexInitialize m₁ m₂ s
  | .mutexAcquire mallocs mutex_id => mutexAcquire mallocs mutex_id none s
  | .mutexRelease mutex_id => mutexRelease mutex_id s
  | .cvarInitialize m₁ m₂ => cvarInitialize m₁ m₂ s
  | .cvarWait mallocs cvar_id mutex_id => cvarWait mallocs cvar_id mutex_id s
  | .cvarSignal cvar_id => cvarSignal cvar_id s
  | .cvarBroadcast cvar_id => cvarBroadcast cvar_id s
  | .ttyRead mallocs tty u_length => ttyRead mallocs tty u_length s
  | .ttyWrite mallocs tty length buffer => ttyWrite mallocs tty length buffer s
  | .clock => .schedule (.returns 0) { s with elapsed_clock_ticks := long (s.elapsed_clock_ticks + 1) }
  | .ttyReceive malloc tty line => .ret 0 (ttyReadBegin malloc tty line s)
  | .ttyTransmit tty => .ret 0 (ttyWriteFinished tty
      { s with outstanding := Function.update s.outstanding tty (s.outstanding tty - 1) })
  | .resume mallocs => resume n mallocs s (s.cont s.current)

/-- What can happen: the process is in user mode, or goes on where it is in the kernel; a terminal
interrupts once for each transmission, and a line has at most `TERMINAL_MAX_LINE` bytes. -/
def Enabled (s : Sys) : Event → Prop
  | .resume _ => s.cont s.current ≠ .user
  | .ttyTransmit tty => s.cont s.current = .user ∧ tty < NUM_TERMINALS ∧ 0 < s.outstanding tty
  | .ttyReceive _ tty line =>
    s.cont s.current = .user ∧ tty < NUM_TERMINALS ∧ line.length ≤ TERMINAL_MAX_LINE
  | _ => s.cont s.current = .user

/-- The state after a handler: back in user mode, or after a switch. -/
inductive Ends : Outcome → Sys → Prop
  | ret {result : Int} {s : Sys} : Ends (.ret result s) (s.setCont s.current .user)
  | schedule {k : Cont} {s : Sys} {q : PID} (next : Schedules s q) :
      Ends (.schedule k s) { s.setCont s.current k with current := q }
  | switched {s : Sys} : Ends (.switched s) s

def Step (s : Sys) (e : Event) (s' : Sys) : Prop := Enabled s e ∧ ∃ n, Ends (handle n s e) s'

/-! ## Execution -/

instance (s : Sys) (e : Event) : Decidable (Enabled s e) :=
  match e with
  | .fork _ | .createThread _ | .delay _ | .exit _ | .wait | .joinThread _ | .mutexInitialize _ _
  | .mutexAcquire _ _ | .mutexRelease _ | .cvarInitialize _ _ | .cvarWait _ _ _ | .cvarSignal _
  | .cvarBroadcast _ | .ttyRead _ _ _ | .ttyWrite _ _ _ _ | .clock =>
    inferInstanceAs (Decidable (s.cont s.current = .user))
  | .resume _ => inferInstanceAs (Decidable (s.cont s.current ≠ .user))
  | .ttyTransmit _ => inferInstanceAs (Decidable (_ ∧ _ ∧ _))
  | .ttyReceive _ _ _ => inferInstanceAs (Decidable (_ ∧ _ ∧ _))

/-- The step that `e` leads to, if the scheduler comes to an end within `n` rounds. -/
def exec (n : Nat) (s : Sys) (e : Event) : Option Sys :=
  if Enabled s e then
    match handle n s e with
    | .ret _ s => some (s.setCont s.current .user)
    | .schedule k s => (nextProcess s n (.process_list s.current)).map fun q =>
      { s.setCont s.current k with current := q }
    | .switched s => some s
    | .fault => none
  else none

def execAll (n : Nat) : Sys → List Event → Option Sys
  | s, [] => some s
  | s, e :: es => (exec n s e).bind fun s => execAll n s es

theorem exec_step {n : Nat} {s s' : Sys} {e : Event} (h : exec n s e = some s') : Step s e s' := by
  unfold exec at h
  split at h
  · rename_i he
    refine ⟨he, n, ?_⟩
    split at h
    · rename_i ho
      cases h
      rw [ho]
      exact .ret
    · rename_i ho
      obtain ⟨q, hq, rfl⟩ := Option.map_eq_some_iff.mp h
      rw [ho]
      exact .schedule ⟨n, hq⟩
    · rename_i ho
      cases h
      rw [ho]
      exact .switched
    · cases h
  · cases h

theorem execAll_run {n : Nat} : ∀ {es : List Event} {s s' : Sys}, execAll n s es = some s' →
    Transition.Run Step s es s'
  | [], s, s', h => by
    cases h
    exact .nil
  | e :: es, s, s', h => by
    unfold execAll at h
    obtain ⟨t, ht, h⟩ := Option.bind_eq_some_iff.mp h
    exact .cons (exec_step ht) (execAll_run h)

end Yalnix.System
