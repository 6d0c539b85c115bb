import Yalnix.Process.Descriptors
import Yalnix.System.Groups

/-!
# The whole kernel

The lists, queues and terminals of `System` together with the memory of `Process`: the exit of a
process with the address spaces and kernel stacks it gives back, and the system calls that store
through a pointer of the caller.

* `killProcess`, `killCurrentProcess` — an exit, on both parts.
* `Stores` — the bytes that a handler stores through the pointer it was given.
* `Step` — the machine; a process whose page table has been freed runs no user program.
* `Step.sys` — seen without memory it takes the steps of `System`.
-/

set_option autoImplicit false

namespace Yalnix

open Yalnix.System (Sys ProcNode GroupNode TreeNode Cont)
open Transition (Run)

structure Whole where
  sys : Sys
  kernel : Kernel
  /-- The pointer given to the call a process is in. -/
  pointer : PID → Int
  /-- The page table a process had when it made that call. -/
  atCall : PID → Nat → PTE

namespace Whole

/-! ## Exits -/

/-- `freeAddressSpace(process); free(process->page_table);` -/
def freeMemory (p : PID) (m : Whole) : Option Whole :=
  (freeAddressSpace p m.kernel).toOption.map fun k =>
    { m with kernel := k.modify p fun P => { P with live := false } }

/-- `forEachElement(current, head, thread_peers)`. -/
def forEachThread (head : GroupNode) (body : PID → Whole → Option Whole) :
    Nat → GroupNode → Whole → Option Whole
  | 0, _, _ => none
  | n + 1, pos, m =>
    if pos = head then some m
    else
      match pos with
      | .thread_group _ => none
      | .thread_peers t => do
        let m ← body t m
        let m := { m with sys := m.sys.follow t }
        let next ← m.sys.groups.next (.thread_peers t)
        forEachThread head body n next m

def releaseProcess (n : Nat) (p : PID) (m : Whole) : Option Whole :=
  (System.releaseProcess n p m.sys).map fun s => { m with sys := s }

/-- `killProcess` up to the loop over the threads: the process to switch to, if `p` is the running
process, and the first thread. -/
def beginKill (n : Nat) (p : PID) (m : Whole) : Option (Option PID × GroupNode × Whole) := do
  let new_process ← (if p = m.sys.current then
    (System.nextProcess m.sys n (.process_list p)).map some else some none)
  let m ← m.freeMemory p
  let first ← m.sys.tree.next (.children p)
  let s ← System.forEachChild (.children p) (fun c s =>
    if (s.desc c).state = .ZOMBIE then System.releaseProcess n c s
    else some (s.setParent c (s.desc p).parent)) n first m.sys
  let s ← System.giveChildren p s
  let first ← s.groups.next (.thread_group p)
  some (new_process, first, { m with sys := s })

def killProcess : Nat → PID → Int → Whole → Option (Option PID × Whole)
  | 0, _, _, _ => none
  | n + 1, p, status, m =>
    if (m.sys.desc p).state = .ZOMBIE ∨ (m.sys.desc p).state = .DEAD then some (none, m)
    else do
      let (new_process, first, m) ← beginKill n p m
      let m ← forEachThread (.thread_group p) (fun t m => do
        let (_, m) ← killProcess n t (-1) m
        releaseProcess n t m) n first m
      some (new_process, { m with
        sys := m.sys.setDesc m.sys.current fun d => { d with state := .ZOMBIE, exit_status := status } })

/-- With the switch at its end. -/
def killCurrentProcess (n : Nat) (status : Int) (m : Whole) : Option Whole :=
  (killProcess n m.sys.current status m).bind fun
    | (none, m) => some { m with sys := m.sys.setCont m.sys.current .user }
    | (some q, m') => (System.killKernelContext n m.sys.current q m'.sys).map fun s =>
      { m' with sys := s, kernel := killKernelContext m.sys.current q m'.kernel }

/-! ## Stores through user pointers -/

/-- The bytes of an `int`. -/
def intBytes (x : Int) : List UInt8 :=
  (List.range 4).map fun i => UInt8.ofNat ((x % 2 ^ 32).toNat / 256 ^ i % 256)

/-- `memcpy(u_buffer, buffer, sub_length)`: the bytes it copies.  A length below 0 is a `size_t` beyond
all memory. -/
inductive Copies (s : Sys) (tty : Nat) (u_length : Int) : List UInt8 → Prop
  | chunk {sub_length : Int} (ready : (s.ttys tty).drained = false)
      (length : sub_length = min u_length
        ((s.ttys tty).read_buffer_size - (s.ttys tty).read_buffer_position)) (pos : 0 ≤ sub_length) :
      Copies s tty u_length (((s.ttys tty).read_buffer.getD []).drop
        (s.ttys tty).read_buffer_position.toNat |>.take sub_length.toNat)
  | beyond {bytes : List UInt8} (ready : (s.ttys tty).drained = false) (neg : u_length < 0)
      (length : (bytes.length : Int) = u_length % 2 ^ 32) : Copies s tty u_length bytes

/-- The zombie that the loop of `waitForPID` has come to. -/
def Takes (s : Sys) (z : PID) : Prop :=
  ∃ n pos, s.tree.next (.children s.current) = some pos ∧
    System.findZombie s (.children s.current) n pos = some (some z)

/-- What the handler that `e` starts, or that goes on, stores through the pointer. -/
inductive Stores (s : Sys) : System.Event → List UInt8 → Prop
  | wait {z : PID} (some : listIsEmpty (.children s.current) s.tree = some false) (takes : Takes s z) :
      Stores s .wait (intBytes (s.desc z).exit_status)
  | waited {mallocs : List Bool} {z : PID} (inside : s.cont s.current = .waitForPID) (takes : Takes s z) :
      Stores s (.resume mallocs) (intBytes (s.desc z).exit_status)
  | ttyRead {mallocs : List Bool} {tty u_length : Int} {bytes : List UInt8}
      (terminal : ¬ (tty ≥ NUM_TERMINALS ∨ tty < 0)) (copies : Copies s tty.toNat u_length bytes) :
      Stores s (.ttyRead mallocs tty u_length) bytes
  | ttyWoken {mallocs : List Bool} {tty : Nat} {u_length : Int} {bytes : List UInt8}
      (inside : s.cont s.current = .ttyRead tty u_length) (copies : Copies s tty u_length bytes) :
      Stores s (.resume mallocs) bytes
  | mutexInitialize :
      Stores s (.mutexInitialize true true) (intBytes ((s.max_resource_id + 1) % 2 ^ 32 : Nat))
  | cvarInitialize :
      Stores s (.cvarInitialize true true) (intBytes ((s.max_resource_id + 1) % 2 ^ 32 : Nat))

/-- Storing bytes one after the other; addresses have 32 bits. -/
def copyOut (p : PID) : Int → List UInt8 → Kernel → Option Kernel
  | _, [], k => some k
  | a, b :: bytes, k => (store k p (a % 2 ^ 32) b).bind (copyOut p (a + 1) bytes)

/-! ## The machine -/

/-- System calls of a user program, apart from those of `Act`. -/
def isCall : System.Event → Bool
  | .clock | .ttyReceive _ _ _ | .ttyTransmit _ | .resume _ => false
  | _ => true

/-- `trapClock` and `trapKernel` begin with `saveUserContext`. -/
def savesContext : System.Event → Bool
  | .ttyReceive _ _ _ | .ttyTransmit _ | .resume _ => false
  | _ => true

/-- The events that are acts of their own. -/
def isSpecial : System.Event → Bool
  | .fork _ | .createThread _ | .exit _ => true
  | _ => false

inductive Act where
  /-- A handler runs; system calls come with a pointer. -/
  | handler (e : System.Event) (context : UserContext) (pointer : Int)
  /-- `malloc₁` and `malloc₂` are the results for the descriptor and for the page table. -/
  | fork (malloc₁ malloc₂ : Bool) (context : UserContext)
  | createThread (malloc₁ malloc₂ : Bool) (context : UserContext)
  | exit (status : Int) (context : UserContext)
  | memoryTrap (context : UserContext) (address : Int)
  | setBrk (context : UserContext) (address : Int)
  | exec
  | userStore (address : Int) (byte : UInt8)

variable (m : Whole)

/-- The running process. -/
abbrev current : PID := m.sys.current

/-- The pointer of the call that the running process makes, or is in. -/
def destination (e : System.Event) (pointer : Int) : Int :=
  if isCall e then pointer else m.pointer m.current

/-- The page table of the running process when it made the call. -/
def callTable (e : System.Event) : Nat → PTE :=
  if isCall e then m.kernel.table m.current else m.atCall m.current

/-- A call begins. -/
def enter (e : System.Event) (pointer : Int) : Whole :=
  if isCall e then
    { m with
      pointer := Function.update m.pointer m.current pointer
      atCall := Function.update m.atCall m.current (m.kernel.table m.current) }
  else m

/-- Memory when the handler of `e` starts. -/
def saved (e : System.Event) (context : UserContext) : Kernel :=
  if savesContext e then saveUserContext m.current context m.kernel else m.kernel

/-- Memory after a handler, with the kernel stack of the process that runs now. -/
def switched (s : Sys) (k : Kernel) : Kernel :=
  if s.current = m.current then k else switchKernelContext s.current k

/-- The page table of the running process has not been freed. -/
def Live : Prop := (m.kernel.proc m.current).live = true

/-- The bytes have been stored, if there are any; a store that traps stops the machine. -/
inductive Written (m : Whole) (e : System.Event) (context : UserContext) (pointer : Int) : Kernel → Prop
  | nothing (nothing : ∀ bytes, ¬ Stores m.sys e bytes) : Written m e context pointer (m.saved e context)
  | bytes {bytes : List UInt8} {k : Kernel} (stores : Stores m.sys e bytes)
      (run : copyOut m.current (m.destination e pointer) bytes (m.saved e context) = some k) :
      Written m e context pointer k

inductive Step : Whole → Act → Whole → Prop
  | handler {m : Whole} {e : System.Event} {context : UserContext} {pointer : Int} {s : Sys} {k : Kernel}
      (plain : isSpecial e = false) (live : isCall e = true → m.Live) (step : System.Step m.sys e s)
      (written : Written m e context pointer k) :
      Step m (.handler e context pointer) { m.enter e pointer with sys := s, kernel := m.switched s k }
  | fork {m : Whole} {malloc₁ malloc₂ : Bool} {context : UserContext} {result : Int} {s : Sys} {k : Kernel}
      (live : m.Live) (run : forkProcess malloc₁ malloc₂ m.current
        (saveUserContext m.current context m.kernel) = .ok (result, k))
      (step : System.Step m.sys (.fork (result ≠ ERROR)) s) (descriptor : malloc₁ = true) :
      Step m (.fork malloc₁ malloc₂ context) { m with sys := s, kernel := k }
  | createThread {m : Whole} {malloc₁ malloc₂ : Bool} {context : UserContext} {result : Int} {s : Sys}
      {k : Kernel} (live : m.Live) (run : createThread malloc₁ malloc₂ m.current
        (saveUserContext m.current context m.kernel) = .ok (result, k))
      (step : System.Step m.sys (.createThread (result ≠ ERROR)) s) (descriptor : malloc₁ = true) :
      Step m (.createThread malloc₁ malloc₂ context) { m with sys := s, kernel := k }
  /-- `malloc` has no room for a descriptor: no pid is used up. -/
  | noDescriptor {m : Whole} {act : Act} {malloc₂ : Bool} {context : UserContext} (live : m.Live)
      (user : m.sys.cont m.current = .user)
      (call : act = .fork false malloc₂ context ∨ act = .createThread false malloc₂ context) :
      Step m act { m with kernel := saveUserContext m.current context m.kernel }
  | exit {m m' : Whole} {n : Nat} {status : Int} {context : UserContext} (live : m.Live)
      (user : m.sys.cont m.current = .user)
      (run : killCurrentProcess n status
        { m with kernel := saveUserContext m.current context m.kernel } = some m') :
      Step m (.exit status context) m'
  | memoryTrap {m : Whole} {context : UserContext} {address : Int} {k : Kernel} (live : m.Live)
      (user : m.sys.cont m.current = .user) (run : trapMemory m.current context address m.kernel = .ok k) :
      Step m (.memoryTrap context address) { m with kernel := k }
  | setBrk {m : Whole} {context : UserContext} {address result : Int} {k : Kernel} (live : m.Live)
      (user : m.sys.cont m.current = .user) (run : setProcessBrk m.current address
        (saveUserContext m.current context m.kernel) = .ok (result, k)) :
      Step m (.setBrk context address) { m with kernel := k }
  /-- `loadProgram` writes no descriptor but that of the caller. -/
  | exec {m : Whole} {k : Kernel} (live : m.Live) (user : m.sys.cont m.current = .user)
      (own : Elsewhere (· = m.current) m.kernel k) : Step m .exec { m with kernel := k }
  | userStore {m : Whole} {address : Int} {byte : UInt8} {k : Kernel} (live : m.Live)
      (user : m.sys.cont m.current = .user) (run : store m.kernel m.current address byte = some k) :
      Step m (.userStore address byte) { m with kernel := k }

/-- The kernel after `loadInit`, whatever program it has loaded: only process 1 has a page table. -/
structure Booted (m : Whole) : Prop where
  sys : m.sys = System.bootSys
  max_pid : m.kernel.max_pid = 1
  live : ∀ p, (m.kernel.proc p).live = true → p = 1

/-! ## Without memory -/

variable {m m' : Whole} {n : Nat} {p q : PID} {status : Int} {r : Option PID} {act : Act}

theorem freeMemory_some (h : m.freeMemory p = some m') : ∃ k, freeAddressSpace p m.kernel = .ok k ∧
    m' = { m with kernel := k.modify p fun P => { P with live := false } } := by
  obtain ⟨k, hk, rfl⟩ := Option.map_eq_some_iff.mp h
  refine ⟨k, ?_, rfl⟩
  cases hrun : freeAddressSpace p m.kernel with
  | error e =>
    rw [hrun] at hk
    cases hk
  | ok k' =>
    rw [hrun] at hk
    cases hk
    rfl

theorem releaseProcess_some (h : releaseProcess n p m = some m') : ∃ s,
    System.releaseProcess n p m.sys = some s ∧ m' = { m with sys := s } := by
  obtain ⟨s, hs, rfl⟩ := Option.map_eq_some_iff.mp h
  exact ⟨s, hs, rfl⟩

theorem freeMemory_isSome (m : Whole) (p : PID) : ∃ k, m.freeMemory p = some { m with kernel := k } := by
  unfold freeMemory
  rw [freeAddressSpace_eq]
  exact ⟨_, rfl⟩

/-- What the loop does to the lists is what the loop of `System` does. -/
theorem forEachThread_sys {head : GroupNode} {body : PID → Whole → Option Whole}
    {listBody : PID → Sys → Option Sys} (hbody : ∀ t m, (body t m).map Whole.sys = listBody t m.sys) :
    ∀ (n : Nat) (pos : GroupNode) (m : Whole),
      (forEachThread head body n pos m).map Whole.sys = System.forEachThread head listBody n pos m.sys
  | 0, _, _ => rfl
  | n + 1, pos, m => by
    unfold forEachThread System.forEachThread
    split
    · rfl
    · cases pos with
      | thread_group q => rfl
      | thread_peers t =>
        dsimp only
        rw [← hbody t m]
        cases body t m with
        | none => rfl
        | some m₁ =>
          simp only [Option.bind_eq_bind, Option.bind_some, Option.map_some]
          cases (m₁.sys.follow t).groups.next (.thread_peers t) with
          | none => rfl
          | some next => exact forEachThread_sys hbody n next { m₁ with sys := m₁.sys.follow t }

/-- **An exit does to the lists what the exit of `System` does; memory does not stop it.** -/
theorem killProcess_sys (n : Nat) (p : PID) (status : Int) (m : Whole) :
    (killProcess n p status m).map (fun x => (x.1, x.2.sys)) = System.killProcess n p status m.sys := by
  induction n generalizing p status m with
  | zero => rfl
  | succ n ih =>
    have hbody : ∀ t m, ((killProcess n t (-1) m).bind fun (_, m) => releaseProcess n t m).map Whole.sys =
        (System.killProcess n t (-1) m.sys).bind fun x => System.releaseProcess n t x.2 := by
      intro t m
      rw [← ih t (-1) m]
      cases killProcess n t (-1) m with
      | none => rfl
      | some x =>
        simp only [Option.bind_some, Option.map_some]
        unfold releaseProcess
        cases System.releaseProcess n t x.2.sys with
        | none => rfl
        | some s => rfl
    unfold killProcess System.killProcess
    split
    · rfl
    · unfold beginKill
      simp only [Option.bind_eq_bind]
      generalize (if p = m.sys.current then
        (System.nextProcess m.sys n (.process_list p)).map some else some none) = new_process
      cases new_process with
      | none => rfl
      | some new_process =>
        obtain ⟨k, hk⟩ := freeMemory_isSome m p
        simp only [Option.bind_some, hk]
        cases m.sys.tree.next (.children p) with
        | none => rfl
        | some first =>
          simp only [Option.bind_some]
          cases System.forEachChild (.children p) (fun c s =>
              if (s.desc c).state = .ZOMBIE then System.releaseProcess n c s
              else some (s.setParent c (s.desc p).parent)) n first m.sys with
          | none => rfl
          | some s₁ =>
            simp only [Option.bind_some]
            cases System.giveChildren p s₁ with
            | none => rfl
            | some s₂ =>
              simp only [Option.bind_some]
              cases s₂.groups.next (.thread_group p) with
              | none => rfl
              | some first' =>
                simp only [Option.bind_some]
                have hthreads := @forEachThread_sys (.thread_group p) _ (fun t s =>
                  (System.killProcess n t (-1) s).bind fun x => System.releaseProcess n t x.2)
                  hbody n first' { m with sys := s₂, kernel := k }
                refine Eq.trans ?_ (congrArg (Option.bind · _) hthreads)
                cases forEachThread (.thread_group p) (fun t m =>
                    (killProcess n t (-1) m).bind fun (_, m) => releaseProcess n t m) n first'
                    { m with sys := s₂, kernel := k } with
                | none => rfl
                | some m₃ => rfl

theorem killProcess_lists (h : killProcess n p status m = some (r, m')) :
    System.killProcess n p status m.sys = some (r, m'.sys) := by
  rw [← killProcess_sys, h]
  rfl

theorem killProcess_of_lists {s : Sys} (h : System.killProcess n p status m.sys = some (r, s)) :
    ∃ m', killProcess n p status m = some (r, m') ∧ m'.sys = s := by
  rw [← killProcess_sys] at h
  obtain ⟨⟨r', m'⟩, hm', heq⟩ := Option.map_eq_some_iff.mp h
  cases heq
  exact ⟨m', hm', rfl⟩

theorem beginKill_some {new_process : Option PID} {first' : GroupNode}
    (h : beginKill n p m = some (new_process, first', m')) : ∃ first s₁,
      (if p = m.sys.current then (System.nextProcess m.sys n (.process_list p)).map some else some none) =
        some new_process ∧
      m.sys.tree.next (.children p) = some first ∧
      System.forEachChild (.children p) (fun c s =>
        if (s.desc c).state = .ZOMBIE then System.releaseProcess n c s
        else some (s.setParent c (s.desc p).parent)) n first m.sys = some s₁ ∧
      System.giveChildren p s₁ = some m'.sys ∧ m'.sys.groups.next (.thread_group p) = some first' := by
  obtain ⟨next, hnew, h⟩ := Option.bind_eq_some_iff.mp h
  obtain ⟨m₁, h₁, h⟩ := Option.bind_eq_some_iff.mp h
  obtain ⟨k, -, rfl⟩ := freeMemory_some h₁
  obtain ⟨first, hfirst, h⟩ := Option.bind_eq_some_iff.mp h
  obtain ⟨s₁, hs₁, h⟩ := Option.bind_eq_some_iff.mp h
  obtain ⟨s₂, hs₂, h⟩ := Option.bind_eq_some_iff.mp h
  obtain ⟨first', hfirst', h⟩ := Option.bind_eq_some_iff.mp h
  cases h
  exact ⟨first, s₁, hnew, hfirst, hs₁, hs₂, hfirst'⟩

theorem killCurrentProcess_sys (h : killCurrentProcess n status m = some m') :
    System.Ends (System.killCurrentProcess n status m.sys) m'.sys := by
  obtain ⟨⟨r, m₁⟩, hk, h⟩ := Option.bind_eq_some_iff.mp h
  unfold System.killCurrentProcess
  rw [killProcess_lists hk]
  cases r with
  | none =>
    cases h
    exact .ret
  | some q =>
    obtain ⟨s, hs, rfl⟩ := Option.map_eq_some_iff.mp h
    dsimp only
    rw [hs]
    exact .switched

/-- Seen without memory, an act is a step of `System`, or changes nothing. -/
theorem Step.sys (h : Step m act m') : m'.sys = m.sys ∨ ∃ e, System.Step m.sys e m'.sys := by
  cases h with
  | @handler e context pointer s k plain live step written => exact .inr ⟨e, step⟩
  | fork live run step descriptor => exact .inr ⟨_, step⟩
  | createThread live run step descriptor => exact .inr ⟨_, step⟩
  | noDescriptor live user call => exact .inl rfl
  | @exit _ n status context live user run =>
    have hend := killCurrentProcess_sys run
    exact .inr ⟨.exit status, user, n, hend⟩
  | memoryTrap live user run => exact .inl rfl
  | setBrk live user run => exact .inl rfl
  | exec live user own => exact .inl rfl
  | userStore live user run => exact .inl rfl

/-- **A run of the whole kernel is one of `System`.** -/
theorem run_sys {acts : List Act} (h : Run Step m acts m') :
    ∃ es, Run System.Step m.sys es m'.sys := by
  induction h with
  | nil => exact ⟨[], .nil⟩
  | cons head _ ih =>
    obtain ⟨es, hes⟩ := ih
    rcases head.sys with heq | ⟨e, he⟩
    · rw [heq] at hes
      exact ⟨es, hes⟩
    · exact ⟨e :: es, .cons he hes⟩

end Whole

end Yalnix
