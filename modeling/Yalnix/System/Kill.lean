import Yalnix.System.State

/-!
# Scheduling and exit

`schedule` of `switch.c`, and `kill.c` with the part of `killKernelContext` that is not about frames.
Loops and recursion carry the number of rounds they may take; `none` is what goes on for longer, and
what follows a link into a list of another kind.
-/

set_option autoImplicit false

namespace Yalnix.System

/-! ## The scheduler -/

/-- The process can be switched to. -/
def Sys.eligible (s : Sys) (p : PID) : Prop :=
  (s.desc p).state = .RUNNING ∧ (s.desc p).wake_up_time ≤ s.elapsed_clock_ticks

instance (s : Sys) (p : PID) : Decidable (s.eligible p) := inferInstanceAs (Decidable (_ ∧ _))

/-- The loop that `schedule` and `killProcess` share: the first process after `node` that can be
switched to. -/
def nextProcess (s : Sys) : Nat → ProcNode → Option PID
  | 0, _ => none
  | n + 1, node =>
    match s.procs.next node with
    | none => none
    | some .process_head => nextProcess s n .process_head
    | some (.process_list p) => if s.eligible p then some p else nextProcess s n (.process_list p)

/-- `schedule()` switches from the running process to `q`. -/
def Schedules (s : Sys) (q : PID) : Prop := ∃ n, nextProcess s n (.process_list s.current) = some q

theorem nextProcess_eligible {s : Sys} {q : PID} :
    ∀ {n : Nat} {node : ProcNode}, nextProcess s n node = some q → s.eligible q
  | 0, _, h => by cases h
  | n + 1, node, h => by
    unfold nextProcess at h
    split at h
    · cases h
    · exact nextProcess_eligible h
    · split at h
      · rename_i he
        cases h
        exact he
      · exact nextProcess_eligible h

theorem Schedules.eligible {s : Sys} {q : PID} (h : Schedules s q) : s.eligible q :=
  let ⟨_, h⟩ := h
  nextProcess_eligible h

/-! ## Walks -/

/-- Before a field of `p` is read. -/
def Sys.follow (s : Sys) (p : PID) : Sys :=
  if (s.desc p).allocated then s else { s with stale_read := true }

theorem Sys.follow_same (s : Sys) (p : PID) :
    s.follow p = { s with stale_read := (s.follow p).stale_read } := by
  unfold Sys.follow
  split <;> rfl

theorem Sys.follow_desc (s : Sys) (p : PID) : (s.follow p).desc = s.desc := by rw [s.follow_same p]

theorem Sys.follow_groups (s : Sys) (p : PID) : (s.follow p).groups = s.groups := by
  rw [s.follow_same p]

/-- `forEachElement(current, head, siblings)`. -/
def forEachChild (head : TreeNode) (body : PID → Sys → Option Sys) :
    Nat → TreeNode → Sys → Option Sys
  | 0, _, _ => none
  | n + 1, pos, s =>
    if pos = head then some s
    else
      match pos with
      | .children _ => none
      | .siblings p => do
        let s ← body p s
        let s := s.follow p
        let next ← s.tree.next (.siblings p)
        forEachChild head body n next s

/-- `forEachElement(current, head, thread_peers)`. -/
def forEachThread (head : GroupNode) (body : PID → Sys → Option Sys) :
    Nat → GroupNode → Sys → Option Sys
  | 0, _, _ => none
  | n + 1, pos, s =>
    if pos = head then some s
    else
      match pos with
      | .thread_group _ => none
      | .thread_peers p => do
        let s ← body p s
        let s := s.follow p
        let next ← s.groups.next (.thread_peers p)
        forEachThread head body n next s

/-! ## `kill.c` -/

/-- `current->parent = parent`. -/
def Sys.setParent (s : Sys) (p : PID) (parent : Option PID) : Sys :=
  s.setDesc p fun d => { d with parent := parent }

/-- The first element of the process list. -/
def getIdleProcess (s : Sys) : Option PID :=
  match s.procs.next .process_head with
  | some (.process_list p) => some p
  | _ => none

/-- The end of `releaseProcess`: the descriptor is taken off its lists and freed. -/
def freeDescriptor (p : PID) (s : Sys) : Option Sys := do
  let idle ← getIdleProcess s
  let tree ← spliceLinkedLists (.children p) (.children idle) s.tree
  let tree ← removeNode (.children p) tree
  let tree ← removeNode (.siblings p) tree
  let procs ← removeNode (.process_list p) s.procs
  some ({ s with tree := tree, procs := procs }.setDesc p fun d => { d with allocated := false })

def releaseProcess : Nat → PID → Sys → Option Sys
  | 0, _, _ => none
  | n + 1, p, s => do
    let first ← s.tree.next (.children p)
    let s ← forEachChild (.children p) (fun c s =>
      (if (s.desc c).state = .ZOMBIE then releaseProcess n c s else some s).map
        fun s => s.setParent c (s.desc p).parent) n first s
    freeDescriptor p s

/-- Give the children of `p` to its parent; the address `&process->parent->children` is only used
when there are some. -/
def giveChildren (p : PID) (s : Sys) : Option Sys := do
  let empty ← listIsEmpty (.children p) s.tree
  if empty then some s
  else
    let parent ← (s.desc p).parent
    let tree ← spliceLinkedLists (.children p) (.children parent) s.tree
    some { s with tree := tree }

/-- Returns the process to switch to, if `p` is the running process.  What it does to the address
space of `p` is left to the memory model. -/
def killProcess : Nat → PID → Int → Sys → Option (Option PID × Sys)
  | 0, _, _, _ => none
  | n + 1, p, status, s =>
    if (s.desc p).state = .ZOMBIE ∨ (s.desc p).state = .DEAD then some (none, s)
    else do
      let new_process ←
        (if p = s.current then (nextProcess s n (.process_list p)).map some else some none)
      let first ← s.tree.next (.children p)
      let s ← forEachChild (.children p) (fun c s =>
        if (s.desc c).state = .ZOMBIE then releaseProcess n c s
        else some (s.setParent c (s.desc p).parent)) n first s
      let s ← giveChildren p s
      let first ← s.groups.next (.thread_group p)
      let s ← forEachThread (.thread_group p) (fun t s => do
        let (_, s) ← killProcess n t (-1) s
        releaseProcess n t s) n first s
      some (new_process, s.setDesc s.current fun d => { d with state := .ZOMBIE, exit_status := status })

/-- The switch at the end of an exit, and what becomes of the descriptor. -/
def killKernelContext (n : Nat) (pa pb : PID) (s : Sys) : Option Sys :=
  let s := { s with current := pb }
  if (s.desc pa).thread_leader = none then do
    let parent ← (s.desc pa).parent
    if parent = 1 then releaseProcess n pa s else some s
  else some s

end Yalnix.System
