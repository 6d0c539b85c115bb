import Yalnix.System.Culled
import Yalnix.System.Waking

/-!
# What a step can do

* `Objects` — mutexes and condition variables that are not yet made are as new.
* `Quiet` — a change of processes and resources that no wait queue, mutex or terminal is part of.
* `Acquire`, `Writing`, `Effect` — what the handlers can do, with the point where the process goes on.
* `handle_effect` — no handler, but that of `Exit`, does anything else.
* `Step.leads` — so for a step.
-/

set_option autoImplicit false

namespace Yalnix.System

variable {s s' s₁ : Sys} {n : Nat} {p q : PID} {e : Event} {k : Cont} {mallocs : List Bool}

/-! ## Objects -/

structure Objects (s : Sys) : Prop where
  resources : ∀ r ∈ s.resources, ∀ m, r.location = some m → m < s.objects
  acquiring : ∀ p m cvar, s.cont p = .mutexAcquire m cvar → m < s.objects
  waiting : ∀ p c id, s.cont p = .cvarWait c id → c < s.objects
  mutex : ∀ m, s.objects ≤ m → s.mutex m = ⟨false, none⟩
  queue : ∀ m, s.objects ≤ m → s.queue (.mutex m) = [] ∧ s.queue (.cvar m) = []

theorem getResourceWithID_mem {id : Int} {type : ResourceType} {r : Resource}
    (h : getResourceWithID id type s = some r) : r ∈ s.resources := by
  unfold getResourceWithID at h
  split at h
  · rename_i x hx
    split at h
    · cases h
      exact List.mem_of_find?_eq_some hx
    · cases h
  · cases h

theorem Objects.location (h : Objects s) {id : Int} {type : ResourceType} {r : Resource} {m : Nat}
    (hr : getResourceWithID id type s = some r) (hm : r.location = some m) : m < s.objects :=
  h.resources r (getResourceWithID_mem hr) m hm

/-! ## Effects -/

/-- The calls of `malloc` for nodes of wait queues. -/
def Event.nodes : Event → List Bool
  | .mutexAcquire mallocs _ => mallocs
  | .cvarWait mallocs _ _ => mallocs
  | .ttyRead mallocs _ _ => mallocs
  | .ttyWrite mallocs _ _ _ => mallocs.tail
  | .resume mallocs => mallocs
  | _ => []

/-- The lists of processes and what they are made of are the same. -/
structure SameLists (s s' : Sys) : Prop where
  procs : s'.procs = s.procs
  tree : s'.tree = s.tree
  reaped : s'.reaped = s.reaped
  desc : ∀ q, (s'.desc q).allocated = (s.desc q).allocated ∧ (s'.desc q).parent = (s.desc q).parent ∧
    (s'.desc q).exit_status = (s.desc q).exit_status

/-- The running process is in the loop of `waitForPID`, or enters it. -/
def Waits (s : Sys) (e : Event) : Prop :=
  e = .wait ∨ (∃ mallocs, e = .resume mallocs) ∧ s.cont s.current = .waitForPID

/-- The running process is in the loop of `joinThread`, or enters it. -/
def Joins (s : Sys) (e : Event) (thread_id : Int) : Prop :=
  e = .joinThread thread_id ∨
    (∃ mallocs, e = .resume mallocs) ∧ s.cont s.current = .joinThread thread_id

/-- The running process releases a child, or a thread, that has exited. -/
inductive Reaps (s : Sys) (e : Event) : Sys → Prop
  | child (call : Waits s e) {n m : Nat} {z : PID} {pos : TreeNode} {s₁ : Sys}
      (first : s.tree.next (.children s.current) = some pos)
      (found : findZombie s (.children s.current) m pos = some (some z))
      (run : releaseProcess n z s = some s₁) :
      Reaps s e { s₁ with reaped := s.reaped ++ [(z, s.current, (s.desc z).exit_status)] }
  | thread {thread_id : Int} (call : Joins s e thread_id) {n m : Nat} {z : PID} {pos : GroupNode}
      {stale_read : Bool} {s₁ : Sys} (first : s.groups.next (.thread_group s.current) = some pos)
      (found : findThread (.thread_group s.current) thread_id m pos s =
        some (some z, { s with stale_read := stale_read }))
      (run : releaseProcess n z { s with stale_read := stale_read } = some s₁) : Reaps s e s₁

/-- There is a reason for the running process to be in the loop of `waitForPID`. -/
def Expects (s : Sys) : Prop :=
  s.cont s.current = .waitForPID ∨ listIsEmpty (.children s.current) s.tree = some false

/-- What no wait queue, mutex or terminal is part of. -/
structure Quiet (s : Sys) (e : Event) (s' : Sys) : Prop where
  same : s' = { s with
    desc := s'.desc
    procs := s'.procs
    tree := s'.tree
    stale_read := s'.stale_read
    reaped := s'.reaped
    elapsed_clock_ticks := s'.elapsed_clock_ticks
    resources := s'.resources
    objects := s'.objects
    max_resource_id := s'.max_resource_id }
  leader : ∀ q, (s'.desc q).thread_leader = (s.desc q).thread_leader
  state : ∀ q, (s'.desc q).state = (s.desc q).state
  allocated : ∀ q, (s'.desc q).allocated = (s.desc q).allocated ∨
    (s'.desc q).allocated = false ∧ (s.desc q).state = .ZOMBIE
  lists : SameLists s s' ∨ Reaps s e s'
  wake : ∀ q, q ≠ s.current ∨ (∀ ticks, e ≠ .delay ticks) →
    (s'.desc q).wake_up_time = (s.desc q).wake_up_time
  clock : s'.elapsed_clock_ticks = s.elapsed_clock_ticks ∨
    e = .clock ∧ s'.elapsed_clock_ticks = long (s.elapsed_clock_ticks + 1)
  objects : s.objects ≤ s'.objects
  resources : ∀ r ∈ s'.resources, r ∈ s.resources ∨ ∀ m, r.location = some m → m < s'.objects

/-- Whether a released descriptor has been read is part of nothing else. -/
theorem Quiet.read (s : Sys) (e : Event) (stale_read : Bool) :
    Quiet s e { s with stale_read := stale_read } :=
  ⟨rfl, fun _ => rfl, fun _ => rfl, fun _ => .inl rfl, .inl ⟨rfl, rfl, rfl, fun _ => ⟨rfl, rfl, rfl⟩⟩,
    fun _ _ => rfl, .inl rfl, le_refl _, fun _ hr => .inl hr⟩

theorem Quiet.refl (s : Sys) (e : Event) : Quiet s e s := Quiet.read s e s.stale_read

/-- The identifier is that of the object `m`. -/
def Located (s : Sys) (id : Int) (type : ResourceType) (m : Nat) : Prop :=
  ∃ r, getResourceWithID id type s = some r ∧ r.location = some m

theorem Located.unique {id : Int} {type : ResourceType} {m₁ m₂ : Nat} (h₁ : Located s id type m₁)
    (h₂ : Located s id type m₂) : m₁ = m₂ := by
  obtain ⟨r, hr, hm₁⟩ := h₁
  obtain ⟨r', hr', hm₂⟩ := h₂
  rw [hr, Option.some.injEq] at hr'
  subst hr'
  rw [hm₁, Option.some.injEq] at hm₂
  exact hm₂

/-- The event calls `mutexRelease` on `m`. -/
def Releases (s : Sys) (m : Nat) : Event → Prop
  | .mutexRelease mutex_id => Located s mutex_id .RESOURCE_MUTEX m
  | .cvarWait _ cvar_id mutex_id =>
    (getResourceWithID cvar_id .RESOURCE_CVAR s).isSome ∧ Located s mutex_id .RESOURCE_MUTEX m
  | _ => False

/-- What `mutexAcquire` can do once it has found the mutex. -/
inductive Acquire (m : Nat) (s : Sys) : Cont → Sys → Prop
  | again (owner : (s.mutex m).current_owner = some s.current) :
      Acquire m s .user { s with locks := s.locks ++ [.acquired s.current m] }
  | take (unlocked : (s.mutex m).locked = false) : Acquire m s .user (takeMutex m s)
  | block (cvar : Option Nat) (locked : (s.mutex m).locked = true) :
      Acquire m s (.mutexAcquire m cvar) (sleepOnWaitQueue (.mutex m) true s)

/-- How far `ttyWrite` can have come, with the position of the next chunk. -/
inductive Writing (s : Sys) (e : Event) (tty : Nat) (buffer : List UInt8) : Nat → Sys → Prop
  | resumed {position : Nat} (cont : s.cont s.current = .ttyWriteChunk tty buffer position) :
      Writing s e tty buffer position s
  | turn (free : (s.ttys tty).write_current = 0) :
      Writing s e tty buffer 0 (takeTurn tty buffer s)
  | failed {position : Nat} {s₁ : Sys} (writing : Writing s e tty buffer position s₁)
      (malloc : false ∈ e.nodes) (more : position < buffer.length) :
      Writing s e tty buffer (position + TERMINAL_MAX_LINE)
        (TtyTransmit tty ((buffer.drop position).take TERMINAL_MAX_LINE) s₁)

/-- What a handler can do, and where the process goes on. -/
inductive Effect (s : Sys) (e : Event) : Cont → Sys → Prop
  | quiet {k : Cont} {s' : Sys} (quiet : Quiet s e s') (queue : k.queue = none)
      (listed : k = .user ∨ s'.procs = s.procs)
      (waits : k = .waitForPID → s' = s ∧ Expects s) : Effect s e k s'
  | noMemory : Effect s e .user { s with max_pid := s.max_pid + 1 }
  | fork {s₁ : Sys} {tree : Ring.Heap TreeNode} {procs : Ring.Heap ProcNode}
      (leader : (s.desc s.current).thread_leader = none)
      (made : s₁ = Sys.newProcess { s with max_pid := s.max_pid + 1 } (s.max_pid + 1)
        { newDescriptor with parent := some s.current })
      (child : addLastNode (.siblings (s.max_pid + 1)) (.children s.current) s₁.tree = some tree)
      (listed : addLastNode (.process_list (s.max_pid + 1)) .process_head s₁.procs = some procs) :
      Effect s e .user { s₁ with tree := tree, procs := procs }
  | createThread {s₁ : Sys} {groups : Ring.Heap GroupNode} {procs : Ring.Heap ProcNode}
      (leader : (s.desc s.current).thread_leader = none)
      (made : s₁ = Sys.newProcess { s with max_pid := s.max_pid + 1 } (s.max_pid + 1)
        { newDescriptor with thread_leader := some s.current })
      (peer : addLastNode (.thread_peers (s.max_pid + 1)) (.thread_group s.current) s₁.groups =
        some groups)
      (listed : insertNode (.process_list (s.max_pid + 1)) (.process_list s.current) s₁.procs =
        some procs) :
      Effect s e .user { s₁ with groups := groups, procs := procs }
  | acquire {m : Nat} {k : Cont} {s' : Sys} (made : m < s.objects) (acquire : Acquire m s k s') :
      Effect s e k s'
  | release {m : Nat} (event : Releases s m e) (made : m < s.objects) :
      Effect s e .user (openMutex m s)
  | cvarWait {m c : Nat} {mallocs : List Bool} {cvar_id : Int} (mutex_id : Int)
      (call : e = .cvarWait mallocs cvar_id mutex_id) (located : Located s cvar_id .RESOURCE_CVAR c)
      (event : Releases s m e) (made : m < s.objects) (cmade : c < s.objects) :
      Effect s e (.cvarWait c mutex_id) (sleepOnWaitQueue (.cvar c) true (openMutex m s))
  | waitFails {m m' : Nat} {k : Cont} {s' : Sys} (event : Releases s m' e) (made : m < s.objects)
      (made' : m' < s.objects) (malloc : false ∈ e.nodes)
      (acquire : Acquire m (openMutex m' s) k s') : Effect s e k s'
  | signal {c : Nat} {cvar_id : Int} (exclusive : Bool)
      (call : e = if exclusive then .cvarSignal cvar_id else .cvarBroadcast cvar_id)
      (located : Located s cvar_id .RESOURCE_CVAR c) :
      Effect s e .user (signalWaitQueueWithOptions (.cvar c) exclusive s)
  | readSleep {tty : Nat} (u_length : Int) (drained : (s.ttys tty).drained = true) :
      Effect s e (.ttyRead tty u_length) (sleepOnWaitQueue (.tty_read tty) true s)
  | read {tty : Nat} {u_length : Int} {result : Int} {s' : Sys}
      (ready : (s.ttys tty).drained = false)
      (run : ttyReadChunk tty u_length s = .ret result s') : Effect s e .user s'
  | receive {malloc : Bool} {tty : Nat} {line : List UInt8} (event : e = .ttyReceive malloc tty line) :
      Effect s e .user (ttyReadBegin malloc tty line s)
  | turnSleep {tty : Nat} (buffer : List UInt8) (busy : (s.ttys tty).write_current ≠ 0) :
      Effect s e (.ttyWriteTurn tty buffer) (sleepOnWaitQueue (.tty_write tty) true s)
  | writeSleep {tty position : Nat} {buffer : List UInt8} {s₁ : Sys}
      (writing : Writing s e tty buffer position s₁) (more : position < buffer.length) :
      Effect s e (.ttyWriteChunk tty buffer (position + TERMINAL_MAX_LINE))
        (sleepOnWaitQueue (.tty_write tty) false
          (TtyTransmit tty ((buffer.drop position).take TERMINAL_MAX_LINE) s₁))
  | writeEnd {tty position : Nat} {buffer : List UInt8} {s₁ : Sys}
      (writing : Writing s e tty buffer position s₁) (done : buffer.length ≤ position) :
      Effect s e .user (s₁.setTty tty { s₁.ttys tty with write_current := 0 })
  | finished {tty : Nat} (event : e = .ttyTransmit tty) :
      Effect s e .user (ttyWriteFinished tty
        { s with outstanding := Function.update s.outstanding tty (s.outstanding tty - 1) })

/-- Where the process goes on and the state, as the handler leaves them; it does not switch away
from an exiting process. -/
def Outcome.Has (P : Cont → Sys → Prop) : Outcome → Prop
  | .ret _ s => P .user s
  | .schedule k s => k ≠ .user ∧ P k s
  | .switched _ => False
  | .fault => True

/-! ## Handlers of processes -/

theorem forkProcess_effect (memory : Bool) (s : Sys) (e : Event) :
    (forkProcess memory s).Has (Effect s e) := by
  unfold forkProcess
  split
  · exact .quiet (Quiet.refl s _) rfl (.inr rfl) (by simp)
  · rename_i hleader
    rw [Option.not_isSome_iff_eq_none] at hleader
    split
    · exact .quiet (Quiet.refl s _) rfl (.inr rfl) (by simp)
    · dsimp only
      split
      · exact .noMemory
      · split
        · rename_i tree procs htree hprocs
          exact .fork hleader rfl htree hprocs
        · exact True.intro

theorem createThread_effect (memory : Bool) (s : Sys) (e : Event) :
    (createThread memory s).Has (Effect s e) := by
  unfold createThread
  split
  · exact .quiet (Quiet.refl s _) rfl (.inr rfl) (by simp)
  · rename_i hleader
    rw [Option.not_isSome_iff_eq_none] at hleader
    split
    · exact .quiet (Quiet.refl s _) rfl (.inr rfl) (by simp)
    · dsimp only
      split
      · exact .noMemory
      · split
        · rename_i groups procs hgroups hprocs
          exact .createThread hleader rfl hgroups hprocs
        · exact True.intro

theorem delayProcess_effect (ticks : Int) (s : Sys) (he : e = .delay ticks) :
    (delayProcess ticks s).Has (Effect s e) := by
  unfold delayProcess
  split
  · exact .quiet (Quiet.refl s _) rfl (.inr rfl) (by simp)
  · split
    · exact .quiet (Quiet.refl s _) rfl (.inr rfl) (by simp)
    · refine ⟨nofun, .quiet ⟨rfl, fun q => ?_, fun q => ?_, fun q => .inl ?_,
        .inl ⟨rfl, rfl, rfl, fun q => ⟨?_, ?_, ?_⟩⟩, fun q hq => ?_, .inl rfl, le_refl _,
        fun _ hr => .inl hr⟩ rfl (.inr rfl) (by simp)⟩
      rotate_right 1
      · have hne : q ≠ s.current := hq.resolve_right fun hnot => hnot ticks he
        unfold Sys.setDesc
        simp only [Function.update_of_ne hne]
      all_goals
        unfold Sys.setDesc
        rcases eq_or_ne q s.current with rfl | hq
        · simp only [Function.update_self]
        · simp only [Function.update_of_ne hq]

theorem Released.quiet (h : Released (fun q => (s.desc q).state = .ZOMBIE) s s')
    (reaped : List (PID × PID × Int)) (hreaps : Reaps s e { s' with reaped := reaped }) :
    Quiet s e { s' with reaped := reaped } := by
  have hsame := h.same
  refine ⟨?_, fun q => (h.desc q).leader, fun q => (h.desc q).state, fun q => ?_, .inr hreaps,
    fun q _ => (h.desc q).wake, .inl ?_, ?_, fun r hr => ?_⟩
  · rw [hsame]
    rfl
  · rcases (h.desc q).allocated with ha | ⟨ha, hz | hz⟩
    · exact .inl ha
    · exact .inr ⟨ha, hz⟩
    · exact .inr ⟨ha, hz⟩
  · rw [hsame]
    rfl
  · rw [hsame]
    exact le_refl _
  · rw [hsame] at hr
    exact .inl hr

theorem findZombie_zombie {head : TreeNode} :
    ∀ {n : Nat} {pos : TreeNode}, findZombie s head n pos = some (some p) →
      (s.desc p).state = .ZOMBIE
  | 0, _, h => by cases h
  | n + 1, pos, h => by
    unfold findZombie at h
    split at h
    · cases h
    · cases pos with
      | children q => cases h
      | siblings q =>
        dsimp only at h
        split at h
        · rename_i hz
          cases h
          exact hz
        · obtain ⟨next, -, h⟩ := Option.bind_eq_some_iff.mp h
          exact findZombie_zombie h

/-- **A search of a list of threads finds a zombie of that pid, and changes nothing; it may read
descriptors that have been released.** -/
theorem findThread_spec {head : GroupNode} {thread_id : Int} :
    ∀ {n : Nat} {pos : GroupNode} {s s₁ : Sys} {o : Option PID},
      findThread head thread_id n pos s = some (o, s₁) →
      s₁ = { s with stale_read := s₁.stale_read } ∧
        ∀ p, o = some p → (s.desc p).state = .ZOMBIE ∧ (p : Int) = thread_id
  | 0, _, _, _, _, h => by cases h
  | n + 1, pos, s, s₁, o, h => by
    unfold findThread at h
    split at h
    · cases h
      exact ⟨rfl, nofun⟩
    · cases pos with
      | thread_group q => cases h
      | thread_peers q =>
        dsimp only at h
        split at h
        · rename_i hz
          rw [s.follow_desc] at hz
          cases h
          refine ⟨s.follow_same q, fun p hp => ?_⟩
          cases hp
          exact hz
        · obtain ⟨next, -, h⟩ := Option.bind_eq_some_iff.mp h
          obtain ⟨hsame, hfound⟩ := findThread_spec h
          rw [s.follow_desc] at hfound
          refine ⟨?_, hfound⟩
          rw [hsame, s.follow_same q]

theorem findThread_same {head : GroupNode} {thread_id : Int} {pos : GroupNode} {o : Option PID}
    (h : findThread head thread_id n pos s = some (o, s₁)) :
    ∃ stale_read, s₁ = { s with stale_read := stale_read } :=
  ⟨_, (findThread_spec h).1⟩

theorem findThread_zombie {head : GroupNode} {thread_id : Int} {pos : GroupNode}
    (h : findThread head thread_id n pos s = some (some p, s₁)) : (s.desc p).state = .ZOMBIE :=
  ((findThread_spec h).2 p rfl).1

theorem Reaps.zombie (h : Reaps s e s') : ∃ z, (s.desc z).state = .ZOMBIE := by
  cases h with
  | child _ _ found _ => exact ⟨_, findZombie_zombie found⟩
  | thread _ _ found _ => exact ⟨_, findThread_zombie found⟩

/-- Releasing a zombie releases zombies only. -/
theorem releaseProcess_zombies (hz : (s.desc p).state = .ZOMBIE)
    (h : releaseProcess n p s = some s') : Released (fun q => (s.desc q).state = .ZOMBIE) s s' :=
  (releaseProcess_released h).mono fun q hq => by
    subst hq
    exact .inl hz

theorem waitLoop_effect (n : Nat) (hcall : Waits s e) (hexpects : Expects s) : (waitLoop n s).Has (Effect s e) := by
  unfold waitLoop
  split
  · exact True.intro
  · exact ⟨nofun, .quiet (Quiet.refl s _) rfl (.inr rfl) fun _ => ⟨rfl, hexpects⟩⟩
  · rename_i p hp
    obtain ⟨first, hfirst, hp⟩ := Option.bind_eq_some_iff.mp hp
    split
    · exact True.intro
    · rename_i s' hs'
      have hz := findZombie_zombie hp
      exact .quiet ((releaseProcess_zombies hz hs').quiet _ (.child hcall hfirst hp hs')) rfl (.inl rfl) (by simp)

theorem waitForPID_effect (n : Nat) (hcall : Waits s e) : (waitForPID n s).Has (Effect s e) := by
  unfold waitForPID
  split
  · exact True.intro
  · exact .quiet (Quiet.refl s _) rfl (.inr rfl) (by simp)
  · rename_i hsome
    exact waitLoop_effect n hcall (.inr hsome)

theorem joinLoop_effect (n : Nat) {thread_id : Int} (hcall : Joins s e thread_id) :
    (joinLoop n thread_id s).Has (Effect s e) := by
  unfold joinLoop
  split
  · exact True.intro
  · rename_i s₁ hp
    obtain ⟨first, -, hp⟩ := Option.bind_eq_some_iff.mp hp
    obtain ⟨stale_read, rfl⟩ := findThread_same hp
    exact ⟨nofun, .quiet (Quiet.read s _ _) rfl (.inr rfl) (by simp)⟩
  · rename_i p s₁ hp
    obtain ⟨first, hfirst, hp⟩ := Option.bind_eq_some_iff.mp hp
    obtain ⟨stale_read, rfl⟩ := findThread_same hp
    split
    · exact True.intro
    · rename_i s' hs'
      have hz := findThread_zombie hp
      have hreaps : Reaps s e s' := .thread hcall hfirst hp hs'
      have hreleased := (releaseProcess_zombies (s := { s with stale_read := stale_read }) hz hs').unread
      exact .quiet (hreleased.quiet s'.reaped hreaps) rfl (.inl rfl) (by simp)

theorem joinThread_effect (n : Nat) {thread_id : Int} (hcall : Joins s e thread_id) :
    (joinThread n thread_id s).Has (Effect s e) := by
  unfold joinThread
  split
  · exact True.intro
  · exact .quiet (Quiet.refl s _) rfl (.inr rfl) (by simp)
  · exact joinLoop_effect n hcall

/-! ## Handlers of mutexes and condition variables -/

theorem Quiet.resource (id : Nat) (type : ResourceType) (location : Option Nat) (s : Sys) {objects : Nat}
    (hle : s.objects ≤ objects) (hm : ∀ m, location = some m → m < objects) :
    Quiet s e { s with
      max_resource_id := id
      resources := s.resources ++ [⟨id, type, location⟩]
      objects := objects } := by
  refine ⟨rfl, fun _ => rfl, fun _ => rfl, fun _ => .inl rfl,
    .inl ⟨rfl, rfl, rfl, fun _ => ⟨rfl, rfl, rfl⟩⟩, fun _ _ => rfl, .inl rfl, hle, fun r hr => ?_⟩
  rcases List.mem_append.mp hr with hr | hr
  · exact .inl hr
  · rw [List.mem_singleton] at hr
    subst hr
    exact .inr hm

/-- An object that is made is as new already. -/
theorem mutexInitialize_effect (hs : Objects s) (malloc₁ malloc₂ : Bool) (e : Event) :
    (mutexInitialize malloc₁ malloc₂ s).Has (Effect s e) := by
  unfold mutexInitialize initializeResource
  cases malloc₁ with
  | false => exact .quiet (Quiet.refl s _) rfl (.inr rfl) (by simp)
  | true =>
    cases malloc₂ with
    | false =>
      exact .quiet (Quiet.resource _ _ none s (le_refl _) fun m hm => by cases hm) rfl
        (.inl rfl) (by simp)
    | true =>
      refine .quiet ?_ rfl (.inl rfl) (by simp)
      have hq := Quiet.resource (e := e) ((s.max_resource_id + 1) % 2 ^ 32) .RESOURCE_MUTEX (some s.objects) s
        (Nat.le_succ _) (fun m hm => by cases hm; exact Nat.lt_succ_self _)
      have hmutex : Function.update s.mutex s.objects ⟨false, none⟩ = s.mutex :=
        Function.update_eq_self_iff.mpr (hs.mutex _ (le_refl _)).symm
      have hqueue : Function.update s.queue (.mutex s.objects) [] = s.queue :=
        Function.update_eq_self_iff.mpr (hs.queue _ (le_refl _)).1.symm
      unfold Sys.setQueue Sys.setMutex
      dsimp only
      rw [hmutex, hqueue]
      exact hq

theorem cvarInitialize_effect (hs : Objects s) (malloc₁ malloc₂ : Bool) (e : Event) :
    (cvarInitialize malloc₁ malloc₂ s).Has (Effect s e) := by
  unfold cvarInitialize initializeResource
  cases malloc₁ with
  | false => exact .quiet (Quiet.refl s _) rfl (.inr rfl) (by simp)
  | true =>
    cases malloc₂ with
    | false =>
      exact .quiet (Quiet.resource _ _ none s (le_refl _) fun m hm => by cases hm) rfl
        (.inl rfl) (by simp)
    | true =>
      refine .quiet ?_ rfl (.inl rfl) (by simp)
      have hq := Quiet.resource (e := e) ((s.max_resource_id + 1) % 2 ^ 32) .RESOURCE_CVAR (some s.objects) s
        (Nat.le_succ _) (fun m hm => by cases hm; exact Nat.lt_succ_self _)
      have hqueue : Function.update s.queue (.cvar s.objects) [] = s.queue :=
        Function.update_eq_self_iff.mpr (hs.queue _ (le_refl _)).2.symm
      unfold Sys.setQueue
      dsimp only
      rw [hqueue]
      exact hq

/-- A sleep that fails changes nothing: the lock is tested again. -/
theorem mutexAcquireLoop_cases (m : Nat) (cvar : Option Nat) (mallocs : List Bool) (s : Sys) :
    (s.mutex m).locked = false ∧ mutexAcquireLoop m cvar mallocs s = .ret SUCCESS (takeMutex m s) ∨
      (s.mutex m).locked = true ∧ mutexAcquireLoop m cvar mallocs s =
        .schedule (.mutexAcquire m cvar) (sleepOnWaitQueue (.mutex m) true s) := by
  have hlast : ∀ o, o = (if (s.mutex m).locked then
      Outcome.schedule (.mutexAcquire m cvar) (sleepOnWaitQueue (.mutex m) true s)
      else .ret SUCCESS (takeMutex m s)) →
      (s.mutex m).locked = false ∧ o = .ret SUCCESS (takeMutex m s) ∨ (s.mutex m).locked = true ∧
        o = .schedule (.mutexAcquire m cvar) (sleepOnWaitQueue (.mutex m) true s) := by
    rintro o rfl
    split
    · rename_i hl
      exact .inr ⟨hl, rfl⟩
    · rename_i hl
      exact .inl ⟨Bool.eq_false_iff.mpr hl, rfl⟩
  induction mallocs with
  | nil => exact hlast _ rfl
  | cons malloc mallocs ih =>
    cases malloc with
    | true => exact hlast _ rfl
    | false =>
      unfold mutexAcquireLoop
      split
      · exact ih
      · rename_i hl
        exact .inl ⟨Bool.eq_false_iff.mpr hl, rfl⟩

theorem mutexAcquireLoop_acquire (m : Nat) (cvar : Option Nat) (mallocs : List Bool) (s : Sys) :
    (mutexAcquireLoop m cvar mallocs s).Has (Acquire m s) := by
  rcases mutexAcquireLoop_cases m cvar mallocs s with ⟨hl, ho⟩ | ⟨hl, ho⟩
  · rw [ho]
    exact .take hl
  · rw [ho]
    exact ⟨nofun, .block cvar hl⟩

/-- The mutex of an identifier, when `mutexAcquire` and `mutexRelease` find one. -/
theorem mutexAcquire_acquire (hs : Objects s) (mallocs : List Bool) (mutex_id : Int)
    (cvar : Option Nat) : mutexAcquire mallocs mutex_id cvar s = .ret ERROR s ∨
      mutexAcquire mallocs mutex_id cvar s = .fault ∨
      ∃ m, m < s.objects ∧ (mutexAcquire mallocs mutex_id cvar s).Has (Acquire m s) := by
  unfold mutexAcquire
  split
  · exact .inl rfl
  · rename_i resource hr
    split
    · exact .inr (.inl rfl)
    · rename_i m hm
      refine .inr (.inr ⟨m, hs.location hr hm, ?_⟩)
      split
      · rename_i ho
        exact .again ho
      · exact mutexAcquireLoop_acquire m cvar mallocs s

theorem mutexRelease_open (hs : Objects s) (mutex_id : Int) : mutexRelease mutex_id s = .ret ERROR s ∨
      mutexRelease mutex_id s = .fault ∨
      ∃ m, Located s mutex_id .RESOURCE_MUTEX m ∧ m < s.objects ∧
        mutexRelease mutex_id s = .ret SUCCESS (openMutex m s) := by
  unfold mutexRelease
  split
  · exact .inl rfl
  · rename_i resource hr
    split
    · exact .inr (.inl rfl)
    · rename_i m hm
      exact .inr (.inr ⟨m, ⟨resource, hr, hm⟩, hs.location hr hm, rfl⟩)

theorem mutexAcquire_effect (hs : Objects s) (mallocs : List Bool) (mutex_id : Int)
    (cvar : Option Nat) (e : Event) : (mutexAcquire mallocs mutex_id cvar s).Has (Effect s e) := by
  rcases mutexAcquire_acquire hs mallocs mutex_id cvar with h | h | ⟨m, hm, h⟩
  · rw [h]
    exact .quiet (Quiet.refl s _) rfl (.inr rfl) (by simp)
  · rw [h]
    exact True.intro
  · cases ho : mutexAcquire mallocs mutex_id cvar s with
    | ret r s' =>
      rw [ho] at h
      exact .acquire hm h
    | schedule k s' =>
      rw [ho] at h
      exact ⟨h.1, .acquire hm h.2⟩
    | switched s' =>
      rw [ho] at h
      exact h.elim
    | fault => exact True.intro

theorem mutexRelease_effect (hs : Objects s) (mutex_id : Int) :
    (mutexRelease mutex_id s).Has (Effect s (.mutexRelease mutex_id)) := by
  rcases mutexRelease_open hs mutex_id with h | h | ⟨m, hr, hm, h⟩
  · rw [h]
    exact .quiet (Quiet.refl s _) rfl (.inr rfl) (by simp)
  · rw [h]
    exact True.intro
  · rw [h]
    exact .release hr hm

theorem openMutex_queue_of_ne {m : Nat} {w : WaitQueue} (h : w ≠ .mutex m) :
    (openMutex m s).queue w = s.queue w :=
  signal_queue_of_ne _ _ _ h

theorem Objects.openMutex (hs : Objects s) {m : Nat} (hm : m < s.objects) :
    Objects (openMutex m s) := by
  unfold System.openMutex signalWaitQueue
  refine ⟨?_, ?_, ?_, fun m' hm' => ?_, fun m' hm' => ?_⟩
  · simp only [signal_resources, signal_objects]
    exact hs.resources
  · simp only [signal_cont, signal_objects]
    exact hs.acquiring
  · simp only [signal_cont, signal_objects]
    exact hs.waiting
  · simp only [signal_objects] at hm'
    have hne : m' ≠ m := by
      rintro rfl
      exact absurd hm (not_lt.mpr hm')
    simp only [signal_mutex]
    exact (Function.update_of_ne hne _ _).trans (hs.mutex m' hm')
  · simp only [signal_objects] at hm'
    have hne : m' ≠ m := by
      rintro rfl
      exact absurd hm (not_lt.mpr hm')
    rw [signal_queue_of_ne _ _ _ (by simpa using hne), signal_queue_of_ne _ _ _ (by simp)]
    exact hs.queue m' hm'

theorem cvarWait_effect (hs : Objects s) (mallocs : List Bool) (cvar_id mutex_id : Int) :
    (cvarWait mallocs cvar_id mutex_id s).Has (Effect s (.cvarWait mallocs cvar_id mutex_id)) := by
  unfold cvarWait
  split
  · exact .quiet (Quiet.refl s _) rfl (.inr rfl) (by simp)
  · rename_i resource hr
    have hsome := Option.isSome_iff_exists.mpr ⟨resource, hr⟩
    rcases mutexRelease_open hs mutex_id with h | h | ⟨m, hm', hm, h⟩
    · rw [h]
      exact .quiet (Quiet.refl s _) rfl (.inr rfl) (by simp)
    · rw [h]
      exact True.intro
    · rw [h]
      dsimp only
      rw [if_neg (by decide)]
      have hreleases := And.intro hsome hm'
      have ho := hs.openMutex hm
      split
      · rename_i mallocs'
        -- the sleep fails, and the mutex is acquired again
        have hfalse : false ∈ (Event.cvarWait (false :: mallocs') cvar_id mutex_id).nodes :=
          List.mem_cons_self
        rcases mutexAcquire_acquire ho mallocs' mutex_id resource.location with h | h | ⟨m', hm', h'⟩
        · rw [h]
          exact .release hreleases hm
        · rw [h]
          exact True.intro
        · have hm'' : m' < s.objects := by
            unfold openMutex signalWaitQueue at hm'
            rwa [signal_objects] at hm'
          cases hrun : mutexAcquire mallocs' mutex_id resource.location (openMutex m s) with
          | ret r s' =>
            rw [hrun] at h'
            exact .waitFails hreleases hm'' hm hfalse h'
          | schedule k s' =>
            rw [hrun] at h'
            exact ⟨h'.1, .waitFails hreleases hm'' hm hfalse h'.2⟩
          | switched s' =>
            rw [hrun] at h'
            exact h'.elim
          | fault => exact True.intro
      · exact True.intro
      · rename_i c hc
        exact ⟨nofun, .cvarWait mutex_id rfl ⟨resource, hr, hc⟩ hreleases hm (hs.location hr hc)⟩

theorem cvarSignal_effect (cvar_id : Int) (s : Sys) :
    (cvarSignal cvar_id s).Has (Effect s (.cvarSignal cvar_id)) := by
  unfold cvarSignal
  split
  · exact .quiet (Quiet.refl s _) rfl (.inr rfl) (by simp)
  · rename_i resource hr
    split
    · exact True.intro
    · rename_i c hc
      exact .signal true rfl ⟨resource, hr, hc⟩

theorem cvarBroadcast_effect (cvar_id : Int) (s : Sys) :
    (cvarBroadcast cvar_id s).Has (Effect s (.cvarBroadcast cvar_id)) := by
  unfold cvarBroadcast
  split
  · exact .quiet (Quiet.refl s _) rfl (.inr rfl) (by simp)
  · rename_i resource hr
    split
    · exact True.intro
    · rename_i c hc
      exact .signal false rfl ⟨resource, hr, hc⟩

/-! ## Handlers of terminals -/

theorem ttyReadChunk_ret (tty : Nat) (u_length : Int) (s : Sys) :
    ttyReadChunk tty u_length s = .fault ∨ ∃ r s', ttyReadChunk tty u_length s = .ret r s' := by
  unfold ttyReadChunk
  extract_lets x length position sub_length
  by_cases hlength : sub_length < 0
  · exact .inl (if_pos hlength)
  · exact .inr ⟨sub_length, _, if_neg hlength⟩

theorem ttyReadChunk_effect {tty : Nat} (u_length : Int) (e : Event)
    (ready : (s.ttys tty).drained = false) : (ttyReadChunk tty u_length s).Has (Effect s e) := by
  rcases ttyReadChunk_ret tty u_length s with h | ⟨r, s', h⟩
  · rw [h]
    exact True.intro
  · rw [h]
    exact .read ready h

/-- A sleep that fails changes nothing: the buffer is tested again. -/
theorem ttyReadLoop_cases (tty : Nat) (u_length : Int) (mallocs : List Bool) (s : Sys) :
    (s.ttys tty).drained = true ∧ ttyReadLoop tty u_length mallocs s =
        .schedule (.ttyRead tty u_length) (sleepOnWaitQueue (.tty_read tty) true s) ∨
      (s.ttys tty).drained = false ∧
        ttyReadLoop tty u_length mallocs s = ttyReadChunk tty u_length s := by
  have hlast : ∀ o, o = (if (s.ttys tty).drained then
      Outcome.schedule (.ttyRead tty u_length) (sleepOnWaitQueue (.tty_read tty) true s)
      else ttyReadChunk tty u_length s) →
      (s.ttys tty).drained = true ∧
          o = .schedule (.ttyRead tty u_length) (sleepOnWaitQueue (.tty_read tty) true s) ∨
        (s.ttys tty).drained = false ∧ o = ttyReadChunk tty u_length s := by
    rintro o rfl
    split
    · rename_i hd
      exact .inl ⟨hd, rfl⟩
    · rename_i hd
      exact .inr ⟨Bool.eq_false_iff.mpr hd, rfl⟩
  induction mallocs with
  | nil => exact hlast _ rfl
  | cons malloc mallocs ih =>
    cases malloc with
    | true => exact hlast _ rfl
    | false =>
      unfold ttyReadLoop
      split
      · exact ih
      · rename_i hd
        exact .inr ⟨Bool.eq_false_iff.mpr hd, rfl⟩

theorem ttyReadLoop_effect (tty : Nat) (u_length : Int) (mallocs : List Bool) (s : Sys) (e : Event) :
    (ttyReadLoop tty u_length mallocs s).Has (Effect s e) := by
  rcases ttyReadLoop_cases tty u_length mallocs s with ⟨hd, ho⟩ | ⟨hd, ho⟩
  · rw [ho]
    exact ⟨nofun, .readSleep u_length hd⟩
  · rw [ho]
    exact ttyReadChunk_effect u_length e hd

theorem ttyRead_effect (mallocs : List Bool) (tty u_length : Int) (s : Sys) (e : Event) :
    (ttyRead mallocs tty u_length s).Has (Effect s e) := by
  unfold ttyRead
  split
  · exact .quiet (Quiet.refl s _) rfl (.inr rfl) (by simp)
  · exact ttyReadLoop_effect tty.toNat u_length mallocs s e

theorem ttyWriteChunks_effect {tty : Nat} {buffer : List UInt8} {mallocs : List Bool} :
    ∀ {position : Nat} {s₁ : Sys}, (∀ b ∈ mallocs, b ∈ e.nodes) →
      Writing s e tty buffer position s₁ →
      (ttyWriteChunks tty buffer mallocs position s₁).Has (Effect s e) := by
  have hlast : ∀ {position : Nat} {s₁ : Sys} {o : Outcome}, Writing s e tty buffer position s₁ →
      o = (if position < buffer.length then
        .schedule (.ttyWriteChunk tty buffer (position + TERMINAL_MAX_LINE))
          (sleepOnWaitQueue (.tty_write tty) false
            (TtyTransmit tty ((buffer.drop position).take TERMINAL_MAX_LINE) s₁))
        else .ret SUCCESS (s₁.setTty tty { s₁.ttys tty with write_current := 0 })) →
      o.Has (Effect s e) := by
    intro position s₁ o hw ho
    subst ho
    split
    · rename_i hmore
      exact ⟨nofun, .writeSleep hw hmore⟩
    · rename_i hdone
      exact .writeEnd hw (not_lt.mp hdone)
  induction mallocs with
  | nil => exact fun _ hw => hlast hw rfl
  | cons malloc mallocs ih =>
    intro position s₁ hnodes hw
    cases malloc with
    | true => exact hlast hw rfl
    | false =>
      unfold ttyWriteChunks
      split
      · rename_i hmore
        exact ih (fun b hb => hnodes b (List.mem_cons_of_mem _ hb))
          (.failed hw (hnodes false List.mem_cons_self) hmore)
      · rename_i hdone
        exact .writeEnd hw (not_lt.mp hdone)

theorem ttyWriteTurn_effect {tty : Nat} {buffer : List UInt8} {mallocs : List Bool}
    (hnodes : ∀ b ∈ mallocs, b ∈ e.nodes) : (ttyWriteTurn tty buffer mallocs s).Has (Effect s e) := by
  have hlast : ∀ {l : List Bool} {o : Outcome}, (∀ b ∈ l, b ∈ e.nodes) →
      o = (if (s.ttys tty).write_current ≠ 0 then
        .schedule (.ttyWriteTurn tty buffer) (sleepOnWaitQueue (.tty_write tty) true s)
        else ttyWriteChunks tty buffer l 0 (takeTurn tty buffer s)) → o.Has (Effect s e) := by
    intro l o hl ho
    subst ho
    split
    · rename_i hbusy
      exact ⟨nofun, .turnSleep buffer hbusy⟩
    · rename_i hfree
      exact ttyWriteChunks_effect hl (.turn (not_not.mp hfree))
  induction mallocs with
  | nil => exact hlast hnodes rfl
  | cons malloc mallocs ih =>
    cases malloc with
    | true => exact hlast hnodes rfl
    | false =>
      unfold ttyWriteTurn
      split
      · exact ih fun b hb => hnodes b (List.mem_cons_of_mem _ hb)
      · rename_i hfree
        exact ttyWriteChunks_effect hnodes (.turn (not_not.mp hfree))

theorem ttyWrite_effect (mallocs : List Bool) (tty length : Int) (buffer : List UInt8) (s : Sys)
    (e : Event) (he : mallocs.tail = e.nodes) :
    (ttyWrite mallocs tty length buffer s).Has (Effect s e) := by
  unfold ttyWrite
  split
  · exact .quiet (Quiet.refl s _) rfl (.inr rfl) (by simp)
  · split
    · exact .quiet (Quiet.refl s _) rfl (.inr rfl) (by simp)
    · exact ttyWriteTurn_effect fun b hb => he ▸ hb

/-! ## The machine -/

theorem resume_effect (hs : Objects s) (n : Nat) (mallocs : List Bool) :
    (resume n mallocs s (s.cont s.current)).Has (Effect s (.resume mallocs)) := by
  cases hk : s.cont s.current with
  | user => exact True.intro
  | returns result => exact .quiet (Quiet.refl s _) rfl (.inr rfl) (by simp)
  | waitForPID => exact waitLoop_effect n (.inr ⟨⟨mallocs, rfl⟩, hk⟩) (.inl hk)
  | joinThread thread_id => exact joinLoop_effect n (.inr ⟨⟨mallocs, rfl⟩, hk⟩)
  | mutexAcquire m cvar =>
    have hm := hs.acquiring _ m cvar hk
    have h := mutexAcquireLoop_acquire m cvar mallocs s
    unfold resume
    dsimp only
    cases hrun : mutexAcquireLoop m cvar mallocs s with
    | ret r s' =>
      rw [hrun] at h
      exact .acquire hm h
    | schedule k s' =>
      rw [hrun] at h
      exact ⟨h.1, .acquire hm h.2⟩
    | switched s' =>
      rw [hrun] at h
      exact h.elim
    | fault => exact True.intro
  | cvarWait c mutex_id => exact mutexAcquire_effect hs mallocs mutex_id (some c) _
  | ttyRead tty u_length => exact ttyReadLoop_effect tty u_length mallocs s _
  | ttyWriteTurn tty buffer => exact ttyWriteTurn_effect fun b hb => hb
  | ttyWriteChunk tty buffer position =>
    exact ttyWriteChunks_effect (fun b hb => hb) (.resumed hk)

/-- **Apart from an exit, a handler does one of these things.** -/
theorem handle_effect (hs : Objects s) (n : Nat) (he : ∀ status, e ≠ .exit status) :
    (handle n s e).Has (Effect s e) := by
  cases e with
  | fork memory => exact forkProcess_effect memory s _
  | createThread memory => exact createThread_effect memory s _
  | delay ticks => exact delayProcess_effect ticks s rfl
  | exit status => exact absurd rfl (he status)
  | wait => exact waitForPID_effect n (.inl rfl)
  | joinThread thread_id => exact joinThread_effect n (.inl rfl)
  | mutexInitialize m₁ m₂ => exact mutexInitialize_effect hs m₁ m₂ _
  | mutexAcquire mallocs mutex_id => exact mutexAcquire_effect hs mallocs mutex_id none _
  | mutexRelease mutex_id => exact mutexRelease_effect hs mutex_id
  | cvarInitialize m₁ m₂ => exact cvarInitialize_effect hs m₁ m₂ _
  | cvarWait mallocs cvar_id mutex_id => exact cvarWait_effect hs mallocs cvar_id mutex_id
  | cvarSignal cvar_id => exact cvarSignal_effect cvar_id s
  | cvarBroadcast cvar_id => exact cvarBroadcast_effect cvar_id s
  | ttyRead mallocs tty u_length => exact ttyRead_effect mallocs tty u_length s _
  | ttyWrite mallocs tty length buffer => exact ttyWrite_effect mallocs tty length buffer s _ rfl
  | clock =>
    exact ⟨nofun, .quiet ⟨rfl, fun _ => rfl, fun _ => rfl, fun _ => .inl rfl,
      .inl ⟨rfl, rfl, rfl, fun _ => ⟨rfl, rfl, rfl⟩⟩, fun _ _ => rfl, .inr ⟨rfl, rfl⟩, le_refl _,
      fun _ hr => .inl hr⟩ rfl (.inr rfl) (by simp)⟩
  | ttyReceive malloc tty line => exact .receive rfl
  | ttyTransmit tty => exact .finished rfl
  | resume mallocs => exact resume_effect hs n mallocs

/-- The state after a handler and where the process goes on, before another process runs. -/
inductive Leads (s : Sys) (e : Event) (s' : Sys) : Prop
  | stays {t : Sys} (effect : Effect s e .user t) (ends : s' = t.setCont t.current .user)
  | leaves {k : Cont} {t : Sys} {q : PID} (kernel : k ≠ .user) (effect : Effect s e k t)
      (next : Schedules t q)
      (ends : s' = { t.setCont t.current k with current := q })

/-- **Apart from an exit, a step does one of these things.** -/
theorem Step.leads (h : Step s e s') (hs : Objects s) (he : ∀ status, e ≠ .exit status) :
    Leads s e s' := by
  obtain ⟨-, n, hend⟩ := h
  have heff := handle_effect hs n he
  generalize ho : handle n s e = o at hend heff
  cases hend with
  | ret => exact .stays heff rfl
  | schedule next => exact .leaves heff.1 heff.2 next rfl
  | switched => exact heff.elim

end Yalnix.System
