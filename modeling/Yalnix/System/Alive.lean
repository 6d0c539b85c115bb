import Yalnix.System.Sleeping

/-!
# Runs in which nobody exits

* `Alive` — all processes are alive, the process list names them, and `Asleep`, `Awake`, `Objects`.
* `Alive.step`, `alive_boot` — this holds from boot on, as long as no process exits.
* `Peaceful` — such a step; `Peaceful.leads` — what it can do.
-/

set_option autoImplicit false

namespace Yalnix.System

open Transition (Run)

variable {s s' s₁ t : Sys} {p q : PID} {w : WaitQueue} {k : Cont} {e : Event}

/-! ## Objects that are not made yet -/

theorem Objects.congr (h : Objects s) (hresources : t.resources = s.resources)
    (hobjects : t.objects = s.objects) (hcont : t.cont = s.cont) (hmutex : t.mutex = s.mutex)
    (hqueue : t.queue = s.queue) : Objects t := by
  constructor
  · rw [hresources, hobjects]
    exact h.resources
  · rw [hcont, hobjects]
    exact h.acquiring
  · rw [hcont, hobjects]
    exact h.waiting
  · rw [hmutex, hobjects]
    exact h.mutex
  · rw [hqueue, hobjects]
    exact h.queue

/-- The objects a process is in a loop for have been made. -/
def Cont.made (objects : Nat) : Cont → Prop
  | .mutexAcquire m _ => m < objects
  | .cvarWait c _ => c < objects
  | _ => True

theorem Objects.setCont (h : Objects s) (hk : k.made s.objects) (p : PID) :
    Objects (s.setCont p k) := by
  have hcont : ∀ q, (s.setCont p k).cont q = k ∨ (s.setCont p k).cont q = s.cont q := by
    intro q
    rcases eq_or_ne q p with rfl | hq
    · exact .inl (Function.update_self _ _ _)
    · exact .inr (Function.update_of_ne hq _ _)
  refine ⟨h.resources, fun q m cvar hq => ?_, fun q c id hq => ?_, h.mutex, h.queue⟩
  · rcases hcont q with hc | hc
    · rw [hc] at hq
      subst hq
      exact hk
    · rw [hc] at hq
      exact h.acquiring q m cvar hq
  · rcases hcont q with hc | hc
    · rw [hc] at hq
      subst hq
      exact hk
    · rw [hc] at hq
      exact h.waiting q c id hq

/-- Queues of objects that are not made do not grow. -/
theorem Objects.queues (h : Objects s) (hresources : t.resources = s.resources)
    (hobjects : t.objects = s.objects) (hcont : t.cont = s.cont) (hmutex : t.mutex = s.mutex)
    (hqueue : ∀ m, s.objects ≤ m → (s.queue (.mutex m) = [] → t.queue (.mutex m) = []) ∧
      (s.queue (.cvar m) = [] → t.queue (.cvar m) = [])) : Objects t := by
  refine ⟨?_, ?_, ?_, ?_, fun m hm => ?_⟩
  · rw [hresources, hobjects]
    exact h.resources
  · rw [hcont, hobjects]
    exact h.acquiring
  · rw [hcont, hobjects]
    exact h.waiting
  · rw [hmutex, hobjects]
    exact h.mutex
  · rw [hobjects] at hm
    obtain ⟨hq, hc⟩ := h.queue m hm
    exact ⟨(hqueue m hm).1 hq, (hqueue m hm).2 hc⟩

theorem Objects.sleep (h : Objects s) {b : Bool} (hm : ∀ m, w = .mutex m → m < s.objects)
    (hc : ∀ c, w = .cvar c → c < s.objects) : Objects (sleepOnWaitQueue w b s) := by
  refine h.queues rfl rfl rfl rfl fun m hle => ⟨fun hq => ?_, fun hq => ?_⟩
  · have hne : WaitQueue.mutex m ≠ w := by
      rintro rfl
      exact absurd (hm m rfl) (not_lt.mpr hle)
    rw [sleep_queue_of_ne _ _ _ hne]
    exact hq
  · have hne : WaitQueue.cvar m ≠ w := by
      rintro rfl
      exact absurd (hc m rfl) (not_lt.mpr hle)
    rw [sleep_queue_of_ne _ _ _ hne]
    exact hq

theorem Objects.signal (h : Objects s) (w : WaitQueue) (b : Bool) :
    Objects (signalWaitQueueWithOptions w b s) := by
  have hqueue : ∀ v, s.queue v = [] → (signalWaitQueueWithOptions w b s).queue v = [] := by
    intro v hv
    rcases eq_or_ne v w with rfl | hne
    · rw [signal_queue_self, hv]
      rfl
    · rw [signal_queue_of_ne _ _ _ hne]
      exact hv
  apply h.queues
  · exact signal_resources w b s
  · exact signal_objects w b s
  · exact signal_cont w b s
  · exact signal_mutex w b s
  · intro m _
    exact ⟨hqueue _, hqueue _⟩

theorem Acquire.objects {m : Nat} (hq : Acquire m s k t) (h : Objects s) (hm : m < s.objects) :
    Objects (t.setCont t.current k) := by
  cases hq with
  | again _ =>
    refine Objects.setCont ?_ ?_ _
    · exact h.congr rfl rfl rfl rfl rfl
    · exact True.intro
  | take _ =>
    refine Objects.setCont ?_ (by exact True.intro) _
    refine ⟨h.resources, h.acquiring, h.waiting, fun m' hm' => ?_, h.queue⟩
    have hne : m' ≠ m := by
      rintro rfl
      exact absurd hm (not_lt.mpr hm')
    exact (Function.update_of_ne hne _ _).trans (h.mutex m' hm')
  | block cvar _ =>
    refine Objects.setCont (h.sleep (fun m' he => ?_) fun c he => ?_) (by exact hm) _
    · cases he
      exact hm
    · cases he

theorem Quiet.objects_made (hq : Quiet s e t) (h : Objects s) : Objects t := by
  have hcont : t.cont = s.cont := by rw [hq.same]
  have hmutex : t.mutex = s.mutex := by rw [hq.same]
  have hqueue : t.queue = s.queue := by rw [hq.same]
  refine ⟨fun r hr m hm => ?_, fun p m cvar hp => ?_, fun p c id hp => ?_, fun m hm => ?_,
    fun m hm => ?_⟩
  · rcases hq.resources r hr with hr | hr
    · exact (h.resources r hr m hm).trans_le hq.objects
    · exact hr m hm
  · rw [hcont] at hp
    exact (h.acquiring p m cvar hp).trans_le hq.objects
  · rw [hcont] at hp
    exact (h.waiting p c id hp).trans_le hq.objects
  · rw [hmutex]
    exact h.mutex m (hq.objects.trans hm)
  · rw [hqueue]
    exact h.queue m (hq.objects.trans hm)

theorem Cont.made_of_queue_none {objects : Nat} (hk : k.queue = none) : k.made objects := by
  cases k <;> first | exact True.intro | cases hk

theorem Objects.newProcess (h : Objects s) (child : PID) (d : Descriptor) (max : Nat) :
    Objects (Sys.newProcess { s with max_pid := max } child d) := by
  have hbase : Objects ((Sys.setDesc { s with max_pid := max } child fun _ => d).initNodes child) :=
    h.congr rfl rfl rfl rfl rfl
  exact hbase.setCont (k := .returns 0) True.intro child

theorem Writing.objects {tty position : Nat} {buffer : List UInt8}
    (hw : Writing s e tty buffer position s₁) (h : Objects s) : Objects s₁ := by
  rw [hw.same]
  exact h.congr rfl rfl rfl rfl rfl

theorem Effect.objects (he : Effect s e k t) (h : Objects s) : Objects (t.setCont t.current k) := by
  cases he with
  | quiet quiet queue _ _ => exact (quiet.objects_made h).setCont (Cont.made_of_queue_none queue) _
  | noMemory =>
    refine Objects.setCont ?_ (by exact True.intro) _
    exact h.congr rfl rfl rfl rfl rfl
  | fork leader made child listed =>
    subst made
    refine Objects.setCont ?_ (by exact True.intro) _
    exact Objects.congr (h.newProcess _ _ _) rfl rfl rfl rfl rfl
  | createThread leader made peer listed =>
    subst made
    refine Objects.setCont ?_ (by exact True.intro) _
    exact Objects.congr (h.newProcess _ _ _) rfl rfl rfl rfl rfl
  | acquire made acquire => exact acquire.objects h made
  | release _ made => refine Objects.setCont (h.openMutex made) (by exact True.intro) _
  | cvarWait mutex_id _ _ _ made cmade =>
    have ho := h.openMutex made
    have hobj : ∀ m, (System.openMutex m s).objects = s.objects := fun m => signal_objects _ _ _
    refine Objects.setCont (ho.sleep (fun m' he => ?_) fun c he => ?_) ?_ _
    · cases he
    · cases he
      rw [hobj]
      exact cmade
    · exact (hobj _).symm ▸ cmade
  | waitFails _ made made' malloc acquire =>
    refine acquire.objects (h.openMutex made') ?_
    exact (signal_objects _ _ _).symm ▸ made
  | signal exclusive _ _ => refine Objects.setCont (h.signal _ _) (by exact True.intro) _
  | readSleep u_length drained =>
    refine Objects.setCont (h.sleep (fun m' he => ?_) fun c he => ?_) (by exact True.intro) _
    · cases he
    · cases he
  | read ready run =>
    obtain ⟨bytes, -, -, -, rfl⟩ := ttyReadChunk_some run
    refine Objects.setCont (Objects.signal ?_ _ _) (by exact True.intro) _
    exact h.congr rfl rfl rfl rfl rfl
  | receive _ =>
    refine Objects.setCont ?_ (by exact True.intro) _
    unfold ttyReadBegin
    split
    · exact h
    · split
      · exact h.congr rfl rfl rfl rfl rfl
      · refine Objects.signal ?_ _ _
        exact h.congr rfl rfl rfl rfl rfl
  | turnSleep buffer busy =>
    refine Objects.setCont (h.sleep (fun m' he => ?_) fun c he => ?_) (by exact True.intro) _
    · cases he
    · cases he
  | writeSleep writing more =>
    refine Objects.setCont (Objects.sleep ?_ (fun m' he => ?_) fun c he => ?_) (by exact True.intro) _
    · exact (writing.objects h).congr rfl rfl rfl rfl rfl
    · cases he
    · cases he
  | writeEnd writing done =>
    refine Objects.setCont ?_ (by exact True.intro) _
    exact (writing.objects h).congr rfl rfl rfl rfl rfl
  | @finished tty _ =>
    refine Objects.setCont ?_ (by exact True.intro) _
    unfold ttyWriteFinished
    split
    · exact h.congr rfl rfl rfl rfl rfl
    · refine Objects.signal ?_ _ _
      refine h.queues rfl rfl rfl rfl fun m _ => ⟨fun hq => ?_, fun hq => ?_⟩
      · have hne : WaitQueue.mutex m ≠ .tty_write tty := by simp
        rw [setQueue_queue_of_ne hne]
        exact hq
      · have hne : WaitQueue.cvar m ≠ .tty_write tty := by simp
        rw [setQueue_queue_of_ne hne]
        exact hq

/-- An exit is no exception. -/
theorem Objects.step (h : Objects s) (hstep : Step s e s') : Objects s' := by
  by_cases he : ∃ status, e = .exit status
  · obtain ⟨status, rfl⟩ := he
    obtain ⟨t, hkept, hs⟩ := hstep.exit_kept
    have ht : Objects t := by
      unfold Kept at hkept
      rw [hkept]
      exact h.congr rfl rfl rfl rfl rfl
    rcases hs with rfl | ⟨q, rfl⟩
    · exact ht.setCont (by exact True.intro) _
    · exact ht.congr rfl rfl rfl rfl rfl
  · cases hstep.leads h (fun status hs => he ⟨status, hs⟩) with
    | stays effect ends =>
      subst ends
      exact effect.objects h
    | leaves _ effect _ ends =>
      subst ends
      exact (effect.objects h).congr rfl rfl rfl rfl rfl

/-! ## Everybody is alive -/

/-- A handler that returns leaves the running process running. -/
theorem Effect.awake (he : Effect s e .user t) (h : Asleep s) (ha : Awake s) : Awake t := by
  cases he with
  | quiet quiet _ _ _ => exact quiet.awake ha
  | noMemory => exact ha.congr rfl rfl
  | fork leader made child listed =>
    subst made
    exact Awake.congr (ha.newProcess h _ rfl) rfl rfl
  | createThread leader made peer listed =>
    subst made
    exact Awake.congr (ha.newProcess h _ rfl) rfl rfl
  | acquire made acquire =>
    cases acquire with
    | again _ => exact ha.congr rfl rfl
    | take _ => exact ha.congr rfl rfl
  | release _ made => exact openMutex_awake _ ha
  | @waitFails m m' _ _ _ made made' malloc acquire =>
    have ho := openMutex_awake m' ha
    cases acquire with
    | again _ => exact ho.congr rfl rfl
    | take _ => exact ho.congr rfl rfl
  | signal exclusive _ _ => exact ha.signal _ _
  | read ready run =>
    obtain ⟨bytes, -, -, -, rfl⟩ := ttyReadChunk_some run
    refine Awake.signal ?_ _ _
    exact ha.congr rfl rfl
  | receive _ => exact (ttyReadBegin_asleep _ _ _ h ha).2
  | writeEnd writing done => exact (writing.awake ha).congr rfl rfl
  | finished _ =>
    refine (ttyWriteFinished_asleep _ ?_ ?_).2
    · exact h.congr rfl rfl rfl (le_refl _) rfl
    · exact ha.congr rfl rfl

structure Alive (s : Sys) : Prop where
  asleep : Asleep s
  awake : Awake s
  objects : Objects s
  alive : ∀ p, (s.desc p).state ≠ .ZOMBIE
  listed : ∀ a q, s.procs.next a = some (.process_list q) → (s.desc q).allocated = true
  /-- No process has the pid 0. -/
  pid : (s.desc 0).allocated = false

/-- The process list names processes that are there. -/
def Listed (procs : Ring.Heap ProcNode) (desc : PID → Descriptor) : Prop :=
  ∀ a q, procs.next a = some (.process_list q) → (desc q).allocated = true

theorem Listed.insertNode {procs procs' : Ring.Heap ProcNode} {desc : PID → Descriptor}
    (h : Listed procs desc) {head : ProcNode} (hp : (desc p).allocated = true)
    (hi : insertNode (.process_list p) head procs = some procs') : Listed procs' desc := by
  obtain ⟨next, hnext, hn, -⟩ := insertNode_some hi
  intro a q haq
  rw [hn] at haq
  rcases eq_or_ne a head with rfl | ha
  · rw [Function.update_self] at haq
    cases haq
    exact hp
  · rw [Function.update_of_ne ha] at haq
    rcases eq_or_ne a (.process_list p) with rfl | ha'
    · rw [Function.update_self] at haq
      exact h head q (hnext.trans haq)
    · rw [Function.update_of_ne ha'] at haq
      exact h a q haq

theorem Listed.addLastNode {procs procs' : Ring.Heap ProcNode} {desc : PID → Descriptor}
    (h : Listed procs desc) {head : ProcNode} (hp : (desc p).allocated = true)
    (hi : addLastNode (.process_list p) head procs = some procs') : Listed procs' desc := by
  unfold Yalnix.addLastNode at hi
  obtain ⟨prev, -, hi⟩ := Option.bind_eq_some_iff.mp hi
  exact h.insertNode hp hi

/-- A new process, before it is on the process list. -/
theorem Listed.newProcess (h : Listed s.procs s.desc) {child : PID} {d : Descriptor}
    (hd : d.allocated = true) (max : Nat) :
    Listed (Sys.newProcess { s with max_pid := max } child d).procs
      (Sys.newProcess { s with max_pid := max } child d).desc := by
  have hself : ((Sys.newProcess { s with max_pid := max } child d).desc child).allocated = true := by
    rw [newProcess_desc_self]
    exact hd
  intro a q haq
  rcases eq_or_ne q child with rfl | hq
  · exact hself
  · rw [newProcess_desc_of_ne hq]
    have haq' : (linkedListNodeInit (.process_list child) s.procs).next a = some (.process_list q) :=
      haq
    rw [linkedListNodeInit_next] at haq'
    rcases eq_or_ne a (.process_list child) with rfl | ha
    · rw [Function.update_self] at haq'
      cases haq'
      exact absurd rfl hq
    · rw [Function.update_of_ne ha] at haq'
      exact h a q haq'

/-- What is said of all processes, after a handler. -/
theorem OnProcesses.alive (hp : OnProcesses s e k t) (h : Alive s) :
    (∀ p, (t.desc p).state ≠ .ZOMBIE) ∧ Listed t.procs t.desc ∧ (t.desc 0).allocated = false := by
  have hnew : ∀ d : Descriptor, d.allocated = true → d.state = .RUNNING →
      (∀ p, ((Sys.newProcess { s with max_pid := s.max_pid + 1 } (s.max_pid + 1) d).desc p).state ≠
        .ZOMBIE) ∧
      ((Sys.newProcess { s with max_pid := s.max_pid + 1 } (s.max_pid + 1) d).desc 0).allocated =
        false := by
    intro d hd hrun
    refine ⟨fun p => ?_, ?_⟩
    · rcases eq_or_ne p (s.max_pid + 1) with rfl | hne
      · rw [newProcess_desc_self, hrun]
        decide
      · rw [newProcess_desc_of_ne hne]
        exact h.alive p
    · rw [newProcess_desc_of_ne (Nat.succ_ne_zero s.max_pid).symm]
      exact h.pid
  cases hp with
  | synced synced =>
    have hprocs : t.procs = s.procs := by rw [synced.same]
    have hal : ∀ p, (t.desc p).allocated = (s.desc p).allocated := fun p => by rw [synced.desc]
    refine ⟨fun p => ?_, fun a q haq => ?_, ?_⟩
    · rcases synced.state p with hs | ⟨hs, -⟩ | ⟨-, hs⟩
      · rw [hs]
        exact h.alive p
      · rw [hs]
        decide
      · rw [hs]
        decide
    · rw [hprocs] at haq
      rw [hal]
      exact h.listed a q haq
    · rw [hal]
      exact h.pid
  | quiet quiet _ _ _ =>
    have hal : ∀ p, (t.desc p).allocated = (s.desc p).allocated := by
      intro p
      rcases quiet.allocated p with ha | ⟨-, hz⟩
      · exact ha
      · exact absurd hz (h.alive p)
    have hprocs : t.procs = s.procs := by
      rcases quiet.lists with hl | hr
      · exact hl.procs
      · obtain ⟨q, hz⟩ := hr.zombie
        exact absurd hz (h.alive q)
    refine ⟨fun p => ?_, fun a q haq => ?_, ?_⟩
    · rw [quiet.state]
      exact h.alive p
    · rw [hprocs] at haq
      rw [hal]
      exact h.listed a q haq
    · rw [hal]
      exact h.pid
  | noMemory => exact ⟨h.alive, h.listed, h.pid⟩
  | fork leader made child listed =>
    subst made
    obtain ⟨hs, hz⟩ := hnew { newDescriptor with parent := some s.current } rfl rfl
    refine ⟨hs, ?_, hz⟩
    refine Listed.addLastNode (Listed.newProcess (s := s) h.listed rfl _) ?_ listed
    rw [newProcess_desc_self]
    rfl
  | createThread leader made peer listed =>
    subst made
    obtain ⟨hs, hz⟩ := hnew { newDescriptor with thread_leader := some s.current } rfl rfl
    refine ⟨hs, ?_, hz⟩
    refine Listed.insertNode (Listed.newProcess (s := s) h.listed rfl _) ?_ listed
    rw [newProcess_desc_self]
    rfl

/-- The scheduler finds processes on the process list. -/
theorem nextProcess_listed : ∀ {n : Nat} {node : ProcNode}, nextProcess s n node = some q →
    ∃ a, s.procs.next a = some (.process_list q)
  | 0, _, h => by cases h
  | n + 1, node, h => by
    unfold nextProcess at h
    split at h
    · cases h
    · exact nextProcess_listed h
    · rename_i p hp
      split at h
      · cases h
        exact ⟨node, hp⟩
      · exact nextProcess_listed h

/-! ## Peaceful runs -/

/-- A step that is not an exit. -/
def Peaceful (s : Sys) (e : Event) (s' : Sys) : Prop := Step s e s' ∧ ∀ status, e ≠ .exit status

theorem Peaceful.leads (h : Peaceful s e s') (ha : Alive s) : Leads s e s' :=
  h.1.leads ha.objects h.2

/-- **Everybody stays alive.** -/
theorem Alive.step (ha : Alive s) (h : Peaceful s e s') : Alive s' := by
  cases h.leads ha with
  | stays effect ends =>
    subst ends
    obtain ⟨hz, hl, hp⟩ := effect.processes.alive ha
    exact ⟨effect.asleep ha.asleep ha.awake, (effect.awake ha.asleep ha.awake).congr rfl rfl,
      effect.objects ha.objects, hz, hl, hp⟩
  | leaves _ effect next ends =>
    subst ends
    obtain ⟨hz, hl, hp⟩ := effect.processes.alive ha
    have hasleep := effect.asleep ha.asleep ha.awake
    have hobjects := effect.objects ha.objects
    obtain ⟨n, hn⟩ := next
    obtain ⟨a, haq⟩ := nextProcess_listed hn
    refine ⟨?_, ⟨(nextProcess_eligible hn).1, hl a _ haq⟩, ?_, hz, hl, hp⟩
    · exact hasleep.congr rfl rfl rfl (le_refl _) rfl
    · exact hobjects.congr rfl rfl rfl rfl rfl

/-! ## Boot -/

theorem bootSys_desc_of_ne (hp : p ≠ 1) : bootSys.desc p = { newDescriptor with allocated := false } :=
  Function.update_of_ne hp _ _

theorem bootSys_leader (p : PID) : (bootSys.desc p).thread_leader = none := by
  rcases eq_or_ne p 1 with rfl | hp
  · rfl
  · rw [bootSys_desc_of_ne hp]
    rfl

theorem bootSys_state (p : PID) : (bootSys.desc p).state = .RUNNING := by
  rcases eq_or_ne p 1 with rfl | hp
  · rfl
  · rw [bootSys_desc_of_ne hp]
    rfl

theorem asleep_boot : Asleep bootSys := by
  have hgroups : GroupsOk bootSys := by
    have hw : Within (SameGroup bootSys) bootSys.groups := by
      refine Within.linkedListNodeInit (Within.linkedListNodeInit ⟨?_, ?_⟩ ?_ _) ?_ _
      · intro a b hab
        cases hab
      · intro a b hab
        cases hab
      · exact (sameGroup_equivalence bootSys).refl
      · exact (sameGroup_equivalence bootSys).refl
    refine ⟨hw.next, hw.prev, fun t p ht => ?_⟩
    rw [bootSys_leader] at ht
    cases ht
  refine ⟨fun w node hn => ?_, fun w => List.nodup_nil, fun p hp hs => ?_, fun w node hn => ?_,
    fun p hp => ?_, hgroups, fun p _ => bootSys_leader p, fun t p ht => ?_⟩
  · cases hn
  · rw [bootSys_state] at hs
    cases hs
  · cases hn
  · rw [bootSys_desc_of_ne (ne_of_gt hp)]
  · rw [bootSys_leader] at ht
    cases ht

theorem awake_boot : Awake bootSys := ⟨rfl, rfl⟩

theorem objects_boot : Objects bootSys := by
  refine ⟨fun r hr => ?_, fun p m cvar hp => ?_, fun p c id hp => ?_, fun m _ => rfl,
    fun m _ => ⟨rfl, rfl⟩⟩
  · cases hr
  · cases hp
  · cases hp

theorem listed_boot : Listed bootSys.procs bootSys.desc := by
  have hbase : Listed (linkedListNodeInit (.process_list 1)
      (linkedListNodeInit .process_head fun _ => none)) bootSys.desc := by
    intro a q haq
    rw [linkedListNodeInit_next, linkedListNodeInit_next] at haq
    rcases eq_or_ne a (.process_list 1) with rfl | ha
    · rw [Function.update_self] at haq
      cases haq
      rfl
    · rw [Function.update_of_ne ha] at haq
      rcases eq_or_ne a .process_head with rfl | ha'
      · rw [Function.update_self] at haq
        cases haq
      · rw [Function.update_of_ne ha'] at haq
        cases haq
  unfold bootSys
  dsimp only
  cases hadd : addLastNode (.process_list 1) .process_head
      (((emptySys.setDesc 1 fun _ => newDescriptor).initNodes 1).procs) with
  | none => exact hbase
  | some procs => exact hbase.addLastNode rfl hadd

theorem alive_boot : Alive bootSys := by
  refine ⟨asleep_boot, awake_boot, objects_boot, fun p => ?_, listed_boot, rfl⟩
  rw [bootSys_state]
  decide

theorem Alive.run {es : List Event} (h : Run Peaceful bootSys es s) : Alive s :=
  h.invariant (fun _ _ _ ha hs => ha.step hs) alive_boot

/-- A run without exits. -/
theorem peaceful_of_run {es : List Event} (h : Run Step s es t)
    (hes : ∀ e ∈ es, ∀ status, e ≠ .exit status) : Run Peaceful s es t :=
  h.mono_labels fun _ e _ he hstep => ⟨hstep, hes e he⟩

/-! ## Processes that do not run -/

theorem OnProcesses.current (hp : OnProcesses s e k t) : t.current = s.current := by
  cases hp with
  | synced synced => exact synced.current
  | quiet quiet _ _ _ => rw [quiet.same]
  | noMemory => rfl
  | fork leader made child listed =>
    subst made
    rfl
  | createThread leader made peer listed =>
    subst made
    rfl

/-- `p` has been woken up, or has not slept, and will go on where it has been interrupted. -/
structure Ready (s : Sys) (p : PID) : Prop where
  allocated : (s.desc p).allocated = true
  running : (s.desc p).state = .RUNNING

/-- A process is not lost, and goes on where it would have gone on. -/
theorem OnProcesses.old (hp : OnProcesses s e k t) (ha : Alive s) (hle : p ≤ s.max_pid) :
    t.cont p = s.cont p ∧ (t.desc p).allocated = (s.desc p).allocated := by
  have hold : p ≠ s.max_pid + 1 := ne_of_lt (Nat.lt_succ_of_le hle)
  cases hp with
  | synced synced =>
    refine ⟨by rw [synced.same], ?_⟩
    rw [synced.desc]
  | quiet quiet _ _ _ =>
    refine ⟨by rw [quiet.same], ?_⟩
    rcases quiet.allocated p with hal | ⟨-, hz⟩
    · exact hal
    · exact absurd hz (ha.alive p)
  | noMemory => exact ⟨rfl, rfl⟩
  | fork leader made child listed =>
    subst made
    refine ⟨Function.update_of_ne hold _ _, ?_⟩
    exact congrArg Descriptor.allocated (newProcess_desc_of_ne hold _ _)
  | createThread leader made peer listed =>
    subst made
    refine ⟨Function.update_of_ne hold _ _, ?_⟩
    exact congrArg Descriptor.allocated (newProcess_desc_of_ne hold _ _)

theorem Alive.le_max (ha : Alive s) (hp : (s.desc p).allocated = true) : p ≤ s.max_pid := by
  by_contra hgt
  have := ha.asleep.fresh p (not_le.mp hgt)
  rw [hp] at this
  cases this

/-- While others run, a process stays ready. -/
theorem OnProcesses.ready (hp : OnProcesses s e k t) (ha : Alive s) (h : Ready s p)
    (hne : p ≠ s.current) : Ready t p := by
  have hle := ha.le_max h.allocated
  have hold : p ≠ s.max_pid + 1 := ne_of_lt (Nat.lt_succ_of_le hle)
  refine ⟨(hp.old ha hle).2.trans h.allocated, ?_⟩
  cases hp with
  | synced synced =>
    rcases synced.state p with hs | ⟨hs, -⟩ | ⟨he, -⟩
    · exact hs.trans h.running
    · exact hs
    · exact absurd he hne
  | quiet quiet _ _ _ => exact (quiet.state p).trans h.running
  | noMemory => exact h.running
  | fork leader made child listed =>
    subst made
    exact (congrArg Descriptor.state (newProcess_desc_of_ne hold _ _)).trans h.running
  | createThread leader made peer listed =>
    subst made
    exact (congrArg Descriptor.state (newProcess_desc_of_ne hold _ _)).trans h.running

/-- A process in the kernel goes on where it is. -/
theorem Step.resumes (h : Step s e s') (hk : s.cont s.current ≠ .user) : ∃ mallocs n,
    e = .resume mallocs ∧ Ends (resume n mallocs s (s.cont s.current)) s' := by
  obtain ⟨hen, n, hend⟩ := h
  cases e with
  | resume mallocs => exact ⟨mallocs, n, rfl, hend⟩
  | ttyTransmit tty => exact absurd hen.1 hk
  | ttyReceive malloc tty line => exact absurd hen.1 hk
  | _ => exact absurd hen hk

/-- What is left to show of a property that does not depend on who runs. -/
theorem Leads.keeps {J : Sys → Prop} (h : Leads s e s') (hcurrent : ∀ s q, J s → J { s with current := q })
    (heffect : ∀ k t, Effect s e k t → J (t.setCont s.current k)) : J s' := by
  cases h with
  | stays effect ends =>
    subst ends
    rw [effect.processes.current]
    exact heffect _ _ effect
  | leaves _ effect _ ends =>
    subst ends
    rw [effect.processes.current]
    exact hcurrent _ _ (heffect _ _ effect)

/-- A signal takes the first node of the queue, and wakes its process. -/
theorem Asleep.signal_wakes (h : Asleep s) (hw : ∀ tty, w ≠ .tty_write tty) :
    (signalWaitQueueWithOptions w true s).queue w = (s.queue w).tail ∧
      ∀ p, ((signalWaitQueueWithOptions w true s).desc p).state =
        if p ∈ (s.queue w).head?.map WaitQueueNode.process then .RUNNING else (s.desc p).state := by
  have hsplit : splitWoken true (s.queue w) = ((s.queue w).take 1, (s.queue w).tail) := by
    apply splitWoken_exclusive
    intro node hn
    exact (h.exclusive w node hn).resolve_right fun ⟨tty, ht⟩ => hw tty ht
  refine ⟨?_, fun p => ?_⟩
  · rw [signal_queue_self, hsplit]
  · rw [signal_desc, wake_state, hsplit]
    cases s.queue w with
    | nil => simp
    | cons node rest =>
      simp only [List.take_succ_cons, List.take_zero, List.map_cons, List.map_nil,
        List.mem_singleton, List.head?_cons, Option.map_some, Option.mem_some_iff]
      rcases eq_or_ne p node.process with rfl | hp
      · simp
      · rw [if_neg hp, if_neg hp.symm]

theorem mem_head_process {l : List WaitQueueNode} {node : WaitQueueNode} (hn : node ∈ l.head?) :
    node.process ∈ l.head?.map WaitQueueNode.process :=
  Option.mem_map_of_mem _ hn

/-- A process is ready to go on at a point of the loop it sleeps in, on the queue `w`. -/
def Pending (s : Sys) (w : WaitQueue) : Prop := ∃ p, Ready s p ∧ (s.cont p).queue = some w

theorem Pending.setCurrent (h : Pending s w) (q : PID) : Pending { s with current := q } w := by
  obtain ⟨p, hp, hk⟩ := h
  exact ⟨p, ⟨hp.allocated, hp.running⟩, hk⟩

/-- It stays so while others run. -/
theorem Pending.persists (h : Pending s w) (ha : Alive s) (he : Effect s e k t)
    (hne : (s.cont s.current).queue ≠ some w) : Pending (t.setCont s.current k) w := by
  obtain ⟨p, hp, hk⟩ := h
  have hpc : p ≠ s.current := by
    rintro rfl
    exact hne hk
  have hready := he.processes.ready ha hp hpc
  have hcont := (he.processes.old ha (ha.le_max hp.allocated)).1
  refine ⟨p, ⟨hready.allocated, hready.running⟩, ?_⟩
  unfold Sys.setCont
  dsimp only
  rw [Function.update_of_ne hpc, hcont]
  exact hk

/-- Who is woken goes on in the loop it has slept in. -/
theorem Alive.woken (ha : Alive s) (he : Effect s e k t) {node : WaitQueueNode}
    (hn : node ∈ s.queue w) (hrun : (t.desc node.process).state = .RUNNING) :
    Pending (t.setCont s.current k) w := by
  obtain ⟨-, hal, hk⟩ := ha.asleep.named w node hn
  have hne := ha.awake.not_mem ha.asleep hn
  obtain ⟨hcont, halloc⟩ := he.processes.old ha (ha.asleep.le_max hn)
  refine ⟨node.process, ⟨halloc.trans hal, hrun⟩, ?_⟩
  unfold Sys.setCont
  dsimp only
  rw [Function.update_of_ne hne, hcont]
  exact hk

end Yalnix.System
