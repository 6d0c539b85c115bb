import Mathlib.Logic.Relation
import Yalnix.System.Alive

/-!
# Sleeping and queueing agree

* `Agree` — a process is `PROCESS_WAITING` exactly when one node of all wait queues names it, and
  nodes name processes that have not been released.
* `exit_waiting_thread` — a leader that exits while a thread of its sleeps leaves the node behind.
* `Clean` — a step that does nothing of the kind.
* `Culled.asleep`, `exit_asleep` — what an exit does to the processes that sleep.
* `clean_agree` — in runs of clean steps they agree.
-/

set_option autoImplicit false

namespace Yalnix.System

open Transition (Run)

variable {s s' t : Sys} {n : Nat} {p q : PID} {e : Event} {k : Cont} {X : PID → Prop} {status : Int}

/-- The nodes of the wait queues that name `p`, by queue and place. -/
def Names (s : Sys) (p : PID) (x : WaitQueue × Nat) : Prop :=
  ∃ node, (s.queue x.1)[x.2]? = some node ∧ node.process = p

structure Agree (s : Sys) : Prop where
  waiting : ∀ p, (s.desc p).allocated = true → ((s.desc p).state = .WAITING ↔ ∃! x, Names s p x)
  released : ∀ w, ∀ node ∈ s.queue w, (s.desc node.process).allocated = true

theorem Asleep.agree (h : Asleep s) : Agree s := by
  refine ⟨fun p hp => ⟨fun hs => ?_, fun hx => ?_⟩, fun w node hn => (h.named w node hn).2.1⟩
  · obtain ⟨w, node, hn, he⟩ := h.waiting p hp hs
    obtain ⟨i, hi⟩ := List.mem_iff_getElem?.mp hn
    refine ⟨(w, i), ⟨node, hi, he⟩, ?_⟩
    rintro ⟨v, j⟩ ⟨node', hj, he'⟩
    -- the queue is that of the point where the process goes on
    have hv : v = w := by
      have h₁ := (h.named v node' (List.mem_of_getElem? hj)).2.2
      have h₂ := (h.named w node hn).2.2
      rw [he', ← he, h₂] at h₁
      exact (Option.some.inj h₁).symm
    subst hv
    have hmap : ∀ {l : List WaitQueueNode} {m : Nat} {x : WaitQueueNode}, l[m]? = some x →
        (l.map WaitQueueNode.process)[m]? = some x.process := by
      intro l m x hx
      rw [List.getElem?_map, hx]
      rfl
    have hi' := hmap hi
    have hj' := hmap hj
    rw [he] at hi'
    rw [he'] at hj'
    have hlen := (List.getElem?_eq_some_iff.mp hi').1
    have hij := (List.getElem?_inj hlen (h.nodup v)).mp (hi'.trans hj'.symm)
    rw [hij]
  · obtain ⟨⟨w, i⟩, ⟨node, hn, rfl⟩, -⟩ := hx
    exact (h.named w node (List.mem_of_getElem? hn)).1

/-! ## A node that is left behind -/

/-- Process 2 makes thread 3, which reads from a terminal, and exits. -/
def exitingLeader : List Event :=
  [.fork true, .clock, .resume [], .createThread true, .clock, .resume [], .ttyRead [] 0 5,
    .resume [], .clock, .resume [], .exit 0]

/-- **A leader that exits while its thread sleeps leaves a node that names a released descriptor.** -/
theorem exit_waiting_thread : ¬ ∀ es s, Run Step bootSys es s → Agree s := by
  have hrun : ((execAll 8 bootSys exitingLeader).map fun s =>
      ((s.queue (.tty_read 0)).map WaitQueueNode.process, (s.desc 3).allocated)) =
      some ([3], false) := by
    decide +kernel
  obtain ⟨s, hs, heq⟩ := Option.map_eq_some_iff.mp hrun
  rw [Prod.mk.injEq] at heq
  intro hall
  have hagree := hall exitingLeader s (execAll_run hs)
  have hmem : (3 : PID) ∈ (s.queue (.tty_read 0)).map WaitQueueNode.process := by
    rw [heq.1]
    exact List.mem_cons_self
  obtain ⟨node, hn, he⟩ := List.mem_map.mp hmem
  have hal := hagree.released _ node hn
  rw [he, heq.2] at hal
  cases hal

/-! ## Clean steps -/

/-- A walk over the process list from the running process comes to `q`. -/
def OnList (s : Sys) (q : PID) : Prop :=
  Relation.ReflTransGen (fun a b => s.procs.next a = some b) (.process_list s.current)
    (.process_list q)

structure Clean (s : Sys) (e : Event) : Prop where
  /-- No released descriptor on the process list is still marked as running. -/
  listed : ∀ q, OnList s q → (s.desc q).state = .RUNNING → (s.desc q).allocated = true
  /-- No thread sleeps while its leader exits. -/
  threads : ∀ status, e = .exit status → ∀ t, (s.desc t).allocated = true →
    (s.desc t).thread_leader = some s.current → (s.desc t).state ≠ .WAITING
  /-- The process that runs after an exit is neither the one that exits nor a thread of it. -/
  next : ∀ status, e = .exit status → ∀ q, Schedules s q →
    q ≠ s.current ∧ (s.desc q).thread_leader ≠ some s.current

theorem nextProcess_reaches : ∀ {n : Nat} {node : ProcNode}, nextProcess s n node = some q →
    Relation.ReflTransGen (fun a b => s.procs.next a = some b) node (.process_list q)
  | 0, _, h => by cases h
  | n + 1, node, h => by
    unfold nextProcess at h
    split at h
    · cases h
    · rename_i hnext
      exact .head hnext (nextProcess_reaches h)
    · rename_i p hnext
      split at h
      · cases h
        exact .single hnext
      · exact .head hnext (nextProcess_reaches h)

theorem Schedules.onList (h : Schedules s q) : OnList s q :=
  let ⟨_, h⟩ := h
  nextProcess_reaches h

/-! ## Exits -/

/-- Sleeping and queueing still agree if no sleeping process is released. -/
theorem Culled.asleep (h : Culled X s s') (ha : Asleep s) (hrun : (s.desc s.current).state ≠ .WAITING)
    (hX : ∀ q, X q → (s.desc q).allocated = true → (s.desc q).state ≠ .WAITING) : Asleep s' := by
  have hqueue : s'.queue = s.queue := by
    rw [h.same]
    rfl
  have hcont : s'.cont = s.cont := by
    rw [h.same]
    rfl
  have hmax : s'.max_pid = s.max_pid := by
    rw [h.same]
    rfl
  have hback : ∀ p, (s'.desc p).allocated = true → (s.desc p).allocated = true := by
    intro p hp
    rcases (h.desc p).allocated with hal | ⟨hal, -⟩
    · rw [← hal]
      exact hp
    · rw [hal] at hp
      cases hp
  refine ⟨fun w node hn => ?_, fun w => ?_, fun p hp hs => ?_, fun w node hn => ?_, fun p hp => ?_,
    h.groupsOk ha.groups, fun p hp => ?_, fun t p ht => ?_⟩
  · rw [hqueue] at hn
    obtain ⟨hs, hal, hc⟩ := ha.named w node hn
    have hne : node.process ≠ s.current := by
      intro he
      rw [he] at hs
      exact hrun hs
    refine ⟨?_, ?_, ?_⟩
    · rcases (h.desc node.process).state with hst | ⟨he, -⟩
      · exact hst.trans hs
      · exact absurd he hne
    · rcases (h.desc node.process).allocated with hst | ⟨-, hz | hx | he⟩
      · exact hst.trans hal
      · rw [hs] at hz
        cases hz
      · exact absurd hs (hX _ hx hal)
      · exact absurd he hne
    · rw [hcont]
      exact hc
  · rw [hqueue]
    exact ha.nodup w
  · rw [hqueue]
    rcases (h.desc p).state with hst | ⟨-, hst⟩
    · exact ha.waiting p (hback p hp) (hst.symm.trans hs)
    · rw [hst] at hs
      cases hs
  · rw [hqueue] at hn
    exact ha.exclusive w node hn
  · rw [hmax] at hp
    by_contra hal
    rw [Bool.not_eq_false] at hal
    have := ha.fresh p hp
    rw [hback p hal] at this
    cases this
  · rw [hmax] at hp
    rw [(h.desc p).leader]
    exact ha.linked p hp
  · rw [(h.desc t).leader] at ht
    rw [hmax]
    exact ha.led t p ht

theorem Culled.objects (h : Culled X s s') (ho : Objects s) : Objects s' := by
  apply ho.congr
  all_goals
    rw [h.same]
    rfl

/-- The process that runs next is one the scheduler would have found. -/
theorem killProcess_next (h : killProcess n s.current status s = some (some q, s')) :
    Schedules s q := by
  cases n with
  | zero => cases h
  | succ n =>
    unfold killProcess at h
    split at h
    · cases h
    · rw [if_pos rfl] at h
      simp only [Option.bind_eq_bind, Option.bind_eq_some_iff, Option.map_eq_some_iff,
        Option.some.injEq, Prod.mk.injEq] at h
      obtain ⟨r, ⟨q', hq', rfl⟩, first, -, s₁, -, s₂, -, first', -, s₃, -, hr, -⟩ := h
      cases hr
      exact ⟨n, hq'⟩

/-- The end of an exit releases nobody but the process that has exited, and zombies. -/
theorem killKernelContext_released {pa pb : PID} (h : killKernelContext n pa pb s = some s') :
    Released (· = pa) { s with current := pb } s' := by
  unfold killKernelContext at h
  dsimp only at h
  split at h
  · simp only [Option.bind_eq_bind, Option.bind_eq_some_iff] at h
    obtain ⟨parent, -, h⟩ := h
    split at h
    · exact releaseProcess_released h
    · cases h
      exact Released.refl _ _
  · cases h
    exact Released.refl _ _

/-- An exit of the running process ends in a switch. -/
theorem killCurrentProcess_cases (n : Nat) (status : Int) (hw : Awake s) :
    killCurrentProcess n status s = .fault ∨ ∃ s', killCurrentProcess n status s = .switched s' := by
  unfold killCurrentProcess
  split
  · exact .inl rfl
  · rename_i s₁ hk
    -- the running process is no zombie, so that another one is looked for
    exfalso
    cases n with
    | zero => cases hk
    | succ n =>
      unfold killProcess at hk
      rw [if_neg (by rw [hw.running]; decide), if_pos rfl] at hk
      simp only [Option.bind_eq_bind, Option.bind_eq_some_iff, Option.map_eq_some_iff,
        Option.some.injEq, Prod.mk.injEq] at hk
      obtain ⟨r, ⟨q', -, rfl⟩, first, -, s₁, -, s₂, -, first', -, s₃, -, hr, -⟩ := hk
      cases hr
  · split
    · exact .inl rfl
    · exact .inr ⟨_, rfl⟩

/-- **An exit, as long as it is clean.** -/
theorem exit_asleep (hc : Clean s (.exit status)) (ha : Asleep s) (hw : Awake s) (ho : Objects s)
    (h : killCurrentProcess n status s = .switched s') : Asleep s' ∧ Awake s' ∧ Objects s' := by
  unfold killCurrentProcess at h
  split at h
  · cases h
  · cases h
  · rename_i q s₁ hk
    split at h
    · cases h
    · rename_i s₂ hkk
      cases h
      have hcull := killProcess_culled ha.groups hk
      have hrel := killKernelContext_released hkk
      have hnext := killProcess_next hk
      obtain ⟨hne, hleader⟩ := hc.next status rfl q hnext
      have hrunning := hnext.eligible.1
      have hal := hc.listed q hnext.onList hrunning
      have hwait : (s.desc s.current).state ≠ .WAITING := by
        rw [hw.running]
        decide
      have ha₁ := hcull.asleep ha hwait fun t ht hal => hc.threads status rfl t hal ht
      have hcurrent : s₁.current = s.current := hcull.current
      -- the process that exits does not sleep, so its release does no harm
      have hrel' : Culled (· = s.current) s₁ { s' with current := s₁.current } := by
        refine ⟨?_, fun x => ?_⟩
        · have hsame := hrel.same
          rw [hsame]
          rfl
        · have hx := hrel.desc x
          exact ⟨hx.leader, hx.wake, .inl hx.state,
            hx.allocated.imp_right fun hf => ⟨hf.1, hf.2.imp_right .inl⟩⟩
      have hdead : (s₁.desc s.current).state ≠ .WAITING := by
        rcases (hcull.desc s.current).state with hst | ⟨-, hst⟩
        · rw [hst]
          exact hwait
        · rw [hst]
          decide
      have ha₂ : Asleep { s' with current := s₁.current } := by
        refine hrel'.asleep ha₁ ?_ ?_
        · rw [hcurrent]
          exact hdead
        · rintro x rfl -
          exact hdead
      have ho₂ := hrel'.objects (hcull.objects ho)
      have hq₂ : s'.current = q := by
        rw [hrel.same]
        rfl
      refine ⟨ha₂.congr rfl rfl rfl (le_refl _) rfl, ⟨?_, ?_⟩, ho₂.congr rfl rfl rfl rfl rfl⟩
      · rw [hq₂, (hrel.desc q).state]
        rcases (hcull.desc q).state with hst | ⟨he, -⟩
        · exact hst.trans hrunning
        · exact absurd he hne
      · have hal₁ : (s₁.desc q).allocated = true := by
          rcases (hcull.desc q).allocated with hst | ⟨-, hz | hx | he⟩
          · exact hst.trans hal
          · rw [hrunning] at hz
            cases hz
          · exact absurd hx hleader
          · exact absurd he hne
        rw [hq₂]
        rcases (hrel.desc q).allocated with hst | ⟨-, hz | he⟩
        · exact hst.trans hal₁
        · have hst : (s₁.desc q).state = .RUNNING := by
            rcases (hcull.desc q).state with hst | ⟨he, -⟩
            · exact hst.trans hrunning
            · exact absurd he hne
          exact absurd (hz.symm.trans hst) (by decide)
        · exact absurd he hne

/-! ## Runs -/

/-- The scheduler, called by a handler, switches to a process that is there. -/
theorem Effect.scheduled (he : Effect s e k t) (hk : k ≠ .user) (hc : Clean s e) (ha : Asleep s)
    (hq : Schedules t q) : (t.desc q).allocated = true := by
  have honlist : t.procs = s.procs → t.current = s.current → OnList s q := by
    intro hprocs hcurrent
    have hq' := hq.onList
    unfold OnList at hq' ⊢
    rw [hprocs, hcurrent] at hq'
    exact hq'
  have hrunning := hq.eligible.1
  cases he.processes with
  | synced synced =>
    rw [synced.desc]
    rcases synced.state q with hst | ⟨-, w, node, hn, rfl⟩ | ⟨-, hst⟩
    · refine hc.listed q (honlist ?_ synced.current) (hst.symm.trans hrunning)
      rw [synced.same]
    · exact (ha.named w node hn).2.1
    · rw [hst] at hrunning
      cases hrunning
  | quiet quiet _ listed _ =>
    have hst := quiet.state q
    rw [hrunning] at hst
    rcases quiet.allocated q with hal | ⟨-, hz⟩
    · rw [hal]
      refine hc.listed q (honlist (listed.resolve_left hk) ?_) hst.symm
      rw [quiet.same]
    · rw [hz] at hst
      cases hst
  | noMemory => exact absurd rfl hk
  | fork leader made child listed => exact absurd rfl hk
  | createThread leader made peer listed => exact absurd rfl hk

/-- A clean step keeps sleeping and queueing in agreement. -/
theorem clean_step (hc : Clean s e) (ha : Asleep s) (hw : Awake s) (ho : Objects s)
    (h : Step s e s') : Asleep s' ∧ Awake s' ∧ Objects s' := by
  by_cases he : ∃ status, e = .exit status
  · obtain ⟨status, rfl⟩ := he
    obtain ⟨-, n, hend⟩ := h
    have hrun : handle n s (.exit status) = killCurrentProcess n status s := rfl
    rw [hrun] at hend
    rcases killCurrentProcess_cases n status hw with hf | ⟨s₁, hs₁⟩
    · rw [hf] at hend
      cases hend
    · rw [hs₁] at hend
      cases hend
      exact exit_asleep hc ha hw ho hs₁
  · cases h.leads ho (fun status hs => he ⟨status, hs⟩) with
    | stays effect ends =>
      subst ends
      exact ⟨effect.asleep ha hw, (effect.awake ha hw).congr rfl rfl, effect.objects ho⟩
    | leaves kernel effect next ends =>
      subst ends
      have hasleep := effect.asleep ha hw
      have hobjects := effect.objects ho
      refine ⟨?_, ⟨next.eligible.1, effect.scheduled kernel hc ha next⟩, ?_⟩
      · exact hasleep.congr rfl rfl rfl (le_refl _) rfl
      · exact hobjects.congr rfl rfl rfl rfl rfl

/-- **In a run of clean steps, sleeping and queueing agree.** -/
theorem clean_agree : ∀ es s, Run (fun s e s' => Clean s e ∧ Step s e s') bootSys es s → Agree s := by
  intro es s h
  have hinv := h.invariant (P := fun s => Asleep s ∧ Awake s ∧ Objects s)
    (fun s e s' hs hstep => clean_step hstep.1 hs.1 hs.2.1 hs.2.2 hstep.2)
    ⟨asleep_boot, awake_boot, objects_boot⟩
  exact hinv.1.agree

/-! ## Clean runs -/

theorem OnList.allocated (h : OnList s q) (ha : Alive s) : (s.desc q).allocated = true := by
  cases h with
  | refl => exact ha.awake.allocated
  | tail _ hlink => exact ha.listed _ q hlink

/-- A step of a run without exits is clean. -/
theorem Alive.clean (ha : Alive s) (he : ∀ status, e ≠ .exit status) : Clean s e :=
  ⟨fun _ hq _ => hq.allocated ha, fun status hs => absurd hs (he status),
    fun status hs => absurd hs (he status)⟩

theorem Alive.clean_run {es : List Event} (h : Run Peaceful s es t) (ha : Alive s) :
    Run (fun s e s' => Clean s e ∧ Step s e s') s es t := by
  induction h with
  | nil => exact .nil
  | cons head _ ih => exact .cons ⟨ha.clean head.2, head.1⟩ (ih (ha.step head))

/-- The scheduler has no choice. -/
theorem nextProcess_unique : ∀ {n m : Nat} {node : ProcNode} {p q : PID},
    nextProcess s n node = some p → nextProcess s m node = some q → p = q
  | 0, _, _, _, _, h, _ => by cases h
  | _, 0, _, _, _, _, h => by cases h
  | n + 1, m + 1, node, p, q, h, h' => by
    unfold nextProcess at h h'
    cases hnext : s.procs.next node with
    | none =>
      rw [hnext] at h
      cases h
    | some next =>
      rw [hnext] at h h'
      cases next with
      | process_head => exact nextProcess_unique h h'
      | process_list r =>
        dsimp only at h h'
        split at h
        · rename_i hr
          rw [if_pos hr] at h'
          exact Option.some.inj (h.symm.trans h')
        · rename_i hr
          rw [if_neg hr] at h'
          exact nextProcess_unique h h'

/-- The child of process 1 runs. -/
def runningChild : Sys := (execAll 8 bootSys [.fork true, .clock, .resume []]).getD bootSys

theorem runningChild_run : Run Peaceful bootSys [.fork true, .clock, .resume []] runningChild := by
  have hsome : (execAll 8 bootSys [.fork true, .clock, .resume []]).isSome = true := by
    decide +kernel
  obtain ⟨s, hs⟩ := Option.isSome_iff_exists.mp hsome
  have hchild : runningChild = s := by
    unfold runningChild
    rw [hs]
    rfl
  rw [hchild]
  refine peaceful_of_run (execAll_run hs) ?_
  intro e he status
  rcases List.mem_cons.mp he with rfl | he
  · nofun
  · rcases List.mem_cons.mp he with rfl | he
    · nofun
    · rw [List.mem_singleton.mp he]
      nofun

/-- Its exit is clean: it has no threads, and process 1 runs next. -/
theorem runningChild_exit : Clean runningChild (.exit 0) := by
  have ha := Alive.run runningChild_run
  have hcurrent : runningChild.current = 2 := by decide +kernel
  have hmax : runningChild.max_pid = 2 := by decide +kernel
  have hleaders : ∀ t ≤ 2, (runningChild.desc t).thread_leader = none := by decide +kernel
  have hleader : ∀ t, (runningChild.desc t).thread_leader = none := by
    intro t
    rcases le_or_gt t 2 with ht | ht
    · exact hleaders t ht
    · exact ha.asleep.linked t (by rw [hmax]; exact ht)
  refine ⟨fun _ hq _ => hq.allocated ha, fun _ _ t _ ht => ?_, fun _ _ q hq => ?_⟩
  · rw [hleader] at ht
    cases ht
  · obtain ⟨n, hn⟩ := hq
    have hone : nextProcess runningChild 8 (.process_list runningChild.current) = some 1 := by
      decide +kernel
    have hq1 := nextProcess_unique hn hone
    rw [hq1, hleader, hcurrent]
    exact ⟨by decide, nofun⟩

theorem clean_agree_exit : ∃ s, Run (fun s e s' => Clean s e ∧ Step s e s') bootSys
    [.fork true, .clock, .resume [], .exit 0] s ∧ Agree s := by
  have hsome : (exec 8 runningChild (.exit 0)).isSome = true := by decide +kernel
  obtain ⟨s, hs⟩ := Option.isSome_iff_exists.mp hsome
  have hrun : Run (fun s e s' => Clean s e ∧ Step s e s') bootSys
      ([.fork true, .clock, .resume []] ++ [.exit 0]) s :=
    (alive_boot.clean_run runningChild_run).append (.single ⟨runningChild_exit, exec_step hs⟩)
  exact ⟨s, hrun, clean_agree _ _ hrun⟩

end Yalnix.System
