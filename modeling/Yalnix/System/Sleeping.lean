import Yalnix.System.Synced

/-!
# Sleeping and waking

A process that is `WAITING` has one node on one queue, the queue of the point in the kernel where it
will go on; and nodes name nobody else.

* `Asleep` — the invariant; `Awake` — the running process is running.
* `Asleep.sleep`, `Asleep.signal`, `Asleep.newProcess` — what each change does to it.
* `Effect.asleep`, `Effect.objects` — every handler keeps it, but for that of `Exit`.
-/

set_option autoImplicit false

namespace Yalnix.System

variable {s s' s₁ t : Sys} {n : Nat} {p q : PID} {w : WaitQueue} {k : Cont} {e : Event}

/-! ## The invariant -/

structure Asleep (s : Sys) : Prop where
  named : ∀ w, ∀ node ∈ s.queue w, (s.desc node.process).state = .WAITING ∧
    (s.desc node.process).allocated = true ∧ (s.cont node.process).queue = some w
  nodup : ∀ w, ((s.queue w).map WaitQueueNode.process).Nodup
  waiting : ∀ p, (s.desc p).allocated = true → (s.desc p).state = .WAITING →
    ∃ w, ∃ node ∈ s.queue w, node.process = p
  exclusive : ∀ w, ∀ node ∈ s.queue w, node.is_exclusive = true ∨ ∃ tty, w = .tty_write tty
  fresh : ∀ p, s.max_pid < p → (s.desc p).allocated = false
  groups : GroupsOk s
  linked : ∀ p, s.max_pid < p → (s.desc p).thread_leader = none
  led : ∀ t p, (s.desc t).thread_leader = some p → p ≤ s.max_pid

/-- The running process is running. -/
structure Awake (s : Sys) : Prop where
  running : (s.desc s.current).state = .RUNNING
  allocated : (s.desc s.current).allocated = true

/-- What a change has to leave alone. -/
theorem Asleep.congr (h : Asleep s) (hqueue : s'.queue = s.queue) (hdesc : s'.desc = s.desc)
    (hcont : s'.cont = s.cont) (hmax : s.max_pid ≤ s'.max_pid) (hgroups : s'.groups = s.groups) :
    Asleep s' := by
  refine ⟨?_, ?_, ?_, ?_, fun p hp => ?_, h.groups.congr hgroups fun q => by rw [hdesc],
    fun p hp => ?_, fun t p ht => ?_⟩
  · rw [hqueue, hdesc, hcont]
    exact h.named
  · rw [hqueue]
    exact h.nodup
  · rw [hqueue, hdesc]
    exact h.waiting
  · rw [hqueue]
    exact h.exclusive
  · rw [hdesc]
    exact h.fresh p (lt_of_le_of_lt hmax hp)
  · rw [hdesc]
    exact h.linked p (lt_of_le_of_lt hmax hp)
  · rw [hdesc] at ht
    exact (h.led t p ht).trans hmax

theorem Awake.congr (h : Awake s) (hdesc : s'.desc = s.desc) (hcurrent : s'.current = s.current) :
    Awake s' := by
  refine ⟨?_, ?_⟩
  · rw [hdesc, hcurrent]
    exact h.running
  · rw [hdesc, hcurrent]
    exact h.allocated

/-- A process that is not waiting is on no queue. -/
theorem Asleep.not_mem (h : Asleep s) (hp : (s.desc p).state ≠ .WAITING) {node : WaitQueueNode}
    (hn : node ∈ s.queue w) : node.process ≠ p := by
  rintro rfl
  exact hp (h.named w node hn).1

theorem Awake.not_mem (ha : Awake s) (h : Asleep s) {node : WaitQueueNode} (hn : node ∈ s.queue w) :
    node.process ≠ s.current :=
  h.not_mem (by rw [ha.running]; decide) hn

theorem Awake.le_max (ha : Awake s) (h : Asleep s) : s.current ≤ s.max_pid := by
  by_contra hgt
  have := h.fresh s.current (not_le.mp hgt)
  rw [ha.allocated] at this
  cases this

theorem Asleep.le_max (h : Asleep s) {node : WaitQueueNode} (hn : node ∈ s.queue w) :
    node.process ≤ s.max_pid := by
  by_contra hgt
  have := h.fresh node.process (not_le.mp hgt)
  rw [(h.named w node hn).2.1] at this
  cases this

/-- The running process may go on anywhere. -/
theorem Asleep.setCont (h : Asleep s) (ha : Awake s) (k : Cont) : Asleep (s.setCont s.current k) := by
  refine ⟨fun w node hn => ?_, h.nodup, h.waiting, h.exclusive, h.fresh,
    h.groups.congr rfl fun _ => rfl, h.linked, h.led⟩
  have hne := ha.not_mem h hn
  obtain ⟨hs, hal, hc⟩ := h.named w node hn
  refine ⟨hs, hal, ?_⟩
  unfold Sys.setCont
  simp only [Function.update_of_ne hne]
  exact hc

/-! ## Going to sleep -/

/-- **The running process goes to sleep on the queue of the point where it will go on.** -/
theorem Asleep.sleep (h : Asleep s) (ha : Awake s) {exclusive : Bool} (hk : k.queue = some w)
    (hex : exclusive = true ∨ ∃ tty, w = .tty_write tty) :
    Asleep ((sleepOnWaitQueue w exclusive s).setCont s.current k) := by
  have hother : ∀ v, ∀ node ∈ s.queue v, node.process ≠ s.current := fun v node hn => ha.not_mem h hn
  have hself : ((sleepOnWaitQueue w exclusive s).setCont s.current k).desc s.current =
      { s.desc s.current with state := .WAITING } := Function.update_self _ _ _
  have hdesc : ∀ p, p ≠ s.current →
      ((sleepOnWaitQueue w exclusive s).setCont s.current k).desc p = s.desc p :=
    fun p hp => sleep_desc_of_ne w exclusive s hp
  have hcont : ∀ p, p ≠ s.current →
      ((sleepOnWaitQueue w exclusive s).setCont s.current k).cont p = s.cont p :=
    fun p hp => Function.update_of_ne hp _ _
  have hcontself : ((sleepOnWaitQueue w exclusive s).setCont s.current k).cont s.current = k :=
    Function.update_self _ _ _
  have hmem : ∀ v node, node ∈ ((sleepOnWaitQueue w exclusive s).setCont s.current k).queue v ↔
      node ∈ s.queue v ∨ v = w ∧ node = ⟨exclusive, s.current⟩ :=
    fun v node => mem_sleep w exclusive s
  have halloc : ∀ p, (((sleepOnWaitQueue w exclusive s).setCont s.current k).desc p).allocated =
      (s.desc p).allocated ∧
      (((sleepOnWaitQueue w exclusive s).setCont s.current k).desc p).thread_leader =
        (s.desc p).thread_leader := by
    intro p
    by_cases hp : p = s.current
    · rw [hp, hself]
      exact ⟨rfl, rfl⟩
    · rw [hdesc p hp]
      exact ⟨rfl, rfl⟩
  refine ⟨fun v node hn => ?_, fun v => nodup_sleep w exclusive s (h.nodup v) (hother v),
    fun p hp hs => ?_, fun v node hn => ?_, fun p hp => ?_,
    h.groups.congr rfl fun q => (halloc q).2, fun p hp => ?_, fun t p ht => ?_⟩
  · rcases (hmem v node).mp hn with hn | ⟨rfl, rfl⟩
    · have hne := hother v node hn
      rw [hdesc _ hne, hcont _ hne]
      exact h.named v node hn
    · rw [hself, hcontself]
      exact ⟨rfl, ha.allocated, hk⟩
  · by_cases hpc : p = s.current
    · exact ⟨w, ⟨exclusive, s.current⟩, (hmem w _).mpr (.inr ⟨rfl, rfl⟩), hpc.symm⟩
    · rw [hdesc p hpc] at hp hs
      obtain ⟨v, node, hn, hnp⟩ := h.waiting p hp hs
      exact ⟨v, node, (hmem v node).mpr (.inl hn), hnp⟩
  · rcases (hmem v node).mp hn with hn | ⟨rfl, rfl⟩
    · exact h.exclusive v node hn
    · exact hex
  · rw [(halloc p).1]
    exact h.fresh p hp
  · rw [(halloc p).2]
    exact h.linked p hp
  · rw [(halloc t).2] at ht
    exact h.led t p ht

/-! ## Waking up -/

/-- **Some nodes at the front of a queue are woken.** -/
theorem Asleep.wake {a b : List WaitQueueNode} (h : Asleep s) (hab : a ++ b = s.queue w) :
    Asleep ((System.wake a s).setQueue w b) := by
  have hnd := h.nodup w
  rw [← hab, List.map_append, List.nodup_append] at hnd
  have hqueue : ∀ v, ((System.wake a s).setQueue w b).queue v = if v = w then b else s.queue v := by
    intro v
    unfold Sys.setQueue System.wake
    by_cases hv : v = w
    · subst hv
      simp
    · simp [hv]
  have hmem : ∀ v node, node ∈ ((System.wake a s).setQueue w b).queue v →
      node ∈ s.queue v ∧ node.process ∉ a.map WaitQueueNode.process := fun v node hn =>
    mem_wake (h.nodup w) (fun v node hn => (h.named v node hn).2.2) hab hn
  have hdesc : ∀ p, p ∉ a.map WaitQueueNode.process →
      ((System.wake a s).setQueue w b).desc p = s.desc p := by
    intro p hp
    exact if_neg hp
  refine ⟨fun v node hn => ?_, fun v => ?_, fun p hp hs => ?_, fun v node hn => ?_, fun p hp => ?_,
    h.groups.congr rfl fun q => (allocated_wake a q).2, fun p hp => ?_, fun t p ht => ?_⟩
  · obtain ⟨hn', hna⟩ := hmem v node hn
    rw [hdesc _ hna]
    exact h.named v node hn'
  · rw [hqueue]
    split
    · exact hnd.2.1
    · exact h.nodup v
  · by_cases hpa : p ∈ a.map WaitQueueNode.process
    · have hrun : (((System.wake a s).setQueue w b).desc p).state = .RUNNING := by
        unfold Sys.setQueue System.wake
        simp only [if_pos hpa]
      rw [hrun] at hs
      cases hs
    · rw [hdesc p hpa] at hp hs
      obtain ⟨v, node, hn, rfl⟩ := h.waiting p hp hs
      refine ⟨v, node, ?_, rfl⟩
      rw [hqueue]
      split
      · rename_i hv
        subst hv
        rw [← hab] at hn
        exact (List.mem_append.mp hn).resolve_left fun hna => hpa (List.mem_map_of_mem hna)
      · exact hn
  · exact h.exclusive v node (hmem v node hn).1
  · exact ((allocated_wake a p).1).trans (h.fresh p hp)
  · exact ((allocated_wake a p).2).trans (h.linked p hp)
  · exact h.led t p (((allocated_wake a t).2).symm.trans ht)

theorem Awake.wake (ha : Awake s) (a b : List WaitQueueNode) :
    Awake ((System.wake a s).setQueue w b) := by
  refine ⟨?_, ((allocated_wake a _).1).trans ha.allocated⟩
  unfold Sys.setQueue System.wake
  dsimp only
  split
  · rfl
  · exact ha.running

theorem Asleep.signal (h : Asleep s) (w : WaitQueue) (b : Bool) :
    Asleep (signalWaitQueueWithOptions w b s) := by
  rw [signal_eq]
  exact h.wake (splitWoken_append b _)

theorem Awake.signal (ha : Awake s) (w : WaitQueue) (b : Bool) :
    Awake (signalWaitQueueWithOptions w b s) := by
  rw [signal_eq]
  exact ha.wake _ _

/-! ## New processes -/

/-- The nodes belong to the threads of one process. -/
def SameGroup (s : Sys) (a b : GroupNode) : Prop :=
  a = b ∨ groupOf s a = groupOf s b ∧ (groupOf s a).isSome

theorem sameGroup_equivalence (s : Sys) : Equivalence (SameGroup s) where
  refl _ := .inl rfl
  symm h := by
    rcases h with rfl | ⟨he, hs⟩
    · exact .inl rfl
    · exact .inr ⟨he.symm, he ▸ hs⟩
  trans h h' := by
    rcases h with rfl | ⟨he, hs⟩
    · exact h'
    · rcases h' with rfl | ⟨he', -⟩
      · exact .inr ⟨he, hs⟩
      · exact .inr ⟨he.trans he', hs⟩

theorem GroupsOk.within (h : GroupsOk s) : Within (SameGroup s) s.groups := ⟨h.next, h.prev⟩

theorem newProcess_desc_self (s : Sys) (child : PID) (d : Descriptor) :
    (s.newProcess child d).desc child = d :=
  Function.update_self _ _ _

theorem newProcess_desc_of_ne {child : PID} (hq : q ≠ child) (s : Sys) (d : Descriptor) :
    (s.newProcess child d).desc q = s.desc q :=
  Function.update_of_ne hq _ _

/-- The child's nodes are not linked to by others. -/
theorem GroupsOk.newProcess (h : GroupsOk s) {child : PID} {d : Descriptor}
    (hlinked : (s.desc child).thread_leader = none)
    (hled : ∀ t, (s.desc t).thread_leader ≠ some child)
    (hd : ∀ p, d.thread_leader = some p → p ≠ child ∧ (s.desc p).thread_leader = none) :
    GroupsOk (s.newProcess child d) := by
  have hdesc : ∀ q, q ≠ child → (s.newProcess child d).desc q = s.desc q := fun q hq =>
    Function.update_of_ne hq _ _
  have hself : (s.newProcess child d).desc child = d := Function.update_self _ _ _
  -- links between old nodes stay inside their groups
  have hold : ∀ a b, a ≠ .thread_peers child → SameGroup s a b →
      SameGroup (s.newProcess child d) a b := by
    intro a b ha hab
    rcases hab with rfl | ⟨he, hs⟩
    · exact .inl rfl
    · have hb : b ≠ .thread_peers child := by
        rintro rfl
        have hs' : (s.desc child).thread_leader.isSome := by
          rw [he] at hs
          exact hs
        rw [hlinked] at hs'
        cases hs'
      have hof : ∀ x, x ≠ .thread_peers child → groupOf (s.newProcess child d) x = groupOf s x := by
        intro x hx
        cases x with
        | thread_group q => rfl
        | thread_peers q =>
          exact congrArg Descriptor.thread_leader (hdesc q fun he => hx (by rw [he]))
      refine .inr ⟨?_, ?_⟩
      · rw [hof a ha, hof b hb, he]
      · rw [hof a ha]
        exact hs
  refine ⟨fun a b hab => ?_, fun a b hab => ?_, fun t p ht => ?_⟩
  · have hab' : (linkedListNodeInit (.thread_peers child)
      (linkedListNodeInit (.thread_group child) s.groups)).next a = some b := hab
    rw [linkedListNodeInit_next, linkedListNodeInit_next] at hab'
    rcases eq_or_ne a (.thread_peers child) with rfl | ha
    · rw [Function.update_self] at hab'
      exact .inl (Option.some.inj hab')
    · rw [Function.update_of_ne ha] at hab'
      rcases eq_or_ne a (.thread_group child) with rfl | ha'
      · rw [Function.update_self] at hab'
        exact .inl (Option.some.inj hab')
      · rw [Function.update_of_ne ha'] at hab'
        exact hold a b ha (h.next a b hab')
  · have hab' : (linkedListNodeInit (.thread_peers child)
      (linkedListNodeInit (.thread_group child) s.groups)).prev a = some b := hab
    rw [linkedListNodeInit_prev, linkedListNodeInit_prev] at hab'
    rcases eq_or_ne a (.thread_peers child) with rfl | ha
    · rw [Function.update_self] at hab'
      exact .inl (Option.some.inj hab')
    · rw [Function.update_of_ne ha] at hab'
      rcases eq_or_ne a (.thread_group child) with rfl | ha'
      · rw [Function.update_self] at hab'
        exact .inl (Option.some.inj hab')
      · rw [Function.update_of_ne ha'] at hab'
        exact hold a b ha (h.prev a b hab')
  · rcases eq_or_ne t child with rfl | hne
    · rw [hself] at ht
      obtain ⟨hp, hl⟩ := hd p ht
      rw [hdesc p hp]
      exact hl
    · rw [hdesc t hne] at ht
      have hp : p ≠ child := by
        rintro rfl
        exact hled t ht
      rw [hdesc p hp]
      exact h.leader t p ht

/-- **A process is made that no list and no queue names yet.** -/
theorem Asleep.newProcess (h : Asleep s) {child : PID} {d : Descriptor} (hc : child = s.max_pid + 1)
    (hrun : d.state = .RUNNING)
    (hd : ∀ p, d.thread_leader = some p → p ≤ s.max_pid ∧ (s.desc p).thread_leader = none) :
    Asleep (Sys.newProcess { s with max_pid := child } child d) := by
  have hfresh : s.max_pid < child := by
    rw [hc]
    exact Nat.lt_succ_self _
  have hdesc : ∀ q, q ≠ child →
      (Sys.newProcess { s with max_pid := child } child d).desc q = s.desc q := fun q hq =>
    Function.update_of_ne hq _ _
  have hself : (Sys.newProcess { s with max_pid := child } child d).desc child = d :=
    Function.update_self _ _ _
  have hcont : ∀ q, q ≠ child →
      (Sys.newProcess { s with max_pid := child } child d).cont q = s.cont q := fun q hq =>
    Function.update_of_ne hq _ _
  have hmax : (Sys.newProcess { s with max_pid := child } child d).max_pid = child := rfl
  have hne : ∀ w, ∀ node ∈ s.queue w, node.process ≠ child := fun w node hn =>
    ne_of_lt (lt_of_le_of_lt (h.le_max hn) hfresh)
  have hbase : GroupsOk { s with max_pid := child } := h.groups.congr rfl fun _ => rfl
  refine ⟨fun w node hn => ?_, h.nodup, fun p hp hs => ?_, h.exclusive, fun p hp => ?_,
    hbase.newProcess ?_ ?_ fun p hp => ?_, fun p hp => ?_, fun t p ht => ?_⟩
  · rw [hdesc _ (hne w node hn), hcont _ (hne w node hn)]
    exact h.named w node hn
  · rcases eq_or_ne p child with rfl | hpc
    · rw [hself, hrun] at hs
      cases hs
    · rw [hdesc p hpc] at hp hs
      exact h.waiting p hp hs
  · rw [hmax] at hp
    rw [hdesc p (ne_of_gt hp)]
    exact h.fresh p (hfresh.trans hp)
  · exact h.linked child hfresh
  · intro t ht
    exact absurd (h.led t child ht) (not_le.mpr hfresh)
  · obtain ⟨hle, hl⟩ := hd p hp
    exact ⟨ne_of_lt (lt_of_le_of_lt hle hfresh), hl⟩
  · rw [hmax] at hp
    rw [hdesc p (ne_of_gt hp)]
    exact h.linked p (hfresh.trans hp)
  · rw [hmax]
    rcases eq_or_ne t child with rfl | htc
    · rw [hself] at ht
      exact (hd p ht).1.trans hfresh.le
    · rw [hdesc t htc] at ht
      exact (h.led t p ht).trans hfresh.le

/-! ## What the handlers do -/

theorem Quiet.asleep (hq : Quiet s e s') (h : Asleep s) : Asleep s' := by
  have hqueue : s'.queue = s.queue := by rw [hq.same]
  have hcont : s'.cont = s.cont := by rw [hq.same]
  have hmax : s'.max_pid = s.max_pid := by rw [hq.same]
  have hgroups : s'.groups = s.groups := by rw [hq.same]
  have hback : ∀ p, (s'.desc p).allocated = true → (s.desc p).allocated = true := by
    intro p hp
    rcases hq.allocated p with ha | ⟨ha, -⟩
    · rw [← ha]
      exact hp
    · rw [ha] at hp
      cases hp
  refine ⟨fun w node hn => ?_, ?_, fun p hp hs => ?_, ?_, fun p hp => ?_,
    h.groups.congr hgroups hq.leader, fun p hp => ?_, fun t p ht => ?_⟩
  · rw [hqueue] at hn
    obtain ⟨hs, hal, hc⟩ := h.named w node hn
    rw [hq.state, hcont]
    refine ⟨hs, ?_, hc⟩
    rcases hq.allocated node.process with ha | ⟨-, hz⟩
    · rw [ha]
      exact hal
    · rw [hs] at hz
      cases hz
  · rw [hqueue]
    exact h.nodup
  · rw [hq.state] at hs
    rw [hqueue]
    exact h.waiting p (hback p hp) hs
  · rw [hqueue]
    exact h.exclusive
  · rw [hmax] at hp
    by_contra ha
    rw [Bool.not_eq_false] at ha
    have := h.fresh p hp
    rw [hback p ha] at this
    cases this
  · rw [hmax] at hp
    rw [hq.leader]
    exact h.linked p hp
  · rw [hq.leader] at ht
    rw [hmax]
    exact h.led t p ht

theorem Quiet.awake (hq : Quiet s e s') (ha : Awake s) : Awake s' := by
  have hcurrent : s'.current = s.current := by rw [hq.same]
  refine ⟨?_, ?_⟩
  · rw [hcurrent, hq.state]
    exact ha.running
  · rw [hcurrent]
    rcases hq.allocated s.current with hal | ⟨-, hz⟩
    · rw [hal]
      exact ha.allocated
    · rw [ha.running] at hz
      cases hz

/-- The thread joins the list of its leader. -/
theorem Asleep.thread (h : Asleep s) {child leader : PID}
    (hi : addLastNode (.thread_peers child) (.thread_group leader) s.groups = some s'.groups)
    (hl : (s.desc child).thread_leader = some leader) (hqueue : s'.queue = s.queue)
    (hdesc : s'.desc = s.desc) (hcont : s'.cont = s.cont) (hmax : s'.max_pid = s.max_pid) :
    Asleep s' := by
  have hsame : SameGroup s (.thread_peers child) (.thread_group leader) := by
    refine .inr ⟨hl, ?_⟩
    exact Option.isSome_iff_exists.mpr ⟨leader, hl⟩
  have hw := h.groups.within.addLastNode (sameGroup_equivalence s) hsame hi
  have hg : GroupsOk { s with groups := s'.groups } := ⟨hw.next, hw.prev, h.groups.leader⟩
  have hbase : Asleep { s with groups := s'.groups } :=
    ⟨h.named, h.nodup, h.waiting, h.exclusive, h.fresh, hg, h.linked, h.led⟩
  exact hbase.congr hqueue hdesc hcont hmax.ge rfl

theorem Awake.newProcess (ha : Awake s) (h : Asleep s) {child : PID} (d : Descriptor)
    (hc : child = s.max_pid + 1) : Awake (Sys.newProcess { s with max_pid := child } child d) := by
  have hne : s.current ≠ child := ne_of_lt (by
    rw [hc]
    exact Nat.lt_succ_of_le (ha.le_max h))
  refine ⟨?_, ?_⟩
  · exact (congrArg Descriptor.state (Function.update_of_ne hne _ _)).trans ha.running
  · exact (congrArg Descriptor.allocated (Function.update_of_ne hne _ _)).trans ha.allocated

/-- Marking nodes of a terminal's queue as exclusive. -/
theorem Asleep.promote (h : Asleep s) (tty : Nat) :
    Asleep (s.setQueue (.tty_write tty) (promote (s.queue (.tty_write tty)))) := by
  have hqueue := promote_processes s tty
  refine ⟨fun w node hn => ?_, fun w => ?_, fun p hp hs => ?_, fun w node hn => ?_, h.fresh,
    h.groups.congr rfl fun _ => rfl, h.linked, h.led⟩
  · have hm := List.mem_map_of_mem (f := WaitQueueNode.process) hn
    rw [hqueue] at hm
    obtain ⟨x, hx, he⟩ := List.mem_map.mp hm
    rw [← he]
    exact h.named w x hx
  · rw [hqueue]
    exact h.nodup w
  · obtain ⟨w, x, hx, he⟩ := h.waiting p hp hs
    have hm := List.mem_map_of_mem (f := WaitQueueNode.process) hx
    rw [← hqueue] at hm
    obtain ⟨y, hy, he'⟩ := List.mem_map.mp hm
    exact ⟨w, y, hy, he'.trans he⟩
  · rcases eq_or_ne w (.tty_write tty) with rfl | hw
    · exact .inr ⟨tty, rfl⟩
    · refine h.exclusive w node ?_
      unfold Sys.setQueue at hn
      simpa only [Function.update_of_ne hw] using hn

/-- The process has taken the lock, or has gone to sleep on its queue. -/
theorem Acquire.asleep {m : Nat} (hq : Acquire m s k t) (h : Asleep s) (ha : Awake s) :
    Asleep (t.setCont t.current k) := by
  cases hq with
  | again _ =>
    refine Asleep.setCont ?_ ?_ _
    · exact h.congr rfl rfl rfl (le_refl _) rfl
    · exact ha.congr rfl rfl
  | take _ =>
    refine Asleep.setCont ?_ ?_ _
    · exact h.congr rfl rfl rfl (le_refl _) rfl
    · exact ha.congr rfl rfl
  | block cvar _ => exact h.sleep ha rfl (.inl rfl)

theorem openMutex_asleep (m : Nat) (h : Asleep s) : Asleep (openMutex m s) := by
  unfold openMutex
  refine Asleep.signal ?_ _ _
  exact h.congr rfl rfl rfl (le_refl _) rfl

theorem openMutex_awake (m : Nat) (ha : Awake s) : Awake (openMutex m s) := by
  unfold openMutex
  refine Awake.signal ?_ _ _
  exact ha.congr rfl rfl

theorem Writing.asleep {tty position : Nat} {buffer : List UInt8}
    (hw : Writing s e tty buffer position s₁) (h : Asleep s) : Asleep s₁ := by
  rw [hw.same]
  exact h.congr rfl rfl rfl (le_refl _) rfl

theorem Writing.awake {tty position : Nat} {buffer : List UInt8}
    (hw : Writing s e tty buffer position s₁) (ha : Awake s) : Awake s₁ := by
  rw [hw.same]
  exact ha.congr rfl rfl

theorem ttyReadBegin_asleep (malloc : Bool) (tty : Nat) (line : List UInt8) (h : Asleep s)
    (ha : Awake s) :
    Asleep (ttyReadBegin malloc tty line s) ∧ Awake (ttyReadBegin malloc tty line s) := by
  unfold ttyReadBegin
  split
  · exact ⟨h, ha⟩
  · split
    · exact ⟨h.congr rfl rfl rfl (le_refl _) rfl, ha.congr rfl rfl⟩
    · refine ⟨Asleep.signal ?_ _ _, Awake.signal ?_ _ _⟩
      · exact h.congr rfl rfl rfl (le_refl _) rfl
      · exact ha.congr rfl rfl

theorem ttyWriteFinished_asleep (tty : Nat) (h : Asleep s) (ha : Awake s) :
    Asleep (ttyWriteFinished tty s) ∧ Awake (ttyWriteFinished tty s) := by
  unfold ttyWriteFinished
  split
  · exact ⟨h, ha⟩
  · refine ⟨(h.promote tty).signal _ _, Awake.signal ?_ _ _⟩
    exact ha.congr rfl rfl

/-- **A handler other than that of `Exit` keeps sleeping and queueing in agreement.** -/
theorem Effect.asleep (he : Effect s e k t) (h : Asleep s) (ha : Awake s) :
    Asleep (t.setCont t.current k) := by
  cases he with
  | quiet quiet _ _ _ => exact (quiet.asleep h).setCont (quiet.awake ha) k
  | noMemory =>
    refine Asleep.setCont ?_ ?_ _
    · exact h.congr rfl rfl rfl (Nat.le_succ _) rfl
    · exact ha.congr rfl rfl
  | fork leader made child listed =>
    subst made
    refine Asleep.setCont ?_ ?_ _
    · refine Asleep.congr (h.newProcess rfl rfl fun p hp => ?_) rfl rfl rfl (le_refl _) rfl
      cases hp
    · exact Awake.congr (ha.newProcess h _ rfl) rfl rfl
  | createThread leader made peer listed =>
    subst made
    refine Asleep.setCont ?_ ?_ _
    · refine (h.newProcess rfl rfl fun p hp => ?_).thread peer ?_ rfl rfl rfl rfl
      · cases hp
        exact ⟨ha.le_max h, leader⟩
      · rw [newProcess_desc_self]
    · exact Awake.congr (ha.newProcess h _ rfl) rfl rfl
  | acquire made acquire => exact acquire.asleep h ha
  | release _ made => exact (openMutex_asleep _ h).setCont (openMutex_awake _ ha) _
  | cvarWait mutex_id _ _ _ made cmade =>
    exact (openMutex_asleep _ h).sleep (openMutex_awake _ ha) rfl (.inl rfl)
  | waitFails _ made made' malloc acquire =>
    exact acquire.asleep (openMutex_asleep _ h) (openMutex_awake _ ha)
  | signal exclusive _ _ => exact (h.signal _ _).setCont (ha.signal _ _) _
  | readSleep u_length drained => exact h.sleep ha rfl (.inl rfl)
  | read ready run =>
    obtain ⟨bytes, -, -, -, rfl⟩ := ttyReadChunk_some run
    refine Asleep.setCont (Asleep.signal ?_ _ _) (Awake.signal ?_ _ _) _
    · exact h.congr rfl rfl rfl (le_refl _) rfl
    · exact ha.congr rfl rfl
  | receive _ =>
    obtain ⟨h', ha'⟩ := ttyReadBegin_asleep _ _ _ h ha
    exact h'.setCont ha' _
  | turnSleep buffer busy => exact h.sleep ha rfl (.inl rfl)
  | writeSleep writing more =>
    refine Asleep.sleep ?_ ?_ rfl (.inr ⟨_, rfl⟩)
    · exact (writing.asleep h).congr rfl rfl rfl (le_refl _) rfl
    · exact (writing.awake ha).congr rfl rfl
  | writeEnd writing done =>
    refine Asleep.setCont ?_ ?_ _
    · exact (writing.asleep h).congr rfl rfl rfl (le_refl _) rfl
    · exact (writing.awake ha).congr rfl rfl
  | finished _ =>
    obtain ⟨h', ha'⟩ := ttyWriteFinished_asleep _
      (s := { s with outstanding := Function.update s.outstanding _ (s.outstanding _ - 1) })
      (h.congr rfl rfl rfl (le_refl _) rfl) (ha.congr rfl rfl)
    exact h'.setCont ha' _

end Yalnix.System
