import Yalnix.System.ListSteps

/-!
# The lists of threads, in every run

A thread is put on the list of its leader when it is made, and nothing ever takes it off.

* `Grouped` — the list of every process holds all threads that it has ever made; `Grouped.step`
  asks for nothing but a step.
* `Joined.released` — a `joinThread` that returns 0 has released the thread.
* `Forgotten` — what it should leave; `joined_forgotten` is a run in which it does not.
* `join_never_forgets` — it does so in no run.
-/

set_option autoImplicit false

namespace Yalnix.System

open Ring (Heap IsRing Linked Rings Outside)
open Transition (Run)

variable {s s' s₁ t : Sys} {n m : Nat} {p q z child : PID} {e : Event} {k : Cont} {status : Int}
  {threads : PID → List PID} {thread_id : Int}

/-! ## The invariant -/

/-- The head of the list of threads of a process that has been made. -/
def Made (s : Sys) (a : GroupNode) : Prop := ∃ p, a = .thread_group p ∧ (s.groups a).isSome

structure Grouped (s : Sys) (threads : PID → List PID) : Prop where
  groups : Rings s.groups (Made s) (cohort threads)
  peers : ∀ p t, t ∈ threads p ↔ (s.desc t).thread_leader = some p
  made : ∀ p, s.max_pid < p → s.groups (.thread_group p) = none
  linked : ∀ p, s.max_pid < p → (s.desc p).thread_leader = none
  led : ∀ t p, (s.desc t).thread_leader = some p → p ≤ s.max_pid

theorem Grouped.ring (h : Grouped s threads) {b : GroupNode}
    (hp : s.groups.next (.thread_group p) = some b) :
    IsRing s.groups (.thread_group p) ((threads p).map .thread_peers) :=
  h.groups.ring _ ⟨p, rfl, Heap.isSome_of_next hp⟩

theorem Grouped.congr (h : Grouped s threads) (hgroups : s'.groups = s.groups)
    (hleader : ∀ q, (s'.desc q).thread_leader = (s.desc q).thread_leader)
    (hmax : s.max_pid ≤ s'.max_pid) : Grouped s' threads := by
  refine ⟨?_, fun p t => ?_, fun p hp => ?_, fun p hp => ?_, fun t p ht => ?_⟩
  · unfold Made
    rw [hgroups]
    exact h.groups
  · rw [hleader]
    exact h.peers p t
  · rw [hgroups]
    exact h.made p (lt_of_le_of_lt hmax hp)
  · rw [hleader]
    exact h.linked p (lt_of_le_of_lt hmax hp)
  · rw [hleader] at ht
    exact (h.led t p ht).trans hmax

theorem Culled.grouped {X : PID → Prop} (h : Culled X s s') (hg : Grouped s threads) :
    Grouped s' threads := by
  refine hg.congr h.groups (fun q => (h.desc q).leader) ?_
  rw [h.same]
  exact le_refl _

/-! ## A new process -/

/-- The nodes of a new process are part of no list. -/
theorem Grouped.outside (h : Grouped s threads) (hc : s.max_pid < child) :
    Outside (Made s) (cohort threads) (.thread_group child) ∧
      Outside (fun a => Made s a ∨ a = .thread_group child) (cohort threads)
        (.thread_peers child) := by
  have hmem : ∀ a x, x ∈ a :: cohort threads a → x = a ∨ ∃ p t, a = .thread_group p ∧
      x = .thread_peers t ∧ t ∈ threads p := by
    intro a x hx
    rcases List.mem_cons.mp hx with hx | hx
    · exact .inl hx
    · cases a with
      | thread_peers t => cases hx
      | thread_group p =>
        obtain ⟨t, ht, rfl⟩ := List.mem_map.mp hx
        exact .inr ⟨p, t, rfl, rfl, ht⟩
  constructor
  · rintro a ⟨p, rfl, hp⟩ hx
    rcases hmem _ _ hx with hx | ⟨q, t, -, hx, -⟩
    · cases hx
      rw [h.made child hc] at hp
      cases hp
    · cases hx
  · intro a ha hx
    rcases hmem _ _ hx with rfl | ⟨p, t, -, hx, ht⟩
    · rcases ha with ⟨p, hp, -⟩ | hp
      · cases hp
      · cases hp
    · cases hx
      rw [h.peers, h.linked child hc] at ht
      cases ht

/-- **A new process has a list of its own, and its node is on no list yet.** -/
theorem Grouped.newNodes (h : Grouped s threads) (hc : s.max_pid < child)
    (hgroups : t.groups = linkedListNodeInit (.thread_peers child)
      (linkedListNodeInit (.thread_group child) s.groups)) :
    Rings t.groups (Made t) (cohort threads) ∧
      Outside (Made t) (cohort threads) (.thread_peers child) := by
  have hnone : threads child = [] := by
    rw [List.eq_nil_iff_forall_not_mem]
    intro x hx
    exact absurd (h.led x child ((h.peers child x).mp hx)) (not_le.mpr hc)
  have hempty : cohort threads (.thread_group child) = [] := by
    rw [cohort_group, hnone]
    rfl
  have hsome : ∀ p, (t.groups (.thread_group p)).isSome →
      Made s (.thread_group p) ∨ GroupNode.thread_group p = .thread_group child := by
    intro p hp
    rcases eq_or_ne p child with rfl | hne
    · exact .inr rfl
    · rw [hgroups] at hp
      unfold linkedListNodeInit at hp
      rw [Function.update_of_ne (by simp), Function.update_of_ne (by simpa using hne)] at hp
      exact .inl ⟨p, rfl, hp⟩
  obtain ⟨hout, hout'⟩ := h.outside hc
  have hrings := Rings.linkedListNodeInit (Rings.linkedListNodeInit h.groups hout hempty) hout' rfl
  rw [← hgroups] at hrings
  refine ⟨hrings.mono ?_, ?_⟩
  · rintro a ⟨p, rfl, hp⟩
    exact .inl (hsome p hp)
  · rintro a ⟨p, rfl, hp⟩
    exact hout' _ (hsome p hp)

/-- A process without a leader. -/
theorem Grouped.fork (h : Grouped s threads) {d : Descriptor} (hd : d.thread_leader = none)
    (hdesc : t.desc = Function.update s.desc (s.max_pid + 1) d) (hmax : t.max_pid = s.max_pid + 1)
    (hgroups : t.groups = linkedListNodeInit (.thread_peers (s.max_pid + 1))
      (linkedListNodeInit (.thread_group (s.max_pid + 1)) s.groups)) : Grouped t threads := by
  have hlt := Nat.lt_succ_self s.max_pid
  have hleader : ∀ q, (t.desc q).thread_leader = (s.desc q).thread_leader := by
    intro q
    rw [hdesc]
    rcases eq_or_ne q (s.max_pid + 1) with rfl | hq
    · rw [Function.update_self, hd, h.linked _ hlt]
    · rw [Function.update_of_ne hq]
  refine ⟨(h.newNodes hlt hgroups).1, fun p x => ?_, fun p hp => ?_, fun p hp => ?_, fun x p hx => ?_⟩
  · rw [hleader]
    exact h.peers p x
  · rw [hmax] at hp
    rw [hgroups]
    unfold linkedListNodeInit
    rw [Function.update_of_ne (by simp), Function.update_of_ne (by simpa using hp.ne')]
    exact h.made p (hlt.trans hp)
  · rw [hmax] at hp
    rw [hleader]
    exact h.linked p (hlt.trans hp)
  · rw [hleader] at hx
    rw [hmax]
    exact (h.led x p hx).trans hlt.le

/-- A thread joins the list of its leader. -/
theorem Grouped.createThread (h : Grouped s threads) {d : Descriptor} {groups : Heap GroupNode}
    (hd : d.thread_leader = some p)
    (hdesc : s'.desc = Function.update s.desc (s.max_pid + 1) d) (hmax : s'.max_pid = s.max_pid + 1)
    (hgroups : groups = linkedListNodeInit (.thread_peers (s.max_pid + 1))
      (linkedListNodeInit (.thread_group (s.max_pid + 1)) s.groups))
    (hpeer : addLastNode (.thread_peers (s.max_pid + 1)) (.thread_group p) groups = some s'.groups) :
    Grouped s' (Function.update threads p (threads p ++ [s.max_pid + 1])) := by
  have hlt := Nat.lt_succ_self s.max_pid
  obtain ⟨hrings, hout⟩ := h.newNodes (t := { s' with groups := groups }) hlt hgroups
  have hisSome : ∀ x, (s'.groups x).isSome = (groups x).isSome := by
    intro x
    unfold addLastNode at hpeer
    obtain ⟨b, -, hi⟩ := Option.bind_eq_some_iff.mp hpeer
    obtain ⟨-, -, -, -, hsome⟩ := insertNode_some hi
    exact hsome x
  have hhead : (groups (.thread_group p)).isSome := by
    unfold addLastNode at hpeer
    obtain ⟨b, hb, -⟩ := Option.bind_eq_some_iff.mp hpeer
    exact Heap.isSome_of_prev hb
  have hnone : ∀ q, s.max_pid + 1 < q → groups (.thread_group q) = none := by
    intro q hq
    rw [hgroups]
    unfold linkedListNodeInit
    rw [Function.update_of_ne (by simp), Function.update_of_ne (by simpa using hq.ne')]
    exact h.made q (hlt.trans hq)
  have hp : p ≤ s.max_pid + 1 := by
    by_contra hgt
    rw [hnone p (not_le.mp hgt)] at hhead
    cases hhead
  refine ⟨?_, fun q x => ?_, fun q hq => ?_, fun q hq => ?_, fun x q hx => ?_⟩
  · have hadd := Rings.addLastNode hrings ⟨p, rfl, hhead⟩ hout hpeer
    rw [cohort_update, List.map_append, ← cohort_group]
    refine hadd.mono ?_
    rintro a ⟨q, rfl, hq⟩
    rw [hisSome] at hq
    exact ⟨q, rfl, hq⟩
  · -- the new thread is on the list of its leader only
    rw [hdesc]
    rcases eq_or_ne x (s.max_pid + 1) with rfl | hx
    · rw [Function.update_self, hd]
      have hold : ∀ q, s.max_pid + 1 ∉ threads q := by
        intro q hm
        have := (h.peers q _).mp hm
        rw [h.linked _ hlt] at this
        cases this
      rcases eq_or_ne q p with rfl | hq
      · rw [Function.update_self]
        simp
      · rw [Function.update_of_ne hq]
        exact iff_of_false (hold q) (by simpa using hq.symm)
    · rw [Function.update_of_ne hx, ← h.peers q x]
      rcases eq_or_ne q p with rfl | hq
      · rw [Function.update_self]
        simp [hx]
      · rw [Function.update_of_ne hq]
  · rw [hmax] at hq
    have := hisSome (.thread_group q)
    rw [hnone q hq] at this
    simpa using this
  · rw [hmax] at hq
    rw [hdesc, Function.update_of_ne hq.ne']
    exact h.linked q (hlt.trans hq)
  · rw [hdesc] at hx
    rw [hmax]
    rcases eq_or_ne x (s.max_pid + 1) with rfl | hne
    · rw [Function.update_self, hd] at hx
      cases hx
      exact hp
    · rw [Function.update_of_ne hne] at hx
      exact (h.led x q hx).trans hlt.le

/-! ## Steps -/

/-- Threads stay on the lists they are on, and who has been released stays so. -/
structure Grows (s t : Sys) (threads threads' : PID → List PID) : Prop where
  max : s.max_pid ≤ t.max_pid
  nodes : ∀ a, (s.groups a).isSome → (t.groups a).isSome
  stay : ∀ p x, x ∈ threads p → x ∈ threads' p
  gone : ∀ q, q ≤ s.max_pid → (s.desc q).allocated = false → (t.desc q).allocated = false

theorem Grows.refl (s : Sys) (threads : PID → List PID) : Grows s s threads threads :=
  ⟨le_refl _, fun _ ha => ha, fun _ _ hx => hx, fun _ _ hq => hq⟩

theorem Grows.trans {threads' threads'' : PID → List PID} (h : Grows s s₁ threads threads')
    (h' : Grows s₁ s' threads' threads'') : Grows s s' threads threads'' :=
  ⟨h.max.trans h'.max, fun a ha => h'.nodes a (h.nodes a ha),
    fun p x hx => h'.stay p x (h.stay p x hx),
    fun q hq hal => h'.gone q (hq.trans h.max) (h.gone q hq hal)⟩

theorem linkedListNodeInit_isSome {h : Heap GroupNode} {a x : GroupNode} (ha : (h a).isSome) :
    (linkedListNodeInit x h a).isSome := by
  unfold linkedListNodeInit
  rcases eq_or_ne a x with rfl | hne
  · rw [Function.update_self]
    rfl
  · rw [Function.update_of_ne hne]
    exact ha

/-- **What a step without an exit does to the lists of threads.** -/
theorem OnProcesses.grouped (hp : OnProcesses s e k t) (h : Grouped s threads) :
    ∃ threads', Grouped t threads' ∧ Grows s t threads threads' := by
  have hstays : ∀ q d, q ≤ s.max_pid →
      Function.update s.desc (s.max_pid + 1) d q = s.desc q := fun q d hq =>
    Function.update_of_ne (Nat.lt_succ_of_le hq).ne _ _
  cases hp with
  | synced synced =>
    have hgroups : t.groups = s.groups := by rw [synced.same]
    have hmax : t.max_pid = s.max_pid := by rw [synced.same]
    refine ⟨threads, h.congr hgroups (fun q => ?_) hmax.ge, hmax.ge, fun a ha => ?_, fun _ _ hx => hx,
      fun q _ hq => ?_⟩
    · rw [synced.desc q]
    · rw [hgroups]
      exact ha
    · rw [synced.desc q]
      exact hq
  | quiet quiet _ _ _ =>
    have hgroups : t.groups = s.groups := by rw [quiet.same]
    have hmax : t.max_pid = s.max_pid := by rw [quiet.same]
    refine ⟨threads, h.congr hgroups quiet.leader hmax.ge, hmax.ge, fun a ha => ?_, fun _ _ hx => hx,
      fun q _ hq => ?_⟩
    · rw [hgroups]
      exact ha
    · rcases quiet.allocated q with hal | ⟨hal, -⟩
      · exact hal.trans hq
      · exact hal
  | noMemory =>
    exact ⟨threads, h.congr rfl (fun _ => rfl) (Nat.le_succ _), Nat.le_succ _, fun _ ha => ha,
      fun _ _ hx => hx, fun _ _ hq => hq⟩
  | fork leader made child listed =>
    subst made
    refine ⟨threads, h.fork rfl rfl rfl rfl, Nat.le_succ _,
      fun a ha => linkedListNodeInit_isSome (linkedListNodeInit_isSome ha), fun _ _ hx => hx,
      fun q hq hal => ?_⟩
    exact (congrArg Descriptor.allocated (hstays q _ hq)).trans hal
  | @createThread s₁ groups procs leader made peer listed =>
    subst made
    refine ⟨_, h.createThread rfl rfl rfl rfl peer, Nat.le_succ _, fun a ha => ?_, fun p x hx => ?_,
      fun q hq hal => ?_⟩
    · unfold addLastNode at peer
      obtain ⟨b, -, hi⟩ := Option.bind_eq_some_iff.mp peer
      obtain ⟨-, -, -, -, hsome⟩ := insertNode_some hi
      change (groups a).isSome
      rw [hsome]
      exact linkedListNodeInit_isSome (linkedListNodeInit_isSome ha)
    · rcases eq_or_ne p s.current with rfl | hne
      · rw [Function.update_self]
        exact List.mem_append_left _ hx
      · rw [Function.update_of_ne hne]
        exact hx
    · exact (congrArg Descriptor.allocated (hstays q _ hq)).trans hal

/-- What holds in every state that the kernel gets into. -/
structure Formed (s : Sys) (threads : PID → List PID) : Prop where
  objects : Objects s
  grouped : Grouped s threads

/-- **Any step keeps the lists of threads, with all that is on them.** -/
theorem Formed.step (h : Formed s threads) (hstep : Step s e s') :
    ∃ threads', Formed s' threads' ∧ Grows s s' threads threads' := by
  by_cases he : ∃ status, e = .exit status
  · obtain ⟨status, rfl⟩ := he
    obtain ⟨t, hcull, hend⟩ := hstep.exit_culled
    have hobjects : Objects t := by
      apply h.objects.congr
      all_goals
        rw [hcull.same]
        rfl
    have hmax : t.max_pid = s.max_pid := by
      rw [hcull.same]
      rfl
    have hgrows : Grows s t threads threads := by
      refine ⟨hmax.ge, fun a ha => ?_, fun _ _ hx => hx, fun q _ hq => ?_⟩
      · rw [hcull.groups]
        exact ha
      rcases (hcull.desc q).allocated with hal | ⟨hal, -⟩
      · exact hal.trans hq
      · exact hal
    have hgrouped := hcull.grouped h.grouped
    rcases hend with rfl | ⟨q, rfl⟩
    · exact ⟨threads, ⟨hobjects.setCont (k := .user) True.intro _, hgrouped.congr rfl (fun _ => rfl) (le_refl _)⟩,
        hgrows.max, hgrows.nodes, hgrows.stay, hgrows.gone⟩
    · exact ⟨threads, ⟨hobjects.congr rfl rfl rfl rfl rfl,
        hgrouped.congr rfl (fun _ => rfl) (le_refl _)⟩, hgrows.max, hgrows.nodes, hgrows.stay, hgrows.gone⟩
  · cases hstep.leads h.objects fun status hs => he ⟨status, hs⟩ with
    | stays effect ends =>
      obtain ⟨threads', hgrouped, hgrows⟩ := effect.processes.grouped h.grouped
      subst ends
      exact ⟨threads', ⟨effect.objects h.objects, hgrouped.congr rfl (fun _ => rfl) (le_refl _)⟩,
        hgrows.max, hgrows.nodes, hgrows.stay, hgrows.gone⟩
    | leaves kernel effect next ends =>
      obtain ⟨threads', hgrouped, hgrows⟩ := effect.processes.grouped h.grouped
      subst ends
      exact ⟨threads', ⟨(effect.objects h.objects).congr rfl rfl rfl rfl rfl,
        hgrouped.congr rfl (fun _ => rfl) (le_refl _)⟩, hgrows.max, hgrows.nodes, hgrows.stay, hgrows.gone⟩

theorem Formed.run {es : List Event} (hrun : Run Step s es t) :
    ∀ {threads : PID → List PID}, Formed s threads →
      ∃ threads', Formed t threads' ∧ Grows s t threads threads' := by
  induction hrun with
  | nil => exact fun h => ⟨_, h, Grows.refl _ _⟩
  | cons head _ ih =>
    intro threads h
    obtain ⟨threads₁, h₁, hgrows⟩ := h.step head
    obtain ⟨threads', h', hgrows'⟩ := ih h₁
    exact ⟨threads', h', hgrows.trans hgrows'⟩

theorem formed_boot : Formed bootSys fun _ => [] := by
  have hnone : ∀ p, p ≠ 1 → bootSys.groups (.thread_group p) = none := by
    intro p hp
    have hgroups : bootSys.groups = linkedListNodeInit (GroupNode.thread_peers 1)
        (linkedListNodeInit (GroupNode.thread_group 1) fun _ => none) := rfl
    rw [hgroups]
    unfold linkedListNodeInit
    rw [Function.update_of_ne (by simp), Function.update_of_ne (by simpa using hp)]
  have hone : ∀ a, Made bootSys a → a = .thread_group 1 := by
    rintro a ⟨p, rfl, hp⟩
    by_contra hne
    rw [hnone p fun he => hne (by rw [he])] at hp
    cases hp
  refine ⟨objects_boot, ⟨fun a ha => ?_, fun a b x ha hb _ _ => (hone a ha).trans (hone b hb).symm⟩,
    fun p x => ?_, fun p hp => hnone p (ne_of_gt hp), fun p _ => bootSys_leader p, fun x p hx => ?_⟩
  · rw [hone a ha]
    decide
  · rw [bootSys_leader]
    simp
  · rw [bootSys_leader] at hx
    cases hx

/-! ## Joining -/

/-- A `joinThread` that returns 0 has released a thread of the caller, the one of that pid. -/
theorem joinLoop_finds (h : Grouped s threads) (hrun : joinLoop n thread_id s = .ret 0 s') :
    ∃ (z : PID) (stale_read : Bool), (z : Int) = thread_id ∧
      (s.desc z).thread_leader = some s.current ∧ (s.groups (.thread_group s.current)).isSome ∧
        releaseProcess n z { s with stale_read := stale_read } = some s' := by
  unfold joinLoop at hrun
  cases hfound : (s.groups.next (.thread_group s.current)).bind
      fun first => findThread (.thread_group s.current) thread_id n first s with
  | none =>
    rw [hfound] at hrun
    cases hrun
  | some x =>
    obtain ⟨o, s₁⟩ := x
    rw [hfound] at hrun
    cases o with
    | none => cases hrun
    | some z =>
      dsimp only at hrun
      obtain ⟨pos, hfirst, hfind⟩ := Option.bind_eq_some_iff.mp hfound
      have hring := h.ring hfirst
      have hm := findThread_mem hring (hring.next_mem List.mem_cons_self hfirst) hfind
      obtain ⟨x, hx, he⟩ := List.mem_map.mp hm
      cases he
      have hid := ((findThread_spec hfind).2 z rfl).2
      obtain ⟨stale_read, rfl⟩ := findThread_same hfind
      refine ⟨z, stale_read, hid, (h.peers _ z).mp hx, Heap.isSome_of_next hfirst, ?_⟩
      cases hr : releaseProcess n z { s with stale_read := stale_read } with
      | none =>
        rw [hr] at hrun
        cases hrun
      | some s₁ =>
        rw [hr] at hrun
        cases hrun
        rfl

theorem joinThread_finds (h : Grouped s threads) (hj : Joins s e thread_id)
    (hrun : handle n s e = .ret 0 s') : ∃ (z : PID) (stale_read : Bool), (z : Int) = thread_id ∧
      (s.desc z).thread_leader = some s.current ∧ (s.groups (.thread_group s.current)).isSome ∧
        releaseProcess n z { s with stale_read := stale_read } = some s' := by
  rcases hj with rfl | ⟨⟨mallocs, rfl⟩, hcont⟩
  · change joinThread n thread_id s = .ret 0 s' at hrun
    unfold joinThread at hrun
    split at hrun
    · cases hrun
    · cases hrun
    · exact joinLoop_finds h hrun
  · change resume n mallocs s (s.cont s.current) = .ret 0 s' at hrun
    rw [hcont] at hrun
    exact joinLoop_finds h hrun

/-- What is left when `p` has joined its thread `z`. -/
structure Forgotten (s : Sys) (p z : PID) : Prop where
  /-- The thread is not on the process list. -/
  unlisted : ∀ l, IsRing s.procs .process_head l → .process_list z ∉ l
  /-- The list of threads holds those that have not been joined. -/
  group : ∃ ts : List PID, IsRing s.groups (.thread_group p) (ts.map .thread_peers) ∧ z ∉ ts ∧
    ∀ q, q ∈ ts ↔ (s.desc q).thread_leader = some p ∧ (s.desc q).allocated = true
  /-- Nobody that has been released is on the list that later joins, and the exit of `p`, walk. -/
  later : ∀ es u, Run Step s es u → ∀ ts : List PID,
    IsRing u.groups (.thread_group p) (ts.map .thread_peers) → ∀ q ∈ ts, (u.desc q).allocated = true

/-- A `joinThread` returns 0. -/
inductive Joined (s : Sys) (e : Event) (thread_id : Int) : Sys → Prop
  | returned {n : Nat} {t : Sys} (enabled : Enabled s e) (call : Joins s e thread_id)
      (ret : handle n s e = .ret 0 t) : Joined s e thread_id (t.setCont t.current .user)

theorem Joined.step (h : Joined s e thread_id s') : Step s e s' := by
  cases h with
  | returned enabled call ret => exact ⟨enabled, _, ret ▸ Ends.ret⟩

/-- The thread has been released, and the lists of threads are the same. -/
theorem Joined.released (h : Joined s e thread_id s') (hg : Grouped s threads) :
    ∃ z : PID, (z : Int) = thread_id ∧ (s'.desc z).thread_leader = some s.current ∧
      (s'.desc z).allocated = false ∧ (s'.groups (.thread_group s.current)).isSome := by
  cases h with
  | @returned n t enabled call ret =>
    obtain ⟨z, stale_read, hid, hleader, hhead, hrelease⟩ := joinThread_finds hg call ret
    have hreleased := (releaseProcess_released hrelease).unread
    have hgroups : t.groups = s.groups := by
      rw [hreleased.same]
      rfl
    have hfreed := releaseProcess_frees hrelease
    refine ⟨z, hid, (hreleased.desc z).leader.trans hleader, hfreed, ?_⟩
    change (t.groups (.thread_group s.current)).isSome
    rw [hgroups]
    exact hhead

/-- Joining a thread forgets it. -/
def JoinForgets : Prop := ∀ es s, Run Step bootSys es s → ∀ e thread_id s', Joined s e thread_id s' →
  ∀ z : PID, (z : Int) = thread_id → Forgotten s' s.current z

/-- Process 1 makes thread 2, which exits. -/
def exitedThread : List Event := [.createThread true, .clock, .resume [], .exit 0, .resume []]

/-- What the call has returned, and the state it leaves. -/
def Outcome.returned : Outcome → Option (Int × Sys)
  | .ret r s => some (r, s)
  | _ => none

/-- Process 1 joins it. -/
theorem exitedThread_joined : ∃ s s', Run Step bootSys exitedThread s ∧
    Joined s (.joinThread 2) 2 s' ∧ s.current = 1 ∧ (s'.desc 2).allocated = false ∧
      IsRing s'.groups (.thread_group 1) [.thread_peers 2] := by
  have hrun : ((execAll 8 bootSys exitedThread).bind fun s =>
      (handle 8 s (.joinThread 2)).returned.map fun x =>
        (decide (s.cont s.current = .user), s.current, x.1, (x.2.desc 2).allocated,
          decide (IsRing x.2.groups (.thread_group 1) [.thread_peers 2]))) =
      some (true, 1, 0, false, true) := by
    decide +kernel
  obtain ⟨s, hs, hjoin⟩ := Option.bind_eq_some_iff.mp hrun
  generalize ho : handle 8 s (.joinThread 2) = o at hjoin
  cases o with
  | schedule k t => cases hjoin
  | switched t => cases hjoin
  | fault => cases hjoin
  | ret r t =>
    simp only [Outcome.returned, Option.map_some, Option.some.injEq, Prod.mk.injEq,
      decide_eq_true_eq] at hjoin
    obtain ⟨huser, hcurrent, rfl, hfreed, hring⟩ := hjoin
    exact ⟨s, _, execAll_run hs, .returned huser (.inl rfl) ho, hcurrent, hfreed, hring⟩

/-- **Process 1 joins thread 2, which stays on the list.** -/
theorem joined_forgotten : ¬ JoinForgets := by
  intro hall
  obtain ⟨s, s', hrun, hjoined, hcurrent, hfreed, hring⟩ := exitedThread_joined
  have hforgot := hall _ s hrun _ _ _ hjoined 2 rfl
  rw [hcurrent] at hforgot
  have hlive := hforgot.later [] s' .nil [2] hring 2 List.mem_cons_self
  rw [hfreed] at hlive
  cases hlive

/-- **No `joinThread` forgets the thread: in every later state it is on the list of its leader,
and its descriptor has been released.** -/
theorem join_never_forgets {es : List Event} (hrun : Run Step bootSys es s)
    (hj : Joined s e thread_id s') : ∃ z : PID, (z : Int) = thread_id ∧ ¬ Forgotten s' s.current z ∧
      ∀ es u, Run Step s' es u → (u.desc z).allocated = false ∧
        ∃ ts : List PID, IsRing u.groups (.thread_group s.current) (ts.map .thread_peers) ∧ z ∈ ts := by
  obtain ⟨threads, hformed, -⟩ := formed_boot.run hrun
  obtain ⟨threads', hformed', -⟩ := hformed.step hj.step
  obtain ⟨z, hid, hleader, hfreed, hhead⟩ := hj.released hformed.grouped
  have hmem := (hformed'.grouped.peers _ z).mpr hleader
  have hle : z ≤ s'.max_pid := by
    by_contra hgt
    rw [hformed'.grouped.linked z (not_le.mp hgt)] at hleader
    cases hleader
  have hlater : ∀ es u, Run Step s' es u → (u.desc z).allocated = false ∧
      ∃ ts : List PID, IsRing u.groups (.thread_group s.current) (ts.map .thread_peers) ∧ z ∈ ts := by
    intro es u hu
    obtain ⟨threads'', hformed'', hgrows⟩ := hformed'.run hu
    refine ⟨hgrows.gone z hle hfreed, threads'' s.current, ?_, hgrows.stay _ _ hmem⟩
    exact hformed''.grouped.groups.ring _ ⟨_, rfl, hgrows.nodes _ hhead⟩
  refine ⟨z, hid, fun hforgot => ?_, hlater⟩
  obtain ⟨hgone, ts, hring, hin⟩ := hlater [] s' .nil
  have hlive := hforgot.later [] s' .nil ts hring z hin
  rw [hgone] at hlive
  cases hlive

theorem join_never_forgets_two : ∃ s s', Joined s (.joinThread 2) 2 s' ∧
    ¬ Forgotten s' s.current 2 := by
  obtain ⟨s, s', hrun, hjoined, -⟩ := exitedThread_joined
  obtain ⟨z, hz, hnot, -⟩ := join_never_forgets hrun hjoined
  have hz2 : z = 2 := by exact_mod_cast hz
  subst hz2
  exact ⟨s, s', hjoined, hnot⟩

end Yalnix.System
