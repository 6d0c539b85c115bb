import Yalnix.System.Astray
import Yalnix.System.ListSteps

/-!
# Runs with isolated lists of children

* `Resting s H A first` — the processes in `H` are zombies, on no wait queue, and their lists of
  children are isolated.
* `OnProcesses.isolated`, `Resting.exit` — what a step does to them.
* `Resting.run` — they stay so, and none is released whose list leads elsewhere.
-/

set_option autoImplicit false

namespace Yalnix.System

open Ring (Heap IsRing Linked)
open Transition (Run)

variable {s s' s₁ t : Sys} {n m : Nat} {p q c z P : PID} {H A : PID → Prop} {first : PID → TreeNode}
  {status : Int} {e : Event} {k : Cont}

/-! ## Groups in any state -/

/-- Who leads whom, whatever has gone wrong. -/
structure Grouping (s : Sys) : Prop where
  ok : GroupsOk s
  linked : ∀ p, s.max_pid < p → (s.desc p).thread_leader = none
  led : ∀ t p, (s.desc t).thread_leader = some p → p ≤ s.max_pid

theorem Asleep.grouping (h : Asleep s) : Grouping s := ⟨h.groups, h.linked, h.led⟩

theorem Grouping.congr (h : Grouping s) (hgroups : t.groups = s.groups)
    (hleader : ∀ q, (t.desc q).thread_leader = (s.desc q).thread_leader)
    (hmax : s.max_pid ≤ t.max_pid) : Grouping t := by
  refine ⟨h.ok.congr hgroups hleader, fun p hp => ?_, fun x p hx => ?_⟩
  · rw [hleader]
    exact h.linked p (lt_of_le_of_lt hmax hp)
  · rw [hleader] at hx
    exact (h.led x p hx).trans hmax

theorem Grouping.newProcess (h : Grouping s) {d : Descriptor}
    (hd : ∀ p, d.thread_leader = some p → p ≤ s.max_pid ∧ (s.desc p).thread_leader = none) :
    Grouping (Sys.newProcess { s with max_pid := s.max_pid + 1 } (s.max_pid + 1) d) := by
  have hlt := Nat.lt_succ_self s.max_pid
  have hother : ∀ q, q ≠ s.max_pid + 1 →
      (Sys.newProcess { s with max_pid := s.max_pid + 1 } (s.max_pid + 1) d).desc q = s.desc q :=
    fun q hq => newProcess_desc_of_ne hq _ _
  have hbase : GroupsOk { s with max_pid := s.max_pid + 1 } := h.ok.congr rfl fun _ => rfl
  refine ⟨hbase.newProcess (h.linked _ hlt) (fun x hx => ?_) fun p hp => ?_, fun p hp => ?_,
    fun x p hx => ?_⟩
  · exact absurd (h.led x _ hx) (not_le.mpr hlt)
  · obtain ⟨hle, hl⟩ := hd p hp
    exact ⟨ne_of_lt (Nat.lt_succ_of_le hle), hl⟩
  · change s.max_pid + 1 < p at hp
    rw [hother p hp.ne']
    exact h.linked p (hlt.trans hp)
  · change p ≤ s.max_pid + 1
    rcases eq_or_ne x (s.max_pid + 1) with rfl | hne
    · rw [newProcess_desc_self] at hx
      exact (hd p hx).1.trans hlt.le
    · rw [hother x hne] at hx
      exact (h.led x p hx).trans hlt.le

theorem OnProcesses.grouping (hp : OnProcesses s e k t) (h : Grouping s)
    (hcurrent : s.current ≤ s.max_pid) : Grouping t := by
  cases hp with
  | synced synced =>
    refine h.congr ?_ (fun q => ?_) ?_
    · rw [synced.same]
    · rw [synced.desc q]
    · rw [synced.same]
  | quiet quiet _ _ _ =>
    refine h.congr ?_ quiet.leader ?_
    · rw [quiet.same]
    · rw [quiet.same]
  | noMemory => exact h.congr rfl (fun _ => rfl) (Nat.le_succ _)
  | fork _ made _ _ =>
    subst made
    exact (h.newProcess (by simp [newDescriptor])).congr rfl (fun _ => rfl) (le_refl _)
  | @createThread s₁ groups procs leader made peer _ =>
    have hnew : Grouping s₁ := by
      rw [made]
      refine h.newProcess fun p hp => ?_
      cases hp
      exact ⟨hcurrent, leader⟩
    have hself : (s₁.desc (s.max_pid + 1)).thread_leader = some s.current := by
      rw [made, newProcess_desc_self]
    have hsame : SameGroup s₁ (.thread_peers (s.max_pid + 1)) (.thread_group s.current) := by
      refine .inr ⟨hself, ?_⟩
      exact Option.isSome_iff_exists.mpr ⟨_, hself⟩
    have hw := hnew.ok.within.addLastNode (sameGroup_equivalence s₁) hsame peer
    exact ⟨⟨hw.next, hw.prev, hnew.ok.leader⟩, hnew.linked, hnew.led⟩

/-! ## Searches -/

theorem findZombie_near {head : TreeNode} (hc : Confined (Near H A) s.tree) :
    ∀ {n : Nat} {pos : TreeNode}, Near H A pos → findZombie s head n pos = some (some z) →
      A z ∧ z ≠ 1
  | 0, _, _, h => by cases h
  | n + 1, pos, hpos, h => by
    unfold findZombie at h
    split at h
    · cases h
    · cases pos with
      | children q => cases h
      | siblings q =>
        dsimp only at h
        split at h
        · cases h
          exact hpos
        · obtain ⟨next, hnext, h⟩ := Option.bind_eq_some_iff.mp h
          exact findZombie_near hc (hc.next _ _ hpos hnext) h

theorem findThread_group {head : GroupNode} {thread_id : Int} :
    ∀ {n : Nat} {pos : GroupNode} {s t : Sys}, GroupsOk s → groupOf s pos = some p →
      findThread head thread_id n pos s = some (some z, t) → (s.desc z).thread_leader = some p
  | 0, _, _, _, _, _, h => by cases h
  | n + 1, pos, s, t, hg, hpos, h => by
    unfold findThread at h
    split at h
    · cases h
    · cases pos with
      | thread_group q => cases h
      | thread_peers q =>
        have hdesc := s.follow_desc q
        have hread : GroupsOk (s.follow q) :=
          hg.congr (s.follow_groups q) fun x => by rw [hdesc]
        dsimp only at h
        split at h
        · cases h
          exact hpos
        · obtain ⟨next, hnext, h⟩ := Option.bind_eq_some_iff.mp h
          have hpos' : groupOf (s.follow q) (.thread_peers q) = some p := by
            unfold groupOf
            rw [hdesc]
            exact hpos
          rw [← hdesc]
          refine findThread_group hread ?_ h
          rcases hread.next _ _ hnext with he | ⟨he, -⟩
          · rw [← he]
            exact hpos'
          · rw [← he]
            exact hpos'

theorem nextProcess_near (hc : Confined (Enlisted A) s.procs) :
    ∀ {n : Nat} {node : ProcNode}, Enlisted A node → nextProcess s n node = some q → A q
  | 0, _, _, h => by cases h
  | n + 1, node, hnode, h => by
    unfold nextProcess at h
    split at h
    · cases h
    · have hhead : Enlisted A .process_head := True.intro
      exact nextProcess_near hc hhead h
    · rename_i p hnext
      have hp : Enlisted A (.process_list p) := hc.next _ _ hnode hnext
      split at h
      · cases h
        exact hp
      · exact nextProcess_near hc hp h

/-! ## Steps without an exit -/

structure Resting (s : Sys) (H A : PID → Prop) (first : PID → TreeNode) : Prop where
  isolated : Isolated s H A first
  zombie : ∀ P, H P → (s.desc P).state = .ZOMBIE
  queued : ∀ w, ∀ node ∈ s.queue w, ¬ H node.process
  current : A s.current ∧ ¬ H s.current
  listed : ∀ q, (s.desc q).allocated = true → A q
  old : ∀ q, A q → q ≤ s.max_pid
  grouping : Grouping s
  objects : Objects s

theorem Resting.eligible (h : Resting s H A first) (hP : H P) : ¬ s.eligible P := by
  intro he
  have hrun := he.1
  rw [h.zombie P hP] at hrun
  cases hrun

/-- The nodes of a new process are near by. -/
theorem near_new (hH : ¬ H c) (hc : c ≠ 1) (a : TreeNode) :
    ((Near H A a ∨ a = .children c) ∨ a = .siblings c) ↔ Near H (fun q => A q ∨ q = c) a := by
  cases a with
  | children q =>
    unfold Near
    simp only [TreeNode.children.injEq, reduceCtorEq, or_false]
    constructor
    · rintro (⟨hA, hq⟩ | rfl)
      · exact ⟨.inl hA, hq⟩
      · exact ⟨.inr rfl, hH⟩
    · rintro ⟨hA | rfl, hq⟩
      · exact .inl ⟨hA, hq⟩
      · exact .inr rfl
  | siblings q =>
    unfold Near
    simp only [TreeNode.siblings.injEq, reduceCtorEq, or_false]
    constructor
    · rintro (⟨hA, hq⟩ | rfl)
      · exact ⟨.inl hA, hq⟩
      · exact ⟨.inr rfl, hc⟩
    · rintro ⟨hA | rfl, hq⟩
      · exact .inl ⟨hA, hq⟩
      · exact .inr rfl

theorem Confined.iff {ν : Type} {X Y : ν → Prop} {h : Heap ν} (hc : Confined X h)
    (hXY : ∀ a, X a ↔ Y a) : Confined Y h :=
  ⟨fun a b ha hb => (hXY b).mp (hc.next a b ((hXY a).mpr ha) hb),
    fun a b ha hb => (hXY b).mp (hc.prev a b ((hXY a).mpr ha) hb)⟩

/-- **A new process is near by.** -/
theorem Isolated.newProcess (h : Isolated s H A first) {d : Descriptor} (hH : ¬ H c) (hc : c ≠ 1)
    (hd : ∀ g, d.parent = some g → A g ∧ ¬ H g) (max : Nat) :
    Isolated (Sys.newProcess { s with max_pid := max } c d) H (fun q => A q ∨ q = c) first := by
  have hother : ∀ q, q ≠ c → (Sys.newProcess { s with max_pid := max } c d).desc q = s.desc q :=
    fun q hq => newProcess_desc_of_ne hq _ _
  have hne : ∀ P, H P → P ≠ c := by
    rintro P hP rfl
    exact hH hP
  have htree := (((h.tree.linkedListNodeInit (.children c)).linkedListNodeInit (.siblings c)).add
    (x := .children c) ?_ ?_).add (x := .siblings c) ?_ ?_
  · refine ⟨fun P hP => ?_, ⟨.inl h.root.1, ?_, ?_⟩, fun P hP => ?_, fun P hP => ?_,
      Confined.iff htree (near_new hH hc), ?_, h.idle.linkedListNodeInit c, fun q g hq hg => ?_⟩
    · obtain ⟨hA, h1, hl⟩ := h.member P hP
      rw [hother P (hne P hP)]
      exact ⟨.inl hA, h1, hl⟩
    · rw [hother 1 hc.symm]
      exact h.root.2.1
    · rw [hother 1 hc.symm]
      exact h.root.2.2
    · change (linkedListNodeInit (.siblings c) (linkedListNodeInit (.children c) s.tree)).next _ = _
      rw [linkedListNodeInit_next, linkedListNodeInit_next, Function.update_of_ne (by simp),
        Function.update_of_ne (by simpa using hne P hP)]
      exact h.head P hP
    · rcases h.aim P hP with hself | hnear
      · left
        refine hself.congr (fun x hx => ?_) fun x hx => ?_
        all_goals
          rw [List.mem_singleton.mp hx]
        · change (linkedListNodeInit (.siblings c) (linkedListNodeInit (.children c) s.tree)).next _ = _
          rw [linkedListNodeInit_next, linkedListNodeInit_next, Function.update_of_ne (by simp),
            Function.update_of_ne (by simpa using hne P hP)]
        · change (linkedListNodeInit (.siblings c) (linkedListNodeInit (.children c) s.tree)).prev _ = _
          rw [linkedListNodeInit_prev, linkedListNodeInit_prev, Function.update_of_ne (by simp),
            Function.update_of_ne (by simpa using hne P hP)]
      · exact .inr ((near_new hH hc _).mp (.inl (.inl hnear)))
    · have hprocs := (h.procs.linkedListNodeInit (.process_list c)).add (x := .process_list c) ?_ ?_
      · refine Confined.iff hprocs fun a => ?_
        cases a with
        | process_head => exact iff_of_true (.inl True.intro) True.intro
        | process_list q =>
          unfold Enlisted
          simp
      · rw [linkedListNodeInit_next, Function.update_self]
      · rw [linkedListNodeInit_prev, Function.update_self]
    · rcases eq_or_ne q c with rfl | hqc
      · rw [newProcess_desc_self] at hg
        exact (hd g hg).imp_left .inl
      · rw [hother q hqc] at hg
        exact (h.parent q g (hq.resolve_right hqc) hg).imp_left .inl
  · rw [linkedListNodeInit_next, linkedListNodeInit_next, Function.update_of_ne (by simp),
      Function.update_self]
  · rw [linkedListNodeInit_prev, linkedListNodeInit_prev, Function.update_of_ne (by simp),
      Function.update_self]
  · rw [linkedListNodeInit_next, Function.update_self]
  · rw [linkedListNodeInit_prev, Function.update_self]

/-- A new process joins lists of processes that are near by. -/
theorem Isolated.join (h : Isolated s H A first) {tree : Heap TreeNode} {procs : Heap ProcNode}
    (htree : Inside (Near H A) s.tree tree) (hprocs : Inside (Enlisted A) s.procs procs)
    (hidle : IdleFirst procs) {groups : Heap GroupNode} :
    Isolated { s with tree := tree, procs := procs, groups := groups } H A first := by
  have hafter := h.inside htree
  exact ⟨h.member, h.root, hafter.head, hafter.aim, hafter.tree, hprocs.confined, hidle, h.parent⟩

/-- A release that `waitForPID` or `joinThread` makes. -/
theorem Reaps.isolated (hr : Reaps s e t) (h : Resting s H A first)
    (hjoins : ∀ thread_id, Joins s e thread_id → ∀ m pos z t,
      s.groups.next (.thread_group s.current) = some pos →
      findThread (.thread_group s.current) thread_id m pos s = some (some z, t) → A z) :
    Isolated t H A first := by
  cases hr with
  | child _ hfirst found run =>
    have hhead : Near H A (.children s.current) := h.current
    obtain ⟨hz, hz1⟩ := findZombie_near h.isolated.tree (h.isolated.tree.next _ _ hhead hfirst) found
    have hi := (releaseProcess_isolated h.isolated hz hz1 run).1
    exact hi.congr rfl rfl fun _ => ⟨rfl, rfl⟩
  | @thread thread_id call n m z pos stale_read s₁ hfirst found run =>
    have hgroup : groupOf s pos = some s.current := by
      rcases h.grouping.ok.next _ _ hfirst with he | ⟨he, -⟩
      · rw [← he]
        rfl
      · rw [← he]
        rfl
    have hleader := findThread_group h.grouping.ok hgroup found
    have hz1 : z ≠ 1 := by
      rintro rfl
      rw [h.isolated.root.2.2] at hleader
      cases hleader
    have hread : Isolated { s with stale_read := stale_read } H A first :=
      h.isolated.congr rfl rfl fun _ => ⟨rfl, rfl⟩
    exact (releaseProcess_isolated hread (hjoins _ call _ _ _ _ hfirst found) hz1 run).1

/-- **A step without an exit keeps isolated lists so.** -/
theorem OnProcesses.isolated (hp : OnProcesses s e k t) (h : Resting s H A first)
    (hjoins : ∀ thread_id, Joins s e thread_id → ∀ m pos z t,
      s.groups.next (.thread_group s.current) = some pos →
      findThread (.thread_group s.current) thread_id m pos s = some (some z, t) → A z) :
    ∃ A', (∀ q, A q → A' q) ∧ Isolated t H A' first ∧
      (∀ q, (t.desc q).allocated = true → A' q) ∧ (∀ P, H P → (t.desc P).state = .ZOMBIE) ∧
      ∀ q, A' q → q ≤ t.max_pid := by
  have hH : ¬ H (s.max_pid + 1) := fun hc =>
    absurd (h.old _ (h.isolated.member _ hc).1) (not_le.mpr (Nat.lt_succ_self _))
  have hc1 : s.max_pid + 1 ≠ 1 := ne_of_gt (Nat.lt_succ_of_le (h.old 1 h.isolated.root.1))
  have hzombie : ∀ d P, H P → (Function.update s.desc (s.max_pid + 1) d P).state = .ZOMBIE := by
    intro d P hP
    rw [Function.update_of_ne]
    · exact h.zombie P hP
    · rintro rfl
      exact hH hP
  have hold : ∀ q, A q ∨ q = s.max_pid + 1 → q ≤ s.max_pid + 1 := by
    rintro q (hq | rfl)
    · exact (h.old q hq).trans (Nat.le_succ _)
    · exact le_refl _
  have hlisted : ∀ d q, (Function.update s.desc (s.max_pid + 1) d q).allocated = true →
      A q ∨ q = s.max_pid + 1 := by
    intro d q hq
    rcases eq_or_ne q (s.max_pid + 1) with rfl | hne
    · exact .inr rfl
    · rw [Function.update_of_ne hne] at hq
      exact .inl (h.listed q hq)
  cases hp with
  | synced synced =>
    refine ⟨A, fun _ hq => hq, h.isolated.congr ?_ ?_ fun q => ?_, fun q hq => ?_, fun P hP => ?_,
      fun q hq => ?_⟩
    · rw [synced.same]
    · rw [synced.same]
    · rw [synced.desc q]
      exact ⟨rfl, rfl⟩
    · rw [synced.desc q] at hq
      exact h.listed q hq
    · rcases synced.state P with hst | ⟨-, w, node, hn, rfl⟩ | ⟨rfl, -⟩
      · exact hst.trans (h.zombie P hP)
      · exact absurd hP (h.queued w node hn)
      · exact absurd hP h.current.2
    · rw [synced.same]
      exact h.old q hq
  | quiet quiet _ _ _ =>
    refine ⟨A, fun _ hq => hq, ?_, fun q hq => ?_, fun P hP => ?_, fun q hq => ?_⟩
    · rcases quiet.lists with hsame | hreaps
      · exact h.isolated.congr hsame.tree hsame.procs fun q =>
          ⟨(hsame.desc q).2.1, quiet.leader q⟩
      · exact hreaps.isolated h hjoins
    · rcases quiet.allocated q with hal | ⟨hal, -⟩
      · rw [hal] at hq
        exact h.listed q hq
      · rw [hal] at hq
        cases hq
    · rw [quiet.state]
      exact h.zombie P hP
    · rw [quiet.same]
      exact h.old q hq
  | noMemory =>
    exact ⟨A, fun _ hq => hq, h.isolated.congr rfl rfl fun _ => ⟨rfl, rfl⟩, h.listed, h.zombie,
      fun q hq => (h.old q hq).trans (Nat.le_succ _)⟩
  | @fork s₁ tree procs leader made child listed =>
    subst made
    refine ⟨fun q => A q ∨ q = s.max_pid + 1, fun _ hq => .inl hq, ?_, hlisted _, hzombie _,
      hold⟩
    have hnew := h.isolated.newProcess (d := { newDescriptor with parent := some s.current }) hH hc1
      (fun g hg => by
        cases hg
        exact h.current) (s.max_pid + 1)
    have hnode : Near H (fun q => A q ∨ q = s.max_pid + 1) (.siblings (s.max_pid + 1)) :=
      ⟨.inr rfl, hc1⟩
    have hhead : Near H (fun q => A q ∨ q = s.max_pid + 1) (.children s.current) :=
      ⟨.inl h.current.1, h.current.2⟩
    have hlist : Enlisted (fun q => A q ∨ q = s.max_pid + 1) (.process_list (s.max_pid + 1)) := .inr rfl
    have hfront : Enlisted (fun q => A q ∨ q = s.max_pid + 1) .process_head := True.intro
    exact hnew.join (hnew.tree.addLastNode hnode hhead child)
      (hnew.procs.addLastNode hlist hfront listed) (hnew.idle.addLastNode (by simp) listed)
  | @createThread s₁ groups procs leader made peer listed =>
    subst made
    refine ⟨fun q => A q ∨ q = s.max_pid + 1, fun _ hq => .inl hq, ?_, hlisted _, hzombie _,
      hold⟩
    have hnew := h.isolated.newProcess (d := { newDescriptor with thread_leader := some s.current })
      hH hc1 (fun g hg => by cases hg) (s.max_pid + 1)
    have hlist : Enlisted (fun q => A q ∨ q = s.max_pid + 1) (.process_list (s.max_pid + 1)) := .inr rfl
    have hhead : Enlisted (fun q => A q ∨ q = s.max_pid + 1) (.process_list s.current) :=
      .inl h.current.1
    exact hnew.join (.refl hnew.tree) (hnew.procs.insertNode hlist hhead listed)
      (hnew.idle.insertNode (by simp) (by simp) listed)

/-! ## Exits -/

theorem Culled.max {X : PID → Prop} (h : Culled X s t) : t.max_pid = s.max_pid := by
  rw [h.same]
  rfl

theorem Culled.queue {X : PID → Prop} (h : Culled X s t) : t.queue = s.queue := by
  rw [h.same]
  rfl

theorem Resting.culled {X : PID → Prop} (h : Resting s H A first) (hc : Culled X s t)
    (hi : Isolated t H A first) : Resting t H A first := by
  refine ⟨hi, fun P hP => ?_, ?_, ?_, fun q hq => ?_, ?_,
    h.grouping.congr hc.groups (fun q => (hc.desc q).leader) hc.max.ge, hc.objects h.objects⟩
  · rcases (hc.desc P).state with hst | ⟨rfl, -⟩
    · exact hst.trans (h.zombie P hP)
    · exact absurd hP h.current.2
  · rw [hc.queue]
    exact h.queued
  · rw [hc.current]
    exact h.current
  · rcases (hc.desc q).allocated with hal | ⟨hal, -⟩
    · rw [hal] at hq
      exact h.listed q hq
    · rw [hal] at hq
      cases hq
  · rw [hc.max]
    exact h.old

theorem Resting.setCont (h : Resting s H A first) (hk : Objects (s.setCont p k)) :
    Resting (s.setCont p k) H A first :=
  ⟨h.isolated.congr rfl rfl fun _ => ⟨rfl, rfl⟩, h.zombie, h.queued, h.current, h.listed, h.old,
    h.grouping.congr rfl (fun _ => rfl) (le_refl _), hk⟩

theorem Resting.switch (h : Resting s H A first) (hq : A q ∧ ¬ H q) :
    Resting { s with current := q } H A first :=
  ⟨h.isolated.congr rfl rfl fun _ => ⟨rfl, rfl⟩, h.zombie, h.queued, hq, h.listed, h.old,
    h.grouping.congr rfl (fun _ => rfl) (le_refl _), h.objects.congr rfl rfl rfl rfl rfl⟩

/-- The process that `schedule` or an exit switches to. -/
theorem Resting.next (h : Resting s H A first)
    (hnext : nextProcess s n (.process_list s.current) = some q) : A q ∧ ¬ H q := by
  have hnode : Enlisted A (.process_list s.current) := h.current.1
  exact ⟨nextProcess_near h.isolated.procs hnode hnext, fun hH =>
    h.eligible hH (nextProcess_eligible hnext)⟩

/-- **The exit of another process keeps isolated lists so.** -/
theorem Resting.exit (h : Resting s H A first)
    (hjoined : ∀ t, (s.desc t).thread_leader = some s.current → A t)
    (hstep : Step s (.exit status) s') : Resting s' H A first := by
  obtain ⟨-, n, hend⟩ := hstep
  have hrun : handle n s (.exit status) = killCurrentProcess n status s := rfl
  rw [hrun] at hend
  unfold killCurrentProcess at hend
  cases hk : killProcess n s.current status s with
  | none =>
    rw [hk] at hend
    cases hend
  | some x =>
    obtain ⟨r, s₁⟩ := x
    rw [hk] at hend
    have h₁ := h.culled (killProcess_any hk)
      (killProcess_isolated h.isolated h.grouping.ok h.current.1 h.current.2 hjoined hk)
    cases r with
    | none =>
      cases hend
      exact h₁.setCont (h₁.objects.setCont (k := .user) True.intro _)
    | some q =>
      dsimp only at hend
      cases hkk : killKernelContext n s.current q s₁ with
      | none =>
        rw [hkk] at hend
        cases hend
      | some s₂ =>
        rw [hkk] at hend
        cases hend
        obtain ⟨hcurrent, hculled⟩ := killKernelContext_culled hkk
        obtain ⟨m, hm⟩ := killProcess_next hk
        have hi := killKernelContext_isolated h₁.isolated h.current.1 hkk
        have h₂ := (h₁.culled hculled (hi.congr rfl rfl fun _ => ⟨rfl, rfl⟩)).switch (h.next hm)
        rw [← hcurrent] at h₂
        exact h₂

/-! ## Runs -/

/-- A step that leaves lists and wait queues right. -/
def FairStep (s : Sys) (e : Event) (s' : Sys) : Prop := Fair s e ∧ Step s e s'

/-- **Any step that is tidy keeps isolated lists so.** -/
theorem Resting.step (h : Resting s H A first) (ht : Tidy s e) (hstep : Step s e s') :
    ∃ A', (∀ q, A q → A' q) ∧ Resting s' H A' first := by
  by_cases he : ∃ status, e = .exit status
  · obtain ⟨status, rfl⟩ := he
    exact ⟨A, fun _ hq => hq, h.exit (fun t hl => h.listed t (ht.joined status rfl t hl)) hstep⟩
  · have hjoins : ∀ thread_id, Joins s e thread_id → ∀ m pos z t,
        s.groups.next (.thread_group s.current) = some pos →
        findThread (.thread_group s.current) thread_id m pos s = some (some z, t) → A z :=
      fun thread_id hj m pos z t hfirst hfound =>
        h.listed z (ht.joins thread_id hj m pos z t hfirst hfound)
    have hafter : ∀ {k t}, Effect s e k t → ∃ A', (∀ q, A q → A' q) ∧
        Resting (t.setCont t.current k) H A' first := by
      intro k t effect
      obtain ⟨A', hA, hi, hlisted, hzombie, hold⟩ := effect.processes.isolated h hjoins
      have hcurrent : t.current = s.current := effect.processes.current
      refine ⟨A', hA, hi.congr rfl rfl fun _ => ⟨rfl, rfl⟩, hzombie, fun w node hn => ?_, ?_, hlisted,
        hold, ?_, effect.objects h.objects⟩
      · rcases effect.queued w node hn with hc | ⟨v, node', hn', hp⟩
        · rw [hc]
          exact h.current.2
        · rw [← hp]
          exact h.queued v node' hn'
      · change A' t.current ∧ ¬ H t.current
        rw [hcurrent]
        exact ⟨hA _ h.current.1, h.current.2⟩
      · exact (effect.processes.grouping h.grouping (h.old _ h.current.1)).congr rfl (fun _ => rfl)
          (le_refl _)
    cases hstep.leads h.objects fun status hs => he ⟨status, hs⟩ with
    | stays effect ends =>
      obtain ⟨A', hA, hr⟩ := hafter effect
      subst ends
      exact ⟨A', hA, hr⟩
    | @leaves k t q kernel effect next ends =>
      obtain ⟨A', hA, hr⟩ := hafter effect
      subst ends
      obtain ⟨n, hn⟩ := next
      have hnode : Enlisted A' (.process_list t.current) := hr.current.1
      have hprocs : Confined (Enlisted A') t.procs := hr.isolated.procs
      refine ⟨A', hA, hr.switch ⟨nextProcess_near hprocs hnode hn, fun hH => ?_⟩⟩
      have hstate : (t.desc q).state = .ZOMBIE := hr.zombie q hH
      rw [(nextProcess_eligible hn).1] at hstate
      cases hstate

theorem Resting.run {es : List Event} (hrun : Run FairStep s es t) :
    ∀ {A : PID → Prop}, Resting s H A first → ∃ A', (∀ q, A q → A' q) ∧ Resting t H A' first := by
  induction hrun with
  | nil => exact fun h => ⟨_, fun _ hq => hq, h⟩
  | cons head _ ih =>
    intro A h
    obtain ⟨A₁, hA₁, h₁⟩ := h.step head.1.tidy head.2
    obtain ⟨A', hA', h'⟩ := ih h₁
    exact ⟨A', fun q hq => hA' q (hA₁ q hq), h'⟩

end Yalnix.System
