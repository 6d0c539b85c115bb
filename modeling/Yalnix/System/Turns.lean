import Yalnix.System.ReapOne
import Yalnix.System.RoundRobin

/-!
# How the process list changes

* `OnProcesses.evolves` — without an exit, a process joins the list or leaves it, or nothing happens.
* `Lists.exit_sublist` — an exit only takes processes off the list.
* `Lists.evolves` — so in every fair step those who stay keep their order.
-/

set_option autoImplicit false

namespace Yalnix.System

open Ring (Heap IsRing)
open RoundRobin (Evolves)

variable {s s' t u u' v : Sys} {n m : Nat} {p q z : PID} {k : Cont} {l l' done : List PID}
  {e : Event} {status : Int} {kids kids' threads : PID → List PID}

/-! ## Steps without an exit -/

/-- The process list has no two orders. -/
theorem procs_unique (h : IsRing s.procs .process_head (l.map .process_list))
    (h' : IsRing s.procs .process_head (l'.map .process_list)) : l = l' :=
  List.map_injective_iff.mpr (fun _ _ => ProcNode.process_list.inj) (h.unique h')

/-- A process without children that is released leaves the process list. -/
theorem releaseProcess_procs (hr : IsRing s.procs .process_head (l.map .process_list)) (hz : z ∈ l)
    (hchildless : IsRing s.tree (.children z) []) (h : releaseProcess n z s = some s') :
    IsRing s'.procs .process_head ((l.erase z).map .process_list) := by
  obtain ⟨tree, procs, -, hremoved, rfl⟩ :=
    freeDescriptor_childless hchildless (releaseProcess_childless hchildless h)
  change IsRing procs .process_head _
  obtain ⟨x, y, rfl⟩ := List.append_of_mem hz
  have hnodup : (x ++ z :: y).Nodup := hr.nodup.of_map _
  rw [List.map_append, List.map_cons] at hr
  have hring := IsRing.removeNode hr hremoved
  rw [erase_middle hnodup, List.map_append]
  exact hring

theorem Reaps.procs (hr : Reaps s e t) (h : Lists s l kids threads) (hw : Awake s) (ht : Tidy s e) :
    ∃ z, IsRing t.procs .process_head ((l.erase z).map .process_list) := by
  cases hr with
  | @child call n m z pos s₁ first found run =>
    have hz := h.found hw first found
    have hal := (h.child _ z hz).1
    have hheaded : Headed s z := ⟨hal, fun _ _ => ht.reaped call m pos z first found⟩
    have hring := h.ring hheaded
    rw [h.kids_zombie (findZombie_zombie found)] at hring
    have hafter := releaseProcess_procs h.procs ((h.members z).mpr hal) hring run
    exact ⟨z, hafter⟩
  | @thread thread_id call n m z pos stale_read s₁ first found run =>
    have hal := ht.joins thread_id call m pos z _ first found
    have hl : (s.desc z).thread_leader.isSome := by
      rw [h.found_thread hw first found]
      rfl
    have hread : Lists { s with stale_read := stale_read } l kids threads :=
      h.congr rfl rfl rfl fun _ => ⟨rfl, rfl, rfl, Iff.rfl⟩
    have hafter := releaseProcess_procs hread.procs ((hread.members z).mpr hal)
      (hread.thread_ring hal hl).1 run
    exact ⟨z, hafter⟩

/-- **Apart from an exit, a step takes one process off the list, or puts one there for each number
that it takes.** -/
theorem OnProcesses.evolves (hp : OnProcesses s e k t) (h : Lists s l kids threads) (ha : Asleep s)
    (hw : Awake s) (ht : Tidy s e) : ∃ l' : List PID, IsRing t.procs .process_head (l'.map .process_list) ∧
      s.max_pid ≤ t.max_pid ∧ Evolves l l' (t.max_pid - s.max_pid) := by
  have hrefl : ∀ born, Evolves l l born := Evolves.of_sublist (List.Sublist.refl l)
  cases hp with
  | synced synced =>
    have hprocs : t.procs = s.procs := by rw [synced.same]
    have hmax : t.max_pid = s.max_pid := by rw [synced.same]
    rw [hprocs]
    exact ⟨l, h.procs, hmax.ge, hrefl _⟩
  | quiet quiet _ _ _ =>
    have hmax : t.max_pid = s.max_pid := by rw [quiet.same]
    rcases quiet.lists with hlists | hreaps
    · rw [hlists.procs]
      exact ⟨l, h.procs, hmax.ge, hrefl _⟩
    · obtain ⟨z, hring⟩ := hreaps.procs h hw ht
      exact ⟨l.erase z, hring, hmax.ge, Evolves.of_sublist List.erase_sublist _⟩
  | noMemory => exact ⟨l, h.procs, Nat.le_succ _, hrefl _⟩
  | @fork s₁ tree procs leader made child listed =>
    have hafter := h.fork ha hw rfl made child listed leader
    have hmax : s₁.max_pid = s.max_pid + 1 := by
      rw [made]
      rfl
    refine ⟨_, hafter.procs, ?_, Evolves.of_grown (List.sublist_append_left _ _) ?_⟩
    · change s.max_pid ≤ s₁.max_pid
      omega
    · change _ ≤ _ + (s₁.max_pid - s.max_pid)
      rw [List.length_append, List.length_singleton]
      omega
  | @createThread s₁ groups procs leader made peer listed =>
    obtain ⟨x, y, rfl, hafter⟩ := h.createThread ha hw rfl made peer listed
    have hmax : s₁.max_pid = s.max_pid + 1 := by
      rw [made]
      rfl
    have hgrown : (x ++ s.current :: y).Sublist (x ++ s.current :: (s.max_pid + 1) :: y) :=
      (List.Sublist.refl x).append ((List.sublist_cons_self _ y).cons_cons _)
    refine ⟨_, hafter.procs, ?_, Evolves.of_grown hgrown ?_⟩
    · change s.max_pid ≤ s₁.max_pid
      omega
    · change _ ≤ _ + (s₁.max_pid - s.max_pid)
      simp only [List.length_append, List.length_cons]
      omega

/-! ## Exits -/

/-- A thread that is killed and released leaves the process list. -/
theorem Threadless.procs (h : Threadless s status kids threads done u) (hz : z ≠ s.current)
    (hdone : z ∉ done) (hal : (s.desc z).allocated = true) (hl : (s.desc z).thread_leader.isSome)
    (hthreads : threads z = []) (hk : killThread m z u = some u') :
    ∃ l : List PID, IsRing u.procs .process_head (l.map .process_list) ∧
      IsRing u'.procs .process_head ((l.erase z).map .process_list) := by
  obtain ⟨l, hlists⟩ := h.lists
  have hzu : z ≠ u.current := by
    rw [h.current]
    exact hz
  have hdesc : (u.expire status).desc z = s.desc z := by
    rw [expire_desc_of_ne hzu]
    exact h.other z hz hdone
  rw [← hdesc] at hal hl
  have hchildren : IsRing u.tree (.children z) [] := (hlists.thread_ring hal hl).1
  have hcohort : IsRing u.groups (.thread_group z) [] := by
    have hring := hlists.cohort_ring hal
    rw [hthreads] at hring
    exact hring
  have hprocs : IsRing u.procs .process_head (l.map .process_list) := hlists.procs
  have hmem := (hlists.members z).mpr hal
  unfold killThread at hk
  simp only [Option.bind_eq_bind, Option.bind_eq_some_iff] at hk
  obtain ⟨⟨r, u₁⟩, hkill, hrelease⟩ := hk
  refine ⟨l, hprocs, ?_⟩
  rcases killProcess_alone hzu hchildren hcohort hkill with rfl | rfl
  · exact releaseProcess_procs hprocs hmem hchildren hrelease
  · exact releaseProcess_procs (s := u.expire (-1)) hprocs hmem hchildren hrelease

/-- The walk over its threads only takes processes off the list. -/
theorem Lists.threads_sublist (h : Lists (v.expire status) l kids threads)
    (hal : (v.desc v.current).allocated = true)
    (hleader : ∀ t p, (v.desc t).thread_leader = some p → (v.desc p).thread_leader = none)
    (hjoined : ∀ t, (v.desc t).thread_leader = some v.current → (v.desc t).allocated = true)
    {first : GroupNode} (hfirst : v.groups.next (.thread_group v.current) = some first)
    (hrun : forEachThread (.thread_group v.current) (killThread m) n first v = some u) :
    ∃ l' : List PID, l'.Sublist l ∧ IsRing u.procs .process_head (l'.map .process_list) := by
  have hring := h.own_ring hal
  let I : List PID → Sys → Prop := fun done u => Threadless v status kids threads done u ∧
    ∃ l' : List PID, l'.Sublist l ∧ IsRing u.procs .process_head (l'.map .process_list)
  have hgroups : ∀ done u, I done u → u.groups = v.groups := fun done u hI => by rw [hI.1.same]
  have hround : ∀ done z u u', z ∈ threads v.current → z ∉ done → I done u →
      killThread m z u = some u' → I (z :: done) (u'.follow z) := by
    rintro done z u u' hz hdone ⟨hI, l', hl', hprocs⟩ hk
    have hzl := (h.peers v.current z).mp hz
    rw [(expire_kin v status z).2.2] at hzl
    have hall := h.own_threads hleader hjoined
    obtain ⟨hne, -, hal, hthreads⟩ := hall z hzl
    have hisSome : (v.desc z).thread_leader.isSome := by
      rw [hzl]
      rfl
    obtain ⟨l₁, hring₁, hafter⟩ := hI.procs hne hdone hal hisSome hthreads hk
    refine ⟨hI.round hall hzl hdone hk, l₁.erase z, ?_, ?_⟩
    · rw [procs_unique hring₁ hprocs]
      exact List.erase_sublist.trans hl'
    · have hfollow : (u'.follow z).procs = u'.procs := by
        unfold Sys.follow
        split <;> rfl
      rw [hfollow]
      exact hafter
  have hwalked := forEachThread_rule (I := I) (by simp) hgroups hround (threads v.current) n [] first v u
    ⟨⟨⟨l, h⟩, rfl, rfl, fun _ _ _ => rfl, by simp⟩, l, List.Sublist.refl l, h.procs⟩
    (hring.first hfirst) hring.onward (hring.nodup.of_map _) (by simp) hrun
  exact hwalked.2

theorem Lists.kill_sublist {r : Option PID} (h : Lists s l kids threads) (ha : Asleep s)
    (hw : Awake s) (ht : Tidy s (.exit status))
    (hk : killProcess n s.current status s = some (r, s'))
    (hr : IsRing s'.procs .process_head (l'.map .process_list)) : l'.Sublist l := by
  obtain ⟨m, q, first, s₁, v, first', u, rfl, -, -, hfirst, h₁, h₂, hfirst', h₃, rfl⟩ :=
    killProcess_some hk (by rw [hw.running]; exact ⟨by decide, by decide⟩) rfl
  obtain ⟨kids', hup⟩ := h.handUp hw ht hfirst h₁ h₂
  obtain ⟨hal, hleader, hjoined⟩ := hup.joined ha hw ht
  rw [← hup.current] at hfirst' h₃
  obtain ⟨l₁, hsub, hring⟩ := hup.lists.threads_sublist hal hleader hjoined hfirst' h₃
  have hsame : l' = l₁ := procs_unique (s := u) hr hring
  rw [hsame]
  exact hsub

/-- **An exit only takes processes off the list.** -/
theorem Lists.exit_sublist (h : Lists s l kids threads) (ha : Asleep s) (hw : Awake s)
    (ht : Tidy s (.exit status)) (hrun : killCurrentProcess n status s = .switched s')
    (hr : IsRing s'.procs .process_head (l'.map .process_list)) : l'.Sublist l := by
  unfold killCurrentProcess at hrun
  split at hrun
  · cases hrun
  · cases hrun
  · rename_i q s₁ hk
    obtain ⟨l₁, kids₁, hlists, hdep, hnil, -, hclean⟩ := h.kill ha hw ht hk
    have hsub := h.kill_sublist ha hw ht hk hlists.procs
    split at hrun
    · cases hrun
    · rename_i s₂ hkk
      cases hrun
      unfold killKernelContext at hkk
      dsimp only at hkk
      have hleader : (s₁.desc s.current).thread_leader = (s.desc s.current).thread_leader := by
        rw [hdep.self]
      have hparent : (s₁.desc s.current).parent = (s.desc s.current).parent := by rw [hdep.self]
      rw [hleader, hparent] at hkk
      split at hkk
      · simp only [Option.bind_eq_bind, Option.bind_eq_some_iff] at hkk
        obtain ⟨parent, hpar, hkk⟩ := hkk
        split at hkk
        · rename_i hone
          rw [hone] at hpar
          have hchildless : kids s.current = [] := by
            rw [List.eq_nil_iff_forall_not_mem]
            intro c hc
            have hchild := h.child _ c hc
            exact ht.orphans status rfl hpar c hchild.1 hchild.2.1
          have hring := hlists.ring (hclean hchildless)
          rw [hnil] at hring
          have hmem := (hlists.members _).mpr (hclean hchildless).allocated
          have hafter := releaseProcess_procs (s := { s₁ with current := q }) hlists.procs hmem
            hring hkk
          rw [procs_unique hr hafter]
          exact List.erase_sublist.trans hsub
        · cases hkk
          rw [procs_unique (s := s₁) hr hlists.procs]
          exact hsub
      · cases hkk
        rw [procs_unique (s := s₁) hr hlists.procs]
        exact hsub

/-! ## Steps -/

/-- **In every fair step those who stay on the process list keep their order, and no more than the
numbers that are taken join it.** -/
theorem Lists.evolves (h : Lists s l kids threads) (ha : Asleep s) (hw : Awake s) (ho : Objects s)
    (ht : Tidy s e) (hstep : Step s e s')
    (hr : IsRing s'.procs .process_head (l'.map .process_list)) :
    s.max_pid ≤ s'.max_pid ∧ Evolves l l' (s'.max_pid - s.max_pid) := by
  by_cases he : ∃ status, e = .exit status
  · obtain ⟨status, rfl⟩ := he
    obtain ⟨n, hrun⟩ := hstep.exits hw
    have hmax : s'.max_pid = s.max_pid := by
      obtain ⟨t, hkept, rfl | ⟨q, rfl⟩⟩ := hstep.exit_kept
      · change t.max_pid = s.max_pid
        rw [hkept]
        rfl
      · change t.max_pid = s.max_pid
        rw [hkept]
        rfl
    exact ⟨hmax.ge, Evolves.of_sublist (h.exit_sublist ha hw ht hrun hr) _⟩
  · cases hstep.leads ho fun status hs => he ⟨status, hs⟩ with
    | stays effect ends =>
      obtain ⟨l₁, hring, hmax, hevolves⟩ := effect.processes.evolves h ha hw ht
      subst ends
      rw [procs_unique hr hring]
      exact ⟨hmax, hevolves⟩
    | leaves kernel effect next ends =>
      obtain ⟨l₁, hring, hmax, hevolves⟩ := effect.processes.evolves h ha hw ht
      subst ends
      rw [procs_unique hr hring]
      exact ⟨hmax, hevolves⟩

end Yalnix.System
