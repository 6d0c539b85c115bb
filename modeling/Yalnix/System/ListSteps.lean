import Yalnix.System.Agreement
import Yalnix.System.Exits

/-!
# The lists of processes through a run

* `findZombie_mem`, `findThread_mem` — a search finds what is on the list.
* `Moved`, `OnProcesses.moved` — what a step without an exit does to the lists.
* `Lists.step` — a clean and tidy step leaves all lists right.
* `lists_boot` — after boot the first process is on the process list, and all other lists are empty.
* `Fair`, `Sane.step` — steps that keep lists and wait queues right.
-/

set_option autoImplicit false

namespace Yalnix.System

open Ring (Heap IsRing Linked Rings Outside)
open Transition (Run)

variable {s s' s₁ t : Sys} {n m : Nat} {p q c z : PID} {l : List PID} {e : Event} {k : Cont}
  {status : Int} {kids kids' threads : PID → List PID}

/-! ## Searches -/

theorem findZombie_mem {head : TreeNode} {xs : List TreeNode} (hr : IsRing s.tree head xs) :
    ∀ {n : Nat} {pos : TreeNode}, pos ∈ head :: xs → findZombie s head n pos = some (some z) →
      TreeNode.siblings z ∈ xs
  | 0, _, _, h => by cases h
  | n + 1, pos, hpos, h => by
    unfold findZombie at h
    split at h
    · cases h
    · rename_i hne
      cases pos with
      | children q => cases h
      | siblings q =>
        dsimp only at h
        split at h
        · cases h
          exact (List.mem_cons.mp hpos).resolve_left hne
        · obtain ⟨next, hnext, h⟩ := Option.bind_eq_some_iff.mp h
          exact findZombie_mem hr (hr.next_mem hpos hnext) h

theorem findThread_mem {head : GroupNode} {thread_id : Int} {xs : List GroupNode} :
    ∀ {n : Nat} {pos : GroupNode} {s t : Sys}, IsRing s.groups head xs → pos ∈ head :: xs →
      findThread head thread_id n pos s = some (some z, t) → GroupNode.thread_peers z ∈ xs
  | 0, _, _, _, _, _, h => by cases h
  | n + 1, pos, s, t, hr, hpos, h => by
    unfold findThread at h
    split at h
    · cases h
    · rename_i hne
      cases pos with
      | thread_group q => cases h
      | thread_peers q =>
        dsimp only at h
        split at h
        · cases h
          exact (List.mem_cons.mp hpos).resolve_left hne
        · obtain ⟨next, hnext, h⟩ := Option.bind_eq_some_iff.mp h
          rw [s.follow_groups] at hnext
          refine findThread_mem ?_ (hr.next_mem hpos hnext) h
          rw [s.follow_groups]
          exact hr

/-- `waitForPID` finds a child. -/
theorem Lists.found (h : Lists s l kids threads) (hw : Awake s) {pos : TreeNode}
    (first : s.tree.next (.children s.current) = some pos)
    (found : findZombie s (.children s.current) m pos = some (some z)) : z ∈ kids s.current := by
  have hring := h.ring (headed_of_alive hw.allocated (by rw [hw.running]; decide))
  have hm := findZombie_mem hring (hring.next_mem List.mem_cons_self first) found
  obtain ⟨x, hx, he⟩ := List.mem_map.mp hm
  cases he
  exact hx

/-- `joinThread` finds a thread of its own. -/
theorem Lists.found_thread (h : Lists s l kids threads) (hw : Awake s) {pos : GroupNode}
    {thread_id : Int} (first : s.groups.next (.thread_group s.current) = some pos)
    (found : findThread (.thread_group s.current) thread_id m pos s = some (some z, t)) :
    (s.desc z).thread_leader = some s.current := by
  have hring := h.cohort_ring hw.allocated
  have hm := findThread_mem hring (hring.next_mem List.mem_cons_self first) found
  obtain ⟨x, hx, he⟩ := List.mem_map.mp hm
  cases he
  exact (h.peers _ z).mp hx

/-! ## Steps without an exit -/

/-- What has become of the processes that were there, of which `gone` has been released. -/
structure Moved (s t : Sys) (kids kids' : PID → List PID) (gone : Option PID) : Prop where
  max : s.max_pid ≤ t.max_pid
  desc : ∀ q, q ≤ s.max_pid → gone ≠ some q →
    (t.desc q).allocated = (s.desc q).allocated ∧ (t.desc q).exit_status = (s.desc q).exit_status ∧
      ((t.desc q).state = .ZOMBIE ↔ (s.desc q).state = .ZOMBIE)
  stay : ∀ p c, c ∈ kids p → gone ≠ some c → c ∈ kids' p
  left : ∀ z, gone = some z → (s.desc z).allocated = true ∧ (s.desc z).state = .ZOMBIE ∧
    (t.desc z).allocated = false
  reaped : t.reaped = s.reaped ∧ (∀ z, gone = some z → (s.desc z).thread_leader.isSome) ∨
    ∃ z, gone = some z ∧ z ∈ kids s.current ∧
      t.reaped = s.reaped ++ [(z, s.current, (s.desc z).exit_status)]

/-- Nobody has been released, and the lists of children are the same. -/
theorem Moved.same (max : s.max_pid ≤ t.max_pid)
    (desc : ∀ q, q ≤ s.max_pid → (t.desc q).allocated = (s.desc q).allocated ∧
      (t.desc q).exit_status = (s.desc q).exit_status ∧
      ((t.desc q).state = .ZOMBIE ↔ (s.desc q).state = .ZOMBIE))
    (hkids : ∀ p c, c ∈ kids p → c ∈ kids' p) (reaped : t.reaped = s.reaped) :
    Moved s t kids kids' none :=
  ⟨max, fun q hq _ => desc q hq, fun p c hc _ => hkids p c hc, by simp, .inl ⟨reaped, by simp⟩⟩

/-- Sleeping and waking is not about zombies. -/
theorem Synced.zombie (h : Synced s t) (ha : Asleep s) (hw : Awake s) (q : PID) :
    (t.desc q).state = .ZOMBIE ↔ (s.desc q).state = .ZOMBIE := by
  rcases h.state q with hst | ⟨hst, w, node, hn, rfl⟩ | ⟨rfl, hst⟩
  · rw [hst]
  · rw [hst, (ha.named w node hn).1]
    exact iff_of_false (by simp) (by simp)
  · rw [hst, hw.running]
    exact iff_of_false (by simp) (by simp)

/-- The descriptors, when `z` has been released. -/
theorem freed_desc (hring : IsRing s.tree (.children z) []) (h : releaseProcess n z s = some s') :
    (s'.desc z).allocated = false ∧ (∀ q, q ≠ z → s'.desc q = s.desc q) ∧ s'.reaped = s.reaped ∧
      s'.max_pid = s.max_pid := by
  obtain ⟨tree, procs, -, -, rfl⟩ := freeDescriptor_childless hring (releaseProcess_childless hring h)
  refine ⟨releaseProcess_frees h, fun q hq => ?_, rfl, rfl⟩
  exact Function.update_of_ne hq _ _

/-- **A zombie is released.** -/
theorem Lists.release (h : Lists s l kids threads) (hheaded : Headed s z)
    (hstate : (s.desc z).state = .ZOMBIE) (hroot : z ≠ 1) (run : releaseProcess n z s = some t) :
    Lists t (l.erase z) (fun p => (kids p).erase z) threads ∧ (t.desc z).allocated = false ∧
      (∀ q, q ≠ z → t.desc q = s.desc q) ∧ t.reaped = s.reaped ∧ t.max_pid = s.max_pid := by
  have hkids := h.kids_zombie hstate
  have hring := h.ring hheaded
  rw [hkids] at hring
  have hfree := releaseProcess_childless hring run
  exact ⟨h.free hheaded hkids hroot hfree, freed_desc hring run⟩

theorem Moved.release (hal : (s.desc z).allocated = true) (hstate : (s.desc z).state = .ZOMBIE)
    (hfreed : (t.desc z).allocated = false) (hother : ∀ q, q ≠ z → t.desc q = s.desc q)
    (hmax : t.max_pid = s.max_pid)
    (hreaped : t.reaped = s.reaped ∧ (s.desc z).thread_leader.isSome ∨
      z ∈ kids s.current ∧ t.reaped = s.reaped ++ [(z, s.current, (s.desc z).exit_status)]) :
    Moved s t kids (fun p => (kids p).erase z) (some z) := by
  refine ⟨hmax.ge, fun q _ hq => ?_, fun p c hc hcz => ?_, fun x hx => ?_, ?_⟩
  · have hqz : q ≠ z := by
      rintro rfl
      exact hq rfl
    rw [hother q hqz]
    exact ⟨rfl, rfl, Iff.rfl⟩
  · have hne : c ≠ z := by
      rintro rfl
      exact hcz rfl
    exact (List.mem_erase_of_ne hne).mpr hc
  · cases hx
    exact ⟨hal, hstate, hfreed⟩
  · rcases hreaped with ⟨hsame, hl⟩ | ⟨hz, hreaped⟩
    · refine .inl ⟨hsame, fun x hx => ?_⟩
      cases hx
      exact hl
    · exact .inr ⟨z, rfl, hz, hreaped⟩

/-- `waitForPID` and `joinThread` release a zombie. -/
theorem Reaps.moved (hr : Reaps s e t) (h : Lists s l kids threads) (hw : Awake s) (ht : Tidy s e) :
    ∃ l' kids' gone, Lists t l' kids' threads ∧ Moved s t kids kids' gone := by
  cases hr with
  | @child call n m z pos s₁ first found run =>
    have hz := h.found hw first found
    have hstate := findZombie_zombie found
    have hheaded : Headed s z := ⟨(h.child _ z hz).1, fun _ _ => ht.reaped call m pos z first found⟩
    have hroot : z ≠ 1 := by
      rintro rfl
      have hparent := (h.child _ 1 hz).2.1
      rw [h.root.2.1] at hparent
      cases hparent
    obtain ⟨hafter, hfreed, hother, -, hmax⟩ := h.release hheaded hstate hroot run
    refine ⟨_, _, some z, hafter.congr rfl rfl rfl fun q => ⟨rfl, rfl, rfl, Iff.rfl⟩, ?_⟩
    exact Moved.release hheaded.allocated hstate hfreed hother hmax (.inr ⟨hz, rfl⟩)
  | @thread thread_id call n m z pos stale_read s₁ first found run =>
    have hleader := h.found_thread hw first found
    have hl : (s.desc z).thread_leader.isSome := by
      rw [hleader]
      rfl
    have hal := ht.joins thread_id call m pos z _ first found
    have hstate := findThread_zombie found
    have hroot : z ≠ 1 := by
      rintro rfl
      rw [h.root.2.2] at hleader
      cases hleader
    have hread : Lists { s with stale_read := stale_read } l kids threads :=
      h.congr rfl rfl rfl fun _ => ⟨rfl, rfl, rfl, Iff.rfl⟩
    obtain ⟨hafter, hfreed, hother, hreaped, hmax⟩ :=
      hread.release (headed_of_thread hal hl) hstate hroot run
    exact ⟨_, _, _, hafter, Moved.release hal hstate hfreed hother hmax (.inl ⟨hreaped, hl⟩)⟩

/-- Sleeping and waking. -/
theorem Synced.moved (synced : Synced s t) (h : Lists s l kids threads) (ha : Asleep s)
    (hw : Awake s) : Lists t l kids threads ∧ Moved s t kids kids none := by
  have hzombie := synced.zombie ha hw
  have hdesc := synced.desc
  have hsame := synced.same
  refine ⟨h.congr ?_ ?_ ?_ fun q => ⟨?_, ?_, ?_, hzombie q⟩,
    Moved.same ?_ (fun q _ => ⟨?_, ?_, hzombie q⟩) (fun _ _ hc => hc) ?_⟩
  all_goals first | rw [hdesc q] | rw [hsame]

/-- What is not about processes at all. -/
theorem Quiet.moved (quiet : Quiet s e t) (hlists : SameLists s t) (h : Lists s l kids threads) :
    Lists t l kids threads ∧ Moved s t kids kids none := by
  have hgroups : t.groups = s.groups := by rw [quiet.same]
  have hmax : t.max_pid = s.max_pid := by rw [quiet.same]
  have hzombie : ∀ q, (t.desc q).state = .ZOMBIE ↔ (s.desc q).state = .ZOMBIE := by
    intro q
    rw [quiet.state q]
  refine ⟨h.congr hlists.procs hlists.tree hgroups
    fun q => ⟨(hlists.desc q).1, (hlists.desc q).2.1, quiet.leader q, hzombie q⟩, ?_⟩
  exact Moved.same hmax.ge (fun q _ => ⟨(hlists.desc q).1, (hlists.desc q).2.2, hzombie q⟩)
    (fun _ _ hc => hc) hlists.reaped

/-- The old descriptors, when there is a new one. -/
theorem Moved.born {d : Descriptor} (hdesc : t.desc = (Sys.newProcess
      { s with max_pid := s.max_pid + 1 } (s.max_pid + 1) d).desc)
    (hmax : t.max_pid = s.max_pid + 1) (hreaped : t.reaped = s.reaped)
    (hkids : ∀ p c, c ∈ kids p → c ∈ kids' p) : Moved s t kids kids' none := by
  refine Moved.same (by omega) (fun q hq => ?_) hkids hreaped
  rw [hdesc, newProcess_desc_of_ne (Nat.lt_succ_of_le hq).ne]
  exact ⟨rfl, rfl, Iff.rfl⟩

/-- **A tidy step without an exit leaves all lists right.** -/
theorem OnProcesses.moved (hp : OnProcesses s e k t) (h : Lists s l kids threads) (ha : Asleep s)
    (hw : Awake s) (ht : Tidy s e) :
    ∃ l' kids' threads' gone, Lists t l' kids' threads' ∧ Moved s t kids kids' gone := by
  cases hp with
  | synced synced => exact ⟨_, _, _, _, synced.moved h ha hw⟩
  | quiet quiet _ _ _ =>
    rcases quiet.lists with hlists | hreaps
    · exact ⟨_, _, _, _, quiet.moved hlists h⟩
    · obtain ⟨l', kids', gone, hafter, hmoved⟩ := hreaps.moved h hw ht
      exact ⟨_, _, _, _, hafter, hmoved⟩
  | noMemory =>
    refine ⟨l, kids, threads, none, h.congr rfl rfl rfl fun q => ⟨rfl, rfl, rfl, Iff.rfl⟩, ?_⟩
    exact Moved.same (Nat.le_succ _) (fun _ _ => ⟨rfl, rfl, Iff.rfl⟩) (fun _ _ hc => hc) rfl
  | @fork s₁ tree procs leader made child listed =>
    have hafter := h.fork ha hw rfl made child listed leader
    subst made
    refine ⟨_, _, _, none, hafter, Moved.born rfl rfl rfl fun p c hc => ?_⟩
    rcases eq_or_ne p s.current with rfl | hp
    · rw [Function.update_self]
      exact List.mem_append_left _ hc
    · rw [Function.update_of_ne hp]
      exact hc
  | @createThread s₁ groups procs leader made peer listed =>
    obtain ⟨u, v, rfl, hafter⟩ := h.createThread ha hw rfl made peer listed
    subst made
    exact ⟨_, _, _, none, hafter, Moved.born rfl rfl rfl fun _ _ hc => hc⟩

/-! ## Runs -/

/-- Where processes go on, and who runs, is not about lists. -/
theorem Lists.setCont (h : Lists s l kids threads) (p : PID) (k : Cont) :
    Lists (s.setCont p k) l kids threads :=
  h.congr rfl rfl rfl fun _ => ⟨rfl, rfl, rfl, Iff.rfl⟩

theorem Lists.switch (h : Lists s l kids threads) (q : PID) :
    Lists { s with current := q } l kids threads :=
  h.congr rfl rfl rfl fun _ => ⟨rfl, rfl, rfl, Iff.rfl⟩

/-- An exit is a switch. -/
theorem Step.exits (h : Step s (.exit status) s') (hw : Awake s) :
    ∃ n, killCurrentProcess n status s = .switched s' := by
  obtain ⟨-, n, hend⟩ := h
  have hrun : handle n s (.exit status) = killCurrentProcess n status s := rfl
  rw [hrun] at hend
  rcases killCurrentProcess_cases n status hw with hf | ⟨s₁, hs₁⟩
  · rw [hf] at hend
    cases hend
  · rw [hs₁] at hend
    cases hend
    exact ⟨n, hs₁⟩

/-- What the lists are, some way or other. -/
def Ordered (s : Sys) : Prop := ∃ l kids threads, Lists s l kids threads

/-- **A tidy step leaves all lists right.** -/
theorem Ordered.step (h : Ordered s) (ha : Asleep s) (hw : Awake s) (ho : Objects s)
    (ht : Tidy s e) (hstep : Step s e s') : Ordered s' := by
  obtain ⟨l, kids, threads, h⟩ := h
  by_cases he : ∃ status, e = .exit status
  · obtain ⟨status, rfl⟩ := he
    obtain ⟨n, hrun⟩ := hstep.exits hw
    obtain ⟨l', kids', h', -⟩ := h.exit ha hw ht hrun
    exact ⟨l', kids', threads, h'⟩
  · cases hstep.leads ho fun status hs => he ⟨status, hs⟩ with
    | stays effect ends =>
      obtain ⟨l', kids', threads', gone, h', -⟩ := effect.processes.moved h ha hw ht
      subst ends
      exact ⟨l', kids', threads', h'.setCont _ _⟩
    | leaves kernel effect next ends =>
      obtain ⟨l', kids', threads', gone, h', -⟩ := effect.processes.moved h ha hw ht
      subst ends
      exact ⟨l', kids', threads', (h'.setCont _ _).switch _⟩

theorem lists_boot : Lists bootSys [1] (fun _ => []) fun _ => [] := by
  have hother : ∀ p, p ≠ 1 → (bootSys.desc p).allocated = false := by
    intro p hp
    rw [bootSys_desc_of_ne hp]
  have hone : ∀ p, (bootSys.desc p).allocated = true → p = 1 := by
    intro p hp
    by_contra hne
    rw [hother p hne] at hp
    cases hp
  refine ⟨by decide, fun p => ?_, ⟨fun a ha => ?_, fun a b x ha hb hxa hxb => ?_⟩, by simp, by simp,
    ⟨rfl, rfl, rfl⟩, by simp, fun c hal _ hne => ?_, fun t _ hl => ?_,
    ⟨fun a ha => ?_, fun a b x ha hb hxa hxb => ?_⟩, fun p t => ?_⟩
  · rw [List.mem_singleton]
    refine ⟨?_, hone p⟩
    rintro rfl
    rfl
  · cases ha with
    | @children p headed =>
      rw [hone p headed.allocated]
      decide
    | @siblings t allocated thread =>
      rw [bootSys_leader] at thread
      cases thread
  · have hsingle : ∀ a : TreeNode, brood (fun _ => []) a = [] := by
      intro a
      cases a with
      | children p => rfl
      | siblings p => rfl
    rw [hsingle, List.mem_singleton] at hxa hxb
    exact hxa.symm.trans hxb
  · exact absurd (hone c hal) hne
  · rw [bootSys_leader] at hl
    cases hl
  · obtain ⟨p, hp, rfl⟩ := ha
    rw [hone p hp]
    decide
  · have hsingle : ∀ a : GroupNode, cohort (fun _ => []) a = [] := by
      intro a
      cases a with
      | thread_group p => rfl
      | thread_peers p => rfl
    rw [hsingle, List.mem_singleton] at hxa hxb
    exact hxa.symm.trans hxb
  · rw [bootSys_leader]
    simp

/-! ## Fair steps -/

/-- A step that leaves lists and wait queues right. -/
structure Fair (s : Sys) (e : Event) : Prop where
  tidy : Tidy s e
  /-- No thread sleeps while its leader exits. -/
  threads : ∀ status, e = .exit status → ∀ t, (s.desc t).allocated = true →
    (s.desc t).thread_leader = some s.current → (s.desc t).state ≠ .WAITING
  /-- The process that runs after an exit is neither the one that exits nor a thread of it. -/
  next : ∀ status, e = .exit status → ∀ q, Schedules s q →
    q ≠ s.current ∧ (s.desc q).thread_leader ≠ some s.current

theorem OnList.mem (h : OnList s q) (hr : IsRing s.procs .process_head (l.map .process_list))
    (hc : s.current ∈ l) : q ∈ l := by
  have hmem : ProcNode.process_list q ∈ ProcNode.process_head :: l.map .process_list := by
    unfold OnList at h
    generalize hb : ProcNode.process_list q = b at h
    clear hb
    induction h with
    | refl => exact List.mem_cons_of_mem _ (List.mem_map_of_mem hc)
    | tail _ hlink ih => exact hr.next_mem ih hlink
  rcases List.mem_cons.mp hmem with hm | hm
  · cases hm
  · obtain ⟨x, hx, he⟩ := List.mem_map.mp hm
    cases he
    exact hx

theorem OnList.listed (h : OnList s q) (hl : Lists s l kids threads) (hw : Awake s) :
    (s.desc q).allocated = true :=
  (hl.members q).mp (h.mem hl.procs ((hl.members _).mpr hw.allocated))

theorem Fair.clean (h : Fair s e) (hl : Ordered s) (hw : Awake s) : Clean s e :=
  let ⟨_, _, _, hl⟩ := hl
  ⟨fun _ hq _ => hq.listed hl hw, h.threads, h.next⟩

/-- All of the kernel that is not about a single resource is as it should be. -/
structure Sane (s : Sys) : Prop where
  ordered : Ordered s
  asleep : Asleep s
  awake : Awake s
  objects : Objects s

/-- **Fair steps leave it so.** -/
theorem Sane.step (h : Sane s) (hf : Fair s e) (hstep : Step s e s') : Sane s' := by
  obtain ⟨ha, hw, ho⟩ := clean_step (hf.clean h.ordered h.awake) h.asleep h.awake h.objects hstep
  exact ⟨h.ordered.step h.asleep h.awake h.objects hf.tidy hstep, ha, hw, ho⟩

theorem sane_boot : Sane bootSys := ⟨⟨_, _, _, lists_boot⟩, asleep_boot, awake_boot, objects_boot⟩

end Yalnix.System
