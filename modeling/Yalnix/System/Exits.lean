import Yalnix.System.Departure

/-!
# What an exit leaves behind

* `Threadless` — the threads of the running process that the walk has come past are gone;
  `Threadless.step`, `Lists.threadless` — one thread, and all.
* `HandedUp`, `Lists.handUp` — the children go to the parent.
* `Departed`, `Lists.kill` — `killProcess`, with both.
* `Lists.exit` — a tidy exit leaves all lists right.
-/

set_option autoImplicit false

namespace Yalnix.System

open Ring (Heap IsRing Linked Rings Outside)

variable {s s' s₁ t u u' u₁ u₂ v : Sys} {n m : Nat} {p q c z P G : PID} {l done todo : List PID} {e : Event}
  {status : Int} {kids threads : PID → List PID}

/-! ## One thread -/

theorem Lists.thread_ring (h : Lists s l kids threads) (hal : (s.desc z).allocated = true)
    (hl : (s.desc z).thread_leader.isSome) :
    IsRing s.tree (.children z) [] ∧ IsRing s.tree (.siblings z) [] := by
  refine ⟨?_, h.tree.ring _ (.siblings hal hl)⟩
  have hr := h.ring (headed_of_thread hal hl)
  rw [(h.single z hal hl).1] at hr
  exact hr

/-- To kill a process that has neither children nor threads, and does not run, is to touch the one
that runs. -/
theorem killProcess_alone {r : Option PID} (hz : z ≠ s.current)
    (htree : IsRing s.tree (.children z) []) (hgroups : IsRing s.groups (.thread_group z) [])
    (h : killProcess n z status s = some (r, s')) : s' = s ∨ s' = s.expire status := by
  cases n with
  | zero => cases h
  | succ m =>
    unfold killProcess at h
    split at h
    · cases h
      exact .inl rfl
    · right
      simp only [Option.bind_eq_bind, Option.bind_some, Option.bind_eq_some_iff, Option.some.injEq,
        Prod.mk.injEq] at h
      obtain ⟨first, hfirst, s₁, h₁, s₂, h₂, first', hfirst', s₃, h₃, -, rfl⟩ := h
      have hs₁ : s₁ = s := by
        rw [(Ring.isRing_nil.mp htree).1] at hfirst
        cases hfirst
        cases m with
        | zero => cases h₁
        | succ m =>
          unfold forEachChild at h₁
          rw [if_pos rfl] at h₁
          exact (Option.some.inj h₁).symm
      subst hs₁
      have hs₂ : s₂ = s₁ := by
        unfold giveChildren listIsEmpty at h₂
        simp [(Ring.isRing_nil.mp htree).1] at h₂
        exact h₂.symm
      subst hs₂
      rw [forEachThread_none hgroups hfirst' h₃]
      rfl

/-- A thread is on no list of children. -/
theorem freeDescriptor_thread (htree : IsRing s.tree (.children z) [])
    (hsiblings : IsRing s.tree (.siblings z) []) (h : freeDescriptor z s = some s') :
    ∃ procs, s' = ({ s with procs := procs } : Sys).setDesc z fun d => { d with allocated := false } := by
  obtain ⟨tree, procs, hr, -, rfl⟩ := freeDescriptor_childless htree h
  have hsame := removeNode_self hsiblings hr
  subst hsame
  exact ⟨procs, rfl⟩

theorem freeDescriptor_expire (status : Int) (hz : z ≠ s.current)
    (h : freeDescriptor z s = some s') :
    freeDescriptor z (s.expire status) = some (s'.expire status) := by
  unfold freeDescriptor at h ⊢
  simp only [Option.bind_eq_bind, Option.bind_eq_some_iff, Option.some.injEq] at h
  obtain ⟨idle, hidle, tree₁, h₁, tree₂, h₂, tree₃, h₃, procs, h₄, rfl⟩ := h
  have hidle' : getIdleProcess (s.expire status) = some idle := hidle
  have htree : (s.expire status).tree = s.tree := rfl
  have hprocs : (s.expire status).procs = s.procs := rfl
  simp only [Option.bind_eq_bind, hidle', Option.bind_some, htree, h₁, h₂, h₃, hprocs, h₄]
  unfold Sys.expire Sys.setDesc
  simp only [Function.update_of_ne hz, Function.update_of_ne hz.symm,
    Function.update_comm hz.symm]

/-! ## All threads -/

/-- The walk over the threads of the running process has come past those of `done`. -/
structure Threadless (s : Sys) (status : Int) (kids threads : PID → List PID) (done : List PID)
    (u : Sys) : Prop where
  lists : ∃ l, Lists (u.expire status) l kids threads
  same : u = { s with desc := u.desc, procs := u.procs, stale_read := u.stale_read }
  self : (u.expire status).desc s.current = (s.expire status).desc s.current
  other : ∀ q, q ≠ s.current → q ∉ done → u.desc q = s.desc q
  freed : ∀ t ∈ done, t ≠ s.current ∧ (u.desc t).allocated = false

theorem Threadless.current (h : Threadless s status kids threads done u) : u.current = s.current := by
  rw [h.same]

theorem Threadless.step {r : Option PID} (h : Threadless s status kids threads done u)
    (hz : z ≠ s.current) (hdone : z ∉ done) (hroot : z ≠ 1) (hal : (s.desc z).allocated = true)
    (hl : (s.desc z).thread_leader.isSome) (hthreads : threads z = [])
    (hk : killProcess m z (-1) u = some (r, u₁)) (hr : releaseProcess m z u₁ = some u₂) :
    Threadless s status kids threads (z :: done) (u₂.follow z) := by
  obtain ⟨l, hlists⟩ := h.lists
  have hcurrent := h.current
  have hzu : z ≠ u.current := by
    rw [hcurrent]
    exact hz
  have hdesc : (u.expire status).desc z = s.desc z := by
    rw [expire_desc_of_ne hzu]
    exact h.other z hz hdone
  rw [← hdesc] at hal hl
  obtain ⟨hchildren, hsiblings⟩ := hlists.thread_ring hal hl
  have hcohort := hlists.cohort_ring hal
  rw [hthreads] at hcohort
  -- whatever `killProcess` has done to the running process is overwritten in the end
  have hu₁ : u₁.expire status = u.expire status ∧ u₁.tree = u.tree ∧ u₁.current = u.current ∧
      (∀ q, q ≠ u.current → u₁.desc q = u.desc q) ∧ u₁ = { u with desc := u₁.desc } := by
    rcases killProcess_alone hzu hchildren hcohort hk with rfl | rfl
    · exact ⟨rfl, rfl, rfl, fun _ _ => rfl, rfl⟩
    · exact ⟨expire_expire u (-1) status, rfl, rfl, fun q hq => expire_desc_of_ne hq _, rfl⟩
  obtain ⟨hexpire, htree, hcurrent₁, hother, hsame⟩ := hu₁
  have hchildren₁ : IsRing u₁.tree (.children z) [] := by
    rw [htree]
    exact hchildren
  have hsiblings₁ : IsRing u₁.tree (.siblings z) [] := by
    rw [htree]
    exact hsiblings
  have hfree := releaseProcess_childless hchildren₁ hr
  have hz₁ : z ≠ u₁.current := by
    rw [hcurrent₁]
    exact hzu
  have hfree' := freeDescriptor_expire status hz₁ hfree
  rw [hexpire] at hfree'
  have hafter := hlists.free (headed_of_thread hal hl) (hlists.single z hal hl).1 hroot hfree'
  have hkids : (fun p => (kids p).erase z) = kids := by
    funext p
    apply List.erase_of_not_mem
    intro hm
    have hnone := (hlists.child p z hm).2.2
    rw [hnone] at hl
    cases hl
  rw [hkids] at hafter
  obtain ⟨procs, hu₂⟩ := freeDescriptor_thread hchildren₁ hsiblings₁ hfree
  have hfreed : (u₂.desc z).allocated = false := releaseProcess_frees hr
  have hkeep : ∀ q, q ≠ z → u₂.desc q = u₁.desc q := by
    intro q hq
    rw [hu₂]
    exact Function.update_of_ne hq _ _
  have hfollow : u₂.follow z = { u₂ with stale_read := true } := by
    unfold Sys.follow
    rw [hfreed]
    rfl
  rw [hfollow]
  refine ⟨⟨l.erase z, ?_⟩, ?_, ?_, fun q hq hqz => ?_, fun t ht => ?_⟩
  · exact hafter.congr rfl rfl rfl fun q => ⟨rfl, rfl, rfl, Iff.rfl⟩
  · rw [hu₂, hsame, h.same]
    rfl
  · have hself : ({ u₂ with stale_read := true } : Sys).expire status =
        { u₂.expire status with stale_read := true } := rfl
    rw [hself]
    change (u₂.expire status).desc s.current = _
    have hcurrent₂ : u₂.current = s.current := by
      rw [hu₂, ← hcurrent, ← hcurrent₁]
      rfl
    have h₂ := expire_desc_self u₂ status
    have h₁ := expire_desc_self u₁ status
    rw [hcurrent₂, hkeep _ hz.symm] at h₂
    rw [hcurrent₁, hcurrent, hexpire] at h₁
    rw [h₂, ← h₁]
    exact h.self
  · have hq' : q ≠ z ∧ q ∉ done := by
      simpa using hqz
    change u₂.desc q = s.desc q
    rw [hkeep q hq'.1, hother q (by rw [hcurrent]; exact hq)]
    exact h.other q hq hq'.2
  · change t ≠ s.current ∧ (u₂.desc t).allocated = false
    rcases List.mem_cons.mp ht with rfl | hm
    · exact ⟨hz, hfreed⟩
    · obtain ⟨htc, hfree⟩ := h.freed t hm
      have htz : t ≠ z := by
        rintro rfl
        exact hdone hm
      refine ⟨htc, ?_⟩
      rw [hkeep t htz, hother t (by rw [hcurrent]; exact htc)]
      exact hfree

/-- What `killProcess` does to a thread of the running process. -/
def killThread (m : Nat) (t : PID) (s : Sys) : Option Sys := do
  let (_, s) ← killProcess m t (-1) s
  releaseProcess m t s

/-- The walk comes past a thread of the running process. -/
theorem Threadless.round (h : Threadless s status kids threads done u)
    (hall : ∀ t, (s.desc t).thread_leader = some s.current →
      t ≠ s.current ∧ t ≠ 1 ∧ (s.desc t).allocated = true ∧ threads t = [])
    (hleader : (s.desc z).thread_leader = some s.current) (hdone : z ∉ done)
    (hk : killThread m z u = some u') :
    Threadless s status kids threads (z :: done) (u'.follow z) := by
  obtain ⟨hz, hroot, hal, hthreads⟩ := hall z hleader
  have hl : (s.desc z).thread_leader.isSome := by
    rw [hleader]
    rfl
  unfold killThread at hk
  simp only [Option.bind_eq_bind, Option.bind_eq_some_iff] at hk
  obtain ⟨⟨r, u₁⟩, hkill, hrelease⟩ := hk
  exact h.step hz hdone hroot hal hl hthreads hkill hrelease

/-- Every thread of the running process is another process, and has no threads. -/
theorem Lists.own_threads (h : Lists (v.expire status) l kids threads)
    (hleader : ∀ t p, (v.desc t).thread_leader = some p → (v.desc p).thread_leader = none)
    (hjoined : ∀ t, (v.desc t).thread_leader = some v.current → (v.desc t).allocated = true)
    (t : PID) (ht : (v.desc t).thread_leader = some v.current) :
    t ≠ v.current ∧ t ≠ 1 ∧ (v.desc t).allocated = true ∧ threads t = [] := by
  refine ⟨?_, ?_, hjoined t ht, ?_⟩
  · rintro rfl
    have hnone := hleader _ _ ht
    rw [ht] at hnone
    cases hnone
  · rintro rfl
    have hnone := h.root.2.2
    rw [(expire_kin v status 1).2.2, ht] at hnone
    cases hnone
  · cases hk : threads t with
    | nil => rfl
    | cons x xs =>
      have hx : x ∈ threads t := by
        rw [hk]
        exact List.mem_cons_self
      have hled := (h.peers t x).mp hx
      rw [(expire_kin v status x).2.2] at hled
      have hnone := hleader x t hled
      rw [ht] at hnone
      cases hnone

theorem Lists.own_ring (h : Lists (v.expire status) l kids threads)
    (hal : (v.desc v.current).allocated = true) :
    IsRing v.groups (.thread_group v.current) ((threads v.current).map .thread_peers) := by
  refine h.cohort_ring (s := v.expire status) ?_
  rw [(expire_kin v status v.current).1]
  exact hal

/-- **All threads of the running process are killed and released.** -/
theorem Lists.threadless (h : Lists (v.expire status) l kids threads)
    (hal : (v.desc v.current).allocated = true)
    (hleader : ∀ t p, (v.desc t).thread_leader = some p → (v.desc p).thread_leader = none)
    (hjoined : ∀ t, (v.desc t).thread_leader = some v.current → (v.desc t).allocated = true)
    {first : GroupNode} (hfirst : v.groups.next (.thread_group v.current) = some first)
    (hrun : forEachThread (.thread_group v.current) (killThread m) n first v = some u) :
    Threadless v status kids threads ((threads v.current).reverse ++ []) u := by
  have hring := h.own_ring hal
  have hgroups : ∀ done u, Threadless v status kids threads done u → u.groups = v.groups :=
    fun done u hI => by rw [hI.same]
  have hround : ∀ done z u u', z ∈ threads v.current → z ∉ done →
      Threadless v status kids threads done u → killThread m z u = some u' →
      Threadless v status kids threads (z :: done) (u'.follow z) := by
    intro done z u u' hz hdone hI hk
    have hled := (h.peers v.current z).mp hz
    rw [(expire_kin v status z).2.2] at hled
    exact hI.round (h.own_threads hleader hjoined) hled hdone hk
  exact forEachThread_rule (by simp) hgroups hround (threads v.current) n [] first v u
    ⟨⟨l, h⟩, rfl, rfl, fun _ _ _ => rfl, by simp⟩
    (hring.first hfirst) hring.onward (hring.nodup.of_map _) (by simp) hrun

/-! ## The exit -/

/-- The running process is a zombie, its threads are gone, and the others are as they were, but for
their parents. -/
structure Departed (s s' : Sys) (status : Int) : Prop where
  kept : Kept s s'
  self : s'.desc s.current = { s.desc s.current with state := .ZOMBIE, exit_status := status }
  thread : ∀ t, (s.desc t).thread_leader = some s.current →
    t ≠ s.current ∧ (s'.desc t).allocated = false
  other : ∀ q, q ≠ s.current → (s.desc q).thread_leader ≠ some s.current →
    s'.desc q = { s.desc q with parent := (s'.desc q).parent }

theorem Threadless.departed (h : Threadless v status kids threads done u)
    (hcurrent : v.current = s.current) (hkept : Kept s v) (hself : v.desc s.current = s.desc s.current)
    (hother : ∀ q, v.desc q = { s.desc q with parent := (v.desc q).parent })
    (hdone : ∀ t, t ∈ done ↔ (s.desc t).thread_leader = some s.current) :
    Departed s (u.expire status) status := by
  have hu := h.current
  refine ⟨hkept.trans ?_, ?_, fun t ht => ?_, fun q hq hl => ?_⟩
  · have hsame := h.same
    unfold Kept
    rw [hsame]
    rfl
  · have hs := h.self
    have hv := expire_desc_self v status
    rw [hcurrent] at hs hv
    rw [hs, hv, hself]
  · obtain ⟨hne, hfree⟩ := h.freed t ((hdone t).mpr ht)
    rw [(expire_kin u status t).1, ← hcurrent]
    exact ⟨hne, hfree⟩
  · have hqu : q ≠ u.current := by
      rw [hu, hcurrent]
      exact hq
    rw [expire_desc_of_ne hqu, h.other q (by rw [hcurrent]; exact hq) fun hm => hl ((hdone q).mp hm)]
    exact hother q

/-- The process that exits has one child at most. -/
theorem Lists.one_child (h : Lists s l kids threads) (hw : Awake s) (ht : Tidy s (.exit status)) :
    kids s.current = [] ∨ ∃ c, kids s.current = [c] := by
  have hring := h.ring (headed_of_alive hw.allocated (by rw [hw.running]; decide))
  have hnodup : (kids s.current).Nodup := List.Nodup.of_map _ hring.nodup
  have hone : ∀ c ∈ kids s.current, ∀ d ∈ kids s.current, c = d := by
    intro c hc d hd
    have hc' := h.child _ c hc
    have hd' := h.child _ d hd
    exact ht.children status rfl c d hc'.1 hd'.1 hc'.2.1 hd'.2.1
  cases hk : kids s.current with
  | nil => exact .inl rfl
  | cons c cs =>
    right
    rw [hk] at hnodup hone
    cases cs with
    | nil => exact ⟨c, rfl⟩
    | cons d cs =>
      have hcd := hone c (by simp) d (by simp)
      subst hcd
      simp at hnodup

/-- The running process has no children any more, which are with its parent if there were any. -/
structure HandedUp (s v : Sys) (l : List PID) (kids kids' threads : PID → List PID) (status : Int) :
    Prop where
  lists : Lists (v.expire status) l kids' threads
  kept : Kept s v
  procs : v.procs = s.procs
  self : v.desc s.current = s.desc s.current
  other : ∀ q, v.desc q = { s.desc q with parent := (v.desc q).parent }
  childless : kids' s.current = []
  stay : ∀ p, p ≠ s.current → ∀ c ∈ kids p, c ∈ kids' p
  clean : kids s.current = [] → v.tree.next (.children s.current) = some (.children s.current)

theorem HandedUp.current {kids' : PID → List PID} (h : HandedUp s v l kids kids' threads status) :
    v.current = s.current := by
  rw [h.kept]
  rfl

/-- **The children of a process that exits go to its parent.** -/
theorem Lists.handUp {first : TreeNode} (h : Lists s l kids threads) (hw : Awake s)
    (ht : Tidy s (.exit status)) (hfirst : s.tree.next (.children s.current) = some first)
    (h₁ : forEachChild (.children s.current) (killChild m s.current) m first s = some s₁)
    (h₂ : giveChildren s.current s₁ = some v) :
    ∃ kids', HandedUp s v l kids kids' threads status := by
  have hring := h.ring (headed_of_alive hw.allocated (by rw [hw.running]; decide))
  have halive : ∀ c ∈ kids s.current, (s.desc c).state ≠ .ZOMBIE := by
    intro c hc
    have hc' := h.child _ c hc
    exact ht.zombies status rfl c hc'.1 hc'.2.1
  rcases h.one_child hw ht with hnone | ⟨c, hc⟩
  · rw [hnone] at hring
    have hs₁ : s₁ = s.adopt [] (s.desc s.current).parent :=
      walked hring (by simp) rfl (by simp) (by simp) hfirst h₁
    rw [adopt_nil] at hs₁
    subst hs₁
    have hv : v = s₁ := by
      unfold giveChildren listIsEmpty at h₂
      simp [(Ring.isRing_nil.mp hring).1] at h₂
      exact h₂.symm
    subst hv
    exact ⟨kids, h.expire hw hnone status, Kept.refl _, rfl, rfl, fun _ => rfl, hnone,
      fun _ _ _ hc => hc, fun _ => (Ring.isRing_nil.mp hring).1⟩
  · have hcm : c ∈ kids s.current := by
      rw [hc]
      exact List.mem_cons_self
    have hnot : s.current ∉ kids s.current := fun hm => absurd (h.order _ _ hm) (lt_irrefl _)
    have hs₁ := walked hring hnot rfl (fun d hd => (h.child _ d hd).1) halive hfirst h₁
    have hleader : (s.desc s.current).thread_leader = none := by
      by_contra hl
      have hsingle := (h.single _ hw.allocated (Option.isSome_iff_ne_none.mpr hl)).1
      rw [hc] at hsingle
      cases hsingle
    have hnotempty : listIsEmpty (.children s.current) s₁.tree = some false := by
      have hnext : s₁.tree.next (.children s.current) = some (.siblings c) := by
        rw [hs₁]
        rw [hc] at hring
        exact hring.next_head
      unfold listIsEmpty
      simp [hnext]
    have hparent₁ : (s₁.desc s.current).parent = (s.desc s.current).parent := by
      rw [hs₁, adopt_desc_of_not_mem hnot]
    unfold giveChildren at h₂
    rw [hnotempty] at h₂
    simp only [Option.bind_eq_bind, Option.bind_some, Bool.false_eq_true, if_false,
      Option.bind_eq_some_iff, Option.some.injEq, hparent₁] at h₂
    obtain ⟨G, hG, tree, hsplice, rfl⟩ := h₂
    have hP : s.current ∈ kids G := by
      have hne : s.current ≠ 1 := by
        intro h1
        rw [h1, h.root.2.1] at hG
        cases hG
      obtain ⟨p, hp⟩ := h.parent _ hw.allocated hleader hne
      have hpar := (h.child p _ hp).2.1
      rw [hG, Option.some.injEq] at hpar
      rw [hpar]
      exact hp
    have hneG : G ≠ s.current := ne_of_lt (h.order G _ hP)
    rw [hG, hc] at hs₁
    subst hs₁
    have hcP : c ≠ s.current := (h.order _ c hcm).ne'
    have hself : (s.adopt [c] (some G)).desc s.current = s.desc s.current :=
      adopt_desc_of_not_mem (by simpa using hcP.symm) s (some G)
    have hother : ∀ q, (s.adopt [c] (some G)).desc q =
        { s.desc q with parent := ((s.adopt [c] (some G)).desc q).parent } := by
      intro q
      rcases eq_or_ne q c with rfl | hq
      · rw [adopt_desc_of_mem List.mem_cons_self]
      · rw [adopt_desc_of_not_mem (by simpa using hq)]
    refine ⟨_, h.adopted hw hP hc status hsplice, rfl, rfl, hself, hother, ?_, fun p hp d hd => ?_,
      fun hnil => ?_⟩
    · rw [Function.update_of_ne hneG.symm, Function.update_self]
    · rcases eq_or_ne p G with rfl | hpG
      · rw [Function.update_self]
        exact List.mem_append_left _ hd
      · rw [Function.update_of_ne hpG, Function.update_of_ne hp]
        exact hd
    · rw [hc] at hnil
      cases hnil

/-- The threads of the running process are as they were. -/
theorem HandedUp.joined {kids' : PID → List PID} (h : HandedUp s v l kids kids' threads status)
    (ha : Asleep s) (hw : Awake s) (ht : Tidy s (.exit status)) :
    (v.desc v.current).allocated = true ∧
    (∀ t p, (v.desc t).thread_leader = some p → (v.desc p).thread_leader = none) ∧
    ∀ t, (v.desc t).thread_leader = some v.current → (v.desc t).allocated = true := by
  have hleaders : ∀ q, (v.desc q).thread_leader = (s.desc q).thread_leader := fun q => by
    rw [h.other q]
  have hallocated : ∀ q, (v.desc q).allocated = (s.desc q).allocated := fun q => by
    rw [h.other q]
  refine ⟨?_, fun t p htp => ?_, fun t htp => ?_⟩
  · rw [h.current, hallocated]
    exact hw.allocated
  · rw [hleaders] at htp ⊢
    exact ha.groups.leader t p htp
  · rw [h.current, hleaders] at htp
    rw [hallocated]
    exact ht.joined status rfl t htp

/-- **`killProcess`, called by the running process.** -/
theorem Lists.kill {r : Option PID} (h : Lists s l kids threads) (ha : Asleep s) (hw : Awake s)
    (ht : Tidy s (.exit status)) (hk : killProcess n s.current status s = some (r, s')) :
    ∃ l' kids', Lists s' l' kids' threads ∧ Departed s s' status ∧ kids' s.current = [] ∧
      (∀ p, p ≠ s.current → ∀ c ∈ kids p, c ∈ kids' p) ∧
      (kids s.current = [] → Headed s' s.current) := by
  obtain ⟨m, q, first, s₁, v, first', u, rfl, -, -, hfirst, h₁, h₂, hfirst', h₃, rfl⟩ :=
    killProcess_some hk (by rw [hw.running]; exact ⟨by decide, by decide⟩) rfl
  obtain ⟨kids', hup⟩ := h.handUp hw ht hfirst h₁ h₂
  have hcurrent := hup.current
  obtain ⟨hal, hleader, hjoined⟩ := hup.joined ha hw ht
  rw [← hcurrent] at hfirst' h₃
  have hgone := hup.lists.threadless hal hleader hjoined hfirst' h₃
  have hpeers : ∀ t, t ∈ (threads v.current).reverse ++ [] ↔
      (s.desc t).thread_leader = some s.current := by
    intro t
    rw [List.append_nil, List.mem_reverse, hcurrent]
    exact h.peers s.current t
  obtain ⟨l', hl'⟩ := hgone.lists
  have hdep := hgone.departed hcurrent hup.kept hup.self hup.other hpeers
  refine ⟨l', kids', hl', hdep, hup.childless, hup.stay, fun hnone => ⟨?_, fun _ _ => ?_⟩⟩
  · change ((u.expire status).desc s.current).allocated = true
    rw [hdep.self]
    exact hw.allocated
  · have htree : u.tree = v.tree := by rw [hgone.same]
    change u.tree.next _ = _
    rw [htree]
    exact hup.clean hnone

/-- The running process is a child of the first process, which is given no chance to wait for it. -/
def Disowned (s : Sys) : Prop :=
  (s.desc s.current).thread_leader = none ∧ (s.desc s.current).parent = some 1

/-- **A tidy exit leaves all lists right.** -/
theorem Lists.exit (h : Lists s l kids threads) (ha : Asleep s) (hw : Awake s)
    (ht : Tidy s (.exit status)) (hrun : killCurrentProcess n status s = .switched s') :
    ∃ l' kids', Lists s' l' kids' threads ∧
      (¬ Disowned s → Departed s { s' with current := s.current } status ∧ kids' s.current = [] ∧
        ∀ p, p ≠ s.current → ∀ c ∈ kids p, c ∈ kids' p) := by
  unfold killCurrentProcess at hrun
  split at hrun
  · cases hrun
  · cases hrun
  · rename_i q s₁ hk
    obtain ⟨l', kids', hlists, hdep, hnil, hkids, hclean⟩ := h.kill ha hw ht hk
    have hcurrent : s₁.current = s.current := by
      rw [hdep.kept]
      rfl
    have hswitch : Lists { s₁ with current := q } l' kids' threads :=
      hlists.congr rfl rfl rfl fun _ => ⟨rfl, rfl, rfl, Iff.rfl⟩
    have hback : ({ s₁ with current := s.current } : Sys) = s₁ := by rw [← hcurrent]
    have hstays : Departed s { ({ s₁ with current := q } : Sys) with current := s.current } status := by
      change Departed s { s₁ with current := s.current } status
      rw [hback]
      exact hdep
    split at hrun
    · cases hrun
    · rename_i s₂ hkk
      cases hrun
      unfold killKernelContext at hkk
      dsimp only at hkk
      have hleader : (s₁.desc s.current).thread_leader = (s.desc s.current).thread_leader := by
        rw [hdep.self]
      have hparent : (s₁.desc s.current).parent = (s.desc s.current).parent := by rw [hdep.self]
      rw [hleader, hparent] at hkk
      split at hkk
      · rename_i hnone
        simp only [Option.bind_eq_bind, Option.bind_eq_some_iff] at hkk
        obtain ⟨parent, hpar, hkk⟩ := hkk
        split at hkk
        · rename_i hone
          rw [hone] at hpar
          -- the process has no children, so that its release is a clean one
          have hchildless : kids s.current = [] := by
            cases hc : kids s.current with
            | nil => rfl
            | cons c cs =>
              have hcm : c ∈ kids s.current := by
                rw [hc]
                exact List.mem_cons_self
              have hchild := h.child _ c hcm
              exact absurd hchild.2.1 (ht.orphans status rfl hpar c hchild.1)
          have hheaded₁ := hclean hchildless
          have hheaded : Headed { s₁ with current := q } s.current :=
            ⟨hheaded₁.allocated, hheaded₁.clean⟩
          have hring := hswitch.ring hheaded
          rw [hnil] at hring
          have hne : s.current ≠ 1 := by
            intro h1
            rw [h1, h.root.2.1] at hpar
            cases hpar
          exact ⟨_, _, hswitch.free hheaded hnil hne (releaseProcess_childless hring hkk),
            fun hd => absurd ⟨hnone, hpar⟩ hd⟩
        · cases hkk
          exact ⟨l', kids', hswitch, fun _ => ⟨hstays, hnil, hkids⟩⟩
      · cases hkk
        exact ⟨l', kids', hswitch, fun _ => ⟨hstays, hnil, hkids⟩⟩

end Yalnix.System
