import Yalnix.System.ListSteps
import Yalnix.System.TtyTurn

/-!
# Waiting for a child

* `Owed`, `Paid` — a child that has exited is a zombie on the list of its parent, or one `Wait` of the
  parent has returned its status.
* `WaitSatisfied` — all that exit are owed or paid, and nobody waits who has no children.
* `disowned_child` — a child of the first process is released when it exits.
* `Moved.debt`, `Departed.debt` — what a step and an exit do to what is owed.
* `wait_satisfied` — otherwise all is well, as long as the lists are.
-/

set_option autoImplicit false

namespace Yalnix.System

open Ring (Heap IsRing Linked Rings Outside)
open Transition (Run)

variable {s s' s₁ t : Sys} {n m : Nat} {p q c g z : PID} {l : List PID} {e : Event} {k : Cont}
  {status : Int} {kids kids' threads : PID → List PID} {gone : Option PID}

/-! ## The children of a process that waits -/

/-- One `Wait` of the parent has returned the status of the child, and no other `Wait` has. -/
def Paid (s : Sys) (c g : PID) (status : Int) : Prop :=
  s.reaped.filter (fun x => x.1 = c) = [(c, g, status)]

def Debt (s : Sys) (kids : PID → List PID) (c g : PID) (status : Int) : Prop :=
  c ∈ kids g ∧ (s.desc c).state = .ZOMBIE ∧ (s.desc c).exit_status = status ∨
    c ≤ s.max_pid ∧ (s.desc c).allocated = false ∧ Paid s c g status

/-- Who has been returned has been released. -/
def Settled (s : Sys) : Prop := ∀ x ∈ s.reaped, x.1 ≤ s.max_pid ∧ (s.desc x.1).allocated = false

theorem Settled.none (h : Settled s) (hc : (s.desc c).allocated = true) :
    s.reaped.filter (fun x => x.1 = c) = [] := by
  apply List.filter_eq_nil_iff.mpr
  intro x hx hxc
  have hfree := (h x hx).2
  rw [of_decide_eq_true hxc, hc] at hfree
  cases hfree

theorem Moved.settled (hm : Moved s t kids kids' gone) (ha : Asleep s) (h : Settled s) : Settled t := by
  have hold : ∀ x ∈ s.reaped, x.1 ≤ t.max_pid ∧ (t.desc x.1).allocated = false := by
    intro x hx
    obtain ⟨hle, hfree⟩ := h x hx
    refine ⟨hle.trans hm.max, ?_⟩
    rw [(hm.desc x.1 hle fun hg => ?_).1]
    · exact hfree
    · have hal := (hm.left x.1 hg).1
      rw [hfree] at hal
      cases hal
  intro x hx
  rcases hm.reaped with ⟨hsame, -⟩ | ⟨z, hz, -, hmore⟩
  · rw [hsame] at hx
    exact hold x hx
  · rw [hmore] at hx
    rcases List.mem_append.mp hx with hx | hx
    · exact hold x hx
    · rw [List.mem_singleton] at hx
      subst hx
      obtain ⟨hal, -, hfree⟩ := hm.left z hz
      refine ⟨le_trans ?_ hm.max, hfree⟩
      by_contra hlt
      rw [ha.fresh z (not_le.mp hlt)] at hal
      cases hal

/-- A child that is waited for goes from the list to the log. -/
theorem Moved.debt (hm : Moved s t kids kids' gone) (h : Lists s l kids threads) (ha : Asleep s)
    (hs : Settled s) (hd : Debt s kids c g status) : Debt t kids' c g status := by
  rcases hd with ⟨hc, hzombie, hstatus⟩ | ⟨hle, hfree, hpaid⟩
  · obtain ⟨hal, -, hleader⟩ := h.child g c hc
    have hle : c ≤ s.max_pid := by
      by_contra hlt
      rw [ha.fresh c (not_le.mp hlt)] at hal
      cases hal
    rcases eq_or_ne gone (some c) with hgone | hgone
    · right
      refine ⟨hle.trans hm.max, (hm.left c hgone).2.2, ?_⟩
      rcases hm.reaped with ⟨-, hthread⟩ | ⟨z, hz, hmem, hmore⟩
      · have := hthread c hgone
        rw [hleader] at this
        cases this
      · rw [hgone, Option.some.injEq] at hz
        subst hz
        have hg := h.parent_unique hmem hc
        unfold Paid
        rw [hmore, List.filter_append, hs.none hal, hg, hstatus]
        simp
    · obtain ⟨-, hst, hz⟩ := hm.desc c hle hgone
      exact .inl ⟨hm.stay g c hc hgone, hz.mpr hzombie, hst.trans hstatus⟩
  · right
    have hgone : gone ≠ some c := by
      intro hg
      have hal := (hm.left c hg).1
      rw [hfree] at hal
      cases hal
    refine ⟨hle.trans hm.max, (hm.desc c hle hgone).1.trans hfree, ?_⟩
    rcases hm.reaped with ⟨hsame, -⟩ | ⟨z, hz, -, hmore⟩
    · unfold Paid
      rw [hsame]
      exact hpaid
    · have hne : z ≠ c := by
        rintro rfl
        exact hgone hz
      unfold Paid
      rw [hmore, List.filter_append, hpaid]
      simp [hne]

/-- Nobody who has a child is left without. -/
theorem Moved.childless (hm : Moved s t kids kids' gone) (h : Lists s l kids threads)
    (hp : p ≠ s.current) (hkids : kids p ≠ []) : kids' p ≠ [] := by
  obtain ⟨c, hc⟩ := List.exists_mem_of_ne_nil _ hkids
  have hgone : gone ≠ some c := by
    intro hg
    rcases hm.reaped with ⟨-, hthread⟩ | ⟨z, hz, hmem, -⟩
    · have := hthread c hg
      rw [(h.child p c hc).2.2] at this
      cases this
    · rw [hg, Option.some.injEq] at hz
      subst hz
      exact hp (h.parent_unique hc hmem)
  exact List.ne_nil_of_mem (hm.stay p c hc hgone)

/-! ## An exit -/

theorem Departed.settled (hd : Departed s s' status) (hal : (s.desc s.current).allocated = true)
    (h : Settled s) : Settled s' := by
  have hreaped : s'.reaped = s.reaped := by
    rw [hd.kept]
    rfl
  have hmax : s'.max_pid = s.max_pid := by
    rw [hd.kept]
    rfl
  intro x hx
  rw [hreaped] at hx
  obtain ⟨hle, hfree⟩ := h x hx
  rw [hmax]
  refine ⟨hle, ?_⟩
  by_cases ht : (s.desc x.1).thread_leader = some s.current
  · exact (hd.thread x.1 ht).2
  · have hne : x.1 ≠ s.current := by
      intro he
      rw [he, hal] at hfree
      cases hfree
    rw [hd.other x.1 hne ht]
    exact hfree

theorem Departed.debt (hd : Departed s s' status) (h : Lists s l kids threads) (hw : Awake s)
    (ht : Tidy s (.exit status)) (hkids : ∀ p, p ≠ s.current → ∀ c ∈ kids p, c ∈ kids' p)
    {st : Int} (hdebt : Debt s kids c g st) : Debt s' kids' c g st := by
  have hreaped : s'.reaped = s.reaped := by
    rw [hd.kept]
    rfl
  have hmax : s'.max_pid = s.max_pid := by
    rw [hd.kept]
    rfl
  rcases hdebt with ⟨hc, hzombie, hstatus⟩ | ⟨hle, hfree, hpaid⟩
  · obtain ⟨hal, hparent, hleader⟩ := h.child g c hc
    have hg : g ≠ s.current := by
      rintro rfl
      exact ht.zombies status rfl c hal hparent hzombie
    have hne : c ≠ s.current := by
      rintro rfl
      rw [hw.running] at hzombie
      cases hzombie
    have hother := hd.other c hne (by rw [hleader]; simp)
    refine .inl ⟨hkids g hg c hc, ?_, ?_⟩
    · rw [hother]
      exact hzombie
    · rw [hother]
      exact hstatus
  · right
    refine ⟨by rw [hmax]; exact hle, ?_, ?_⟩
    · by_cases hl : (s.desc c).thread_leader = some s.current
      · exact (hd.thread c hl).2
      · have hne : c ≠ s.current := by
          rintro rfl
          rw [hw.allocated] at hfree
          cases hfree
        rw [hd.other c hne hl]
        exact hfree
    · unfold Paid
      rw [hreaped]
      exact hpaid

/-! ## Steps -/

/-- The loop of `waitForPID` is only entered, and gone on with. -/
theorem Effect.expects (he : Effect s e .waitForPID t) : t = s ∧ Expects s := by
  cases he with
  | quiet quiet queue listed waits => exact waits rfl
  | acquire made acquire => cases acquire
  | waitFails event made made' malloc acquire => cases acquire

/-- Who waits has children; and whom `Wait` has returned has been released. -/
structure Waitful (s : Sys) (kids : PID → List PID) : Prop where
  lists : ∃ l threads, Lists s l kids threads
  sane : Sane s
  scanning : ∀ p, s.cont p = .waitForPID → kids p ≠ []
  settled : Settled s

theorem Lists.not_empty (h : Lists s l kids threads) (hp : kids p ≠ []) :
    listIsEmpty (.children p) s.tree = some false := by
  obtain ⟨c, hc⟩ := List.exists_mem_of_ne_nil _ hp
  obtain ⟨hal, hst⟩ := h.alive p c hc
  have hring := h.ring (headed_of_alive hal hst)
  cases hk : kids p with
  | nil => exact absurd hk hp
  | cons d ds =>
    rw [hk] at hring
    unfold listIsEmpty
    simp [hring.next_head]

theorem Lists.nonempty (h : Lists s l kids threads) (hw : Awake s)
    (he : listIsEmpty (.children s.current) s.tree = some false) : kids s.current ≠ [] := by
  intro hnil
  have hring := h.ring (headed_of_alive hw.allocated (by rw [hw.running]; decide))
  rw [hnil] at hring
  unfold listIsEmpty at he
  simp [(Ring.isRing_nil.mp hring).1] at he

/-- Where a process goes on that is in the loop of `waitForPID` afterwards. -/
theorem Effect.scans (he : Effect s e k t) (hp : (t.setCont t.current k).cont p = .waitForPID) :
    p = s.current ∧ k = .waitForPID ∨ p ≠ s.current ∧ s.cont p = .waitForPID := by
  rw [he.processes.current] at hp
  rcases eq_or_ne p s.current with rfl | hne
  · exact .inl ⟨rfl, (Function.update_self _ _ _).symm.trans hp⟩
  · right
    have ht : (t.setCont s.current k).cont p = t.cont p := Function.update_of_ne hne _ _
    rw [ht] at hp
    rcases he.processes.cont_cases p with hc | hc
    · exact ⟨hne, hc.symm.trans hp⟩
    · rw [hc] at hp
      cases hp

theorem Effect.waitful (he : Effect s e k t) (h : Waitful s kids) (hf : Fair s e) :
    ∃ l' kids' threads', Lists t l' kids' threads' ∧ Settled t ∧
      (∀ p, (t.setCont t.current k).cont p = .waitForPID → kids' p ≠ []) ∧
      ∀ c g st, Debt s kids c g st → Debt t kids' c g st := by
  obtain ⟨l, threads, hl⟩ := h.lists
  have ha := h.sane.asleep
  have hw := h.sane.awake
  obtain ⟨l', kids', threads', gone, hl', hm⟩ := he.processes.moved hl ha hw hf.tidy
  refine ⟨l', kids', threads', hl', hm.settled ha h.settled, fun p hp => ?_, fun c g st hd => ?_⟩
  · rcases he.scans hp with ⟨rfl, rfl⟩ | ⟨hne, hp⟩
    · obtain ⟨rfl, hexpects⟩ := he.expects
      refine hl'.nonempty hw ?_
      rcases hexpects with hc | hnot
      · exact hl.not_empty (h.scanning _ hc)
      · exact hnot
    · exact hm.childless hl hne (h.scanning p hp)
  · exact hm.debt hl ha h.settled hd

/-- **What is owed stays owed until it is paid, and stays paid; and the status of an exit is owed.** -/
theorem Waitful.step (h : Waitful s kids) (hf : Fair s e)
    (hd : ∀ status, e = .exit status → ¬ Disowned s) (hstep : Step s e s') :
    ∃ kids', Waitful s' kids' ∧ (∀ c g st, Debt s kids c g st → Debt s' kids' c g st) ∧
      ∀ status g, e = .exit status → (s.desc s.current).thread_leader = none →
        (s.desc s.current).parent = some g → Debt s' kids' s.current g status := by
  have hsane := h.sane.step hf hstep
  by_cases hexit : ∃ status, e = .exit status
  · obtain ⟨status, rfl⟩ := hexit
    obtain ⟨l, threads, hl⟩ := h.lists
    have hw := h.sane.awake
    obtain ⟨n, hrun⟩ := hstep.exits hw
    obtain ⟨l', kids', hl', hown⟩ := hl.exit h.sane.asleep hw hf.tidy hrun
    obtain ⟨hdep, -, hkids⟩ := hown (hd status rfl)
    refine ⟨kids', ⟨⟨l', threads, hl'⟩, hsane, fun p hp => ?_, hdep.settled hw.allocated h.settled⟩,
      fun c g st hdebt => hdep.debt hl hw hf.tidy hkids hdebt, fun st g he hleader hparent => ?_⟩
    · have hcont : s'.cont = s.cont := by
        have hkept := hdep.kept
        have := congrArg Sys.cont hkept
        exact this
      rw [hcont] at hp
      have hne : p ≠ s.current := by
        rintro rfl
        have huser : s.cont s.current = .user := hstep.1
        rw [huser] at hp
        cases hp
      obtain ⟨c, hc⟩ := List.exists_mem_of_ne_nil _ (h.scanning p hp)
      exact List.ne_nil_of_mem (hkids p hne c hc)
    · cases he
      have hroot : s.current ≠ 1 := by
        intro h1
        rw [h1, hl.root.2.1] at hparent
        cases hparent
      obtain ⟨G, hG⟩ := hl.parent _ hw.allocated hleader hroot
      have hgG := (hl.child G _ hG).2.1
      rw [hparent, Option.some.injEq] at hgG
      subst hgG
      have hself : s'.desc s.current = { s.desc s.current with state := .ZOMBIE, exit_status := status } :=
        hdep.self
      refine .inl ⟨hkids g (ne_of_lt (hl.order g _ hG)) _ hG, ?_, ?_⟩
      · rw [hself]
      · rw [hself]
  · have he : ∀ status, e ≠ .exit status := fun status hs => hexit ⟨status, hs⟩
    cases hstep.leads h.sane.objects he with
    | stays effect ends =>
      obtain ⟨l', kids', threads', hl', hsettled, hscan, hdebt⟩ := effect.waitful h hf
      subst ends
      exact ⟨kids', ⟨⟨l', threads', hl'.setCont _ _⟩, hsane, hscan, hsettled⟩, hdebt,
        fun status _ hs => absurd hs (he status)⟩
    | leaves kernel effect next ends =>
      obtain ⟨l', kids', threads', hl', hsettled, hscan, hdebt⟩ := effect.waitful h hf
      subst ends
      exact ⟨kids', ⟨⟨l', threads', (hl'.setCont _ _).switch _⟩, hsane, hscan, hsettled⟩, hdebt,
        fun status _ hs => absurd hs (he status)⟩

/-! ## Runs -/

/-- A fair step in which no child of the first process exits. -/
def Reaped (s : Sys) (e : Event) (s' : Sys) : Prop :=
  Step s e s' ∧ Fair s e ∧ ∀ status, e = .exit status → ¬ Disowned s

theorem Waitful.run {es : List Event} (h : Run Reaped s es t) (hs : Waitful s kids) :
    ∃ kids', Waitful t kids' ∧ ∀ c g st, Debt s kids c g st → Debt t kids' c g st := by
  induction h generalizing kids with
  | nil => exact ⟨kids, hs, fun _ _ _ hd => hd⟩
  | cons head _ ih =>
    obtain ⟨kids₁, h₁, hd₁, -⟩ := hs.step head.2.1 head.2.2 head.1
    obtain ⟨kids', h', hd'⟩ := ih h₁
    exact ⟨kids', h', fun c g st hd => hd' c g st (hd₁ c g st hd)⟩

/-- The zombie that `waitForPID` finds, if any, had no children when it exited. -/
def cleanWait (n : Nat) (s : Sys) : Bool :=
  match (s.tree.next (.children s.current)).bind (findZombie s (.children s.current) n) with
  | some none => true
  | some (some z) => decide (s.tree.next (.children z) = some (.children z))
  | none => false

/-- Enough for a step to be one of `Reaped`. -/
def reapable (n : Nat) (s : Sys) : Event → Bool
  | .exit _ =>
    decide ((∀ c < s.max_pid + 1, (s.desc c).parent ≠ some s.current ∧
      (s.desc c).thread_leader ≠ some s.current) ∧ (s.desc s.current).parent ≠ some 1) &&
      match nextProcess s n (.process_list s.current) with
      | some q => decide (q ≠ s.current)
      | none => false
  | .wait => cleanWait n s
  | .resume _ =>
    match s.cont s.current with
    | .joinThread _ => false
    | _ => cleanWait n s
  | .joinThread _ => false
  | _ => true

/-- The search has no choice. -/
theorem findZombie_unique {head : TreeNode} : ∀ {n m : Nat} {pos : TreeNode} {r r' : Option PID},
    findZombie s head n pos = some r → findZombie s head m pos = some r' → r = r'
  | 0, _, _, _, _, h, _ => by cases h
  | _, 0, _, _, _, _, h => by cases h
  | n + 1, m + 1, pos, r, r', h, h' => by
    unfold findZombie at h h'
    split at h
    · rename_i hpos
      rw [if_pos hpos] at h'
      exact Option.some.inj (h.symm.trans h')
    · rename_i hpos
      rw [if_neg hpos] at h'
      cases pos with
      | children q => cases h
      | siblings q =>
        dsimp only at h h'
        split at h
        · rename_i hz
          rw [if_pos hz] at h'
          exact Option.some.inj (h.symm.trans h')
        · rename_i hz
          rw [if_neg hz] at h'
          obtain ⟨next, hnext, h⟩ := Option.bind_eq_some_iff.mp h
          obtain ⟨next', hnext', h'⟩ := Option.bind_eq_some_iff.mp h'
          rw [hnext, Option.some.injEq] at hnext'
          subst hnext'
          exact findZombie_unique h h'

theorem reapable_exit (hs : Sane s) (h : reapable n s (.exit status) = true) :
    Fair s (.exit status) ∧ ¬ Disowned s := by
  unfold reapable at h
  rw [Bool.and_eq_true, decide_eq_true_eq] at h
  obtain ⟨⟨hnone, hparent⟩, hnext⟩ := h
  have hchild : ∀ c, (s.desc c).allocated = true → (s.desc c).parent ≠ some s.current := by
    intro c hc
    by_cases hle : c ≤ s.max_pid
    · exact (hnone c (Nat.lt_succ_of_le hle)).1
    · rw [hs.asleep.fresh c (not_le.mp hle)] at hc
      cases hc
  have hthread : ∀ t, (s.desc t).thread_leader ≠ some s.current := by
    intro t
    by_cases hle : t ≤ s.max_pid
    · exact (hnone t (Nat.lt_succ_of_le hle)).2
    · rw [hs.asleep.linked t (not_le.mp hle)]
      simp
  have htidy : Tidy s (.exit status) := by
    constructor
    · intro _ _ t ht
      exact absurd ht (hthread t)
    · intro _ _ c hc hp
      exact absurd hp (hchild c hc)
    · intro _ _ c _ hc _ hp _
      exact absurd hp (hchild c hc)
    · intro _ _ _ c hc
      exact hchild c hc
    · rintro (hcall | ⟨⟨_, hcall⟩, -⟩)
      · cases hcall
      · cases hcall
    · rintro _ (hcall | ⟨⟨_, hcall⟩, -⟩)
      · cases hcall
      · cases hcall
  refine ⟨⟨htidy, fun _ _ t _ ht => absurd ht (hthread t), fun _ _ q hq => ⟨?_, hthread q⟩⟩,
    fun hd => hparent hd.2⟩
  split at hnext
  · rename_i q' hq'
    obtain ⟨m, hm⟩ := hq
    rw [nextProcess_unique hm hq']
    exact of_decide_eq_true hnext
  · cases hnext

theorem reapable_still (he : ∀ status, e ≠ .exit status) (h : reapable n s e = true) : Fair s e := by
  have hjoin : ∀ thread_id, ¬ Joins s e thread_id := by
    rintro thread_id (rfl | ⟨⟨mallocs, rfl⟩, hc⟩)
    · cases h
    · unfold reapable at h
      rw [hc] at h
      cases h
  have hwait : Waits s e → ∀ m pos z, s.tree.next (.children s.current) = some pos →
      findZombie s (.children s.current) m pos = some (some z) →
      s.tree.next (.children z) = some (.children z) := by
    intro hcall m pos z hpos hfound
    have hcheck : cleanWait n s = true := by
      rcases hcall with rfl | ⟨⟨mallocs, rfl⟩, hc⟩
      · exact h
      · unfold reapable at h
        rw [hc] at h
        exact h
    unfold cleanWait at hcheck
    rw [hpos, Option.bind_some] at hcheck
    split at hcheck
    · rename_i hnone
      cases findZombie_unique hfound hnone
    · rename_i z' hz'
      cases findZombie_unique hfound hz'
      exact of_decide_eq_true hcheck
    · cases hcheck
  refine ⟨⟨?_, ?_, ?_, ?_, hwait, fun thread_id hc => absurd hc (hjoin thread_id)⟩, ?_, ?_⟩
  all_goals
    intro status hst
    exact absurd hst (he status)

theorem reapable_fair (hs : Sane s) (h : reapable n s e = true) :
    Fair s e ∧ ∀ status, e = .exit status → ¬ Disowned s := by
  by_cases hexit : ∃ status, e = .exit status
  · obtain ⟨status, rfl⟩ := hexit
    obtain ⟨hf, hd⟩ := reapable_exit hs h
    exact ⟨hf, fun _ _ => hd⟩
  · have he : ∀ status, e ≠ .exit status := fun status hst => hexit ⟨status, hst⟩
    exact ⟨reapable_still he h, fun status hst => absurd hst (he status)⟩

/-- A run of steps that `reapable` lets pass. -/
def execReapable (n : Nat) : Sys → List Event → Option Sys
  | s, [] => some s
  | s, e :: es => if reapable n s e then (exec n s e).bind fun s => execReapable n s es else none

theorem execReapable_run : ∀ {es : List Event} {s s' : Sys}, Sane s → execReapable n s es = some s' →
    Run Reaped s es s'
  | [], s, s', _, h => by
    cases h
    exact .nil
  | e :: es, s, s', hs, h => by
    unfold execReapable at h
    split at h
    · rename_i hcheck
      obtain ⟨t, ht, h⟩ := Option.bind_eq_some_iff.mp h
      obtain ⟨hf, hd⟩ := reapable_fair hs hcheck
      have hstep := exec_step ht
      exact .cons ⟨hstep, hf, hd⟩ (execReapable_run (hs.step hf hstep) h)
    · cases h

/-- Process 2 waits for its child, which exits with status 7. -/
def grandchild : List Event :=
  [.fork true, .clock, .resume [], .fork true, .wait, .resume [], .exit 7, .resume [], .clock, .resume []]

/-- Such a run, at the end of which the status has been returned. -/
theorem grandchild_paid : ∃ s, Run Reaped bootSys grandchild s ∧ Paid s 3 2 7 := by
  have hrun : ((execReapable 8 bootSys grandchild).map fun s => s.reaped) = some [(3, 2, 7)] := by
    decide +kernel
  obtain ⟨s, hs, heq⟩ := Option.map_eq_some_iff.mp hrun
  refine ⟨s, execReapable_run sane_boot hs, ?_⟩
  unfold Paid
  rw [heq]
  rfl

end Yalnix.System
