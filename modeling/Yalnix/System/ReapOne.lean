import Yalnix.System.Reaping
import Yalnix.System.Resting

/-!
# Releasing a process that had children

* `Departs` — an exit that goes wrong at most in what it does to the list of children.
* `Lists.isolates`, `Departs.resting` — after it the list of the process is isolated.
* `ReapedAlone` — a release removes the process from its lists, and leaves the others where they are.
* `reaped_alone_iff` — the release that `waitForPID` asks for does so exactly if the process had no
  children when it exited; otherwise it does not come to an end.
-/

set_option autoImplicit false

namespace Yalnix.System

open Ring (Heap IsRing Linked Rings)
open Transition (Run)

variable {s s' s₁ s₂ t u u' : Sys} {n m : Nat} {p q c z P G : PID} {l : List PID} {status : Int}
  {e : Event} {kids threads : PID → List PID} {pos : TreeNode}

/-! ## What an exit leaves of the list of children -/

/-- The exit goes wrong at most in what it does to the list of children, and no process that has
exited before is left that had children. -/
structure Departs (s : Sys) : Prop where
  /-- No thread has been joined. -/
  joined : ∀ t, (s.desc t).thread_leader = some s.current → (s.desc t).allocated = true
  /-- No thread sleeps. -/
  threads : ∀ t, (s.desc t).allocated = true → (s.desc t).thread_leader = some s.current →
    (s.desc t).state ≠ .WAITING
  /-- No child has exited. -/
  zombies : ∀ c, (s.desc c).allocated = true → (s.desc c).parent = some s.current →
    (s.desc c).state ≠ .ZOMBIE
  /-- The process that runs next is neither the one that exits nor a thread of it. -/
  next : ∀ q, Schedules s q → q ≠ s.current ∧ (s.desc q).thread_leader ≠ some s.current
  clean : ∀ z, (s.desc z).allocated = true → (s.desc z).state = .ZOMBIE →
    (s.desc z).thread_leader = none → s.tree.next (.children z) = some (.children z)

theorem Departs.headed (h : Departs s) (hq : (s.desc q).allocated = true) : Headed s q :=
  ⟨hq, h.clean q hq⟩

/-- The process is allocated. -/
def Allocated (s : Sys) (q : PID) : Prop := (s.desc q).allocated = true

/-- All nodes near by are on a list. -/
theorem Lists.near_ring (h : Lists s l kids threads) (hd : Departs s) {a : TreeNode}
    (ha : Near (· = P) (Allocated s) a) : ∃ b, TreeHead s b ∧ a ∈ b :: brood kids b := by
  cases a with
  | children q => exact ⟨_, .children (hd.headed ha.1), List.mem_cons_self⟩
  | siblings q =>
    obtain ⟨hal, hq1⟩ := ha
    cases hl : (s.desc q).thread_leader with
    | some p =>
      refine ⟨_, .siblings hal ?_, List.mem_cons_self⟩
      rw [hl]
      rfl
    | none =>
      obtain ⟨p, hp⟩ := h.parent q hal hl hq1
      refine ⟨_, .children (hd.headed (h.alive p q hp).1), List.mem_cons_of_mem _ ?_⟩
      rw [brood_children]
      exact List.mem_map_of_mem hp

/-- All nodes on lists are near by, but for the head in question. -/
theorem Lists.ring_near (h : Lists s l kids threads) {a b : TreeNode} (hb : TreeHead s b)
    (ha : a ∈ b :: brood kids b) : a = .children P ∨ Near (· = P) (Allocated s) a := by
  rcases mem_brood ha with rfl | ⟨p, c, rfl, rfl, hc⟩
  · cases hb with
    | @children p headed =>
      rcases eq_or_ne p P with rfl | hp
      · exact .inl rfl
      · exact .inr ⟨headed.allocated, hp⟩
    | @siblings t allocated thread =>
      refine .inr ⟨allocated, ?_⟩
      rintro rfl
      rw [h.root.2.2] at thread
      cases thread
  · obtain ⟨hal, hparent, -⟩ := h.child p c hc
    refine .inr ⟨hal, ?_⟩
    rintro rfl
    rw [h.root.2.1] at hparent
    cases hparent

/-- Where a link leads, and from where one leads to the head in question. -/
theorem Lists.next_near (h : Lists s l kids threads) (hd : Departs s) {a b : TreeNode}
    (ha : Near (· = P) (Allocated s) a) (hab : s.tree.next a = some b) :
    Near (· = P) (Allocated s) b ∨ b = .children P ∧ s.tree.prev (.children P) = some a := by
  obtain ⟨x, hx, hax⟩ := h.near_ring hd ha
  have hring := h.tree.ring x hx
  rcases h.ring_near (P := P) hx (hring.next_mem hax hab) with rfl | hb
  · exact .inr ⟨rfl, hring.next_prev hax hab⟩
  · exact .inl hb

theorem Lists.prev_near (h : Lists s l kids threads) (hd : Departs s) {a b : TreeNode}
    (ha : Near (· = P) (Allocated s) a) (hab : s.tree.prev a = some b) :
    Near (· = P) (Allocated s) b ∨ b = .children P ∧ s.tree.next (.children P) = some a := by
  obtain ⟨x, hx, hax⟩ := h.near_ring hd ha
  have hring := h.tree.ring x hx
  obtain ⟨hmem, hnext⟩ := hring.prev_linked hax hab
  rcases h.ring_near (P := P) hx hmem with rfl | hb
  · exact .inr ⟨rfl, hnext⟩
  · exact .inl hb

theorem Lists.enlisted (h : Lists s l kids threads) : Confined (Enlisted (Allocated s)) s.procs := by
  have hmem : ∀ a, a ∈ ProcNode.process_head :: l.map .process_list ↔ Enlisted (Allocated s) a := by
    intro a
    cases a with
    | process_head => exact iff_of_true List.mem_cons_self True.intro
    | process_list q =>
      have hq : Enlisted (Allocated s) (.process_list q) ↔ (s.desc q).allocated = true := Iff.rfl
      rw [hq, ← h.members q]
      simp
  exact ⟨fun a b ha hab => (hmem b).mp (h.procs.next_mem ((hmem a).mpr ha) hab),
    fun a b ha hab => (hmem b).mp (h.procs.prev_mem ((hmem a).mpr ha) hab)⟩

/-- The process has a parent: it is on the list of that process. -/
theorem Lists.of_parent (h : Lists s l kids threads) (hal : (s.desc q).allocated = true)
    (hparent : (s.desc q).parent = some G) : q ∈ kids G ∧ (s.desc q).thread_leader = none ∧ q ≠ 1 := by
  have hleader : (s.desc q).thread_leader = none := by
    cases hl : (s.desc q).thread_leader with
    | none => rfl
    | some x =>
      have hsome : (s.desc q).thread_leader.isSome := by
        rw [hl]
        rfl
      have hp := (h.single q hal hsome).2
      rw [hparent] at hp
      cases hp
  have hq1 : q ≠ 1 := by
    rintro rfl
    rw [h.root.2.1] at hparent
    cases hparent
  obtain ⟨p, hp⟩ := h.parent q hal hleader hq1
  have hpar := (h.child p q hp).2.1
  rw [hparent, Option.some.injEq] at hpar
  rw [hpar]
  exact ⟨hp, hleader, hq1⟩

/-- A process without children: nothing leads to its list. -/
theorem Lists.childless_confined (h : Lists s l kids threads) (hd : Departs s)
    (hring : IsRing s.tree (.children P) []) : Confined (Near (· = P) (Allocated s)) s.tree := by
  have hne : ∀ {a}, Near (· = P) (Allocated s) a → a ≠ .children P := by
    rintro a ha rfl
    exact not_near_children rfl ha
  refine ⟨fun a b ha hab => ?_, fun a b ha hab => ?_⟩
  · rcases h.next_near hd ha hab with hb | ⟨rfl, hprev⟩
    · exact hb
    · rw [(Ring.isRing_nil.mp hring).2, Option.some.injEq] at hprev
      exact absurd hprev.symm (hne ha)
  · rcases h.prev_near hd ha hab with hb | ⟨rfl, hnext⟩
    · exact hb
    · rw [(Ring.isRing_nil.mp hring).1, Option.some.injEq] at hnext
      exact absurd hnext.symm (hne ha)

/-- The children of `P` go to `G`, and nothing leads to the list of `P`; the list still leads to the
first of them. -/
theorem Lists.splice_confined (h : Lists s l kids threads) (hd : Departs s) (hP : Headed s P)
    (hG : Headed s G) (hne : G ≠ P) (hc : c ∈ kids P) {tree : Heap TreeNode}
    (hpos : s.tree.next (.children P) = some pos)
    (hs : spliceLinkedLists (.children P) (.children G) s.tree = some tree) :
    Confined (Near (· = P) (Allocated s)) tree ∧ tree.next (.children P) = some pos ∧
      Near (· = P) (Allocated s) pos := by
  have hring := h.ring hP
  have hGnear : Near (· = P) (Allocated s) (.children G) := ⟨hG.allocated, hne⟩
  have hnear : ∀ x ∈ kids P, Near (· = P) (Allocated s) (.siblings x) := by
    intro x hx
    have hb := h.ring_near (P := P) (.children hP) (List.mem_cons_of_mem _ (List.mem_map_of_mem hx))
    exact hb.resolve_left (by simp)
  obtain ⟨c₁, cs, hfirst⟩ : ∃ c₁ cs, kids P = c₁ :: cs := List.exists_cons_of_ne_nil (List.ne_nil_of_mem hc)
  obtain ⟨pre, ck, hlast⟩ : ∃ pre ck, kids P = pre ++ [ck] := by
    rcases List.eq_nil_or_concat' (kids P) with hnil | ⟨pre, ck, hck⟩
    · rw [hfirst] at hnil
      cases hnil
    · exact ⟨pre, ck, hck⟩
  have hnext : s.tree.next (.children P) = some (.siblings c₁) := by
    have hr := hring
    rw [hfirst] at hr
    exact hr.next_head
  have hprev : s.tree.prev (.children P) = some (.siblings ck) := by
    have hr := hring
    rw [hlast, List.map_append] at hr
    exact hr.prev_head
  have hcnear := hnear c₁ (by rw [hfirst]; exact List.mem_cons_self)
  have hcknear := hnear ck (by rw [hlast]; simp)
  -- the last child of the parent, or its head
  obtain ⟨lk, hlk⟩ := Option.isSome_iff_exists.mp ((h.ring hG).isSome List.mem_cons_self)
  have hend : s.tree.prev (.children G) = some lk.prev := by simp [Heap.prev, hlk]
  have hendnear : Near (· = P) (Allocated s) lk.prev := by
    refine (h.prev_near hd hGnear hend).resolve_right ?_
    rintro ⟨-, hn⟩
    rw [hnext] at hn
    cases hn
  have hendne : lk.prev ≠ .children P := by
    intro he
    rw [he] at hendnear
    exact not_near_children rfl hendnear
  obtain ⟨hn, hp, -⟩ := spliceLinkedLists_some hnext hprev hend (by simp) (by simp) hendne (by simp) hs
  rw [hnext, Option.some.injEq] at hpos
  subst hpos
  refine ⟨⟨fun a b ha hab => ?_, fun a b ha hab => ?_⟩, ?_, hcnear⟩
  · rw [hn] at hab
    rcases eq_or_ne a lk.prev with rfl | hal
    · rw [Function.update_self, Option.some.injEq] at hab
      rw [← hab]
      exact hcknear
    · rw [Function.update_of_ne hal] at hab
      rcases eq_or_ne a (.siblings ck) with rfl | hack
      · rw [Function.update_self, Option.some.injEq] at hab
        rw [← hab]
        exact hGnear
      · rw [Function.update_of_ne hack] at hab
        refine (h.next_near hd ha hab).resolve_right ?_
        rintro ⟨-, hback⟩
        rw [hprev, Option.some.injEq] at hback
        exact hack hback.symm
  · rw [hp] at hab
    rcases eq_or_ne a (.children G) with rfl | haG
    · rw [Function.update_self, Option.some.injEq] at hab
      rw [← hab]
      exact hcnear
    · rw [Function.update_of_ne haG] at hab
      rcases eq_or_ne a (.siblings c₁) with rfl | hac
      · rw [Function.update_self, Option.some.injEq] at hab
        rw [← hab]
        exact hendnear
      · rw [Function.update_of_ne hac] at hab
        refine (h.prev_near hd ha hab).resolve_right ?_
        rintro ⟨-, hforth⟩
        rw [hnext, Option.some.injEq] at hforth
        exact hac hforth.symm
  · rw [hn, Function.update_of_ne hendne.symm, Function.update_of_ne (by simp)]
    exact hnext

/-- Whether there is anything to give. -/
theorem Lists.isEmpty (h : Lists s l kids threads) (hP : Headed s P) :
    listIsEmpty (.children P) s.tree = some (decide (kids P = [])) := by
  have hring := h.ring hP
  unfold listIsEmpty
  cases hk : kids P with
  | nil =>
    rw [hk] at hring
    simp [(Ring.isRing_nil.mp hring).1]
  | cons c cs =>
    rw [hk] at hring
    simp [hring.next_head]

/-- **Once its children have been given away nothing leads to the list of the process.** -/
theorem Lists.isolates (h : Lists s l kids threads) (hw : Awake s) (hd : Departs s)
    (hidle : IdleFirst s.procs) (hparent : (s.desc s.current).parent = some G)
    (hpos : s.tree.next (.children s.current) = some pos)
    (hg : giveChildren s.current (s.adopt (kids s.current) (some G)) = some s₂) :
    Isolated s₂ (· = s.current) (Allocated s) fun _ => pos := by
  have hheaded := headed_of_alive hw.allocated (by rw [hw.running]; decide)
  obtain ⟨hP, hleader, hP1⟩ := h.of_parent hw.allocated hparent
  have hnot : s.current ∉ kids s.current := fun hm => absurd (h.order _ _ hm) (lt_irrefl _)
  obtain ⟨hGal, hGs⟩ := h.alive G _ hP
  have hneG : G ≠ s.current := ne_of_lt (h.order G _ hP)
  have hself : (s.adopt (kids s.current) (some G)).desc s.current = s.desc s.current :=
    adopt_desc_of_not_mem hnot s (some G)
  obtain ⟨tree, rfl, htree, hhead, haim⟩ : ∃ tree,
      s₂ = { s.adopt (kids s.current) (some G) with tree := tree } ∧
      Confined (Near (· = s.current) (Allocated s)) tree ∧
      tree.next (.children s.current) = some pos ∧
      (IsRing tree (.children s.current) [] ∨ Near (· = s.current) (Allocated s) pos) := by
    unfold giveChildren at hg
    have hempty : listIsEmpty (.children s.current) (s.adopt (kids s.current) (some G)).tree =
        some (decide (kids s.current = [])) := h.isEmpty hheaded
    rw [hempty, hself, hparent] at hg
    simp only [Option.bind_eq_bind, Option.bind_some, decide_eq_true_eq] at hg
    split at hg
    · rename_i hk
      have hring := h.ring hheaded
      rw [hk] at hring
      exact ⟨s.tree, (Option.some.inj hg).symm, h.childless_confined hd hring, hpos, .inl hring⟩
    · rename_i hk
      obtain ⟨c, hc⟩ := List.exists_mem_of_ne_nil _ hk
      obtain ⟨tree, hs, hs₂⟩ := Option.bind_eq_some_iff.mp hg
      obtain ⟨htree, hhead, hnear⟩ :=
        h.splice_confined hd hheaded (headed_of_alive hGal hGs) hneG hc hpos hs
      exact ⟨tree, (Option.some.inj hs₂).symm, htree, hhead, .inr hnear⟩
  have hdesc : ∀ q, ((s.adopt (kids s.current) (some G)).desc q).thread_leader =
      (s.desc q).thread_leader := by
    intro q
    by_cases hq : q ∈ kids s.current
    · rw [adopt_desc_of_mem hq]
    · rw [adopt_desc_of_not_mem hq]
  have h1 : 1 ∉ kids s.current := by
    intro hm
    have := (h.child _ 1 hm).2.1
    rw [h.root.2.1] at this
    cases this
  refine ⟨?_, ⟨h.root.1, ?_, (hdesc 1).trans h.root.2.2⟩, ?_, ?_, htree, h.enlisted, hidle,
    fun q g hq hqg => ?_⟩
  · rintro _ rfl
    exact ⟨hw.allocated, hP1, (hdesc _).trans hleader⟩
  · exact (congrArg Descriptor.parent (adopt_desc_of_not_mem h1 s (some G))).trans h.root.2.1
  · rintro _ rfl
    exact hhead
  · rintro _ rfl
    exact haim
  · change ((s.adopt (kids s.current) (some G)).desc q).parent = some g at hqg
    by_cases hm : q ∈ kids s.current
    · rw [adopt_desc_of_mem hm] at hqg
      cases hqg
      exact ⟨hGal, hneG⟩
    · rw [adopt_desc_of_not_mem hm] at hqg
      have hqkids := (h.of_parent hq hqg).1
      refine ⟨(h.alive g q hqkids).1, ?_⟩
      rintro rfl
      exact hm hqkids

/-- **After such an exit the process is a zombie whose list of children is isolated.** -/
theorem Departs.resting (hd : Departs s) (h : Lists s l kids threads) (ha : Asleep s) (hw : Awake s)
    (ho : Objects s) (hidle : IdleFirst s.procs) (hparent : (s.desc s.current).parent = some G)
    (hpos : s.tree.next (.children s.current) = some pos) (hstep : Step s (.exit status) s') :
    Resting s' (· = s.current) (Allocated s) fun _ => pos := by
  obtain ⟨-, n, hend⟩ := hstep
  have hrun : handle n s (.exit status) = killCurrentProcess n status s := rfl
  rw [hrun] at hend
  unfold killCurrentProcess at hend
  cases hk : killProcess n s.current status s with
  | none =>
    rw [hk] at hend
    cases hend
  | some x =>
    obtain ⟨r, w⟩ := x
    rw [hk] at hend
    have halive : (s.desc s.current).state ≠ .ZOMBIE ∧ (s.desc s.current).state ≠ .DEAD := by
      rw [hw.running]
      decide
    have hwhole := killProcess_any hk
    obtain ⟨m, q, pos', s₁, s₂, first', s₃, rfl, rfl, hq, hpos', h₁, h₂, hfirst', h₃, hws⟩ :=
      killProcess_some hk halive rfl
    dsimp only at hend
    cases hkk : killKernelContext (m + 1) s.current q w with
    | none =>
      rw [hkk] at hend
      cases hend
    | some w' =>
      rw [hkk] at hend
      cases hend
      -- the children and the threads
      have hheaded := headed_of_alive hw.allocated halive.1
      have hnot : s.current ∉ kids s.current := fun hm => absurd (h.order _ _ hm) (lt_irrefl _)
      have hs₁ := walked (h.ring hheaded) hnot hparent (fun c hc => (h.child _ c hc).1)
        (fun c hc => hd.zombies c (h.child _ c hc).1 (h.child _ c hc).2.1) hpos' h₁
      subst hs₁
      have hi₂ := h.isolates hw hd hidle hparent hpos h₂
      have hculled₂ : Culled (fun _ => True) s s₂ :=
        ((forEachChild_released (fun c u u' hc => killChild_released hc) h₁).trans
          (giveChildren_released (fun _ => True) h₂)).any
      have hi₃ := killThreads_isolated (fun t u u' r => killProcess_isolated) hi₂
        (hculled₂.groupsOk ha.groups) (fun t ht => hd.joined t ((hculled₂.desc t).leader.symm.trans ht))
        hfirst' h₃
      have hwcurrent : w.current = s.current := hwhole.current
      have hzombie : (w.desc s.current).state = .ZOMBIE := by
        have hcurrent : s₃.current = s.current := by
          rw [hws] at hwcurrent
          exact hwcurrent
        rw [hws, ← hcurrent]
        exact congrArg Descriptor.state (expire_desc_self s₃ status)
      have hi : Isolated w (· = s.current) (Allocated s) fun _ => pos := by
        rw [hws]
        exact hi₃.expire status
      -- the switch
      obtain ⟨hcurrent, hswitch⟩ := killKernelContext_culled hkk
      have hall := hwhole.trans hswitch
      have hmax : s'.max_pid = s.max_pid := hall.max
      have hqueue : s'.queue = s.queue := hall.queue
      have hobjects := hall.objects ho
      refine ⟨killKernelContext_isolated hi hw.allocated hkk, ?_, ?_, ?_, fun x hx => ?_, fun x hx => ?_,
        ha.grouping.congr hall.groups (fun x => (hall.desc x).leader) hmax.ge,
        hobjects.congr rfl rfl rfl rfl rfl⟩
      · rintro _ rfl
        rcases (hswitch.desc s.current).state with hst | ⟨-, hst⟩
        · exact hst.trans hzombie
        · exact hst
      · intro v node hn hp
        rw [hqueue] at hn
        have hst := (ha.named v node hn).1
        rw [hp, hw.running] at hst
        cases hst
      · rw [hcurrent]
        have hnode : Enlisted (Allocated s) (.process_list s.current) := hw.allocated
        exact ⟨nextProcess_near h.enlisted hnode hq, (hd.next q ⟨m, hq⟩).1⟩
      · rcases (hall.desc x).allocated with hal | ⟨hal, -⟩
        · exact hal.symm.trans hx
        · change (s'.desc x).allocated = true at hx
          rw [hal] at hx
          cases hx
      · rw [hmax]
        by_contra hlt
        have hfree := ha.fresh x (not_le.mp hlt)
        rw [hx] at hfree
        cases hfree

/-! ## A release -/

/-- `waitForPID` releases `P` next. -/
def WaitTakes (s : Sys) (P : PID) : Prop :=
  ∃ m pos, s.tree.next (.children s.current) = some pos ∧
    findZombie s (.children s.current) m pos = some (some P)

/-- The process is gone, once and from all lists, and nothing else has changed. -/
structure ReapedAlone (s s' : Sys) (P : PID) : Prop where
  freed : (s.desc P).allocated = true ∧ (s'.desc P).allocated = false
  unlisted : (∀ l, IsRing s'.procs .process_head l → .process_list P ∉ l) ∧
    (∀ p cs, IsRing s'.tree (.children p) cs → .siblings P ∉ cs) ∧
    ∀ p ts, IsRing s'.groups (.thread_group p) ts → .thread_peers P ∉ ts
  desc : ∀ q, q ≠ P → s'.desc q = s.desc q
  procs : ∀ l : List PID, IsRing s.procs .process_head (l.map .process_list) →
    IsRing s'.procs .process_head ((l.erase P).map .process_list)
  children : ∀ p, ∀ cs : List PID, IsRing s.tree (.children p) (cs.map .siblings) →
    IsRing s'.tree (.children p) ((cs.erase P).map .siblings)
  same : s' = { s with desc := s'.desc, procs := s'.procs, tree := s'.tree }

/-- All that is on a list of threads belongs to the group. -/
theorem GroupsOk.member (h : GroupsOk s) {x : GroupNode} {ts : List GroupNode}
    (hr : IsRing s.groups (.thread_group p) ts) (hx : x ∈ ts) : groupOf s x = some p := by
  have hchain : ∀ (l : List GroupNode) (a : GroupNode), groupOf s a = some p →
      (a :: l).IsChain (fun a b => s.groups.next a = some b) → ∀ x ∈ l, groupOf s x = some p := by
    intro l
    induction l with
    | nil =>
      intro a _ _ x hx
      cases hx
    | cons b l ih =>
      intro a ha hl x hx
      obtain ⟨hab, hl⟩ := List.isChain_cons_cons.mp hl
      have hb : groupOf s b = some p := by
        rcases h.next a b hab with he | ⟨he, -⟩
        · rw [← he]
          exact ha
        · rw [← he]
          exact ha
      rcases List.mem_cons.mp hx with rfl | hx
      · exact hb
      · exact ih b hb hl x hx
  refine hchain (ts ++ [.thread_group p]) (.thread_group p) rfl (hr.2.imp fun _ _ hl => hl.1) x ?_
  exact List.mem_append_left _ hx

/-- The lists without the node that is removed. -/
theorem ring_erase {ν : Type} [DecidableEq ν] {h h' : Heap ν} {hd a : ν} {node : PID → ν}
    (hnode : Function.Injective node) {u v cs : List PID}
    (hr : IsRing h hd ((u ++ z :: v).map node)) (hi : removeNode (node z) h = some h')
    (ha : a ≠ node z) (ho : IsRing h a (cs.map node)) : IsRing h' a ((cs.erase z).map node) := by
  have hmem : node z ∈ hd :: (u ++ z :: v).map node := by simp
  by_cases hz : z ∈ cs
  · obtain ⟨u', v', rfl⟩ := List.append_of_mem hz
    rw [erase_middle (List.Nodup.of_map _ ho.nodup), List.map_append]
    rw [List.map_append, List.map_cons] at ho
    exact IsRing.removeNode ho hi
  · rw [List.erase_of_not_mem hz]
    refine IsRing.removeNode_other hr hmem ho (fun hx => ?_) hi
    rcases List.mem_cons.mp hx with hx | hx
    · exact ha hx.symm
    · obtain ⟨y, hy, he⟩ := List.mem_map.mp hx
      rw [hnode he] at hy
      exact hz hy

/-- **A zombie whose list of children is empty is released, and nothing else changes.** -/
theorem Lists.reaped_alone (h : Lists s l kids threads) (hg : GroupsOk s) (hidle : IdleFirst s.procs)
    (hP : Headed s P) (hp : P ∈ kids p) (hz : (s.desc P).state = .ZOMBIE) :
    ∃ n s', releaseProcess n P s = some s' ∧ ReapedAlone s s' P := by
  have hring : IsRing s.tree (.children P) [] := by
    have hr := h.ring hP
    rw [h.kids_zombie hz] at hr
    exact hr
  obtain ⟨hpal, hps⟩ := h.alive p P hp
  have hleader := (h.child p P hp).2.2
  obtain ⟨u, v, huv⟩ := List.append_of_mem hp
  obtain ⟨u', v', huv'⟩ := List.append_of_mem ((h.members P).mpr hP.allocated)
  have hparent := h.ring (headed_of_alive hpal hps)
  rw [huv] at hparent
  have hprocs := h.procs
  rw [huv'] at hprocs
  obtain ⟨tree₀, htree₀⟩ := IsRing.removeNode_isSome hring List.mem_cons_self
  have hsame := removeNode_self hring htree₀
  subst hsame
  obtain ⟨tree, htree⟩ := IsRing.removeNode_isSome hparent (x := .siblings P) (by simp)
  obtain ⟨procs, hprocs'⟩ := IsRing.removeNode_isSome hprocs (x := .process_list P) (by simp)
  refine ⟨2, ({ s with tree := tree, procs := procs } : Sys).setDesc P
    fun d => { d with allocated := false }, ?_, ⟨hP.allocated, ?_⟩, ⟨fun l' hl' => ?_,
    fun q cs hcs => ?_, fun q ts hts => ?_⟩, fun q hq => ?_, fun l' hl' => ?_, fun q cs hcs => ?_, rfl⟩
  · have hhead := (Ring.isRing_nil.mp hring).1
    unfold releaseProcess
    simp only [Option.bind_eq_bind, hhead, Option.bind_some]
    unfold forEachChild
    rw [if_pos rfl, Option.bind_some]
    unfold freeDescriptor
    rw [hidle.getIdleProcess]
    simp only [Option.bind_eq_bind, Option.bind_some, spliceLinkedLists_empty hhead, htree₀, htree,
      hprocs']
  · unfold Sys.setDesc
    simp only [Function.update_self]
  · rw [List.map_append, List.map_cons] at hprocs
    exact fun hm => IsRing.removeNode_gone hprocs hprocs' hl' (List.mem_cons_of_mem _ hm)
  · rw [List.map_append, List.map_cons] at hparent
    exact fun hm => IsRing.removeNode_gone hparent htree hcs (List.mem_cons_of_mem _ hm)
  · intro hm
    have hgroup := hg.member hts hm
    change (s.desc P).thread_leader = some q at hgroup
    rw [hleader] at hgroup
    cases hgroup
  · exact Function.update_of_ne hq _ _
  · exact ring_erase (fun _ _ he => ProcNode.process_list.inj he) hprocs hprocs' (by simp) hl'
  · exact ring_erase (fun _ _ he => TreeNode.siblings.inj he) hparent htree (by simp) hcs

/-! ## Runs -/

theorem Sane.run {es : List Event} (hrun : Run FairStep s es t) (h : Sane s) : Sane t :=
  hrun.invariant (fun _ _ _ hs hstep => hs.step hstep.1 hstep.2) h

theorem idle_boot : IdleFirst bootSys.procs := by
  have hring : IsRing bootSys.procs .process_head [.process_list 1] := lists_boot.procs
  refine ⟨hring.next_head, fun x hx he => ?_⟩
  have hnone : ∀ q, q ≠ 1 → bootSys.procs (.process_list q) = none := by
    intro q hq
    have hlinks : bootSys.procs = Function.update (Function.update (Function.update
        (linkedListNodeInit (ProcNode.process_list 1) (linkedListNodeInit .process_head fun _ => none))
        .process_head (some ⟨.process_head, .process_list 1⟩)) (.process_list 1)
        (some ⟨.process_head, .process_head⟩)) .process_head
        (some ⟨.process_list 1, .process_list 1⟩) := by
      funext a
      cases a with
      | process_head => decide
      | process_list p =>
        rcases eq_or_ne p 1 with rfl | hp
        · decide
        · simp [bootSys, addLastNode, insertNode, Heap.next, Heap.prev, Heap.setNext, Heap.setPrev,
            linkedListNodeInit, emptySys, Sys.initNodes, Sys.setDesc, hp]
    rw [hlinks]
    simp [linkedListNodeInit, hq]
  cases x with
  | process_head =>
    have hprev : bootSys.procs.prev .process_head = some (.process_list 1) := by decide
    rw [hprev] at he
    cases he
  | process_list q =>
    have hq : q ≠ 1 := by simpa using hx
    unfold Heap.prev at he
    rw [hnone q hq] at he
    cases he

/-- Nobody has exited. -/
theorem resting_boot : Resting bootSys (fun _ => False) (Allocated bootSys) fun _ => .children 1 := by
  have hone : ∀ q, (bootSys.desc q).allocated = true → q = 1 := by
    intro q hq
    have hm := (lists_boot.members q).mpr hq
    exact List.mem_singleton.mp hm
  have hempty : Confined (Near (fun _ => False) (Allocated bootSys)) fun _ => none :=
    ⟨fun _ _ _ hb => (by cases hb), fun _ _ _ hb => (by cases hb)⟩
  refine ⟨⟨fun _ hP => hP.elim, ⟨rfl, rfl, rfl⟩, fun _ hP => hP.elim, fun _ hP => hP.elim,
    (hempty.linkedListNodeInit (.children 1)).linkedListNodeInit (.siblings 1), lists_boot.enlisted,
    idle_boot, fun q g hq hg => ?_⟩, fun _ hP => hP.elim, fun _ _ _ hP => hP, ⟨rfl, id⟩, fun _ hq => hq,
    fun q hq => ?_, asleep_boot.grouping, objects_boot⟩
  · rw [hone q hq] at hg
    cases hg
  · rw [hone q hq]
    decide

/-- An exit of a process without children is fair. -/
theorem Departs.fair (hd : Departs s) (h : Lists s l kids threads) (hk : kids s.current = []) :
    Fair s (.exit status) := by
  have hchild : ∀ c, (s.desc c).allocated = true → (s.desc c).parent ≠ some s.current := by
    intro c hc hp
    have hm := (h.of_parent hc hp).1
    rw [hk] at hm
    cases hm
  refine ⟨⟨fun _ _ => hd.joined, fun _ _ => hd.zombies, fun _ _ c _ hc _ hp _ => absurd hp (hchild c hc),
    fun _ _ _ => hchild, ?_, ?_⟩, fun _ _ => hd.threads, fun _ _ => hd.next⟩
  · rintro (hcall | ⟨⟨_, hcall⟩, -⟩)
    · cases hcall
    · cases hcall
  · rintro _ (hcall | ⟨⟨_, hcall⟩, -⟩)
    · cases hcall
    · cases hcall

/-- A process exits, and after a while its parent finds it. -/
structure Found (u s : Sys) : Prop where
  departs : Departs u
  parent : ∃ G, (u.desc u.current).parent = some G
  exit : ∃ status u', Step u (.exit status) u' ∧ ∃ es, Run FairStep u' es s
  takes : WaitTakes s u.current

/-- **A process that had children when it exited is never released.** -/
theorem Found.stuck (hf : Found u s) (hu : Sane u) (hidle : IdleFirst u.procs)
    (h : Lists u l kids threads) (hk : kids u.current ≠ []) (n : Nat) :
    releaseProcess n u.current s = none := by
  obtain ⟨G, hparent⟩ := hf.parent
  obtain ⟨status, u', hexit, es, hafter⟩ := hf.exit
  have hheaded := headed_of_alive hu.awake.allocated (by rw [hu.awake.running]; decide)
  have hring := h.ring hheaded
  obtain ⟨c, cs, hc⟩ := List.exists_cons_of_ne_nil hk
  rw [hc] at hring
  have hrest := hf.departs.resting h hu.asleep hu.awake hu.objects hidle hparent hring.next_head hexit
  obtain ⟨A, hA, hrest'⟩ := hrest.run hafter
  have hm : c ∈ kids u.current := by
    rw [hc]
    exact List.mem_cons_self
  have hchild := h.child _ c hm
  have hc1 : c ≠ 1 := (h.of_parent hchild.1 hchild.2.1).2.2
  have hnear : Near (· = u.current) A (.siblings c) := ⟨hA c hchild.1, hc1⟩
  exact hrest'.isolated.never_released rfl hnear n

/-- **A process that had none is released, and nothing else changes.** -/
theorem Found.alone (hf : Found u s) (hu : Sane u) (hidle : IdleFirst u.procs)
    (h : Lists u l kids threads) (hk : kids u.current = []) :
    ∃ n s', releaseProcess n u.current s = some s' ∧ ReapedAlone s s' u.current := by
  obtain ⟨G, hparent⟩ := hf.parent
  obtain ⟨status, u', hexit, es, hafter⟩ := hf.exit
  have hheaded := headed_of_alive hu.awake.allocated (by rw [hu.awake.running]; decide)
  have hring := h.ring hheaded
  rw [hk] at hring
  have hrest := hf.departs.resting h hu.asleep hu.awake hu.objects hidle hparent
    (Ring.isRing_nil.mp hring).1 hexit
  obtain ⟨A, -, hrest'⟩ := hrest.run hafter
  have hs := Sane.run hafter (hu.step (hf.departs.fair h hk) hexit)
  obtain ⟨l', kids', threads', h'⟩ := hs.ordered
  obtain ⟨m, pos, hfirst, hfound⟩ := hf.takes
  have hP := h'.found hs.awake hfirst hfound
  have hhead : s.tree.next (.children u.current) = some (.children u.current) :=
    hrest'.isolated.head _ rfl
  exact h'.reaped_alone hs.asleep.groups hrest'.isolated.idle
    ⟨(h'.child _ _ hP).1, fun _ _ => hhead⟩ hP (hrest'.zombie _ rfl)

/-- **When a parent waits for a process that has exited, it releases this process and leaves all else
as it is, exactly if the process had no children when it exited.** -/
theorem reaped_alone_iff {es : List Event} (before : Run FairStep bootSys es u) (hf : Found u s) :
    (∃ n s', releaseProcess n u.current s = some s' ∧ ReapedAlone s s' u.current) ↔
      listIsEmpty (.children u.current) u.tree = some true := by
  have hu := Sane.run before sane_boot
  obtain ⟨A, -, hrest⟩ := resting_boot.run before
  obtain ⟨l, kids, threads, h⟩ := hu.ordered
  have hheaded := headed_of_alive hu.awake.allocated (by rw [hu.awake.running]; decide)
  rw [h.isEmpty hheaded, Option.some.injEq, decide_eq_true_eq]
  constructor
  · rintro ⟨n, s', hrun, -⟩
    by_contra hk
    rw [hf.stuck hu hrest.isolated.idle h hk n] at hrun
    cases hrun
  · exact hf.alone hu hrest.isolated.idle h

/-! ## A run with such an exit -/

/-- Enough for `Departs`: no threads, no zombies, and another process to run. -/
def departable (n : Nat) (s : Sys) : Bool :=
  decide (∀ c < s.max_pid + 1, (s.desc c).thread_leader ≠ some s.current ∧ (s.desc c).state ≠ .ZOMBIE) &&
    match nextProcess s n (.process_list s.current) with
    | some q => decide (q ≠ s.current)
    | none => false

theorem departable_departs (hs : Sane s) (h : departable n s = true) : Departs s := by
  unfold departable at h
  rw [Bool.and_eq_true, decide_eq_true_eq] at h
  obtain ⟨hnone, hnext⟩ := h
  have hthread : ∀ t, (s.desc t).thread_leader ≠ some s.current := by
    intro t
    by_cases hle : t ≤ s.max_pid
    · exact (hnone t (Nat.lt_succ_of_le hle)).1
    · rw [hs.asleep.linked t (not_le.mp hle)]
      simp
  have hzombie : ∀ c, (s.desc c).allocated = true → (s.desc c).state ≠ .ZOMBIE := by
    intro c hc
    by_cases hle : c ≤ s.max_pid
    · exact (hnone c (Nat.lt_succ_of_le hle)).2
    · rw [hs.asleep.fresh c (not_le.mp hle)] at hc
      cases hc
  refine ⟨fun t ht => absurd ht (hthread t), fun t _ ht => absurd ht (hthread t),
    fun c hc _ => hzombie c hc, fun q hq => ⟨?_, hthread q⟩, fun z hz hst => absurd hst (hzombie z hz)⟩
  split at hnext
  · rename_i q' hq'
    obtain ⟨m, hm⟩ := hq
    rw [nextProcess_unique hm hq']
    exact of_decide_eq_true hnext
  · cases hnext

theorem reaped_fairly {es : List Event} (h : Run Reaped s es t) : Run FairStep s es t :=
  h.mono fun _ _ _ hstep => ⟨hstep.2.1, hstep.1⟩

theorem execReapable_still : ∀ {es : List Event} {s s' : Sys}, (∀ e ∈ es, ∀ status, e ≠ .exit status) →
    execReapable n s es = some s' → Run FairStep s es s'
  | [], s, s', _, h => by
    cases h
    exact .nil
  | e :: es, s, s', he, h => by
    unfold execReapable at h
    split at h
    · rename_i hcheck
      obtain ⟨t, ht, h⟩ := Option.bind_eq_some_iff.mp h
      have hstill := reapable_still (he e List.mem_cons_self) hcheck
      exact .cons ⟨hstill, exec_step ht⟩
        (execReapable_still (fun x hx => he x (List.mem_cons_of_mem _ hx)) h)
    · cases h

/-- Process 3 runs, a child of process 2, which waits; `more` comes before it exits. -/
def child3 (more : List Event) : Sys :=
  (execReapable 8 bootSys ([.fork true, .clock, .resume [], .fork true, .wait, .resume []] ++ more)).getD
    bootSys

/-- Process 3 has exited, and process 2 runs again. -/
def child3Exited (more after : List Event) : Sys :=
  ((exec 8 (child3 more) (.exit 7)).bind fun s => execReapable 8 s after).getD bootSys

/-- What the two runs have to pass. -/
def foundCheck (more after : List Event) : Bool :=
  (execReapable 8 bootSys ([.fork true, .clock, .resume [], .fork true, .wait, .resume []] ++ more)).isSome &&
  departable 8 (child3 more) && decide (((child3 more).desc (child3 more).current).parent = some 2) &&
  ((exec 8 (child3 more) (.exit 7)).bind fun s => execReapable 8 s after).isSome &&
  decide (((child3Exited more after).tree.next (.children (child3Exited more after).current)).bind
    (findZombie (child3Exited more after) (.children (child3Exited more after).current) 8) =
      some (some (child3 more).current))

theorem foundCheck_run (more after : List Event) (h : foundCheck more after = true)
    (hafter : ∀ e ∈ after, ∀ status, e ≠ .exit status) :
    Run FairStep bootSys ([.fork true, .clock, .resume [], .fork true, .wait, .resume []] ++ more)
      (child3 more) ∧ Found (child3 more) (child3Exited more after) := by
  unfold foundCheck at h
  simp only [Bool.and_eq_true, decide_eq_true_eq] at h
  obtain ⟨⟨⟨⟨hsome, hdep⟩, hparent⟩, hexited⟩, htakes⟩ := h
  obtain ⟨u, hu⟩ := Option.isSome_iff_exists.mp hsome
  have hchild : child3 more = u := by
    unfold child3
    rw [hu]
    rfl
  have hrun := reaped_fairly (execReapable_run sane_boot hu)
  obtain ⟨s, hs⟩ := Option.isSome_iff_exists.mp hexited
  have hend : child3Exited more after = s := by
    unfold child3Exited
    rw [hs]
    rfl
  obtain ⟨u', hu', hs⟩ := Option.bind_eq_some_iff.mp hs
  obtain ⟨pos, hpos, hfound⟩ := Option.bind_eq_some_iff.mp htakes
  rw [hend] at hpos hfound ⊢
  refine ⟨hchild ▸ hrun, departable_departs ?_ hdep, ⟨2, hparent⟩,
    ⟨7, u', exec_step hu', after, execReapable_still hafter hs⟩, ⟨8, pos, hpos, hfound⟩⟩
  rw [hchild]
  exact Sane.run hrun sane_boot


/-- Process 3 has a child of its own when it exits. Its parent calls `releaseProcess`, and does not
return from it. -/
theorem parent_never_reaped : ¬ ∀ (es : List Event) (u s : Sys), Run FairStep bootSys es u → Found u s →
    ∃ n s', releaseProcess n u.current s = some s' ∧ ReapedAlone s s' u.current := by
  intro hall
  obtain ⟨before, hfound⟩ := foundCheck_run [.fork true] [.resume [], .clock, .resume [], .clock]
    (by decide +kernel) (by simp)
  obtain ⟨n, s', hrun, -⟩ := hall _ _ _ before hfound
  have hu := Sane.run before sane_boot
  obtain ⟨A, -, hrest⟩ := resting_boot.run before
  obtain ⟨l, kids, threads, h⟩ := hu.ordered
  have hkids : kids (child3 [.fork true]).current ≠ [] := by
    intro hk
    have hheaded := headed_of_alive hu.awake.allocated (by rw [hu.awake.running]; decide)
    have hempty := h.isEmpty hheaded
    rw [hk] at hempty
    have hsome : listIsEmpty (.children (child3 [.fork true]).current) (child3 [.fork true]).tree =
        some false := by decide +kernel
    rw [hsome] at hempty
    cases hempty
  rw [hfound.stuck hu hrest.isolated.idle h hkids n] at hrun
  cases hrun

/-- Process 3 has no child when it exits. -/
theorem childless_reaped : ∃ n s',
    releaseProcess n (child3 []).current (child3Exited [] [.resume [], .clock]) = some s' ∧
      ReapedAlone (child3Exited [] [.resume [], .clock]) s' (child3 []).current := by
  obtain ⟨before, hfound⟩ := foundCheck_run [] [.resume [], .clock] (by decide +kernel) (by simp)
  exact (reaped_alone_iff before hfound).mpr (by decide +kernel)

end Yalnix.System
