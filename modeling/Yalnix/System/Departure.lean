import Yalnix.System.Lists

/-!
# Exits that leave the lists right

* `Tidy` — a step that releases nobody twice, and no list of children that is no list any more.
* `Lists.expire`, `Lists.adopted` — the running process becomes a zombie, and its child goes to its
  parent.
* `Lists.threads` — its threads are killed and released.
* `Lists.kill`, `Lists.exit` — the exit.
-/

set_option autoImplicit false

namespace Yalnix.System

open Ring (Heap IsRing Linked Rings Outside)

variable {s s' s₁ t u : Sys} {n m : Nat} {p q c z G : PID} {l : List PID} {e : Event} {status : Int}
  {kids threads : PID → List PID}

/-! ## Tidy steps -/

structure Tidy (s : Sys) (e : Event) : Prop where
  /-- No thread of a process that exits has been joined. -/
  joined : ∀ status, e = .exit status → ∀ t, (s.desc t).thread_leader = some s.current →
    (s.desc t).allocated = true
  /-- A process that exits has no child that has exited. -/
  zombies : ∀ status, e = .exit status → ∀ c, (s.desc c).allocated = true →
    (s.desc c).parent = some s.current → (s.desc c).state ≠ .ZOMBIE
  /-- It has at most one child. -/
  children : ∀ status, e = .exit status → ∀ c c', (s.desc c).allocated = true →
    (s.desc c').allocated = true → (s.desc c).parent = some s.current →
    (s.desc c').parent = some s.current → c = c'
  /-- It has none if its parent is the first process. -/
  orphans : ∀ status, e = .exit status → (s.desc s.current).parent = some 1 →
    ∀ c, (s.desc c).allocated = true → (s.desc c).parent ≠ some s.current
  /-- A child that is waited for had no child when it exited. -/
  reaped : Waits s e → ∀ m pos z, s.tree.next (.children s.current) = some pos →
    findZombie s (.children s.current) m pos = some (some z) →
    s.tree.next (.children z) = some (.children z)
  /-- A thread that is joined has not been joined before. -/
  joins : ∀ thread_id, Joins s e thread_id → ∀ m pos z t,
    s.groups.next (.thread_group s.current) = some pos →
    findThread (.thread_group s.current) thread_id m pos s = some (some z, t) →
    (s.desc z).allocated = true

/-! ## The running process becomes a zombie -/

/-- The end of `killProcess`. -/
def Sys.expire (s : Sys) (status : Int) : Sys :=
  s.setDesc s.current fun d => { d with state := .ZOMBIE, exit_status := status }

theorem expire_desc_self (s : Sys) (status : Int) : (s.expire status).desc s.current =
    { s.desc s.current with state := .ZOMBIE, exit_status := status } :=
  Function.update_self _ _ _

theorem expire_desc_of_ne (hq : q ≠ s.current) (status : Int) :
    (s.expire status).desc q = s.desc q :=
  Function.update_of_ne hq _ _

theorem expire_kin (s : Sys) (status : Int) (q : PID) :
    ((s.expire status).desc q).allocated = (s.desc q).allocated ∧
    ((s.expire status).desc q).parent = (s.desc q).parent ∧
    ((s.expire status).desc q).thread_leader = (s.desc q).thread_leader := by
  rcases eq_or_ne q s.current with rfl | hq
  · rw [expire_desc_self]
    exact ⟨rfl, rfl, rfl⟩
  · rw [expire_desc_of_ne hq]
    exact ⟨rfl, rfl, rfl⟩

theorem expire_expire (s : Sys) (a b : Int) : (s.expire a).expire b = s.expire b := by
  unfold Sys.expire Sys.setDesc
  simp only [Function.update_self, Function.update_idem]

/-- A process without children becomes a zombie. -/
theorem Lists.expire (h : Lists s l kids threads) (hw : Awake s) (hkids : kids s.current = [])
    (status : Int) : Lists (s.expire status) l kids threads := by
  have hkin := expire_kin s status
  refine ⟨h.procs, fun p => ?_, h.tree.mono fun a ha => ?_, fun p c hc => ?_, h.order, ?_,
    fun p c hc => ?_, fun c hal hl hne => ?_, fun t hal hl => ?_, h.groups.mono ?_, fun p t => ?_⟩
  · rw [(hkin p).1]
    exact h.members p
  · cases ha with
    | @children p headed =>
      have hal := headed.allocated
      rw [(hkin p).1] at hal
      rcases eq_or_ne p s.current with rfl | hp
      · exact .children (headed_of_alive hal (by rw [hw.running]; decide))
      · refine .children ⟨hal, fun hz hl => ?_⟩
        rw [← expire_desc_of_ne hp status] at hz hl
        exact headed.clean hz hl
    | @siblings t allocated thread =>
      rw [(hkin t).1] at allocated
      rw [(hkin t).2.2] at thread
      exact .siblings allocated thread
  · rw [(hkin c).1, (hkin c).2.1, (hkin c).2.2]
    exact h.child p c hc
  · rw [(hkin 1).1, (hkin 1).2.1, (hkin 1).2.2]
    exact h.root
  · have hp : p ≠ s.current := by
      rintro rfl
      rw [hkids] at hc
      cases hc
    rw [expire_desc_of_ne hp]
    exact h.alive p c hc
  · rw [(hkin c).1] at hal
    rw [(hkin c).2.2] at hl
    exact h.parent c hal hl hne
  · rw [(hkin t).1] at hal
    rw [(hkin t).2.2] at hl
    rw [(hkin t).2.1]
    exact h.single t hal hl
  · rintro a ⟨p, hp, rfl⟩
    rw [(hkin p).1] at hp
    exact ⟨p, hp, rfl⟩
  · rw [(hkin t).2.2]
    exact h.peers p t

/-! ## Its child goes to its parent -/

/-- What is left when the process has exited and its one child has gone to `G`. -/
structure HandedOver (s u : Sys) (c G : PID) (status : Int) (tree : Heap TreeNode) : Prop where
  procs : u.procs = s.procs
  groups : u.groups = s.groups
  tree : u.tree = tree
  exited : u.desc s.current = { s.desc s.current with state := .ZOMBIE, exit_status := status }
  child : u.desc c = { s.desc c with parent := some G }
  other : ∀ q, q ≠ s.current → q ≠ c → u.desc q = s.desc q

theorem expire_adopt (s : Sys) (hc : c ≠ s.current) (G : PID) (status : Int) (tree : Heap TreeNode) :
    HandedOver s (({ s.adopt [c] (some G) with tree := tree } : Sys).expire status) c G status tree := by
  generalize hv : ({ s.adopt [c] (some G) with tree := tree } : Sys) = v
  have hvdesc : v.desc = (s.adopt [c] (some G)).desc := by
    rw [← hv]
  have hvcurrent : v.current = s.current := by
    rw [← hv]
    rfl
  have hother : ∀ q, q ≠ s.current → (v.expire status).desc q = (s.adopt [c] (some G)).desc q := by
    intro q hq
    have hq' : q ≠ v.current := by
      rw [hvcurrent]
      exact hq
    rw [expire_desc_of_ne hq', hvdesc]
  refine ⟨?_, ?_, ?_, ?_, ?_, fun q hq hqc => ?_⟩
  · rw [← hv]
    rfl
  · rw [← hv]
    rfl
  · rw [← hv]
    rfl
  · have hd : v.desc s.current = s.desc s.current := by
      rw [hvdesc]
      exact adopt_desc_of_not_mem (by simpa using hc.symm) s (some G)
    have hself := expire_desc_self v status
    rw [hvcurrent, hd] at hself
    exact hself
  · exact (hother c hc).trans (adopt_desc_of_mem List.mem_cons_self s (some G))
  · rw [hother q hq]
    exact adopt_desc_of_not_mem (by simpa using hqc) s (some G)

/-- No process becomes a thread, or stops being one. -/
theorem HandedOver.kin {u : Sys} {status : Int} {tree : Heap TreeNode}
    (h : HandedOver s u c G status tree) (q : PID) :
    (u.desc q).allocated = (s.desc q).allocated ∧
      (u.desc q).thread_leader = (s.desc q).thread_leader := by
  rcases eq_or_ne q s.current with rfl | hq
  · rw [h.exited]
    exact ⟨rfl, rfl⟩
  · rcases eq_or_ne q c with rfl | hqc
    · rw [h.child]
      exact ⟨rfl, rfl⟩
    · rw [h.other q hq hqc]
      exact ⟨rfl, rfl⟩

theorem HandedOver.state {u : Sys} {status : Int} {tree : Heap TreeNode}
    (h : HandedOver s u c G status tree) {q : PID} (hq : q ≠ s.current) :
    (u.desc q).state = (s.desc q).state := by
  rcases eq_or_ne q c with rfl | hqc
  · rw [h.child]
  · rw [h.other q hq hqc]

/-- The lists of children afterwards. -/
def handOver (kids : PID → List PID) (p G c : PID) : PID → List PID :=
  Function.update (Function.update kids p []) G (kids G ++ [c])

theorem Lists.mem_handOver {p d : PID} (h : Lists s l kids threads) (hp : s.current ∈ kids G)
    (hc : c ∈ kids s.current) (hd : d ∈ handOver kids s.current G c p) :
    p ≠ s.current ∧ (d ∈ kids p ∧ d ≠ c ∨ p = G ∧ d = c) := by
  have hne : G ≠ s.current := ne_of_lt (h.order G _ hp)
  unfold handOver at hd
  rcases eq_or_ne p G with rfl | hpG
  · rw [Function.update_self] at hd
    refine ⟨hne, ?_⟩
    rcases List.mem_append.mp hd with hd | hd
    · refine .inl ⟨hd, fun he => ?_⟩
      rw [he] at hd
      exact hne (h.parent_unique hd hc)
    · exact .inr ⟨rfl, List.mem_singleton.mp hd⟩
  · rw [Function.update_of_ne hpG] at hd
    rcases eq_or_ne p s.current with rfl | hpP
    · rw [Function.update_self] at hd
      cases hd
    · rw [Function.update_of_ne hpP] at hd
      refine ⟨hpP, .inl ⟨hd, fun he => ?_⟩⟩
      rw [he] at hd
      exact hpP (h.parent_unique hd hc)

/-- A child stays on the list it is on, but for the one that is handed over. -/
theorem mem_handOver_of_mem {p d : PID} (hkids : kids s.current = [c]) (hd : d ∈ kids p)
    (hdc : d ≠ c) : d ∈ handOver kids s.current G c p := by
  unfold handOver
  rcases eq_or_ne p G with rfl | hpG
  · rw [Function.update_self]
    exact List.mem_append_left _ hd
  · have hpP : p ≠ s.current := by
      rintro rfl
      rw [hkids, List.mem_singleton] at hd
      exact hdc hd
    rw [Function.update_of_ne hpG, Function.update_of_ne hpP]
    exact hd

theorem brood_handOver {p : PID} {a : TreeNode} (ha : a ≠ .children p) :
    brood (handOver kids p G c) a =
      Function.update (brood kids) (.children G) (brood kids (.children G) ++ [.siblings c]) a := by
  unfold handOver
  rw [brood_update, List.map_append]
  rcases eq_or_ne a (.children G) with rfl | haG
  · rw [Function.update_self, Function.update_self, brood_children]
    rfl
  · rw [Function.update_of_ne haG, Function.update_of_ne haG, brood_update, Function.update_of_ne ha]

/-- The lists of children are in order, but for that of the process, which nobody walks any more. -/
theorem Lists.handOver_tree {u : Sys} {status : Int} {tree : Heap TreeNode}
    (h : Lists s l kids threads) (hw : Awake s) (hp : s.current ∈ kids G)
    (hkids : kids s.current = [c])
    (hs : spliceLinkedLists (.children s.current) (.children G) s.tree = some tree)
    (hu : HandedOver s u c G status tree) :
    Rings u.tree (TreeHead u) (brood (handOver kids s.current G c)) := by
  have hstate : (s.desc s.current).state ≠ .ZOMBIE := by
    rw [hw.running]
    decide
  obtain ⟨hGal, hGs⟩ := h.alive G _ hp
  have hne : G ≠ s.current := ne_of_lt (h.order G _ hp)
  have hheaded := headed_of_alive hw.allocated hstate
  have hbrood : brood kids (.children s.current) = [.siblings c] := by
    rw [brood_children, hkids]
    rfl
  have hneG : TreeNode.children s.current ≠ .children G := by simpa using hne.symm
  obtain ⟨hrings, hnext⟩ := Rings.spliceOne h.tree (.children (headed_of_alive hGal hGs))
    (.children hheaded) hneG hbrood hs
  have hnext' : ∀ p, p ≠ G → tree.next (.children p) = s.tree.next (.children p) := by
    intro p hpG
    refine hnext _ (by simp) fun hm => ?_
    rcases mem_brood hm with hm | ⟨q, d, -, hm, -⟩
    · exact hpG (TreeNode.children.inj hm)
    · cases hm
  have hPnext : tree.next (.children s.current) = some (.siblings c) := by
    rw [hnext' _ hne.symm]
    have hr := h.ring hheaded
    rw [hkids] at hr
    exact hr.next_head
  rw [hu.tree]
  refine (hrings.eq fun a ha => brood_handOver (p := s.current) ha.2).mono fun a ha => ?_
  cases ha with
  | @children p headed =>
    have hal := headed.allocated
    rw [(hu.kin p).1] at hal
    rcases eq_or_ne p s.current with rfl | hpP
    · -- the list of the process that has exited still leads to its child
      have hclean := headed.clean (by rw [hu.exited]) ((hu.kin _).2.trans (h.child _ _ hp).2.2)
      rw [hu.tree, hPnext] at hclean
      cases hclean
    · refine ⟨.children ⟨hal, fun hz hl => ?_⟩, by simpa using hpP⟩
      have hpG : p ≠ G := by
        rintro rfl
        exact hGs hz
      rw [← hnext' p hpG, ← hu.tree]
      exact headed.clean ((hu.state hpP).trans hz) ((hu.kin p).2.trans hl)
  | @siblings t allocated thread =>
    rw [(hu.kin t).1] at allocated
    rw [(hu.kin t).2] at thread
    exact ⟨.siblings allocated thread, by simp⟩

/-- **The one child of a process that exits goes to the parent of the process.** -/
theorem Lists.adopted (h : Lists s l kids threads) (hw : Awake s) (hp : s.current ∈ kids G)
    (hkids : kids s.current = [c]) {tree : Heap TreeNode} (status : Int)
    (hs : spliceLinkedLists (.children s.current) (.children G) s.tree = some tree) :
    Lists (({ s.adopt [c] (some G) with tree := tree } : Sys).expire status) l
      (Function.update (Function.update kids s.current []) G (kids G ++ [c])) threads := by
  obtain ⟨hGal, hGs⟩ := h.alive G _ hp
  have hc : c ∈ kids s.current := by
    rw [hkids]
    exact List.mem_cons_self
  have hcP : c ≠ s.current := (h.order _ c hc).ne'
  have hu := expire_adopt s hcP G status tree
  have htree := h.handOver_tree hw hp hkids hs hu
  generalize ({ s.adopt [c] (some G) with tree := tree } : Sys).expire status = u at hu htree
  change Lists u l (handOver kids s.current G c) threads
  refine ⟨?_, fun p => ?_, htree, fun p d hd => ?_, fun p d hd => ?_, ?_, fun p d hd => ?_,
    fun d hal hl hne1 => ?_, fun t hal hl => ?_, ?_, fun p t => ?_⟩
  · rw [hu.procs]
    exact h.procs
  · rw [(hu.kin p).1]
    exact h.members p
  · obtain ⟨-, ⟨hd, hdc⟩ | ⟨rfl, rfl⟩⟩ := h.mem_handOver hp hc hd
    · have hchild := h.child p d hd
      refine ⟨(hu.kin d).1.trans hchild.1, ?_, (hu.kin d).2.trans hchild.2.2⟩
      rcases eq_or_ne d s.current with rfl | hdP
      · rw [hu.exited]
        exact hchild.2.1
      · rw [hu.other d hdP hdc]
        exact hchild.2.1
    · have hchild := h.child _ d hc
      refine ⟨(hu.kin d).1.trans hchild.1, ?_, (hu.kin d).2.trans hchild.2.2⟩
      rw [hu.child]
  · obtain ⟨-, ⟨hd, -⟩ | ⟨rfl, rfl⟩⟩ := h.mem_handOver hp hc hd
    · exact h.order p d hd
    · exact (h.order p _ hp).trans (h.order _ d hc)
  · have h1c : 1 ≠ c := by
      rintro rfl
      have := (h.child _ 1 hc).2.1
      rw [h.root.2.1] at this
      cases this
    refine ⟨(hu.kin 1).1.trans h.root.1, ?_, (hu.kin 1).2.trans h.root.2.2⟩
    rcases eq_or_ne 1 s.current with h1 | h1
    · have hpar := (h.child _ _ hp).2.1
      rw [← h1, h.root.2.1] at hpar
      cases hpar
    · rw [hu.other 1 h1 h1c]
      exact h.root.2.1
  · obtain ⟨hpP, hd⟩ := h.mem_handOver hp hc hd
    have halive : (s.desc p).allocated = true ∧ (s.desc p).state ≠ .ZOMBIE := by
      rcases hd with ⟨hd, -⟩ | ⟨rfl, -⟩
      · exact h.alive p d hd
      · exact ⟨hGal, hGs⟩
    refine ⟨(hu.kin p).1.trans halive.1, ?_⟩
    rw [hu.state hpP]
    exact halive.2
  · rw [(hu.kin d).1] at hal
    rw [(hu.kin d).2] at hl
    obtain ⟨p, hdp⟩ := h.parent d hal hl hne1
    rcases eq_or_ne d c with rfl | hdc
    · refine ⟨G, ?_⟩
      unfold handOver
      rw [Function.update_self]
      simp
    · exact ⟨p, mem_handOver_of_mem hkids hdp hdc⟩
  · rw [(hu.kin t).1] at hal
    rw [(hu.kin t).2] at hl
    obtain ⟨hk, hpar⟩ := h.single t hal hl
    have htG : t ≠ G := by
      rintro rfl
      rw [hk] at hp
      cases hp
    have htP : t ≠ s.current := by
      rintro rfl
      rw [hkids] at hk
      cases hk
    have htc : t ≠ c := by
      rintro rfl
      have := (h.child _ t hc).2.1
      rw [hpar] at this
      cases this
    unfold handOver
    rw [Function.update_of_ne htG, Function.update_of_ne htP, hu.other t htP htc]
    exact ⟨hk, hpar⟩
  · rw [hu.groups]
    refine h.groups.mono ?_
    rintro a ⟨p, hp, rfl⟩
    rw [(hu.kin p).1] at hp
    exact ⟨p, hp, rfl⟩
  · rw [(hu.kin t).2]
    exact h.peers p t

end Yalnix.System
