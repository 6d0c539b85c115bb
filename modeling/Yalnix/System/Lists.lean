import Yalnix.System.Adoption
import Yalnix.System.Sleeping

/-!
# The lists of processes

`Lists` says what is on the process list, on the lists of children and on those of threads, while no
exit has gone wrong.  The list of a zombie that had a child when it exited is no list any more.

* `Lists.congr` — a change that is not about lists.
* `Lists.fork`, `Lists.createThread` — a new process.
* `Lists.free` — a process that had no children when it exited is released.
-/

set_option autoImplicit false

namespace Yalnix.System

open Ring (Heap IsRing Linked Rings Outside)

variable {s s' s₁ t : Sys} {n : Nat} {p q c z child : PID} {l : List PID}
  {kids threads : PID → List PID}

/-- The process has a list of children. -/
structure Headed (s : Sys) (p : PID) : Prop where
  allocated : (s.desc p).allocated = true
  clean : (s.desc p).state = .ZOMBIE → (s.desc p).thread_leader = none →
    s.tree.next (.children p) = some (.children p)

/-- The node is the head of a list of children, or the node of a thread, which is on no such list. -/
inductive TreeHead (s : Sys) : TreeNode → Prop
  | children {p : PID} (headed : Headed s p) : TreeHead s (.children p)
  | siblings {t : PID} (allocated : (s.desc t).allocated = true)
      (thread : (s.desc t).thread_leader.isSome) : TreeHead s (.siblings t)

/-- The head of a list of threads. -/
def GroupHead (s : Sys) (a : GroupNode) : Prop :=
  ∃ p, (s.desc p).allocated = true ∧ a = .thread_group p

def cohort (threads : PID → List PID) : GroupNode → List GroupNode
  | .thread_group p => (threads p).map .thread_peers
  | .thread_peers _ => []

structure Lists (s : Sys) (l : List PID) (kids threads : PID → List PID) : Prop where
  procs : IsRing s.procs .process_head (l.map .process_list)
  members : ∀ p, p ∈ l ↔ (s.desc p).allocated = true
  tree : Rings s.tree (TreeHead s) (brood kids)
  child : ∀ p c, c ∈ kids p → (s.desc c).allocated = true ∧ (s.desc c).parent = some p ∧
    (s.desc c).thread_leader = none
  order : ∀ p c, c ∈ kids p → p < c
  root : (s.desc 1).allocated = true ∧ (s.desc 1).parent = none ∧ (s.desc 1).thread_leader = none
  alive : ∀ p c, c ∈ kids p → (s.desc p).allocated = true ∧ (s.desc p).state ≠ .ZOMBIE
  parent : ∀ c, (s.desc c).allocated = true → (s.desc c).thread_leader = none → c ≠ 1 →
    ∃ p, c ∈ kids p
  single : ∀ t, (s.desc t).allocated = true → (s.desc t).thread_leader.isSome →
    kids t = [] ∧ (s.desc t).parent = none
  groups : Rings s.groups (GroupHead s) (cohort threads)
  peers : ∀ p t, t ∈ threads p ↔ (s.desc t).thread_leader = some p

theorem mem_brood {a : TreeNode} {x : TreeNode} (hx : x ∈ a :: brood kids a) :
    x = a ∨ ∃ p c, a = .children p ∧ x = .siblings c ∧ c ∈ kids p := by
  rcases List.mem_cons.mp hx with hx | hx
  · exact .inl hx
  · cases a with
    | siblings t => cases hx
    | children p =>
      obtain ⟨c, hc, rfl⟩ := List.mem_map.mp hx
      exact .inr ⟨p, c, rfl, rfl, hc⟩

theorem brood_children (kids : PID → List PID) (p : PID) :
    brood kids (.children p) = (kids p).map .siblings := rfl

theorem cohort_group (threads : PID → List PID) (p : PID) :
    cohort threads (.thread_group p) = (threads p).map .thread_peers := rfl

theorem brood_update (kids : PID → List PID) (p : PID) (cs : List PID) :
    brood (Function.update kids p cs) =
      Function.update (brood kids) (.children p) (cs.map .siblings) := by
  funext a
  cases a with
  | siblings t => rw [Function.update_of_ne (by simp)]; rfl
  | children q =>
    rcases eq_or_ne q p with rfl | hq
    · rw [Function.update_self]
      rw [brood_children, Function.update_self]
    · rw [Function.update_of_ne (by simpa using hq)]
      rw [brood_children, Function.update_of_ne hq, brood_children]

theorem cohort_update (threads : PID → List PID) (p : PID) (ts : List PID) :
    cohort (Function.update threads p ts) =
      Function.update (cohort threads) (.thread_group p) (ts.map .thread_peers) := by
  funext a
  cases a with
  | thread_peers t => rw [Function.update_of_ne (by simp)]; rfl
  | thread_group q =>
    rcases eq_or_ne q p with rfl | hq
    · rw [Function.update_self]
      rw [cohort_group, Function.update_self]
    · rw [Function.update_of_ne (by simpa using hq)]
      rw [cohort_group, Function.update_of_ne hq, cohort_group]

theorem Lists.ring (h : Lists s l kids threads) (hp : Headed s p) :
    IsRing s.tree (.children p) ((kids p).map .siblings) :=
  h.tree.ring _ (.children hp)

theorem Lists.cohort_ring (h : Lists s l kids threads) (hp : (s.desc p).allocated = true) :
    IsRing s.groups (.thread_group p) ((threads p).map .thread_peers) :=
  h.groups.ring _ ⟨p, hp, rfl⟩

theorem headed_of_alive (hal : (s.desc p).allocated = true) (hs : (s.desc p).state ≠ .ZOMBIE) :
    Headed s p :=
  ⟨hal, fun hz _ => absurd hz hs⟩

theorem headed_of_thread (hal : (s.desc p).allocated = true) (hl : (s.desc p).thread_leader.isSome) :
    Headed s p := by
  refine ⟨hal, fun _ hnone => ?_⟩
  rw [hnone] at hl
  cases hl

/-- A child has one parent. -/
theorem Lists.parent_unique (h : Lists s l kids threads) (hp : c ∈ kids p) (hq : c ∈ kids q) :
    p = q := by
  have h₁ := (h.child p c hp).2.1
  rw [(h.child q c hq).2.1] at h₁
  exact (Option.some.inj h₁).symm

theorem Lists.kids_zombie (h : Lists s l kids threads) (hz : (s.desc p).state = .ZOMBIE) :
    kids p = [] := by
  cases hk : kids p with
  | nil => rfl
  | cons c cs =>
    have hc : c ∈ kids p := by
      rw [hk]
      exact List.mem_cons_self
    exact absurd hz (h.alive p c hc).2

theorem Lists.kids_free (h : Lists s l kids threads) (hp : (s.desc p).allocated = false) :
    kids p = [] := by
  cases hk : kids p with
  | nil => rfl
  | cons c cs =>
    have hc : c ∈ kids p := by
      rw [hk]
      exact List.mem_cons_self
    have := (h.alive p c hc).1
    rw [hp] at this
    cases this

/-! ## Changes that are not about lists -/

/-- Descriptors that are alike as far as lists go. -/
structure SameKin (d d' : Descriptor) : Prop where
  allocated : d'.allocated = d.allocated
  parent : d'.parent = d.parent
  leader : d'.thread_leader = d.thread_leader
  zombie : d'.state = .ZOMBIE ↔ d.state = .ZOMBIE

theorem Lists.congr (h : Lists s l kids threads) (hprocs : s'.procs = s.procs)
    (htree : s'.tree = s.tree) (hgroups : s'.groups = s.groups)
    (hdesc : ∀ q, SameKin (s.desc q) (s'.desc q)) : Lists s' l kids threads := by
  have hhead : ∀ a, TreeHead s' a → TreeHead s a := by
    intro a ha
    cases ha with
    | @children p headed =>
      refine .children ⟨(hdesc p).allocated ▸ headed.allocated, fun hz hl => ?_⟩
      have := headed.clean ((hdesc p).zombie.mpr hz) ((hdesc p).leader.trans hl)
      rwa [htree] at this
    | @siblings t allocated thread =>
      exact .siblings ((hdesc t).allocated ▸ allocated) ((hdesc t).leader ▸ thread)
  refine ⟨?_, fun p => ?_, ?_, fun p c hc => ?_, fun p c hc => ?_, ?_, fun p c hc => ?_,
    fun c hal hl hne => ?_,
    fun t hal hl => ?_, ?_, fun p t => ?_⟩
  · rw [hprocs]
    exact h.procs
  · rw [(hdesc p).allocated]
    exact h.members p
  · rw [htree]
    exact h.tree.mono hhead
  · rw [(hdesc c).allocated, (hdesc c).parent, (hdesc c).leader]
    exact h.child p c hc
  · exact h.order p c hc
  · rw [(hdesc 1).allocated, (hdesc 1).parent, (hdesc 1).leader]
    exact h.root
  · rw [(hdesc p).allocated]
    exact ⟨(h.alive p c hc).1, fun hz => (h.alive p c hc).2 ((hdesc p).zombie.mp hz)⟩
  · rw [(hdesc c).allocated] at hal
    rw [(hdesc c).leader] at hl
    exact h.parent c hal hl hne
  · rw [(hdesc t).allocated] at hal
    rw [(hdesc t).leader] at hl
    rw [(hdesc t).parent]
    exact h.single t hal hl
  · rw [hgroups]
    refine h.groups.mono ?_
    rintro a ⟨p, hp, rfl⟩
    exact ⟨p, (hdesc p).allocated ▸ hp, rfl⟩
  · rw [(hdesc t).leader]
    exact h.peers p t

/-! ## A new process -/

/-- The nodes of a process that is not there are on no list. -/
theorem Lists.outside (h : Lists s l kids threads) (hc : (s.desc child).allocated = false) :
    Outside (TreeHead s) (brood kids) (.children child) ∧
      Outside (TreeHead s) (brood kids) (.siblings child) := by
  have hno : ∀ {b : Bool}, (s.desc child).allocated = b → b = true → False := by
    rintro b rfl hb
    rw [hc] at hb
    cases hb
  refine ⟨fun a ha hx => ?_, fun a ha hx => ?_⟩
  · rcases mem_brood hx with rfl | ⟨p, c, -, hx, -⟩
    · cases ha with
      | children headed => exact hno rfl headed.allocated
    · cases hx
  · rcases mem_brood hx with rfl | ⟨p, c, -, hx, hm⟩
    · cases ha with
      | siblings allocated _ => exact hno rfl allocated
    · cases hx
      exact hno rfl (h.child p child hm).1

theorem Lists.root_ne (h : Lists s l kids threads) (hc : (s.desc child).allocated = false) :
    1 ≠ child := by
  rintro rfl
  have := h.root.1
  rw [hc] at this
  cases this

/-- The tree with the two nodes of a new process, each a list of its own. -/
theorem Lists.newTree (h : Lists s l kids threads) (hc : (s.desc child).allocated = false) :
    Rings (linkedListNodeInit (.siblings child) (linkedListNodeInit (.children child) s.tree))
      (fun a => (TreeHead s a ∨ a = .children child) ∨ a = .siblings child) (brood kids) := by
  obtain ⟨hout, hout'⟩ := h.outside hc
  have hempty : brood kids (.children child) = [] := by
    rw [brood_children, h.kids_free hc]
    rfl
  refine Rings.linkedListNodeInit (Rings.linkedListNodeInit h.tree hout hempty) (fun a ha => ?_) rfl
  rcases ha with ha | rfl
  · exact hout' a ha
  · rw [hempty]
    simp

theorem Lists.newGroups (h : Lists s l kids threads) (hc : (s.desc child).allocated = false)
    (hpeers : threads child = []) (hleader : (s.desc child).thread_leader = none) :
    Rings (linkedListNodeInit (.thread_peers child)
      (linkedListNodeInit (.thread_group child) s.groups))
      (fun a => GroupHead s a ∨ a = .thread_group child) (cohort threads) ∧
    Outside (fun a => GroupHead s a ∨ a = .thread_group child) (cohort threads)
      (.thread_peers child) := by
  have hempty : cohort threads (.thread_group child) = [] := by
    rw [cohort_group, hpeers]
    rfl
  have hmem : ∀ a x, x ∈ a :: cohort threads a → x = a ∨ ∃ p t, a = .thread_group p ∧
      x = .thread_peers t ∧ t ∈ threads p := by
    intro a x hx
    rcases List.mem_cons.mp hx with hx | hx
    · exact .inl hx
    · cases a with
      | thread_peers t => cases hx
      | thread_group p =>
        obtain ⟨t, ht, rfl⟩ := List.mem_map.mp hx
        exact .inr ⟨p, t, rfl, rfl, ht⟩
  have hout : Outside (GroupHead s) (cohort threads) (.thread_group child) := by
    rintro a ⟨p, hp, rfl⟩ hx
    rcases hmem _ _ hx with hx | ⟨q, t, -, hx, -⟩
    · cases hx
      rw [hc] at hp
      cases hp
    · cases hx
  have hout' : Outside (fun a => GroupHead s a ∨ a = .thread_group child) (cohort threads)
      (.thread_peers child) := by
    rintro a ha hx
    rcases hmem _ _ hx with rfl | ⟨p, t, -, hx, ht⟩
    · rcases ha with ⟨p, -, hp⟩ | hp
      · cases hp
      · cases hp
    · cases hx
      rw [h.peers, hleader] at ht
      cases ht
  exact ⟨(Rings.linkedListNodeInit (Rings.linkedListNodeInit h.groups hout hempty) hout' rfl).mono
    fun a ha => .inl ha, hout'⟩

/-- A list of children that gets one more leaves the other heads alone. -/
theorem addLastNode_children {tree tree' : Heap TreeNode} {a : PID} {cs : List PID}
    (hr : IsRing tree (.children a) (cs.map .siblings))
    (hi : addLastNode (.siblings c) (.children a) tree = some tree') (hp : p ≠ a) :
    tree'.next (.children p) = tree.next (.children p) := by
  unfold addLastNode at hi
  obtain ⟨b, hb, hi⟩ := Option.bind_eq_some_iff.mp hi
  have hm := hr.prev_mem List.mem_cons_self hb
  have hne : TreeNode.children p ≠ b := by
    rintro rfl
    rcases List.mem_cons.mp hm with hm | hm
    · exact hp (TreeNode.children.inj hm)
    · obtain ⟨x, -, hx⟩ := List.mem_map.mp hm
      cases hx
  obtain ⟨y, -, hn, -⟩ := insertNode_some hi
  rw [hn, Function.update_of_ne hne, Function.update_of_ne (by simp)]

theorem Lists.procs_outside (h : Lists s l kids threads) (hc : (s.desc child).allocated = false) :
    .process_list child ∉ .process_head :: l.map ProcNode.process_list := by
  intro hm
  rcases List.mem_cons.mp hm with hm | hm
  · cases hm
  · obtain ⟨q, hq, he⟩ := List.mem_map.mp hm
    cases he
    have := (h.members child).mp hq
    rw [hc] at this
    cases this

theorem IsRing.congr_init {h : Heap ProcNode} {l : List ProcNode} {x hd : ProcNode}
    (hr : IsRing h hd l) (hx : x ∉ hd :: l) : IsRing (linkedListNodeInit x h) hd l := by
  refine hr.congr (fun y hy => ?_) fun y hy => ?_
  · have hne : y ≠ x := fun he => hx (he ▸ hy)
    rw [linkedListNodeInit_next, Function.update_of_ne hne]
  · have hne : y ≠ x := fun he => hx (he ▸ hy)
    rw [linkedListNodeInit_prev, Function.update_of_ne hne]

/-- The process `child` has been made; its nodes are lists of their own. -/
structure Makes (s s₁ : Sys) (child : PID) (d : Descriptor) : Prop where
  self : s₁.desc child = d
  other : ∀ q, q ≠ child → s₁.desc q = s.desc q
  tree : s₁.tree =
    linkedListNodeInit (.siblings child) (linkedListNodeInit (.children child) s.tree)
  procs : s₁.procs = linkedListNodeInit (.process_list child) s.procs
  groups : s₁.groups =
    linkedListNodeInit (.thread_peers child) (linkedListNodeInit (.thread_group child) s.groups)

theorem newProcess_makes (s : Sys) (child : PID) (d : Descriptor) :
    Makes s (Sys.newProcess { s with max_pid := child } child d) child d :=
  ⟨newProcess_desc_self _ _ _, fun _ hq => newProcess_desc_of_ne hq _ _, rfl, rfl, rfl⟩

theorem Lists.not_child (h : Lists s l kids threads) (hc : (s.desc child).allocated = false) (q : PID) :
    child ∉ kids q := by
  intro hm
  have := (h.child q child hm).1
  rw [hc] at this
  cases this

theorem Lists.no_threads (h : Lists s l kids threads) (ha : Asleep s) (hlt : s.max_pid < child) :
    threads child = [] := by
  refine List.eq_nil_iff_forall_not_mem.mpr fun t ht => ?_
  exact absurd (ha.led t child ((h.peers child t).mp ht)) (not_le.mpr hlt)

/-- One list has got one more. -/
theorem mem_joined {f : PID → List PID} {a : PID} :
    c ∈ Function.update f a (f a ++ [child]) p ↔ c ∈ f p ∨ p = a ∧ c = child := by
  rcases eq_or_ne p a with rfl | hp
  · rw [Function.update_self, List.mem_append, List.mem_singleton]
    simp
  · rw [Function.update_of_ne hp]
    simp [hp]

theorem Makes.groupHead {d : Descriptor} (hm : Makes s s₁ child d) {a : GroupNode}
    (ha : GroupHead s₁ a) : GroupHead s a ∨ a = .thread_group child := by
  obtain ⟨p, hp, rfl⟩ := ha
  rcases eq_or_ne p child with rfl | hpc
  · exact .inr rfl
  · refine .inl ⟨p, ?_, rfl⟩
    rw [← hm.other p hpc]
    exact hp

/-- The tree with the child on the list of its parent. -/
theorem Lists.forkTree {d : Descriptor} {tree : Heap TreeNode} {procs : Heap ProcNode}
    (h : Lists s l kids threads) (hw : Awake s) (hfree : (s.desc child).allocated = false)
    (hm : Makes s s₁ child d) (hd : d.thread_leader = none)
    (hchild : addLastNode (.siblings child) (.children s.current) s₁.tree = some tree) :
    Rings tree (TreeHead { s₁ with tree := tree, procs := procs })
      (brood (Function.update kids s.current (kids s.current ++ [child]))) := by
  have hrings : Rings s₁.tree (fun a => TreeHead s a ∨ a = .children child) (brood kids) := by
    rw [hm.tree]
    exact (h.newTree hfree).mono fun a ha => .inl ha
  have hhead : TreeHead s (.children s.current) :=
    .children (headed_of_alive hw.allocated (by rw [hw.running]; decide))
  have hout : Outside (fun a => TreeHead s a ∨ a = .children child) (brood kids)
      (.siblings child) := by
    intro a ha' hx
    rcases ha' with ha' | rfl
    · exact (h.outside hfree).2 a ha' hx
    · rcases mem_brood hx with hx | ⟨p, c, -, hx, hk⟩
      · cases hx
      · cases hx
        exact h.not_child hfree p hk
  have hafter := Rings.addLastNode hrings (.inl hhead) hout hchild
  have hnext : ∀ p, p ≠ s.current → p ≠ child →
      tree.next (.children p) = s.tree.next (.children p) := by
    intro p hp hpc
    have hr := hrings.ring (.children s.current) (.inl hhead)
    rw [brood_children] at hr
    rw [addLastNode_children hr hchild hp, hm.tree, linkedListNodeInit_next, linkedListNodeInit_next,
      Function.update_of_ne (by simp), Function.update_of_ne (by simpa using hpc)]
  rw [brood_update, List.map_append]
  refine hafter.mono fun a ha' => ?_
  cases ha' with
  | @children p headed =>
    rcases eq_or_ne p child with rfl | hp
    · exact .inr rfl
    · have hdesc := hm.other p hp
      refine .inl (.children ⟨?_, fun hz hl => ?_⟩)
      · rw [← hdesc]
        exact headed.allocated
      · have hpc : p ≠ s.current := by
          rintro rfl
          rw [hw.running] at hz
          cases hz
        rw [← hnext p hpc hp]
        rw [← hdesc] at hz hl
        exact headed.clean hz hl
  | @siblings t allocated thread =>
    have ht : t ≠ child := by
      rintro rfl
      change (s₁.desc t).thread_leader.isSome at thread
      rw [hm.self, hd] at thread
      cases thread
    have hdesc := hm.other t ht
    refine .inl (.siblings ?_ ?_)
    · rw [← hdesc]
      exact allocated
    · rw [← hdesc]
      exact thread

/-- **A child joins the list of its parent, and the process list.** -/
theorem Lists.fork (h : Lists s l kids threads) (ha : Asleep s) (hw : Awake s)
    (hmax : child = s.max_pid + 1) {tree : Heap TreeNode} {procs : Heap ProcNode}
    (made : s₁ = Sys.newProcess { s with max_pid := child } child
      { newDescriptor with parent := some s.current })
    (hchild : addLastNode (.siblings child) (.children s.current) s₁.tree = some tree)
    (hlisted : addLastNode (.process_list child) .process_head s₁.procs = some procs)
    (hleader : (s.desc s.current).thread_leader = none) :
    Lists { s₁ with tree := tree, procs := procs } (l ++ [child])
      (Function.update kids s.current (kids s.current ++ [child])) threads := by
  have hlt : s.max_pid < child := by
    rw [hmax]
    exact Nat.lt_succ_self _
  have hfree := ha.fresh child hlt
  have hm : Makes s s₁ child { newDescriptor with parent := some s.current } := by
    rw [made]
    exact newProcess_makes s child _
  refine ⟨?_, fun p => ?_, h.forkTree hw hfree hm rfl hchild, fun p c hc => ?_, fun p c hc => ?_, ?_,
    fun p c hc => ?_, fun c hal hl hne => ?_, fun t hal hl => ?_, ?_, fun p t => ?_⟩
  · rw [List.map_append]
    refine IsRing.addLastNode ?_ (h.procs_outside hfree) hlisted
    rw [hm.procs]
    exact IsRing.congr_init h.procs (h.procs_outside hfree)
  · change p ∈ l ++ [child] ↔ (s₁.desc p).allocated = true
    rw [List.mem_append, List.mem_singleton]
    rcases eq_or_ne p child with rfl | hp
    · rw [hm.self]
      exact iff_of_true (.inr rfl) rfl
    · rw [hm.other p hp, or_iff_left hp]
      exact h.members p
  · change (s₁.desc c).allocated = true ∧ (s₁.desc c).parent = some p ∧
      (s₁.desc c).thread_leader = none
    rcases mem_joined.mp hc with hk | ⟨rfl, rfl⟩
    · have hcc : c ≠ child := fun he => h.not_child hfree p (he ▸ hk)
      rw [hm.other c hcc]
      exact h.child p c hk
    · rw [hm.self]
      exact ⟨rfl, rfl, rfl⟩
  · rcases mem_joined.mp hc with hk | ⟨rfl, rfl⟩
    · exact h.order p c hk
    · exact lt_of_le_of_lt (hw.le_max ha) hlt
  · change (s₁.desc 1).allocated = true ∧ (s₁.desc 1).parent = none ∧
      (s₁.desc 1).thread_leader = none
    rw [hm.other 1 (h.root_ne hfree)]
    exact h.root
  · change (s₁.desc p).allocated = true ∧ (s₁.desc p).state ≠ .ZOMBIE
    have hcurrent : s.current ≠ child := ne_of_lt (lt_of_le_of_lt (hw.le_max ha) hlt)
    rcases mem_joined.mp hc with hk | ⟨rfl, -⟩
    · have hpc : p ≠ child := by
        rintro rfl
        rw [h.kids_free hfree] at hk
        cases hk
      rw [hm.other p hpc]
      exact h.alive p c hk
    · rw [hm.other _ hcurrent, hw.running]
      exact ⟨hw.allocated, by decide⟩
  · change (s₁.desc c).allocated = true at hal
    change (s₁.desc c).thread_leader = none at hl
    rcases eq_or_ne c child with rfl | hcc
    · exact ⟨s.current, mem_joined.mpr (.inr ⟨rfl, rfl⟩)⟩
    · rw [hm.other c hcc] at hal hl
      obtain ⟨p, hp⟩ := h.parent c hal hl hne
      exact ⟨p, mem_joined.mpr (.inl hp)⟩
  · change (s₁.desc t).allocated = true at hal
    change (s₁.desc t).thread_leader.isSome at hl
    change _ ∧ (s₁.desc t).parent = none
    have ht : t ≠ child := by
      rintro rfl
      rw [hm.self] at hl
      cases hl
    rw [hm.other t ht] at hal hl ⊢
    have htc : t ≠ s.current := by
      rintro rfl
      rw [hleader] at hl
      cases hl
    rw [Function.update_of_ne htc]
    exact h.single t hal hl
  · change Rings s₁.groups _ _
    rw [hm.groups]
    exact (h.newGroups hfree (h.no_threads ha hlt) (ha.linked child hlt)).1.mono fun a => hm.groupHead
  · change t ∈ threads p ↔ (s₁.desc t).thread_leader = some p
    rcases eq_or_ne t child with rfl | ht
    · rw [hm.self, h.peers, ha.linked t hlt]
      exact iff_of_false nofun nofun
    · rw [hm.other t ht]
      exact h.peers p t

/-- The process list with the thread after its leader. -/
theorem Lists.threadProcs {d : Descriptor} {u v : List PID} {procs : Heap ProcNode}
    (h : Lists s (u ++ s.current :: v) kids threads) (hfree : (s.desc child).allocated = false)
    (hm : Makes s s₁ child d)
    (hlisted : insertNode (.process_list child) (.process_list s.current) s₁.procs = some procs) :
    IsRing procs .process_head ((u ++ s.current :: child :: v).map .process_list) := by
  have hbase : IsRing s₁.procs .process_head
      ((u ++ [s.current]).map .process_list ++ v.map ProcNode.process_list) := by
    rw [hm.procs, ← List.map_append, List.append_assoc]
    exact IsRing.congr_init h.procs (h.procs_outside hfree)
  have hx : .process_list child ∉ .process_head ::
      ((u ++ [s.current]).map ProcNode.process_list ++ v.map .process_list) := by
    rw [← List.map_append, List.append_assoc]
    exact h.procs_outside hfree
  have hlast : ProcNode.process_head :: (u ++ [s.current]).map .process_list =
      (.process_head :: u.map .process_list) ++ [.process_list s.current] := by
    simp
  have hring := IsRing.insertNode hbase hlast hx hlisted
  simpa using hring

/-- The tree with the nodes of a thread, which are on no list of children. -/
theorem Lists.threadTree {d : Descriptor} {groups : Heap GroupNode} {procs : Heap ProcNode}
    (h : Lists s l kids threads) (hfree : (s.desc child).allocated = false) (hm : Makes s s₁ child d) :
    Rings s₁.tree (TreeHead { s₁ with groups := groups, procs := procs }) (brood kids) := by
  rw [hm.tree]
  refine (h.newTree hfree).mono fun a ha' => ?_
  cases ha' with
  | @children p headed =>
    rcases eq_or_ne p child with rfl | hp
    · exact .inl (.inr rfl)
    · refine .inl (.inl (.children ⟨?_, fun hz hl => ?_⟩))
      · rw [← hm.other p hp]
        exact headed.allocated
      · rw [← hm.other p hp] at hz hl
        have hclean := headed.clean hz hl
        dsimp only at hclean
        rwa [linkedListNodeInit_next, linkedListNodeInit_next,
          Function.update_of_ne (by simp), Function.update_of_ne (by simpa using hp)] at hclean
  | @siblings t allocated thread =>
    rcases eq_or_ne t child with rfl | ht
    · exact .inr rfl
    · refine .inl (.inl (.siblings ?_ ?_))
      · rw [← hm.other t ht]
        exact allocated
      · rw [← hm.other t ht]
        exact thread

/-- **A thread joins the list of its leader, and follows it on the process list.** -/
theorem Lists.createThread (h : Lists s l kids threads) (ha : Asleep s) (hw : Awake s)
    (hmax : child = s.max_pid + 1) {groups : Heap GroupNode} {procs : Heap ProcNode}
    (made : s₁ = Sys.newProcess { s with max_pid := child } child
      { newDescriptor with thread_leader := some s.current })
    (hpeer : addLastNode (.thread_peers child) (.thread_group s.current) s₁.groups = some groups)
    (hlisted : insertNode (.process_list child) (.process_list s.current) s₁.procs = some procs) :
    ∃ u v, l = u ++ s.current :: v ∧
      Lists { s₁ with groups := groups, procs := procs } (u ++ s.current :: child :: v) kids
        (Function.update threads s.current (threads s.current ++ [child])) := by
  have hlt : s.max_pid < child := by
    rw [hmax]
    exact Nat.lt_succ_self _
  have hfree := ha.fresh child hlt
  have hm : Makes s s₁ child { newDescriptor with thread_leader := some s.current } := by
    rw [made]
    exact newProcess_makes s child _
  have hkids := h.kids_free hfree
  obtain ⟨hgroups, hout⟩ := h.newGroups hfree (h.no_threads ha hlt) (ha.linked child hlt)
  rw [← hm.groups] at hgroups
  have hafter := Rings.addLastNode hgroups (.inl ⟨s.current, hw.allocated, rfl⟩) hout hpeer
  obtain ⟨u, v, rfl⟩ := List.append_of_mem ((h.members s.current).mpr hw.allocated)
  have htree : Rings s₁.tree (TreeHead { s₁ with groups := groups, procs := procs }) (brood kids) :=
    h.threadTree hfree hm
  refine ⟨u, v, rfl, h.threadProcs hfree hm hlisted, fun p => ?_, htree,
    fun p c hc => ?_, fun p c hc => ?_, ?_, fun p c hc => ?_, fun c hal hl hne => ?_,
    fun t hal hl => ?_, ?_, fun p t => ?_⟩
  · change p ∈ u ++ s.current :: child :: v ↔ (s₁.desc p).allocated = true
    rcases eq_or_ne p child with rfl | hp
    · rw [hm.self]
      exact iff_of_true (by simp) rfl
    · rw [hm.other p hp, ← h.members p]
      simp [hp]
  · change (s₁.desc c).allocated = true ∧ (s₁.desc c).parent = some p ∧
      (s₁.desc c).thread_leader = none
    have hcc : c ≠ child := fun he => h.not_child hfree p (he ▸ hc)
    rw [hm.other c hcc]
    exact h.child p c hc
  · exact h.order p c hc
  · change (s₁.desc 1).allocated = true ∧ (s₁.desc 1).parent = none ∧
      (s₁.desc 1).thread_leader = none
    rw [hm.other 1 (h.root_ne hfree)]
    exact h.root
  · change (s₁.desc p).allocated = true ∧ (s₁.desc p).state ≠ .ZOMBIE
    have hpc : p ≠ child := by
      rintro rfl
      rw [hkids] at hc
      cases hc
    rw [hm.other p hpc]
    exact h.alive p c hc
  · change (s₁.desc c).allocated = true at hal
    change (s₁.desc c).thread_leader = none at hl
    have hcc : c ≠ child := by
      rintro rfl
      rw [hm.self] at hl
      cases hl
    rw [hm.other c hcc] at hal hl
    exact h.parent c hal hl hne
  · change (s₁.desc t).allocated = true at hal
    change (s₁.desc t).thread_leader.isSome at hl
    change kids t = [] ∧ (s₁.desc t).parent = none
    rcases eq_or_ne t child with rfl | ht
    · rw [hm.self]
      exact ⟨hkids, rfl⟩
    · rw [hm.other t ht] at hal hl ⊢
      exact h.single t hal hl
  · rw [cohort_update, List.map_append]
    exact hafter.mono fun a => hm.groupHead
  · change t ∈ _ ↔ (s₁.desc t).thread_leader = some p
    rw [mem_joined]
    rcases eq_or_ne t child with rfl | ht
    · rw [hm.self, h.peers, ha.linked t hlt]
      constructor
      · rintro (hp | ⟨rfl, -⟩)
        · cases hp
        · rfl
      · intro hp
        exact .inr ⟨(Option.some.inj hp).symm, rfl⟩
    · rw [hm.other t ht, h.peers]
      simp [ht]

/-! ## A release -/

/-- The walk over an empty list of children ends at once. -/
theorem releaseProcess_childless (hring : IsRing s.tree (.children z) [])
    (h : releaseProcess n z s = some s') : freeDescriptor z s = some s' := by
  cases n with
  | zero => cases h
  | succ n =>
    unfold releaseProcess at h
    rw [(Ring.isRing_nil.mp hring).1] at h
    simp only [Option.bind_eq_bind, Option.bind_some] at h
    obtain ⟨s₁, hwalk, h⟩ := Option.bind_eq_some_iff.mp h
    cases n with
    | zero => cases hwalk
    | succ n =>
      unfold forEachChild at hwalk
      rw [if_pos rfl] at hwalk
      cases hwalk
      exact h

/-- What becomes of a process without children. -/
theorem freeDescriptor_childless (hring : IsRing s.tree (.children z) [])
    (h : freeDescriptor z s = some s') : ∃ tree procs, removeNode (.siblings z) s.tree = some tree ∧
      removeNode (.process_list z) s.procs = some procs ∧
      s' = ({ s with tree := tree, procs := procs } : Sys).setDesc z
        fun d => { d with allocated := false } := by
  unfold freeDescriptor at h
  simp only [Option.bind_eq_bind, Option.bind_eq_some_iff, Option.some.injEq] at h
  obtain ⟨idle, -, tree₁, hs, tree₂, hr, tree₃, hr', procs, hp, rfl⟩ := h
  rw [spliceLinkedLists_empty (Ring.isRing_nil.mp hring).1] at hs
  cases hs
  have hsame := removeNode_self hring hr
  subst hsame
  exact ⟨tree₃, procs, hr', hp, rfl⟩

theorem erase_middle {u v : List PID} (hn : (u ++ z :: v).Nodup) : (u ++ z :: v).erase z = u ++ v := by
  have hu : z ∉ u := fun hm => (List.nodup_append.mp hn).2.2 z hm z List.mem_cons_self rfl
  rw [List.erase_append_right _ hu, List.erase_cons_head]

/-- A list of children that loses one leaves the other heads alone. -/
theorem removeNode_children {tree tree' : Heap TreeNode} {a : PID} {cs : List PID}
    (hr : IsRing tree (.children a) (cs.map .siblings)) (hz : z ∈ cs)
    (hi : removeNode (.siblings z) tree = some tree') (hp : p ≠ a) :
    tree'.next (.children p) = tree.next (.children p) := by
  obtain ⟨prev, next, hprev, -, hn, -⟩ := removeNode_some hi
  have hm := hr.prev_mem (List.mem_cons_of_mem _ (List.mem_map_of_mem hz)) hprev
  have hne : TreeNode.children p ≠ prev := by
    rintro rfl
    rcases List.mem_cons.mp hm with hm | hm
    · exact hp (TreeNode.children.inj hm)
    · obtain ⟨x, -, hx⟩ := List.mem_map.mp hm
      cases hx
  rw [hn, Function.update_of_ne hne]

/-- The lists of children without `z`, which is taken off its own. -/
theorem Lists.freeTree (h : Lists s l kids threads) (hal : (s.desc z).allocated = true) (hz : z ≠ 1)
    {tree : Heap TreeNode} (hr : removeNode (.siblings z) s.tree = some tree) :
    Rings tree (TreeHead s) (brood fun p => (kids p).erase z) ∧
      ∀ p, (s.desc p).state = .ZOMBIE → tree.next (.children p) = s.tree.next (.children p) := by
  cases hl : (s.desc z).thread_leader with
  | some p =>
    have hring : IsRing s.tree (.siblings z) [] :=
      h.tree.ring _ (.siblings hal (Option.isSome_iff_exists.mpr ⟨p, hl⟩))
    have hsame := removeNode_self hring hr
    subst hsame
    refine ⟨h.tree.eq fun a _ => ?_, fun _ _ => rfl⟩
    cases a with
    | siblings t => rfl
    | children q =>
      have hnot : z ∉ kids q := by
        intro hm
        have := (h.child q z hm).2.2
        rw [hl] at this
        cases this
      rw [brood_children, brood_children, List.erase_of_not_mem hnot]
  | none =>
    obtain ⟨p, hp⟩ := h.parent z hal hl hz
    obtain ⟨hpal, hps⟩ := h.alive p z hp
    have hheaded := headed_of_alive hpal hps
    have hring := h.ring hheaded
    obtain ⟨u, v, huv⟩ := List.append_of_mem hp
    have hbrood : brood kids (.children p) = u.map .siblings ++ .siblings z :: v.map .siblings := by
      rw [brood_children, huv, List.map_append, List.map_cons]
    have hafter := Rings.removeNode h.tree (.children hheaded) hbrood hr
    refine ⟨hafter.eq fun a _ => ?_, fun q hq => ?_⟩
    · rw [← List.map_append, ← brood_update]
      cases a with
      | siblings t => rfl
      | children q =>
        rw [brood_children, brood_children]
        rcases eq_or_ne q p with rfl | hq
        · have hnodup : (kids q).Nodup := List.Nodup.of_map _ hring.nodup
          rw [huv] at hnodup
          rw [Function.update_self, huv, erase_middle hnodup]
        · have hnot : z ∉ kids q := fun hm => hq (h.parent_unique hm hp)
          rw [Function.update_of_ne hq, List.erase_of_not_mem hnot]
    · refine removeNode_children hring hp hr ?_
      rintro rfl
      exact hps hq

/-- The descriptor of `z` has been released and unlinked, which leaves the lists `tree` and `procs`. -/
structure Freed (s s' : Sys) (z : PID) (tree : Heap TreeNode) (procs : Heap ProcNode) : Prop where
  gone : (s'.desc z).allocated = false
  other : ∀ q, q ≠ z → s'.desc q = s.desc q
  leader : ∀ q, (s'.desc q).thread_leader = (s.desc q).thread_leader
  tree : s'.tree = tree
  procs : s'.procs = procs
  groups : s'.groups = s.groups

theorem freed_setDesc {tree : Heap TreeNode} {procs : Heap ProcNode} :
    Freed s (({ s with tree := tree, procs := procs } : Sys).setDesc z
      fun d => { d with allocated := false }) z tree procs := by
  unfold Sys.setDesc
  refine ⟨by simp only [Function.update_self], fun q hq => Function.update_of_ne hq _ _, fun q => ?_,
    rfl, rfl, rfl⟩
  rcases eq_or_ne q z with rfl | hq
  · simp only [Function.update_self]
  · simp only [Function.update_of_ne hq]

theorem Freed.ne {tree : Heap TreeNode} {procs : Heap ProcNode} (h : Freed s s' z tree procs)
    (hq : (s'.desc q).allocated = true) : q ≠ z := by
  rintro rfl
  rw [h.gone] at hq
  cases hq

theorem Lists.mem_erase (h : Lists s l kids threads) (hc : c ∈ (kids p).erase z) :
    c ∈ kids p ∧ c ≠ z := by
  have hcm := List.mem_of_mem_erase hc
  refine ⟨hcm, ?_⟩
  rintro rfl
  obtain ⟨hpal, hps⟩ := h.alive p c hcm
  have hnd : (kids p).Nodup := List.Nodup.of_map _ (h.ring (headed_of_alive hpal hps)).nodup
  exact hnd.not_mem_erase hc

/-- **A process that has no children is taken off its lists.** -/
theorem Lists.free (h : Lists s l kids threads) (hheaded : Headed s z) (hkids : kids z = [])
    (hz : z ≠ 1) (hf : freeDescriptor z s = some s') :
    Lists s' (l.erase z) (fun p => (kids p).erase z) threads := by
  have hring : IsRing s.tree (.children z) [] := by
    have hr := h.ring hheaded
    rw [hkids] at hr
    exact hr
  obtain ⟨tree, procs, htree, hprocs, hs'⟩ := freeDescriptor_childless hring hf
  have hfreed : Freed s s' z tree procs := hs' ▸ freed_setDesc
  clear hs'
  obtain ⟨hrings, hnext⟩ := h.freeTree hheaded.allocated hz htree
  obtain ⟨u, v, huv⟩ := List.append_of_mem ((h.members z).mpr hheaded.allocated)
  have hnodup : l.Nodup := List.Nodup.of_map _ h.procs.nodup
  have herase : l.erase z = u ++ v := by
    rw [huv] at hnodup ⊢
    exact erase_middle hnodup
  have hback : ∀ q, (s'.desc q).allocated = true → q ≠ z := fun q hq => hfreed.ne hq
  refine ⟨?_, fun p => ?_, ?_, fun p c hc => ?_, fun p c hc => ?_, ?_, fun p c hc => ?_,
    fun c hal hl hne => ?_,
    fun t hal hl => ?_, ?_, fun p t => ?_⟩
  · have hbase := h.procs
    rw [huv, List.map_append, List.map_cons] at hbase
    rw [herase, List.map_append, hfreed.procs]
    exact IsRing.removeNode hbase hprocs
  · rcases eq_or_ne p z with rfl | hp
    · rw [hfreed.gone]
      exact iff_of_false hnodup.not_mem_erase nofun
    · rw [List.mem_erase_of_ne hp, hfreed.other p hp]
      exact h.members p
  · rw [hfreed.tree]
    refine hrings.mono fun a ha => ?_
    cases ha with
    | @children p headed =>
      have hd := hfreed.other p (hback p headed.allocated)
      refine .children ⟨hd ▸ headed.allocated, fun hzs hl => ?_⟩
      rw [← hnext p hzs, ← hfreed.tree]
      rw [← hd] at hzs hl
      exact headed.clean hzs hl
    | @siblings t allocated thread =>
      have hd := hfreed.other t (hback t allocated)
      exact .siblings (hd ▸ allocated) (hd ▸ thread)
  · obtain ⟨hcm, hcz⟩ := h.mem_erase hc
    rw [hfreed.other c hcz]
    exact h.child p c hcm
  · exact h.order p c (h.mem_erase hc).1
  · rw [hfreed.other 1 hz.symm]
    exact h.root
  · obtain ⟨hcm, -⟩ := h.mem_erase hc
    have hpz : p ≠ z := by
      rintro rfl
      rw [hkids] at hcm
      cases hcm
    rw [hfreed.other p hpz]
    exact h.alive p c hcm
  · have hcz := hback c hal
    rw [hfreed.other c hcz] at hal hl
    obtain ⟨p, hp⟩ := h.parent c hal hl hne
    exact ⟨p, (List.mem_erase_of_ne hcz).mpr hp⟩
  · have htz := hback t hal
    rw [hfreed.other t htz] at hal hl ⊢
    obtain ⟨hk, hp⟩ := h.single t hal hl
    rw [hk]
    exact ⟨rfl, hp⟩
  · rw [hfreed.groups]
    refine h.groups.mono ?_
    rintro a ⟨p, hp, rfl⟩
    exact ⟨p, hfreed.other p (hback p hp) ▸ hp, rfl⟩
  · rw [hfreed.leader t]
    exact h.peers p t

end Yalnix.System
