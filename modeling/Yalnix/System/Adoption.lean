import Yalnix.Core.Rings
import Yalnix.System.Culled

/-!
# The children of a process that exits

* `forEachChild_walk` — the walk over children that are alive gives them a new parent.
* `releaseProcess_frees`, `exitRules_stale` — after a zombie has been released the walk reads it.
* `Family` — a process and its parent, with their children; `Family.walked`, `Family.walk_zombie` —
  what the walk does to them.
* `Family.spliceOne`, `Family.broken` — the list of the parent, with one child more, and with two.
-/

set_option autoImplicit false

namespace Yalnix.System

open Ring (Heap IsRing Linked Rings)

variable {s s' s₁ t : Sys} {n m : Nat} {p q c : PID} {status : Int} {parent : Option PID}
  {cs kids gkids : List PID}

/-! ## A new parent -/

/-- The processes of `cs` have a new parent. -/
def Sys.adopt (s : Sys) (cs : List PID) (parent : Option PID) : Sys :=
  { s with desc := fun q => if q ∈ cs then { s.desc q with parent := parent } else s.desc q }

theorem adopt_nil (s : Sys) (parent : Option PID) : s.adopt [] parent = s := by
  unfold Sys.adopt
  simp

theorem adopt_desc_of_not_mem (hq : q ∉ cs) (s : Sys) (parent : Option PID) :
    (s.adopt cs parent).desc q = s.desc q :=
  if_neg hq

theorem adopt_desc_of_mem (hq : q ∈ cs) (s : Sys) (parent : Option PID) :
    (s.adopt cs parent).desc q = { s.desc q with parent := parent } :=
  if_pos hq

theorem adopt_state (s : Sys) (cs : List PID) (parent : Option PID) (q : PID) :
    ((s.adopt cs parent).desc q).state = (s.desc q).state ∧
      ((s.adopt cs parent).desc q).allocated = (s.desc q).allocated := by
  by_cases hq : q ∈ cs
  · rw [adopt_desc_of_mem hq]
    exact ⟨rfl, rfl⟩
  · rw [adopt_desc_of_not_mem hq]
    exact ⟨rfl, rfl⟩

theorem adopt_congr {ds : List PID} (h : ∀ q, q ∈ cs ↔ q ∈ ds) (s : Sys) (parent : Option PID) :
    s.adopt cs parent = s.adopt ds parent := by
  unfold Sys.adopt
  simp only [h]

theorem setParent_adopt (s : Sys) (cs : List PID) (parent : Option PID) (c : PID) :
    (s.adopt cs parent).setParent c parent = s.adopt (c :: cs) parent := by
  unfold Sys.adopt Sys.setParent Sys.setDesc
  congr 1
  funext q
  rcases eq_or_ne q c with rfl | hq
  · rw [Function.update_self, if_pos List.mem_cons_self]
    by_cases hq : q ∈ cs
    · simp only [if_pos hq]
    · simp only [if_neg hq]
  · rw [Function.update_of_ne hq]
    simp [hq]

/-! ## The walk -/

/-- From node to node along the list. -/
def Walk (h : Heap TreeNode) (l : List TreeNode) : Prop := l.IsChain fun a b => h.next a = some b

/-- The walk over children that are alive, up to the node `pos`. -/
theorem forEachChild_walk {head pos : TreeNode} {post : List TreeNode}
    {body : PID → Sys → Option Sys}
    (hbody : ∀ ds c, (∀ d ∈ ds, d ∈ cs) → c ∈ cs →
      body c (s.adopt ds parent) = some (s.adopt (c :: ds) parent))
    (halloc : ∀ c ∈ cs, (s.desc c).allocated = true) (hhead : ∀ c, head ≠ .siblings c) (n : Nat) :
    ∀ (todo ds : List PID) (first : TreeNode), (∀ d ∈ todo, d ∈ cs) → (∀ d ∈ ds, d ∈ cs) →
      (todo.map TreeNode.siblings ++ pos :: post).head? = some first →
      Walk s.tree (todo.map TreeNode.siblings ++ pos :: post) →
      forEachChild head body (n + todo.length) first (s.adopt ds parent) =
        forEachChild head body n pos (s.adopt (todo.reverse ++ ds) parent) := by
  intro todo
  induction todo with
  | nil =>
    intro ds first _ _ hfirst _
    cases hfirst
    rfl
  | cons c todo ih =>
    intro ds first htodo hds hfirst hwalk
    cases hfirst
    have hc := htodo c List.mem_cons_self
    have hstep := hbody ds c hds hc
    obtain ⟨next, rest, hrest⟩ : ∃ next rest,
        todo.map TreeNode.siblings ++ pos :: post = next :: rest := by
      cases todo with
      | nil => exact ⟨pos, post, rfl⟩
      | cons d todo => exact ⟨_, _, rfl⟩
    rw [List.map_cons, List.cons_append, hrest] at hwalk
    have hnext : s.tree.next (.siblings c) = some next := (List.isChain_cons_cons.mp hwalk).1
    have hallocated : ((s.adopt (c :: ds) parent).desc c).allocated = true :=
      (adopt_state s _ parent c).2.trans (halloc c hc)
    have hfollow : (s.adopt (c :: ds) parent).follow c = s.adopt (c :: ds) parent := by
      unfold Sys.follow
      rw [if_pos hallocated]
    have htree : (s.adopt (c :: ds) parent).tree.next (.siblings c) = some next := hnext
    have hrun := ih (c :: ds) next (fun d hd => htodo d (List.mem_cons_of_mem _ hd))
      (fun d hd => by
        rcases List.mem_cons.mp hd with rfl | hd
        · exact hc
        · exact hds d hd)
      (by rw [hrest]; rfl) (by rw [hrest]; exact (List.isChain_cons_cons.mp hwalk).2)
    rw [List.reverse_cons, List.append_assoc, List.singleton_append, ← hrun, List.length_cons,
      ← Nat.add_assoc]
    conv_lhs => unfold forEachChild
    rw [if_neg (hhead c).symm]
    simp only [Option.bind_eq_bind, hstep, Option.bind_some, hfollow, htree]

/-- It takes at least as many rounds as there are children. -/
theorem forEachChild_rounds {head pos : TreeNode} {post : List TreeNode}
    {body : PID → Sys → Option Sys}
    (hbody : ∀ ds c, (∀ d ∈ ds, d ∈ cs) → c ∈ cs →
      body c (s.adopt ds parent) = some (s.adopt (c :: ds) parent))
    (halloc : ∀ c ∈ cs, (s.desc c).allocated = true) (hhead : ∀ c, head ≠ .siblings c) :
    ∀ (n : Nat) (todo ds : List PID) (first : TreeNode), (∀ d ∈ todo, d ∈ cs) → (∀ d ∈ ds, d ∈ cs) →
      (todo.map TreeNode.siblings ++ pos :: post).head? = some first →
      Walk s.tree (todo.map TreeNode.siblings ++ pos :: post) →
      forEachChild head body n first (s.adopt ds parent) = some s' → todo.length ≤ n := by
  intro n
  induction n with
  | zero =>
    intro todo ds first _ _ _ _ hrun
    cases hrun
  | succ n ih =>
    intro todo ds first htodo hds hfirst hwalk hrun
    cases todo with
    | nil => exact Nat.zero_le _
    | cons c todo =>
      cases hfirst
      have hc := htodo c List.mem_cons_self
      obtain ⟨next, rest, hrest⟩ : ∃ next rest,
          todo.map TreeNode.siblings ++ pos :: post = next :: rest := by
        cases todo with
        | nil => exact ⟨pos, post, rfl⟩
        | cons d todo => exact ⟨_, _, rfl⟩
      rw [List.map_cons, List.cons_append, hrest] at hwalk
      have hnext : (s.adopt (c :: ds) parent).tree.next (.siblings c) = some next :=
        (List.isChain_cons_cons.mp hwalk).1
      have hallocated : ((s.adopt (c :: ds) parent).desc c).allocated = true :=
        (adopt_state s _ parent c).2.trans (halloc c hc)
      have hfollow : (s.adopt (c :: ds) parent).follow c = s.adopt (c :: ds) parent := by
        unfold Sys.follow
        rw [if_pos hallocated]
      unfold forEachChild at hrun
      rw [if_neg (hhead c).symm] at hrun
      simp only [Option.bind_eq_bind, hbody ds c hds hc, Option.bind_some, hfollow, hnext] at hrun
      have := ih todo (c :: ds) next (fun d hd => htodo d (List.mem_cons_of_mem _ hd))
        (fun d hd => by
          rcases List.mem_cons.mp hd with rfl | hd
          · exact hc
          · exact hds d hd)
        (by rw [hrest]; rfl) (by rw [hrest]; exact (List.isChain_cons_cons.mp hwalk).2) hrun
      rw [List.length_cons]
      exact Nat.succ_le_succ this

/-! ## Reading what has been freed -/

theorem follow_stale (h : s.stale_read = true) (p : PID) : (s.follow p).stale_read = true := by
  unfold Sys.follow
  split
  · exact h
  · rfl

theorem freeDescriptor_stale (h : s.stale_read = true) (hf : freeDescriptor p s = some s') :
    s'.stale_read = true := by
  unfold freeDescriptor at hf
  simp only [Option.bind_eq_bind, Option.bind_eq_some_iff, Option.some.injEq] at hf
  obtain ⟨idle, -, tree₁, -, tree₂, -, tree₃, -, procs, -, rfl⟩ := hf
  exact h

theorem giveChildren_stale (h : s.stale_read = true) (hg : giveChildren p s = some s') :
    s'.stale_read = true := by
  unfold giveChildren at hg
  simp only [Option.bind_eq_bind, Option.bind_eq_some_iff] at hg
  obtain ⟨empty, -, hg⟩ := hg
  split at hg
  · cases hg
    exact h
  · simp only [Option.bind_eq_some_iff, Option.some.injEq] at hg
    obtain ⟨parent, -, tree, -, rfl⟩ := hg
    exact h

/-- Once something freed has been read, no step of an exit makes it unread. -/
theorem exitRules_stale : ExitRules fun s s' => s.stale_read = true → s'.stale_read = true where
  refl _ := id
  trans h h' := h' ∘ h
  follow _ p h := follow_stale h p
  setParent _ _ _ h := h
  free hf h := freeDescriptor_stale h hf
  give hg h := giveChildren_stale h hg
  zombie _ _ h := h

/-- The descriptor is free afterwards. -/
theorem releaseProcess_frees (h : releaseProcess n p s = some s') : (s'.desc p).allocated = false := by
  cases n with
  | zero => cases h
  | succ n =>
    unfold releaseProcess at h
    simp only [Option.bind_eq_bind, Option.bind_eq_some_iff] at h
    obtain ⟨first, -, s₁, -, h⟩ := h
    unfold freeDescriptor at h
    simp only [Option.bind_eq_bind, Option.bind_eq_some_iff, Option.some.injEq] at h
    obtain ⟨idle, -, tree₁, -, tree₂, -, tree₃, -, procs, -, rfl⟩ := h
    unfold Sys.setDesc
    simp only [Function.update_self]

/-! ## A process that exits -/

/-- The running process has the children `kids`, and its parent `gkids`. -/
structure Family (s : Sys) (P G : PID) (kids gkids : List PID) : Prop where
  running : P = s.current
  alive : (s.desc P).state ≠ .ZOMBIE ∧ (s.desc P).state ≠ .DEAD
  parent : (s.desc P).parent = some G
  apart : G ≠ P
  children : IsRing s.tree (.children P) (kids.map .siblings)
  siblings : IsRing s.tree (.children G) (gkids.map .siblings)
  disjoint : ∀ c ∈ kids, c ∉ gkids
  child : ∀ c ∈ kids, (s.desc c).allocated = true ∧ (s.desc c).parent = some P
  sibling : ∀ c ∈ gkids, (s.desc c).allocated = true ∧ (s.desc c).parent = some G

/-- The children that are alive have gone to the parent, and the others have been released. -/
structure TreeSurvives (s s' : Sys) (G : PID) (kids gkids : List PID) : Prop where
  ring : IsRing s'.tree (.children G)
    ((gkids ++ kids.filter fun c => (s.desc c).state ≠ .ZOMBIE).map .siblings)
  parent : ∀ c ∈ gkids ++ kids.filter fun c => (s.desc c).state ≠ .ZOMBIE,
    (s'.desc c).parent = some G
  released : ∀ c ∈ kids, (s.desc c).state = .ZOMBIE → (s'.desc c).allocated = false ∧
    (∀ p l, IsRing s'.tree (.children p) l → .siblings c ∉ l) ∧
    ∀ l, IsRing s'.procs .process_head l → .process_list c ∉ l
  walk : s'.stale_read = false

variable {P G : PID}

theorem Family.not_mem (h : Family s P G kids gkids) : P ∉ kids := by
  intro hm
  have hp := (h.child P hm).2
  rw [h.parent, Option.some.injEq] at hp
  exact h.apart hp

/-- What the exit does to a child. -/
def killChild (n : Nat) (p c : PID) (s : Sys) : Option Sys :=
  if (s.desc c).state = .ZOMBIE then releaseProcess n c s
  else some (s.setParent c (s.desc p).parent)

theorem killChild_adopt (hP : P ∉ cs) (hparent : (s.desc P).parent = parent)
    (halive : ∀ c ∈ cs, (s.desc c).state ≠ .ZOMBIE) (n : Nat) :
    ∀ ds c, (∀ d ∈ ds, d ∈ cs) → c ∈ cs →
      killChild n P c (s.adopt ds parent) = some (s.adopt (c :: ds) parent) := by
  intro ds c hds hc
  have hPds : P ∉ ds := fun hm => hP (hds P hm)
  unfold killChild
  rw [(adopt_state s ds parent c).1, if_neg (halive c hc), adopt_desc_of_not_mem hPds, hparent,
    setParent_adopt]

/-- The running process after it has looked for another one: its children, and then its threads. -/
theorem killProcess_some {r : Option PID} (h : killProcess n p status s = some (r, s'))
    (halive : (s.desc p).state ≠ .ZOMBIE ∧ (s.desc p).state ≠ .DEAD) (hp : p = s.current) :
    ∃ m q first s₁ s₂ firstThread s₃, n = m + 1 ∧ r = some q ∧
      nextProcess s m (.process_list p) = some q ∧ s.tree.next (.children p) = some first ∧
      forEachChild (.children p) (killChild m p) m first s = some s₁ ∧
      giveChildren p s₁ = some s₂ ∧ s₂.groups.next (.thread_group p) = some firstThread ∧
      forEachThread (.thread_group p) (fun t s => do
        let (_, s) ← killProcess m t (-1) s
        releaseProcess m t s) m firstThread s₂ = some s₃ ∧
      s' = s₃.setDesc s₃.current fun d => { d with state := .ZOMBIE, exit_status := status } := by
  cases n with
  | zero => cases h
  | succ m =>
    unfold killProcess at h
    rw [if_neg (by rintro (hz | hd); exacts [halive.1 hz, halive.2 hd]), if_pos hp] at h
    simp only [Option.bind_eq_bind, Option.bind_eq_some_iff, Option.map_eq_some_iff,
      Option.some.injEq, Prod.mk.injEq] at h
    obtain ⟨r', ⟨q, hq, rfl⟩, first, hfirst, s₁, h₁, s₂, h₂, firstThread, hfirst', s₃, h₃, rfl, rfl⟩ := h
    exact ⟨m, q, first, s₁, s₂, firstThread, s₃, rfl, rfl, hq, hfirst, h₁, h₂, hfirst', h₃, rfl⟩

/-- No child is a zombie: the walk gives all of them the new parent, and ends. -/
theorem walk_alive (hring : IsRing s.tree (.children P) (kids.map .siblings)) (hP : P ∉ kids)
    (hparent : (s.desc P).parent = parent) (halloc : ∀ c ∈ kids, (s.desc c).allocated = true)
    (halive : ∀ c ∈ kids, (s.desc c).state ≠ .ZOMBIE) {first : TreeNode}
    (hf : s.tree.next (.children P) = some first) (n m : Nat) :
    forEachChild (.children P) (killChild m P) (n + 1 + kids.length) first s =
      some (s.adopt kids parent) := by
  have hhead : ∀ c, TreeNode.children P ≠ .siblings c := by simp
  have hrun := forEachChild_walk (killChild_adopt hP hparent halive m) halloc hhead (n + 1) kids []
    first (fun _ hd => hd) (by simp) (hring.first hf) hring.onward
  rw [adopt_nil] at hrun
  rw [hrun]
  unfold forEachChild
  rw [if_pos rfl, adopt_congr (by simp : ∀ q, q ∈ kids.reverse ++ [] ↔ q ∈ kids)]

/-- If the walk comes to an end, it has done just this. -/
theorem walked (hring : IsRing s.tree (.children P) (kids.map .siblings)) (hP : P ∉ kids)
    (hparent : (s.desc P).parent = parent) (halloc : ∀ c ∈ kids, (s.desc c).allocated = true)
    (halive : ∀ c ∈ kids, (s.desc c).state ≠ .ZOMBIE) {first : TreeNode}
    (hf : s.tree.next (.children P) = some first)
    (hrun : forEachChild (.children P) (killChild m P) n first s = some s₁) :
    s₁ = s.adopt kids parent := by
  have hhead : ∀ c, TreeNode.children P ≠ .siblings c := by simp
  have hbody := killChild_adopt hP hparent halive m
  have hrun' : forEachChild (.children P) (killChild m P) n first (s.adopt [] parent) = some s₁ := by
    rw [adopt_nil]
    exact hrun
  have hle := forEachChild_rounds hbody halloc hhead n kids [] first (fun _ hd => hd) (by simp)
    (hring.first hf) hring.onward hrun'
  obtain ⟨k, rfl⟩ := Nat.exists_eq_add_of_le' hle
  cases k with
  | zero =>
    rw [forEachChild_walk hbody halloc hhead 0 kids [] first (fun _ hd => hd) (by simp)
      (hring.first hf) hring.onward] at hrun'
    cases hrun'
  | succ k =>
    rw [walk_alive hring hP hparent halloc halive hf k m] at hrun
    exact (Option.some.inj hrun).symm

theorem Family.walk_alive (h : Family s P G kids gkids)
    (halive : ∀ c ∈ kids, (s.desc c).state ≠ .ZOMBIE) {first : TreeNode}
    (hf : s.tree.next (.children P) = some first) (n m : Nat) :
    forEachChild (.children P) (killChild m P) (n + 1 + kids.length) first s =
      some (s.adopt kids (some G)) :=
  System.walk_alive h.children h.not_mem h.parent (fun c hc => (h.child c hc).1) halive hf n m

theorem Family.walked (h : Family s P G kids gkids) (halive : ∀ c ∈ kids, (s.desc c).state ≠ .ZOMBIE)
    {first : TreeNode} (hf : s.tree.next (.children P) = some first)
    (hrun : forEachChild (.children P) (killChild m P) n first s = some s₁) :
    s₁ = s.adopt kids (some G) :=
  System.walked h.children h.not_mem h.parent (fun c hc => (h.child c hc).1) halive hf hrun

/-- There is a zombie: the walk comes to the first, releases it, and reads it. -/
theorem Family.walk_zombie (h : Family s P G kids gkids) {first : TreeNode} {m : Nat}
    (hf : s.tree.next (.children P) = some first) (hz : ∃ c ∈ kids, (s.desc c).state = .ZOMBIE)
    (hrun : forEachChild (.children P) (killChild m P) n first s = some s₁) :
    s₁.stale_read = true := by
  obtain ⟨pre, z, post, rfl, hz, hpre⟩ : ∃ pre z post, kids = pre ++ z :: post ∧
      (s.desc z).state = .ZOMBIE ∧ ∀ c ∈ pre, (s.desc c).state ≠ .ZOMBIE := by
    clear hrun hf h
    obtain ⟨c, hc, hz⟩ := hz
    induction kids with
    | nil => cases hc
    | cons d kids ih =>
      by_cases hd : (s.desc d).state = .ZOMBIE
      · exact ⟨[], d, kids, rfl, hd, by simp⟩
      · rcases List.mem_cons.mp hc with rfl | hc
        · exact absurd hz hd
        · obtain ⟨pre, z, post, rfl, hz, hpre⟩ := ih hc
          refine ⟨d :: pre, z, post, rfl, hz, fun x hx => ?_⟩
          rcases List.mem_cons.mp hx with rfl | hx
          · exact hd
          · exact hpre x hx
  have hsub : ∀ c ∈ pre, c ∈ pre ++ z :: post := fun c hc => List.mem_append_left _ hc
  have hbody := killChild_adopt (fun hm => h.not_mem (hsub P hm)) h.parent hpre m
  have halloc : ∀ c ∈ pre, (s.desc c).allocated = true := fun c hc =>
    (h.child c (hsub c hc)).1
  have hshape : (pre ++ z :: post).map TreeNode.siblings ++ [TreeNode.children P] =
      pre.map TreeNode.siblings ++ .siblings z :: (post.map TreeNode.siblings ++ [.children P]) := by
    simp
  have hfirst := h.children.first hf
  have htail : Walk s.tree _ := h.children.onward
  rw [hshape] at hfirst htail
  have hrun' : forEachChild (.children P) (killChild m P) n first (s.adopt [] (some G)) = some s₁ := by
    rw [adopt_nil]
    exact hrun
  have hhead : ∀ c, TreeNode.children P ≠ .siblings c := by simp
  have hle := forEachChild_rounds hbody halloc hhead n pre [] first
    (fun _ hd => hd) (by simp) hfirst htail hrun'
  obtain ⟨k, rfl⟩ := Nat.exists_eq_add_of_le' hle
  rw [forEachChild_walk hbody halloc hhead k pre [] first (fun _ hd => hd) (by simp) hfirst
    htail] at hrun'
  cases k with
  | zero => cases hrun'
  | succ k =>
    unfold forEachChild at hrun'
    rw [if_neg (by simp)] at hrun'
    simp only [Option.bind_eq_bind, Option.bind_eq_some_iff] at hrun'
    obtain ⟨t, ht, next, -, hrest⟩ := hrun'
    unfold killChild at ht
    rw [(adopt_state s _ (some G) z).1, if_pos hz] at ht
    have hstale : (t.follow z).stale_read = true := by
      unfold Sys.follow
      rw [releaseProcess_frees ht]
      rfl
    refine exitRules_stale.forEachChild (fun c u u' hc => ?_) hrest hstale
    unfold killChild at hc
    split at hc
    · exact exitRules_stale.releaseProcess hc
    · cases hc
      exact id

/-- A process without threads has none to kill. -/
theorem forEachThread_none {body : PID → Sys → Option Sys} {first : GroupNode}
    (hr : IsRing s.groups (.thread_group p) []) (hf : s.groups.next (.thread_group p) = some first)
    (h : forEachThread (.thread_group p) body n first s = some s') : s' = s := by
  rw [(Ring.isRing_nil.mp hr).1, Option.some.injEq] at hf
  subst hf
  cases n with
  | zero => cases h
  | succ n =>
    unfold forEachThread at h
    rw [if_pos rfl] at h
    cases h
    rfl

/-! ## The list of the parent -/

/-- The links that a splice reads. -/
theorem Family.spliced (h : Family s P G kids gkids) {c ck : PID} {l l' : List PID}
    (hc : kids = c :: l) (hck : kids = l' ++ [ck]) {tree : Heap TreeNode}
    (hs : spliceLinkedLists (.children P) (.children G) s.tree = some tree) :
    tree.prev (.children G) = some (.siblings c) := by
  have hnext : s.tree.next (.children P) = some (.siblings c) := by
    have hr := h.children
    rw [hc] at hr
    exact hr.next_head
  have hprev : s.tree.prev (.children P) = some (.siblings ck) := by
    have hr := h.children
    rw [hck, List.map_append] at hr
    exact hr.prev_head
  obtain ⟨last, hlast⟩ := Option.isSome_iff_exists.mp (h.siblings.isSome List.mem_cons_self)
  have hlast : s.tree.prev (.children G) = some last.prev := by simp [Heap.prev, hlast]
  have hne : last.prev ≠ .children P := by
    intro he
    have hm := h.siblings.prev_mem List.mem_cons_self hlast
    rw [he] at hm
    rcases List.mem_cons.mp hm with hm | hm
    · exact h.apart (TreeNode.children.inj hm).symm
    · obtain ⟨x, -, hx⟩ := List.mem_map.mp hm
      cases hx
  obtain ⟨-, hp, -⟩ := spliceLinkedLists_some hnext hprev hlast (by simp) (by simp) hne (by simp) hs
  rw [hp, Function.update_self]

/-- With two children or more the backward link of the head is wrong. -/
theorem Family.broken (h : Family s P G kids gkids) (hlen : 2 ≤ kids.length) {tree : Heap TreeNode}
    (hs : spliceLinkedLists (.children P) (.children G) s.tree = some tree) :
    ¬ IsRing tree (.children G) ((gkids ++ kids).map .siblings) := by
  intro hr
  obtain ⟨c, l, hc⟩ : ∃ c l, kids = c :: l := by
    cases kids with
    | nil => exact absurd hlen (by simp)
    | cons c l => exact ⟨c, l, rfl⟩
  rcases List.eq_nil_or_concat' l with rfl | ⟨l', ck, rfl⟩
  · rw [hc] at hlen
    exact absurd hlen (by simp)
  · have hck : kids = (c :: l') ++ [ck] := by
      rw [hc]
      rfl
    have hfirst := h.spliced hc hck hs
    have hlast : tree.prev (.children G) = some (.siblings ck) := by
      have hshape : (gkids ++ kids).map TreeNode.siblings =
          (gkids ++ c :: l').map TreeNode.siblings ++ [.siblings ck] := by
        rw [hc]
        simp
      rw [hshape] at hr
      exact hr.prev_head
    rw [hfirst, Option.some.injEq, TreeNode.siblings.injEq] at hlast
    have hnodup := h.children.nodup
    rw [hc, hlast] at hnodup
    simp at hnodup

/-- The list of a node: for the head of a list of children, the children. -/
def brood (kids : PID → List PID) : TreeNode → List TreeNode
  | .children p => (kids p).map .siblings
  | .siblings _ => []

/-- The node is the head of the list of children of a process that is `headed`. -/
def HeadOf (headed : PID → Prop) (a : TreeNode) : Prop := ∃ p, headed p ∧ a = .children p

/-- Lists of children, of which no two share a child, are disjoint rings. -/
theorem rings_of_broods {tree : Heap TreeNode} {headed : PID → Prop} {kids : PID → List PID}
    (hring : ∀ p, headed p → IsRing tree (.children p) ((kids p).map .siblings))
    (hapart : ∀ p q c, headed p → headed q → c ∈ kids p → c ∈ kids q → p = q) :
    Rings tree (HeadOf headed) (brood kids) := by
  refine ⟨?_, ?_⟩
  · rintro a ⟨p, hp, rfl⟩
    exact hring p hp
  · rintro a b x ⟨p, hp, rfl⟩ ⟨q, hq, rfl⟩ hxa hxb
    rcases List.mem_cons.mp hxa with rfl | hxa
    · rcases List.mem_cons.mp hxb with hxb | hxb
      · exact hxb
      · obtain ⟨d, -, hd⟩ := List.mem_map.mp hxb
        cases hd
    · obtain ⟨c, hc, rfl⟩ := List.mem_map.mp hxa
      rcases List.mem_cons.mp hxb with hxb | hxb
      · cases hxb
      · obtain ⟨d, hd, hcd⟩ := List.mem_map.mp hxb
        cases hcd
        rw [hapart p q c hp hq hc hd]

/-- With one child the list of the parent is right. -/
theorem Family.spliceOne (h : Family s P G [c] gkids) {tree : Heap TreeNode}
    (hs : spliceLinkedLists (.children P) (.children G) s.tree = some tree) :
    IsRing tree (.children G) ((gkids ++ [c]).map .siblings) := by
  have hrings : Rings s.tree (HeadOf fun q => q = P ∨ q = G)
      (brood fun q => if q = P then [c] else gkids) := by
    refine rings_of_broods (fun q hq => ?_) fun q q' d hq hq' hd hd' => ?_
    · rcases hq with rfl | rfl
      · rw [if_pos rfl]
        exact h.children
      · rw [if_neg h.apart]
        exact h.siblings
    · have hnot := h.disjoint c List.mem_cons_self
      rcases hq with rfl | rfl
      · rcases hq' with rfl | rfl
        · rfl
        · rw [if_pos rfl, List.mem_singleton] at hd
          rw [if_neg h.apart, hd] at hd'
          exact absurd hd' hnot
      · rcases hq' with rfl | rfl
        · rw [if_pos rfl, List.mem_singleton] at hd'
          rw [if_neg h.apart, hd'] at hd
          exact absurd hd hnot
        · rfl
  have hG : HeadOf (fun q => q = P ∨ q = G) (.children G) := ⟨G, .inr rfl, rfl⟩
  have hP : HeadOf (fun q => q = P ∨ q = G) (.children P) := ⟨P, .inl rfl, rfl⟩
  have hne : TreeNode.children P ≠ .children G := fun he => h.apart (TreeNode.children.inj he).symm
  have hf : brood (fun q => if q = P then [c] else gkids) (.children P) = [.siblings c] := by
    unfold brood
    simp
  have hafter := (Rings.spliceOne hrings hG hP hne hf hs).1.ring (.children G) ⟨hG, hne.symm⟩
  rw [Function.update_self] at hafter
  have hold : brood (fun q => if q = P then [c] else gkids) (.children G) =
      gkids.map TreeNode.siblings := by
    unfold brood
    simp [h.apart]
  rw [hold] at hafter
  rw [List.map_append]
  exact hafter

theorem Family.spliceOne_isSome (h : Family s P G [c] gkids) :
    ∃ tree, spliceLinkedLists (.children P) (.children G) s.tree = some tree := by
  have hlast : IsRing s.tree (.children P) ([] ++ [.siblings c]) := h.children
  obtain ⟨l, hl⟩ := Option.isSome_iff_exists.mp (h.siblings.isSome List.mem_cons_self)
  have hl : s.tree.prev (.children G) = some l.prev := by simp [Heap.prev, hl]
  have hm := h.siblings.prev_mem List.mem_cons_self hl
  have hne : l.prev ≠ .children P := by
    intro he
    rw [he] at hm
    rcases List.mem_cons.mp hm with hm | hm
    · exact h.apart (TreeNode.children.inj hm).symm
    · obtain ⟨x, -, hx⟩ := List.mem_map.mp hm
      cases hx
  have hc : (s.tree (.siblings c)).isSome := h.children.isSome (by simp)
  exact spliceLinkedLists_isSome h.children.next_head hlast.prev_head hl (by simp) (by simp) hne
    (by simp) hc hc (h.siblings.isSome hm)

end Yalnix.System
