import Yalnix.System.ExitRules

/-!
# What releasing and killing leave alone

* `Released X s s'` — `s'` differs from `s` in lists of processes, and zombies and processes in `X`
  may have been released.
* `Culled X s s'` — the same, and the running process may have become a zombie.
* `releaseProcess_released`, `killProcess_culled` — what `kill.c` does, whatever the lists look like.
* `GroupsOk` — links between threads do not leave their group, and threads have none of their own.
* `forEachThread_rule` — what holds along a walk over threads.
* `Step.exit_kept` — an exit changes descriptors and lists of processes, and who runs.
-/

set_option autoImplicit false

namespace Yalnix.System

variable {s s' s₁ : Sys} {n : Nat} {p q t : PID} {X Y : PID → Prop} {status : Int}

/-! ## Releasing -/

/-- The lists and descriptors of processes from `s'`, and all the rest from `s`. -/
def Sys.withProcesses (s s' : Sys) : Sys :=
  { s with desc := s'.desc, procs := s'.procs, tree := s'.tree, stale_read := s'.stale_read }

/-- What can become of a descriptor. -/
structure ReleasedDesc (X : PID → Prop) (q : PID) (d d' : Descriptor) : Prop where
  leader : d'.thread_leader = d.thread_leader
  wake : d'.wake_up_time = d.wake_up_time
  state : d'.state = d.state
  status : d'.exit_status = d.exit_status
  allocated : d'.allocated = d.allocated ∨ d'.allocated = false ∧ (d.state = .ZOMBIE ∨ X q)

structure Released (X : PID → Prop) (s s' : Sys) : Prop where
  same : s' = s.withProcesses s'
  desc : ∀ q, ReleasedDesc X q (s.desc q) (s'.desc q)

theorem Released.refl (X : PID → Prop) (s : Sys) : Released X s s :=
  ⟨rfl, fun _ => ⟨rfl, rfl, rfl, rfl, .inl rfl⟩⟩

theorem Released.trans (h : Released X s s₁) (h' : Released X s₁ s') : Released X s s' := by
  refine ⟨?_, fun q => ?_⟩
  · have h₁ := h.same
    have h₂ := h'.same
    rw [h₂, h₁]
    rfl
  · have hq := h.desc q
    have hq' := h'.desc q
    refine ⟨hq'.leader.trans hq.leader, hq'.wake.trans hq.wake, hq'.state.trans hq.state,
      hq'.status.trans hq.status, ?_⟩
    rcases hq'.allocated with ha' | ⟨ha', hz'⟩
    · rw [ha']
      exact hq.allocated
    · rw [hq.state] at hz'
      exact .inr ⟨ha', hz'⟩

theorem Released.mono (h : Released X s s') (hXY : ∀ q, X q → (s.desc q).state = .ZOMBIE ∨ Y q) :
    Released Y s s' :=
  ⟨h.same, fun q =>
    have hq := h.desc q
    ⟨hq.leader, hq.wake, hq.state, hq.status,
      hq.allocated.imp_right fun ha => ⟨ha.1, ha.2.elim .inl (hXY q)⟩⟩⟩

theorem released_follow (X : PID → Prop) (s : Sys) (p : PID) : Released X s (s.follow p) := by
  unfold Sys.follow
  split
  · exact Released.refl X s
  · exact ⟨rfl, fun _ => ⟨rfl, rfl, rfl, rfl, .inl rfl⟩⟩

/-- Whether a released descriptor has been read before makes no difference. -/
theorem Released.unread {stale_read : Bool} (h : Released X { s with stale_read := stale_read } s') :
    Released X s s' :=
  ⟨h.same, h.desc⟩

theorem released_setParent (X : PID → Prop) (s : Sys) (p : PID) (parent : Option PID) :
    Released X s (s.setParent p parent) := by
  refine ⟨rfl, fun q => ?_⟩
  unfold Sys.setParent Sys.setDesc
  by_cases hq : q = p
  · subst hq
    simp only [Function.update_self]
    exact ⟨rfl, rfl, rfl, rfl, .inl rfl⟩
  · simp only [Function.update_of_ne hq]
    exact ⟨rfl, rfl, rfl, rfl, .inl rfl⟩

/-- A walk whose body releases only what may be released. -/
theorem forEachChild_released {head : TreeNode} {body : PID → Sys → Option Sys}
    (hbody : ∀ c s s', body c s = some s' → Released X s s') :
    ∀ {n : Nat} {pos : TreeNode} {s s' : Sys}, forEachChild head body n pos s = some s' →
      Released X s s'
  | 0, _, _, _, h => by cases h
  | n + 1, pos, s, s', h => by
    unfold forEachChild at h
    split at h
    · cases h
      exact Released.refl X s
    · cases pos with
      | children c => cases h
      | siblings c =>
        simp only [Option.bind_eq_bind, Option.bind_eq_some_iff] at h
        obtain ⟨s₁, h₁, next, -, h₂⟩ := h
        exact ((hbody c s s₁ h₁).trans (released_follow X s₁ c)).trans
          (forEachChild_released hbody h₂)

theorem freeDescriptor_released (h : freeDescriptor p s = some s') : Released (· = p) s s' := by
  unfold freeDescriptor at h
  simp only [Option.bind_eq_bind, Option.bind_eq_some_iff, Option.some.injEq] at h
  obtain ⟨idle, -, tree₁, -, tree₂, -, tree₃, -, procs, -, rfl⟩ := h
  refine ⟨rfl, fun q => ?_⟩
  unfold Sys.setDesc
  by_cases hq : q = p
  · subst hq
    simp only [Function.update_self]
    exact ⟨rfl, rfl, rfl, rfl, .inr ⟨rfl, .inr rfl⟩⟩
  · simp only [Function.update_of_ne hq]
    exact ⟨rfl, rfl, rfl, rfl, .inl rfl⟩

/-- **`releaseProcess` releases the process, and else only zombies.** -/
theorem releaseProcess_released : ∀ {n : Nat} {p : PID} {s s' : Sys},
    releaseProcess n p s = some s' → Released (· = p) s s'
  | 0, _, _, _, h => by cases h
  | n + 1, p, s, s', h => by
    unfold releaseProcess at h
    simp only [Option.bind_eq_bind, Option.bind_eq_some_iff] at h
    obtain ⟨first, -, s₁, h₁, h₂⟩ := h
    refine (forEachChild_released (fun c t t' hc => ?_) h₁).trans (freeDescriptor_released h₂)
    rw [Option.map_eq_some_iff] at hc
    obtain ⟨t₁, ht₁, rfl⟩ := hc
    refine Released.trans ?_ (released_setParent _ _ _ _)
    split at ht₁
    · rename_i hz
      refine (releaseProcess_released ht₁).mono fun q hq => ?_
      subst hq
      exact .inl hz
    · cases ht₁
      exact Released.refl _ _

/-! ## Killing -/

structure CulledDesc (X : PID → Prop) (current q : PID) (d d' : Descriptor) : Prop where
  leader : d'.thread_leader = d.thread_leader
  wake : d'.wake_up_time = d.wake_up_time
  state : d'.state = d.state ∨ q = current ∧ d'.state = .ZOMBIE
  allocated : d'.allocated = d.allocated ∨
    d'.allocated = false ∧ (d.state = .ZOMBIE ∨ X q ∨ q = current)

structure Culled (X : PID → Prop) (s s' : Sys) : Prop where
  same : s' = s.withProcesses s'
  desc : ∀ q, CulledDesc X s.current q (s.desc q) (s'.desc q)

theorem Released.culled (h : Released X s s') : Culled X s s' :=
  ⟨h.same, fun q =>
    have hq := h.desc q
    ⟨hq.leader, hq.wake, .inl hq.state, hq.allocated.imp_right fun ha => ⟨ha.1, ha.2.imp_right .inl⟩⟩⟩

theorem Culled.refl (X : PID → Prop) (s : Sys) : Culled X s s := (Released.refl X s).culled

theorem Culled.current (h : Culled X s s') : s'.current = s.current := by
  rw [h.same]
  rfl

theorem Culled.groups (h : Culled X s s') : s'.groups = s.groups := by
  rw [h.same]
  rfl

theorem Culled.trans (h : Culled X s s₁) (h' : Culled X s₁ s') : Culled X s s' := by
  refine ⟨?_, fun q => ?_⟩
  · have h₁ := h.same
    have h₂ := h'.same
    rw [h₂, h₁]
    rfl
  · have hq := h.desc q
    have hq' := h'.desc q
    rw [h.current] at hq'
    refine ⟨hq'.leader.trans hq.leader, hq'.wake.trans hq.wake, ?_, ?_⟩
    · rcases hq'.state with hs' | hs'
      · rcases hq.state with hs | hs
        · exact .inl (hs'.trans hs)
        · exact .inr ⟨hs.1, hs'.trans hs.2⟩
      · exact .inr hs'
    · rcases hq'.allocated with ha' | ⟨ha', hz'⟩
      · rw [ha']
        exact hq.allocated
      · refine .inr ⟨ha', ?_⟩
        rcases hz' with hz' | hX
        · rcases hq.state with hs | hs
          · rw [hs] at hz'
            exact .inl hz'
          · exact .inr (.inr hs.1)
        · exact .inr hX

theorem Culled.mono (h : Culled X s s')
    (hXY : ∀ q, X q → (s.desc q).state = .ZOMBIE ∨ Y q ∨ q = s.current) : Culled Y s s' :=
  ⟨h.same, fun q =>
    have hq := h.desc q
    ⟨hq.leader, hq.wake, hq.state, hq.allocated.imp_right fun ha => ⟨ha.1, by
      rcases ha.2 with hz | hX | hc
      · exact .inl hz
      · exact hXY q hX
      · exact .inr (.inr hc)⟩⟩⟩

/-! ## Groups -/

/-- The leader of the group whose list a node is on. -/
def groupOf (s : Sys) : GroupNode → Option PID
  | .thread_group p => some p
  | .thread_peers t => (s.desc t).thread_leader

/-- Links between threads do not leave their group, and threads have no threads of their own. -/
structure GroupsOk (s : Sys) : Prop where
  next : ∀ a b, s.groups.next a = some b → a = b ∨ groupOf s a = groupOf s b ∧ (groupOf s a).isSome
  prev : ∀ a b, s.groups.prev a = some b → a = b ∨ groupOf s a = groupOf s b ∧ (groupOf s a).isSome
  leader : ∀ t p, (s.desc t).thread_leader = some p → (s.desc p).thread_leader = none

theorem GroupsOk.congr (h : GroupsOk s) (hgroups : s'.groups = s.groups)
    (hleader : ∀ q, (s'.desc q).thread_leader = (s.desc q).thread_leader) : GroupsOk s' := by
  have hof : groupOf s' = groupOf s := by
    funext a
    cases a with
    | thread_group p => rfl
    | thread_peers t => exact hleader t
  refine ⟨fun a b hab => ?_, fun a b hab => ?_, fun t p ht => ?_⟩
  · rw [hof]
    exact h.next a b (by rw [← hgroups]; exact hab)
  · rw [hof]
    exact h.prev a b (by rw [← hgroups]; exact hab)
  · rw [hleader] at ht ⊢
    exact h.leader t p ht

theorem Culled.groupsOk (h : Culled X s s') (hg : GroupsOk s) : GroupsOk s' :=
  hg.congr h.groups fun q => (h.desc q).leader

/-- A walk over the threads of `p` meets only threads of `p`; `L` is who leads whom. -/
theorem forEachThread_culled {L : PID → Option PID} {body : PID → Sys → Option Sys}
    (hbody : ∀ t s s', GroupsOk s → (∀ q, (s.desc q).thread_leader = L q) → L t = some p →
      body t s = some s' → Culled X s s') :
    ∀ {n : Nat} {pos : GroupNode} {s s' : Sys}, GroupsOk s →
      (∀ q, (s.desc q).thread_leader = L q) → groupOf s pos = some p →
      forEachThread (.thread_group p) body n pos s = some s' → Culled X s s'
  | 0, _, _, _, _, _, _, h => by cases h
  | n + 1, pos, s, s', hg, hL, hpos, h => by
    unfold forEachThread at h
    split at h
    · cases h
      exact Culled.refl X s
    · cases pos with
      | thread_group t => cases h
      | thread_peers t =>
        simp only [Option.bind_eq_bind, Option.bind_eq_some_iff] at h
        obtain ⟨s₁, h₁, next, hnext, h₂⟩ := h
        have ht : L t = some p := (hL t).symm.trans hpos
        have hc := (hbody t s s₁ hg hL ht h₁).trans (released_follow X s₁ t).culled
        have hg₂ := hc.groupsOk hg
        have hL₂ : ∀ q, ((s₁.follow t).desc q).thread_leader = L q :=
          fun q => ((hc.desc q).leader).trans (hL q)
        have hpos' : groupOf (s₁.follow t) (.thread_peers t) = some p := (hL₂ t).trans ht
        have hnext' : groupOf (s₁.follow t) next = some p := by
          rcases hg₂.next _ _ hnext with he | ⟨he, -⟩
          · rw [← he]
            exact hpos'
          · rw [← he]
            exact hpos'
        exact hc.trans (forEachThread_culled hbody hg₂ hL₂ hnext' h₂)

/-- **A walk over a list that stays as it is keeps what each of its rounds keeps.** -/
theorem forEachThread_rule {all : List PID} {I : List PID → Sys → Prop} {head : GroupNode}
    {body : PID → Sys → Option Sys} {groups : Ring.Heap GroupNode}
    (hhead : ∀ t, head ≠ .thread_peers t) (hgroups : ∀ done u, I done u → u.groups = groups)
    (hround : ∀ done z u u', z ∈ all → z ∉ done → I done u → body z u = some u' →
      I (z :: done) (u'.follow z)) :
    ∀ (todo : List PID) (n : Nat) (done : List PID) (pos : GroupNode) (u u' : Sys), I done u →
      (todo.map GroupNode.thread_peers ++ [head]).head? = some pos →
      (todo.map GroupNode.thread_peers ++ [head]).IsChain (fun a b => groups.next a = some b) →
      todo.Nodup → (∀ t ∈ todo, t ∈ all ∧ t ∉ done) →
      forEachThread head body n pos u = some u' → I (todo.reverse ++ done) u' := by
  intro todo
  induction todo with
  | nil =>
    intro n done pos u u' hI hfirst _ _ _ hrun
    cases hfirst
    cases n with
    | zero => cases hrun
    | succ n =>
      unfold forEachThread at hrun
      rw [if_pos rfl] at hrun
      cases hrun
      exact hI
  | cons z todo ih =>
    intro n done pos u u' hI hfirst hchain hnodup htodo hrun
    cases hfirst
    cases n with
    | zero => cases hrun
    | succ n =>
      obtain ⟨next, rest, hrest⟩ : ∃ next rest,
          todo.map GroupNode.thread_peers ++ [head] = next :: rest := by
        cases todo with
        | nil => exact ⟨_, [], rfl⟩
        | cons d todo => exact ⟨_, _, rfl⟩
      rw [List.map_cons, List.cons_append, hrest] at hchain
      obtain ⟨hlink, hchain⟩ := List.isChain_cons_cons.mp hchain
      obtain ⟨hall, hdone⟩ := htodo z List.mem_cons_self
      rw [List.nodup_cons] at hnodup
      unfold forEachThread at hrun
      rw [if_neg (hhead z).symm] at hrun
      simp only [Option.bind_eq_bind, Option.bind_eq_some_iff] at hrun
      obtain ⟨u₁, hbody, next', hnext, hrun⟩ := hrun
      have hI₁ := hround done z u u₁ hall hdone hI hbody
      rw [hgroups _ _ hI₁, hlink] at hnext
      cases hnext
      rw [← hrest] at hchain
      have htail := ih n (z :: done) next _ u' hI₁ (by rw [hrest]; rfl) hchain hnodup.2
        (fun t ht => ?_) hrun
      · rw [List.reverse_cons, List.append_assoc]
        exact htail
      · obtain ⟨ht', hd⟩ := htodo t (List.mem_cons_of_mem _ ht)
        refine ⟨ht', ?_⟩
        rw [List.mem_cons, not_or]
        refine ⟨?_, hd⟩
        rintro rfl
        exact hnodup.1 ht

theorem giveChildren_released (X : PID → Prop) (h : giveChildren p s = some s') : Released X s s' := by
  unfold giveChildren at h
  simp only [Option.bind_eq_bind, Option.bind_eq_some_iff] at h
  obtain ⟨empty, -, h⟩ := h
  split at h
  · cases h
    exact Released.refl X s
  · simp only [Option.bind_eq_some_iff, Option.some.injEq] at h
    obtain ⟨parent, -, tree, -, rfl⟩ := h
    exact ⟨rfl, fun _ => ⟨rfl, rfl, rfl, rfl, .inl rfl⟩⟩

/-- **Killing a process releases zombies and its threads, and makes at most the running process a
zombie.** -/
theorem killProcess_culled : ∀ {n : Nat} {p : PID} {status : Int} {s s' : Sys} {r : Option PID},
    GroupsOk s → killProcess n p status s = some (r, s') →
      Culled (fun t => (s.desc t).thread_leader = some p) s s'
  | 0, _, _, _, _, _, _, h => by cases h
  | n + 1, p, status, s, s', r, hg, h => by
    unfold killProcess at h
    split at h
    · simp only [Option.some.injEq, Prod.mk.injEq] at h
      obtain ⟨-, rfl⟩ := h
      exact Culled.refl _ _
    · simp only [Option.bind_eq_bind, Option.bind_eq_some_iff, Option.some.injEq,
        Prod.mk.injEq] at h
      obtain ⟨r', -, first, -, s₁, h₁, s₂, h₂, firstThread, hfirst, s₃, h₃, -, rfl⟩ := h
      -- the children
      have hc₁ : Culled (fun t => (s.desc t).thread_leader = some p) s s₁ := by
        refine (forEachChild_released (fun c t t' hc => ?_) h₁).culled
        split at hc
        · rename_i hz
          refine (releaseProcess_released hc).mono fun q hq => ?_
          subst hq
          exact .inl hz
        · cases hc
          exact released_setParent _ _ _ _
      have hc₂ := hc₁.trans (giveChildren_released _ h₂).culled
      have hg₂ := hc₂.groupsOk hg
      have hleader : ∀ q, (s₂.desc q).thread_leader = (s.desc q).thread_leader :=
        fun q => (hc₂.desc q).leader
      -- the threads
      have hgroup : groupOf s₂ firstThread = some p := by
        rcases hg₂.next _ _ hfirst with he | ⟨he, -⟩
        · rw [← he]
          rfl
        · rw [← he]
          rfl
      have hc₃ : Culled (fun t => (s.desc t).thread_leader = some p) s₂ s₃ := by
        refine forEachThread_culled (L := fun q => (s.desc q).thread_leader) ?_ hg₂ hleader hgroup h₃
        intro t u u' hu hL ht hrun
        simp only [Option.bind_eq_some_iff] at hrun
        obtain ⟨⟨r₁, u₁⟩, hkill, hrelease⟩ := hrun
        have hk := killProcess_culled hu hkill
        have hr := (releaseProcess_released hrelease).culled
        have hp : (u.desc p).thread_leader = none := hu.leader t p ((hL t).trans ht)
        refine (hk.mono fun q hq => ?_).trans (hr.mono fun q hq => ?_)
        · -- a thread has no threads
          have := hu.leader q t hq
          rw [hL, ht] at this
          cases this
        · subst hq
          exact .inr (.inl ht)
      refine (hc₂.trans hc₃).trans ⟨rfl, fun q => ?_⟩
      unfold Sys.setDesc
      by_cases hq : q = s₃.current
      · subst hq
        simp only [Function.update_self]
        exact ⟨rfl, rfl, .inr ⟨rfl, rfl⟩, .inl rfl⟩
      · simp only [Function.update_of_ne hq]
        exact ⟨rfl, rfl, .inl rfl, .inl rfl⟩

/-! ## What an exit leaves alone -/

/-- Nothing has changed but descriptors and lists of processes. -/
def Kept (s s' : Sys) : Prop := s' = s.withProcesses s'

theorem Kept.refl (s : Sys) : Kept s s := rfl

theorem Kept.trans (h : Kept s s₁) (h' : Kept s₁ s') : Kept s s' := by
  unfold Kept at h h' ⊢
  rw [h', h]
  rfl

theorem Culled.any (h : Culled X s s') : Culled (fun _ => True) s s' :=
  h.mono fun _ _ => .inr (.inl True.intro)

theorem Released.any (h : Released X s s') : Culled (fun _ => True) s s' := h.culled.any

theorem exitRules_culled : ExitRules (Culled fun _ => True) where
  refl := Culled.refl _
  trans := Culled.trans
  follow s p := (released_follow (fun _ => True) s p).culled
  setParent s p parent := (released_setParent (fun _ => True) s p parent).culled
  free h := (freeDescriptor_released h).any
  give h := (giveChildren_released (fun _ => True) h).culled
  zombie s status := by
    refine ⟨rfl, fun q => ?_⟩
    unfold Sys.setDesc
    by_cases hq : q = s.current
    · subst hq
      simp only [Function.update_self]
      exact ⟨rfl, rfl, .inr ⟨rfl, rfl⟩, .inl rfl⟩
    · simp only [Function.update_of_ne hq]
      exact ⟨rfl, rfl, .inl rfl, .inl rfl⟩

/-- Whatever the lists of threads look like. -/
theorem killProcess_any {r : Option PID} (h : killProcess n p status s = some (r, s')) :
    Culled (fun _ => True) s s' :=
  exitRules_culled.killProcess h

/-- The switch at the end of an exit. -/
theorem killKernelContext_culled {pa pb : PID} (h : killKernelContext n pa pb s = some s') :
    s'.current = pb ∧ Culled (fun _ => True) s { s' with current := s.current } := by
  unfold killKernelContext at h
  dsimp only at h
  have hrefl : Culled (fun _ => True) s s := Culled.refl _ s
  split at h
  · simp only [Option.bind_eq_bind, Option.bind_eq_some_iff] at h
    obtain ⟨parent, -, h⟩ := h
    split at h
    · have hr := (releaseProcess_released h).any
      refine ⟨hr.current, ?_, fun q => ?_⟩
      · have hsame := hr.same
        rw [hsame]
        rfl
      · have hq := (releaseProcess_released h).desc q
        exact ⟨hq.leader, hq.wake, .inl hq.state,
          hq.allocated.imp_right fun hf => ⟨hf.1, .inr (.inl True.intro)⟩⟩
    · cases h
      exact ⟨rfl, hrefl⟩
  · cases h
    exact ⟨rfl, hrefl⟩

/-- **An exit ends back in the caller, or in another process.** -/
theorem Step.exit_culled (h : Step s (.exit status) s') : ∃ t, Culled (fun _ => True) s t ∧
    (s' = t.setCont t.current .user ∨ ∃ q, s' = { t with current := q }) := by
  obtain ⟨-, n, hend⟩ := h
  have hrun : handle n s (.exit status) = killCurrentProcess n status s := rfl
  rw [hrun] at hend
  unfold killCurrentProcess at hend
  cases hk : killProcess n s.current status s with
  | none =>
    rw [hk] at hend
    cases hend
  | some x =>
    obtain ⟨r, s₁⟩ := x
    rw [hk] at hend
    cases r with
    | none =>
      cases hend
      exact ⟨s₁, killProcess_any hk, .inl rfl⟩
    | some q =>
      dsimp only at hend
      cases hkk : killKernelContext n s.current q s₁ with
      | none =>
        rw [hkk] at hend
        cases hend
      | some s₂ =>
        rw [hkk] at hend
        cases hend
        exact ⟨{ s' with current := s₁.current },
          (killProcess_any hk).trans (killKernelContext_culled hkk).2, .inr ⟨s'.current, rfl⟩⟩

/-- **An exit changes descriptors and lists of processes, and who runs.** -/
theorem Step.exit_kept (h : Step s (.exit status) s') : ∃ t, Kept s t ∧
    (s' = t.setCont t.current .user ∨ ∃ q, s' = { t with current := q }) :=
  let ⟨t, hcull, hend⟩ := h.exit_culled
  ⟨t, hcull.same, hend⟩

end Yalnix.System
