import Yalnix.Core.Confined
import Yalnix.System.Exits

/-!
# Lists of children that nothing leads to

After an exit no link leads to the head of the list of children of the process any more, and the head
itself leads to itself, or among the children of others, from where there is no way back.

* `Near H A` — the nodes of the processes in `A`, without the heads of those in `H`.
* `Isolated s H A first` — links do not lead out of `Near H A`, and the head of `P` in `H` leads to
  `first P`.
* `freeDescriptor_isolated`, `releaseProcess_isolated`, `killProcess_isolated` — releases and exits
  keep it.
* `Isolated.never_released` — the release of a process whose list leads elsewhere does not come to an
  end.
-/

set_option autoImplicit false

namespace Yalnix.System

open Ring (Heap IsRing Linked)

variable {s s' s₁ : Sys} {n m : Nat} {p q c z P : PID} {H A : PID → Prop} {first : PID → TreeNode}
  {status : Int}

/-! ## The nodes -/

/-- The nodes of the processes in `A`, but for the lists of children of those in `H`.  Process 1 is
nobody's child. -/
def Near (H A : PID → Prop) : TreeNode → Prop
  | .children q => A q ∧ ¬ H q
  | .siblings q => A q ∧ q ≠ 1

/-- The nodes of the process list. -/
def Enlisted (A : PID → Prop) : ProcNode → Prop
  | .process_head => True
  | .process_list q => A q

/-- Process 1 is the first on the process list. -/
structure IdleFirst (procs : Heap ProcNode) : Prop where
  first : procs.next .process_head = some (.process_list 1)
  only : ∀ x, x ≠ .process_list 1 → procs.prev x ≠ some .process_head

structure Isolated (s : Sys) (H A : PID → Prop) (first : PID → TreeNode) : Prop where
  member : ∀ P, H P → A P ∧ P ≠ 1 ∧ (s.desc P).thread_leader = none
  root : A 1 ∧ (s.desc 1).parent = none ∧ (s.desc 1).thread_leader = none
  head : ∀ P, H P → s.tree.next (.children P) = some (first P)
  aim : ∀ P, H P → IsRing s.tree (.children P) [] ∨ Near H A (first P)
  tree : Confined (Near H A) s.tree
  procs : Confined (Enlisted A) s.procs
  idle : IdleFirst s.procs
  parent : ∀ q g, A q → (s.desc q).parent = some g → A g ∧ ¬ H g

theorem not_near_children (hP : H P) : ¬ Near H A (.children P) := fun h => h.2 hP

/-! ## The first process -/

theorem IdleFirst.insertNode {procs procs' : Heap ProcNode} {node b : ProcNode}
    (h : IdleFirst procs) (hb : b ≠ .process_head) (hnode : node ≠ .process_head)
    (hi : insertNode node b procs = some procs') : IdleFirst procs' := by
  obtain ⟨y, -, hn, hp, -⟩ := insertNode_some hi
  refine ⟨?_, fun x hx => ?_⟩
  · rw [hn, Function.update_of_ne hb.symm, Function.update_of_ne hnode.symm]
    exact h.first
  · rw [hp]
    rcases eq_or_ne x node with rfl | hxn
    · rw [Function.update_self]
      simpa using hb
    · rw [Function.update_of_ne hxn]
      rcases eq_or_ne x y with rfl | hxy
      · rw [Function.update_self]
        simpa using hnode
      · rw [Function.update_of_ne hxy]
        exact h.only x hx

theorem IdleFirst.addLastNode {procs procs' : Heap ProcNode} {node : ProcNode}
    (h : IdleFirst procs) (hnode : node ≠ .process_head)
    (hi : addLastNode node .process_head procs = some procs') : IdleFirst procs' := by
  unfold Yalnix.addLastNode at hi
  obtain ⟨b, hb, hi⟩ := Option.bind_eq_some_iff.mp hi
  refine h.insertNode ?_ hnode hi
  rintro rfl
  exact h.only _ (by simp) hb

theorem IdleFirst.removeNode {procs procs' : Heap ProcNode} (h : IdleFirst procs) (hz : z ≠ 1)
    (hr : removeNode (.process_list z) procs = some procs') : IdleFirst procs' := by
  obtain ⟨prev, next, hprev, -, hn, hp, -⟩ := removeNode_some hr
  have hne : prev ≠ .process_head := by
    rintro rfl
    exact h.only _ (by simpa using hz) hprev
  refine ⟨?_, fun x hx => ?_⟩
  · rw [hn, Function.update_of_ne hne.symm]
    exact h.first
  · rw [hp]
    rcases eq_or_ne x next with rfl | hxn
    · rw [Function.update_self]
      simpa using hne
    · rw [Function.update_of_ne hxn]
      exact h.only x hx

theorem IdleFirst.linkedListNodeInit {procs : Heap ProcNode} (h : IdleFirst procs) (q : PID) :
    IdleFirst (linkedListNodeInit (.process_list q) procs) := by
  refine ⟨?_, fun x hx => ?_⟩
  · rw [linkedListNodeInit_next, Function.update_of_ne (by simp)]
    exact h.first
  · rw [linkedListNodeInit_prev]
    rcases eq_or_ne x (.process_list q) with rfl | hxq
    · rw [Function.update_self]
      simp
    · rw [Function.update_of_ne hxq]
      exact h.only x hx

theorem IdleFirst.getIdleProcess (h : IdleFirst s.procs) : getIdleProcess s = some 1 := by
  unfold Yalnix.System.getIdleProcess
  rw [h.first]

/-! ## What is not about lists -/

theorem Isolated.congr (h : Isolated s H A first) (htree : s'.tree = s.tree)
    (hprocs : s'.procs = s.procs) (hdesc : ∀ q, (s'.desc q).parent = (s.desc q).parent ∧
      (s'.desc q).thread_leader = (s.desc q).thread_leader) : Isolated s' H A first := by
  refine ⟨fun P hP => ?_, ⟨h.root.1, ?_, ?_⟩, ?_, ?_, ?_, ?_, ?_, fun q g hq hg => ?_⟩
  · rw [(hdesc P).2]
    exact h.member P hP
  · rw [(hdesc 1).1]
    exact h.root.2.1
  · rw [(hdesc 1).2]
    exact h.root.2.2
  · rw [htree]
    exact h.head
  · rw [htree]
    exact h.aim
  · rw [htree]
    exact h.tree
  · rw [hprocs]
    exact h.procs
  · rw [hprocs]
    exact h.idle
  · rw [(hdesc q).1] at hg
    exact h.parent q g hq hg

theorem Isolated.follow (h : Isolated s H A first) (p : PID) : Isolated (s.follow p) H A first := by
  unfold Sys.follow
  split
  · exact h
  · exact h.congr rfl rfl fun _ => ⟨rfl, rfl⟩

theorem Isolated.expire (h : Isolated s H A first) (status : Int) :
    Isolated (s.expire status) H A first :=
  h.congr rfl rfl fun q => (expire_kin s status q).2

theorem Isolated.setParent (h : Isolated s H A first) (hc : c ≠ 1) {parent : Option PID}
    (hparent : ∀ g, parent = some g → A g ∧ ¬ H g) : Isolated (s.setParent c parent) H A first := by
  have hother : ∀ q, q ≠ c → (s.setParent c parent).desc q = s.desc q := fun q hq =>
    Function.update_of_ne hq _ _
  have hself : (s.setParent c parent).desc c = { s.desc c with parent := parent } :=
    Function.update_self _ _ _
  refine ⟨fun P hP => ?_, ⟨h.root.1, ?_, ?_⟩, h.head, h.aim, h.tree, h.procs, h.idle,
    fun q g hq hg => ?_⟩
  · rcases eq_or_ne P c with rfl | hPc
    · rw [hself]
      exact h.member P hP
    · rw [hother P hPc]
      exact h.member P hP
  · rw [hother 1 hc.symm]
    exact h.root.2.1
  · rw [hother 1 hc.symm]
    exact h.root.2.2
  · rcases eq_or_ne q c with rfl | hqc
    · rw [hself] at hg
      exact hparent g hg
    · rw [hother q hqc] at hg
      exact h.parent q g hq hg

/-- The links change among nodes near by. -/
theorem Isolated.inside (h : Isolated s H A first) {tree : Heap TreeNode}
    (hi : Inside (Near H A) s.tree tree) : Isolated { s with tree := tree } H A first := by
  refine ⟨h.member, h.root, fun P hP => ?_, fun P hP => ?_, hi.confined, h.procs, h.idle, h.parent⟩
  · exact (hi.next _ (not_near_children hP)).trans (h.head P hP)
  · rcases h.aim P hP with hself | hnear
    · left
      refine hself.congr (fun x hx => ?_) fun x hx => ?_
      all_goals rw [List.mem_singleton.mp hx]
      · exact hi.next _ (not_near_children hP)
      · exact hi.prev _ (not_near_children hP)
    · exact .inr hnear

/-! ## A release -/

/-- **A process is freed, if its list leads to itself or is near by.** -/
theorem freeDescriptor_isolated (h : Isolated s H A first) (hz : A z) (hz1 : z ≠ 1)
    (hself : H z → IsRing s.tree (.children z) []) (hf : freeDescriptor z s = some s') :
    Isolated s' H A first := by
  unfold freeDescriptor at hf
  rw [h.idle.getIdleProcess] at hf
  simp only [Option.bind_eq_bind, Option.bind_some, Option.bind_eq_some_iff, Option.some.injEq] at hf
  obtain ⟨tree₁, hs, tree₂, hr, tree₃, hr', procs, hp, rfl⟩ := hf
  have hnode : Near H A (.siblings z) := ⟨hz, hz1⟩
  have hlisted : Enlisted A (.process_list z) := hz
  have hi₂ : Inside (Near H A) s.tree tree₂ := by
    by_cases hH : H z
    · -- nothing is spliced, and the node is taken off its own list
      rw [spliceLinkedLists_empty (Ring.isRing_nil.mp (hself hH)).1] at hs
      cases hs
      have hsame := removeNode_self (hself hH) hr
      subst hsame
      exact .refl h.tree
    · have hhead : Near H A (.children z) := ⟨hz, hH⟩
      have hroot : Near H A (.children 1) := ⟨h.root.1, fun h1 => (h.member 1 h1).2.1 rfl⟩
      have hi₁ := h.tree.spliceLinkedLists hhead hroot hs
      exact hi₁.trans (hi₁.confined.removeNode hhead hr)
  have hafter := h.inside (hi₂.trans (hi₂.confined.removeNode hnode hr'))
  have hprocs := h.procs.removeNode hlisted hp
  have hdesc : ∀ q, (Function.update s.desc z { s.desc z with allocated := false } q).parent =
      (s.desc q).parent ∧ (Function.update s.desc z { s.desc z with allocated := false } q).thread_leader =
      (s.desc q).thread_leader := by
    intro q
    rcases eq_or_ne q z with rfl | hq
    · rw [Function.update_self]
      exact ⟨rfl, rfl⟩
    · rw [Function.update_of_ne hq]
      exact ⟨rfl, rfl⟩
  refine ⟨fun P hP => ?_, ⟨h.root.1, ?_, ?_⟩, hafter.head, hafter.aim, hafter.tree, hprocs.confined,
    h.idle.removeNode hz1 hp, fun q g hq hg => ?_⟩
  · obtain ⟨hA, h1, hl⟩ := h.member P hP
    exact ⟨hA, h1, (hdesc P).2.trans hl⟩
  · exact (hdesc 1).1.trans h.root.2.1
  · exact (hdesc 1).2.trans h.root.2.2
  · exact h.parent q g hq ((hdesc q).1.symm.trans hg)

/-- A walk over nodes near by does not come to the head of an isolated list. -/
theorem forEachChild_isolated {head : TreeNode} {body : PID → Sys → Option Sys}
    (hbody : ∀ c s s', Isolated s H A first → A c → c ≠ 1 → body c s = some s' →
      Isolated s' H A first) :
    ∀ {n : Nat} {pos : TreeNode} {s s' : Sys}, Isolated s H A first → Near H A pos →
      forEachChild head body n pos s = some s' → Isolated s' H A first ∧ Near H A head
  | 0, _, _, _, _, _, h => by cases h
  | n + 1, pos, s, s', hs, hpos, h => by
    unfold forEachChild at h
    split at h
    · rename_i he
      cases h
      rw [he] at hpos
      exact ⟨hs, hpos⟩
    · cases pos with
      | children c => cases h
      | siblings c =>
        simp only [Option.bind_eq_bind, Option.bind_eq_some_iff] at h
        obtain ⟨s₁, h₁, next, hnext, h₂⟩ := h
        have hi := (hbody c s s₁ hs hpos.1 hpos.2 h₁).follow c
        exact forEachChild_isolated hbody hi (hi.tree.next _ _ hpos hnext) h₂

/-- **A release keeps isolated lists so, and none is released that leads elsewhere.** -/
theorem releaseProcess_isolated : ∀ {n : Nat} {z : PID} {s s' : Sys}, Isolated s H A first → A z →
    z ≠ 1 → releaseProcess n z s = some s' → Isolated s' H A first ∧ (H z → ¬ Near H A (first z))
  | 0, _, _, _, _, _, _, h => by cases h
  | n + 1, z, s, s', hs, hz, hz1, h => by
    have hstart := h
    unfold releaseProcess at h
    simp only [Option.bind_eq_bind, Option.bind_eq_some_iff] at h
    obtain ⟨pos, hpos, s₁, h₁, h₂⟩ := h
    have hbody : ∀ c u u', Isolated u H A first → A c → c ≠ 1 →
        ((if (u.desc c).state = .ZOMBIE then releaseProcess n c u else some u).map
          fun u => u.setParent c (u.desc z).parent) = some u' → Isolated u' H A first := by
      intro c u u' hu hc hc1 hrun
      obtain ⟨u₁, hu₁, rfl⟩ := Option.map_eq_some_iff.mp hrun
      have hi : Isolated u₁ H A first := by
        split at hu₁
        · exact (releaseProcess_isolated hu hc hc1 hu₁).1
        · cases hu₁
          exact hu
      exact hi.setParent hc1 fun g hg => hi.parent z g hz hg
    by_cases hH : H z
    · have hpos' : pos = first z := Option.some.inj (hpos.symm.trans (hs.head z hH))
      subst hpos'
      have hfar : ¬ Near H A (first z) := fun hnear =>
        not_near_children hH (forEachChild_isolated hbody hs hnear h₁).2
      have hring := (hs.aim z hH).resolve_right hfar
      exact ⟨freeDescriptor_isolated hs hz hz1 (fun _ => hring) (releaseProcess_childless hring hstart),
        fun _ => hfar⟩
    · have hhead : Near H A (.children z) := ⟨hz, hH⟩
      have hi := (forEachChild_isolated hbody hs (hs.tree.next _ _ hhead hpos) h₁).1
      exact ⟨freeDescriptor_isolated hi hz hz1 (fun h' => absurd h' hH) h₂, fun h' => absurd h' hH⟩

/-- **The release of a process whose list leads elsewhere does not come to an end.** -/
theorem Isolated.never_released (h : Isolated s H A first) (hP : H P) (hfirst : Near H A (first P))
    (n : Nat) : releaseProcess n P s = none := by
  cases hrun : releaseProcess n P s with
  | none => rfl
  | some s' =>
    obtain ⟨hA, h1, -⟩ := h.member P hP
    exact absurd hfirst ((releaseProcess_isolated h hA h1 hrun).2 hP)

/-! ## An exit -/

/-- Another process gives its children away. -/
theorem giveChildren_isolated (h : Isolated s H A first) (hp : A p) (hpH : ¬ H p)
    (hg : giveChildren p s = some s') : Isolated s' H A first := by
  unfold giveChildren at hg
  simp only [Option.bind_eq_bind, Option.bind_eq_some_iff] at hg
  obtain ⟨empty, -, hg⟩ := hg
  split at hg
  · cases hg
    exact h
  · simp only [Option.bind_eq_some_iff, Option.some.injEq] at hg
    obtain ⟨parent, hparent, tree, hs, rfl⟩ := hg
    have hhead : Near H A (.children p) := ⟨hp, hpH⟩
    have htaker : Near H A (.children parent) := h.parent p parent hp hparent
    exact h.inside (h.tree.spliceLinkedLists hhead htaker hs)

/-- A walk over the threads of `p`; `L` is who leads whom. -/
theorem forEachThread_isolated {L : PID → Option PID} {body : PID → Sys → Option Sys} {X : PID → Prop}
    (hbody : ∀ t s s', Isolated s H A first → GroupsOk s → (∀ q, (s.desc q).thread_leader = L q) →
      L t = some p → body t s = some s' → Isolated s' H A first)
    (hculled : ∀ t s s', body t s = some s' → Culled X s s') :
    ∀ {n : Nat} {pos : GroupNode} {s s' : Sys}, Isolated s H A first → GroupsOk s →
      (∀ q, (s.desc q).thread_leader = L q) → groupOf s pos = some p →
      forEachThread (.thread_group p) body n pos s = some s' → Isolated s' H A first
  | 0, _, _, _, _, _, _, _, h => by cases h
  | n + 1, pos, s, s', hs, hg, hL, hpos, h => by
    unfold forEachThread at h
    split at h
    · cases h
      exact hs
    · cases pos with
      | thread_group t => cases h
      | thread_peers t =>
        simp only [Option.bind_eq_bind, Option.bind_eq_some_iff] at h
        obtain ⟨s₁, h₁, next, hnext, h₂⟩ := h
        have ht : L t = some p := (hL t).symm.trans hpos
        have hc := (hculled t s s₁ h₁).trans (released_follow X s₁ t).culled
        have hg₂ := hc.groupsOk hg
        have hL₂ : ∀ q, ((s₁.follow t).desc q).thread_leader = L q :=
          fun q => ((hc.desc q).leader).trans (hL q)
        have hpos' : groupOf (s₁.follow t) (.thread_peers t) = some p := (hL₂ t).trans ht
        have hnext' : groupOf (s₁.follow t) next = some p := by
          rcases hg₂.next _ _ hnext with he | ⟨he, -⟩
          · rw [← he]
            exact hpos'
          · rw [← he]
            exact hpos'
        exact forEachThread_isolated hbody hculled ((hbody t s s₁ hs hg hL ht h₁).follow t) hg₂ hL₂
          hnext' h₂

theorem killThread_culled (h : killThread n z s = some s') : Culled (fun _ => True) s s' := by
  unfold killThread at h
  obtain ⟨⟨r, s₁⟩, hkill, hrelease⟩ := Option.bind_eq_some_iff.mp h
  exact (killProcess_any hkill).trans (releaseProcess_released hrelease).any

theorem killChild_released (h : killChild n p c s = some s') : Released (fun _ => True) s s' := by
  unfold killChild at h
  split at h
  · exact (releaseProcess_released h).mono fun _ _ => .inr True.intro
  · cases h
    exact released_setParent _ _ _ _

/-- The threads of `p`, if an exit of each of them is all right. -/
theorem killThreads_isolated (hkill : ∀ t s s' r, Isolated s H A first → GroupsOk s → A t → ¬ H t →
      (∀ x, (s.desc x).thread_leader = some t → A x) →
      killProcess n t (-1) s = some (r, s') → Isolated s' H A first)
    (hs : Isolated s H A first) (hg : GroupsOk s)
    (hthreads : ∀ t, (s.desc t).thread_leader = some p → A t) {pos : GroupNode}
    (hpos : s.groups.next (.thread_group p) = some pos)
    (hrun : forEachThread (.thread_group p) (killThread n) m pos s = some s') :
    Isolated s' H A first := by
  have hgroup : groupOf s pos = some p := by
    rcases hg.next _ _ hpos with he | ⟨he, -⟩
    · rw [← he]
      rfl
    · rw [← he]
      rfl
  refine forEachThread_isolated (L := fun q => (s.desc q).thread_leader) ?_
    (fun t u u' => killThread_culled) hs hg (fun _ => rfl) hgroup hrun
  intro t u u' hu hgu hL ht hbody
  unfold killThread at hbody
  obtain ⟨⟨r, u₁⟩, hk, hr⟩ := Option.bind_eq_some_iff.mp hbody
  have htA := hthreads t ht
  have htl : (u.desc t).thread_leader = some p := (hL t).trans ht
  have htH : ¬ H t := by
    intro hH
    have := (hu.member t hH).2.2
    rw [htl] at this
    cases this
  have ht1 : t ≠ 1 := by
    rintro rfl
    rw [hu.root.2.2] at htl
    cases htl
  have hnone : ∀ x, (u.desc x).thread_leader = some t → A x := by
    intro x hx
    have := hgu.leader x t hx
    rw [htl] at this
    cases this
  exact (releaseProcess_isolated (hkill t u u₁ r hu hgu htA htH hnone hk) htA ht1 hr).1

/-- **The exit of another process keeps isolated lists so.** -/
theorem killProcess_isolated : ∀ {n : Nat} {p : PID} {status : Int} {s s' : Sys} {r : Option PID},
    Isolated s H A first → GroupsOk s → A p → ¬ H p →
    (∀ t, (s.desc t).thread_leader = some p → A t) →
    killProcess n p status s = some (r, s') → Isolated s' H A first
  | 0, _, _, _, _, _, _, _, _, _, _, h => by cases h
  | n + 1, p, status, s, s', r, hs, hg, hp, hpH, hthreads, h => by
    unfold killProcess at h
    split at h
    · cases h
      exact hs
    · simp only [Option.bind_eq_bind, Option.bind_eq_some_iff, Option.some.injEq, Prod.mk.injEq] at h
      obtain ⟨r', -, pos, hpos, s₁, h₁, s₂, h₂, firstThread, hfirstThread, s₃, h₃, -, rfl⟩ := h
      have hhead : Near H A (.children p) := ⟨hp, hpH⟩
      have hbody : ∀ c u u', Isolated u H A first → A c → c ≠ 1 → killChild n p c u = some u' →
          Isolated u' H A first := by
        intro c u u' hu hc hc1 hrun
        unfold killChild at hrun
        split at hrun
        · exact (releaseProcess_isolated hu hc hc1 hrun).1
        · cases hrun
          exact hu.setParent hc1 fun g hg => hu.parent p g hp hg
      have hwalk := forEachChild_isolated hbody hs (hs.tree.next _ _ hhead hpos) h₁
      have hculled : Culled (fun _ => True) s s₂ :=
        ((forEachChild_released (fun c u u' hc => killChild_released (n := n) (p := p) hc) h₁).trans
          (giveChildren_released (fun _ => True) h₂)).any
      refine (killThreads_isolated (fun t u u' r => killProcess_isolated)
        (giveChildren_isolated hwalk.1 hp hpH h₂) (hculled.groupsOk hg) (fun t ht => ?_)
        hfirstThread h₃).expire status
      rw [(hculled.desc t).leader] at ht
      exact hthreads t ht

/-- The switch at the end of an exit. -/
theorem killKernelContext_isolated {pa pb : PID} (h : Isolated s H A first) (hpa : A pa)
    (hrun : killKernelContext n pa pb s = some s') : Isolated s' H A first := by
  unfold killKernelContext at hrun
  dsimp only at hrun
  have hswitch : Isolated { s with current := pb } H A first :=
    h.congr rfl rfl fun _ => ⟨rfl, rfl⟩
  split at hrun
  · simp only [Option.bind_eq_bind, Option.bind_eq_some_iff] at hrun
    obtain ⟨parent, hparent, hrun⟩ := hrun
    split at hrun
    · refine (releaseProcess_isolated hswitch hpa ?_ hrun).1
      rintro rfl
      rw [h.root.2.1] at hparent
      cases hparent
    · cases hrun
      exact hswitch
  · cases hrun
    exact hswitch

end Yalnix.System
