import Yalnix.System.Adoption

/-!
# The tree of processes after an exit

* `Family.give` — the parent gets the one child that there is, if any.
* `tree_survives_iff` — the tree survives exactly if there is at most one child, and it is alive.
* `two_children` — with two children the list of the parent leads back to the wrong one.
-/

set_option autoImplicit false

namespace Yalnix.System

open Ring (Heap IsRing Linked)

variable {s s' s₁ : Sys} {n m : Nat} {P G q : PID} {status : Int} {kids gkids : List PID}

/-! ## Which exits leave the tree right -/

/-- Past the children: the parent has the one child that there is, if any. -/
theorem Family.give (h : Family s P G kids gkids) (hlen : kids.length ≤ 1) :
    ∃ tree, giveChildren P (s.adopt kids (some G)) = some { s.adopt kids (some G) with tree := tree } ∧
      IsRing tree (.children G) ((gkids ++ kids).map .siblings) := by
  have hparent : ((s.adopt kids (some G)).desc P).parent = some G := by
    rw [adopt_desc_of_not_mem h.not_mem]
    exact h.parent
  have htree : (s.adopt kids (some G)).tree = s.tree := rfl
  cases kids with
  | nil =>
    refine ⟨s.tree, ?_, by simpa using h.siblings⟩
    unfold giveChildren listIsEmpty
    rw [htree, (Ring.isRing_nil.mp h.children).1]
    simp [Sys.adopt]
  | cons c l =>
    cases l with
    | cons d l => exact absurd hlen (by simp)
    | nil =>
      obtain ⟨tree, hs⟩ := h.spliceOne_isSome
      refine ⟨tree, ?_, h.spliceOne hs⟩
      have hempty : listIsEmpty (.children P) s.tree = some false := by
        unfold listIsEmpty
        rw [h.children.next_head]
        simp
      unfold giveChildren
      rw [htree]
      simp only [Option.bind_eq_bind, hempty, Option.bind_some, hparent, hs]
      simp

theorem nextProcess_mono : ∀ {n m : Nat} {node : ProcNode}, nextProcess s n node = some q → n ≤ m →
    nextProcess s m node = some q
  | 0, _, _, h, _ => by cases h
  | n + 1, m, node, h, hle => by
    obtain ⟨m, rfl⟩ := Nat.exists_eq_add_of_le' hle
    have hm : n ≤ m + n := Nat.le_add_left n m
    rw [← Nat.add_assoc]
    unfold nextProcess at h ⊢
    split
    · rename_i hnext
      rw [hnext] at h
      cases h
    · rename_i hnext
      rw [hnext] at h
      exact nextProcess_mono h hm
    · rename_i p hnext
      rw [hnext] at h
      dsimp only at h
      split
      · rename_i he
        rw [if_pos he] at h
        exact h
      · rename_i he
        rw [if_neg he] at h
        exact nextProcess_mono h hm

/-- With more than one child the lists are spliced. -/
theorem Family.gives_many (h : Family s P G kids gkids) (hlen : 1 < kids.length)
    (hg : giveChildren P (s.adopt kids (some G)) = some s') :
    ∃ tree, spliceLinkedLists (.children P) (.children G) s.tree = some tree ∧ s'.tree = tree := by
  obtain ⟨c, l, hc⟩ : ∃ c l, kids = c :: l := by
    cases kids with
    | nil => exact absurd hlen (by simp)
    | cons c l => exact ⟨c, l, rfl⟩
  have hempty : listIsEmpty (.children P) s.tree = some false := by
    have hr := h.children
    rw [hc] at hr
    unfold listIsEmpty
    rw [hr.next_head]
    simp
  have hparent : ((s.adopt kids (some G)).desc P).parent = some G := by
    rw [adopt_desc_of_not_mem h.not_mem]
    exact h.parent
  have htree : (s.adopt kids (some G)).tree = s.tree := rfl
  unfold giveChildren at hg
  rw [htree] at hg
  simp only [Option.bind_eq_bind, hempty, Option.bind_some, hparent, Option.bind_eq_some_iff,
    Bool.false_eq_true, if_false, Option.some.injEq] at hg
  obtain ⟨tree, hs, rfl⟩ := hg
  exact ⟨tree, hs, rfl⟩

/-- Past the threads, when there are none. -/
theorem Family.threadless {first : TreeNode} {firstThread : GroupNode} {s₂ s₃ : Sys}
    {body : PID → Sys → Option Sys} (hthreads : IsRing s.groups (.thread_group P) [])
    (h₁ : forEachChild (.children P) (killChild m P) n first s = some s₁)
    (h₂ : giveChildren P s₁ = some s₂) (hthread : s₂.groups.next (.thread_group P) = some firstThread)
    (h₃ : forEachThread (.thread_group P) body n firstThread s₂ = some s₃) : s₃ = s₂ := by
  have hg₁ : Released (fun _ => True) s s₁ := by
    refine forEachChild_released (fun d u u' hd => ?_) h₁
    unfold killChild at hd
    split at hd
    · exact (releaseProcess_released hd).mono fun _ _ => .inr True.intro
    · cases hd
      exact released_setParent _ _ _ _
  have hgroups : s₂.groups = s.groups := by
    rw [(hg₁.trans (giveChildren_released (fun _ => True) h₂)).same]
    rfl
  refine forEachThread_none ?_ hthread h₃
  rw [hgroups]
  exact hthreads

/-- With one child that is alive, or none, the exit comes to its end and leaves the tree right. -/
theorem Family.survives (h : Family s P G kids gkids) (status : Int)
    (hthreads : IsRing s.groups (.thread_group P) []) (hread : s.stale_read = false)
    (hnext : Schedules s q) (halive : ∀ c ∈ kids, (s.desc c).state ≠ .ZOMBIE)
    (hlen : kids.length ≤ 1) : ∃ n s', killProcess n P status s = some (some q, s') ∧
      TreeSurvives s s' G kids gkids := by
  obtain ⟨n, hq⟩ := hnext
  obtain ⟨tree, hgive, hring⟩ := h.give hlen
  obtain ⟨first, hfirst⟩ := Option.isSome_iff_exists.mp
    ((Heap.next_isSome (a := .children P)).trans (h.children.isSome List.mem_cons_self))
  have hwalk := h.walk_alive halive hfirst n (n + 1 + kids.length)
  have hq' : nextProcess s (n + 1 + kids.length) (.process_list P) = some q := by
    rw [h.running]
    exact nextProcess_mono hq (by omega)
  have hthread : s.groups.next (.thread_group P) = some (.thread_group P) :=
    (Ring.isRing_nil.mp hthreads).1
  have hend : n + 1 + kids.length = n + kids.length + 1 := by omega
  refine ⟨n + 1 + kids.length + 1, ({ s.adopt kids (some G) with tree := tree } : Sys).setDesc s.current
    fun d => { d with state := .ZOMBIE, exit_status := status }, ?_, ?_⟩
  · unfold killProcess
    rw [if_neg (by rintro (hz | hd); exacts [h.alive.1 hz, h.alive.2 hd]), if_pos h.running, hq']
    have hwalk' := hwalk
    unfold killChild at hwalk'
    simp only [Option.bind_eq_bind, Option.map_some, Option.bind_some, hfirst, hwalk', hgive]
    have hgroups : ({ s.adopt kids (some G) with tree := tree } : Sys).groups = s.groups := rfl
    rw [hgroups, hthread, Option.bind_some, hend]
    unfold forEachThread
    rw [if_pos rfl, Option.bind_some]
    rfl
  · have hkept : (kids.filter fun c => (s.desc c).state ≠ .ZOMBIE) = kids :=
      List.filter_eq_self.mpr fun c hc => by simpa using halive c hc
    have hdesc : ∀ c, ((({ s.adopt kids (some G) with tree := tree } : Sys).setDesc s.current
        fun d => { d with state := .ZOMBIE, exit_status := status }).desc c).parent =
        ((s.adopt kids (some G)).desc c).parent := by
      intro c
      unfold Sys.setDesc
      rcases eq_or_ne c s.current with rfl | hc
      · simp only [Function.update_self]
      · simp only [Function.update_of_ne hc]
    refine ⟨?_, fun c hc => ?_, fun c hc hz => absurd hz (halive c hc), hread⟩
    · rw [hkept]
      exact hring
    · rw [hkept] at hc
      rw [hdesc]
      rcases List.mem_append.mp hc with hc | hc
      · have hnot : c ∉ kids := fun hm => h.disjoint c hm hc
        rw [adopt_desc_of_not_mem hnot]
        exact (h.sibling c hc).2
      · rw [adopt_desc_of_mem hc]

/-- **The tree survives the exit of a process without threads exactly if the process has at most one
child, and that child is alive.** -/
theorem tree_survives_iff : ∀ (s : Sys) (P G : PID) (kids gkids : List PID) (status : Int),
    Family s P G kids gkids → IsRing s.groups (.thread_group P) [] → s.stale_read = false →
    (∃ q, Schedules s q) →
    ((∃ n q s', killProcess n P status s = some (some q, s') ∧ TreeSurvives s s' G kids gkids) ↔
      (∀ c ∈ kids, (s.desc c).state ≠ .ZOMBIE) ∧ kids.length ≤ 1) := by
  intro s P G kids gkids status h hthreads hread hnext
  constructor
  · rintro ⟨n, q, s', hrun, hsurvives⟩
    obtain ⟨m, q, first, s₁, s₂, firstThread, s₃, rfl, -, -, hfirst, h₁, h₂, hthread, h₃, rfl⟩ :=
      killProcess_some hrun h.alive h.running
    have hsame := Family.threadless hthreads h₁ h₂ hthread h₃
    have halive : ∀ c ∈ kids, (s.desc c).state ≠ .ZOMBIE := by
      intro c hc hz
      have hstale := giveChildren_stale (h.walk_zombie hfirst ⟨c, hc, hz⟩ h₁) h₂
      have hfinal : s₃.stale_read = false := hsurvives.walk
      rw [hsame, hstale] at hfinal
      cases hfinal
    refine ⟨halive, ?_⟩
    by_contra hlen
    have hkept : (kids.filter fun c => (s.desc c).state ≠ .ZOMBIE) = kids :=
      List.filter_eq_self.mpr fun c hc => by simpa using halive c hc
    have hring : IsRing s₂.tree (.children G) ((gkids ++ kids).map .siblings) := by
      have hr := hsurvives.ring
      rw [hkept] at hr
      rw [← hsame]
      exact hr
    obtain ⟨tree, hs, htree⟩ := h.gives_many (not_le.mp hlen) ((h.walked halive hfirst h₁) ▸ h₂)
    rw [htree] at hring
    exact h.broken (not_le.mp hlen) hs hring
  · rintro ⟨halive, hlen⟩
    obtain ⟨q, hq⟩ := hnext
    obtain ⟨n, s', hrun, hsurvives⟩ := h.survives status hthreads hread hq halive hlen
    exact ⟨n, q, s', hrun, hsurvives⟩

/-! ## One child, and two -/

/-- Process 2 runs, with as many children as there are events in `forks`. -/
def withChildren (forks : List Event) : Sys :=
  (execAll 8 bootSys ([.fork true, .clock, .resume []] ++ forks)).getD bootSys

theorem family_one : Family (withChildren [.fork true]) 2 1 [3] [2] := by
  refine ⟨?_, ?_, ?_, ?_, ?_, ?_, ?_, ?_, ?_⟩
  all_goals decide +kernel

theorem family_two : Family (withChildren [.fork true, .fork true]) 2 1 [3, 4] [2] := by
  refine ⟨?_, ?_, ?_, ?_, ?_, ?_, ?_, ?_, ?_⟩
  all_goals decide +kernel

theorem threadless_one : IsRing (withChildren [.fork true]).groups (.thread_group 2) [] :=
  Ring.isRing_nil.mpr (by decide +kernel)

theorem tree_survives_iff_one : ∃ n q s',
    killProcess n 2 0 (withChildren [.fork true]) = some (some q, s') ∧
      TreeSurvives (withChildren [.fork true]) s' 1 [3] [2] := by
  have hnext : Schedules (withChildren [.fork true]) 3 := ⟨8, by decide +kernel⟩
  refine (tree_survives_iff _ 2 1 [3] [2] 0 family_one threadless_one (by decide +kernel)
    ⟨3, hnext⟩).mpr ⟨?_, ?_⟩
  · decide +kernel
  · decide

/-- **When a process with two children exits, the list of its parent leads back to the first of them
instead of the last.** -/
theorem two_children : ¬ ∀ (s : Sys) (P G : PID) (kids gkids : List PID) (status : Int),
    Family s P G kids gkids → IsRing s.groups (.thread_group P) [] → s.stale_read = false →
    ∀ n q s', killProcess n P status s = some (some q, s') → TreeSurvives s s' G kids gkids := by
  have hthreads : IsRing (withChildren [.fork true, .fork true]).groups (.thread_group 2) [] :=
    Ring.isRing_nil.mpr (by decide +kernel)
  have hread : (withChildren [.fork true, .fork true]).stale_read = false := by decide +kernel
  have hrun : ((killProcess 8 2 0 (withChildren [.fork true, .fork true])).map fun x =>
      (x.1.isSome, x.2.tree.prev (.children 1))) = some (true, some (.siblings 3)) := by
    decide +kernel
  intro hall
  obtain ⟨⟨r, s'⟩, hkill, heq⟩ := Option.map_eq_some_iff.mp hrun
  rw [Prod.mk.injEq] at heq
  obtain ⟨q, rfl⟩ := Option.isSome_iff_exists.mp heq.1
  have hsurvives := hall _ 2 1 [3, 4] [2] 0 family_two hthreads hread 8 q s' hkill
  have hkept : ([2] ++ [3, 4].filter fun c =>
      ((withChildren [.fork true, .fork true]).desc c).state ≠ ProcessState.ZOMBIE).map
        TreeNode.siblings =
      [.siblings 2, .siblings 3] ++ [.siblings 4] := by
    decide +kernel
  have hring := hsurvives.ring
  rw [hkept] at hring
  have hprev := hring.prev_head
  rw [heq.2] at hprev
  cases hprev

end Yalnix.System
