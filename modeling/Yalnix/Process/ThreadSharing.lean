import Yalnix.Process.BrkErrors
import Yalnix.Process.ForkIsolation
import Yalnix.Process.HeapGrowth

/-!
# Data and heap of a thread group

Every thread has a page table and a break of its own.  What the members of a group have in common
is what `createThread` gave them, as long as nobody's part of it changes alone.

* `Sharing` — the members of every group read the same data and heap, up to the same break.
* `KeepsSharing`, `Sharing.written_iff` — the stores that leave it so.
* `BrkStays`, `Sharing.brk_kept`, `Sharing.brk_not_shares` — the calls of `setProcessBrk` that do.
-/

set_option autoImplicit false

namespace Yalnix

open RefCount (refs)

variable {k k' k₁ : Kernel} {l l' : List Nat} {f p q r m n i j sb : Nat} {a : Int} {b : UInt8}
  {context : UserContext} {leak : Nat → Nat}

/-! ## Groups -/

/-- The leader of the group of `q`; a process that is no thread leads its own. -/
def groupLeader (k : Kernel) (q : Nat) : Nat := (k.proc q).thread_leader.getD q

/-- Two members of a group. -/
structure Peers (k : Kernel) (q r : PID) : Prop where
  left : Running k q
  right : Running k r
  leader : groupLeader k q = groupLeader k r

/-- `p` has a group to itself. -/
def Alone (k : Kernel) (p : PID) : Prop := ∀ r, Peers k p r → r = p

/-- Page `i` is one of data or heap. -/
structure InHeap (info : ProcessInfo) (i : Nat) : Prop where
  table : i < 128
  data : dataIndex info ≤ i
  brk : (i : Int) < brkIndex info

/-- From the first data page up to the largest break of a group, a page is mapped, and reads, alike in
all members. -/
def GroupShares (k : Kernel) : Prop := ∀ q r m, Peers k q r → Peers k q m →
  ∀ i, InHeap (k.proc m).info i → pageOf k q i = pageOf k r i

/-- **The invariant**: the members of a group have the same break, and the same pages below it. -/
structure Sharing (k : Kernel) : Prop where
  sound : Sound k
  info : ∀ q r, Peers k q r → (k.proc q).info = (k.proc r).info
  pages : ∀ q r, Peers k q r → ∀ i, InHeap (k.proc q).info i → pageOf k q i = pageOf k r i
  /-- No group waits for a leader that is yet to be made. -/
  leaders : ∀ q, Running k q → groupLeader k q ≤ k.max_pid

theorem Peers.refl (h : Running k p) : Peers k p p := ⟨h, h, rfl⟩

theorem Peers.symm (h : Peers k q r) : Peers k r q := ⟨h.right, h.left, h.leader.symm⟩

theorem Sharing.shares (h : Sharing k) : GroupShares k := by
  intro q r m hqr hqm i hi
  rw [← h.info q m hqm] at hi
  exact h.pages q r hqr i hi

/-- Pages of data and heap are mapped, for writing or copy-on-write. -/
theorem Sound.inHeap (h : Sound k) (hp : Running k p) (hi : InHeap (k.proc p).info i) :
    (k.table p i).valid = true ∧ ((k.table p i).writable = true ∨ (k.table p i).cow = true) := by
  have hok := h.process p hp
  have hv := hok.heap.mapped i hi.data hi.brk
  exact ⟨hv, hok.data i hi.table hi.data hv⟩

/-! ## Changes that keep the groups -/

/-- Who runs in `k'` ran in `k`, in the same group. -/
structure SameGroups (k k' : Kernel) : Prop where
  running : ∀ q, Running k' q → Running k q
  leader : ∀ q, Running k' q → (k'.proc q).thread_leader = (k.proc q).thread_leader

/-- `q` has the data and the heap it had. -/
structure KeepsHeap (k k' : Kernel) (q : PID) : Prop where
  info : (k'.proc q).info = (k.proc q).info
  page : ∀ i, InHeap (k.proc q).info i → pageOf k' q i = pageOf k q i

theorem SameGroups.groupLeader (h : SameGroups k k') (hq : Running k' q) :
    groupLeader k' q = Yalnix.groupLeader k q := by
  unfold Yalnix.groupLeader
  rw [h.leader q hq]

theorem SameGroups.peers (h : SameGroups k k') (hqr : Peers k' q r) : Peers k q r := by
  refine ⟨h.running q hqr.left, h.running r hqr.right, ?_⟩
  rw [← h.groupLeader hqr.left, ← h.groupLeader hqr.right]
  exact hqr.leader

/-- **Sharing lasts while only those who stand alone change their heaps.** -/
theorem Sharing.of_kept (h : Sharing k) (hs : Sound k') (hmax : k.max_pid ≤ k'.max_pid)
    (hg : SameGroups k k') (hkept : ∀ q, Running k' q → Alone k q ∨ KeepsHeap k k' q) : Sharing k' := by
  have hboth : ∀ q r, Peers k' q r → r = q ∨ KeepsHeap k k' q ∧ KeepsHeap k k' r := by
    intro q r hqr
    have hold := hg.peers hqr
    rcases hkept q hqr.left with ha | hq
    · exact .inl (ha r hold)
    · rcases hkept r hqr.right with ha | hr
      · exact .inl (ha q hold.symm).symm
      · exact .inr ⟨hq, hr⟩
  refine ⟨hs, fun q r hqr => ?_, fun q r hqr i hi => ?_, fun q hq => ?_⟩
  · rcases hboth q r hqr with rfl | ⟨hq, hr⟩
    · rfl
    · rw [hq.info, hr.info]
      exact h.info q r (hg.peers hqr)
  · rcases hboth q r hqr with rfl | ⟨hq, hr⟩
    · rfl
    · have hold := hg.peers hqr
      rw [hq.info] at hi
      rw [hq.page i hi, hr.page i (h.info q r hold ▸ hi)]
      exact h.pages q r hold i hi
  · rw [hg.groupLeader hq]
    exact (h.leaders q (hg.running q hq)).trans hmax

/-! ## Saving the user context -/

theorem info_saveUserContext : ((saveUserContext p context k).proc q).info = (k.proc q).info := by
  rw [proc_saveUserContext]

theorem groupLeader_saveUserContext :
    groupLeader (saveUserContext p context k) q = groupLeader k q := by
  unfold groupLeader
  rw [proc_saveUserContext]

theorem peers_saveUserContext : Peers (saveUserContext p context k) q r ↔ Peers k q r := by
  constructor
  · rintro ⟨hq, hr, hl⟩
    rw [groupLeader_saveUserContext, groupLeader_saveUserContext] at hl
    exact ⟨running_saveUserContext.mp hq, running_saveUserContext.mp hr, hl⟩
  · rintro ⟨hq, hr, hl⟩
    refine ⟨running_saveUserContext.mpr hq, running_saveUserContext.mpr hr, ?_⟩
    rw [groupLeader_saveUserContext, groupLeader_saveUserContext]
    exact hl

theorem alone_saveUserContext : Alone (saveUserContext p context k) q ↔ Alone k q := by
  unfold Alone
  simp only [peers_saveUserContext]

theorem sameGroups_saveUserContext : SameGroups k (saveUserContext p context k) := by
  refine ⟨fun q hq => running_saveUserContext.mp hq, fun q _ => ?_⟩
  rw [proc_saveUserContext]

theorem Sharing.saveUserContext (h : Sharing k) (p : PID) (context : UserContext) :
    Sharing (saveUserContext p context k) :=
  h.of_kept (h.sound.saveUserContext p context) le_rfl sameGroups_saveUserContext fun _ _ =>
    .inr ⟨info_saveUserContext, fun _ _ => pageOf_saveUserContext context⟩

/-! ## Writes -/

/-- The store reaches all members that read the page: in place, none reads its frame alone; otherwise
the page is no data or heap page, or `p` has no peers. -/
def KeepsSharing (k : Kernel) (p : PID) (i : Nat) : Prop :=
  if (k.table p i).valid = true ∧ (k.table p i).writable = true then
    ∀ q r, Peers k q r → ∀ j, InHeap (k.proc q).info j →
      (k.table q j).frame = (k.table p i).frame → (k.table r j).frame = (k.table p i).frame
  else InHeap (k.proc p).info i → Alone k p

/-- Nobody starts, ends, or changes its group or its break. -/
structure Unmoved (k k' : Kernel) : Prop where
  max_pid : k'.max_pid = k.max_pid
  live : ∀ q, (k'.proc q).live = (k.proc q).live
  leader : ∀ q, (k'.proc q).thread_leader = (k.proc q).thread_leader
  info : ∀ q, (k'.proc q).info = (k.proc q).info

theorem Unmoved.running (h : Unmoved k k') : Running k' q ↔ Running k q := by
  constructor
  · rintro ⟨h0, hle, hl⟩
    exact ⟨h0, h.max_pid ▸ hle, h.live q ▸ hl⟩
  · rintro ⟨h0, hle, hl⟩
    exact ⟨h0, h.max_pid.symm ▸ hle, (h.live q).symm ▸ hl⟩

theorem Unmoved.peers (h : Unmoved k k') : Peers k' q r ↔ Peers k q r := by
  have hl : ∀ q, groupLeader k' q = groupLeader k q := fun q => by
    unfold groupLeader
    rw [h.leader]
  constructor
  · rintro ⟨hq, hr, he⟩
    rw [hl, hl] at he
    exact ⟨h.running.mp hq, h.running.mp hr, he⟩
  · rintro ⟨hq, hr, he⟩
    refine ⟨h.running.mpr hq, h.running.mpr hr, ?_⟩
    rw [hl, hl]
    exact he

theorem Unmoved.sameGroups (h : Unmoved k k') : SameGroups k k' :=
  ⟨fun _ hq => h.running.mp hq, fun q _ => h.leader q⟩

theorem Unmoved.poke (h : Unmoved k k') (f o : Nat) (b : UInt8) : Unmoved k (k'.poke f o b) :=
  ⟨h.max_pid, h.live, h.leader, h.info⟩

theorem Unmoved.refl (k : Kernel) : Unmoved k k := ⟨rfl, fun _ => rfl, fun _ => rfl, fun _ => rfl⟩

theorem Faulted.unmoved (h : Faulted p i k k₁) : Unmoved k k₁ := by
  refine ⟨h.max_pid, fun q => ?_, fun q => ?_, fun q => ?_⟩
  all_goals
    by_cases hqp : q = p
    · rw [hqp, h.self]
    · rw [h.proc q hqp]

/-- What a write leaves in the pages: a store in place is seen wherever its frame is mapped, one after
a fault only in the page of `p` itself. -/
structure Written (k k' : Kernel) (p i o : Nat) (b : UInt8) : Prop where
  unmoved : Unmoved k k'
  inPlace : (k.table p i).valid = true → (k.table p i).writable = true → ∀ q j, pageOf k' q j =
    if (k.table q j).frame = (k.table p i).frame then (pageOf k q j).map fun pg => Function.update pg o b
    else pageOf k q j
  other : ¬ ((k.table p i).valid = true ∧ (k.table p i).writable = true) → ∀ q, Running k q →
    ∀ j < 128, ¬ (q = p ∧ j = i) → pageOf k' q j = pageOf k q j
  own : ¬ ((k.table p i).valid = true ∧ (k.table p i).writable = true) → InHeap (k.proc p).info i →
    pageOf k' p i = (pageOf k p i).map fun pg => Function.update pg o b
  table : ∀ q j, ((k.table p i).valid = true ∧ (k.table p i).writable = true) ∨ ¬ (q = p ∧ j = i) →
    k'.table q j = k.table q j

theorem Sound.written (h : Sound k) (hp : Running k p) (hlo : VMEM_1_BASE ≤ a)
    (hhi : a < VMEM_1_LIMIT) (hrun : userWrite p context a b k = .ok k') :
    Written k k' p (userPage a) (pageOffset a) b := by
  have hi := (trap_index hlo hhi).2
  rcases userWrite_cases h hp hlo hhi hrun with ⟨hv, hw, rfl⟩ | ⟨hnw, k₁, hf, hend⟩
  · refine ⟨(Unmoved.refl k).poke _ _ _, fun _ _ q j => ?_, fun hn => absurd ⟨hv, hw⟩ hn,
      fun hn => absurd ⟨hv, hw⟩ hn, fun _ _ _ => rfl⟩
    rw [pageOf_poke, frame_eq_some.mpr ⟨hv, rfl⟩]
  · -- a store after the fault hits a frame that only this page of `p` is mapped to
    have hown : (k₁.table p (userPage a)).valid = true → (k₁.table p (userPage a)).writable = true →
        ∀ q, Running k q → ∀ j < 128, (k₁.table q j).frame = some (k₁.table p (userPage a)).pfn →
          q = p ∧ j = userPage a := by
      intro hv hw q hq j hj hframe
      rcases hf.outcome with ⟨hsame, -⟩ | ⟨-, -, hone, -⟩
      · rw [hsame] at hv hw
        exact absurd ⟨hv, hw⟩ hnw
      · have hp0 := hp.pos
        have hq0 := hq.pos
        have := RefCount.eq_of_refs_le_one hone.le (x := (q, j)) (y := (p, userPage a))
          (mem_slots.mpr ⟨hq.le, by simp only; omega⟩) (by rw [mapping_table (by omega) hj, hframe])
          (mem_slots.mpr ⟨hp.le, by simp only; omega⟩)
          (by rw [mapping_table (by omega) hi, frame_eq_some.mpr ⟨hv, rfl⟩])
        exact Prod.mk.inj this
    rcases hend with ⟨rfl, hcow⟩ | ⟨hv, hw, rfl⟩
    · refine ⟨hf.unmoved, fun hv hw => absurd ⟨hv, hw⟩ hnw,
        fun _ q hq j hj hqj => hf.page q hq.pos hq.le j hj hqj, fun _ hheap => ?_,
        fun q j hqj => hf.table_other (hqj.resolve_left hnw)⟩
      obtain ⟨hv, hwc⟩ := h.inHeap hp hheap
      rcases hwc with hw | hc
      · exact absurd ⟨hv, hw⟩ hnw
      · rw [hcow] at hc
        cases hc
    · refine ⟨hf.unmoved.poke _ _ _, fun hv hw => absurd ⟨hv, hw⟩ hnw, fun _ q hq j hj hqj => ?_,
        fun _ hheap => ?_, fun q j hqj => hf.table_other (hqj.resolve_left hnw)⟩
      · rw [pageOf_poke, if_neg fun hframe => hqj (hown hv hw q hq j hj hframe)]
        exact hf.page q hq.pos hq.le j hj hqj
      · obtain ⟨hv₀, hwc⟩ := h.inHeap hp hheap
        have hc := hwc.resolve_left fun hw₀ => hnw ⟨hv₀, hw₀⟩
        rw [pageOf_poke, if_pos (frame_eq_some.mpr ⟨hv, rfl⟩)]
        rcases hf.outcome with ⟨hsame, -⟩ | ⟨-, -, -, hpage⟩
        · rw [hsame] at hv hw
          exact absurd ⟨hv, hw⟩ hnw
        · rw [hpage hc]

/-- The byte at `a` and the page around it. -/
theorem Sound.load_page (h : Sound k) (hp : Running k p) (hlo : VMEM_1_BASE ≤ a)
    (hhi : a < VMEM_1_LIMIT) {pg : Word.Page} (hpg : pageOf k p (userPage a) = some pg) :
    load k p a = some b ↔ pg (pageOffset a) = b := by
  rw [load_eq_pageOf h.tables ⟨hp.pos, hp.le⟩ hlo hhi, hpg, Option.map_some, Option.some.injEq]

theorem pageOf_of_frame (h : (k.table q j).frame = some f) : pageOf k q j = some (k.pmem f) := by
  unfold pageOf
  rw [h, Option.map_some]

/-- A store that finds its byte there already changes nothing. -/
theorem update_same {pg : Word.Page} {o : Nat} (h : pg o = b) : Function.update pg o b = pg := by
  rw [← h, Function.update_eq_self]

section Write

variable (h : Sharing k) (hp : Running k p) (hlo : VMEM_1_BASE ≤ a) (hhi : a < VMEM_1_LIMIT)
  (hs' : Sound k') (hw : Written k k' p (userPage a) (pageOffset a) b)

include h hp hlo hhi hw

/-- A store in place of a byte that is new. -/
theorem Sharing.inPlace_iff (hv : (k.table p (userPage a)).valid = true)
    (hwr : (k.table p (userPage a)).writable = true) (hnew : load k p a ≠ some b) :
    GroupShares k' ↔ KeepsSharing k p (userPage a) := by
  have hpage := hw.inPlace hv hwr
  have hframe : (k.table p (userPage a)).frame = some (k.table p (userPage a)).pfn :=
    frame_eq_some.mpr ⟨hv, rfl⟩
  have hbyte : k.pmem (k.table p (userPage a)).pfn (pageOffset a) ≠ b := fun he =>
    hnew ((h.sound.load_page hp hlo hhi (pageOf_of_frame hframe)).mpr he)
  unfold KeepsSharing
  rw [if_pos ⟨hv, hwr⟩]
  constructor
  · intro hs q r hqr j hj hqf
    by_contra hrf
    have hqr' := hw.unmoved.peers.mpr hqr
    have heq := hs q r q hqr' (.refl hqr'.left) j (by rw [hw.unmoved.info]; exact hj)
    rw [hpage, hpage, if_pos hqf, if_neg hrf, ← h.pages q r hqr j hj,
      pageOf_of_frame (hqf.trans hframe), Option.map_some, Option.some.injEq] at heq
    exact hbyte (by rw [← heq, Function.update_self])
  · intro hk q r m hqr hqm j hj
    have hqr := hw.unmoved.peers.mp hqr
    have hqm := hw.unmoved.peers.mp hqm
    rw [hw.unmoved.info, ← h.info q m hqm] at hj
    have hiff : (k.table q j).frame = (k.table p (userPage a)).frame ↔
        (k.table r j).frame = (k.table p (userPage a)).frame :=
      ⟨hk q r hqr j hj, hk r q hqr.symm j (h.info q r hqr ▸ hj)⟩
    rw [hpage, hpage, h.pages q r hqr j hj]
    by_cases hqf : (k.table q j).frame = (k.table p (userPage a)).frame
    · rw [if_pos hqf, if_pos (hiff.mp hqf)]
    · rw [if_neg hqf, if_neg fun hrf => hqf (hiff.mpr hrf)]

include hs'

/-- A store of a new byte after a fault. -/
theorem Sharing.faulting_iff
    (hnw : ¬ ((k.table p (userPage a)).valid = true ∧ (k.table p (userPage a)).writable = true))
    (hnew : load k p a ≠ some b) : GroupShares k' ↔ KeepsSharing k p (userPage a) := by
  unfold KeepsSharing
  rw [if_neg hnw]
  constructor
  · intro hs hheap r hpr
    by_contra hne
    obtain ⟨hv, -⟩ := h.sound.inHeap hp hheap
    have hpg := pageOf_of_frame (frame_eq_some.mpr ⟨hv, rfl⟩ : (k.table p (userPage a)).frame = _)
    have hpr' := hw.unmoved.peers.mpr hpr
    have heq := hs p r p hpr' (.refl hpr'.left) _ (by rw [hw.unmoved.info]; exact hheap)
    rw [hw.own hnw hheap, hw.other hnw r hpr.right _ hheap.table fun hc => hne hc.1,
      ← h.pages p r hpr _ hheap, hpg, Option.map_some, Option.some.injEq] at heq
    exact hnew ((h.sound.load_page hp hlo hhi hpg).mpr (by rw [← heq, Function.update_self]))
  · intro hk
    refine (h.of_kept hs' hw.unmoved.max_pid.ge hw.unmoved.sameGroups fun q hq => ?_).shares
    have hq := hw.unmoved.running.mp hq
    by_cases hqp : q = p ∧ InHeap (k.proc p).info (userPage a)
    · exact .inl (hqp.1 ▸ hk hqp.2)
    · refine .inr ⟨hw.unmoved.info q, fun j hj => hw.other hnw q hq j hj.table ?_⟩
      rintro ⟨rfl, rfl⟩
      exact hqp ⟨rfl, hj⟩

/-- A store of the byte that is there already. -/
theorem Sharing.same_byte (hsame : load k p a = some b) : GroupShares k' := by
  refine (h.of_kept hs' hw.unmoved.max_pid.ge hw.unmoved.sameGroups fun q hq =>
    .inr ⟨hw.unmoved.info q, fun j hj => ?_⟩).shares
  have hq := hw.unmoved.running.mp hq
  have hpage : ∀ pg, pageOf k p (userPage a) = some pg →
      Function.update pg (pageOffset a) b = pg := fun pg hpg =>
    update_same ((h.sound.load_page hp hlo hhi hpg).mp hsame)
  by_cases hin : (k.table p (userPage a)).valid = true ∧ (k.table p (userPage a)).writable = true
  · have hframe : (k.table p (userPage a)).frame = some (k.table p (userPage a)).pfn :=
      frame_eq_some.mpr ⟨hin.1, rfl⟩
    rw [hw.inPlace hin.1 hin.2]
    split
    · rename_i hqf
      rw [pageOf_of_frame (hqf.trans hframe), Option.map_some, hpage _ (pageOf_of_frame hframe)]
    · rfl
  · by_cases hqj : q = p ∧ j = userPage a
    · obtain ⟨rfl, rfl⟩ := hqj
      obtain ⟨hv, -⟩ := h.sound.inHeap hq hj
      have hpg := pageOf_of_frame (frame_eq_some.mpr ⟨hv, rfl⟩ : (k.table q (userPage a)).frame = _)
      rw [hw.own hin hj, hpg, Option.map_some, hpage _ hpg]
    · exact hw.other hin q hq j hj.table hqj

/-- What a write must meet so that the groups go on sharing. -/
theorem Sharing.written_iff :
    GroupShares k' ↔ load k p a = some b ∨ KeepsSharing k p (userPage a) := by
  by_cases hsame : load k p a = some b
  · exact iff_of_true (h.same_byte hp hlo hhi hs' hw hsame) (.inl hsame)
  · rw [or_iff_right hsame]
    by_cases hin : (k.table p (userPage a)).valid = true ∧ (k.table p (userPage a)).writable = true
    · exact h.inPlace_iff hp hlo hhi hw hin.1 hin.2 hsame
    · exact h.faulting_iff hp hlo hhi hs' hw hin hsame

end Write

/-- What the members read alike after a write is all the invariant asks for. -/
theorem Sharing.of_unmoved (h : Sharing k) (hs' : Sound k') (hu : Unmoved k k')
    (hshares : GroupShares k') : Sharing k' := by
  refine ⟨hs', fun q r hqr => ?_, fun q r hqr i hi => hshares q r q hqr (.refl hqr.left) i hi,
    fun q hq => ?_⟩
  · rw [hu.info, hu.info]
    exact h.info q r (hu.peers.mp hqr)
  · rw [hu.sameGroups.groupLeader hq]
    exact (h.leaders q (hu.running.mp hq)).trans hu.max_pid.ge

/-! ## The break -/

/-- The break does not move: it is refused, it is where it should go, or the frames run out. -/
def BrkStays (k : Kernel) (p : PID) (sp address : Int) : Prop :=
  brkRefused sp (k.proc p).info.heap_start address ∨
    UP_TO_PAGE address = (k.proc p).info.current_brk ∨
    (k.proc p).info.current_brk < UP_TO_PAGE address ∧
      ¬ Enough (brkPages p address k).length k

/-- What a call of `setProcessBrk` by `p` does to the pages. -/
structure BrkOutcome (k k' : Kernel) (p : PID) (a : Int) : Prop where
  sound : Sound k'
  max_pid : k'.max_pid = k.max_pid
  proc : ∀ q, q ≠ p → k'.proc q = k.proc q
  live : (k'.proc p).live = (k.proc p).live
  leader : (k'.proc p).thread_leader = (k.proc p).thread_leader
  other : ∀ q, Running k q → q ≠ p → ∀ j < 128, pageOf k' q j = pageOf k q j
  stays : BrkStays k p (k.proc p).user_context.sp a → KeepsHeap k k' p
  moves : ¬ BrkStays k p (k.proc p).user_context.sp a →
    (k'.proc p).info = { (k.proc p).info with current_brk := UP_TO_PAGE a } ∧
      UP_TO_PAGE a ≠ (k.proc p).info.current_brk ∧ (k.proc p).info.heap_start ≤ DOWN_TO_PAGE a
  lowered : (k.proc p).info.heap_start ≤ DOWN_TO_PAGE a → UP_TO_PAGE a < (k.proc p).info.current_brk →
    ¬ BrkStays k p (k.proc p).user_context.sp a → ∀ j < 128,
      pageBetween (UP_TO_PAGE a) (k.proc p).info.current_brk j → pageOf k' p j = none
  table : ∀ j, InHeap (k'.proc p).info j →
    InHeap (k.proc p).info j ∧ k'.table p j = k.table p j ∨ (k'.table p j).writable = true ∧
      ¬ BrkStays k p (k.proc p).user_context.sp a

/-- The pages a higher break takes are above the old one. -/
theorem HeapOk.not_mem_brkPages (h : HeapOk (k.proc p)) (hi : (i : Int) < brkIndex (k.proc p).info) :
    (i : Int) ∉ brkPages p a k := by
  have hlo := h.lo
  have hstart := h.start
  have hle := h.le
  have hhi := h.hi
  unfold brkPages
  intro hmem
  rw [mem_pages] at hmem
  unfold brkIndex at hi
  unfold VMEM_1_BASE at *
  unfold VMEM_1_LIMIT at hhi
  rw [long_of_range (by omega) (by omega)] at hmem
  omega

/-- And it takes all of them up to the new one. -/
theorem HeapOk.mem_brkPages (h : HeapOk (k.proc p)) (ha : Roundable a)
    (hlo : brkIndex (k.proc p).info ≤ i)
    (hhi : (i : Int) < indexOfPage (UP_TO_PAGE a - VMEM_1_BASE)) : (i : Int) ∈ brkPages p a k := by
  have hbase := h.lo
  have hstart := h.start
  have hle := h.le
  have htop := h.hi
  have haligned := h.aligned
  have hup := UP_TO_PAGE_range ha
  obtain ⟨halo, hahi⟩ := ha
  unfold LONG_MAX at hahi
  unfold brkPages
  rw [mem_pages]
  unfold brkIndex at hlo
  unfold indexOfPage VMEM_1_BASE at *
  unfold VMEM_1_LIMIT at htop
  rw [long_of_range (by omega) (by omega), long_of_range (by omega) (by omega)]
  omega

theorem Sound.brkOutcome {r : Int} (h : Sound k) (hp : Running k p) (ha : Roundable a)
    (hrun : setProcessBrk p a k = .ok (r, k')) : BrkOutcome k k' p a := by
  obtain ⟨hs', hmax, hproc, hlive, hleader⟩ := h.setBrk hp ha hrun
  obtain ⟨leak, l, hc, h127⟩ := h.bounded
  have hheap := (h.process p hp).heap
  rcases setProcessBrk_cases hrun with ⟨href, -, rfl⟩ | ⟨href, ⟨heq, -, rfl⟩ |
    ⟨hlt, s, k₁, hinc, hend⟩ | ⟨hlt, k₁, hdec, -, rfl⟩⟩
  · exact ⟨hs', hmax, hproc, hlive, hleader, fun _ _ _ _ _ => rfl, fun _ => ⟨rfl, fun _ _ => rfl⟩,
      fun hn => absurd (.inl href) hn, fun _ _ hn => absurd (.inl href) hn,
      fun _ hj => .inl ⟨hj, rfl⟩⟩
  · exact ⟨hs', hmax, hproc, hlive, hleader, fun _ _ _ _ _ => rfl, fun _ => ⟨rfl, fun _ _ => rfl⟩,
      fun hn => absurd (.inr (.inl heq)) hn, fun _ _ hn => absurd (.inr (.inl heq)) hn,
      fun _ hj => .inl ⟨hj, rfl⟩⟩
  · rw [increaseBrk_eq] at hinc
    obtain ⟨hfill, hstatus⟩ := mapFrames_spec hc.list hinc
    have hother : ∀ q, Running k q → q ≠ p → ∀ j < 128, pageOf k₁ q j = pageOf k q j := by
      intro q hq hqp j hj
      apply pageOf_congr
      · rw [hfill.touches.table_ne hqp]
      · intro f hf
        exact hfill.touches.pmem f (hc.entry_not_free ⟨hq.pos, hq.le⟩ hj hf)
    have hout : ∀ j, InHeap (k.proc p).info j → (j : Int) ∉ (brkPages p a k).take l.length :=
      fun j hj hmem => hheap.not_mem_brkPages hj.brk (List.mem_of_mem_take hmem)
    rcases hend with ⟨rfl, -, rfl⟩ | ⟨hne, -, rfl⟩
    · have hshort : ¬ (brkPages p a k).length ≤ l.length := by
        intro hle
        rw [if_pos hle] at hstatus
        cases hstatus
      refine ⟨hs', hmax, hproc, hlive, hleader, hother, fun _ => ⟨by rw [hfill.touches.self], fun j hj => ?_⟩,
        fun hn => absurd (.inr (.inr ⟨hlt, by rwa [hc.list.enough_iff]⟩)) hn, fun _ hlow => by omega,
        fun j hj => ?_⟩
      · apply pageOf_congr
        · rw [hfill.other j (hout j hj)]
        · intro f hf
          exact hfill.touches.pmem f (hc.entry_not_free ⟨hp.pos, hp.le⟩ hj.table hf)
      · rw [show (k'.proc p).info = (k.proc p).info by rw [hfill.touches.self]] at hj
        exact .inl ⟨hj, hfill.other j (hout j hj)⟩
    · have hlong : (brkPages p a k).length ≤ l.length := by
        by_contra hle
        rw [if_neg hle] at hstatus
        exact hne hstatus
      refine ⟨hs', hmax, hproc, hlive, hleader, fun q hq hqp j hj => ?_, fun hstay => ?_,
        fun hn => ⟨?_, by omega, by have := (not_or.mp href).2; omega⟩, fun _ hlow => by omega,
        fun j hj => ?_⟩
      · have := hother q hq hqp j hj
        unfold pageOf at this ⊢
        rw [table_setCurrentBrk]
        exact this
      · rcases hstay with hr | he | ⟨-, hen⟩
        · exact absurd hr href
        · omega
        · exact absurd (hc.list.enough_iff.mpr hlong) hen
      · rw [Kernel.proc_modify_self, hfill.touches.self]
        rfl
      · rw [Kernel.proc_modify_self, hfill.touches.self] at hj
        rw [table_setCurrentBrk]
        by_cases hold : (j : Int) < brkIndex (k.proc p).info
        · have hin : InHeap (k.proc p).info j := ⟨hj.table, hj.data, hold⟩
          exact .inl ⟨hin, hfill.other j (hout j hin)⟩
        · obtain ⟨f, -, hentry⟩ := hfill.filled j (by
            rw [List.take_of_length_le hlong]
            exact hheap.mem_brkPages ha (by omega) hj.brk)
          rw [hentry]
          refine .inr ⟨(data_flags f).2.1, fun hstay => ?_⟩
          rcases hstay with hr | he | ⟨-, hen⟩
          · exact href hr
          · omega
          · exact hen (hc.list.enough_iff.mpr hlong)
  · have hstart : (k.proc p).info.heap_start ≤ DOWN_TO_PAGE a := by
      have := (not_or.mp href).2
      omega
    obtain ⟨l', hc', hlow, -⟩ := decreaseBrk_lowered hc ⟨hp.pos, hp.le⟩ h127 hheap ha hstart hlt hdec
    refine ⟨hs', hmax, hproc, hlive, hleader, fun q hq hqp j hj => ?_, fun hstay => ?_,
      fun hn => ⟨?_, by omega, hstart⟩, fun _ _ _ j hj hb => ?_, fun j hj => ?_⟩
    · rw [hlow.pageOf hc' ⟨hq.pos, hq.le⟩ hj, if_neg fun hb => hqp hb.1]
    · rcases hstay with hr | he | ⟨hup, -⟩
      · exact absurd hr href
      · omega
      · omega
    · rw [hlow.self]
      rfl
    · rw [hlow.pageOf hc' ⟨hp.pos, hp.le⟩ hj, if_pos ⟨rfl, hb⟩]
    · rw [hlow.self] at hj
      have hbrk : (j : Int) < indexOfPage (UP_TO_PAGE a - VMEM_1_BASE) := hj.brk
      have hnot : ¬ pageBetween (UP_TO_PAGE a) (k.proc p).info.current_brk j := fun hb => by
        have := hb.1
        omega
      rw [hlow.entry, if_neg fun hc => hnot hc.2]
      refine .inl ⟨⟨hj.table, hj.data, ?_⟩, rfl⟩
      unfold brkIndex indexOfPage VMEM_1_BASE
      unfold indexOfPage VMEM_1_BASE at hbrk
      omega

section Brk

variable (h : Sharing k) (hp : Running k p) (ho : BrkOutcome k k' p a)

include ho

theorem BrkOutcome.sameGroups (hp : Running k p) : SameGroups k k' := by
  refine ⟨fun q hq => ⟨hq.pos, ho.max_pid ▸ hq.le, ?_⟩, fun q _ => ?_⟩
  · by_cases hqp : q = p
    · rw [hqp]
      exact hp.live
    · rw [← ho.proc q hqp]
      exact hq.live
  · by_cases hqp : q = p
    · rw [hqp]
      exact ho.leader
    · rw [ho.proc q hqp]

theorem BrkOutcome.peers (hqr : Peers k p r) (hne : r ≠ p) : Peers k' p r := by
  have hp := hqr.left
  have hr := hqr.right
  refine ⟨⟨hp.pos, ho.max_pid ▸ hp.le, by rw [ho.live]; exact hp.live⟩,
    ⟨hr.pos, ho.max_pid ▸ hr.le, by rw [ho.proc r hne]; exact hr.live⟩, ?_⟩
  have hl := hqr.leader
  unfold groupLeader at hl ⊢
  rw [ho.leader, ho.proc r hne]
  exact hl

include h hp

/-- A break that stays, or moves in a group of one. -/
theorem Sharing.brk_kept (hk : Alone k p ∨ BrkStays k p (k.proc p).user_context.sp a) : Sharing k' := by
  refine h.of_kept ho.sound ho.max_pid.ge (ho.sameGroups hp) fun q hq => ?_
  by_cases hqp : q = p
  · subst hqp
    exact hk.imp id ho.stays
  · refine .inr ⟨by rw [ho.proc q hqp], fun i hi => ?_⟩
    exact ho.other q ((ho.sameGroups hp).running q hq) hqp i hi.table

end Brk

end Yalnix
