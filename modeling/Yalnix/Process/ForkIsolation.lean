import Yalnix.Process.Threads

/-!
# Children and the threads of their parent

Forking write-protects the tables of the leader and of the child, not those of the leader's
threads.

* `Apart` — no thread of the group can write in place to a frame the child maps.
* `fork_isolates_iff` — a child is safe from its parent's group exactly if no thread of the group
  had a writable entry for a frame the child came to share.
* `thread_write_reaches_child`, `thread_write_after_fork` — a thread that had one.
-/

set_option autoImplicit false

namespace Yalnix

open RefCount (refs)
open Transition (Run)

variable {k k' k₁ : Kernel} {l : List Nat} {f p q m t c n i j sb : Nat} {a : Int} {b : UInt8}

/-! ## Writes after a fork -/

/-- A store instruction: who runs it, and what it stores. -/
structure Write where
  writer : PID
  context : UserContext
  address : Int
  byte : UInt8

/-- `m` is the leader `p` or one of its threads. -/
def InGroup (k : Kernel) (p m : Nat) : Prop := m = p ∨ (k.proc m).thread_leader = some p

/-- After `p` has forked `c`: a write by the group of `p`, or by `c` to its data, heap and stack. -/
structure AfterFork (p c : Nat) (k : Kernel) (w : Write) (k' : Kernel) : Prop where
  running : Running k w.writer
  writer : InGroup k p w.writer ∨ w.writer = c ∧ dataIndex (k.proc c).info ≤ userPage w.address
  lo : VMEM_1_BASE ≤ w.address
  hi : w.address < VMEM_1_LIMIT
  run : userWrite w.writer w.context w.address w.byte k = .ok k'

/-- No member of the group of `p` can write in place to a frame that `c` maps. -/
structure Apart (p c : Nat) (k : Kernel) : Prop where
  sound : Sound k
  child : Running k c
  stranger : ¬ InGroup k p c
  apart : ∀ m, Running k m → InGroup k p m → ∀ i < 128, (k.table m i).valid = true →
    (k.table m i).writable = true → ∀ j < 128, (k.table c j).frame ≠ some (k.table m i).pfn

/-- A fault changes no group. -/
theorem Faulted.inGroup (h : Faulted m i k k₁) : InGroup k₁ p q ↔ InGroup k p q := by
  have hleader : (k₁.proc q).thread_leader = (k.proc q).thread_leader := by
    by_cases hqm : q = m
    · rw [hqm, h.self]
    · rw [h.proc q hqm]
  unfold InGroup
  rw [hleader]

theorem Faulted.table_other (h : Faulted m i k k₁) (hqj : ¬ (q = m ∧ j = i)) :
    k₁.table q j = k.table q j := by
  by_cases hqm : q = m
  · subst hqm
    exact h.entry j fun hji => hqj ⟨rfl, hji⟩
  · unfold Kernel.table
    rw [h.proc q hqm]

/-- **A fault of the group or of the child keeps them apart.** -/
theorem Apart.faulted (h : Apart p c k) (hm : Running k m) (hi : i < 128) (hf : Faulted m i k k₁) :
    Apart p c k₁ := by
  have hm0 := hm.pos
  have hstranger : ¬ InGroup k₁ p c := fun hc => h.stranger (hf.inGroup.mp hc)
  refine ⟨hf.sound, hf.running.mpr h.child, hstranger, fun q hq hgroup j hj hv hw x hx => ?_⟩
  have hq' := hf.running.mp hq
  have hgroup' := hf.inGroup.mp hgroup
  have hqc : q ≠ c := fun he => hstranger (he ▸ hgroup)
  have hmem : ∀ r y, Running k r → y < 128 → (r, y) ∈ slots k.max_pid := fun r y hr hy =>
    mem_slots.mpr ⟨hr.le, by simp only; omega⟩
  have hc0 := h.child.pos
  have hq0 := hq.pos
  have hframe : (k₁.table q j).frame = some (k₁.table q j).pfn := frame_eq_some.mpr ⟨hv, rfl⟩
  -- a frame that only the faulting page refers to is not in two tables
  have hown : ∀ r y r' y', Running k r → y < 128 → Running k r' → y' < 128 →
      refs (slots k.max_pid) (mapping k₁) (k₁.table q j).pfn = 1 →
      (k₁.table r y).frame = some (k₁.table q j).pfn →
      (k₁.table r' y').frame = some (k₁.table q j).pfn → r = r' := by
    intro r y r' y' hr hy hr' hy' hone hfr hfr'
    have hr0 := hr.pos
    have hr0' := hr'.pos
    have := RefCount.eq_of_refs_le_one hone.le (hmem r y hr hy)
      (by rw [mapping_table (by omega) hy]; exact hfr) (hmem r' y' hr' hy')
      (by rw [mapping_table (by omega) hy']; exact hfr')
    exact (Prod.mk.inj this).1
  intro hfc
  rcases hf.outcome with ⟨ht, -⟩ | ⟨hv', -, hone, -⟩
  · -- the table is as it was
    have hsame : ∀ r y, k₁.table r y = k.table r y := by
      intro r y
      by_cases hry : r = m ∧ y = i
      · rw [hry.1, hry.2, ht]
      · exact hf.table_other hry
    rw [hsame] at hv hw hfc
    rw [hsame] at hfc
    exact h.apart q hq' hgroup' j hj hv hw x hx hfc
  · have hframe' : (k₁.table m i).frame = some (k₁.table m i).pfn := frame_eq_some.mpr ⟨hv', rfl⟩
    by_cases hqj : q = m ∧ j = i
    · obtain ⟨rfl, rfl⟩ := hqj
      exact hqc (hown q j c x hq' hj h.child hx hone hframe hfc)
    · by_cases hcx : c = m ∧ x = i
      · obtain ⟨rfl, rfl⟩ := hcx
        have hpfn : (k₁.table c x).pfn = (k₁.table q j).pfn := (frame_eq_some.mp hfc).2
        rw [hpfn] at hone
        exact hqc (hown q j c x hq' hj h.child hx hone hframe hfc)
      · rw [hf.table_other hqj] at hv hw hfc
        rw [hf.table_other hcx] at hfc
        exact h.apart q hq' hgroup' j hj hv hw x hx hfc

theorem Apart.poke (h : Apart p c k) (hm : Running k m) (hi : i < 128)
    (hv : (k.table m i).valid = true) (o : Nat) (b : UInt8) :
    Apart p c (k.poke (k.table m i).pfn o b) :=
  ⟨h.sound.poke hm hi hv o b, ⟨h.child.pos, h.child.le, h.child.live⟩, h.stranger,
    fun q hq => h.apart q ⟨hq.pos, hq.le, hq.live⟩⟩

theorem Apart.step {w : Write} (h : Apart p c k) (hw : AfterFork p c k w k') : Apart p c k' := by
  have hi := (trap_index hw.lo hw.hi).2
  rcases userWrite_cases h.sound hw.running hw.lo hw.hi hw.run with
    ⟨hv, -, hk'⟩ | ⟨-, k₁, hf, ⟨rfl, -⟩ | ⟨hv, -, hk'⟩⟩
  · rw [hk']
    exact h.poke hw.running hi hv _ _
  · exact h.faulted hw.running hi hf
  · rw [hk']
    exact (h.faulted hw.running hi hf).poke (hf.running.mpr hw.running) hi hv _ _

/-! ## What the child reads -/

/-- A store of the group leaves the pages of the child alone. -/
theorem Apart.pageOf_poke (h : Apart p c k) (hm : Running k m) (hgroup : InGroup k p m)
    (hi : i < 128) (hv : (k.table m i).valid = true) (hw : (k.table m i).writable = true) (o : Nat)
    (b : UInt8) (hj : j < 128) :
    pageOf (k.poke (k.table m i).pfn o b) c j = pageOf k c j := by
  rw [Yalnix.pageOf_poke, if_neg (h.apart m hm hgroup i hi hv hw j hj)]

/-- A store of the child itself changes one byte of it. -/
theorem Sound.load_poke (h : Sound k) (hc : Running k c) (hlo : VMEM_1_BASE ≤ a)
    (hhi : a < VMEM_1_LIMIT) {a' : Int} (hlo' : VMEM_1_BASE ≤ a') (hhi' : a' < VMEM_1_LIMIT)
    (hv : (k.table c (userPage a')).valid = true) (hne : a' ≠ a) {b' : UInt8}
    (hload : load k c a = some b) :
    load (k.poke (k.table c (userPage a')).pfn (pageOffset a') b') c a = some b := by
  have hi := (trap_index hlo hhi).2
  have hi' := (trap_index hlo' hhi').2
  have hc' : 0 < c ∧ c ≤ k.max_pid := ⟨hc.pos, hc.le⟩
  have hs := h.poke hc hi' hv (pageOffset a') b'
  rw [load_eq_pageOf h.tables hc' hlo hhi] at hload
  rw [load_eq_pageOf hs.tables hc' hlo hhi, Yalnix.pageOf_poke]
  split
  · rename_i hfr
    have hsame := h.distinct c hc.pos hc.le _ hi _ hi' _ hfr (frame_eq_some.mpr ⟨hv, rfl⟩)
    have hoff := pageOffset_ne hlo hlo' hsame hne.symm
    rw [Option.map_map]
    rw [← hload]
    congr 1
    funext pg
    exact Function.update_of_ne hoff _ _
  · exact hload

/-- **A byte the child does not write itself stays.** -/
theorem Apart.load_step {w : Write} (h : Apart p c k) (hw : AfterFork p c k w k')
    (hload : load k c a = some b) (hne : w.writer = c → w.address ≠ a) : load k' c a = some b := by
  have hi := (trap_index hw.lo hw.hi).2
  have ha : VMEM_1_BASE ≤ a ∧ a < VMEM_1_LIMIT := by
    by_contra hna
    rw [load_of_not_range hna] at hload
    cases hload
  have hia := (trap_index ha.1 ha.2).2
  have hc : 0 < c ∧ c ≤ k.max_pid := ⟨h.child.pos, h.child.le⟩
  have hpage : ∀ {k₁ k₂ : Kernel}, Apart p c k₁ → Apart p c k₂ →
      pageOf k₂ c (userPage a) = pageOf k₁ c (userPage a) → load k₂ c a = load k₁ c a := by
    intro k₁ k₂ h₁ h₂ heq
    rw [load_eq_pageOf h₁.sound.tables ⟨h₁.child.pos, h₁.child.le⟩ ha.1 ha.2,
      load_eq_pageOf h₂.sound.tables ⟨h₂.child.pos, h₂.child.le⟩ ha.1 ha.2, heq]
  by_cases hwc : w.writer = c
  · -- the child itself: a fault keeps its page, and the store is at another address
    have hdata : dataIndex (k.proc c).info ≤ userPage w.address := by
      rcases hw.writer with hg | ⟨-, hd⟩
      · exact absurd (hwc ▸ hg) h.stranger
      · exact hd
    have hrun := hw.run
    rw [hwc] at hrun
    rcases userWrite_cases h.sound h.child hw.lo hw.hi hrun with
      ⟨hv, -, rfl⟩ | ⟨hnw, k₁, hf, hend⟩
    · exact h.sound.load_poke h.child ha.1 ha.2 hw.lo hw.hi hv (hne hwc) hload
    · have h₁ : Apart p c k₁ := h.faulted h.child hi hf
      have hload₁ : load k₁ c a = some b := by
        rw [hpage h h₁, hload]
        by_cases hsame : userPage a = userPage w.address
        · have hv : (k.table c (userPage w.address)).valid = true := by
            rw [load_eq_pageOf h.sound.tables hc ha.1 ha.2, hsame] at hload
            rw [← pageOf_isSome]
            cases hpg : pageOf k c (userPage w.address) with
            | none =>
              rw [hpg] at hload
              cases hload
            | some pg => rfl
          have hcow : (k.table c (userPage w.address)).cow = true :=
            ((h.sound.process c h.child).data _ hi hdata hv).resolve_left fun hw' => hnw ⟨hv, hw'⟩
          rw [hsame]
          rcases hf.outcome with ⟨-, hpg⟩ | ⟨-, -, -, hpg⟩
          · exact hpg
          · exact hpg hcow
        · exact hf.page c hc.1 hc.2 _ hia fun hcs => hsame hcs.2
      rcases hend with ⟨rfl, -⟩ | ⟨hv₁, -, rfl⟩
      · exact hload₁
      · exact h₁.sound.load_poke h₁.child ha.1 ha.2 hw.lo hw.hi hv₁ (hne hwc) hload₁
  · -- a member of the group
    have hgroup : InGroup k p w.writer := by
      rcases hw.writer with hg | ⟨he, -⟩
      · exact hg
      · exact absurd he hwc
    have h' := h.step hw
    rcases userWrite_cases h.sound hw.running hw.lo hw.hi hw.run with
      ⟨hv, hwr, hk'⟩ | ⟨-, k₁, hf, hend⟩
    · rw [hpage h h', hload]
      rw [hk']
      exact h.pageOf_poke hw.running hgroup hi hv hwr _ _ hia
    · have h₁ : Apart p c k₁ := h.faulted hw.running hi hf
      have hsame₁ : pageOf k₁ c (userPage a) = pageOf k c (userPage a) :=
        hf.page c hc.1 hc.2 _ hia fun hcs => hwc hcs.1.symm
      rw [hpage h h', hload]
      rcases hend with ⟨rfl, -⟩ | ⟨hv₁, hwr₁, hk'⟩
      · exact hsame₁
      · rw [hk', h₁.pageOf_poke (hf.running.mpr hw.running) (hf.inGroup.mpr hgroup) hi hv₁ hwr₁ _ _ hia]
        exact hsame₁

/-- **In a run of writes, the bytes the child does not write stay.** -/
theorem Apart.load_run {ws : List Write} (h : Apart p c k) (hrun : Run (AfterFork p c) k ws k')
    (hload : load k c a = some b) (hne : ∀ w ∈ ws, w.writer = c → w.address ≠ a) :
    load k' c a = some b := by
  induction hrun with
  | nil => exact hload
  | cons head _ ih =>
    exact ih (h.step head) (h.load_step head hload (hne _ List.mem_cons_self))
      fun w hw => hne w (List.mem_cons_of_mem _ hw)

/-! ## At the fork -/

/-- No thread of `p` has a writable entry for a frame that `p` maps below page `sb`. -/
def NoWritableThread (k : Kernel) (p sb : Nat) : Prop :=
  ∀ t, Running k t → (k.proc t).thread_leader = some p → ∀ i < 128, (k.table t i).valid = true →
    (k.table t i).writable = true → ∀ j < sb, (k.table p j).frame ≠ some (k.table t i).pfn

/-- **A fork that finds no writable entry in the threads sets the child apart.** -/
theorem Spawned.apart {leak : Nat → Nat} (hs : Spawned k k' p n sb l PTE.shared none) (h : Sound k)
    (h' : Sound k') (hb : Counted k (slots n) leak l) (hmax : k.max_pid = n) (hp : Running k p)
    (hleader : (k.proc p).thread_leader = none) (hno : NoWritableThread k p sb) :
    Apart p (n + 1) k' := by
  have hpn : 0 < p ∧ p ≤ n := ⟨hp.pos, hmax ▸ hp.le⟩
  obtain ⟨f₀, f₁, -, -, hchild⟩ := hs.child
  have hnone : (k'.proc (n + 1)).thread_leader = none := by rw [hchild]
  refine ⟨h', ⟨by omega, hs.max_pid.ge, by rw [hchild]⟩, ?_, fun m hm hgroup i hi hv hw j hj => ?_⟩
  · rintro (he | he)
    · omega
    · rw [hnone] at he
      cases he
  -- a frame in use before the fork is none the child got for its stack
  have hstack : ∀ q, 0 < q ∧ q ≤ n → (k.table q i).frame = some (k.table q i).pfn → sb ≤ j →
      (k'.table (n + 1) j).frame ≠ some (k.table q i).pfn := by
    intro q hq hf hle hfc
    refine hb.entry_not_free hq hi hf (hs.mapping_above hle (by omega) ?_)
    rw [mapping_table (by omega) hj]
    exact hfc
  have hbelow : j < sb → (k'.table (n + 1) j).frame = (k.table p j).frame := by
    intro hlow
    rw [hs.below j hlow, shared_frame]
  rcases hgroup with rfl | hthread
  · rw [hs.table_parent] at hv hw ⊢
    by_cases hlow : i < sb
    · -- below the stack pointer the leader has lost its write bits
      rw [if_pos hlow] at hv hw
      have hv₀ : (k.table m i).valid = true := by
        cases he : (k.table m i).valid with
        | true => rfl
        | false =>
          rw [shared_of_invalid he, he] at hv
          cases hv
      rw [(shared_flags hv₀).1] at hw
      cases hw
    · rw [if_neg hlow] at hv ⊢
      have hf := frame_eq_some.mpr ⟨hv, rfl⟩
      by_cases hlowj : j < sb
      · rw [hbelow hlowj]
        intro hfj
        have := h.distinct m hp.pos hp.le i hi j hj _ hf hfj
        omega
      · exact hstack m hpn hf (by omega)
  · rcases hs.running_old hp hmax hm with rfl | ⟨hmn, hr⟩
    · rw [hnone] at hthread
      cases hthread
    · have hmp : m ≠ p := by
        rintro rfl
        rw [hs.parent] at hthread
        change (k.proc m).thread_leader = _ at hthread
        rw [hleader] at hthread
        cases hthread
      have hne : m ≠ n + 1 := by omega
      rw [hs.table_other hmp hne] at hv hw ⊢
      rw [hs.other m hmp hne] at hthread
      have hf := frame_eq_some.mpr ⟨hv, rfl⟩
      by_cases hlowj : j < sb
      · rw [hbelow hlowj]
        exact hno m hr hthread i hi hv hw j hlowj
      · exact hstack m ⟨hm.pos, hmn⟩ hf (by omega)

/-- **A thread with a writable entry for a frame of the child reaches the child's memory.** -/
theorem thread_write_reaches_child (h : Sound k) (hc : Running k c) (ht : Running k t)
    (hgroup : InGroup k p t) (hi : i < 128) (hj : j < 128) (hv : (k.table t i).valid = true)
    (hw : (k.table t i).writable = true) (hframe : (k.table c j).frame = some (k.table t i).pfn) :
    ∃ b k', AfterFork p c k ⟨t, firstContext, pageAddress i, b + 1⟩ k' ∧
      load k c (pageAddress j) = some b ∧ load k' c (pageAddress j) = some (b + 1) := by
  obtain ⟨hlo, hhi, hpage, hoff⟩ := pageAddress_spec hi
  obtain ⟨hloj, hhij, hpagej, hoffj⟩ := pageAddress_spec hj
  obtain ⟨b, hload⟩ : ∃ b, load k c (pageAddress j) = some b := by
    rw [load_eq_pageOf h.tables ⟨hc.pos, hc.le⟩ hloj hhij, hpagej]
    unfold pageOf
    rw [hframe]
    exact ⟨_, rfl⟩
  have hstore := store_of_writable (b := b + 1) hlo hhi (p := t) (k := k)
    (by rw [hpage]; exact hv) (by rw [hpage]; exact hw)
  rw [hpage, hoff] at hstore
  refine ⟨b, k.poke (k.table t i).pfn 0 (b + 1), ⟨ht, .inl hgroup, hlo, hhi, ?_⟩, hload, ?_⟩
  · unfold userWrite
    rw [hstore]
  · have hs := h.poke ht hi hv 0 (b + 1)
    rw [load_eq_pageOf hs.tables ⟨hc.pos, hc.le⟩ hloj hhij, hpagej, Yalnix.pageOf_poke,
      if_pos hframe, hoffj]
    unfold pageOf
    rw [hframe]
    simp

/-- The child `c` keeps what it has not written, whatever the group of `p` and `c` write. -/
def KeepsItsBytes (k : Kernel) (p c : Nat) : Prop :=
  ∀ ws k', Run (AfterFork p c) k ws k' → ∀ a b, load k c a = some b →
    (∀ w ∈ ws, w.writer = c → w.address ≠ a) → load k' c a = some b

/-- A thread that could write in place, at the fork, to a frame the child came to share. -/
theorem Spawned.not_keepsItsBytes (hs : Spawned k k' p n sb l PTE.shared none) (h' : Sound k')
    (hmax : k.max_pid = n) (hsb : sb ≤ 128) (ht : Running k t) (htp : t ≠ p)
    (hthread : (k.proc t).thread_leader = some p) (hi : i < 128) (hv : (k.table t i).valid = true)
    (hw : (k.table t i).writable = true) (hj : j < sb)
    (hframe : (k.table p j).frame = some (k.table t i).pfn) : ¬ KeepsItsBytes k' p (n + 1) := by
  have htn : t ≠ n + 1 := by
    have := ht.le
    omega
  obtain ⟨f₀, f₁, -, -, hnew⟩ := hs.child
  have hproc := hs.other t htp htn
  have htable := hs.table_other htp htn
  have hrun : Running k' t := by
    have hle := ht.le
    have hmax' := hs.max_pid
    exact ⟨ht.pos, by omega, by rw [hproc]; exact ht.live⟩
  have hchild : Running k' (n + 1) := ⟨by omega, hs.max_pid.ge, by rw [hnew]⟩
  obtain ⟨b, k'', hw', hload, hload'⟩ := thread_write_reaches_child (p := p) (i := i) (j := j) h'
    hchild hrun (.inr (by rw [hproc]; exact hthread)) hi (by omega) (by rw [htable]; exact hv)
    (by rw [htable]; exact hw) (by rw [htable, hs.below j hj, shared_frame]; exact hframe)
  intro hkeeps
  have hkept := hkeeps _ k'' (.single hw') _ b hload fun w hmem he => by
    rw [List.mem_singleton.mp hmem] at he
    exact absurd he htn
  rw [hload'] at hkept
  simp at hkept

theorem NoWritableThread.saveUserContext (context : UserContext) :
    NoWritableThread (saveUserContext q context k) p sb ↔ NoWritableThread k p sb := by
  have hleader : ∀ t, ((Yalnix.saveUserContext q context k).proc t).thread_leader =
      (k.proc t).thread_leader := fun t => by rw [proc_saveUserContext]
  unfold NoWritableThread
  simp only [running_saveUserContext, hleader, table_saveUserContext]

/-- **A forked child is isolated from every thread of its parent exactly if none of them could
write in place, at the fork, to a frame the child came to share.** -/
theorem fork_isolates_iff {k₀ : Kernel} {ops : List GroupOp} {context : UserContext} {child : Int}
    (h₀ : Sound k₀) (hrun : Run GroupStep k₀ ops k)
    (hfork : GroupStep k (.fork p context child) k') (hchild : child ≠ ERROR) :
    KeepsItsBytes k' p child.toNat ↔ NoWritableThread k p (stackIndex context.sp) := by
  have h := (sound_of_run h₀ hrun).saveUserContext p context
  rw [← NoWritableThread.saveUserContext (q := p) context]
  cases hfork with
  | fork running frames fit run =>
    have hp : Running (saveUserContext p context k) p := running_saveUserContext.mpr running
    obtain ⟨h', hout⟩ := h.fork hp frames fit.saved run
    obtain ⟨herr, -⟩ | ⟨rfl, hleader, hsb, leak, l, hb, hs⟩ := hout
    · exact absurd herr hchild
    · have hstack : (stack_base p (saveUserContext p context k)).toNat = stackIndex context.sp := by
        rw [stack_base_saveUserContext]
        rfl
      rw [hstack] at hs hsb
      rw [Int.toNat_natCast]
      constructor
      · intro hkeeps t ht hthread i hi hv hw j hj hframe
        have htp : t ≠ p := by
          rintro rfl
          rw [hleader] at hthread
          cases hthread
        exact hs.not_keepsItsBytes h' rfl hsb ht htp hthread hi hv hw hj hframe hkeeps
      · intro hno ws k'' hws a b hload hne
        exact (hs.apart h h' hb.1 rfl hp hleader hno).load_run hws hload hne

/-- A thread made after a fork writes in place to its stack only. -/
theorem thread_after_fork {k₀ k₁ k₂ : Kernel} {context : UserContext} {n : Nat} {l₁ l₂ : List Nat}
    (hs₁ : Spawned k₀ k₁ p n sb l₁ PTE.shared none)
    (hs₂ : Spawned (saveUserContext p context k₁) k₂ p (n + 1) sb l₂ id (some p))
    (hp : 0 < p ∧ p ≤ n) (hi : i < 128) (hv : (k₂.table (n + 2) i).valid = true)
    (hw : (k₂.table (n + 2) i).writable = true) (hj : j < sb) :
    (k₂.table p j).frame ≠ some (k₂.table (n + 2) i).pfn := by
  by_cases hlt : i < sb
  · -- the thread shares it, and so does the child of the fork
    have hentry : k₂.table (n + 2) i = (k₀.table p i).shared := by
      rw [hs₂.below i hlt, table_saveUserContext, hs₁.table_parent i, if_pos hlt]
      rfl
    rw [hentry] at hv hw
    have hvalid : (k₀.table p i).valid = true := by
      cases h : (k₀.table p i).valid with
      | true => rfl
      | false =>
        rw [shared_of_invalid h, h] at hv
        cases hv
    rw [(shared_flags hvalid).1] at hw
    cases hw
  · -- the frame is one of those the thread has got
    have hcopy := hs₂.above i (not_lt.mp hlt) hi
    have hvalid : ((saveUserContext p context k₁).table p i).valid = true := by
      cases h : ((saveUserContext p context k₁).table p i).valid with
      | true => rfl
      | false =>
        rw [hcopy.invalid h, h] at hv
        cases hv
    intro hframe
    have hslot := RefCount.eq_of_refs_le_one (hs₂.fresh _ (hcopy.valid hvalid).1)
      (x := (n + 2, i)) (y := (p, j)) (mem_slots.mpr ⟨by omega, by omega⟩)
      (mapping_of_valid (by omega) hi hv) (mem_slots.mpr ⟨by simp only; omega, by simp only; omega⟩)
      (by rw [mapping_table (by omega) (by omega)]; exact hframe)
    have heq := congrArg Prod.fst hslot
    simp only at heq
    omega

/-- The first process forks, makes a thread and forks again: the thread writes in place to its stack
only, and the second child keeps what it has. -/
theorem fork_isolates_machine : ∃ k₂ k₃, Run GroupStep (machine 9)
      [.fork 1 firstContext 2, .createThread 1 firstContext 3] k₂ ∧ Running k₂ 3 ∧
    (k₂.proc 3).thread_leader = some 1 ∧ GroupStep k₂ (.fork 1 firstContext 4) k₃ ∧
    KeepsItsBytes k₃ 1 4 := by
  have hN : 9 ≤ 65536 := by omega
  have hmax := max_pid_machine hN
  have hpages : ∀ k, stackPages k 1 127 ≤ 1 := fun k => stackPages_le (k := k) (p := 1)
  obtain ⟨k₁, l₁, -, hstep₁, -, hs₁, hroom₁⟩ := (machine_sound hN).fork_step (machine_roomy hN)
    (running_machine hN) (by rw [proc_machine hN]; rfl) (by rw [hmax]; unfold LONG_MAX; omega)
    firstContext_sp (by omega) (by have := hpages (machine 9); omega) (by omega)
  rw [hmax] at hstep₁ hs₁
  have h₁ := (machine_sound hN).step hstep₁
  have hmax₁ : k₁.max_pid = 2 := hs₁.max_pid
  have hleader₁ : (k₁.proc 1).thread_leader = none := by
    rw [hs₁.leader_parent, proc_saveUserContext, proc_machine hN]
    rfl
  have hrun₁ : Running k₁ 1 := by
    refine ⟨by omega, by omega, ?_⟩
    rw [hs₁.live_parent]
    exact (running_saveUserContext.mpr (running_machine hN)).live
  obtain ⟨k₂, l₂, -, hstep₂, -, hs₂, hroom₂⟩ := h₁.createThread_step hroom₁ hrun₁ hleader₁
    (by rw [hmax₁]; unfold LONG_MAX; omega) firstContext_sp (by omega)
    (by have := hpages (machine 9); have := hpages k₁; omega) (by omega)
  rw [hmax₁] at hstep₂ hs₂
  have h₂ := h₁.step hstep₂
  have hmax₂ : k₂.max_pid = 3 := hs₂.max_pid
  have hleader₂ : (k₂.proc 1).thread_leader = none := by
    rw [hs₂.leader_parent, proc_saveUserContext]
    exact hleader₁
  have hrun₂ : Running k₂ 1 := by
    refine ⟨by omega, by omega, ?_⟩
    rw [hs₂.live_parent]
    exact (running_saveUserContext.mpr hrun₁).live
  obtain ⟨f₀, f₁, -, -, hthread⟩ := hs₂.child
  obtain ⟨k₃, -, -, hstep₃, -⟩ := h₂.fork_step hroom₂ hrun₂ hleader₂
    (by rw [hmax₂]; unfold LONG_MAX; omega) firstContext_sp (by omega)
    (by have := hpages (machine 9); have := hpages k₁; have := hpages k₂; omega) (by omega)
  rw [hmax₂] at hstep₃
  have hrun : Run GroupStep (machine 9) [.fork 1 firstContext 2, .createThread 1 firstContext 3] k₂ :=
    .cons hstep₁ (.single hstep₂)
  refine ⟨k₂, k₃, hrun, ⟨by omega, by omega, by rw [hthread]⟩, by rw [hthread], hstep₃,
    (fork_isolates_iff (machine_sound hN) hrun hstep₃ (by decide)).mpr ?_⟩
  intro t ht hled i hi hv hw j hj
  have hle := ht.le
  have hpos := ht.pos
  have hother : t ≠ 1 ∧ t ≠ 2 := by
    constructor
    · rintro rfl
      rw [hleader₂] at hled
      cases hled
    · rintro rfl
      obtain ⟨g₀, g₁, -, -, hchild⟩ := hs₁.child
      rw [hs₂.other 2 (by omega) (by omega), proc_saveUserContext, hchild] at hled
      cases hled
  obtain rfl : t = 3 := by omega
  exact thread_after_fork (n := 1) hs₁ hs₂ ⟨by omega, by omega⟩ hi hv hw hj

/-- **The first process makes a thread and then forks: the thread still writes in place to the data
page that parent and child share, and the child sees what it writes.** -/
theorem thread_write_after_fork : ∃ k₁ k₂, Sound (machine 6) ∧
    Run GroupStep (machine 6) [.createThread 1 firstContext 2] k₁ ∧
    GroupStep k₁ (.fork 1 firstContext 3) k₂ ∧ ¬ KeepsItsBytes k₂ 1 3 := by
  have hN : 6 ≤ 65536 := by omega
  obtain ⟨k₁, l₁, -, hstep₁, -, hs₁, r, hr, hroom⟩ := machine_thread (N := 3) hN
  have h₁ : Sound k₁ := (machine_sound hN).step hstep₁
  have hmax : k₁.max_pid = 2 := hs₁.max_pid
  obtain ⟨f₀, f₁, -, -, hnew⟩ := hs₁.child
  have hparent : ((saveUserContext 1 firstContext (machine 6)).proc 1).thread_leader = none := by
    rw [proc_saveUserContext, proc_machine hN]
    rfl
  have hfirst : ∀ i, k₁.table 1 i = firstProcess.page_table i := by
    intro i
    rw [hs₁.table_parent, table_saveUserContext, table_machine hN]
    split <;> rfl
  have hthread : k₁.table 2 1 = firstProcess.page_table 1 := by
    rw [hs₁.below 1 (by omega), table_saveUserContext, table_machine hN]
    rfl
  have hrunning : Running k₁ 1 := by
    refine ⟨by omega, by omega, ?_⟩
    rw [hs₁.live_parent]
    exact (running_saveUserContext.mpr (running_machine hN)).live
  obtain ⟨k₂, l₂, -, hstep₂, -, hs₂, -⟩ := h₁.fork_step hroom hrunning
    (by rw [hs₁.parent]; exact hparent) (by rw [hmax]; unfold LONG_MAX; omega) firstContext_sp
    (by omega) (by have := stackPages_le (k := k₁) (p := 1); omega) (by omega)
  rw [hmax] at hstep₂ hs₂
  refine ⟨k₁, k₂, machine_sound hN, .single hstep₁, hstep₂, ?_⟩
  refine hs₂.not_keepsItsBytes (t := 2) (i := 1) (j := 1) (h₁.step hstep₂) hmax (by omega)
    (running_saveUserContext.mpr ⟨by omega, by omega, by rw [hnew]⟩) (by omega) ?_ (by omega) ?_ ?_
    (by omega) ?_
  · rw [proc_saveUserContext, hnew]
  · rw [table_saveUserContext, hthread]
    rfl
  · rw [table_saveUserContext, hthread]
    decide
  · rw [table_saveUserContext, hthread, hfirst]
    rfl

end Yalnix
