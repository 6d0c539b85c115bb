import Yalnix.Process.Break

/-!
# Isolation of processes without threads

The invariant of runs that create no threads: counts are exact, and a writable entry is the only
reference to its frame.

* `Isolated` — the invariant, on top of `Sound`.
* `Isolated.fork`, `Isolated.write`, `Isolated.shrink`, `Isolated.exit`, `Isolated.described` —
  what each operation preserves, and what it does to the pages of all processes.
-/

set_option autoImplicit false

namespace Yalnix

open RefCount (refs)

variable {k k' k₁ : Kernel} {l l' : List Nat} {f f₀ f₁ g p q n sb i : Nat} {a : Int} {b : UInt8}

/-! ## Tables that map a frame -/

/-- The number of region-1 page tables that map a frame. -/
def tablesMapping (k : Kernel) (f : Nat) : Nat :=
  ((Finset.Icc 1 k.max_pid).filter fun p =>
    ∃ i ∈ Finset.range 128, (k.table p i).frame = some f).card

/-- Where no table maps a frame twice, counting entries is counting tables. -/
theorem regionRefs_eq_tables (h : DistinctFrames k) (f : Nat) :
    regionRefs k f = tablesMapping k f := by
  unfold regionRefs tablesMapping refs
  refine Eq.trans (Finset.card_image_of_injOn (f := Prod.fst) ?_).symm (congrArg Finset.card ?_)
  rotate_left
  · ext p
    simp only [Finset.mem_image, Finset.mem_filter, mem_regionSlots, Finset.mem_Icc,
      Finset.mem_range]
    constructor
    · rintro ⟨⟨q, i⟩, ⟨⟨h0, hq, hi⟩, hm⟩, rfl⟩
      exact ⟨⟨h0, hq⟩, i, hi, hm⟩
    · rintro ⟨⟨h0, hp⟩, i, hi, hm⟩
      exact ⟨(p, i), ⟨⟨h0, hp, hi⟩, hm⟩, rfl⟩
  · rintro ⟨p, i⟩ hx ⟨q, j⟩ hy hpq
    simp only [Finset.coe_filter, Set.mem_ofPred_eq, mem_regionSlots] at hx hy hpq
    obtain ⟨⟨h0, hp, hi⟩, hm⟩ := hx
    obtain ⟨⟨-, -, hj⟩, hm'⟩ := hy
    subst hpq
    rw [h p h0 hp i hi j hj f hm hm']

/-! ## The invariant -/

/-- A page that can be written in place belongs to one process only. -/
def Exclusive (k : Kernel) : Prop := ∀ p, 0 < p → p ≤ k.max_pid → ∀ i < 128,
  (k.table p i).valid = true → (k.table p i).writable = true →
    refs (slots k.max_pid) (mapping k) (k.table p i).pfn = 1

structure Isolated (k : Kernel) : Prop where
  sound : Sound k
  exact : Exact k
  exclusive : Exclusive k

/-- In an exact state the bound on references is that of `Bounded`. -/
theorem Exact.bounded (h : Exact k) (hc : Counted k (slots k.max_pid) (fun _ => 0) l) :
    Bounded k (fun _ => 0) l := ⟨hc, fun f => h.bound f⟩

theorem Isolated.saveUserContext (h : Isolated k) (p : Nat) (context : UserContext) :
    Isolated (saveUserContext p context k) := by
  refine ⟨h.sound.saveUserContext p context, h.exact.saveUserContext p context, ?_⟩
  unfold Exclusive
  rw [table_saveUserContext, mapping_saveUserContext]
  exact h.exclusive

/-- Where references only go away and entries keep their flags, exclusive frames stay exclusive. -/
theorem Exclusive.of_unmapped (h : Exclusive k) (hmax : k'.max_pid = k.max_pid)
    (hrefs : ∀ f, refs (slots k.max_pid) (mapping k') f ≤ refs (slots k.max_pid) (mapping k) f)
    (hentry : ∀ q i, k'.table q i = PTE.clear ∨ k'.table q i = k.table q i) : Exclusive k' := by
  intro q hq0 hq i hi hv hw
  rw [hmax] at hq ⊢
  have hpos : 0 < refs (slots k.max_pid) (mapping k') (k'.table q i).pfn :=
    RefCount.refs_pos (x := (q, i)) (mem_slots.mpr ⟨hq, by simp only; omega⟩)
      (mapping_of_valid (by omega) hi hv)
  rcases hentry q i with hc | hs
  · rw [hc] at hv
    cases hv
  · have h1 := h q hq0 hq i hi (hs ▸ hv) (hs ▸ hw)
    rw [← hs] at h1
    have := hrefs (k'.table q i).pfn
    omega

/-! ## Forks -/

section Fork

variable (h : Isolated k) (hl : Counted k (slots n) (fun _ => 0) l)
  (hs : Spawned k k' p n sb l PTE.shared none) (hmax : k.max_pid = n) (hp : Running k p)
  (hsb : sb ≤ 128)

include h hl hs hmax hp hsb

/-- If no frame ends up in more than 127 tables, no counter overflows. -/
theorem Isolated.noOverflow_fork (hfew : ∀ f, tablesMapping k' f ≤ 127) (f : Nat) :
    regionRefs k f + sharesBelow k p sb f ≤ 127 := by
  have hdistinct : DistinctFrames k' :=
    hs.distinct shared_frame h.sound.distinct hmax hl ⟨hp.pos, hmax ▸ hp.le⟩
  by_cases hk : KernelFrame k f
  · have h0 := ((h.exact.frc_eq f).2 hk).2
    have := sharesBelow_le k ⟨hp.pos, hp.le⟩ hsb f
    omega
  · by_cases hf : f ∈ l
    · have h0 : refs (slots k.max_pid) (mapping k) f = 0 := by
        have := hl.counts.free f hf
        rw [hmax]
        omega
      have := sharesBelow_le k ⟨hp.pos, hp.le⟩ hsb f
      rw [refs_slots_of_not_kernel hk] at h0
      omega
    · have hk' : ¬ KernelFrame k' f := by
        rintro ⟨x, hx, hkx, hm⟩
        rw [hs.max_pid] at hx
        by_cases hx1 : x ∈ slots n
        · rw [hs.mapping_old shared_frame hx1] at hm
          exact hk ⟨x, hmax.symm ▸ hx1, hkx, hm⟩
        · obtain ⟨q, j⟩ := x
          rw [mem_slots] at hx hx1
          obtain rfl : q = n + 1 := by simp only at hx hx1; omega
          exact hf (hs.mapping_above (by simp only at hkx; omega) hx.2 hm)
      have hrefs := hs.refs_old shared_frame hsb hf
      rw [← hmax, refs_slots_of_not_kernel hk, hmax, ← hs.max_pid, refs_slots_of_not_kernel hk',
        regionRefs_eq_tables hdistinct] at hrefs
      have := hfew f
      omega

/-- An entry that may be written after the fork is the only reference to its frame. -/
theorem Isolated.exclusive_fork : Exclusive k' := by
  intro q hq0 hq i hi hv hw
  have hpos : 0 < refs (slots k'.max_pid) (mapping k') (k'.table q i).pfn :=
    RefCount.refs_pos (x := (q, i)) (mem_slots.mpr ⟨hq, by simp only; omega⟩)
      (mapping_of_valid (by omega) hi hv)
  rw [hs.max_pid] at hq hpos ⊢
  -- an old entry that stays as it is has a frame the child does not share
  have hold : ∀ e : PTE, q ≤ n → k'.table q i = e → k.table q i = e → (q = p → sb ≤ i) →
      refs (slots (n + 1)) (mapping k') e.pfn = 1 := by
    intro e hqn he' he hpi
    rw [he'] at hv hw
    have h1 := h.exclusive q hq0 (hmax ▸ hqn) i hi (he ▸ hv) (he ▸ hw)
    rw [he, hmax] at h1
    have hmi : mapping k (q, i) = some e.pfn := by
      rw [mapping_table (by omega) hi, he]
      exact frame_eq_some.mpr ⟨hv, rfl⟩
    have hmem : (q, i) ∈ slots n := mem_slots.mpr ⟨hqn, by simp only; omega⟩
    have hshare : sharesBelow k p sb e.pfn = 0 := by
      unfold sharesBelow
      rw [RefCount.refs_eq_zero]
      intro j hj hmj
      rw [Finset.mem_range] at hj
      have hpn := hp.le
      have hp0 := hp.pos
      have hx := RefCount.eq_of_refs_le_one (x := (p, j)) (by omega)
        (mem_slots.mpr ⟨by omega, by simp only; omega⟩)
        (by rw [mapping_table (by omega) (by omega)]; exact hmj) hmem hmi
      obtain ⟨rfl, rfl⟩ := Prod.mk.inj hx
      have := hpi rfl
      omega
    rw [hs.refs_old shared_frame hsb (hl.not_free hmem hmi), h1, hshare]
  by_cases hqn : q ≤ n
  · by_cases hqp : q = p
    · subst hqp
      have ht := hs.table_parent i
      by_cases hlow : i < sb
      · rw [if_pos hlow] at ht
        rw [ht, shared_valid] at hv
        rw [ht, (shared_flags hv).1] at hw
        cases hw
      · rw [if_neg hlow] at ht
        exact hold _ hqn rfl ht.symm (fun _ => by omega)
    · exact hold _ hqn rfl (by rw [hs.table_other hqp (by omega)]) (fun he => absurd he hqp)
  · obtain rfl : q = n + 1 := by omega
    by_cases hlow : i < sb
    · rw [hs.below i hlow] at hv hw
      rw [shared_valid] at hv
      rw [(shared_flags hv).1] at hw
      cases hw
    · have hm := mapping_of_valid (k := k') (p := n + 1) (by omega) hi hv
      have := hs.fresh _ (hs.mapping_above (by omega) (by omega) hm)
      omega

/-- **A fork keeps processes isolated.** -/
theorem Isolated.fork (hc : Counted k' (slots (n + 1)) (fun _ => 0) l')
    (hfew : ∀ f, tablesMapping k' f ≤ 127) : Isolated k' := by
  have hno := h.noOverflow_fork hl hs hmax hp hsb hfew
  have hpn : 0 < p ∧ p ≤ n := ⟨hp.pos, hmax ▸ hp.le⟩
  have hexact := h.exact.spawned hmax hl hc hs hpn hsb shared_frame (fun _ => shared_of_invalid)
    shared_readable hno
  refine ⟨?_, hexact, h.exclusive_fork hl hs hmax hp hsb⟩
  refine Sound.spawned hs shared_frame h.sound (h.exact.bounded (hmax.symm ▸ hl)) hmax hp hsb hc
    (fun _ => shared_of_invalid) shared_readable (fun _ => shared_data) fun f => ?_
  by_cases hk : KernelFrame k f
  · have h1 := h.exact.held f hk
    have h0 := ((h.exact.frc_eq f).2 hk).2
    have := sharesBelow_le k ⟨hp.pos, hp.le⟩ hsb f
    rw [hmax] at h1
    omega
  · have := hno f
    rw [← refs_slots_of_not_kernel hk, hmax] at this
    exact this

end Fork

/-- **A descriptor without a page table: two frames are gone, and no page has changed.** -/
theorem Isolated.described (h : Isolated k) (hmax : k.max_pid = n)
    (hl : Counted k (slots n) (fun _ => 0) (f₀ :: f₁ :: l))
    (hc : Counted k' (slots (n + 1)) (fun _ => 0) l) (hd : Described k k' n f₀ f₁ l) :
    Isolated k' := by
  subst hmax
  have hsound := h.sound.described (h.exact.bounded hl) rfl hc hd
  have hold : ∀ q i, 0 < q → q ≤ k.max_pid + 1 → (k'.table q i).valid = true →
      q ≤ k.max_pid ∧ k'.table q i = k.table q i := by
    intro q i _ hq hv
    by_cases hqn : q = k.max_pid + 1
    · unfold Kernel.table at hv
      rw [hqn, hd.proc] at hv
      cases hv
    · rw [hd.only.table_ne hqn]
      exact ⟨by omega, rfl⟩
  refine ⟨hsound, ⟨⟨l, by rw [hd.max_pid]; exact hc⟩, fun f => ?_, fun f hf => ?_, hsound.tables⟩, ?_⟩
  · rw [hd.max_pid]
    by_cases hf : f ∈ f₀ :: f₁ :: l
    · have := hd.fresh f hf
      omega
    · rw [hd.used f hf]
      exact h.exact.bound f
  · obtain ⟨x, hx, hkx, hm⟩ := hf
    rw [hd.max_pid] at hx ⊢
    have hpos := RefCount.refs_pos hx hm
    by_cases hf : f ∈ f₀ :: f₁ :: l
    · have := hd.fresh f hf
      omega
    · by_cases hx1 : x ∈ slots k.max_pid
      · rw [hd.used f hf]
        rw [hd.mapping_old x hx1] at hm
        exact h.exact.held f ⟨x, hx1, hkx, hm⟩
      · exact absurd (hd.mapping_new x hx hx1 f hm).2 hf
  · intro q hq0 hq i hi hv hw
    rw [hd.max_pid] at hq ⊢
    obtain ⟨hqn, ht⟩ := hold q i hq0 hq hv
    rw [ht] at hv hw ⊢
    rw [hd.used _ (hl.entry_not_free ⟨hq0, hqn⟩ hi (frame_eq_some.mpr ⟨hv, rfl⟩))]
    exact h.exclusive q hq0 hqn i hi hv hw

/-! ## Writes -/

/-- A fault leaves writable frames exclusive. -/
theorem Exclusive.faulted (h : Exclusive k) (hf : Faulted p i k k₁) (hp : 0 < p ∧ p ≤ k.max_pid)
    (hi : i < 128) : Exclusive k₁ := by
  intro q hq0 hq j hj hv hw
  rw [hf.max_pid] at hq ⊢
  have hmap := hf.mapping (by omega) hi
  have hx : (p, i) ∈ slots k.max_pid := mem_slots.mpr ⟨hp.2, by simp only; omega⟩
  have hother : ∀ q j, ¬ (q = p ∧ j = i) → k₁.table q j = k.table q j := by
    intro q j hqj
    by_cases hqp : q = p
    · subst hqp
      exact hf.entry j fun hji => hqj ⟨rfl, hji⟩
    · unfold Kernel.table
      rw [hf.proc q hqp]
  rcases hf.outcome with ⟨ht, -⟩ | ⟨hv', hw', hone, -⟩
  · have hsame : k₁.table q j = k.table q j := by
      by_cases hqj : q = p ∧ j = i
      · rw [hqj.1, hqj.2, ht]
      · exact hother q j hqj
    rw [ht, ← mapping_table (by omega) hi, Function.update_eq_self] at hmap
    rw [hsame] at hv hw ⊢
    rw [hmap]
    exact h q hq0 hq j hj hv hw
  · by_cases hqj : q = p ∧ j = i
    · rw [hqj.1, hqj.2]
      exact hone
    · by_cases hg : (k₁.table q j).pfn = (k₁.table p i).pfn
      · rw [hg]
        exact hone
      · have hpos := RefCount.refs_pos (x := (q, j)) (mem_slots.mpr ⟨hq, by simp only; omega⟩)
          (mapping_of_valid (k := k₁) (by omega) hj hv)
        rw [hother q j hqj] at hv hw hg hpos ⊢
        have h1 := h q hq0 hq j hj hv hw
        have hle := RefCount.refs_update_le (m := mapping k) hx hg
        rw [frame_eq_some.mpr ⟨hv', rfl⟩] at hmap
        rw [hmap] at hpos ⊢
        omega

/-- A store into a page of `p` that may be written in place. -/
theorem Isolated.poke (h : Isolated k) (hp : Running k p) (hi : i < 128)
    (hv : (k.table p i).valid = true) (hw : (k.table p i).writable = true) (o : Nat) (b : UInt8) :
    Isolated (k.poke (k.table p i).pfn o b) ∧
      ∀ q, 0 < q → q ≤ k.max_pid → ∀ j < 128, pageOf (k.poke (k.table p i).pfn o b) q j =
        if q = p ∧ j = i then (pageOf k q j).map fun pg => Function.update pg o b
        else pageOf k q j := by
  obtain ⟨l, hl⟩ := h.exact.counted
  have hp0 := hp.pos
  have hframe : (k.table p i).frame = some (k.table p i).pfn := frame_eq_some.mpr ⟨hv, rfl⟩
  have hfree := hl.entry_not_free ⟨hp0, hp.le⟩ hi hframe
  constructor
  · exact ⟨h.sound.poke hp hi hv o b,
      ⟨⟨l, hl.poke hfree o b⟩, h.exact.bound, h.exact.held, h.exact.tables⟩, h.exclusive⟩
  · intro q hq0 hq j hj
    rw [pageOf_poke]
    by_cases hqj : q = p ∧ j = i
    · obtain ⟨rfl, rfl⟩ := hqj
      rw [if_pos hframe, if_pos ⟨rfl, rfl⟩]
    · rw [if_neg hqj, if_neg]
      intro hm
      have h1 := h.exclusive p hp0 hp.le i hi hv hw
      have := RefCount.eq_of_refs_le_one h1.le (x := (q, j)) (y := (p, i))
        (mem_slots.mpr ⟨hq, by simp only; omega⟩) (by rw [mapping_table (by omega) hj]; exact hm)
        (mem_slots.mpr ⟨hp.le, by simp only; omega⟩)
        (by rw [mapping_table (by omega) hi]; exact hframe)
      exact hqj (Prod.mk.inj this)

/-- **A write to a data, heap or stack page stores its byte, in the page of the writer only.** -/
theorem Isolated.write {context : UserContext} (h : Isolated k) (hp : Running k p)
    (hlo : VMEM_1_BASE ≤ a) (hhi : a < VMEM_1_LIMIT)
    (hv : (k.table p (userPage a)).valid = true) (hd : dataIndex (k.proc p).info ≤ userPage a)
    (hrun : userWrite p context a b k = .ok k') :
    Isolated k' ∧ k'.max_pid = k.max_pid ∧ (∀ q, (k'.proc q).info = (k.proc q).info) ∧
      ∀ q, 0 < q → q ≤ k.max_pid → ∀ j < 128, pageOf k' q j =
        if q = p ∧ j = userPage a then
          (pageOf k q j).map fun pg => Function.update pg (pageOffset a) b
        else pageOf k q j := by
  have hi := (trap_index hlo hhi).2
  unfold userWrite at hrun
  cases hw : (k.table p (userPage a)).writable with
  | true =>
    rw [store_of_writable hlo hhi hv hw] at hrun
    simp only [Except.ok.injEq] at hrun
    subst hrun
    obtain ⟨hiso, hpages⟩ := h.poke hp hi hv hw (pageOffset a) b
    exact ⟨hiso, rfl, fun _ => rfl, hpages⟩
  | false =>
    have hnone : store k p a b = none := by
      rw [userEntry_writable hlo hhi, hv, hw]
      rfl
    have hcow : (k.table p (userPage a)).cow = true := by
      rcases (h.sound.process p hp).data (userPage a) hi hd hv with hw' | hc
      · exact absurd (hw.symm.trans hw') (by simp)
      · exact hc
    rw [hnone] at hrun
    simp only [trapMemory, bind, Except.bind] at hrun
    cases htrap : handleMemoryTrap p a (Yalnix.saveUserContext p context k) with
    | error e =>
      rw [htrap] at hrun
      cases hrun
    | ok k₁ =>
      rw [htrap] at hrun
      have hsave := h.saveUserContext p context
      have hrunning : Running (Yalnix.saveUserContext p context k) p :=
        running_saveUserContext.mpr hp
      have hf := hsave.sound.trap hrunning hlo hhi htrap
      have hiso₁ : Isolated k₁ := ⟨hf.sound, hsave.exact.cowTrap hrunning hlo hhi
        (by rw [table_saveUserContext]; exact hcow) htrap,
        hsave.exclusive.faulted hf ⟨hp.pos, hp.le⟩ hi⟩
      have hp₁ : Running k₁ p := hf.running.mpr hrunning
      obtain ⟨hv₁, hw₁⟩ := hf.cow (by rw [table_saveUserContext]; exact hcow)
      -- the trap has changed no page
      have hpages₁ : ∀ q, 0 < q → q ≤ k.max_pid → ∀ j < 128, pageOf k₁ q j = pageOf k q j := by
        intro q hq0 hq j hj
        rw [← pageOf_saveUserContext (k := k) (p := p) context]
        by_cases hqj : q = p ∧ j = userPage a
        · obtain ⟨rfl, rfl⟩ := hqj
          rcases hf.outcome with ⟨-, hpage⟩ | ⟨-, -, -, hpage⟩
          · exact hpage
          · exact hpage (by rw [table_saveUserContext]; exact hcow)
        · exact hf.page q hq0 hq j hj hqj
      have hinfo₁ : ∀ q, (k₁.proc q).info = (k.proc q).info := by
        intro q
        have hsaved : ((Yalnix.saveUserContext p context k).proc q).info = (k.proc q).info := by
          rw [proc_saveUserContext]
        rw [← hsaved]
        by_cases hqp : q = p
        · rw [hqp, hf.self]
        · rw [hf.proc q hqp]
      simp only [store_of_writable hlo hhi hv₁ hw₁, Option.getD_some, Except.ok.injEq] at hrun
      subst hrun
      obtain ⟨hiso, hpages⟩ := hiso₁.poke hp₁ hi hv₁ hw₁ (pageOffset a) b
      have hmax : k₁.max_pid = k.max_pid := hf.max_pid
      refine ⟨hiso, hmax, hinfo₁, fun q hq0 hq j hj => ?_⟩
      rw [hpages q hq0 (hmax.symm ▸ hq) j hj, hpages₁ q hq0 hq j hj]

/-! ## The break -/

/-- **Lowering the break unmaps the pages between the new one and the old one.** -/
theorem Isolated.shrink {r : Int} (h : Isolated k) (hp : Running k p)
    (hle : a ≤ (k.proc p).info.current_brk) (hlo : -2147483648 ≤ a)
    (hrun : setProcessBrk p a k = .ok (r, k')) :
    Isolated k' ∧ k'.max_pid = k.max_pid ∧ (∀ q, q ≠ p → k'.proc q = k.proc q) ∧
      if brkRefused (k.proc p).user_context.sp (k.proc p).info.heap_start a then
        r = ERROR ∧ k' = k
      else r = 0 ∧
        (k'.proc p).info = { (k.proc p).info with current_brk := UP_TO_PAGE a } ∧
        ∀ q, 0 < q → q ≤ k.max_pid → ∀ j < 128, pageOf k' q j =
          if q = p ∧ pageBetween (UP_TO_PAGE a) (k.proc p).info.current_brk j then none
          else pageOf k q j := by
  obtain ⟨l, hl⟩ := h.exact.counted
  have hheap := (h.sound.process p hp).heap
  have hheapHi := hheap.hi
  have haligned := hheap.aligned
  unfold VMEM_1_LIMIT at hheapHi
  have ha : Roundable a := ⟨hlo, by unfold LONG_MAX; omega⟩
  have hup := UP_TO_PAGE_range ha
  rcases setProcessBrk_cases hrun with ⟨href, rfl, rfl⟩ | ⟨href, ⟨heq, rfl, rfl⟩ |
    ⟨hlt, -⟩ | ⟨hlt, k₁, hdec, rfl, rfl⟩⟩
  · rw [if_pos href]
    exact ⟨h, rfl, fun _ _ => rfl, rfl, rfl⟩
  · rw [if_neg href]
    refine ⟨h, rfl, fun _ _ => rfl, rfl, by rw [heq], fun q _ _ j _ => ?_⟩
    rw [if_neg]
    rintro ⟨-, hlo', hhi'⟩
    rw [heq] at hlo'
    omega
  · omega
  · have hstart : (k.proc p).info.heap_start ≤ DOWN_TO_PAGE a := by
      have := (not_or.mp href).2
      omega
    obtain ⟨l', hc', hlow, hrefs⟩ := decreaseBrk_lowered hl ⟨hp.pos, hp.le⟩
      (fun f => h.exact.bound f) hheap ha hstart hlt hdec
    obtain ⟨hsound, -⟩ := h.sound.setBrk hp ha hrun
    rw [if_neg href]
    refine ⟨⟨hsound, ?_, h.exclusive.of_unmapped hlow.max_pid hrefs hlow.entry_or⟩, hlow.max_pid,
      hlow.proc, rfl, by rw [hlow.self]; rfl, fun q hq0 hq j hj => ?_⟩
    · refine h.exact.of_le hc' hlow.max_pid hrefs (fun x hx f hm => ?_) hsound.tables
      have hp0 := hp.pos
      rwa [hlow.mapping x (by omega)] at hm
    · exact hlow.pageOf hc' ⟨hq0, hq⟩ hj

/-! ## Exit -/

/-- **A process that exits loses its pages; no other process notices.** -/
theorem Isolated.exit (h : Isolated k) (hp : Running k p) (hrun : exitProcess p k = .ok k') :
    Isolated k' ∧ k'.max_pid = k.max_pid ∧ (∀ q, (k'.proc q).info = (k.proc q).info) ∧
      ∀ q, 0 < q → q ≤ k.max_pid → ∀ j < 128, pageOf k' q j =
        if q = p then none else pageOf k q j := by
  obtain ⟨l, hl⟩ := h.exact.counted
  obtain ⟨l', hc', hex, hrefs⟩ := exitProcess_exited h.sound hp (h.exact.bounded hl) hrun
  obtain ⟨hsound, -⟩ := h.sound.exit hp hrun
  refine ⟨⟨hsound, h.exact.of_le hc' hex.max_pid hrefs hex.mapping hsound.tables,
    h.exclusive.of_unmapped hex.max_pid hrefs hex.entry_or⟩, hex.max_pid, fun q => ?_,
    fun q hq0 hq j hj => hex.pageOf hc' ⟨hq0, hq⟩ hj⟩
  by_cases hqp : q = p
  · rw [hqp, hex.info]
  · rw [hex.proc q hqp]

end Yalnix
