import Yalnix.Process.Exit

/-!
# Sound states

The invariant of all memory operations, with and without threads, as long as frames last and no
counter overflows: references are counted (some may have been forgotten), no table maps a frame
twice, data pages are mapped writable or copy-on-write, and the pages below the break are there.

* `Sound` — the invariant.
* `Sound.spawned`, `Sound.described` — forks and thread creations, successful or not.
* `Sound.putEntry` — a page gets a frame, of its own: copy-on-write, stack and break.
* `Sound.of_unmapped` — pages are unmapped.
-/

set_option autoImplicit false

namespace Yalnix

open RefCount (refs)

variable {k k' k₁ : Kernel} {l l' X : List Nat} {f f₀ f₁ g p q n sb i : Nat} {a : Int} {b : UInt8}
  {leak : Nat → Nat}

/-! ## The invariant -/

/-- No table maps a frame twice. -/
def DistinctFrames (k : Kernel) : Prop := ∀ p, 0 < p → p ≤ k.max_pid → ∀ i < 128, ∀ j < 128, ∀ f,
  (k.table p i).frame = some f → (k.table p j).frame = some f → i = j

/-- References are counted, with at most 127 to a frame, including those that were forgotten. -/
def Bounded (k : Kernel) (leak : Nat → Nat) (l : List Nat) : Prop :=
  Counted k (slots k.max_pid) leak l ∧ ∀ f, refs (slots k.max_pid) (mapping k) f + leak f ≤ 127

/-- The page-table index of the first data page. -/
def dataIndex (info : ProcessInfo) : Int := indexOfPage (info.data_start - VMEM_1_BASE)

/-- The page-table index of the first page above the heap. -/
def brkIndex (info : ProcessInfo) : Int := indexOfPage (info.current_brk - VMEM_1_BASE)

/-- Data and heap lie in region 1, the heap ends at a page boundary, and all their pages are
mapped. -/
structure HeapOk (P : Process) : Prop where
  lo : VMEM_1_BASE ≤ P.info.data_start
  start : P.info.data_start ≤ P.info.heap_start
  le : P.info.heap_start ≤ P.info.current_brk
  hi : P.info.current_brk ≤ VMEM_1_LIMIT
  aligned : P.info.current_brk % 8192 = 0
  mapped : ∀ i : Nat, dataIndex P.info ≤ i → i < brkIndex P.info → (P.page_table i).valid = true

/-- Data, heap and stack pages are writable or copy-on-write. -/
def DataOk (P : Process) : Prop := ∀ i : Nat, i < 128 → dataIndex P.info ≤ i →
  (P.page_table i).valid = true → (P.page_table i).writable = true ∨ (P.page_table i).cow = true

/-- What holds of the memory of a running process. -/
structure ProcessOk (P : Process) : Prop where
  data : DataOk P
  heap : HeapOk P
  pcb : PcbOk P

structure Sound (k : Kernel) : Prop where
  bounded : ∃ leak l, Bounded k leak l
  tables : TablesOk k
  distinct : DistinctFrames k
  process : ∀ p, Running k p → ProcessOk (k.proc p)

/-- A change of a page table that unmaps nothing below the break and takes the write bit from no
page without marking it copy-on-write. -/
theorem ProcessOk.of_table {P Q : Process} (h : ProcessOk P) (hinfo : Q.info = P.info)
    (hpcb : Q.pcb = P.pcb) (hframes : Q.pcb_frames = P.pcb_frames)
    (hvalid : ∀ i : Nat, i < 128 → (P.page_table i).valid = true → (Q.page_table i).valid = true)
    (hdata : ∀ i : Nat, i < 128 → (Q.page_table i).valid = true →
      ((P.page_table i).valid = true →
        (P.page_table i).writable = true ∨ (P.page_table i).cow = true) →
      (Q.page_table i).writable = true ∨ (Q.page_table i).cow = true) : ProcessOk Q := by
  have hheap := h.heap
  have hle : brkIndex P.info ≤ 128 := by
    have := hheap.hi
    unfold brkIndex indexOfPage VMEM_1_BASE
    unfold VMEM_1_LIMIT at this
    omega
  refine ⟨fun i hi hd hv => ?_, ⟨?_, ?_, ?_, ?_, ?_, fun i hlo hhi => ?_⟩, ?_⟩
  · rw [hinfo] at hd
    exact hdata i hi hv (h.data i hi hd)
  · rw [hinfo]
    exact hheap.lo
  · rw [hinfo]
    exact hheap.start
  · rw [hinfo]
    exact hheap.le
  · rw [hinfo]
    exact hheap.hi
  · rw [hinfo]
    exact hheap.aligned
  · rw [hinfo] at hlo hhi
    exact hvalid i (by omega) (hheap.mapped i hlo hhi)
  · exact ⟨hpcb.trans h.pcb.1, by rw [hframes]; exact h.pcb.2⟩

/-! ## Saving the user context -/

theorem Bounded.saveUserContext (h : Bounded k leak l) (p : Nat) (context : UserContext) :
    Bounded (saveUserContext p context k) leak l := by
  refine ⟨h.1.saveUserContext p context, ?_⟩
  rw [mapping_saveUserContext]
  exact h.2

theorem Sound.saveUserContext (h : Sound k) (p : Nat) (context : UserContext) :
    Sound (saveUserContext p context k) := by
  have ht : (Yalnix.saveUserContext p context k).table = k.table := table_saveUserContext p context
  obtain ⟨leak, l, hb⟩ := h.bounded
  refine ⟨⟨leak, l, hb.saveUserContext p context⟩, ?_, ?_, ?_⟩
  · unfold TablesOk
    rw [ht]
    exact h.tables
  · unfold DistinctFrames
    rw [ht]
    exact h.distinct
  · intro q hq
    rw [running_saveUserContext] at hq
    have hproc := proc_saveUserContext (k := k) (p := p) context q
    rw [hproc]
    exact (h.process q hq).of_table rfl rfl rfl (fun _ _ hv => hv) fun _ _ hv hd => hd hv

/-! ## Entries that lose their write bit -/

theorem shared_flags {e : PTE} (h : e.valid = true) :
    e.shared.writable = false ∧ e.shared.cow = (e.cow || e.writable) := by
  obtain ⟨-, hw, -, hc⟩ := protect_flags e
  unfold PTE.shared
  rw [if_pos h]
  exact ⟨hw, hc⟩

/-- A page that loses its write bit is copy-on-write. -/
theorem shared_data {e : PTE} (hv : e.valid = true) (hd : e.writable = true ∨ e.cow = true) :
    e.shared.writable = true ∨ e.shared.cow = true := by
  right
  rw [(shared_flags hv).2]
  rcases hd with hw | hc
  · rw [hw, Bool.or_true]
  · rw [hc, Bool.true_or]

/-! ## New processes -/

/-- The processes that run after a fork ran before it, but for the new one. -/
theorem Spawned.running_old {u : PTE → PTE} {leader : Option PID}
    (hs : Spawned k k' p n sb l u leader) (hp : Running k p) (hmax : k.max_pid = n) (hq : Running k' q) :
    q = n + 1 ∨ q ≤ n ∧ Running k q := by
  have hqle := hq.le
  rw [hs.max_pid] at hqle
  by_cases hqn : q = n + 1
  · exact .inl hqn
  · refine .inr ⟨by omega, hq.pos, by omega, ?_⟩
    by_cases hqp : q = p
    · rw [hqp]
      exact hp.live
    · rw [← hs.other q hqp hqn]
      exact hq.live

section Spawned

variable {u : PTE → PTE} {leader : Option PID} (hs : Spawned k k' p n sb l u leader)
  (hu : ∀ e, (u e).frame = e.frame)

include hs hu

theorem Spawned.distinct (h : DistinctFrames k) (hmax : k.max_pid = n)
    (hl : Counted k (slots n) leak l) (hp : 0 < p ∧ p ≤ n) : DistinctFrames k' := by
  intro q hq0 hq i hi j hj f hfi hfj
  rw [hs.max_pid] at hq
  by_cases hqn : q ≤ n
  · rw [hs.frame_old hu hqn] at hfi hfj
    exact h q hq0 (hmax ▸ hqn) i hi j hj f hfi hfj
  · obtain rfl : q = n + 1 := by omega
    -- the new table has shared frames below the stack pointer, frames of its own above it
    have hlow : ∀ m, m < sb → m < 128 → (k'.table (n + 1) m).frame = some f →
        (k.table p m).frame = some f ∧ f ∉ l := by
      intro m hm hm' hmf
      rw [hs.below m hm, hu] at hmf
      exact ⟨hmf, hl.entry_not_free hp hm' hmf⟩
    have hhigh : ∀ m, sb ≤ m → m < 128 → (k'.table (n + 1) m).frame = some f → f ∈ l := by
      intro m hm hm' hmf
      apply hs.mapping_above hm (by omega)
      rw [mapping_table (by omega) hm']
      exact hmf
    by_cases hlowi : i < sb
    · obtain ⟨hpi, hfl⟩ := hlow i hlowi hi hfi
      by_cases hlowj : j < sb
      · exact h p hp.1 (hmax ▸ hp.2) i hi j hj f hpi (hlow j hlowj hj hfj).1
      · exact absurd (hhigh j (by omega) hj hfj) hfl
    · have hfl := hhigh i (by omega) hi hfi
      have hx := RefCount.eq_of_refs_le_one (hs.fresh f hfl)
        (x := (n + 1, i)) (y := (n + 1, j)) (mem_slots.mpr ⟨le_rfl, by simp only; omega⟩)
        (by rw [mapping_table (by omega) hi]; exact hfi)
        (mem_slots.mpr ⟨le_rfl, by simp only; omega⟩)
        (by rw [mapping_table (by omega) hj]; exact hfj)
      exact (Prod.mk.inj hx).2

theorem Spawned.bounded (hb : Bounded k leak l) (hsb : sb ≤ 128)
    (hc : Counted k' (slots (n + 1)) leak l')
    (hno : ∀ f, refs (slots n) (mapping k) f + leak f + sharesBelow k p sb f ≤ 127) :
    Bounded k' leak l' := by
  unfold Bounded
  rw [hs.max_pid]
  refine ⟨hc, fun f => ?_⟩
  by_cases hf : f ∈ l
  · have := hs.fresh f hf
    have := hb.1.counts.free f hf
    omega
  · rw [hs.refs_old hu hsb hf]
    have := hno f
    omega

theorem Spawned.tablesOk (h : TablesOk k) (hmax : k.max_pid = n) (hp : 0 < p ∧ p ≤ n)
    (hinv : ∀ e : PTE, e.valid = false → u e = e)
    (hread : ∀ e : PTE, (u e).readable = e.readable) : TablesOk k' := by
  intro q hq0 hq i hi
  rw [hs.max_pid] at hq
  have hold := h p hp.1 (hmax ▸ hp.2) i hi
  by_cases hqn : q = n + 1
  · subst hqn
    by_cases hlow : i < sb
    · rw [hs.below i hlow]
      exact hold.map hu hinv hread
    · rw [(hs.above i (by omega) hi).flags]
      exact ⟨hold.clear, hold.readable⟩
  · by_cases hqp : q = p
    · subst hqp
      rw [hs.table_parent]
      split
      · exact hold.map hu hinv hread
      · exact hold
    · rw [hs.table_other hqp hqn]
      exact h q hq0 (by omega) i hi

/-- **A fork or a thread creation keeps a state sound.** -/
theorem Sound.spawned (h : Sound k) (hb : Bounded k leak l) (hmax : k.max_pid = n)
    (hp : Running k p) (hsb : sb ≤ 128) (hc : Counted k' (slots (n + 1)) leak l')
    (hinv : ∀ e : PTE, e.valid = false → u e = e)
    (hread : ∀ e : PTE, (u e).readable = e.readable)
    (hdata : ∀ e : PTE, e.valid = true → e.writable = true ∨ e.cow = true →
      (u e).writable = true ∨ (u e).cow = true)
    (hno : ∀ f, refs (slots n) (mapping k) f + leak f + sharesBelow k p sb f ≤ 127) : Sound k' := by
  have hpn : 0 < p ∧ p ≤ n := ⟨hp.pos, hmax ▸ hp.le⟩
  have hvalid : ∀ e : PTE, (u e).valid = e.valid := by
    intro e
    have := hu e
    unfold PTE.frame at this
    cases hv : e.valid with
    | true =>
      rw [hv] at this
      cases hv' : (u e).valid with
      | true => rfl
      | false =>
        rw [hv'] at this
        cases this
    | false => rw [hinv e hv, hv]
  have hud : ∀ e : PTE, (u e).valid = true →
      (e.valid = true → e.writable = true ∨ e.cow = true) →
        (u e).writable = true ∨ (u e).cow = true := by
    intro e hv hd
    rw [hvalid] at hv
    exact hdata e hv (hd hv)
  refine ⟨⟨leak, l', hs.bounded hu hb hsb hc hno⟩, hs.tablesOk hu h.tables hmax hpn hinv hread,
    hs.distinct hu h.distinct hmax (hmax ▸ hb.1) hpn, fun q hq => ?_⟩
  rcases hs.running_old hp hmax hq with rfl | ⟨hqn, hr⟩
  · obtain ⟨f₀, f₁, -, -, hchild⟩ := hs.child
    have hparent := h.process p hp
    have htable : ∀ i : Nat, i < 128 →
        k'.table (n + 1) i = u (k.table p i) ∨
          ∃ g, k'.table (n + 1) i = { k.table p i with pfn := g } := by
      intro i hi
      by_cases hlow : i < sb
      · exact .inl (hs.below i hlow)
      · exact .inr ⟨_, (hs.above i (by omega) hi).flags⟩
    have hpcb : PcbOk (k'.proc (n + 1)) := by
      rw [hchild]
      refine ⟨rfl, fun j hj => ?_⟩
      have h01 : j = 0 ∨ j = 1 := by omega
      rcases h01 with rfl | rfl
      · exact ⟨f₀, by simp [describedProcess]⟩
      · exact ⟨f₁, by simp [describedProcess]⟩
    have hok : ProcessOk { k.proc p with page_table := k'.table (n + 1) } := by
      refine hparent.of_table rfl rfl rfl (fun i hi hv => ?_) fun i hi hv hd => ?_
      · rcases htable i hi with ht | ⟨g, ht⟩
        · simp only [ht, hvalid]
          exact hv
        · simp only [ht]
          exact hv
      · simp only at hv ⊢
        rcases htable i hi with ht | ⟨g, ht⟩
        · rw [ht] at hv ⊢
          exact hud _ hv hd
        · rw [ht] at hv ⊢
          exact hd hv
    rw [hchild] at hpcb ⊢
    exact ⟨hok.data, ⟨hok.heap.lo, hok.heap.start, hok.heap.le, hok.heap.hi, hok.heap.aligned,
      hok.heap.mapped⟩, hpcb⟩
  · by_cases hqp : q = p
    · subst hqp
      rw [hs.parent]
      refine (h.process q hr).of_table rfl rfl rfl (fun i hi hv => ?_) fun i hi hv hd => ?_
      · simp only [mapBelow]
        split
        · rw [hvalid]
          exact hv
        · exact hv
      · simp only [mapBelow] at hv ⊢
        split at hv
        · rename_i hlow
          rw [if_pos hlow]
          exact hud _ hv hd
        · rename_i hlow
          rw [if_neg hlow]
          exact hd hv
    · rw [hs.other q hqp (by omega)]
      exact h.process q hr

end Spawned

/-- **A descriptor without a page table keeps a state sound.** -/
theorem Sound.described (h : Sound k) (hb : Bounded k leak (f₀ :: f₁ :: l)) (hmax : k.max_pid = n)
    (hc : Counted k' (slots (n + 1)) leak l) (hd : Described k k' n f₀ f₁ l) : Sound k' := by
  have htable : ∀ i, k'.table (n + 1) i = PTE.clear := by
    intro i
    unfold Kernel.table
    rw [hd.proc]
    rfl
  have hother : ∀ q, q ≠ n + 1 → k'.table q = k.table q := fun q hq => hd.only.table_ne hq
  refine ⟨⟨leak, l, ?_⟩, ?_, ?_, ?_⟩
  · unfold Bounded
    rw [hd.max_pid]
    refine ⟨hc, fun f => ?_⟩
    by_cases hf : f ∈ f₀ :: f₁ :: l
    · have := hd.fresh f hf
      have := hb.1.counts.free f hf
      omega
    · rw [hd.used f hf, ← hmax]
      exact hb.2 f
  · intro q hq0 hq i hi
    rw [hd.max_pid] at hq
    by_cases hqn : q = n + 1
    · rw [hqn, htable]
      exact ⟨fun _ => rfl, fun hv => by cases hv⟩
    · rw [hother q hqn]
      exact h.tables q hq0 (by omega) i hi
  · intro q hq0 hq i hi j hj f hfi hfj
    rw [hd.max_pid] at hq
    by_cases hqn : q = n + 1
    · rw [hqn, htable] at hfi
      cases hfi
    · rw [hother q hqn] at hfi hfj
      exact h.distinct q hq0 (by omega) i hi j hj f hfi hfj
  · intro q hq
    have hqle := hq.le
    rw [hd.max_pid] at hqle
    have hqn : q ≠ n + 1 := by
      rintro rfl
      have := hq.live
      rw [hd.proc] at this
      cases this
    have hproc := hd.only.proc q hqn
    rw [hproc]
    exact h.process q ⟨hq.pos, by omega, by rw [← hproc]; exact hq.live⟩

/-! ## One page table -/

/-- The processes that run when only the tables and breaks of `p` have changed. -/
theorem Only.running (honly : Only p k k' X) (hmax : k'.max_pid = k.max_pid) (hp : Running k p)
    (hq : Running k' q) : Running k q := by
  refine ⟨hq.pos, hmax ▸ hq.le, ?_⟩
  by_cases hqp : q = p
  · rw [hqp]
    exact hp.live
  · rw [← honly.proc q hqp]
    exact hq.live

/-- **An entry gets a frame of its own: a copy, or a new page.** -/
theorem Sound.putEntry {e : PTE} (h : Sound k) (hp : Running k p) (hi : i < 128)
    (htouch : Touches p k k' X) (htable : k'.table p = Function.update (k.table p) i e)
    (hb : ∃ leak l, Bounded k' leak l) (hv : e.valid = true) (hr : e.readable = true)
    (hw : e.writable = true)
    (hown : ∀ j < 128, (k'.table p j).frame = e.frame → j = i) : Sound k' := by
  have hmax := htouch.max_pid
  have hentry : ∀ q j, ¬ (q = p ∧ j = i) → k'.table q j = k.table q j := by
    intro q j hqj
    by_cases hqp : q = p
    · subst hqp
      rw [htable, Function.update_of_ne fun hji => hqj ⟨rfl, hji⟩]
    · rw [htouch.table_ne hqp]
  have hself : k'.table p i = e := by
    rw [htable, Function.update_self]
  refine ⟨hb, ?_, ?_, ?_⟩
  · intro q hq0 hq j hj
    rw [hmax] at hq
    by_cases hqj : q = p ∧ j = i
    · obtain ⟨rfl, rfl⟩ := hqj
      rw [hself]
      exact ⟨fun hv' => absurd hv (by rw [hv']; simp), fun _ => hr⟩
    · rw [hentry q j hqj]
      exact h.tables q hq0 hq j hj
  · intro q hq0 hq j hj m hm f hfj hfm
    rw [hmax] at hq
    by_cases hqp : q = p
    · subst hqp
      by_cases hfe : e.frame = some f
      · rw [hown j hj (hfj.trans hfe.symm), hown m hm (hfm.trans hfe.symm)]
      · have hne : ∀ x, (k'.table q x).frame = some f → ¬ (q = q ∧ x = i) := by
          rintro x hx ⟨-, rfl⟩
          rw [hself] at hx
          exact hfe hx
        rw [hentry q j (hne j hfj)] at hfj
        rw [hentry q m (hne m hfm)] at hfm
        exact h.distinct q hq0 hq j hj m hm f hfj hfm
    · rw [htouch.table_ne hqp] at hfj hfm
      exact h.distinct q hq0 hq j hj m hm f hfj hfm
  · intro q hq
    have hok := h.process q (htouch.only.running hmax hp hq)
    by_cases hqp : q = p
    · subst hqp
      rw [htouch.self]
      refine hok.of_table rfl rfl rfl (fun j _ hjv => ?_) fun j _ hjv hjd => ?_
      · simp only
        by_cases hji : j = i
        · rw [hji, hself]
          exact hv
        · rw [hentry q j fun hc => hji hc.2]
          exact hjv
      · simp only at hjv ⊢
        by_cases hji : j = i
        · rw [hji, hself]
          exact .inl hw
        · rw [hentry q j fun hc => hji hc.2] at hjv ⊢
          exact hjd hjv
    · rw [htouch.proc q hqp]
      exact hok

/-- A free frame for page `i` of `p`: the counts stay bounded, and nothing else refers to it. -/
theorem Bounded.map_page (hb : Bounded k leak (f :: l)) (hp : Running k p) (hi : i < 128) :
    ∃ k₁ leak', allocatePageFrame k = (pageAtIndex f, k₁) ∧ 0 < f ∧
      Bounded (k₁.modify p (Kernel.putEntry i (createPTEWithOptions data_options f))) leak' l ∧
      Touches p k (k₁.modify p (Kernel.putEntry i (createPTEWithOptions data_options f))) l ∧
      (k₁.modify p (Kernel.putEntry i (createPTEWithOptions data_options f))).table p =
        Function.update (k.table p) i (createPTEWithOptions data_options f) ∧
      refs (slots k.max_pid)
        (mapping (k₁.modify p (Kernel.putEntry i (createPTEWithOptions data_options f)))) f = 1 := by
  obtain ⟨hc, h127⟩ := hb
  have hp0 := hp.pos
  have hx : (p, i) ∈ slots k.max_pid := mem_slots.mpr ⟨hp.le, by simp only; omega⟩
  obtain ⟨k₁, halloc, -, hcounted, htouch, htable⟩ := Yalnix.map_page hc (by omega) hi hx
  have hframe : (createPTEWithOptions data_options f).frame = some f :=
    frame_eq_some.mpr ⟨(data_flags f).1, rfl⟩
  have hupdate := htouch.mapping_update (by omega) hi htable
  rw [hframe] at hupdate
  have hf0 := hc.counts.free f List.mem_cons_self
  have hup := fun g => RefCount.refs_update (m := mapping k) (f := g) hx (some f)
  have hnot : mapping k (p, i) ≠ some f := hc.unmapped List.mem_cons_self hx
  refine ⟨k₁, fun g => leak g + if mapping k (p, i) = some g then 1 else 0, halloc,
    (hc.list.frame f List.mem_cons_self).1, ⟨?_, fun g => ?_⟩, htouch, htable, ?_⟩
  · rw [htouch.max_pid]
    exact hcounted
  · beta_reduce
    have hg := hup g
    have hbound := h127 g
    rw [htouch.max_pid]
    rw [← hupdate] at hg
    by_cases hgf : g = f
    · subst hgf
      rw [if_neg hnot, if_pos rfl] at hg
      rw [if_neg hnot]
      omega
    · rw [if_neg (fun he => hgf (Option.some.inj he).symm)] at hg
      omega
  · have hg := hup f
    rw [if_neg hnot, if_pos rfl, ← hupdate] at hg
    omega

/-- **Pages are unmapped.** -/
theorem Sound.of_unmapped (h : Sound k) (hmax : k'.max_pid = k.max_pid)
    (hb : ∃ leak l, Bounded k' leak l)
    (hentry : ∀ q, 0 < q → q ≤ k.max_pid → ∀ i < 128,
      k'.table q i = PTE.clear ∨ k'.table q i = k.table q i)
    (hprocess : ∀ q, Running k' q → ProcessOk (k'.proc q)) : Sound k' := by
  refine ⟨hb, ?_, ?_, hprocess⟩
  · intro q hq0 hq i hi
    rw [hmax] at hq
    rcases hentry q hq0 hq i hi with hc | hs
    · rw [hc]
      exact ⟨fun _ => rfl, fun hv => by cases hv⟩
    · rw [hs]
      exact h.tables q hq0 hq i hi
  · intro q hq0 hq i hi j hj f hfi hfj
    rw [hmax] at hq
    rcases hentry q hq0 hq i hi with hc | hs
    · rw [hc] at hfi
      cases hfi
    · rcases hentry q hq0 hq j hj with hc' | hs'
      · rw [hc'] at hfj
        cases hfj
      · rw [hs] at hfi
        rw [hs'] at hfj
        exact h.distinct q hq0 hq i hi j hj f hfi hfj

/-- A table with fewer pages has its data pages in order. -/
theorem DataOk.of_unmapped {P Q : Process} (h : DataOk P) (hinfo : Q.info.data_start = P.info.data_start)
    (hentry : ∀ i < 128, Q.page_table i = PTE.clear ∨ Q.page_table i = P.page_table i) : DataOk Q := by
  intro i hi hd hv
  rcases hentry i hi with hc | hs
  · rw [hc] at hv
    cases hv
  · rw [hs] at hv ⊢
    unfold dataIndex at hd
    rw [hinfo] at hd
    exact h i hi hd hv

/-! ## The first machine -/

theorem machine_sound {N : Nat} (hN : N ≤ 65536) : Sound (machine N) := by
  obtain ⟨l, hc, -, hquiet⟩ := machine_counted hN
  have hmax := max_pid_machine hN
  have hrefs : ∀ f, refs (slots (machine N).max_pid) (mapping (machine N)) f ≤ 1 := by
    intro f
    rw [hmax, hquiet.mapping, refs_first]
    exact firstRefs_le f
  have hproc : (machine N).proc 1 = firstProcess := by
    rw [proc_machine hN]
    rfl
  refine ⟨⟨_, l, hmax ▸ hc, (machine_exact hN).bound⟩, (machine_exact hN).tables, ?_, ?_⟩
  · intro p hp0 hp i hi j hj f hfi hfj
    have := RefCount.eq_of_refs_le_one (hrefs f) (x := (p, i)) (y := (p, j))
      (mem_slots.mpr ⟨hp, by simp only; omega⟩) (by rw [mapping_table (by omega) hi]; exact hfi)
      (mem_slots.mpr ⟨hp, by simp only; omega⟩) (by rw [mapping_table (by omega) hj]; exact hfj)
    exact (Prod.mk.inj this).2
  · intro p hp
    have hple := hp.le
    have hp0 := hp.pos
    obtain rfl : p = 1 := by omega
    rw [hproc]
    refine ⟨fun i hi hd hv => ?_, ⟨by decide, by decide, by decide, by decide, by decide,
      fun i hlo hhi => ?_⟩, rfl, fun j _ => ⟨126 + j, rfl⟩⟩
    · have hi1 : 1 ≤ i := by
        have : dataIndex firstProcess.info = 1 := by decide
        omega
      simp only [firstProcess, if_neg (show ¬ i = 0 by omega)] at hv ⊢
      split_ifs at hv ⊢
      · exact .inl (data_flags 201).2.1
      · exact .inl (data_flags 202).2.1
      · exact .inl (data_flags 203).2.1
      · cases hv
    · have h12 : i = 1 ∨ i = 2 := by
        simp only [firstProcess, dataIndex, brkIndex, indexOfPage, VMEM_1_BASE] at hlo hhi
        omega
      rcases h12 with rfl | rfl
      · rfl
      · rfl

end Yalnix
