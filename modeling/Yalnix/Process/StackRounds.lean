import Yalnix.Process.Rollback

/-!
# The rounds of the loops of a fork

`copyParentStack`, `increaseFRCEntries` and `setCopyOnWrite` (`fork.c`, `process.c`), round by
round, in any state of the kernel.

* `copy_ok`, `copies_of_ok`, `copies_of_error` — the copying goes through if every page can be read,
  and then copies each valid page once while there are free frames; otherwise some page is left out.
* `mark_marked`, `share_raised` — the other loops come to every entry below their end; they mark it,
  or raise the count of its frame unless it is at its maximum.
-/

set_option autoImplicit false

namespace Yalnix

open Loop (Iteration history times)

/-! ## The rounds -/

abbrev Rounds := List (Iteration Stop Kernel)

/-- A round that has copied the page a valid entry of the table of `p` maps: `c` has it with the same
flags and the same bytes, on a frame of its own. -/
def copied (p c : PID) (i : Nat) (x : Iteration Stop Kernel) : Bool :=
  let e := x.before.table p i
  e.valid &&
    match x.result with
    | .ok k =>
      let e' := k.table c i
      decide (e' = { e with pfn := e'.pfn } ∧ e'.pfn ≠ 0 ∧ e'.pfn ≠ e.pfn ∧
        k.frc_table e'.pfn = 1 ∧ ∀ o < PAGESIZE, k.pmem e'.pfn o = x.before.pmem e.pfn o)
    | .error _ => false

/-- A round that has marked a valid entry of the table of `p` copy-on-write. -/
def marked (p : PID) (i : Nat) (x : Iteration Stop Kernel) : Bool :=
  (x.before.table p i).valid &&
    match x.result with
    | .ok k => k.table p i = (x.before.table p i).protect
    | .error _ => false

/-- A round that has left a valid entry of the table of `p` on its frame, and raised the count of that
frame by one. -/
def raised (p : PID) (i : Nat) (x : Iteration Stop Kernel) : Bool :=
  let e := x.before.table p i
  e.valid &&
    match x.result with
    | .ok k => decide ((k.table p i).frame = some e.pfn ∧
        k.frc_table e.pfn = x.before.frc_table e.pfn + 1)
    | .error _ => false

/-! ## The loop that copies -/

variable {k k' : Kernel} {l : List Nat} {p c i m : Nat} {lo j : Int}

/-- The first frame of the list is handed out, and `NULL` when there is none. -/
theorem allocatePageFrame_list (h : FreeList k l) :
    FreeList (allocatePageFrame k).2 l.tail ∧ frameOf (allocatePageFrame k).1 = l.headD 0 ∧
      (∀ f, f ∉ l.tail → (allocatePageFrame k).2.pmem f = k.pmem f) ∧
      (∀ f, f ∉ l → (allocatePageFrame k).2.frc_table f = k.frc_table f) ∧
      ∀ f ∈ l, (allocatePageFrame k).2.frc_table f = if l.head? = some f then 1 else k.frc_table f := by
  cases l with
  | nil =>
    rw [allocatePageFrame_nil h]
    exact ⟨h, by simp [frameOf], fun _ _ => rfl, fun _ _ => rfl, fun f hf => by cases hf⟩
  | cons g l =>
    obtain ⟨k', hrun, hlist, hfrc, hquiet⟩ := allocatePageFrame_cons h
    rw [hrun]
    refine ⟨hlist, frameOf_pageAtIndex g, hquiet.pmem, fun f hf => ?_, fun f _ => ?_⟩
    · have hfg : f ≠ g := fun he => hf (he ▸ List.mem_cons_self)
      rw [hfrc, Function.update_of_ne hfg]
    · rw [hfrc]
      by_cases hfg : g = f
      · simp [hfg]
      · simp [hfg, Ne.symm hfg]

/-- The state `k'` in which the copying of the pages from index `lo` up, begun in `k` with the free
frames `l`, comes to index `j`. -/
structure CopyKeeps (k k' : Kernel) (p c : Nat) (l : List Nat) (lo j : Int) : Prop where
  parent : k'.proc p = k.proc p
  below : ∀ m : Nat, (m : Int) < lo → k'.table c m = k.table c m
  list : FreeList k' (l.drop (stackPages k p lo.toNat - stackPages k p j.toNat))
  counts : ∀ f, f ∉ l → k'.frc_table f = k.frc_table f
  chars : ∀ f, -128 ≤ k'.frc_table f ∧ k'.frc_table f ≤ 127

theorem CopyKeeps.table (h : CopyKeeps k k' p c l lo j) : k'.table p = k.table p := by
  unfold Kernel.table
  rw [h.parent]

theorem stackPages_anti {a b : Nat} (h : a ≤ b) : stackPages k p b ≤ stackPages k p a :=
  Finset.card_le_card (Finset.filter_subset_filter _ (Finset.Ico_subset_Ico h le_rfl))

theorem CopyKeeps.pass (h : CopyKeeps k k' p c l lo i) (hi : i < 128)
    (hv : (k'.table p i).valid = false) : CopyKeeps k k' p c l lo (i + 1) := by
  refine ⟨h.parent, h.below, ?_, h.counts, h.chars⟩
  have hlist := h.list
  rw [h.table] at hv
  rw [Int.toNat_natCast, stackPages_succ hi, hv] at hlist
  exact hlist

/-- A page that can be read is copied, whatever frame it gets. -/
theorem copyStackPage_readable (hpc : p ≠ c) (hi : i < 128) (hlo : lo ≤ i)
    (h : CopyKeeps k k' p c l lo i) (hv : (k'.table p i).valid = true)
    (hr : (k'.table p i).readable = true) :
    ∃ k'', copyStackPage p c p i k' = .ok k'' ∧ CopyKeeps k k'' p c l lo (i + 1) ∧
      k''.table c i = { k'.table p i with
        pfn := (l.drop (stackPages k p lo.toNat - stackPages k p i)).headD 0 } ∧
      ∀ f, (l.drop (stackPages k p lo.toNat - stackPages k p i)).head? = some f →
        k''.frc_table f = 1 ∧ ((k'.table p i).pfn ∉ l → k''.pmem f = k'.pmem (k'.table p i).pfn) := by
  have hstart := h.list
  rw [Int.toNat_natCast] at hstart
  have hsub : ∀ f ∈ l.drop (stackPages k p lo.toNat - stackPages k p i), f ∈ l :=
    fun f hf => List.mem_of_mem_drop hf
  have hdrop : (l.drop (stackPages k p lo.toNat - stackPages k p i)).tail =
      l.drop (stackPages k p lo.toNat - stackPages k p (i + 1)) := by
    have hmono : stackPages k p i ≤ stackPages k p lo.toNat := stackPages_anti (by omega)
    have hsucc := stackPages_succ (k := k) (p := p) hi
    rw [h.table] at hv
    rw [if_pos hv] at hsucc
    rw [List.tail_drop]
    congr 1
    omega
  generalize hL : l.drop (stackPages k p lo.toNat - stackPages k p i) = L at hstart hsub hdrop ⊢
  obtain ⟨hlist, hframe, hpmem, hfrc, hone⟩ := allocatePageFrame_list hstart
  have hproc := allocatePageFrame_proc k'
  generalize hka : (allocatePageFrame k').2 = ka at hlist hpmem hfrc hone hproc
  generalize hfa : (allocatePageFrame k').1 = frame at hframe
  have hrun : allocatePageFrame k' = (frame, ka) := Prod.ext hfa hka
  have hcreate := create_options (f := frameOf frame) hv
  generalize he : createPTEWithOptions (k'.table p i).options (frameOf frame) = e at hcreate
  have htable : ((ka.modify c (Kernel.putEntry i e)).setWindow 0 (frameOf frame)).table p =
      k'.table p := by
    rw [Kernel.table_setWindow, Kernel.table_modify_ne hpc]
    unfold Kernel.table
    rw [hproc]
  have hread := Kernel.readPage_ok (k := (ka.modify c (Kernel.putEntry i e)).setWindow 0 (frameOf frame))
    (p := p) hi (by rw [htable]; exact hv) (by rw [htable]; exact hr)
  rw [htable] at hread
  refine ⟨((ka.modify c (Kernel.putEntry i e)).setWindow 0 (frameOf frame)).setWindowPage 0
    (ka.pmem (k'.table p i).pfn), ?_, ⟨?_, fun j hj => ?_, ?_, fun f hf => ?_, fun f => ?_⟩, ?_,
    fun f hf => ⟨?_, fun hold => ?_⟩⟩
  · unfold copyStackPage
    simp only [Kernel.entry_ok hi, bind, Except.bind, hv, Bool.not_true, Bool.false_eq_true, if_false,
      hrun, Kernel.setEntry_ok hi, he, hread]
    rfl
  · simp [Kernel.setWindowPage, hpc, hproc, h.parent]
  · have hji : j ≠ i := by omega
    have := h.below j hj
    simp only [Kernel.table] at this ⊢
    simp [Kernel.setWindowPage, Kernel.putEntry, hji, hproc, this]
  · have hnew : frameOf frame ∉ L.tail := by
      rw [hframe]
      cases L with
      | nil => simp
      | cons f L => exact (List.nodup_cons.mp hstart.nodup).1
    rw [show ((i : Int) + 1).toNat = i + 1 by omega, ← hdrop]
    refine hlist.congr rfl rfl fun f hf => ?_
    have hff : f ≠ frameOf frame := fun he => hnew (he ▸ hf)
    simp [hff]
  · exact (hfrc f fun hf₁ => hf (hsub f hf₁)).trans (h.counts f hf)
  · have hk := h.chars f
    simp only [Kernel.setWindowPage, Kernel.frc_setWindow, Kernel.frc_modify]
    by_cases hf : f ∈ L
    · rw [hone f hf]
      split
      · omega
      · exact hk
    · rw [hfrc f hf]
      exact hk
  · rw [← hframe, ← hcreate]
    simp [Kernel.table, Kernel.setWindowPage, Kernel.putEntry]
  · simp only [Kernel.setWindowPage, Kernel.frc_setWindow, Kernel.frc_modify]
    rw [hone f (List.mem_of_mem_head? hf), if_pos hf]
  · have hff : frameOf frame = f := by rw [hframe, List.headD_eq_head?_getD, hf]; rfl
    rw [hff]
    have hpm := hpmem (k'.table p i).pfn fun hm => hold (hsub _ (List.mem_of_mem_tail hm))
    simp [hpm]

/-- A page that cannot be read takes the kernel down. -/
theorem copyStackPage_unreadable (hpc : p ≠ c) (hi : i < 128) (hv : (k.table p i).valid = true)
    (hr : (k.table p i).readable = false) : copyStackPage p c p i k = .error .fault := by
  have hproc := allocatePageFrame_proc k
  generalize hka : (allocatePageFrame k).2 = ka at hproc
  generalize hfa : (allocatePageFrame k).1 = frame
  have hrun : allocatePageFrame k = (frame, ka) := Prod.ext hfa hka
  have htable : ka.table p = k.table p := by
    unfold Kernel.table
    rw [hproc]
  unfold copyStackPage
  simp [Kernel.entry_ok hi, bind, Except.bind, hv, hrun, Kernel.setEntry_ok hi, Kernel.readPage,
    Kernel.table_modify_ne hpc, htable, hr]

/-- A round copies its page exactly if the page can be read and there is a frame left for it. -/
theorem copied_iff {x : Iteration Stop Kernel} (hpc : p ≠ c) (hi : i < 128) (hlo : lo ≤ i)
    (h : CopyKeeps k x.before p c l lo i) (hres : x.result = copyStackPage p c p i x.before)
    (hv : (k.table p i).valid = true) (hold : (k.table p i).pfn ∉ l) :
    copied p c i x = true ↔ (k.table p i).readable = true ∧
      stackPages k p lo.toNat - stackPages k p i < l.length := by
  rw [← h.table] at hv hold ⊢
  unfold copied
  dsimp only
  rw [hres, hv, Bool.true_and]
  cases hr : (x.before.table p i).readable with
  | false =>
    rw [copyStackPage_unreadable hpc hi hv hr]
    simp
  | true =>
    obtain ⟨k'', hrun, -, htable, hframe⟩ := copyStackPage_readable hpc hi hlo h hv hr
    rw [hrun]
    simp only [decide_eq_true_eq, true_and]
    generalize hL : l.drop (stackPages k p lo.toNat - stackPages k p i) = L at htable hframe
    have hlen : stackPages k p lo.toNat - stackPages k p i < l.length ↔ 0 < L.length := by
      rw [← hL, List.length_drop]
      omega
    rw [hlen, htable]
    cases L with
    | nil => simp
    | cons f L =>
      obtain ⟨hone, hpage⟩ := hframe f rfl
      have hmem : f ∈ l := List.mem_of_mem_drop (hL ▸ List.mem_cons_self)
      have hzero : f ≠ 0 := by
        have hlist := h.list
        rw [Int.toNat_natCast, hL] at hlist
        exact (hlist.frame f List.mem_cons_self).1.ne'
      refine ⟨fun _ => Nat.succ_pos _, fun _ => ⟨by simp [hv], hzero,
        fun he => hold (he ▸ hmem), hone, fun o _ => ?_⟩⟩
      exact congrFun (hpage hold) o

/-! ## The rounds of the copying -/

theorem CopyKeeps.step {k'' : Kernel} (h : CopyKeeps k k' p c l lo j) (hpc : p ≠ c)
    (h0 : 0 ≤ j) (hlo : lo ≤ j) (hj : j < 128) (hrun : copyStackPage p c p j k' = .ok k'') :
    CopyKeeps k k'' p c l lo (j + 1) := by
  obtain ⟨m, rfl⟩ := Int.eq_ofNat_of_zero_le h0
  have hm : m < 128 := by omega
  cases hv : (k'.table p m).valid with
  | false =>
    rw [copy_none hm hv] at hrun
    cases hrun
    exact h.pass hm hv
  | true =>
    cases hr : (k'.table p m).readable with
    | false =>
      rw [copyStackPage_unreadable hpc hm hv hr] at hrun
      cases hrun
    | true =>
      obtain ⟨k₁, hrun₁, h₁, -⟩ := copyStackPage_readable hpc hm hlo h hv hr
      rw [hrun₁] at hrun
      cases hrun
      exact h₁

theorem copy_round {x : Iteration Stop Kernel} (h : CopyKeeps k k p c l lo lo) (hpc : p ≠ c)
    (h0 : 0 ≤ lo) (hx : x ∈ history lo MAX_PT_LEN (copyStackPage p c p) k) :
    (lo ≤ x.counter ∧ x.counter < 128) ∧ CopyKeeps k x.before p c l lo x.counter ∧
      x.result = copyStackPage p c p x.counter x.before :=
  Loop.history_inv (P := fun j k' => CopyKeeps k k' p c l lo j) h
    (fun j s s' hj hj' hs => hs.step hpc (by omega) hj (by exact hj')) hx

/-- The loop comes to its end exactly if every page it has to copy can be read. -/
theorem copy_ok (h : CopyKeeps k k p c l lo lo) (hpc : p ≠ c) (h0 : 0 ≤ lo) (hhi : lo ≤ 128)
    (hread : ∀ i : Nat, i < 128 → lo ≤ i → (k.table p i).valid = true → (k.table p i).readable = true) :
    ∃ k', Loop.forRange lo MAX_PT_LEN (copyStackPage p c p) k = .ok k' ∧
      CopyKeeps k k' p c l lo MAX_PT_LEN := by
  refine Loop.forRange_ok (P := fun j k' => CopyKeeps k k' p c l lo j) hhi h fun j s hj hj' hs => ?_
  obtain ⟨m, rfl⟩ := Int.eq_ofNat_of_zero_le (show 0 ≤ j by omega)
  have hm : m < 128 := by unfold MAX_PT_LEN at hj'; omega
  cases hv : (s.table p m).valid with
  | false => exact ⟨s, copy_none hm hv, hs.pass hm hv⟩
  | true =>
    have hr := hread m hm hj (by rw [← hs.table]; exact hv)
    obtain ⟨s', hrun, hs', -⟩ := copyStackPage_readable hpc hm hj hs hv (by rw [hs.table]; exact hr)
    exact ⟨s', hrun, hs'⟩

theorem readable_of_copy_ok {k₁ : Kernel} (h : CopyKeeps k k p c l lo lo) (hpc : p ≠ c) (h0 : 0 ≤ lo)
    (hrun : Loop.forRange lo MAX_PT_LEN (copyStackPage p c p) k = .ok k₁) (hi : i < 128) (hlo : lo ≤ i)
    (hv : (k.table p i).valid = true) : (k.table p i).readable = true := by
  obtain ⟨x, hx, hxi, s, hs⟩ := Loop.history_complete hrun hlo (by unfold MAX_PT_LEN; omega)
  obtain ⟨-, hkeep, hres⟩ := copy_round h hpc h0 hx
  by_contra hr
  rw [hxi, copyStackPage_unreadable hpc hi (by rw [hkeep.table]; exact hv)
    (by rw [hkeep.table]; simpa using hr), hs] at hres
  cases hres

/-- A loop that comes to its end has copied the valid pages from `lo` up, each once, as long as there
were frames. -/
theorem copies_of_ok {k₁ : Kernel} (h : CopyKeeps k k p c l lo lo) (hpc : p ≠ c) (h0 : 0 ≤ lo)
    (hrun : Loop.forRange lo MAX_PT_LEN (copyStackPage p c p) k = .ok k₁) (hi : i < 128)
    (hv : (k.table p i).valid = true) (hold : (k.table p i).pfn ∉ l) :
    times (history lo MAX_PT_LEN (copyStackPage p c p) k) i (copied p c i) =
      if lo ≤ i ∧ stackPages k p lo.toNat - stackPages k p i < l.length then 1 else 0 := by
  have hround : ∀ x ∈ history lo MAX_PT_LEN (copyStackPage p c p) k, x.counter = (i : Int) →
      (copied p c i x = true ↔ stackPages k p lo.toNat - stackPages k p i < l.length) := by
    intro x hx hxi
    obtain ⟨⟨hlo, -⟩, hkeep, hres⟩ := copy_round h hpc h0 hx
    rw [hxi] at hkeep hres hlo
    rw [copied_iff hpc hi hlo hkeep hres hv hold,
      readable_of_copy_ok h hpc h0 hrun hi hlo hv, eq_self, true_and]
  split
  · rename_i hn
    obtain ⟨x, hx, hxi, -⟩ := Loop.history_complete hrun hn.1 (by unfold MAX_PT_LEN; omega)
    exact Loop.times_history.mpr ⟨x, hx, hxi, (hround x hx hxi).mpr hn.2⟩
  · rename_i hn
    refine Loop.times_eq_zero.mpr fun x hx hxi => ?_
    have hlo := (copy_round h hpc h0 hx).1.1
    by_contra hc
    exact hn ⟨by omega, (hround x hx hxi).mp (by simpa using hc)⟩

/-- There is a frame for every page exactly if there are as many frames as pages. -/
theorem frames_iff (hlo : 0 ≤ lo) {n : Nat} (hhi : lo ≤ 128) :
    stackPages k p lo.toNat ≤ n ↔ ∀ i : Nat, i < 128 → lo ≤ i → (k.table p i).valid = true →
      stackPages k p lo.toNat - stackPages k p i < n := by
  obtain ⟨b, rfl⟩ := Int.eq_ofNat_of_zero_le hlo
  rw [Int.toNat_natCast]
  constructor
  · intro hle i hi hbi hv
    have hmono : stackPages k p i ≤ stackPages k p b := stackPages_anti (by omega)
    have hsucc := stackPages_succ (k := k) (p := p) hi
    rw [if_pos hv] at hsucc
    omega
  · intro h
    -- by induction on the pages that have got theirs
    have hle : ∀ m, b ≤ m → m ≤ 128 → stackPages k p b - stackPages k p m ≤ n := by
      intro m hbm
      induction m, hbm using Nat.le_induction with
      | base =>
        intro _
        omega
      | succ m hbm ih =>
        intro hm
        have hsucc := stackPages_succ (k := k) (p := p) (m := m) (by omega)
        have hprev := ih (by omega)
        split at hsucc
        · rename_i hv
          have := h m (by omega) (by omega) hv
          omega
        · omega
    have hend : stackPages k p 128 = 0 := by simp [stackPages]
    have := hle 128 (by omega) le_rfl
    omega

/-- A loop that fails leaves a valid page that has not been copied. -/
theorem copies_of_error {e : Stop} (h : CopyKeeps k k p c l lo lo) (hpc : p ≠ c) (h0 : 0 ≤ lo)
    (hrun : Loop.forRange lo MAX_PT_LEN (copyStackPage p c p) k = .error e) :
    ∃ i < 128, (k.table p i).valid = true ∧
      times (history lo MAX_PT_LEN (copyStackPage p c p) k) i (copied p c i) = 0 := by
  obtain ⟨x, hx, hxe⟩ := Loop.history_failed hrun
  obtain ⟨⟨hlo, hhi⟩, hkeep, hres⟩ := copy_round h hpc h0 hx
  obtain ⟨m, hm⟩ := Int.eq_ofNat_of_zero_le (show 0 ≤ x.counter by omega)
  have hm128 : m < 128 := by omega
  refine ⟨m, hm128, ?_, ?_⟩
  · by_contra hv
    rw [hm, copy_none hm128 (by rw [hkeep.table]; simpa using hv), hxe] at hres
    cases hres
  · have hne : times (history lo MAX_PT_LEN (copyStackPage p c p) k) m (copied p c m) ≠ 1 := by
      intro hone
      obtain ⟨y, hy, hym, hcopied⟩ := Loop.times_history.mp hone
      obtain rfl : y = x := Loop.history_injective hy hx (by rw [hym, hm])
      unfold copied at hcopied
      rw [hxe] at hcopied
      simp at hcopied
    have hle := Loop.times_le_one (Loop.history_increasing lo MAX_PT_LEN (copyStackPage p c p) k) m
      (copied p c m)
    omega

/-! ## The loops that share -/

variable {q : Nat} {n : Int} {raise : Bool} {body : Int → Kernel → Except Stop Kernel}

/-- What a round of the three other loops does to the table of `q`: entry `i` keeps its frame, and
if `raise`, the count of that frame goes up. -/
structure Shares (body : Int → Kernel → Except Stop Kernel) (q : Nat) (raise : Bool) : Prop where
  inside : ∀ (i : Nat) (k : Kernel), i < 128 → ∃ k', body i k = .ok k' ∧
    (∀ j, j ≠ i → k'.table q j = k.table q j) ∧ (k'.table q i).frame = (k.table q i).frame ∧
    k'.frc_table = if (k.table q i).valid && raise then Function.update k.frc_table (k.table q i).pfn
      (char (k.frc_table (k.table q i).pfn + 1)) else k.frc_table

theorem shares_raiseEntry (c : Nat) : Shares (raiseEntry c) c true := by
  refine ⟨fun i k hi => ?_⟩
  unfold raiseEntry
  simp only [Kernel.entry_ok hi, bind, Except.bind]
  cases hv : (k.table c i).valid with
  | false => exact ⟨k, rfl, fun _ _ => rfl, rfl, rfl⟩
  | true => exact ⟨_, rfl, fun _ _ => rfl, rfl, rfl⟩

theorem markEntry_table (is_child : Bool) (hi : i < 128) (hv : (k.table q i).valid = true) :
    ∃ k', markEntry q is_child i k = .ok k' ∧
      k'.table q = Function.update (k.table q) i (k.table q i).protect ∧
      k'.frc_table = if is_child then Function.update k.frc_table (k.table q i).pfn
        (char (k.frc_table (k.table q i).pfn + 1)) else k.frc_table := by
  unfold markEntry
  simp only [Kernel.entry_ok hi, bind, Except.bind, hv, Bool.not_true, Bool.false_eq_true, if_false,
    Kernel.setEntry_ok hi]
  refine ⟨_, rfl, ?_, ?_⟩
  · rw [Kernel.table_putEntry_self]
    cases is_child with
    | false => rfl
    | true => rfl
  · cases is_child with
    | false => rfl
    | true => rfl

theorem shares_markEntry (q : Nat) (is_child : Bool) : Shares (markEntry q is_child) q is_child := by
  refine ⟨fun i k hi => ?_⟩
  cases hv : (k.table q i).valid with
  | false =>
    refine ⟨k, ?_, fun _ _ => rfl, rfl, rfl⟩
    unfold markEntry
    simp only [Kernel.entry_ok hi, bind, Except.bind, hv, Bool.not_false, if_true]
  | true =>
    obtain ⟨k', hrun, htable, hfrc⟩ := markEntry_table is_child hi hv
    refine ⟨k', hrun, fun j hj => ?_, ?_, by rw [hfrc, Bool.true_and]⟩
    · rw [htable, Function.update_of_ne hj]
    · rw [htable, Function.update_self, protect_frame]
      exact (frame_eq_some.mpr ⟨hv, rfl⟩).symm

theorem sharesBelow_succ (k : Kernel) (q m f : Nat) :
    sharesBelow k q (m + 1) f = sharesBelow k q m f + if (k.table q m).frame = some f then 1 else 0 := by
  unfold sharesBelow
  rw [Finset.range_add_one, RefCount.refs_insert Finset.notMem_range_self]

/-- The count of `f` after `n` entries have been raised. -/
def raisedCount (k : Kernel) (q n f : Nat) : Int := char (k.frc_table f + sharesBelow k q n f)

/-- The state `k'` after the entries before `j` of the table `k` has for `q`: the others are as they
were. -/
def RaisedTo (k : Kernel) (q : Nat) (raise : Bool) (j : Int) (k' : Kernel) : Prop :=
  j ≤ 128 → (∀ m : Nat, j ≤ m → k'.table q m = k.table q m) ∧
    k'.frc_table = if raise then raisedCount k q j.toNat else k.frc_table

theorem RaisedTo.step {j : Int} {s s' : Kernel} (hs : RaisedTo k q raise j s)
    (h : Shares body q raise) (h0 : 0 ≤ j) (hrun : body j s = .ok s') :
    RaisedTo k q raise (j + 1) s' := by
  intro hle
  obtain ⟨m, rfl⟩ := Int.eq_ofNat_of_zero_le h0
  obtain ⟨htable, hfrc⟩ := hs (by omega)
  obtain ⟨s₁, hrun₁, hne, -, hfrc₁⟩ := h.inside m s (by omega)
  rw [hrun] at hrun₁
  cases hrun₁
  refine ⟨fun j hj => (hne j (by omega)).trans (htable j (by omega)), ?_⟩
  rw [hfrc₁, htable m le_rfl, hfrc, show ((m : Int) + 1).toNat = m + 1 by omega]
  cases raise with
  | false => simp
  | true =>
    funext f
    simp only [Bool.and_true, if_true, Int.toNat_natCast]
    unfold raisedCount
    rw [sharesBelow_succ]
    cases hv : (k.table q m).valid with
    | false =>
      rw [frame_eq_none.mpr hv]
      simp
    | true =>
      rw [if_pos rfl]
      by_cases hf : f = (k.table q m).pfn
      · subst hf
        rw [Function.update_self, char_char_add, if_pos (frame_eq_some.mpr ⟨hv, rfl⟩)]
        congr 1
        push_cast
        ring
      · rw [Function.update_of_ne hf, if_neg fun he => hf (frame_eq_some.mp he).2.symm, Nat.add_zero]

/-- The entry a round begins with is as it was before the loop, and the counts have been raised for
the entries before it. -/
theorem share_round {x : Iteration Stop Kernel} (h : Shares body q raise)
    (hchars : ∀ f, -128 ≤ k.frc_table f ∧ k.frc_table f ≤ 127) (hx : x ∈ history 0 n body k)
    (hxi : x.counter = (i : Int)) (hi : i < 128) :
    x.before.table q i = k.table q i ∧
      x.before.frc_table = if raise then raisedCount k q i else k.frc_table := by
  have hstart : RaisedTo k q raise 0 k := by
    refine fun _ => ⟨fun _ _ => rfl, ?_⟩
    cases raise with
    | false => rfl
    | true =>
      funext f
      have hf := hchars f
      have hzero : sharesBelow k q 0 f = 0 := rfl
      rw [if_pos rfl, raisedCount, show Int.toNat 0 = 0 from rfl, hzero,
        char_of_range (by omega) (by omega)]
      omega
  obtain ⟨-, hP, -⟩ := Loop.history_inv hstart (fun j s s' h0 _ hs hrun => hs.step h h0 hrun) hx
  obtain ⟨htable, hfrc⟩ := hP (by omega)
  refine ⟨htable i (by omega), ?_⟩
  rw [hfrc, hxi, Int.toNat_natCast]

/-- The loop comes to every entry of the table below its end, and to the place after the last one. -/
theorem share_reaches (h : Shares body q raise) (hi : i ≤ 128) (hn : (i : Int) < n) :
    ∃ x ∈ history 0 n body k, x.counter = (i : Int) := by
  refine Loop.history_reach (by omega) hn fun m s hm hmi => ?_
  obtain ⟨m, rfl⟩ := Int.eq_ofNat_of_zero_le hm
  obtain ⟨s', hs', -⟩ := h.inside m s (by omega)
  exact ⟨s', hs'⟩

/-- The loop over the parent's table marks every entry below its end once. -/
theorem mark_marked {is_child : Bool} (hchars : ∀ f, -128 ≤ k.frc_table f ∧ k.frc_table f ≤ 127)
    (hi : i < 128) (hv : (k.table q i).valid = true) :
    times (history 0 n (markEntry q is_child) k) i (marked q i) = if (i : Int) < n then 1 else 0 := by
  split
  · rename_i hn
    obtain ⟨x, hx, hxi⟩ := share_reaches (k := k) (shares_markEntry q is_child) hi.le hn
    have htable := (share_round (shares_markEntry q is_child) hchars hx hxi hi).1
    obtain ⟨s', hs', hmark, -⟩ := markEntry_table (k := x.before) is_child hi (by rw [htable, hv])
    have hres := (Loop.history_range hx).2
    refine Loop.times_history.mpr ⟨x, hx, hxi, ?_⟩
    unfold marked
    rw [hres, hxi, hs', htable, hv]
    simp [hmark, htable]
  · rename_i hn
    refine Loop.times_eq_zero.mpr fun x hx hxi => ?_
    have := (Loop.history_range hx).1.2
    omega

/-- An entry below the end of the loop is shared once, unless the count of its frame is at the
maximum by then. -/
theorem share_raised (h : Shares body q true)
    (hchars : ∀ f, -128 ≤ k.frc_table f ∧ k.frc_table f ≤ 127) (hi : i < 128)
    (hv : (k.table q i).valid = true) :
    times (history 0 n body k) i (raised q i) =
      if (i : Int) < n ∧ raisedCount k q i (k.table q i).pfn ≠ 127 then 1 else 0 := by
  have hround : ∀ x ∈ history 0 n body k, x.counter = (i : Int) →
      (raised q i x = true ↔ raisedCount k q i (k.table q i).pfn ≠ 127) := by
    intro x hx hxi
    obtain ⟨htable, hfrc⟩ := share_round h hchars hx hxi hi
    obtain ⟨s', hs', -, hframe, hfrc'⟩ := h.inside i x.before hi
    have hres := (Loop.history_range hx).2
    rw [if_pos rfl] at hfrc
    have hchar : -128 ≤ raisedCount k q i (k.table q i).pfn ∧
        raisedCount k q i (k.table q i).pfn ≤ 127 := char_range _
    unfold raised
    dsimp only
    rw [htable, hv, hres, hxi, hs']
    simp only [Bool.true_and, decide_eq_true_eq]
    rw [hframe, htable, and_iff_right (frame_eq_some.mpr ⟨hv, rfl⟩), hfrc', htable, hv, Bool.true_and,
      if_pos rfl, Function.update_self, hfrc]
    constructor
    · intro he hmax
      rw [hmax] at he
      exact absurd he (by decide)
    · intro hne
      exact char_of_range (by omega) (by omega)
  split
  · rename_i hn
    obtain ⟨x, hx, hxi⟩ := share_reaches (k := k) h hi.le hn.1
    exact Loop.times_history.mpr ⟨x, hx, hxi, (hround x hx hxi).mpr hn.2⟩
  · rename_i hn
    refine Loop.times_eq_zero.mpr fun x hx hxi => ?_
    have hlt := (Loop.history_range hx).1.2
    by_contra hr
    exact hn ⟨by omega, (hround x hx hxi).mp (by simpa using hr)⟩

/-- No count is at its maximum when it is raised exactly if none is taken past it in the end. -/
theorem counts_iff (hchars : ∀ f, -128 ≤ k.frc_table f ∧ k.frc_table f ≤ 127) {n : Nat} :
    (∀ f, k.frc_table f + sharesBelow k q n f ≤ 127) ↔
      ∀ i < n, (k.table q i).valid = true → raisedCount k q i (k.table q i).pfn ≠ 127 := by
  constructor
  · intro h i hi hv
    have hk := hchars (k.table q i).pfn
    have hn := h (k.table q i).pfn
    have hmono : sharesBelow k q (i + 1) (k.table q i).pfn ≤ sharesBelow k q n (k.table q i).pfn :=
      RefCount.refs_mono (Finset.range_subset_range.mpr hi)
    rw [sharesBelow_succ, if_pos (frame_eq_some.mpr ⟨hv, rfl⟩)] at hmono
    unfold raisedCount
    rw [char_of_range (by omega) (by omega)]
    omega
  · intro h f
    have hk := hchars f
    -- by induction on the entries raised so far
    have hle : ∀ m ≤ n, k.frc_table f + sharesBelow k q m f ≤ 127 := by
      intro m
      induction m with
      | zero =>
        intro _
        have hzero : sharesBelow k q 0 f = 0 := rfl
        omega
      | succ m ih =>
        intro hm
        have := ih (by omega)
        rw [sharesBelow_succ]
        split
        · rename_i he
          obtain ⟨hv, rfl⟩ := frame_eq_some.mp he
          have hne := h m (by omega) hv
          unfold raisedCount at hne
          rw [char_of_range (by omega) (by omega)] at hne
          push_cast
          omega
        · exact this
    exact hle n le_rfl

end Yalnix
