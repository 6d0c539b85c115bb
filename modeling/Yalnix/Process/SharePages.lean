import Yalnix.Process.StackCopy

/-!
# The pages below the stack pointer

* `setCopyOnWrite_child`, `increaseFRCEntries_spec` — the loops of a fork and of a new thread over
  the entries below the stack pointer: each valid one is counted once more.
* `cloneKernelContext_spec` — the copy of the kernel stack changes its two frames only.
-/

set_option autoImplicit false

namespace Yalnix

variable {k k' k₁ k₂ : Kernel} {l l' X Y : List Nat} {f g p c i n sb : Nat} {D : Finset Slot}
  {leak : Nat → Nat}

/-! ## The pages below the stack -/

theorem mapping_mapBelow (c : Nat) (n : Int) {u : PTE → PTE} (hu : ∀ e, (u e).frame = e.frame) :
    mapping (k.modify c (mapBelow n u)) = mapping k := by
  funext x
  by_cases hx : x.1 ≠ c ∨ 128 ≤ x.2
  · exact (Touches.mapBelow c n u []).mapping hx
  · obtain ⟨q, j⟩ := x
    simp only [not_or, not_not, Nat.not_le] at hx
    obtain ⟨rfl, hj⟩ := hx
    by_cases h0 : q = 0
    · subst h0
      rfl
    · rw [mapping_table h0 hj, mapping_table h0 hj, table_mapBelow]
      split
      · exact hu _
      · rfl

/-- The common loop of `setCopyOnWrite` for a child and `increaseFRCEntries`: every valid entry
below `n` is counted once more, and changed by `u`. -/
theorem share_spec {u : PTE → PTE} {body : Int → Kernel → Except Stop Kernel}
    (hu : ∀ e, (u e).frame = e.frame) (hinv : ∀ e : PTE, e.valid = false → u e = e)
    (hbody : ∀ (m : Nat) (k : Kernel), m < 128 → body m k = .ok
      (if (k.table c m).valid then
        (k.setFrc (k.table c m).pfn (char (k.frc_table (k.table c m).pfn + 1))).modify c
          (Kernel.putEntry m (u (k.table c m)))
      else k))
    (h : Counted k D leak l) (hc : c ≠ 0) (hn : n ≤ 128) (hcD : ∀ i < n, (c, i) ∉ D)
    (hused : ∀ i < n, (k.table c i).valid = true →
      ∃ y ∈ D, y.1 ≠ 0 ∧ mapping k y = some (k.table c i).pfn) :
    ∃ T, Loop.forRange 0 (n : Int) body k =
        .ok { k.modify c (mapBelow n u) with frc_table := T } ∧
      Counted { k.modify c (mapBelow n u) with frc_table := T } (D ∪ block c 0 n) leak l ∧
      ∀ f, (∀ i < n, (k.table c i).valid = true → (k.table c i).pfn ≠ f) → T f = k.frc_table f := by
  have hloop := Loop.forRange_ok (a := 0) (b := (n : Int)) (s := k) (g := body)
    (P := fun m k' => ∃ T, k' = { k.modify c (mapBelow m u) with frc_table := T } ∧
      Counted k' (D ∪ block c 0 m.toNat) leak l ∧
      ∀ f, (∀ i < n, (k.table c i).valid = true → (k.table c i).pfn ≠ f) → T f = k.frc_table f)
    (by omega) ?_ ?_
  · obtain ⟨k', hrun, T, rfl, hcounted, hfrc⟩ := hloop
    exact ⟨T, hrun, hcounted, hfrc⟩
  · have h0 : mapBelow 0 u (k.proc c) = k.proc c := by
      unfold mapBelow
      simp [show ∀ j : Nat, ¬ (j : Int) < 0 by omega]
    refine ⟨k.frc_table, by simp [Kernel.modify, h0], ?_, fun _ _ => rfl⟩
    rw [show Int.toNat 0 = 0 from rfl, block_self, Finset.union_empty]
    exact h
  · rintro m k₁ hm hmn ⟨T, rfl, hcounted, hfrc⟩
    obtain ⟨m, rfl⟩ := Int.eq_ofNat_of_zero_le hm
    have hm128 : m < 128 := by omega
    have hmn' : m < n := by omega
    have he : ({ k.modify c (mapBelow m u) with frc_table := T } : Kernel).table c m =
        k.table c m := by
      have := table_mapBelow (k := k) (p := c) (m : Int) u m
      rw [if_neg (by omega)] at this
      exact this
    have hmap : ∀ T', mapping { k.modify c (mapBelow m u) with frc_table := T' } = mapping k :=
      fun _ => mapping_mapBelow c m hu
    have hsucc : ∀ T', ({ k.modify c (mapBelow m u) with frc_table := T' } : Kernel).modify c
        (Kernel.putEntry m (u (k.table c m))) =
          { k.modify c (mapBelow ((m : Int) + 1) u) with frc_table := T' } := fun T' => by
      rw [← mapBelow_succ]
      rfl
    have hnew : (c, m) ∉ D ∪ block c 0 m := by
      rw [Finset.mem_union, mem_block]
      rintro (hD | ⟨-, -, hlt⟩)
      · exact hcD m hmn' hD
      · omega
    simp only [Int.toNat_natCast, show ((m : Int) + 1).toNat = m + 1 by omega] at hcounted ⊢
    rw [hbody m _ hm128, he, block_succ (Nat.zero_le m), Finset.union_insert]
    cases hv : (k.table c m).valid with
    | false =>
      have hsame := hsucc T
      rw [hinv _ hv] at hsame
      have hid : ({ k.modify c (mapBelow m u) with frc_table := T } : Kernel).modify c
          (Kernel.putEntry m (k.table c m)) = { k.modify c (mapBelow m u) with frc_table := T } := by
        rw [← he]
        simp [Kernel.modify, Kernel.putEntry, Kernel.table]
      rw [hid] at hsame
      refine ⟨_, rfl, T, hsame, hcounted.extend_none ?_, hfrc⟩
      rw [hmap, mapping_table hc hm128]
      exact frame_eq_none.mpr hv
    | true =>
      obtain ⟨y, hyD, hy0, hym⟩ := hused m hmn' hv
      refine ⟨_, rfl, Function.update T (k.table c m).pfn (char (T (k.table c m).pfn + 1)), hsucc _, ?_,
        fun f hf => ?_⟩
      · rw [if_pos rfl]
        refine hcounted.share (f := (k.table c m).pfn) (hcounted.list.of_eq rfl rfl rfl) rfl rfl hnew ?_
          ⟨y, Finset.mem_union.mpr (.inl hyD), hy0, by rw [hmap]; exact hym⟩ fun z _ => ?_
        · rw [mapping_putEntry hc hm128, Function.update_self, hu]
          exact frame_eq_some.mpr ⟨hv, rfl⟩
        · rw [mapping_putEntry_same hc hm128 (by rw [Kernel.table_setFrc, he, hu])]
          rfl
      · rw [Function.update_of_ne (hf m hmn' hv).symm]
        exact hfrc f hf

theorem setCopyOnWrite_child (h : Counted k D leak l) (hc : c ≠ 0) (hsb : stack_base p k = n)
    (hn : n ≤ 128) (hcD : ∀ i < n, (c, i) ∉ D)
    (hused : ∀ i < n, (k.table c i).valid = true →
      ∃ y ∈ D, y.1 ≠ 0 ∧ mapping k y = some (k.table c i).pfn) :
    ∃ T, setCopyOnWrite p c true k =
        .ok { k.modify c (mapBelow n PTE.shared) with frc_table := T } ∧
      Counted { k.modify c (mapBelow n PTE.shared) with frc_table := T } (D ∪ block c 0 n) leak l ∧
      ∀ f, (∀ i < n, (k.table c i).valid = true → (k.table c i).pfn ≠ f) → T f = k.frc_table f := by
  unfold setCopyOnWrite markEntry
  rw [hsb]
  refine share_spec shared_frame (fun e hv => by rw [PTE.shared, hv]; rfl) (fun m k hm => ?_) h hc hn
    hcD hused
  simp only [Kernel.entry_ok hm, bind, Except.bind]
  cases hv : (k.table c m).valid with
  | false => rfl
  | true =>
    simp only [PTE.shared, hv, Kernel.setEntry_ok hm]
    rfl

theorem increaseFRCEntries_spec (h : Counted k D leak l) (hc : c ≠ 0) (hsb : stack_base p k = n)
    (hn : n ≤ 128) (hcD : ∀ i < n, (c, i) ∉ D)
    (hused : ∀ i < n, (k.table c i).valid = true →
      ∃ y ∈ D, y.1 ≠ 0 ∧ mapping k y = some (k.table c i).pfn) :
    ∃ T, increaseFRCEntries p c k = .ok { k.modify c (mapBelow n id) with frc_table := T } ∧
      Counted { k.modify c (mapBelow n id) with frc_table := T } (D ∪ block c 0 n) leak l ∧
      ∀ f, (∀ i < n, (k.table c i).valid = true → (k.table c i).pfn ≠ f) → T f = k.frc_table f := by
  unfold increaseFRCEntries raiseEntry
  rw [hsb]
  refine share_spec (fun _ => rfl) (fun _ _ => rfl) (fun m k hm => ?_) h hc hn hcD hused
  simp only [Kernel.entry_ok hm, bind, Except.bind]
  cases hv : (k.table c m).valid with
  | false => rfl
  | true =>
    simp [Kernel.modify, Kernel.putEntry, Kernel.table]
    rfl

/-- The kernel stack of the child is filled: only its two frames change. -/
theorem cloneKernelContext_spec (f₀ f₁ : Nat) (h₀ : (k.proc c).pcb_frames 0 = pageAtIndex f₀)
    (h₁ : (k.proc c).pcb_frames 1 = pageAtIndex f₁) (p : Nat) :
    Quiet k (cloneKernelContext p c k) [f₀, f₁] ∧
      (cloneKernelContext p c k).frc_table = k.frc_table ∧
      (cloneKernelContext p c k).frame_head = k.frame_head := by
  refine ⟨⟨rfl, rfl, rfl, fun i hi => ?_, fun g hg => ?_⟩, rfl, rfl⟩
  · unfold cloneKernelContext Kernel.setWindow Kernel.setWindowPage
    simp only [Function.update_of_ne (show i ≠ 123 + 0 by omega),
      Function.update_of_ne (show i ≠ 123 + 1 by omega)]
  · have hg₀ : g ≠ f₀ := fun he => hg (by simp [he])
    have hg₁ : g ≠ f₁ := fun he => hg (by simp [he])
    simp [cloneKernelContext, h₀, h₁, Kernel.setWindowPage, hg₀, hg₁]

end Yalnix
