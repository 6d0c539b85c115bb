import Yalnix.Process.ExactCounts

/-!
# The contents of pages

`pageOf k p i` is what process `p` sees at page `i` of region 1.

* `Spawned.pageOf_old`, `Spawned.pageOf_child` — forking and creating a thread change no page, and
  the new process starts with the pages of its parent.
* `pageOf_trap` — a copy-on-write trap changes no page.
* `pageOf_poke` — a store changes one byte of the pages that are mapped to its frame.
-/

set_option autoImplicit false

namespace Yalnix

open RefCount (refs)

variable {k k' k₁ : Kernel} {l l' : List Nat} {f g p q n sb i : Nat} {a : Int} {b : UInt8}
  {D : Finset Slot} {leak : Nat → Nat}

/-! ## Contents of pages -/

/-- The page at index `i` of region 1 of `p`, if it is mapped. -/
def pageOf (k : Kernel) (p i : Nat) : Option Word.Page := (k.table p i).frame.map k.pmem

theorem pageOf_congr (hframe : (k'.table p i).frame = (k.table p i).frame)
    (hpmem : ∀ f, (k.table p i).frame = some f → k'.pmem f = k.pmem f) :
    pageOf k' p i = pageOf k p i := by
  unfold pageOf
  rw [hframe]
  cases h : (k.table p i).frame with
  | none => rfl
  | some f => simp [hpmem f h]

theorem pageOf_isSome : (pageOf k p i).isSome = (k.table p i).valid := by
  unfold pageOf PTE.frame
  cases (k.table p i).valid <;> rfl

/-- A frame that an entry maps is not on the free list. -/
theorem Counted.entry_not_free (h : Counted k (slots n) leak l) (hq : 0 < q ∧ q ≤ n) (hi : i < 128)
    (hm : (k.table q i).frame = some f) : f ∉ l :=
  h.not_free (x := (q, i)) (mem_slots.mpr ⟨hq.2, by simp only; omega⟩)
    (by rw [mapping_table (by omega) hi]; exact hm)

section Spawned

variable {u : PTE → PTE} {leader : Option PID}

theorem Spawned.frame_old (h : Spawned k k' p n sb l u leader) (hu : ∀ e, (u e).frame = e.frame)
    (hq : q ≤ n) (i : Nat) : (k'.table q i).frame = (k.table q i).frame := by
  by_cases hqp : q = p
  · subst hqp
    rw [h.table_parent]
    split
    · exact hu _
    · rfl
  · rw [h.table_other hqp (by omega)]

/-- Forking changes no page of the processes there are. -/
theorem Spawned.pageOf_old (h : Spawned k k' p n sb l u leader) (hu : ∀ e, (u e).frame = e.frame)
    (hc : Counted k (slots n) leak l) (hq : 0 < q ∧ q ≤ n) (hi : i < 128) :
    pageOf k' q i = pageOf k q i := by
  apply pageOf_congr (h.frame_old hu hq.2 i)
  intro f hf
  exact h.pmem f (hc.entry_not_free hq hi hf)

/-- **The new process has the pages of its parent.** -/
theorem Spawned.pageOf_child (h : Spawned k k' p n sb l u leader) (hu : ∀ e, (u e).frame = e.frame)
    (hc : Counted k (slots n) leak l) (hp : 0 < p ∧ p ≤ n) (hi : i < 128) :
    pageOf k' (n + 1) i = pageOf k p i := by
  by_cases hlow : i < sb
  · unfold pageOf
    rw [h.below i hlow, hu]
    cases hf : (k.table p i).frame with
    | none => rfl
    | some f => simp [h.pmem f (hc.entry_not_free hp hi hf)]
  · have hcopy := h.above i (by omega) hi
    unfold pageOf PTE.frame
    cases hv : (k.table p i).valid with
    | false => simp [hcopy.invalid hv, hv]
    | true =>
      have hv' : (k'.table (n + 1) i).valid = true := by
        rw [hcopy.flags]
        exact hv
      simp [hv', (hcopy.valid hv).2.2]

end Spawned

/-- **A copy-on-write trap changes the contents of no page.** -/
theorem pageOf_trap (hc : Counted k (slots n) leak l) (htouch : Touches p k k' l)
    (hv : (k.table p (userPage a)).valid = true)
    (htable : k'.table p = Function.update (k.table p) (userPage a)
      ((k.table p (userPage a)).unprotect f))
    (hpage : k'.pmem f = k.pmem (k.table p (userPage a)).pfn) (hq : 0 < q ∧ q ≤ n)
    (hi : i < 128) : pageOf k' q i = pageOf k q i := by
  by_cases hqi : q = p ∧ i = userPage a
  · obtain ⟨rfl, rfl⟩ := hqi
    unfold pageOf
    rw [htable, Function.update_self, unprotect_frame, frame_eq_some.mpr ⟨hv, rfl⟩]
    simp [hpage]
  · apply pageOf_congr
    · by_cases hqp : q = p
      · subst hqp
        rw [htable, Function.update_of_ne (fun hia => hqi ⟨rfl, hia⟩)]
      · rw [htouch.table_ne hqp]
    · intro g hg
      exact htouch.pmem g (hc.entry_not_free hq hi hg)

/-! ## Stores -/

@[simp] theorem table_poke (o : Nat) : (k.poke f o b).table = k.table := rfl

theorem Counted.poke (h : Counted k D leak l) (hf : f ∉ l) (o : Nat) (b : UInt8) :
    Counted (k.poke f o b) D leak l := by
  refine h.congr (h.list.congr rfl rfl fun g hg => ?_) rfl rfl fun _ _ => rfl
  have hgf : g ≠ f := fun he => hf (he ▸ hg)
  exact Function.update_of_ne hgf _ _

/-- A store changes the one byte of the pages that are mapped to its frame. -/
theorem pageOf_poke (o : Nat) (b : UInt8) : pageOf (k.poke f o b) q i =
    if (k.table q i).frame = some f then (pageOf k q i).map fun pg => Function.update pg o b
    else pageOf k q i := by
  unfold pageOf Kernel.poke
  cases hm : (k.table q i).frame with
  | none => simp [Kernel.table] at hm ⊢; simp [hm]
  | some g =>
    have hm' : ((k.proc q).page_table i).frame = some g := hm
    simp only [Kernel.table, hm', Option.map_some, Option.some.injEq]
    by_cases hg : g = f
    · subst hg
      simp
    · simp [hg]

/-! ## Saving the user context -/

theorem running_saveUserContext {context : UserContext} :
    Running (saveUserContext p context k) q ↔ Running k q := by
  have hlive : ((saveUserContext p context k).proc q).live = (k.proc q).live := by
    unfold saveUserContext
    by_cases hqp : q = p
    · simp [hqp]
    · simp [hqp]
  constructor
  · rintro ⟨h0, hle, h⟩
    exact ⟨h0, hle, hlive ▸ h⟩
  · rintro ⟨h0, hle, h⟩
    exact ⟨h0, hle, hlive ▸ h⟩

theorem proc_saveUserContext (context : UserContext) (q : Nat) :
    (saveUserContext p context k).proc q =
      { k.proc q with user_context := ((saveUserContext p context k).proc q).user_context } := by
  unfold saveUserContext
  by_cases hqp : q = p
  · simp [hqp]
  · simp [hqp]

theorem pageOf_saveUserContext (context : UserContext) :
    pageOf (saveUserContext p context k) q i = pageOf k q i := by
  unfold pageOf
  rw [table_saveUserContext]
  rfl

/-- The entry of an address of region 1. -/
theorem userEntry_of_range (hlo : VMEM_1_BASE ≤ a) (hhi : a < VMEM_1_LIMIT) :
    userEntry k p a = k.table p (userPage a) := if_pos ⟨hlo, hhi⟩

theorem store_of_writable (hlo : VMEM_1_BASE ≤ a) (hhi : a < VMEM_1_LIMIT)
    (hv : (k.table p (userPage a)).valid = true) (hw : (k.table p (userPage a)).writable = true) :
    store k p a b = some (k.poke (k.table p (userPage a)).pfn (pageOffset a) b) := by
  unfold store
  simp only [userEntry_of_range hlo hhi, hv, hw, Bool.and_self, if_true]

/-! ## Loads -/

/-- A load reads the page its process sees. -/
theorem load_eq_pageOf (h : TablesOk k) (hp : 0 < p ∧ p ≤ k.max_pid) (hlo : VMEM_1_BASE ≤ a)
    (hhi : a < VMEM_1_LIMIT) :
    load k p a = (pageOf k p (userPage a)).map fun pg => pg (pageOffset a) := by
  have hok := h p hp.1 hp.2 _ (trap_index hlo hhi).2
  unfold load pageOf PTE.frame
  simp only [userEntry_of_range hlo hhi]
  cases hv : (k.table p (userPage a)).valid with
  | false => rfl
  | true => simp [hok.readable hv]

/-- Nothing is mapped outside region 1. -/
theorem load_of_not_range (ha : ¬ (VMEM_1_BASE ≤ a ∧ a < VMEM_1_LIMIT)) : load k p a = none := by
  unfold load userEntry
  rw [if_neg ha]
  rfl

/-- Two addresses of one page have different offsets. -/
theorem pageOffset_ne {a' : Int} (hlo : VMEM_1_BASE ≤ a) (hlo' : VMEM_1_BASE ≤ a')
    (hpage : userPage a = userPage a') (hne : a ≠ a') : pageOffset a ≠ pageOffset a' := by
  unfold userPage indexOfPage VMEM_1_BASE at hpage
  unfold VMEM_1_BASE at hlo hlo'
  unfold pageOffset
  omega

/-- The first address of page `i` of region 1. -/
def pageAddress (i : Nat) : Int := VMEM_1_BASE + i * 8192

theorem pageAddress_spec (hi : i < 128) : VMEM_1_BASE ≤ pageAddress i ∧
    pageAddress i < VMEM_1_LIMIT ∧ userPage (pageAddress i) = i ∧ pageOffset (pageAddress i) = 0 := by
  unfold userPage pageOffset indexOfPage pageAddress VMEM_1_BASE VMEM_1_LIMIT
  omega

end Yalnix
