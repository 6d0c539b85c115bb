import Yalnix.Process.Sound

/-!
# Writes and exits in sound states

* `userWrite_cases` — a write is a fault that may give the writer a frame of its own, and then at
  most one store, through a writable entry.
* `Sound.write`, `Sound.exit` — both keep a state sound.
-/

set_option autoImplicit false

namespace Yalnix

open RefCount (refs)

variable {k k' k₁ : Kernel} {l l' X : List Nat} {f f₀ f₁ g p q n sb i : Nat} {a : Int} {b : UInt8}
  {leak : Nat → Nat}

/-! ## Stores -/

theorem Sound.poke (h : Sound k) (hp : Running k p) (hi : i < 128)
    (hv : (k.table p i).valid = true) (o : Nat) (b : UInt8) :
    Sound (k.poke (k.table p i).pfn o b) := by
  obtain ⟨leak, l, hc, hb⟩ := h.bounded
  have hfree := hc.entry_not_free ⟨hp.pos, hp.le⟩ hi (frame_eq_some.mpr ⟨hv, rfl⟩)
  exact ⟨⟨leak, l, hc.poke hfree o b, hb⟩, h.tables, h.distinct,
    fun q hq => h.process q ⟨hq.pos, hq.le, hq.live⟩⟩

/-! ## Faults -/

/-- What the fault of a write to page `i` of `p` may do: nothing, or give `p` a writable frame of
its own there. -/
structure Faulted (p i : Nat) (k k₁ : Kernel) : Prop where
  sound : Sound k₁
  max_pid : k₁.max_pid = k.max_pid
  proc : ∀ q, q ≠ p → k₁.proc q = k.proc q
  self : k₁.proc p =
    { k.proc p with page_table := k₁.table p, user_context := (k₁.proc p).user_context }
  kpt : ∀ j < 123, k₁.kernel_page_table j = k.kernel_page_table j
  entry : ∀ j, j ≠ i → k₁.table p j = k.table p j
  page : ∀ q, 0 < q → q ≤ k.max_pid → ∀ j < 128, ¬ (q = p ∧ j = i) → pageOf k₁ q j = pageOf k q j
  outcome : k₁.table p i = k.table p i ∧ pageOf k₁ p i = pageOf k p i ∨
    (k₁.table p i).valid = true ∧ (k₁.table p i).writable = true ∧
      refs (slots k.max_pid) (mapping k₁) (k₁.table p i).pfn = 1 ∧
      ((k.table p i).cow = true → pageOf k₁ p i = pageOf k p i)
  cow : (k.table p i).cow = true → (k₁.table p i).valid = true ∧ (k₁.table p i).writable = true

theorem Faulted.refl (h : Sound k) (hcow : (k.table p i).cow = false) : Faulted p i k k :=
  ⟨h, rfl, fun _ _ => rfl, rfl, fun _ _ => rfl, fun _ _ => rfl, fun _ _ _ _ _ _ => rfl, .inl ⟨rfl, rfl⟩,
    fun hc => absurd hc (by rw [hcow]; simp)⟩

/-- The entry of the page gets a frame that nothing else refers to. -/
theorem Faulted.of_putEntry {e : PTE} (h : Sound k) (hb : Bounded k leak l) (hp : Running k p)
    (hi : i < 128) (htouch : Touches p k k' l)
    (htable : k'.table p = Function.update (k.table p) i e)
    (hb' : ∃ leak l, Bounded k' leak l) (hv : e.valid = true) (hr : e.readable = true)
    (hw : e.writable = true) (hown : refs (slots k.max_pid) (mapping k') e.pfn = 1)
    (hpage : (k.table p i).cow = true → pageOf k' p i = pageOf k p i) : Faulted p i k k' := by
  have hp0 := hp.pos
  have hself : k'.table p i = e := by
    rw [htable, Function.update_self]
  have hmem : ∀ j < 128, (p, j) ∈ slots k.max_pid := fun j hj =>
    mem_slots.mpr ⟨hp.le, by simp only; omega⟩
  have hframe : e.frame = some e.pfn := frame_eq_some.mpr ⟨hv, rfl⟩
  refine ⟨?_, htouch.max_pid, htouch.proc, ?_, fun j hj => htouch.kpt j (by omega), fun j hj => ?_,
    fun q hq0 hq j hj hqj => ?_, ?_, ?_⟩
  · refine h.putEntry hp hi htouch htable hb' hv hr hw fun j hj hjf => ?_
    have := RefCount.eq_of_refs_le_one hown.le (x := (p, j)) (y := (p, i)) (hmem j hj)
      (by rw [mapping_table (by omega) hj, hjf]; exact hframe) (hmem i hi)
      (by rw [mapping_table (by omega) hi, hself]; exact hframe)
    exact (Prod.mk.inj this).2
  · have := htouch.self
    rw [this]
  · rw [htable, Function.update_of_ne hj]
  · apply pageOf_congr
    · by_cases hqp : q = p
      · subst hqp
        rw [htable, Function.update_of_ne fun hji => hqj ⟨rfl, hji⟩]
      · rw [htouch.table_ne hqp]
    · intro g hg
      exact htouch.pmem g (hb.1.entry_not_free ⟨hq0, hq⟩ hj hg)
  · rw [hself]
    exact .inr ⟨hv, hw, hown, hpage⟩
  · rw [hself]
    exact fun _ => ⟨hv, hw⟩

/-- **The memory trap of a sound state.** -/
theorem Sound.trap (h : Sound k) (hp : Running k p) (hlo : VMEM_1_BASE ≤ a)
    (hhi : a < VMEM_1_LIMIT) (hrun : handleMemoryTrap p a k = .ok k') :
    Faulted p (userPage a) k k' := by
  obtain ⟨leak, l, hb⟩ := h.bounded
  obtain ⟨hc, h127⟩ := hb
  have hp0 := hp.pos
  have hi := (trap_index hlo hhi).2
  have hok := h.tables p hp0 hp.le _ hi
  have hx : (p, userPage a) ∈ slots k.max_pid := mem_slots.mpr ⟨hp.le, by simp only; omega⟩
  cases hcow : (k.table p (userPage a)).cow with
  | true =>
    have hv : (k.table p (userPage a)).valid = true := by
      cases hv : (k.table p (userPage a)).valid with
      | true => rfl
      | false => exact absurd hcow (by rw [hok.clear hv]; simp)
    obtain ⟨k₁, l', f, hrun', hcounted, htouch, htable, hpage, -, hone⟩ := handleMemoryTrap_cow hc
      (by omega) hlo hhi hx hv (hok.readable hv) hcow (h127 _) fun hshared hnil => by
        subst hnil
        have hfrc := hc.counts.exact (h127 (k.table p (userPage a)).pfn)
        rw [handleMemoryTrap_halt hc.list hlo hhi hcow (by omega)] at hrun
        cases hrun
    rw [hrun, Except.ok.injEq] at hrun'
    subst hrun'
    obtain ⟨huv, huw, hur, -⟩ := unprotect_flags (k.table p (userPage a)) f
    have hupdate := htouch.mapping_update (by omega) hi htable
    rw [unprotect_frame] at hupdate
    have hself : mapping k' (p, userPage a) = some f := by
      rw [hupdate, Function.update_self]
    refine Faulted.of_putEntry h ⟨hc, h127⟩ hp hi htouch htable ⟨leak, l', ?_⟩ huv
      (hur.trans (hok.readable hv)) huw ?_ fun _ => ?_
    · unfold Bounded
      rw [htouch.max_pid]
      refine ⟨hcounted, fun g => ?_⟩
      by_cases hgf : g = f
      · rw [hgf]
        omega
      · have := RefCount.refs_update_le (m := mapping k) hx hgf
        rw [← hupdate] at this
        have := h127 g
        omega
    · have hpos := RefCount.refs_pos hx hself
      rw [unprotect_pfn]
      omega
    · exact pageOf_trap hc htouch hv htable hpage ⟨hp0, hp.le⟩ hi
  | false =>
    by_cases hsp : DOWN_TO_PAGE (k.proc p).user_context.sp ≤ a
    · cases l with
      | nil =>
        rw [handleMemoryTrap_full hc.list hlo hhi hcow hsp] at hrun
        cases hrun
      | cons f l =>
        obtain ⟨k₁, leak', halloc, hf0, hb', htouch, htable, hone⟩ := Bounded.map_page ⟨hc, h127⟩ hp hi
        rw [handleMemoryTrap_stack hlo hhi hcow hsp hf0 halloc, Except.ok.injEq] at hrun
        subst hrun
        obtain ⟨hv, hw, hr, -⟩ := data_flags f
        exact Faulted.of_putEntry h ⟨hc, h127⟩ hp hi
          (htouch.mono fun g hg => List.mem_cons_of_mem _ hg) htable ⟨leak', l, hb'⟩ hv hr hw hone
          fun hc' => absurd hc' (by rw [hcow]; simp)
    · rw [handleMemoryTrap_other hlo hhi hcow hsp, Except.ok.injEq] at hrun
      subst hrun
      exact Faulted.refl h hcow

theorem Faulted.saveUserContext (p i : Nat) (context : UserContext)
    (hf : Faulted p i (saveUserContext p context k) k₁) : Faulted p i k k₁ := by
  have ht : (Yalnix.saveUserContext p context k).table = k.table := table_saveUserContext p context
  refine ⟨hf.sound, hf.max_pid, fun q hq => ?_, ?_, hf.kpt, fun j hj => ?_, fun q hq0 hq j hj hqj => ?_,
    ?_, ?_⟩
  · rw [hf.proc q hq]
    exact (saveUserContext_only p context []).proc q hq
  · have hself := hf.self
    rw [proc_saveUserContext] at hself
    exact hself
  · rw [hf.entry j hj, ht]
  · rw [hf.page q hq0 hq j hj hqj, pageOf_saveUserContext]
  · have hout := hf.outcome
    rw [ht, pageOf_saveUserContext] at hout
    exact hout
  · have hcow := hf.cow
    rw [ht] at hcow
    exact hcow

theorem userEntry_writable (hlo : VMEM_1_BASE ≤ a) (hhi : a < VMEM_1_LIMIT) :
    store k p a b = if (k.table p (userPage a)).valid && (k.table p (userPage a)).writable then
      some (k.poke (k.table p (userPage a)).pfn (pageOffset a) b) else none := by
  unfold store
  simp only [userEntry_of_range hlo hhi]

/-- **A write: possibly a fault, then possibly a store.** -/
theorem userWrite_cases {context : UserContext} (h : Sound k) (hp : Running k p)
    (hlo : VMEM_1_BASE ≤ a) (hhi : a < VMEM_1_LIMIT) (hrun : userWrite p context a b k = .ok k') :
    ((k.table p (userPage a)).valid = true ∧ (k.table p (userPage a)).writable = true ∧
        k' = k.poke (k.table p (userPage a)).pfn (pageOffset a) b) ∨
      ¬ ((k.table p (userPage a)).valid = true ∧ (k.table p (userPage a)).writable = true) ∧
      ∃ k₁, Faulted p (userPage a) k k₁ ∧ (k' = k₁ ∧ (k.table p (userPage a)).cow = false ∨
        (k₁.table p (userPage a)).valid = true ∧ (k₁.table p (userPage a)).writable = true ∧
          k' = k₁.poke (k₁.table p (userPage a)).pfn (pageOffset a) b) := by
  unfold userWrite at hrun
  rw [userEntry_writable hlo hhi] at hrun
  by_cases hw : ((k.table p (userPage a)).valid && (k.table p (userPage a)).writable) = true
  · rw [if_pos hw] at hrun
    simp only [Except.ok.injEq] at hrun
    rw [Bool.and_eq_true] at hw
    exact .inl ⟨hw.1, hw.2, hrun.symm⟩
  · rw [if_neg hw] at hrun
    simp only [trapMemory, bind, Except.bind] at hrun
    cases htrap : handleMemoryTrap p a (Yalnix.saveUserContext p context k) with
    | error e =>
      rw [htrap] at hrun
      cases hrun
    | ok k₁ =>
      rw [htrap] at hrun
      have hfault := Faulted.saveUserContext p (userPage a) context
        ((h.saveUserContext p context).trap (running_saveUserContext.mpr hp) hlo hhi htrap)
      simp only [Except.ok.injEq, userEntry_writable hlo hhi] at hrun
      refine .inr ⟨fun hc => hw (by rw [Bool.and_eq_true]; exact hc), k₁, hfault, ?_⟩
      by_cases hw₁ : ((k₁.table p (userPage a)).valid && (k₁.table p (userPage a)).writable) = true
      · rw [if_pos hw₁, Option.getD_some] at hrun
        rw [Bool.and_eq_true] at hw₁
        exact .inr ⟨hw₁.1, hw₁.2, hrun.symm⟩
      · rw [if_neg hw₁, Option.getD_none] at hrun
        refine .inl ⟨hrun.symm, ?_⟩
        cases hcow : (k.table p (userPage a)).cow with
        | false => rfl
        | true =>
          obtain ⟨hv, hw'⟩ := hfault.cow hcow
          rw [hv, hw'] at hw₁
          exact absurd rfl hw₁

/-- A fault changes one slot. -/
theorem Faulted.mapping (h : Faulted p i k k₁) (hp : p ≠ 0) (hi : i < 128) :
    mapping k₁ = Function.update (mapping k) (p, i) (k₁.table p i).frame := by
  funext x
  by_cases hx : x = (p, i)
  · rw [hx, Function.update_self, mapping_table hp hi]
  · rw [Function.update_of_ne hx]
    unfold Yalnix.mapping
    by_cases h0 : x.1 = 0
    · rw [if_pos h0, if_pos h0]
      split
      · rename_i h123
        rw [h.kpt _ h123]
      · rfl
    · rw [if_neg h0, if_neg h0]
      by_cases hxp : x.1 = p
      · have hne : x.2 ≠ i := fun he => hx (Prod.ext hxp he)
        rw [hxp, h.self, h.entry x.2 hne]
      · unfold Kernel.table
        rw [h.proc x.1 hxp]

/-- A faulting process goes on running. -/
theorem Faulted.running (h : Faulted p i k k₁) : Running k₁ q ↔ Running k q := by
  have hlive : (k₁.proc q).live = (k.proc q).live := by
    by_cases hqp : q = p
    · rw [hqp, h.self]
    · rw [h.proc q hqp]
  constructor
  · rintro ⟨h0, hle, hl⟩
    exact ⟨h0, h.max_pid ▸ hle, hlive ▸ hl⟩
  · rintro ⟨h0, hle, hl⟩
    exact ⟨h0, h.max_pid.symm ▸ hle, hlive.symm ▸ hl⟩

/-- **A write keeps a state sound.** -/
theorem Sound.write {context : UserContext} (h : Sound k) (hp : Running k p)
    (hlo : VMEM_1_BASE ≤ a) (hhi : a < VMEM_1_LIMIT) (hrun : userWrite p context a b k = .ok k') :
    Sound k' := by
  have hi := (trap_index hlo hhi).2
  rcases userWrite_cases h hp hlo hhi hrun with
    ⟨hv, -, rfl⟩ | ⟨-, k₁, hf, ⟨rfl, -⟩ | ⟨hv, -, rfl⟩⟩
  · exact h.poke hp hi hv _ _
  · exact hf.sound
  · exact hf.sound.poke (hf.running.mpr hp) hi hv _ _

/-! ## Exit -/

/-- What the exit of `p` leaves behind; the frames of `l'` are free. -/
structure Exited (p : Nat) (k k' : Kernel) (l' : List Nat) : Prop where
  max_pid : k'.max_pid = k.max_pid
  proc : ∀ q, q ≠ p → k'.proc q = k.proc q
  dead : (k'.proc p).live = false
  info : (k'.proc p).info = (k.proc p).info
  leader : (k'.proc p).thread_leader = (k.proc p).thread_leader
  entry : ∀ q j, k'.table q j = if q = p then PTE.clear else k.table q j
  pmem : ∀ f, f ∉ l' → k'.pmem f = k.pmem f
  /-- The kernel stack of `p` is gone, the others and the kernel's own frames are as they were. -/
  mapping : ∀ x : Slot, x.1 = 0 ∨ 128 ≤ x.2 → ∀ f, mapping k' x = some f → mapping k x = some f

theorem exitProcess_exited (h : Sound k) (hp : Running k p) {leak : Nat → Nat} {l : List Nat}
    (hb : Bounded k leak l) (hrun : exitProcess p k = .ok k') :
    ∃ l', Counted k' (slots k.max_pid) leak l' ∧ Exited p k k' l' ∧
      ∀ f, refs (slots k.max_pid) (mapping k') f ≤ refs (slots k.max_pid) (mapping k) f := by
  obtain ⟨hc, h127⟩ := hb
  have hp0 := hp.pos
  obtain ⟨k₁, l', hrun', -, hcounted, hmax, hother, hdead, hnopcb, hinfo, hleader, hkpt, htable,
    hpmem, hrefs⟩ := exitProcess_spec hc (p := p) (by omega) (h.process p hp).pcb
      (fun j hj => mem_slots.mpr ⟨hp.le, by simp only; omega⟩)
      (fun x hx => (mem_slots.mp hx).2) h127
  rw [hrun, Except.ok.injEq] at hrun'
  subst hrun'
  refine ⟨l', hcounted, ⟨hmax, hother, hdead, hinfo, hleader, fun q j => ?_, hpmem, fun x hx f hm => ?_⟩, hrefs⟩
  · by_cases hqp : q = p
    · rw [hqp, htable, if_pos rfl]
    · unfold Kernel.table
      rw [hother q hqp, if_neg hqp]
  · unfold Yalnix.mapping at hm ⊢
    by_cases h0 : x.1 = 0
    · rw [if_pos h0] at hm ⊢
      split at hm
      · rename_i h123
        rw [hkpt _ h123] at hm
        rw [if_pos h123]
        exact hm
      · cases hm
    · have h128 : ¬ x.2 < 128 := by omega
      rw [if_neg h0, if_neg h128] at hm ⊢
      by_cases hxp : x.1 = p
      · rw [hxp, hnopcb] at hm
        cases hm
      · rw [hother x.1 hxp] at hm
        exact hm

theorem Exited.running (h : Exited p k k' l') (hq : Running k' q) : q ≠ p ∧ Running k q := by
  have hqp : q ≠ p := by
    rintro rfl
    have := hq.live
    rw [h.dead] at this
    cases this
  exact ⟨hqp, hq.pos, h.max_pid ▸ hq.le, by rw [← h.proc q hqp]; exact hq.live⟩

theorem Exited.entry_or (h : Exited p k k' l') (q j : Nat) :
    k'.table q j = PTE.clear ∨ k'.table q j = k.table q j := by
  rw [h.entry]
  split
  · exact .inl rfl
  · exact .inr rfl

/-- The pages of processes after `p` has exited. -/
theorem Exited.pageOf (h : Exited p k k' l') (hc : Counted k' (slots n) leak l')
    (hq : 0 < q ∧ q ≤ n) (hi : i < 128) :
    pageOf k' q i = if q = p then none else Yalnix.pageOf k q i := by
  by_cases hqp : q = p
  · rw [if_pos hqp]
    unfold Yalnix.pageOf
    rw [h.entry, if_pos hqp]
    rfl
  · rw [if_neg hqp]
    have hentry : k'.table q i = k.table q i := by
      rw [h.entry, if_neg hqp]
    apply pageOf_congr
    · rw [hentry]
    · intro f hf
      exact h.pmem f (hc.entry_not_free hq hi (by rw [hentry]; exact hf))

/-- **An exit keeps a state sound.** -/
theorem Sound.exit (h : Sound k) (hp : Running k p) (hrun : exitProcess p k = .ok k') :
    Sound k' ∧ k'.max_pid = k.max_pid ∧ (∀ q, q ≠ p → k'.proc q = k.proc q) := by
  obtain ⟨leak, l, hb⟩ := h.bounded
  obtain ⟨l', hc', hex, hrefs⟩ := exitProcess_exited h hp hb hrun
  refine ⟨?_, hex.max_pid, hex.proc⟩
  refine h.of_unmapped hex.max_pid ⟨leak, l', ?_⟩ (fun q _ _ j _ => hex.entry_or q j) fun q hq => ?_
  · unfold Bounded
    rw [hex.max_pid]
    refine ⟨hc', fun f => ?_⟩
    have := hrefs f
    have := hb.2 f
    omega
  · obtain ⟨hqp, hr⟩ := hex.running hq
    rw [hex.proc q hqp]
    exact h.process q hr

end Yalnix
