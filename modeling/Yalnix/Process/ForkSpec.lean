import Yalnix.Process.SharePages

/-!
# What forking does to memory

* `forkProcess_spec`, `createThread_spec` — with enough free frames, both give the new process the
  parent's entries below the stack pointer, on the same frames, and copies of the pages from the
  stack pointer up on frames of their own; all references stay counted.
* `HalfSpawned` — the new process as `spawn` leaves it; `HalfSpawned.finish` is what follows in both.
* `Spawned` — that outcome, with the entry-wise change `u` the parent and the child get below the
  stack pointer: `PTE.shared` for a fork, nothing for a thread.
-/

set_option autoImplicit false

namespace Yalnix

open RefCount (refs)

variable {k k' k₁ k₂ : Kernel} {l l' X Y : List Nat} {f g p c i n sb : Nat} {D : Finset Slot}
  {leak : Nat → Nat}

/-! ## The whole fork -/

/-- The outcome of a successful `forkProcess` or `createThread` by `p`, whose stack pointer is in
page `sb`; the new process is `n + 1`. -/
structure Spawned (k k' : Kernel) (p n sb : Nat) (l : List Nat) (u : PTE → PTE)
    (leader : Option PID) : Prop where
  max_pid : k'.max_pid = n + 1
  addr : k'.frame_head_addr = k.frame_head_addr
  kpt : ∀ i, i < 123 ∨ 126 ≤ i → k'.kernel_page_table i = k.kernel_page_table i
  pmem : ∀ f, f ∉ l → k'.pmem f = k.pmem f
  other : ∀ q, q ≠ p → q ≠ n + 1 → k'.proc q = k.proc q
  parent : k'.proc p = mapBelow sb u (k.proc p)
  child : ∃ f₀ f₁, f₀ ∈ l ∧ f₁ ∈ l ∧ k'.proc (n + 1) =
    { live := true, pcb := true, pcb_frames := (describedProcess f₀ f₁).pcb_frames,
      thread_leader := leader, page_table := k'.table (n + 1),
      user_context := (k.proc p).user_context, info := (k.proc p).info }
  below : ∀ i < sb, k'.table (n + 1) i = u (k.table p i)
  above : ∀ i, sb ≤ i → i < 128 → CopyOf k k' l (k.table p i) (k'.table (n + 1) i)
  fresh : ∀ f ∈ l, refs (slots (n + 1)) (mapping k') f ≤ 1

/-- The state in which `p` is about to fork. -/
structure ForkReady (k : Kernel) (p n sb : Nat) (l : List Nat) (leak : Nat → Nat) : Prop where
  counted : Counted k (slots n) leak l
  max_pid : k.max_pid = n
  pid : (n : Int) < LONG_MAX
  parent : 0 < p ∧ p ≤ n
  leader : (k.proc p).thread_leader = none
  stack : stack_base p k = sb
  le : sb ≤ 128
  readable : ∀ i < 128, (k.table p i).valid = true → (k.table p i).readable = true
  frames : 2 + stackPages k p sb ≤ l.length

theorem slots_succ (hsb : sb ≤ 128) : insert (n + 1, 129) (insert (n + 1, 128) (slots n)) ∪
    block (n + 1) sb 128 ∪ block (n + 1) 0 sb = slots (n + 1) := by
  ext x
  obtain ⟨q, j⟩ := x
  simp only [Finset.mem_union, Finset.mem_insert, Prod.mk.injEq, mem_slots, mem_block]
  omega

theorem copyOf_congr {e e' : PTE} (h : CopyOf k k₁ X e e') (hX : ∀ g ∈ X, g ∈ l)
    (hk : e.valid = true → k₂.pmem e.pfn = k.pmem e.pfn)
    (hfrc : e.valid = true → k'.frc_table e'.pfn = k₁.frc_table e'.pfn)
    (hpm : e.valid = true → k'.pmem e'.pfn = k₁.pmem e'.pfn) : CopyOf k₂ k' l e e' := by
  refine ⟨h.flags, fun hv => ?_, h.invalid⟩
  obtain ⟨hmem, hone, hpg⟩ := h.valid hv
  exact ⟨hX _ hmem, (hfrc hv).trans hone, ((hpm hv).trans hpg).trans (hk hv).symm⟩

/-- A descriptor for the child and a page table with the parent's entries; nothing of it is
counted yet but the two PCB frames. -/
theorem newTable_spec {f₀ f₁ : Nat} (hcounted : Counted k (slots n) leak (f₀ :: f₁ :: l))
    (hmax : k.max_pid = n) (hpid : (n : Int) < LONG_MAX) (hp : p ≠ n + 1) :
    ∃ k₁ k₂, createProcessDescriptor true k = (some (n + 1), k₁) ∧
      createPageTable true (n + 1) p k₁ = (SUCCESS, k₂) ∧
      Counted k₂ (insert (n + 1, 129) (insert (n + 1, 128) (slots n))) leak l ∧
      Only (n + 1) k k₂ (f₁ :: l) ∧ k₂.max_pid = n + 1 ∧ k₂.table (n + 1) = k.table p ∧
      k₂.proc (n + 1) = { describedProcess f₀ f₁ with live := true, page_table := k.table p } ∧
      k₂.frc_table = Function.update (Function.update k.frc_table f₀ 1) f₁ 1 := by
  obtain ⟨k₁, hrun₁, hcounted₁, honly₁, hmax₁, hproc₁, hfrc₁⟩ :=
    createProcessDescriptor_spec hmax hcounted hpid
  have htablep : k₁.table p = k.table p := honly₁.table_ne hp
  generalize hk₂ : (k₁.modify (n + 1) fun P =>
    { P with live := true, page_table := k₁.table p }) = k₂
  have honly₂ : Only (n + 1) k₁ k₂ (f₁ :: l) := hk₂ ▸ Only.modify (n + 1) _ _
  have hproc₂ : k₂.proc (n + 1) =
      { describedProcess f₀ f₁ with live := true, page_table := k.table p } := by
    rw [← hk₂, Kernel.proc_modify_self, hproc₁, htablep]
  have hD : ∀ x ∈ insert (n + 1, 129) (insert (n + 1, 128) (slots n)),
      mapping k₂ x = mapping k₁ x := by
    intro x hx
    by_cases hx1 : x.1 = n + 1
    · obtain ⟨q, j⟩ := x
      obtain rfl : q = n + 1 := hx1
      simp only [Finset.mem_insert, Prod.mk.injEq, true_and, mem_slots] at hx
      have hj : ¬ j < 128 := by omega
      unfold mapping
      simp only [if_neg hj, hproc₂, hproc₁]
      rw [← hk₂]
      rfl
    · exact honly₂.mapping hx1
  refine ⟨k₁, k₂, hrun₁, by rw [← hk₂]; rfl, ?_, honly₁.trans honly₂, ?_, ?_, hproc₂, ?_⟩
  · exact hcounted₁.congr (hcounted₁.list.of_eq (by rw [← hk₂]; rfl) (by rw [← hk₂]; rfl)
      (by rw [← hk₂]; rfl)) (by rw [← hk₂]; rfl) honly₂.addr hD
  · rw [← hk₂]
    exact hmax₁
  · rw [Kernel.table, hproc₂]
  · rw [← hk₂]
    exact hfrc₁

/-- After the descriptor and the page table come the stack and the user context. -/
theorem spawn_eq {m₁ m₂ : Bool} (hleader : (k.proc p).thread_leader = none)
    (hdesc : createProcessDescriptor m₁ k = (some c, k₁))
    (htable : createPageTable m₂ c p k₁ = (SUCCESS, k₂)) :
    spawn m₁ m₂ p k = (do
      let k ← copyParentStack p c p k₂
      .ok (some c, createUserContext c p k)) := by
  unfold spawn
  rw [hleader]
  simp only [Option.isSome_none, Bool.false_eq_true, if_false, hdesc, htable, SUCCESS, ERROR,
    show ¬ (0 : Int) = -1 by omega]

theorem createUserContext_proc (hpc : p ≠ c) : (createUserContext c p k).proc p = k.proc p := by
  unfold createUserContext
  rw [Kernel.proc_modify, Function.update_of_ne hpc, Kernel.proc_setWindow]

theorem createUserContext_table (q : Nat) : (createUserContext c p k).table q = k.table q := by
  unfold createUserContext Kernel.table
  rw [Kernel.proc_modify, Kernel.proc_setWindow]
  by_cases hq : q = c
  · rw [hq, Function.update_self]
  · rw [Function.update_of_ne hq]

theorem createUserContext_base (hpc : p ≠ c) :
    stack_base p (createUserContext c p k) = stack_base p k := by
  unfold stack_base
  rw [createUserContext_proc hpc]

theorem createUserContext_only (c p : Nat) (X : List Nat) : Only c k (createUserContext c p k) X := by
  unfold createUserContext
  exact ((Quiet.setWindow (i := 0) (by omega) _ X).only c).trans (Only.modify c _ X)

theorem createUserContext_mapping (hc : c ≠ 0) (p : Nat) :
    mapping (createUserContext c p k) = mapping k := by
  funext x
  by_cases hx : x.1 = c
  · unfold mapping
    rw [createUserContext_table, hx]
    simp [createUserContext, hc]
  · exact (createUserContext_only c p []).mapping hx

/-- The process `n + 1` as `spawn` leaves it: the child of `p` has its descriptor, with the kernel stack
on frames `f₀` and `f₁`, its page table, its own stack and the user context; nothing below the stack
pointer is counted yet. -/
structure HalfSpawned (k k' : Kernel) (p n sb : Nat) (leak : Nat → Nat) (l l' : List Nat)
    (f₀ f₁ : Nat) : Prop where
  counted : Counted k' (insert (n + 1, 129) (insert (n + 1, 128) (slots n)) ∪ block (n + 1) sb 128)
    leak l'
  free : ∀ g ∈ l', g ∈ l
  only : Only (n + 1) k k' l
  max_pid : k'.max_pid = n + 1
  first : f₀ ∈ l ∧ f₀ ∉ l'
  second : f₁ ∈ l ∧ f₁ ∉ l'
  child : k'.proc (n + 1) =
    { live := true, pcb := true, pcb_frames := (describedProcess f₀ f₁).pcb_frames,
      thread_leader := none, page_table := k'.table (n + 1),
      user_context := (k.proc p).user_context, info := (k.proc p).info }
  below : ∀ i < sb, k'.table (n + 1) i = k.table p i
  above : ∀ i, sb ≤ i → i < 128 → CopyOf k k' l (k.table p i) (k'.table (n + 1) i)
  apart : ∀ i, sb ≤ i → i < 128 → (k.table p i).valid = true →
    (k'.table (n + 1) i).pfn ≠ f₀ ∧ (k'.table (n + 1) i).pfn ≠ f₁
  used : ∀ f ∈ l, f ∈ l' ∨ k'.frc_table f = 1
  length : l'.length + (2 + stackPages k p sb) = l.length

theorem ForkReady.not_free (h : ForkReady k p n sb l leak) (hi : i < 128)
    (hv : (k.table p i).valid = true) : (k.table p i).pfn ∉ l := by
  obtain ⟨hp0, hpn⟩ := h.parent
  exact h.counted.not_free (mem_slots.mpr ⟨hpn, by omega⟩) (mapping_of_valid (by omega) hi hv)

/-- The copies are made, in `k₃`, after the table, in `k₂`; then the user context follows. -/
theorem ForkReady.half_spawned {k₃ : Kernel} {f₀ f₁ : Nat} (h : ForkReady k p n sb (f₀ :: f₁ :: l) leak)
    (honly₂ : Only (n + 1) k k₂ (f₁ :: l)) (hmax₂ : k₂.max_pid = n + 1)
    (htable₂ : k₂.table (n + 1) = k.table p)
    (hproc₂ : k₂.proc (n + 1) = { describedProcess f₀ f₁ with live := true, page_table := k.table p })
    (hfrc₂ : k₂.frc_table = Function.update (Function.update k.frc_table f₀ 1) f₁ 1)
    (hcopied : CopiedTo k₂ k₃ (insert (n + 1, 129) (insert (n + 1, 128) (slots n))) leak p (n + 1) sb 128
      l l') : HalfSpawned k (createUserContext (n + 1) p k₃) p n sb leak (f₀ :: f₁ :: l) l' f₀ f₁ := by
  obtain ⟨-, hpn⟩ := h.parent
  have hpc : p ≠ n + 1 := by omega
  have hnd := h.counted.list.nodup
  simp only [List.nodup_cons, List.mem_cons, not_or] at hnd
  have htablep : k₂.table p = k.table p := honly₂.table_ne hpc
  have hsubl : ∀ g ∈ f₁ :: l, g ∈ f₀ :: f₁ :: l := fun g hg => List.mem_cons_of_mem _ hg
  have honly₃ : Only (n + 1) k k₃ (f₀ :: f₁ :: l) := (honly₂.mono hsubl).trans
    (hcopied.touches.only.mono fun g hg => hsubl g (List.mem_cons_of_mem _ hg))
  have hend : stackPages k₂ p 128 = 0 := by simp [stackPages]
  have hlen := hcopied.length
  have hsp : stackPages k₂ p sb = stackPages k p sb := by
    unfold stackPages
    rw [htablep]
  rw [hend, hsp] at hlen
  refine ⟨?_, fun g hg => hsubl g (List.mem_cons_of_mem _ (hcopied.free g hg)),
    honly₃.trans (createUserContext_only _ _ _), hcopied.touches.max_pid.trans hmax₂,
    ⟨by simp, fun hm => hnd.1.2 (hcopied.free _ hm)⟩, ⟨by simp, fun hm => hnd.2.1 (hcopied.free _ hm)⟩,
    ?_, fun i hi => ?_, fun i hi hi' => ?_, fun i hi hi' hv => ?_, fun f hf => ?_, ?_⟩
  · exact hcopied.counted.congr (hcopied.counted.list.of_eq rfl rfl rfl) rfl rfl fun x _ => by
      rw [createUserContext_mapping (by omega)]
  · rw [createUserContext_table]
    unfold createUserContext
    rw [Kernel.proc_modify_self, Kernel.proc_setWindow, honly₃.proc p hpc, hcopied.touches.self, hproc₂]
    rfl
  · rw [createUserContext_table, hcopied.rest i (.inl hi), htable₂]
  · have hcopy := hcopied.copies i hi hi'
    rw [htablep] at hcopy
    rw [createUserContext_table]
    exact copyOf_congr hcopy (fun g hg => hsubl g (List.mem_cons_of_mem _ hg))
      (fun hv => ((honly₂.mono hsubl).pmem _ (h.not_free hi' hv)).symm) (fun _ => rfl) fun _ => rfl
  · have hcopy := hcopied.copies i hi hi'
    rw [htablep] at hcopy
    rw [createUserContext_table]
    have hmem := (hcopy.valid hv).1
    exact ⟨fun he => hnd.1.2 (he ▸ hmem), fun he => hnd.2.1 (he ▸ hmem)⟩
  · change f ∈ l' ∨ k₃.frc_table f = 1
    rcases List.mem_cons.mp hf with rfl | hf
    · rw [hcopied.counts f hnd.1.2, hfrc₂, Function.update_of_ne hnd.1.1, Function.update_self]
      exact .inr rfl
    · rcases List.mem_cons.mp hf with rfl | hf
      · rw [hcopied.counts f hnd.2.1, hfrc₂, Function.update_self]
        exact .inr rfl
      · exact hcopied.used f hf
  · simp only [List.length_cons]
    omega

/-- **The first half, common to forks and threads.** -/
theorem spawn_spec (h : ForkReady k p n sb l leak) :
    ∃ k' l' f₀ f₁, spawn true true p k = .ok (some (n + 1), k') ∧
      HalfSpawned k k' p n sb leak l l' f₀ f₁ := by
  obtain ⟨hp0, hpn⟩ := h.parent
  have hcounted := h.counted
  have hframes := h.frames
  match l, h, hframes, hcounted with
  | [], _, hframes, _ => simp at hframes
  | [_], _, hframes, _ => simp at hframes; omega
  | f₀ :: f₁ :: l, h, hframes, hcounted =>
    have hpc : p ≠ n + 1 := by omega
    obtain ⟨k₁, k₂, hrun₁, hrun₂, hcounted₂, honly₂, hmax₂, htable₂, hproc₂, hfrc₂⟩ :=
      newTable_spec hcounted h.max_pid h.pid hpc
    have htablep : k₂.table p = k.table p := honly₂.table_ne hpc
    have hstack : stack_base p k₂ = sb := by
      unfold stack_base
      rw [honly₂.proc p hpc]
      exact h.stack
    have hneed : stackPages k₂ p sb ≤ l.length := by
      unfold stackPages at hframes ⊢
      rw [htablep]
      simp only [List.length_cons] at hframes
      omega
    obtain ⟨k₃, hrun₃, l', hcopied⟩ :=
      copyParentStack_spec hcounted₂ (by omega) (by omega) hpc hstack h.le
      (fun i hi => by simp only [Finset.mem_insert, mem_slots]; right; right; exact ⟨hpn, by omega⟩)
      (fun i hi => by simp only [Finset.mem_insert, mem_slots, Prod.mk.injEq]; omega)
      (fun i hi hv => by rw [htablep] at hv ⊢; exact h.readable i hi hv) hneed
      (fun i _ _ => by rw [htable₂, htablep])
    refine ⟨_, l', f₀, f₁, ?_, h.half_spawned honly₂ hmax₂ htable₂ hproc₂ hfrc₂ hcopied⟩
    rw [spawn_eq h.leader hrun₁ hrun₂, hrun₃]
    rfl

theorem uncounted_below (hsb : sb ≤ 128) : ∀ i < sb,
    (n + 1, i) ∉ insert (n + 1, 129) (insert (n + 1, 128) (slots n)) ∪ block (n + 1) sb 128 := by
  intro i hi hm
  simp only [Finset.mem_union, Finset.mem_insert, Prod.mk.injEq, mem_slots, mem_block] at hm
  omega

/-- The frames of the child's entries below the stack pointer are counted for the parent. -/
theorem HalfSpawned.in_use {f₀ f₁ : Nat} (hs : HalfSpawned k k₁ p n sb leak l l' f₀ f₁)
    (h : ForkReady k p n sb l leak) (hi : i < sb) (hv : (k₁.table (n + 1) i).valid = true) :
    (∃ y ∈ insert (n + 1, 129) (insert (n + 1, 128) (slots n)) ∪ block (n + 1) sb 128,
      y.1 ≠ 0 ∧ mapping k₁ y = some (k₁.table (n + 1) i).pfn) ∧ (k₁.table (n + 1) i).pfn ∉ l := by
  obtain ⟨hp0, hpn⟩ := h.parent
  have hle := h.le
  have hpc : p ≠ n + 1 := by omega
  rw [hs.below i hi] at hv ⊢
  refine ⟨⟨(p, i), ?_, by simp only; omega, ?_⟩, h.not_free (by omega) hv⟩
  · simp only [Finset.mem_union, Finset.mem_insert, mem_slots]
    exact .inl (.inr (.inr ⟨hpn, by omega⟩))
  · rw [hs.only.mapping hpc]
    exact mapping_of_valid (by omega) (by omega) hv

/-- A frame that no slot up to process `n` refers to, with count 1: 130 slots of process `n + 1`
are too few for the 8-bit counter to come round to 1 again. -/
theorem refs_le_one_of_new {m : Slot → Option Nat} (hold : ∀ x ∈ slots n, m x ≠ some f)
    (h1 : char (refs (slots (n + 1)) m f : Nat) = 1) : refs (slots (n + 1)) m f ≤ 1 := by
  have hle : refs (slots (n + 1)) m f ≤ (block (n + 1) 0 130).card := by
    unfold refs
    refine Finset.card_le_card fun x hx => ?_
    obtain ⟨hx, hm⟩ := Finset.mem_filter.mp hx
    rw [mem_slots] at hx
    rw [mem_block]
    have : ¬ x.1 ≤ n := fun hle => hold x (mem_slots.mpr ⟨hle, hx.2⟩) hm
    omega
  have hcard : (block (n + 1) 0 130).card = 130 := by simp [block]
  exact (eq_one_of_char (by omega) h1).le

theorem mapBelow_id (n : Int) (P : Process) : mapBelow n id P = P := by
  unfold mapBelow
  simp

/-- The parent and the child have their entries below the stack pointer changed by `u`, and the child
has its leader. -/
def sharedTables (p c sb : Nat) (u : PTE → PTE) (leader : Option PID) (k : Kernel) : Kernel :=
  ((k.modify p (mapBelow sb u)).modify c (mapBelow sb u)).modify c
    fun C => { C with thread_leader := leader }

section Finish

variable {f₀ f₁ : Nat} {u : PTE → PTE} {leader : Option PID} {T : Nat → Int}

theorem sharedTables_mapping (hu : ∀ e, (u e).frame = e.frame) {x : Slot} (hx : x.1 ≠ c) :
    mapping { sharedTables p c sb u leader k with frc_table := T } x = mapping k x := by
  have hchild := ((Only.modify (k := k.modify p (mapBelow sb u)) c (mapBelow sb u) []).trans
    (Only.modify c (fun C => { C with thread_leader := leader }) [])).mapping hx
  have hparent := mapping_mapBelow (k := k) p sb hu
  rw [← hparent]
  exact hchild

/-- A frame that was free has one reference at most. -/
theorem HalfSpawned.fresh (hs : HalfSpawned k k₁ p n sb leak l l' f₀ f₁)
    (h : ForkReady k p n sb l leak) (hu : ∀ e, (u e).frame = e.frame) (hf : f ∈ l)
    (hfrc : T f = k₁.frc_table f)
    (hcounted : Counted { sharedTables p (n + 1) sb u leader k₁ with frc_table := T } (slots (n + 1))
      leak l') :
    refs (slots (n + 1)) (mapping { sharedTables p (n + 1) sb u leader k₁ with frc_table := T }) f ≤ 1 := by
  rcases hs.used f hf with hm | hone
  · have hfree := hcounted.counts.free f hm
    omega
  · refine refs_le_one_of_new (n := n) (fun x hx => ?_) ?_
    · have hx1 : x.1 ≠ n + 1 := by
        have := (mem_slots.mp hx).1
        omega
      rw [sharedTables_mapping hu hx1, hs.only.mapping hx1]
      exact h.counted.unmapped hf hx
    · have hfree := h.counted.counts.free f hf
      have hcount := hcounted.counts.count f
      change T f = _ at hcount
      rw [hfrc, hone] at hcount
      rw [hcount]
      congr 2
      omega

/-- What `forkProcess` and `createThread` have in common after `spawn`: the kernel stack is cloned. -/
theorem HalfSpawned.finish (hs : HalfSpawned k k₁ p n sb leak l l' f₀ f₁)
    (h : ForkReady k p n sb l leak) (hu : ∀ e, (u e).frame = e.frame)
    (hfrc : ∀ f ∈ l, T f = k₁.frc_table f)
    (hk₂ : k₂ = { sharedTables p (n + 1) sb u leader k₁ with frc_table := T })
    (hcounted : Counted k₂ (slots (n + 1)) leak l') :
    Counted (cloneKernelContext p (n + 1) k₂) (slots (n + 1)) leak l' ∧
      Spawned k (cloneKernelContext p (n + 1) k₂) p n sb l u leader := by
  obtain ⟨hp0, hpn⟩ := h.parent
  have hpc : p ≠ n + 1 := by omega
  have hproc₂ : k₂.proc (n + 1) =
      { mapBelow sb u (k₁.proc (n + 1)) with thread_leader := leader } := by
    rw [hk₂]
    simp [sharedTables, hpc.symm]
  obtain ⟨hquiet, hfrc₃, hhead⟩ := cloneKernelContext_spec (k := k₂) (c := n + 1) f₀ f₁
    (by rw [hproc₂, hs.child]; simp [mapBelow, describedProcess])
    (by rw [hproc₂, hs.child]; simp [mapBelow, describedProcess]) p
  generalize cloneKernelContext p (n + 1) k₂ = k₃ at hquiet hfrc₃ hhead ⊢
  have htable : ∀ i : Nat, k₃.table (n + 1) i =
      if (i : Int) < sb then u (k₁.table (n + 1) i) else k₁.table (n + 1) i := by
    intro i
    rw [hquiet.table, Kernel.table, hproc₂]
    rfl
  have hpm : ∀ f, f ≠ f₀ → f ≠ f₁ → k₃.pmem f = k₁.pmem f := fun f h₀ h₁ => by
    rw [hquiet.pmem f (by simp [h₀, h₁]), hk₂]
    rfl
  refine ⟨?_, ?_, ?_, fun i hi => ?_, fun f hf => ?_, fun q hqp hqc => ?_, ?_,
    ⟨f₀, f₁, hs.first.1, hs.second.1, ?_⟩, fun i hi => ?_, fun i hi hi' => ?_, fun f hf => ?_⟩
  · refine hcounted.congr (hcounted.list.congr hhead hquiet.addr fun f hf => ?_) hfrc₃ hquiet.addr
      fun x _ => by rw [hquiet.mapping]
    refine hquiet.pmem f fun hm => ?_
    simp only [List.mem_cons, List.not_mem_nil, or_false] at hm
    rcases hm with rfl | rfl
    · exact hs.first.2 hf
    · exact hs.second.2 hf
  · rw [hquiet.max_pid, hk₂]
    exact hs.max_pid
  · rw [hquiet.addr, hk₂]
    exact hs.only.addr
  · rw [hquiet.kpt i hi, hk₂]
    exact hs.only.kpt i hi
  · rw [hpm f (fun he => hf (he ▸ hs.first.1)) fun he => hf (he ▸ hs.second.1)]
    exact hs.only.pmem f hf
  · rw [hquiet.proc, hk₂]
    simp only [sharedTables, Kernel.proc_modify, Function.update_of_ne hqc, Function.update_of_ne hqp]
    exact hs.only.proc q hqc
  · rw [hquiet.proc, hk₂]
    simp only [sharedTables, Kernel.proc_modify, Function.update_of_ne hpc, Function.update_self]
    rw [hs.only.proc p hpc]
  · rw [hquiet.proc, hproc₂, hs.child]
    have : k₃.table (n + 1) = (mapBelow sb u (k₁.proc (n + 1))).page_table := by
      rw [hquiet.table, Kernel.table, hproc₂]
    rw [this, hs.child]
    rfl
  · rw [htable, if_pos (by omega), hs.below i hi]
  · have hcopy := hs.above i hi hi'
    rw [htable, if_neg (by omega)]
    refine copyOf_congr hcopy (fun g hg => hg) (fun _ => rfl) (fun hv => ?_) fun hv => ?_
    · rw [hfrc₃, hk₂]
      exact hfrc _ (hcopy.valid hv).1
    · obtain ⟨hne₀, hne₁⟩ := hs.apart i hi hi' hv
      exact hpm _ hne₀ hne₁
  · rw [hquiet.mapping, hk₂]
    exact hs.fresh h hu hf (hfrc f hf) (hk₂ ▸ hcounted)

end Finish

/-- **Fork.** -/
theorem forkProcess_spec (h : ForkReady k p n sb l leak) :
    ∃ k' l', forkProcess true true p k = .ok (((n + 1 : Nat) : Int), k') ∧
      Counted k' (slots (n + 1)) leak l' ∧ (∀ g ∈ l', g ∈ l) ∧
      l'.length + (2 + stackPages k p sb) = l.length ∧
      Spawned k k' p n sb l PTE.shared none := by
  obtain ⟨k₁, l', f₀, f₁, hrun, hhalf⟩ := spawn_spec h
  obtain ⟨hp0, hpn⟩ := h.parent
  have hle := h.le
  have hpc : p ≠ n + 1 := by omega
  have hstack : stack_base p k₁ = sb := by
    unfold stack_base
    rw [hhalf.only.proc p hpc]
    exact h.stack
  have hstack₂ : stack_base p (k₁.modify p (mapBelow sb PTE.shared)) = sb := by
    unfold stack_base
    rw [Kernel.proc_modify_self]
    exact hstack
  have hmap := mapping_mapBelow (k := k₁) p sb shared_frame
  have htable : (k₁.modify p (mapBelow sb PTE.shared)).table (n + 1) = k₁.table (n + 1) :=
    Kernel.table_modify_ne hpc.symm _
  have hlist : FreeList (k₁.modify p (mapBelow sb PTE.shared)) l' := hhalf.counted.list.of_eq rfl rfl rfl
  obtain ⟨T, hshare, hcounted, hfrc⟩ := setCopyOnWrite_child (c := n + 1) (p := p)
    (hhalf.counted.congr hlist rfl rfl fun x _ => by rw [hmap]) (by omega) hstack₂ hle
    (uncounted_below hle) fun i hi hv => by
      rw [htable] at hv ⊢
      rw [hmap]
      exact (hhalf.in_use h hi hv).1
  rw [slots_succ hle] at hcounted
  have hkept : ∀ f ∈ l, T f = k₁.frc_table f := fun f hf => hfrc f fun i hi hv he => by
    rw [htable] at hv he
    exact (hhalf.in_use h hi hv).2 (he ▸ hf)
  have hshared : ({ (k₁.modify p (mapBelow sb PTE.shared)).modify (n + 1) (mapBelow sb PTE.shared) with
      frc_table := T } : Kernel) =
        { sharedTables p (n + 1) sb PTE.shared none k₁ with frc_table := T } := by
    have hnone : ∀ P : Process, P.thread_leader = none → { P with thread_leader := none } = P := by
      intro P hP
      rw [← hP]
    simp only [sharedTables, Kernel.modify, Function.update_self, Function.update_idem]
    rw [hnone]
    rw [Function.update_of_ne hpc.symm, hhalf.child]
    rfl
  obtain ⟨hc, hs⟩ := hhalf.finish h shared_frame hkept hshared hcounted
  refine ⟨_, l', ?_, hc, hhalf.free, hhalf.length, hs⟩
  unfold forkProcess
  simp only [hrun, bind, Except.bind, setCopyOnWrite_parent hstack hle, hshare]

/-- **Thread creation.** -/
theorem createThread_spec (h : ForkReady k p n sb l leak) :
    ∃ k' l', createThread true true p k = .ok (((n + 1 : Nat) : Int), k') ∧
      Counted k' (slots (n + 1)) leak l' ∧ (∀ g ∈ l', g ∈ l) ∧
      l'.length + (2 + stackPages k p sb) = l.length ∧
      Spawned k k' p n sb l id (some p) := by
  obtain ⟨k₁, l', f₀, f₁, hrun, hhalf⟩ := spawn_spec h
  obtain ⟨hp0, hpn⟩ := h.parent
  have hle := h.le
  have hpc : p ≠ n + 1 := by omega
  have hstack : stack_base p k₁ = sb := by
    unfold stack_base
    rw [hhalf.only.proc p hpc]
    exact h.stack
  obtain ⟨T, hshare, hcounted, hfrc⟩ := increaseFRCEntries_spec (c := n + 1) (p := p) hhalf.counted
    (by omega) hstack hle (uncounted_below hle) fun i hi hv => (hhalf.in_use h hi hv).1
  rw [slots_succ hle] at hcounted
  have hkept : ∀ f ∈ l, T f = k₁.frc_table f := fun f hf => hfrc f fun i hi hv he =>
    (hhalf.in_use h hi hv).2 (he ▸ hf)
  generalize hk₂ : (({ k₁.modify (n + 1) (mapBelow sb id) with frc_table := T } : Kernel).modify (n + 1)
    fun C => { C with thread_leader := some p }) = k₂
  have hshared : k₂ = { sharedTables p (n + 1) sb id (some p) k₁ with frc_table := T } := by
    rw [← hk₂, sharedTables, show k₁.modify p (mapBelow sb id) = k₁ by simp [Kernel.modify, mapBelow_id]]
    rfl
  have hmap₂ : mapping k₂ =
      mapping ({ k₁.modify (n + 1) (mapBelow sb id) with frc_table := T } : Kernel) := by
    funext x
    rw [← hk₂]
    by_cases hx : x.1 = n + 1
    · unfold mapping Kernel.table
      simp only [hx, Kernel.proc_modify_self]
      rfl
    · exact (Only.modify (n + 1) _ []).mapping hx
  have hcounted₂ : Counted k₂ (slots (n + 1)) leak l' :=
    hcounted.congr (hcounted.list.of_eq (by rw [← hk₂]; rfl) (by rw [← hk₂]; rfl)
      (by rw [← hk₂]; rfl)) (by rw [← hk₂]; rfl) (by rw [← hk₂]; rfl) fun x _ => by rw [hmap₂]
  obtain ⟨hc, hs⟩ := hhalf.finish h (fun _ => rfl) hkept hshared hcounted₂
  refine ⟨_, l', ?_, hc, hhalf.free, hhalf.length, hs⟩
  unfold createThread
  simp only [hrun, bind, Except.bind, hshare, hk₂]

/-! ## References after a fork -/

/-- Entries of `p` below index `n` that map a frame. -/
def sharesBelow (k : Kernel) (p n f : Nat) : Nat :=
  refs (Finset.range n) (fun i => (k.table p i).frame) f

theorem refs_block (p lo hi : Nat) (m : Slot → Option Nat) (f : Nat) :
    refs (block p lo hi) m f = refs (Finset.Ico lo hi) (fun i => m (p, i)) f := by
  have : block p lo hi = (Finset.Ico lo hi).map ⟨fun i => (p, i), fun a b h => (Prod.mk.inj h).2⟩ := by
    ext x
    obtain ⟨q, j⟩ := x
    simp only [mem_block, Finset.mem_map, Finset.mem_Ico]
    constructor
    · rintro ⟨rfl, h⟩
      exact ⟨j, h, rfl⟩
    · rintro ⟨i, h, he⟩
      obtain ⟨rfl, rfl⟩ := Prod.mk.inj he
      exact ⟨rfl, h⟩
  rw [this, RefCount.refs_map]
  rfl

section Refs

variable {u : PTE → PTE} {leader : Option PID}

theorem Spawned.table_parent (h : Spawned k k' p n sb l u leader) (i : Nat) :
    k'.table p i = if i < sb then u (k.table p i) else k.table p i := by
  unfold Kernel.table
  rw [h.parent]
  simp only [mapBelow, Nat.cast_lt]

theorem Spawned.leader_parent (h : Spawned k k' p n sb l u leader) :
    (k'.proc p).thread_leader = (k.proc p).thread_leader := by
  rw [h.parent]
  rfl

theorem Spawned.live_parent (h : Spawned k k' p n sb l u leader) :
    (k'.proc p).live = (k.proc p).live := by
  rw [h.parent]
  rfl

theorem Spawned.table_other {q : Nat} (h : Spawned k k' p n sb l u leader) (hp : q ≠ p)
    (hn : q ≠ n + 1) : k'.table q = k.table q := by
  unfold Kernel.table
  rw [h.other q hp hn]

/-- The slots that were there before refer to the frames they referred to. -/
theorem Spawned.mapping_old (h : Spawned k k' p n sb l u leader) (hu : ∀ e, (u e).frame = e.frame)
    {x : Slot} (hx : x ∈ slots n) : mapping k' x = mapping k x := by
  have hx1 : x.1 ≠ n + 1 := by
    have := (mem_slots.mp hx).1
    omega
  by_cases hxp : x.1 = p
  · rw [← mapping_mapBelow (k := k) p sb hu]
    unfold mapping Kernel.table
    rw [hxp, h.parent, Kernel.proc_modify_self]
    split
    · split
      · rw [h.kpt _ (by omega)]
        rfl
      · rfl
    · rfl
  · unfold mapping Kernel.table
    rw [h.other _ hxp hx1]
    split
    · split
      · rw [h.kpt _ (by omega)]
      · rfl
    · rfl

theorem Spawned.mapping_below (h : Spawned k k' p n sb l u leader)
    (hu : ∀ e, (u e).frame = e.frame) (hi : i < sb) (hsb : sb ≤ 128) :
    mapping k' (n + 1, i) = (k.table p i).frame := by
  rw [mapping_table (by omega) (by omega), h.below i hi, hu]

/-- Above the stack pointer, and for its kernel stack, the child has frames that were free. -/
theorem Spawned.mapping_above (h : Spawned k k' p n sb l u leader) (hi : sb ≤ i) (hi' : i < 130)
    (hm : mapping k' (n + 1, i) = some f) : f ∈ l := by
  by_cases h128 : i < 128
  · have hcopy := h.above i hi h128
    rw [mapping_table (by omega) h128] at hm
    obtain ⟨hv, rfl⟩ := frame_eq_some.mp hm
    have hv' : (k.table p i).valid = true := by
      rw [hcopy.flags] at hv
      exact hv
    exact (hcopy.valid hv').1
  · obtain ⟨f₀, f₁, hf₀, hf₁, hproc⟩ := h.child
    unfold mapping at hm
    rw [if_neg (by omega), if_neg h128, hproc] at hm
    simp only [if_true, Option.some.injEq, describedProcess] at hm
    by_cases h1 : i - 128 = 1
    · rw [h1, Function.update_self, frameOf_pageAtIndex] at hm
      exact hm ▸ hf₁
    · rw [Function.update_of_ne h1] at hm
      by_cases h0 : i - 128 = 0
      · rw [h0, Function.update_self, frameOf_pageAtIndex] at hm
        exact hm ▸ hf₀
      · omega

/-- **A frame in use gains one reference for each entry of the parent below the stack pointer.** -/
theorem Spawned.refs_old (h : Spawned k k' p n sb l u leader) (hu : ∀ e, (u e).frame = e.frame)
    (hsb : sb ≤ 128) (hf : f ∉ l) :
    refs (slots (n + 1)) (mapping k') f = refs (slots n) (mapping k) f + sharesBelow k p sb f := by
  have hsplit : slots (n + 1) = slots n ∪ block (n + 1) 0 130 := by
    ext x
    simp only [Finset.mem_union, mem_slots, mem_block]
    omega
  have hdisj : Disjoint (slots n) (block (n + 1) 0 130) := by
    rw [Finset.disjoint_left]
    intro x hx hx'
    rw [mem_slots] at hx
    rw [mem_block] at hx'
    omega
  have hsub : block (n + 1) 0 sb ⊆ block (n + 1) 0 130 := fun x hx => by
    rw [mem_block] at hx ⊢
    omega
  rw [hsplit, RefCount.refs_union hdisj, RefCount.refs_congr fun x hx => h.mapping_old hu hx,
    RefCount.refs_eq_of_subset hsub, refs_block, sharesBelow, Finset.range_eq_Ico]
  · congr 1
    refine RefCount.refs_congr fun i hi => h.mapping_below hu ?_ hsb
    exact (Finset.mem_Ico.mp hi).2
  · intro x hx hx' hm
    obtain ⟨q, j⟩ := x
    rw [mem_block] at hx hx'
    obtain ⟨rfl, -, hj⟩ := hx
    exact hf (h.mapping_above (by omega) hj hm)

end Refs

end Yalnix
