import Yalnix.Whole.Block
import Yalnix.Whole.Mapping

/-!
# When a load succeeds

* `Maps` — which pages the kernel can store to; `Maps.storable`.
* `readSegment_iff`, `finishLoad_iff` — when the reads, and the stores after them, go through.
* `Loadable` — what a load needs of the file, the arguments and the memory.
* `loadProgram_success_iff` — past the checks it succeeds exactly if it finds that.
-/

set_option autoImplicit false

namespace Yalnix.Whole

variable {p : PID} {prog : Program} {li : LoadInfo} {args : List (List UInt8)} {k k' k₁ : Kernel}
  {l : List Nat} {leak : Nat → Nat} {a lo hi : Int} {bytes : List UInt8} {is : List Int}

/-! ## Pages that can be stored to -/

/-- The address is in region 1, in a page of `is`. -/
def InPages (is : List Int) (a : Int) : Prop :=
  (VMEM_1_BASE ≤ a % 2 ^ 32 ∧ a % 2 ^ 32 < VMEM_1_LIMIT) ∧ indexOfPage (a % 2 ^ 32 - VMEM_1_BASE) ∈ is

instance (is : List Int) (a : Int) : Decidable (InPages is a) := inferInstanceAs (Decidable (_ ∧ _))

/-- The pages of `is` can be stored to, and no others. -/
def Maps (p : PID) (is : List Int) (k : Kernel) : Prop :=
  ∀ j : Nat, ((k.table p j).valid = true ∧ (k.table p j).writable = true) ↔ (j : Int) ∈ is

theorem Maps.storable (h : Maps p is k) : Storable (k.table p) a ↔ InPages is a := by
  unfold Storable InPages
  refine and_congr_right fun hr => ?_
  rw [h]
  have hpage : ((userPage (a % 2 ^ 32) : Nat) : Int) = indexOfPage (a % 2 ^ 32 - VMEM_1_BASE) :=
    userPage_eq hr.1
  rw [hpage]

theorem Maps.memoryOnly (h : Maps p is k) (hk : MemoryOnly k k') : Maps p is k' := by
  intro j
  rw [hk.table]
  exact h j

/-- After the loops, the pages that they have mapped. -/
theorem mapFrames_maps {status r : Int} (h : FreeList k l) (hclear : ∀ j, k.table p j = PTE.clear)
    (hlen : is.length ≤ l.length) (hrun : mapFrames p status is k = .ok (r, k')) : Maps p is k' := by
  have hfill := (mapFrames_spec h hrun).1
  have htake : is.take l.length = is := List.take_of_length_le hlen
  intro j
  by_cases hj : (j : Int) ∈ is
  · obtain ⟨f, -, hentry⟩ := hfill.filled j (by rw [htake]; exact hj)
    rw [hentry]
    exact iff_of_true ⟨(data_flags f).1, (data_flags f).2.1⟩ hj
  · rw [hfill.other j (by rw [htake]; exact hj), hclear]
    exact iff_of_false nofun hj

theorem textEntry_flags (e : PTE) : (textEntry e).valid = true ∧ (textEntry e).readable = true ∧
    (textEntry e).executable = true ∧ (textEntry e).writable = false ∧ (textEntry e).cow = false := by
  have h : (textEntry PTE.clear).valid = true ∧ (textEntry PTE.clear).readable = true ∧
      (textEntry PTE.clear).executable = true ∧ (textEntry PTE.clear).writable = false ∧
      (textEntry PTE.clear).cow = false := by decide
  exact h

/-- The text cannot be stored to any more. -/
theorem Maps.protect (li : LoadInfo) (h : Maps p is k) : Maps p (is.filter (· ∉ li.textPages))
    (k.modify p (protectPages li.text_pg1 li.t_npg.toNat)) := by
  intro j
  have hmem : (j : Int) ∈ li.textPages ↔ li.text_pg1 ≤ j ∧ (j : Int) < li.text_pg1 + li.t_npg.toNat := mem_pages
  rw [table_protectPages, List.mem_filter, decide_eq_true_eq, hmem]
  split
  · rename_i htext
    rw [(textEntry_flags _).2.2.2.1]
    exact iff_of_false nofun fun h => h.2 htext
  · rename_i htext
    rw [h]
    exact ⟨fun hj => ⟨hj, htext⟩, fun hj => hj.1⟩

/-! ## Reads -/

theorem readBytes_le {count : Nat} (h : readBytes p a bytes k = .ok (count, k')) : count ≤ bytes.length ∧
    (count = bytes.length → ∀ i < bytes.length, Storable (k.table p) (a + i)) := by
  induction bytes generalizing a k count with
  | nil =>
    cases h
    exact ⟨le_rfl, fun _ i hi => absurd hi (Nat.not_lt_zero _)⟩
  | cons b bytes ih =>
    unfold readBytes at h
    split at h
    · cases h
    · cases hstore : store k p (a % 2 ^ 32) b with
      | none =>
        rw [hstore] at h
        cases h
        exact ⟨Nat.zero_le _, fun h => absurd h (by simp)⟩
      | some k₁ =>
        rw [hstore] at h
        obtain ⟨⟨count₁, k₂⟩, hrest, h⟩ := bind_ok h
        cases h
        obtain ⟨hle, hall⟩ := ih hrest
        refine ⟨Nat.succ_le_succ hle, fun heq i hi => ?_⟩
        cases i with
        | zero =>
          rw [Int.ofNat_zero, add_zero]
          exact (store_isSome b).mp (Option.isSome_iff_exists.mpr ⟨k₁, hstore⟩)
        | succ i =>
          have hnext := hall (Nat.succ_injective heq) i (Nat.lt_of_succ_lt_succ hi)
          rw [(store_memoryOnly hstore).table] at hnext
          rw [show a + (i + 1 : Nat) = a + 1 + i by push_cast; ring]
          exact hnext

theorem readBytes_all (h : ∀ i < bytes.length, Storable (k.table p) (a + i)) :
    ∃ k', readBytes p a bytes k = .ok (bytes.length, k') := by
  induction bytes generalizing a k with
  | nil => exact ⟨k, rfl⟩
  | cons b bytes ih =>
    have hfirst := h 0 (Nat.succ_pos _)
    rw [Int.ofNat_zero, add_zero] at hfirst
    obtain ⟨k₁, hstore⟩ := Option.isSome_iff_exists.mp ((store_isSome b).mpr hfirst)
    have hrest : ∀ i < bytes.length, Storable (k₁.table p) (a + 1 + i) := by
      intro i hi
      rw [(store_memoryOnly hstore).table, show a + 1 + (i : Int) = a + (i + 1 : Nat) by push_cast; ring]
      exact h (i + 1) (Nat.succ_lt_succ hi)
    obtain ⟨k', hrun⟩ := ih hrest
    refine ⟨k', ?_⟩
    unfold readBytes
    rw [if_neg (not_lt.mpr hfirst.1.1), hstore]
    simp [hrun, bind, Except.bind]

/-- **A read of `n` bytes brings in all of them exactly if the file has them and they can be stored.** -/
theorem read_iff {n : Nat} {file : Option (List UInt8)} : (∃ k', read p a n file k = .ok ((n : Int), k')) ↔
    ∃ bytes, file = some bytes ∧ n ≤ bytes.length ∧ ∀ i < n, Storable (k.table p) (a + i) := by
  have htaken : ∀ bytes : List UInt8, (bytes.take n).length = min n bytes.length := fun bytes => List.length_take
  constructor
  · rintro ⟨k', hrun⟩
    cases file with
    | none =>
      unfold read at hrun
      rw [Except.ok.injEq, Prod.mk.injEq] at hrun
      omega
    | some bytes =>
      obtain ⟨⟨count, k₁⟩, hbytes, hrun⟩ := bind_ok hrun
      rw [Except.ok.injEq, Prod.mk.injEq] at hrun
      obtain ⟨hle, hall⟩ := readBytes_le hbytes
      have hn := htaken bytes
      have hcount : count = n := by
        have hc := hrun.1
        split at hc
        · omega
        · exact Int.ofNat_inj.mp hc
      exact ⟨bytes, rfl, by omega, fun i hi => hall (by omega) i (by omega)⟩
  · rintro ⟨bytes, rfl, hlen, hall⟩
    have hn := htaken bytes
    rw [Nat.min_eq_left hlen] at hn
    have htotal : ∃ k', readBytes p a (bytes.take n) k = .ok ((bytes.take n).length, k') :=
      readBytes_all fun i hi => hall i (by omega)
    obtain ⟨k', hrun⟩ := htotal
    refine ⟨k', ?_⟩
    unfold read
    simp only [hrun, bind, Except.bind, hn]
    rw [if_neg]
    rintro ⟨rfl, hne⟩
    exact hne (List.take_zero ..)

/-- The file has the whole segment, and all of it goes to pages of `is`. -/
structure ReadsAll (a npg : u_long) (file : Option (List UInt8)) (is : List Int) : Prop where
  positive : 0 ≤ segment_size npg
  file : ∃ bytes, file = some bytes ∧ segmentBytes npg ≤ bytes.length
  pages : ∀ i < segmentBytes npg, InPages is (a.toNat + i)

/-- What comes in is no more than the machine has room for. -/
theorem read_nonneg {n : Nat} {r : Int} {file : Option (List UInt8)} (h : read p a n file k = .ok (r, k')) :
    r = -1 ∨ 0 ≤ r := by
  cases file with
  | none =>
    cases h
    exact .inl rfl
  | some bytes =>
    obtain ⟨⟨count, k₁⟩, -, h⟩ := bind_ok h
    cases h
    split
    · exact .inl rfl
    · exact .inr (Int.natCast_nonneg _)

/-- **A read brings in the whole segment exactly if the file has it and it goes to mapped pages.** -/
theorem readSegment_iff {a npg : u_long} {file : Option (List UInt8)} (hm : Maps p is k) :
    (∃ s k', readSegment p a npg file k = .ok (s, k') ∧ s ≠ KILL) ↔ ReadsAll a npg file is := by
  have hpage : segment_size npg % 8192 = 0 := by
    have hmod := long_emod (npg.toNat * 8192)
    unfold segment_size
    omega
  have hsize : 0 ≤ segment_size npg → segment_size npg = segmentBytes npg := by
    intro hpos
    have hrange : segment_size npg ≤ 2147483647 := (long_range _).2
    unfold segmentBytes
    omega
  constructor
  · rintro ⟨s, k', hrun, hs⟩
    obtain ⟨⟨count, k₁⟩, hread, hrun⟩ := bind_ok hrun
    have hcount : count = segment_size npg := by
      by_contra hne
      rw [Except.ok.injEq, Prod.mk.injEq, if_pos hne] at hrun
      exact hs hrun.1.symm
    have hpos : 0 ≤ segment_size npg := by
      have hsign := read_nonneg hread
      omega
    rw [hcount, hsize hpos] at hread
    obtain ⟨bytes, hfile, hlen, hall⟩ := read_iff.mp ⟨k₁, hread⟩
    exact ⟨hpos, ⟨bytes, hfile, hlen⟩, fun i hi => hm.storable.mp (hall i hi)⟩
  · rintro ⟨hpos, ⟨bytes, hfile, hlen⟩, hpages⟩
    obtain ⟨k', hread⟩ := read_iff.mpr ⟨bytes, hfile, hlen, fun i hi => hm.storable.mpr (hpages i hi)⟩
    refine ⟨SUCCESS, k', ?_, by decide⟩
    unfold readSegment
    rw [ok_bind hread, hsize hpos]
    dsimp only
    rw [if_neg (not_not.mpr rfl)]

/-! ## After the reads -/

/-- The bytes of the uninitialised data, as the length that `memset` is given. -/
def bssBytes (li : LoadInfo) : Nat := (((li.ud_end.toNat : Int) - li.id_end.toNat) % 2 ^ 32).toNat

/-- What comes after the reads goes through if the pages it stores to are mapped and are not text. -/
theorem finishLoad_iff (hin : ∀ i ∈ li.textPages, InTable i) (hfits : Fits args)
    (hargs : ∀ arg ∈ args, (0 : UInt8) ∉ arg) (hm : Maps p is k) :
    (∃ k', finishLoad p li args k = .ok k') ↔
      (∀ i < bssBytes li, InPages (is.filter (· ∉ li.textPages)) (li.id_end.toNat + i)) ∧
      ∀ b, cpp args ≤ b → b < VMEM_1_LIMIT → InPages (is.filter (· ∉ li.textPages)) b := by
  have hprotected := hm.protect li
  have hbss : ∀ k₁, (∃ k', clearBytes p li.id_end.toNat (li.ud_end.toNat - li.id_end.toNat) k₁ = .ok k') ↔
      ∀ i < bssBytes li, Storable (k₁.table p) (li.id_end.toNat + i) := by
    intro k₁
    unfold clearBytes
    rw [kernelStore_iff, List.length_replicate]
    rfl
  have hpc : ∀ k₁ : Kernel, (k₁.modify p (setPc li.entry.toNat)).table p = k₁.table p := by
    intro k₁
    unfold Kernel.table
    rw [Kernel.proc_modify_self]
    rfl
  unfold finishLoad
  rw [ok_bind (protectText_eq hin)]
  constructor
  · rintro ⟨k', hrun⟩
    obtain ⟨k₂, hclear, hbuild⟩ := bind_ok hrun
    refine ⟨fun i hi => hprotected.storable.mp ((hbss _).mp ⟨k₂, hclear⟩ i hi), fun b hlo hhi => ?_⟩
    have hb := (buildArguments_iff hfits hargs).mp ⟨k', hbuild⟩ b hlo hhi
    rw [hpc] at hb
    exact (hprotected.memoryOnly (kernelStore_memoryOnly hclear)).storable.mp hb
  · rintro ⟨hall, hblock⟩
    obtain ⟨k₂, hclear⟩ := (hbss _).mpr fun i hi => hprotected.storable.mpr (hall i hi)
    rw [ok_bind hclear]
    refine (buildArguments_iff hfits hargs).mpr fun b hlo hhi => ?_
    rw [hpc]
    exact (hprotected.memoryOnly (kernelStore_memoryOnly hclear)).storable.mpr (hblock b hlo hhi)

/-! ## What a load needs -/

/-- The frames that are counted for entries of `p` only. -/
def ownFrames (k : Kernel) (p : PID) : Finset Nat :=
  (mappedFrames k p 128).toFinset.filter fun f => k.frc_table f = sharesBelow k p 128 f

/-- The file, the arguments and the memory are as a load needs them; the free frames are those of `l`. -/
structure Loadable (p : PID) (prog : Program) (li : LoadInfo) (k : Kernel) (l : List Nat) : Prop where
  saved : argSize prog.args ≤ size prog.args
  pages : ∀ i ∈ loadPages li prog.args, InTable i
  /-- There are frames, once those of the caller have been given back. -/
  frames : (loadPages li prog.args).length ≤ (ownFrames k p).card + l.length
  text : ReadsAll li.t_vaddr li.t_npg prog.text (loadPages li prog.args)
  data : ReadsAll li.id_vaddr li.id_npg prog.data (loadPages li prog.args)
  /-- The uninitialised data is not in the text. -/
  bss : ∀ i < bssBytes li,
    InPages ((loadPages li prog.args).filter (· ∉ li.textPages)) (li.id_end.toNat + i)
  /-- Nor is the stack. -/
  block : ∀ i ∈ li.textPages, i ∉ stackPages prog.args

/-- The frames of the free list when the loops begin. -/
theorem cleared_list (li : LoadInfo) (args : List (List UInt8)) (h : Bounded k leak l) (hp : Running k p) :
    ∃ l₀, FreeList (cleared p li args k) l₀ ∧ l₀.length = (ownFrames k p).card + l.length := by
  have hsaved := h.saveUserContext p { (k.proc p).user_context with sp := cp2 args }
  rw [← setSp_eq] at hsaved
  have hrunning : Running (k.modify p (setSp (cp2 args))) p := running_saveUserContext.mpr hp
  have hshares : ∀ f, sharesBelow (k.modify p (setSp (cp2 args))) p 128 f = sharesBelow k p 128 f := by
    intro f
    rw [setSp_eq]
    unfold sharesBelow
    rw [table_saveUserContext]
  have hframe : ∀ f ∈ mappedFrames (k.modify p (setSp (cp2 args))) p 128,
      IsFrame (k.modify p (setSp (cp2 args))) f := by
    intro f hf
    obtain ⟨i, hi, hframe⟩ := mem_mappedFrames.mp hf
    refine hsaved.1.frame (p, i) (mem_slots.mpr ⟨hrunning.le, ?_⟩) hrunning.pos.ne' f ?_
    · simp only
      omega
    · rw [mapping_table hrunning.pos.ne' hi]
      exact hframe
  obtain ⟨l₁, hlist, -, -, hnodup, hmem⟩ := freeAll_spec _ hsaved.1.list hsaved.1.counts hframe
    (fun f => (hrunning.mapped_le f).trans (Nat.le_add_right _ _)) hsaved.2
  refine ⟨l₁ ++ l, hlist.of_eq rfl rfl rfl, ?_⟩
  rw [List.length_append, ← List.toFinset_card_of_nodup hnodup]
  congr 2
  ext f
  have hfrc := hsaved.frc f
  rw [List.mem_toFinset, hmem, count_mappedFrames, hshares]
  unfold ownFrames
  rw [Finset.mem_filter, List.mem_toFinset]
  refine and_congr (by rw [mem_mappedFrames, mem_mappedFrames, setSp_eq, table_saveUserContext]) ?_
  change k.frc_table f = _ at hfrc
  rw [hfrc]
  omega

/-- The loops begin with an empty page table. -/
theorem cleared_table (j : Nat) : (cleared p li args k).table p j = PTE.clear := by
  unfold cleared freed Kernel.table
  rw [Kernel.proc_modify_self, setInfo, Kernel.proc_modify_self]
  rfl

theorem mem_loadPages_stack {i : Int} (h : i ∈ stackPages args) : i ∈ loadPages li args :=
  List.mem_append_right _ h

/-- The block lies in region 1 if its pages do. -/
theorem Fits.region (h : Fits args) (hin : ∀ i ∈ stackPages args, InTable i) :
    VMEM_1_BASE ≤ Whole.cpp args ∧ Whole.cpp args < VMEM_1_LIMIT := by
  unfold stackPages at hin
  rw [pages_inTable, h.stack_npg, h.stack_pg1] at hin
  rw [h.cpp]
  unfold Fits blockSize at *
  unfold VMEM_1_BASE VMEM_1_LIMIT
  omega

/-- The block takes up every page of the stack, and no other. -/
theorem Fits.block_iff (h : Fits args) (hin : ∀ i ∈ stackPages args, InTable i) :
    (∀ b, Whole.cpp args ≤ b → b < VMEM_1_LIMIT →
      InPages ((loadPages li args).filter (· ∉ li.textPages)) b) ↔
    ∀ i ∈ li.textPages, i ∉ stackPages args := by
  have hregion := h.region hin
  unfold VMEM_1_BASE VMEM_1_LIMIT at hregion
  have hmod : ∀ b, Whole.cpp args ≤ b → b < VMEM_1_LIMIT → b % 2 ^ 32 = b := by
    intro b hlo hhi
    unfold VMEM_1_LIMIT at hhi
    exact Int.emod_eq_of_lt (by omega) (by omega)
  constructor
  · intro hall i htext hstack
    -- the first byte of the block in page i
    have hrange := hstack
    unfold stackPages at hrange
    rw [mem_pages, h.stack_npg, h.stack_pg1] at hrange
    have hcpp := h.cpp
    unfold VMEM_1_LIMIT at hcpp
    have hlo : Whole.cpp args ≤ max (Whole.cpp args) (VMEM_1_BASE + 8192 * i) := le_max_left _ _
    have hhi : max (Whole.cpp args) (VMEM_1_BASE + 8192 * i) < VMEM_1_LIMIT := by
      unfold VMEM_1_BASE VMEM_1_LIMIT
      omega
    have hpage := (hall _ hlo hhi).2
    rw [hmod _ hlo hhi, List.mem_filter, decide_eq_true_eq] at hpage
    refine hpage.2 ?_
    have hi : indexOfPage (max (Whole.cpp args) (VMEM_1_BASE + 8192 * i) - VMEM_1_BASE) = i := by
      unfold indexOfPage VMEM_1_BASE
      omega
    rw [hi]
    exact htext
  · intro hapart b hlo hhi
    have hpage := h.inStack hlo hhi
    unfold InPages
    rw [hmod b hlo hhi, List.mem_filter, decide_eq_true_eq]
    unfold VMEM_1_LIMIT at *
    exact ⟨⟨by unfold VMEM_1_BASE; omega, hhi⟩, mem_loadPages_stack hpage, fun htext => hapart _ htext hpage⟩

/-- **Past the checks, a load for which there is room in the heap succeeds exactly if it finds what it
needs.** -/
theorem loadProgram_success_iff (h : Bounded k leak l) (hp : Running k p) (hpass : Passes p prog li k)
    (hmalloc : prog.malloc = true) :
    (∃ k', loadProgram p prog k = .ok (SUCCESS, k')) ↔ Loadable p prog li k l := by
  obtain ⟨l₀, hlist, hlen⟩ := cleared_list li prog.args h hp
  have hmaps : ∀ k₃, (loadPages li prog.args).length ≤ l₀.length →
      mapFrames p KILL (loadPages li prog.args) (cleared p li prog.args k) = .ok (SUCCESS, k₃) →
      Maps p (loadPages li prog.args) k₃ := fun k₃ => mapFrames_maps hlist cleared_table
  have hstack : (∀ i ∈ loadPages li prog.args, InTable i) → ∀ i ∈ stackPages prog.args, InTable i :=
    fun hin i hi => hin i (mem_loadPages_stack hi)
  constructor
  · rintro ⟨k', hrun⟩
    obtain ⟨li', hpass', -, hsaved, s₄, s₅, k₃, k₄, k₅, h₃, ⟨h₄, hs₄⟩, ⟨h₅, hs₅⟩, h₆⟩ :=
      loadProgram_success.mp hrun
    obtain rfl : li' = li := Option.some.inj (hpass'.info.symm.trans hpass.info)
    have hfits := fits_of_saved hmalloc hsaved
    obtain ⟨henough, hin⟩ := (mapFrames_success_iff (by decide)).mp ⟨k₃, h₃⟩
    have hframes := hlist.enough_iff.mp henough
    have hm₃ := hmaps k₃ hframes h₃
    have hm₄ := hm₃.memoryOnly (readSegment_memoryOnly h₄)
    have hm₅ := hm₄.memoryOnly (readSegment_memoryOnly h₅)
    obtain ⟨hbss, hblock⟩ := (finishLoad_iff (inTable_text hin) hfits prog.strings hm₅).mp ⟨k', h₆⟩
    exact ⟨hsaved, hin, hlen ▸ hframes, (readSegment_iff hm₃).mp ⟨s₄, k₄, h₄, hs₄⟩,
      (readSegment_iff hm₄).mp ⟨s₅, k₅, h₅, hs₅⟩, hbss, (hfits.block_iff (hstack hin)).mp hblock⟩
  · rintro ⟨hsaved, hin, hframes, hread, hread', hbss, hblock⟩
    have hfits := fits_of_saved hmalloc hsaved
    have hlen' : (loadPages li prog.args).length ≤ l₀.length := by omega
    have hloops : ∃ k₃, mapFrames p KILL (loadPages li prog.args) (cleared p li prog.args k) =
        .ok (SUCCESS, k₃) := (mapFrames_success_iff (by decide)).mpr ⟨hlist.enough_iff.mpr hlen', hin⟩
    obtain ⟨k₃, h₃⟩ := hloops
    have hm₃ := hmaps k₃ hlen' h₃
    obtain ⟨s₄, k₄, h₄, hs₄⟩ := (readSegment_iff hm₃).mpr hread
    have hm₄ := hm₃.memoryOnly (readSegment_memoryOnly h₄)
    obtain ⟨s₅, k₅, h₅, hs₅⟩ := (readSegment_iff hm₄).mpr hread'
    have hm₅ := hm₄.memoryOnly (readSegment_memoryOnly h₅)
    obtain ⟨k', h₆⟩ := (finishLoad_iff (inTable_text hin) hfits prog.strings hm₅).mpr
      ⟨hbss, (hfits.block_iff (hstack hin)).mpr hblock⟩
    exact ⟨k', loadProgram_success.mpr ⟨li, hpass, hmalloc, hsaved, s₄, s₅, k₃, k₄, k₅, h₃, ⟨h₄, hs₄⟩,
      ⟨h₅, hs₅⟩, h₆⟩⟩

/-! ## A load that goes through -/

/-- A segment of whole pages of `is`, and a file that is long enough. -/
theorem readsAll_of_pages {a npg : u_long} (halign : a.toNat % 8192 = 0) (hlo : VMEM_1_BASE ≤ a.toNat)
    (hin : ∀ i ∈ pages (indexOfPage (a.toNat - VMEM_1_BASE)) npg.toNat, InTable i ∧ i ∈ is)
    (hlen : npg.toNat * 8192 ≤ bytes.length) : ReadsAll a npg (some bytes) is := by
  have htable := pages_inTable.mp fun i hi => (hin i hi).1
  unfold indexOfPage at htable
  unfold VMEM_1_BASE at htable hlo
  have hsize : segment_size npg = (npg.toNat * 8192 : Nat) := by
    unfold segment_size
    push_cast
    exact long_of_range (by omega) (by omega)
  have hbytes : segmentBytes npg = npg.toNat * 8192 := by
    unfold segmentBytes
    rw [hsize]
    omega
  refine ⟨by omega, ⟨bytes, rfl, by omega⟩, fun i hi => ?_⟩
  have hmod : ((a.toNat : Int) + i) % 2 ^ 32 = a.toNat + i := Int.emod_eq_of_lt (by omega) (by omega)
  unfold InPages
  rw [hmod]
  unfold VMEM_1_BASE VMEM_1_LIMIT
  refine ⟨by omega, (hin _ (mem_pages.mpr ?_)).2⟩
  unfold indexOfPage VMEM_1_BASE
  omega

/-- What a small file needs to be loaded by the first process. -/
theorem file_loads {N : Nat} (hN : N ≤ 65536) (hpass : Passes 1 prog li (machine N)) (hmalloc : prog.malloc = true)
    (hfile : prog.text = (fromFile li).text ∧ prog.data = (fromFile li).data)
    (hsaved : argSize prog.args ≤ size prog.args) (hin : ∀ i ∈ loadPages li prog.args, InTable i)
    (hframes : (loadPages li prog.args).length ≤ N)
    (htext : VMEM_1_BASE ≤ li.t_vaddr.toNat ∧ li.t_npg.toNat ≤ 2 ∧
      pages (indexOfPage (li.t_vaddr.toNat - VMEM_1_BASE)) li.t_npg.toNat ⊆ loadPages li prog.args)
    (hdata : VMEM_1_BASE ≤ li.id_vaddr.toNat ∧ li.id_npg.toNat ≤ 2 ∧
      pages (indexOfPage (li.id_vaddr.toNat - VMEM_1_BASE)) li.id_npg.toNat ⊆ loadPages li prog.args)
    (hbss : ∀ i < bssBytes li,
      InPages ((loadPages li prog.args).filter (· ∉ li.textPages)) (li.id_end.toNat + i))
    (hblock : ∀ i ∈ li.textPages, i ∉ stackPages prog.args) :
    ∃ k', loadProgram 1 prog (machine N) = .ok (SUCCESS, k') := by
  obtain ⟨l, hcounts, hlen⟩ := machine_countsExact hN
  refine (loadProgram_success_iff hcounts.bounded (running_machine hN) hpass hmalloc).mpr ?_
  refine ⟨hsaved, hin, hframes.trans (by omega), ?_, ?_, hbss, hblock⟩
  · rw [hfile.1]
    refine readsAll_of_pages li.t_aligned htext.1 (fun i hi => ⟨hin i (htext.2.2 hi), htext.2.2 hi⟩) ?_
    rw [List.length_replicate]
    omega
  · rw [hfile.2]
    refine readsAll_of_pages li.id_aligned hdata.1 (fun i hi => ⟨hin i (hdata.2.2 hi), hdata.2.2 hi⟩) ?_
    rw [List.length_replicate]
    omega

/-- The uninitialised data of `smallFile` is in page 1. -/
theorem smallFile_bss (args : List (List UInt8)) : ∀ i < bssBytes smallFile,
    InPages ((loadPages smallFile args).filter (· ∉ smallFile.textPages)) (smallFile.id_end.toNat + i) := by
  intro i hi
  have hbytes : bssBytes smallFile = 4096 := by decide
  rw [hbytes] at hi
  have hmod : ((smallFile.id_end.toNat : Int) + i) % 2 ^ 32 = 0x103000 + i := by
    have hend : smallFile.id_end.toNat = 0x103000 := rfl
    rw [hend]
    exact Int.emod_eq_of_lt (by omega) (by omega)
  have hpage : indexOfPage (0x103000 + (i : Int) - VMEM_1_BASE) = 1 := by
    unfold indexOfPage VMEM_1_BASE
    omega
  have hdata : (1 : Int) ∈ loadPages smallFile args :=
    List.mem_append_left _ (List.mem_append_right _ (by decide))
  unfold InPages
  rw [hmod, hpage, List.mem_filter]
  unfold VMEM_1_BASE VMEM_1_LIMIT
  exact ⟨by omega, hdata, by decide⟩

/-- `smallFile` can be loaded. -/
theorem smallFile_loads : ∃ k', loadProgram 1 (fromFile smallFile) (machine 3) = .ok (SUCCESS, k') :=
  file_loads (by omega) ⟨rfl, rfl, rfl, by decide, by decide⟩ rfl ⟨rfl, rfl⟩ (by decide) (by decide) (by decide)
    (by decide) (by decide) (smallFile_bss []) (by decide)

end Yalnix.Whole
