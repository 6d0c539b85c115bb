import Yalnix.Whole.Load

/-!
# Where the loader puts things

The sizes and page ranges that `loadProgram` works out before its checks, all in 32 bits.

* `Fits` — the argument block is so small that nothing wraps; `Fits.stack_npg`.
* `argument_size_iff` — past the checks, the computed size is the true one, and the block is in the
  pages of the stack, exactly if the arguments fit.
* `Apart` — the page ranges of text, data and stack are in the table and do not meet.
* `load_bounds_iff` — in terms of the file and the arguments.
-/

set_option autoImplicit false

namespace Yalnix.Whole

variable {args : List (List UInt8)} {p : PID} {k k' : Kernel} {prog : Program} {li : LoadInfo}

/-! ## The argument block -/

/-- The bytes of the strings, the words in front of them, and those that are kept clear. -/
def blockSize (args : List (List UInt8)) : Nat := argSize args + 4 * (args.length + 35)

/-- The block ends before the `long`s do. -/
def Fits (args : List (List UInt8)) : Prop := blockSize args ≤ 2 ^ 31 - 8192

instance (args : List (List UInt8)) : Decidable (Fits args) := inferInstanceAs (Decidable (_ ≤ _))

theorem length_le_argSize (args : List (List UInt8)) : args.length ≤ argSize args := by
  induction args with
  | nil => simp [argSize]
  | cons arg args ih =>
    unfold argSize at ih ⊢
    simp only [List.map_cons, List.sum_cons, List.length_cons]
    omega

theorem Fits.size (h : Fits args) : size args = argSize args := by
  unfold Fits blockSize at h
  exact long_of_range (by omega) (by omega)

theorem size_range (args : List (List UInt8)) : -2147483648 ≤ size args ∧ size args ≤ 2147483647 := long_range _

theorem cp_eq (hs : size args = argSize args) : cp args = VMEM_1_LIMIT - argSize args := by
  have hle := (size_range args).2
  unfold cp VMEM_1_LIMIT
  rw [hs] at hle ⊢
  exact long_of_range (by omega) (by omega)

/-- The block begins at the last double word that leaves room for it. -/
theorem cpp_eq (hs : size args = argSize args) (hb : blockSize args ≤ 2147483648 + 0x200000) :
    cpp args = (VMEM_1_LIMIT - blockSize args) / 8 * 8 := by
  unfold cpp argcount POST_ARGV_NULL_SPACE
  rw [cp_eq hs]
  unfold blockSize VMEM_1_LIMIT at *
  dsimp only
  rw [long_of_range (by push_cast at hb ⊢; omega) (by omega)]
  omega

theorem Fits.cpp (h : Fits args) : cpp args = (VMEM_1_LIMIT - blockSize args) / 8 * 8 := by
  refine cpp_eq h.size ?_
  unfold Fits at h
  omega

/-- **The stack gets as many pages as the block needs.** -/
theorem Fits.stack_npg (h : Fits args) : stack_npg args = (blockSize args + 8191) / 8192 := by
  unfold Whole.stack_npg cp2 INITIAL_STACK_FRAME_SIZE
  rw [h.cpp]
  unfold Fits at h
  unfold indexOfPage DOWN_TO_PAGE VMEM_1_LIMIT
  rw [long_of_range (by omega) (by omega)]
  omega

theorem Fits.stack_pg1 (h : Fits args) : stack_pg1 args = 128 - (blockSize args + 8191) / 8192 := by
  unfold Whole.stack_pg1
  rw [h.stack_npg]
  rfl

/-- Every byte of the block is in a page of the stack. -/
theorem Fits.inStack {a : Int} (h : Fits args) (hlo : Whole.cpp args ≤ a) (hhi : a < VMEM_1_LIMIT) :
    indexOfPage (a - VMEM_1_BASE) ∈ stackPages args := by
  rw [h.cpp] at hlo
  unfold stackPages
  rw [mem_pages, h.stack_pg1, h.stack_npg]
  unfold indexOfPage VMEM_1_BASE VMEM_1_LIMIT at *
  omega

/-- Too long a block leaves no page for the stack. -/
theorem stack_npg_over (hs : size args = argSize args) (hlo : 2 ^ 31 - 8192 < blockSize args)
    (hhi : blockSize args ≤ 2147483648 + 0x200000) : stack_npg args ≤ 0 := by
  unfold stack_npg cp2 INITIAL_STACK_FRAME_SIZE
  rw [cpp_eq hs hhi]
  unfold DOWN_TO_PAGE VMEM_1_LIMIT
  generalize hx : (0x200000 - ((0x200000 - (blockSize args : Int)) / 8 * 8 - 0 -
    ((0x200000 - (blockSize args : Int)) / 8 * 8 - 0) % 8192)) = x
  have hlong : long x = x - 4294967296 := long_eq (by omega) (by omega) (by omega)
  rw [hlong]
  unfold indexOfPage
  omega

/-! ## The computed size -/

/-- The pointers and the strings each fit into region 1; a string may have many pointers. -/
structure Placed (args : List (List UInt8)) : Prop where
  pointers : 4 * (args.length + 1) ≤ VMEM_REGION_SIZE
  strings : ∀ arg ∈ args, arg.length < VMEM_REGION_SIZE

/-- What the size of the arguments is computed for. -/
structure SizeSound (args : List (List UInt8)) : Prop where
  total : size args = argSize args
  /-- `strcpy` stays inside `argbuf`. -/
  buffer : saveArguments args = .ok ()
  /-- The strings are copied to pages of the stack. -/
  stack : ∀ i < argSize args, indexOfPage (cp args + i - VMEM_1_BASE) ∈ stackPages args

/-- Whatever the file: the size is right, and the copies stay where they should, exactly if the block
fits. -/
theorem sizeSound_iff (h : Placed args) : SizeSound args ↔ Fits args := by
  constructor
  · intro hs
    unfold Fits
    by_contra hover
    have hpointers := h.pointers
    unfold VMEM_REGION_SIZE at hpointers
    have hsize := hs.total
    have hlt : (argSize args : Int) < 2147483648 := by
      rw [← hsize]
      exact Int.lt_of_le_of_lt (size_range args).2 (by decide)
    have hnone := stack_npg_over hsize (by omega) (by unfold blockSize; omega)
    have hpage := hs.stack 0 (by unfold blockSize at hover; omega)
    unfold stackPages at hpage
    rw [mem_pages] at hpage
    omega
  · intro hfits
    refine ⟨hfits.size, saveArguments_ok.mpr hfits.size.ge, fun i hi => ?_⟩
    have hcp := cp_eq hfits.size
    have hcpp := hfits.cpp
    unfold blockSize at hcpp
    refine hfits.inStack ?_ ?_
    · omega
    · omega

/-- Text in the first page of region 1, data in the second. -/
def smallFile : LoadInfo where
  entry := 0x100000
  t_vaddr := 0x100000
  t_npg := 1
  id_vaddr := 0x102000
  id_npg := 1
  id_end := 0x103000
  ud_npg := 0
  ud_end := 0x104000
  t_aligned := rfl
  id_aligned := rfl

/-- The data of this file takes so many pages that their sum wraps: it takes -524288. -/
def wrappedFile : LoadInfo :=
  { smallFile with id_vaddr := 0x100000, id_npg := 0xFFF80000, id_aligned := rfl }

/-- Some file gets past the checks with any arguments. -/
theorem passes_wrappedFile (args : List (List UInt8)) (hstrings : ∀ arg ∈ args, (0 : UInt8) ∉ arg) :
    ∃ prog : Program, prog.args = args ∧ Passes 1 prog wrappedFile (machine 0) := by
  refine ⟨⟨true, some wrappedFile, args, false, none, none, hstrings, nofun⟩, rfl, rfl, rfl, rfl, by decide, ?_⟩
  have hdata : wrappedFile.data_pg1 = 0 ∧ wrappedFile.data_npg = -524288 := by decide
  have hstack : -262144 ≤ stack_npg args ∧ stack_npg args < 262144 := by
    have hlong := long_range (VMEM_1_LIMIT - DOWN_TO_PAGE (cp2 args))
    unfold stack_npg indexOfPage
    omega
  change long (stack_npg args + _ + _) < 128
  rw [hdata.1, hdata.2, long_of_range (by omega) (by omega)]
  omega

/-- Every load of these arguments that gets past the checks has their size right. -/
def ChecksSize (args : List (List UInt8)) : Prop := ∀ (p : PID) (prog : Program) (li : LoadInfo)
    (k : Kernel), prog.args = args → Passes p prog li k → SizeSound prog.args

/-- **Past the checks, the size is right, and the copies stay where they should, exactly if the whole
block ends before the last page of the `long`s.** -/
theorem argument_size_iff (h : Placed args) (hstrings : ∀ arg ∈ args, (0 : UInt8) ∉ arg) :
    ChecksSize args ↔ argSize args + 4 * (args.length + 35) ≤ 2 ^ 31 - 8192 := by
  constructor
  · intro hall
    obtain ⟨prog, rfl, hpass⟩ := passes_wrappedFile args hstrings
    exact (sizeSound_iff h).mp (hall 1 prog wrappedFile (machine 0) rfl hpass)
  · rintro hfits p prog li k rfl hpass
    exact (sizeSound_iff h).mpr hfits

/-- A string of 32767 characters with 131072 pointers to it: the total is 2^32. -/
def manyPointers : List (List UInt8) := List.replicate 131072 (List.replicate 32767 1)

theorem argSize_replicate (n m : Nat) (b : UInt8) :
    argSize (List.replicate n (List.replicate m b)) = n * (m + 1) := by
  simp [argSize]

theorem manyPointers_size : size manyPointers = 0 := by
  unfold size manyPointers
  rw [argSize_replicate]
  rfl

theorem strings_replicate (n m : Nat) : ∀ arg ∈ List.replicate n (List.replicate m (1 : UInt8)), 0 ∉ arg := by
  intro arg harg hzero
  rw [List.eq_of_mem_replicate harg] at hzero
  exact absurd (List.eq_of_mem_replicate hzero) (by decide)

theorem heap_of_argSize {args : List (List UInt8)} {total : Nat} (h : argSize args = total)
    (hlt : total % 2 ^ 32 < VMEM_REGION_SIZE) : argSize args % 2 ^ 32 < VMEM_REGION_SIZE := by
  rw [h]
  exact hlt

theorem manyPointers_strings : ∀ arg ∈ manyPointers, (0 : UInt8) ∉ arg := strings_replicate _ _

theorem manyPointers_argSize : argSize manyPointers = 131072 * (32767 + 1) := argSize_replicate _ _ _

theorem manyPointers_heap : argSize manyPointers % 2 ^ 32 < VMEM_REGION_SIZE :=
  heap_of_argSize manyPointers_argSize (by decide)

/-- The program is given `manyPointers`; `malloc(0)` returns a pointer. -/
def manyPointersProgram : Program where
  opens := true
  info := some smallFile
  args := manyPointers
  malloc := true
  text := none
  data := none
  strings := manyPointers_strings
  heap := fun _ => manyPointers_heap

theorem manyPointers_length : manyPointers.length = 131072 := List.length_replicate

theorem manyPointers_stack : stack_npg manyPointers = 65 := by
  have hlength : argcount manyPointers = 131072 := by
    unfold argcount
    rw [manyPointers_length]
    rfl
  unfold stack_npg cp2 cpp cp
  rw [manyPointers_size, hlength]
  rfl

/-- A total taken for 0. -/
theorem unsound_of_zero {args : List (List UInt8)} (hzero : size args = 0) (hpos : 0 < argSize args) :
    ¬ SizeSound args := by
  intro hs
  have htotal := hs.total
  rw [hzero] at htotal
  omega

theorem manyPointers_placed : Placed manyPointers := by
  refine ⟨?_, fun arg harg => ?_⟩
  · rw [manyPointers_length]
    decide
  · rw [List.eq_of_mem_replicate harg, List.length_replicate]
    decide

/-- **The strings of `manyPointers` add up to 2^32 bytes and the computed size is 0.** -/
theorem manyPointers_unsound : ¬ ∀ (p : PID) (prog : Program) (li : LoadInfo) (k : Kernel),
    Placed prog.args → Passes p prog li k → SizeSound prog.args := by
  intro hall
  have hroom : long (stack_npg manyPointers + smallFile.data_pg1 + smallFile.data_npg) < MAX_PT_LEN := by
    rw [manyPointers_stack]
    decide
  have hpass : Passes 1 manyPointersProgram smallFile (machine 0) := ⟨rfl, rfl, rfl, by decide, hroom⟩
  have hpos : 0 < argSize manyPointers := by
    rw [manyPointers_argSize]
    decide
  exact unsound_of_zero manyPointers_size hpos
    (hall 1 manyPointersProgram smallFile (machine 0) manyPointers_placed hpass)

/-- One argument of two characters. -/
theorem argument_size_small : ChecksSize [[104, 105]] :=
  (argument_size_iff ⟨by decide, by decide⟩ (by decide)).mpr (by decide)

/-! ## What a read stores -/

theorem long_emod (x : Int) : long x % 4294967296 = x % 4294967296 := Int.bmod_emod

theorem store_pmem {a : Int} {b : UInt8} {f : Nat} (h : store k p a b = some k')
    (hf : ∀ j, (k.table p j).frame ≠ some f) : k'.pmem f = k.pmem f := by
  unfold store at h
  dsimp only at h
  generalize he : userEntry k p a = e at h
  split at h
  · rename_i hv
    cases h
    rw [Bool.and_eq_true] at hv
    refine Function.update_of_ne ?_ _ _
    rintro rfl
    unfold userEntry at he
    split at he
    · rw [← he] at hv hf
      exact hf _ (frame_eq_some.mpr ⟨hv.1, rfl⟩)
    · rw [← he] at hv
      cases hv.1
  · cases h

/-- A read that does not begin in region 0 comes to an end, and stores to frames of the page table. -/
theorem readBytes_total {bytes : List UInt8} {a : Int} (ha : VMEM_1_BASE ≤ a % 2 ^ 32) :
    ∃ count k', readBytes p a bytes k = .ok (count, k') ∧
      ∀ f, (∀ j, (k.table p j).frame ≠ some f) → k'.pmem f = k.pmem f := by
  induction bytes generalizing a k with
  | nil => exact ⟨0, k, rfl, fun _ _ => rfl⟩
  | cons b bytes ih =>
    unfold readBytes
    rw [if_neg (by omega)]
    cases hstore : store k p (a % 2 ^ 32) b with
    | none => exact ⟨0, k, rfl, fun _ _ => rfl⟩
    | some k₁ =>
      have hregion := ((store_isSome b).mp (Option.isSome_iff_exists.mpr ⟨k₁, hstore⟩)).1
      have hnext : VMEM_1_BASE ≤ (a + 1) % 2 ^ 32 := by
        unfold VMEM_1_BASE VMEM_1_LIMIT at *
        omega
      obtain ⟨count, k', hrun, hmem⟩ := ih (k := k₁) hnext
      refine ⟨count + 1, k', by simp [hrun, bind, Except.bind], fun f hf => ?_⟩
      rw [hmem f, store_pmem hstore hf]
      rw [(store_memoryOnly hstore).table]
      exact hf

/-- Wherever only pages of `is` are mapped, the read comes to an end, and stores to these pages only. -/
def ReadsInto (p : PID) (a npg : u_long) (is : List Int) : Prop :=
  ∀ file k, (∀ j : Nat, (k.table p j).valid = true → (j : Int) ∈ is) →
    ∃ count k', readSegment p a npg file k = .ok (count, k') ∧
      ∀ f, (∀ j : Nat, (j : Int) ∈ is → (k.table p j).frame ≠ some f) → k'.pmem f = k.pmem f

/-- **A read stays in the mapped pages unless it begins in region 0.** -/
theorem readsInto_iff {a npg : u_long} {is : List Int} :
    ReadsInto p a npg is ↔ npg.toNat % 2 ^ 19 = 0 ∨ VMEM_1_BASE ≤ a.toNat := by
  have hsegment : segmentBytes npg = 0 ↔ npg.toNat % 2 ^ 19 = 0 := by
    have hmod := long_emod (npg.toNat * 8192)
    unfold segmentBytes segment_size
    omega
  constructor
  · intro h
    by_contra hnot
    rw [not_or] at hnot
    obtain ⟨hnpg, ha⟩ := hnot
    obtain ⟨count, k', hrun, -⟩ := h (some [0]) ((machine 0).modify p clearPageTable) fun j hj => by
      rw [Kernel.table, Kernel.proc_modify_self] at hj
      cases hj
    obtain ⟨n, hn⟩ := Nat.exists_eq_succ_of_ne_zero (mt hsegment.mp hnpg)
    unfold readSegment read at hrun
    dsimp only at hrun
    rw [hn, List.take_succ_cons] at hrun
    unfold readBytes at hrun
    rw [if_pos (by omega)] at hrun
    cases hrun
  · intro h file k hk
    have hother : ∀ f, (∀ j : Nat, (j : Int) ∈ is → (k.table p j).frame ≠ some f) →
        ∀ j, (k.table p j).frame ≠ some f := fun f hf j hj => hf j (hk j (frame_eq_some.mp hj).1) hj
    unfold readSegment read
    cases file with
    | none => exact ⟨_, k, rfl, fun _ _ => rfl⟩
    | some bytes =>
      dsimp only
      rcases h with hnpg | ha
      · rw [hsegment.mpr hnpg, List.take_zero]
        exact ⟨_, k, rfl, fun _ _ => rfl⟩
      · have ha' : VMEM_1_BASE ≤ (a.toNat : Int) % 2 ^ 32 := by
          have hlt := a.toNat_lt
          omega
        generalize bytes.take (segmentBytes npg) = bytes'
        obtain ⟨count, k', hrun, hmem⟩ := @readBytes_total p k bytes' a.toNat ha'
        rw [hrun]
        exact ⟨_, k', rfl, fun f hf => hmem f (hother f hf)⟩

/-! ## The page ranges -/

theorem pages_inTable {pg1 : Int} {n : Nat} :
    (∀ i ∈ pages pg1 n, InTable i) ↔ n = 0 ∨ 0 ≤ pg1 ∧ pg1 + n ≤ 128 := by
  constructor
  · intro h
    by_cases hn : n = 0
    · exact .inl hn
    · have hfirst := h pg1 (mem_pages.mpr (by omega))
      have hlast := h (pg1 + n - 1) (mem_pages.mpr (by omega))
      unfold InTable MAX_PT_LEN at hfirst hlast
      omega
  · intro h i hi
    rw [mem_pages] at hi
    unfold InTable MAX_PT_LEN
    omega

/-- Two ranges do not meet if one is empty or ends before the other. -/
theorem pages_disjoint {a b : Int} {n m : Nat} :
    (∀ i ∈ pages a n, i ∉ pages b m) ↔ n = 0 ∨ m = 0 ∨ a + n ≤ b ∨ b + m ≤ a := by
  constructor
  · intro h
    by_contra hnot
    have hmax := h (max a b) (mem_pages.mpr (by omega))
    rw [mem_pages] at hmax
    omega
  · intro h i hi hi'
    rw [mem_pages] at hi hi'
    omega

/-- The loader keeps to the table, to ranges that do not meet, and to the pages it has mapped. -/
structure LoadBounds (p : PID) (li : LoadInfo) (args : List (List UInt8)) : Prop where
  inTable : ∀ i ∈ loadPages li args, InTable i
  text_data : ∀ i ∈ li.textPages, i ∉ li.dataPages
  text_stack : ∀ i ∈ li.textPages, i ∉ stackPages args
  data_stack : ∀ i ∈ li.dataPages, i ∉ stackPages args
  text_read : ReadsInto p li.t_vaddr li.t_npg (loadPages li args)
  data_read : ReadsInto p li.id_vaddr li.id_npg (loadPages li args)

/-- The text leaves room for the data and for the stack, and no sum has wrapped. -/
structure Roomy (li : LoadInfo) (args : List (List UInt8)) : Prop where
  text_below : li.t_npg.toNat = 0 ∨ li.text_pg1 + li.t_npg.toNat ≤ 128 - max 0 (stack_npg args)
  text_apart : li.t_npg.toNat = 0 ∨ li.data_npg ≤ 0 ∨ li.text_pg1 + li.t_npg.toNat ≤ li.data_pg1 ∨
    li.data_pg1 + li.data_npg ≤ li.text_pg1
  data_end : li.data_npg ≤ 0 ∨ li.data_pg1 + li.data_npg ≤ 128
  stack : stack_npg args ≤ 128
  data_start : li.id_npg.toNat % 2 ^ 19 = 0 ∨ VMEM_1_BASE ≤ li.id_vaddr.toNat

/-- Three ranges of pages, the last one at the end of the table. -/
theorem ranges_iff {T D d s : Int} {t : Nat} (hT : 0 ≤ T) (hD : 0 ≤ D)
    (hlast : d ≤ 0 ∨ s ≤ 0 ∨ 128 < D + d ∨ s + D + d < 128) :
    ((∀ i ∈ pages T t ++ pages D d.toNat ++ pages (128 - s) s.toNat, InTable i) ∧
      (∀ i ∈ pages T t, i ∉ pages D d.toNat) ∧ (∀ i ∈ pages T t, i ∉ pages (128 - s) s.toNat) ∧
      ∀ i ∈ pages D d.toNat, i ∉ pages (128 - s) s.toNat) ↔
    (t = 0 ∨ T + t ≤ 128 - max 0 s) ∧ (t = 0 ∨ d ≤ 0 ∨ T + t ≤ D ∨ D + d ≤ T) ∧
      (d ≤ 0 ∨ D + d ≤ 128) ∧ s ≤ 128 := by
  rw [List.forall_mem_append, List.forall_mem_append, pages_inTable, pages_inTable, pages_inTable,
    pages_disjoint, pages_disjoint, pages_disjoint]
  omega

theorem text_pg1_range (li : LoadInfo) : 0 ≤ li.text_pg1 ∧
    (li.text_pg1 < 128 → VMEM_1_BASE ≤ li.t_vaddr.toNat) := by
  unfold LoadInfo.text_pg1 indexOfPage VMEM_1_BASE
  omega

theorem data_pg1_nonneg (li : LoadInfo) : 0 ≤ li.data_pg1 := by
  unfold LoadInfo.data_pg1 indexOfPage
  omega

theorem stack_npg_le (args : List (List UInt8)) : stack_npg args ≤ 262144 := by
  have hlong := (long_range (VMEM_1_LIMIT - DOWN_TO_PAGE (cp2 args))).2
  unfold stack_npg indexOfPage
  omega

/-- The check keeps the data below the stack, once its sum has not wrapped. -/
theorem Passes.data_below (h : Passes p prog li k) : li.data_npg ≤ 0 ∨ stack_npg prog.args ≤ 0 ∨
    128 < li.data_pg1 + li.data_npg ∨ stack_npg prog.args + li.data_pg1 + li.data_npg < 128 := by
  have hroom := h.room
  unfold MAX_PT_LEN at hroom
  have hD := data_pg1_nonneg li
  have hs := stack_npg_le prog.args
  generalize stack_npg prog.args = s at *
  by_contra hnot
  rw [long_of_range (by omega) (by omega)] at hroom
  omega

/-- **Past the checks, the mappings stay in bounds exactly if the text leaves room and nothing wraps.** -/
theorem load_bounds_iff (h : Passes p prog li k) : LoadBounds p li prog.args ↔ Roomy li prog.args := by
  have hranges := ranges_iff (t := li.t_npg.toNat) (text_pg1_range li).1 (data_pg1_nonneg li) h.data_below
  constructor
  · intro hb
    obtain ⟨hbelow, hapart, hend, hstack⟩ :=
      hranges.mp ⟨hb.inTable, hb.text_data, hb.text_stack, hb.data_stack⟩
    exact ⟨hbelow, hapart, hend, hstack, readsInto_iff.mp hb.data_read⟩
  · intro hr
    obtain ⟨hin, htd, hts, hds⟩ := hranges.mpr ⟨hr.text_below, hr.text_apart, hr.data_end, hr.stack⟩
    refine ⟨hin, htd, hts, hds, readsInto_iff.mpr ?_, readsInto_iff.mpr hr.data_start⟩
    by_cases hnone : li.t_npg.toNat = 0
    · exact .inl (by simp [hnone])
    · right
      have hend := hr.text_below.resolve_left hnone
      have hmax := le_max_left 0 (stack_npg prog.args)
      exact (text_pg1_range li).2 (by omega)

/-- The text of this file lies beyond region 1. -/
def farText : LoadInfo := { smallFile with t_vaddr := 0x300000, t_aligned := rfl }

/-- A program without arguments, from a file that can be read. -/
def fromFile (li : LoadInfo) : Program where
  opens := true
  info := some li
  args := []
  malloc := true
  text := some (List.replicate 16384 1)
  data := some (List.replicate 16384 2)
  strings := by simp
  heap := fun _ => by decide

/-- **Text beyond region 1 passes the checks, and is mapped outside the page table.** -/
theorem farText_out_of_bounds : ¬ ∀ (p : PID) (prog : Program) (li : LoadInfo) (k : Kernel),
    Passes p prog li k → LoadBounds p li prog.args := by
  intro hall
  have hpass : Passes 1 (fromFile farText) farText (machine 0) := ⟨rfl, rfl, rfl, by decide, by decide⟩
  have hpage := (hall 1 (fromFile farText) farText (machine 0) hpass).inTable 256 (by decide)
  revert hpage
  decide

/-- A small file stays in bounds. -/
theorem smallFile_in_bounds : LoadBounds 1 smallFile (fromFile smallFile).args :=
  (load_bounds_iff (k := machine 0) ⟨rfl, rfl, rfl, by decide, by decide⟩).mpr
    ⟨by decide, by decide, by decide, by decide, by decide⟩

end Yalnix.Whole
