import Yalnix.Whole.Loadable

/-!
# The arguments of a new program

* `Decodes` — a count, pointers to strings, two null pointers and zeros; `Fits.decodes`: the stores of
  the block put it there.
* `view`, `Private.storeAll` — on pages with frames of their own the stores of the kernel are writes to
  the memory that the program sees.
* `argument_block_decodes` — what the program finds at its stack pointer.
-/

set_option autoImplicit false

namespace Yalnix.Whole

open Bytes (Memory Patch Holds word put putAll wordBytes pointers stringBytes)

variable {p : PID} {prog : Program} {li : LoadInfo} {k k' : Kernel} {args : List (List UInt8)}
  {m : Memory} {l : List Nat} {leak : Nat → Nat} {a x lo : Int} {b : UInt8} {ws : List Patch}

/-! ## The block -/

/-- From `sp` on the memory holds the arguments. -/
structure Decodes (m : Memory) (sp : Int) (args : List (List UInt8)) : Prop where
  count : word m sp = args.length
  /-- Each pointer points behind the words, to its string and a zero. -/
  strings : ∀ i (hi : i < args.length), ∃ a : Nat, word m (sp + 4 * (i + 1 : Nat)) = a ∧
    Holds m a (args[i] ++ [0]) ∧ sp + 4 * (args.length + 3 + POST_ARGV_NULL_SPACE) ≤ a ∧
    a + args[i].length < VMEM_1_LIMIT
  nulls : word m (sp + 4 * (args.length + 1 : Nat)) = 0 ∧ word m (sp + 4 * (args.length + 2 : Nat)) = 0
  space : ∀ i : Nat, i < POST_ARGV_NULL_SPACE → word m (sp + 4 * (args.length + 3 + i : Nat)) = 0

/-- The words end before the strings begin. -/
theorem Fits.words (h : Fits args) :
    Whole.cpp args + 4 * (args.length + 3 + POST_ARGV_NULL_SPACE) ≤ Whole.cp args := by
  have hcpp := h.cpp
  rw [cp_eq h.size]
  unfold blockSize at hcpp
  unfold POST_ARGV_NULL_SPACE VMEM_1_LIMIT at *
  omega

/-- The stores after the count go behind it, to the words or to the strings. -/
theorem Fits.rest_within (h : Fits args) {w : Patch}
    (hw : w ∈ pointers (Whole.cpp args + 4) (Whole.cp args) args ++
      nullStores (Whole.cpp args + 4 + 4 * args.length)) :
    Whole.cpp args + 4 ≤ w.1 ∧
      (w.1 + w.2.length ≤ Whole.cpp args + 4 * (args.length + 3) ∨ Whole.cp args ≤ w.1) := by
  have hwords := h.words
  unfold POST_ARGV_NULL_SPACE at hwords
  rcases List.mem_append.mp hw with hw | hw
  · rcases Bytes.pointers_within hw with ⟨hlo, hhi⟩ | ⟨hlo, hhi⟩
    · omega
    · omega
  · obtain ⟨hlo, hhi⟩ := nullStores_within hw
    omega

/-- Each argument has its pointer and its string. -/
theorem Fits.strings (h : Fits args) (hcp₀ : 0 ≤ Whole.cp args) {i : Nat} (hi : i < args.length) :
    ∃ a : Nat, word (putAll m (pointers (Whole.cpp args + 4) (Whole.cp args) args ++
        nullStores (Whole.cpp args + 4 + 4 * args.length))) (Whole.cpp args + 4 * (i + 1 : Nat)) = a ∧
      Holds (putAll m (pointers (Whole.cpp args + 4) (Whole.cp args) args ++
        nullStores (Whole.cpp args + 4 + 4 * args.length))) a (args[i] ++ [0]) ∧
      Whole.cp args ≤ a ∧ a + args[i].length < VMEM_1_LIMIT := by
  have hwords := h.words
  have hcp := cp_eq h.size
  have htake := Bytes.stringBytes_take hi
  rw [argSize_eq] at hcp
  unfold POST_ARGV_NULL_SPACE at hwords
  unfold VMEM_1_LIMIT at hcp ⊢
  have hholds : Holds (putAll m (pointers (Whole.cpp args + 4) (Whole.cp args) args))
        (Whole.cpp args + 4 + 4 * i) (wordBytes (Whole.cp args + stringBytes (args.take i))) ∧
      Holds (putAll m (pointers (Whole.cpp args + 4) (Whole.cp args) args))
        (Whole.cp args + stringBytes (args.take i)) (args[i] ++ [0]) :=
    Bytes.pointers_hold (by omega) hi
  rw [Bytes.putAll_append]
  generalize putAll m (pointers (Whole.cpp args + 4) (Whole.cp args) args) = m₁ at *
  have hpointer := hholds.1.putAll fun w (hw : w ∈ nullStores (Whole.cpp args + 4 + 4 * args.length)) =>
    .inl (le_trans (by rw [Bytes.length_wordBytes]; omega) (nullStores_within hw).1)
  have hstring := hholds.2.putAll fun w (hw : w ∈ nullStores (Whole.cpp args + 4 + 4 * args.length)) =>
    .inr ((nullStores_within hw).2.trans (by omega))
  have hread := hpointer.word
  rw [Int.emod_eq_of_lt (by omega) (by omega)] at hread
  refine ⟨(Whole.cp args + stringBytes (args.take i)).toNat, ?_, ?_, by omega, by omega⟩
  · rw [show Whole.cpp args + 4 * ((i + 1 : Nat) : Int) = Whole.cpp args + 4 + 4 * i by push_cast; ring]
    omega
  · rw [Int.toNat_of_nonneg (by omega)]
    exact hstring

/-- The first store leaves zeros. -/
theorem Fits.cleared (h : Fits args) (hlo : Whole.cpp args ≤ x) (hhi : x < VMEM_1_LIMIT) :
    put m (clearStore args).1 (clearStore args).2 x = 0 := by
  have hclear := h.clear_length
  unfold clearStore at hclear ⊢
  dsimp only at hclear ⊢
  rw [List.length_replicate] at hclear
  exact Bytes.put_replicate hlo (by omega)

/-- **The stores of the block put it there.** -/
theorem Fits.decodes (h : Fits args) (hregion : VMEM_1_BASE ≤ Whole.cpp args) :
    Decodes (putAll m (blockStores args)) (Whole.cpp args) args := by
  have hwords := h.words
  have hcp := cp_eq h.size
  unfold VMEM_1_BASE at hregion
  unfold blockStores
  rw [Bytes.putAll_cons, Bytes.putAll_cons]
  dsimp only
  refine ⟨?_, fun i hi => ?_, ?_, fun i hi => ?_⟩
  · have hcount : Holds (put (put m (clearStore args).1 (clearStore args).2) (Whole.cpp args)
        (wordBytes (argcount args))) (Whole.cpp args) (wordBytes (argcount args)) := Bytes.holds_put
    have hread := (hcount.putAll fun w hw => .inl (h.rest_within hw).1).word
    unfold argcount POST_ARGV_NULL_SPACE VMEM_1_LIMIT at *
    omega
  · obtain ⟨a, hpointer, hstring, hlo, hhi⟩ := h.strings (by unfold POST_ARGV_NULL_SPACE at hwords; omega) hi
    exact ⟨a, hpointer, hstring, hwords.trans hlo, hhi⟩
  · rw [Bytes.putAll_append]
    generalize putAll _ (pointers (Whole.cpp args + 4) (Whole.cp args) args) = m₁
    have hfirst : Holds (putAll m₁ (nullStores (Whole.cpp args + 4 + 4 * args.length)))
        (Whole.cpp args + 4 + 4 * args.length) (wordBytes 0) :=
      Bytes.holds_put.put (by rw [Bytes.length_wordBytes]; omega)
    have hsecond : Holds (putAll m₁ (nullStores (Whole.cpp args + 4 + 4 * args.length)))
        (Whole.cpp args + 4 + 4 * args.length + 4) (wordBytes 0) := Bytes.holds_put
    have hread := hfirst.word
    have hread' := hsecond.word
    constructor
    · rw [show Whole.cpp args + 4 * ((args.length + 1 : Nat) : Int) = Whole.cpp args + 4 + 4 * args.length by
        push_cast
        ring]
      omega
    · rw [show Whole.cpp args + 4 * ((args.length + 2 : Nat) : Int) =
          Whole.cpp args + 4 + 4 * args.length + 4 by
        push_cast
        ring]
      omega
  · refine Bytes.word_eq_zero fun x hlo hhi => ?_
    unfold POST_ARGV_NULL_SPACE at hi hwords
    -- nothing but the first store goes there
    rw [Bytes.putAll_outside, Bytes.put_outside]
    · exact h.cleared (by omega) (by omega)
    · rw [Bytes.length_wordBytes]
      omega
    · intro w hw
      have hw' := h.rest_within hw
      omega

/-! ## Memory as a program sees it -/

/-- What `p` reads at an address. -/
def view (k : Kernel) (p : PID) : Memory := fun a => (load k p a).getD 0

/-- From `lo` to the end of region 1 each page can be read and written, and has a frame of its own. -/
structure Private (p : PID) (lo : Int) (k : Kernel) : Prop where
  region : VMEM_1_BASE ≤ lo
  mapped : ∀ a, lo ≤ a → a < VMEM_1_LIMIT → (k.table p (userPage a)).valid = true ∧
    (k.table p (userPage a)).readable = true ∧ (k.table p (userPage a)).writable = true
  own : ∀ a a', lo ≤ a → a < VMEM_1_LIMIT → lo ≤ a' → a' < VMEM_1_LIMIT →
    (k.table p (userPage a)).pfn = (k.table p (userPage a')).pfn → userPage a = userPage a'

theorem Private.memoryOnly (h : Private p lo k) (hk : MemoryOnly k k') : Private p lo k' := by
  obtain ⟨hregion, hmapped, hown⟩ := h
  rw [← hk.table] at hmapped hown
  exact ⟨hregion, hmapped, hown⟩

theorem Private.load (h : Private p lo k) (hlo : lo ≤ x) (hhi : x < VMEM_1_LIMIT) :
    Yalnix.load k p x = some (k.pmem (k.table p (userPage x)).pfn (pageOffset x)) := by
  obtain ⟨hv, hr, -⟩ := h.mapped x hlo hhi
  unfold Yalnix.load
  rw [userEntry_of_range (h.region.trans hlo) hhi]
  dsimp only
  rw [hv, hr]
  rfl

theorem Private.view (h : Private p lo k) (hlo : lo ≤ x) (hhi : x < VMEM_1_LIMIT) :
    Whole.view k p x = k.pmem (k.table p (userPage x)).pfn (pageOffset x) := by
  unfold Whole.view
  rw [h.load hlo hhi]
  rfl

/-- **A store changes one byte of what the program sees.** -/
theorem Private.store (h : Private p lo k) (hlo : lo ≤ a) (hhi : a < VMEM_1_LIMIT)
    (hstore : store k p a b = some k') :
    Set.EqOn (Whole.view k' p) (Function.update (Whole.view k p) a b) {x | lo ≤ x ∧ x < VMEM_1_LIMIT} := by
  obtain ⟨hv, -, hw⟩ := h.mapped a hlo hhi
  have h' := h.memoryOnly (store_memoryOnly hstore)
  rw [store_of_writable (h.region.trans hlo) hhi hv hw] at hstore
  cases hstore
  rintro x ⟨hxlo, hxhi⟩
  rw [h'.view hxlo hxhi, table_poke]
  unfold Kernel.poke
  dsimp only
  by_cases hxa : x = a
  · rw [hxa, Function.update_self, Function.update_self, Function.update_self]
  · rw [Function.update_of_ne hxa, h.view hxlo hxhi]
    by_cases hframe : (k.table p (userPage x)).pfn = (k.table p (userPage a)).pfn
    · have hoffset := pageOffset_ne (h.region.trans hxlo) (h.region.trans hlo)
        (h.own x a hxlo hxhi hlo hhi hframe) hxa
      rw [hframe, Function.update_self, Function.update_of_ne hoffset]
    · rw [Function.update_of_ne hframe]

theorem Private.copyOut {bytes : List UInt8} (h : Private p lo k) (hlo : lo ≤ a)
    (hhi : a + bytes.length ≤ VMEM_1_LIMIT) (hrun : copyOut p a bytes k = some k') :
    Set.EqOn (Whole.view k' p) (put (Whole.view k p) a bytes) {x | lo ≤ x ∧ x < VMEM_1_LIMIT} := by
  induction bytes generalizing a k with
  | nil =>
    cases hrun
    rw [Bytes.put_nil]
    exact fun x _ => rfl
  | cons b bytes ih =>
    rw [List.length_cons] at hhi
    have hregion := h.region
    unfold VMEM_1_BASE at hregion
    have hmod : a % 2 ^ 32 = a := by
      unfold VMEM_1_LIMIT at hhi
      exact Int.emod_eq_of_lt (by omega) (by omega)
    obtain ⟨k₁, hstore, hrun⟩ := Option.bind_eq_some_iff.mp hrun
    rw [hmod] at hstore
    rw [Bytes.put_cons]
    exact (ih (h.memoryOnly (store_memoryOnly hstore)) (by omega) (by omega) hrun).trans
      (Bytes.put_congr (h.store hlo (by omega) hstore))

/-- **Stores of the kernel are writes to what the program sees.** -/
theorem Private.storeAll (h : Private p lo k) (hws : ∀ w ∈ ws, Bytes.Within lo VMEM_1_LIMIT w)
    (hrun : storeAll p ws k = .ok k') :
    Set.EqOn (Whole.view k' p) (putAll (Whole.view k p) ws) {x | lo ≤ x ∧ x < VMEM_1_LIMIT} := by
  induction ws generalizing k with
  | nil =>
    cases hrun
    exact fun x _ => rfl
  | cons w ws ih =>
    obtain ⟨hw, hws⟩ := List.forall_mem_cons.mp hws
    obtain ⟨k₁, hstore, hrun⟩ := bind_ok hrun
    have hfirst := h.copyOut hw.1 hw.2 (kernelStore_ok.mp hstore)
    exact (ih (h.memoryOnly (kernelStore_memoryOnly hstore)) hws hrun).trans (Bytes.putAll_congr hfirst)

/-! ## The stack of the new program -/

/-- **Where the block is built, each page of the stack is mapped on a frame of its own.** -/
theorem Image.stack (himage : Image p prog li k k') (h : Bounded k leak l) (hp : Running k p) :
    ∃ k₆, Private p (cpp prog.args) k₆ ∧ buildArguments p prog.args k₆ = .ok k' := by
  have hfits := fits_of_saved himage.malloc himage.saved
  have hin := himage.inTable
  have hregion := (hfits.region fun i hi => hin i (mem_loadPages_stack hi)).1
  obtain ⟨s₄, s₅, k₃, k₄, k₅, h₃, ⟨h₄, -⟩, ⟨h₅, -⟩, h₆⟩ := himage.states
  obtain ⟨l₀, hlist, -⟩ := cleared_list li prog.args h hp
  obtain ⟨k₂, h₂, h₃⟩ := mapFrames_append h₃
  have hlist₂ := (mapFrames_spec hlist h₂).1.list
  have hnodup := hlist₂.nodup
  have hframes := mapFrames_frames hlist₂ (nodup_pages _ _) (by decide) h₃
  generalize l₀.drop _ = l₁ at hframes hnodup
  have hmemory := (readSegment_memoryOnly h₄).trans (readSegment_memoryOnly h₅)
  obtain ⟨k₁, hprotect, h₆⟩ := bind_ok h₆
  rw [protectText_eq (inTable_text hin)] at hprotect
  cases hprotect
  obtain ⟨k₆, hclear, hbuild⟩ := bind_ok h₆
  have htable : ∀ j : Nat, (k₆.modify p (setPc li.entry.toNat)).table p j =
      if li.text_pg1 ≤ j ∧ (j : Int) < li.text_pg1 + li.t_npg.toNat then textEntry (k₃.table p j)
      else k₃.table p j := by
    intro j
    have hk₆ := (kernelStore_memoryOnly hclear).table p
    rw [← hmemory.table, ← table_protectPages, ← hk₆]
    unfold Kernel.table
    rw [Kernel.proc_modify_self]
    rfl
  have hstorable := (buildArguments_iff hfits prog.strings).mp ⟨k', hbuild⟩
  -- a page that can be stored to is not text
  have hpage : ∀ a, cpp prog.args ≤ a → a < VMEM_1_LIMIT → ∃ n, ∃ hl : n < l₁.length,
      (stackPages prog.args)[n]? = some (indexOfPage (a - VMEM_1_BASE)) ∧
      (k₆.modify p (setPc li.entry.toNat)).table p (userPage a) = createPTEWithOptions data_options l₁[n] := by
    intro a hlo hhi
    have hmod : a % 2 ^ 32 = a := by
      unfold VMEM_1_BASE at hregion
      unfold VMEM_1_LIMIT at hhi
      exact Int.emod_eq_of_lt (by omega) (by omega)
    obtain ⟨-, -, hw⟩ := hstorable a hlo hhi
    rw [hmod] at hw
    obtain ⟨n, hl, hn, hentry⟩ := hframes _ (hfits.inStack hlo hhi)
    refine ⟨n, hl, hn, ?_⟩
    rw [htable] at hw ⊢
    split at hw
    · rw [(textEntry_flags _).2.2.2.1] at hw
      cases hw
    · rename_i hnot
      rw [if_neg hnot]
      exact hentry
  refine ⟨_, ⟨hregion, fun a hlo hhi => ?_, fun a a' hlo hhi hlo' hhi' hpfn => ?_⟩, hbuild⟩
  · obtain ⟨n, hl, -, hentry⟩ := hpage a hlo hhi
    rw [hentry]
    exact ⟨(data_flags _).1, (data_flags _).2.2.1, (data_flags _).2.1⟩
  · obtain ⟨n, hl, hn, hentry⟩ := hpage a hlo hhi
    obtain ⟨n', hl', hn', hentry'⟩ := hpage a' hlo' hhi'
    rw [hentry, hentry', pfn_create, pfn_create] at hpfn
    obtain rfl := (hnodup.getElem_inj_iff).mp hpfn
    unfold userPage
    rw [Option.some.inj (hn.symm.trans hn')]

/-- The arguments as the program finds them, and where they were stored. -/
structure ArgumentBlock (p : PID) (args : List (List UInt8)) (k' : Kernel) (sp : Int) : Prop where
  aligned : sp % 8 = 0
  decodes : Decodes (view k' p) sp args
  /-- The stack is mapped from the block to the end of region 1. -/
  mapped : ∀ a, sp ≤ a → a < VMEM_1_LIMIT →
    indexOfPage (a - VMEM_1_BASE) ∈ stackPages args ∧ (load k' p a).isSome = true
  /-- Building the block is a list of stores, and each byte goes there. -/
  stores : ∀ k, buildArguments p args k = storeAll p (blockStores args) k
  within : ∀ w ∈ blockStores args, ∀ i < w.2.length, sp ≤ w.1 + i ∧ w.1 + i < VMEM_1_LIMIT

/-- What is below the block does not matter. -/
theorem Decodes.congr {m' : Memory} {sp : Int} (h : Decodes m sp args)
    (hend : sp + 4 * (args.length + 3 + POST_ARGV_NULL_SPACE) ≤ VMEM_1_LIMIT)
    (hm : Set.EqOn m' m {x | sp ≤ x ∧ x < VMEM_1_LIMIT}) : Decodes m' sp args := by
  unfold POST_ARGV_NULL_SPACE at hend
  have hword : ∀ a, sp ≤ a → a + 4 ≤ VMEM_1_LIMIT → word m' a = word m a := by
    intro a hlo hhi
    refine Bytes.word_congr fun x hx hx' => hm ⟨hlo.trans hx, ?_⟩
    omega
  refine ⟨?_, fun i hi => ?_, ⟨?_, ?_⟩, fun i hi => ?_⟩
  · rw [hword _ le_rfl (by omega)]
    exact h.count
  · obtain ⟨a, hpointer, hstring, hlo, hhi⟩ := h.strings i hi
    refine ⟨a, ?_, hstring.congr fun x hx hx' => hm ⟨?_, ?_⟩, hlo, hhi⟩
    · rw [hword _ (by omega) (by omega)]
      exact hpointer
    · unfold POST_ARGV_NULL_SPACE at hlo
      omega
    · rw [Bytes.length_terminated] at hx'
      omega
  · rw [hword _ (by omega) (by omega)]
    exact h.nulls.1
  · rw [hword _ (by omega) (by omega)]
    exact h.nulls.2
  · unfold POST_ARGV_NULL_SPACE at hi
    rw [hword _ (by omega) (by omega)]
    exact h.space i hi

/-- **After a load that succeeds the program finds its arguments at the stack pointer.** -/
theorem argument_block_decodes (h : Bounded k leak l) (hp : Running k p)
    (hrun : loadProgram p prog k = .ok (SUCCESS, k')) :
    ArgumentBlock p prog.args k' (k'.proc p).user_context.sp := by
  obtain ⟨li, himage⟩ := loadProgram_success.mp hrun
  have hfits := fits_of_saved himage.malloc himage.saved
  have hsp : (k'.proc p).user_context.sp = cpp prog.args := by
    obtain ⟨table, hproc⟩ := himage.proc
    rw [hproc]
    exact sub_zero _
  rw [hsp]
  obtain ⟨k₆, hprivate, hbuild⟩ := himage.stack h hp
  have hprivate' := hprivate.memoryOnly (buildArguments_memoryOnly hbuild)
  have hstores := hbuild
  rw [buildArguments_eq prog.strings] at hstores
  have hwithin : ∀ w ∈ blockStores prog.args, Bytes.Within (cpp prog.args) VMEM_1_LIMIT w :=
    fun w hw => hfits.block_within hw
  refine ⟨?_, ?_, fun a hlo hhi => ⟨hfits.inStack hlo hhi, ?_⟩, fun k => buildArguments_eq prog.strings,
    fun w hw i hi => ?_⟩
  · rw [hfits.cpp]
    omega
  · have hblock : Decodes (putAll (view k₆ p) (blockStores prog.args)) (cpp prog.args) prog.args :=
      hfits.decodes hprivate.region
    refine hblock.congr (hfits.words.trans ?_) (hprivate.storeAll hwithin hstores)
    rw [cp_eq hfits.size]
    omega
  · rw [hprivate'.load hlo hhi]
    rfl
  · obtain ⟨hlo, hhi⟩ := hwithin w hw
    omega

/-- `smallFile` with the arguments `hi` and the empty string. -/
def greeting : Program :=
  { fromFile smallFile with
    args := [[104, 105], []]
    strings := by decide
    heap := fun _ => by decide }

/-- Its arguments can be read back. -/
theorem greeting_decodes : ∃ k', loadProgram 1 greeting (machine 3) = .ok (SUCCESS, k') ∧
    ArgumentBlock 1 greeting.args k' (k'.proc 1).user_context.sp := by
  obtain ⟨l, hcounts, -⟩ := machine_countsExact (N := 3) (by omega)
  have hloads : ∃ k', loadProgram 1 greeting (machine 3) = .ok (SUCCESS, k') :=
    file_loads (by omega) ⟨rfl, rfl, rfl, by decide, by decide⟩ rfl ⟨rfl, rfl⟩ (by decide) (by decide)
      (by decide) (by decide) (by decide) (smallFile_bss greeting.args) (by decide)
  obtain ⟨k', hrun⟩ := hloads
  exact ⟨k', hrun, argument_block_decodes hcounts.bounded (running_machine (by omega)) hrun⟩

end Yalnix.Whole
