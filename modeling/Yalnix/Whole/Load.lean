import Yalnix.Memory.Supply
import Yalnix.Whole.Pointers

/-!
# Loading a program

`loadProgram`, with what it meets outside the kernel as a `Program`: the file, the arguments, and the
results of `malloc` and `read`.

* `LoadInfo` — what `LoadInfo` says about a file; nothing is known about the page counts.
* `cp`, `cpp`, `stack_npg` — the numbers that are worked out from the arguments, before any check.
* `loadProgram` — the checks, and `loadSegments`, from which there is no way back.
* `Passes`, `loadProgram_passes` — how far the checks go.
* `Image`, `loadProgram_success` — the states that a load goes through that succeeds.
* `MemoryOnly` — reads and stores change nothing but the contents of frames.
-/

set_option autoImplicit false

namespace Yalnix.Whole

/-- Words kept clear after the two null pointers, if `LINUX` is defined. -/
def POST_ARGV_NULL_SPACE : Int := 0x20

/-- Bytes kept free below the arguments, if `LINUX` is defined. -/
def INITIAL_STACK_FRAME_SIZE : Int := 0

abbrev u_long := UInt32

/-! ## The program -/

/-- `struct load_info`.  Segments begin at page boundaries. -/
structure LoadInfo where
  entry : u_long
  t_vaddr : u_long
  t_npg : u_long
  id_vaddr : u_long
  id_npg : u_long
  id_end : u_long
  ud_npg : u_long
  ud_end : u_long
  t_aligned : t_vaddr.toNat % 8192 = 0
  id_aligned : id_vaddr.toNat % 8192 = 0

/-- The bytes of the arguments, with their terminators. -/
def argSize (args : List (List UInt8)) : Nat := (args.map fun arg => arg.length + 1).sum

/-- What the call meets outside the kernel. -/
structure Program where
  /-- The file can be opened. -/
  opens : Bool
  /-- The header, if `LoadInfo` accepts it. -/
  info : Option LoadInfo
  args : List (List UInt8)
  /-- `malloc` finds room for the arguments. -/
  malloc : Bool
  /-- The bytes that the calls of `read` find, or an error. -/
  text : Option (List UInt8)
  data : Option (List UInt8)
  /-- A string ends where its first zero is. -/
  strings : ∀ arg ∈ args, (0 : UInt8) ∉ arg
  /-- The heap of the kernel lies in region 0. -/
  heap : malloc = true → argSize args % 2 ^ 32 < VMEM_REGION_SIZE

/-! ## Where things go -/

namespace LoadInfo

variable (li : LoadInfo)

/-- `(li.t_vaddr - VMEM_1_BASE) >> PAGESHIFT`, a shift of an unsigned difference. -/
def text_pg1 : Int := indexOfPage ((li.t_vaddr.toNat - VMEM_1_BASE) % 2 ^ 32)

def data_pg1 : Int := indexOfPage ((li.id_vaddr.toNat - VMEM_1_BASE) % 2 ^ 32)

def data_npg : Int := long (li.id_npg.toNat + li.ud_npg.toNat)

/-- The value of `data_start`. -/
def data_start : Int := long (li.data_pg1 * 8192 + VMEM_1_BASE)

/-- The value of `heap_start` and of `current_brk`. -/
def heap_start : Int := long ((li.data_pg1 + li.data_npg) * 8192 + VMEM_1_BASE)

/-- The pages of the loops over text and data. -/
def textPages : List Int := pages li.text_pg1 li.t_npg.toNat

def dataPages : List Int := pages li.data_pg1 li.data_npg.toNat

end LoadInfo

section Arguments

variable (args : List (List UInt8))

/-- What the loop over the arguments adds up. -/
def size : Int := long (argSize args)

def argcount : Int := args.length

def cp : Int := long (VMEM_1_LIMIT - size args)

/-- Rounded down to a double word. -/
def cpp : Int :=
  let a := long (cp args - (argcount args + 3 + POST_ARGV_NULL_SPACE) * 4)
  a - a % 8

/-- The new stack pointer. -/
def cp2 : Int := cpp args - INITIAL_STACK_FRAME_SIZE

def stack_npg : Int := indexOfPage (long (VMEM_1_LIMIT - DOWN_TO_PAGE (cp2 args)))

def stack_pg1 : Int := indexOfPage VMEM_REGION_SIZE - stack_npg args

/-- The pages of the loop over the stack. -/
def stackPages : List Int := pages (stack_pg1 args) (stack_npg args).toNat

end Arguments

/-- The pages that the loader maps. -/
def loadPages (li : LoadInfo) (args : List (List UInt8)) : List Int :=
  li.textPages ++ li.dataPages ++ stackPages args

/-! ## Reads and stores of the kernel -/

/-- Bytes come in one after the other, up to the first that cannot be stored.  In region 0 they would
overwrite the kernel. -/
def readBytes (p : PID) : Int → List UInt8 → Kernel → Except Stop (Nat × Kernel)
  | _, [], k => .ok (0, k)
  | a, b :: bytes, k =>
    if a % 2 ^ 32 < VMEM_1_BASE then .error .fault
    else
      match store k p (a % 2 ^ 32) b with
      | none => .ok (0, k)
      | some k => do
        let (count, k) ← readBytes p (a + 1) bytes k
        .ok (count + 1, k)

/-- `read(fd, a, n)`. -/
def read (p : PID) (a : Int) (n : Nat) (file : Option (List UInt8)) (k : Kernel) :
    Except Stop (Int × Kernel) :=
  match file with
  | none => .ok (-1, k)
  | some bytes => do
    let (count, k) ← readBytes p a (bytes.take n) k
    .ok (if count = 0 ∧ bytes.take n ≠ [] then -1 else count, k)

/-- `npg << PAGESHIFT`. -/
def segment_size (npg : u_long) : Int := long (npg.toNat * 8192)

/-- The size as the `size_t` that `read` is given. -/
def segmentBytes (npg : u_long) : Nat := (segment_size npg % 2 ^ 32).toNat

/-- `if (read(fd, a, segment_size) != segment_size) return KILL;` -/
def readSegment (p : PID) (a npg : u_long) (file : Option (List UInt8)) (k : Kernel) :
    Except Stop (Int × Kernel) := do
  let (count, k) ← read p a.toNat (segmentBytes npg) file k
  .ok (if count ≠ segment_size npg then KILL else SUCCESS, k)

/-- The kernel stores through the page table of the process it runs for.  It cannot handle a trap of
its own. -/
def kernelStore (p : PID) (a : Int) (bytes : List UInt8) (k : Kernel) : Except Stop Kernel :=
  match copyOut p a bytes k with
  | none => .error .fault
  | some k => .ok k

/-- `memset(a, 0, n)`; the length is a `size_t`. -/
def clearBytes (p : PID) (a n : Int) (k : Kernel) : Except Stop Kernel :=
  kernelStore p a (List.replicate (n % 2 ^ 32).toNat 0) k

/-- The text becomes readable and executable, but not writable. -/
def protectText (p : PID) (li : LoadInfo) : Kernel → Except Stop Kernel :=
  Loop.forRange 0 li.t_npg.toNat fun i k => do
    let old_entry ← k.entry p (li.text_pg1 + i)
    k.setEntry p (li.text_pg1 + i) (createPTEWithOptions text_options old_entry.pfn)

/-- What `strcpy` copies of `cp2`, and `strlen` counts. -/
def cString (cp2 : List UInt8) : List UInt8 := cp2.takeWhile (· ≠ 0)

/-- The loop that sets `argv[i]` and copies the argument from `argbuf`, and the two null pointers after
it. -/
def copyArguments (p : PID) : Int → Int → Nat → List UInt8 → Kernel → Except Stop Kernel
  | cpp, _, 0, _, k => do
    let k ← kernelStore p cpp (intBytes 0) k
    kernelStore p (cpp + 4) (intBytes 0) k
  | cpp, cp, n + 1, cp2, k => do
    let k ← kernelStore p cpp (intBytes cp) k
    let k ← kernelStore p cp (cString cp2 ++ [0]) k
    copyArguments p (cpp + 4) (cp + ((cString cp2).length + 1 : Nat)) n
      (cp2.drop ((cString cp2).length + 1)) k

/-- What the loop of `strcpy` leaves in `argbuf`. -/
def argbuf (args : List (List UInt8)) : List UInt8 := args.flatMap fun arg => arg ++ [0]

/-- That loop; `argbuf` has room for `size` bytes. -/
def saveArguments (args : List (List UInt8)) : Except Stop Unit :=
  if size args < argSize args then .error .fault else .ok ()

/-! ## The call -/

/-- Go on, unless the process is to be killed. -/
def orKill (x : Except Stop (Int × Kernel)) (rest : Kernel → Except Stop (Int × Kernel)) :
    Except Stop (Int × Kernel) := do
  let (status, k) ← x
  if status = KILL then .ok (KILL, k) else rest k

/-- `process->user_context.sp = sp`. -/
def setSp (sp : Int) (P : Process) : Process :=
  { P with user_context := { P.user_context with sp := sp } }

/-- `process->user_context.pc = pc`. -/
def setPc (pc : Int) (P : Process) : Process :=
  { P with user_context := { P.user_context with pc := pc } }

/-- The three fields of `ProcessInfo`. -/
def setInfo (li : LoadInfo) (P : Process) : Process :=
  { P with info := ⟨li.data_start, li.heap_start, li.heap_start⟩ }

/-- The argument block. -/
def buildArguments (p : PID) (args : List (List UInt8)) (k : Kernel) : Except Stop Kernel := do
  let k ← clearBytes p (cpp args) (VMEM_1_LIMIT - cpp args) k
  let k ← kernelStore p (cpp args) (intBytes (argcount args)) k
  copyArguments p (cpp args + 4) (cp args) args.length (argbuf args) k

/-- What comes after the segments have been read. -/
def finishLoad (p : PID) (li : LoadInfo) (args : List (List UInt8)) (k : Kernel) : Except Stop Kernel := do
  let k ← protectText p li k
  let k ← clearBytes p li.id_end.toNat (li.ud_end.toNat - li.id_end.toNat) k
  buildArguments p args (k.modify p (setPc li.entry.toNat))

/-- All that follows `freeAddressSpace`. -/
def loadSegments (p : PID) (li : LoadInfo) (prog : Program) (k : Kernel) : Except Stop (Int × Kernel) :=
  orKill (mapFrames p KILL li.textPages (k.modify p (setInfo li))) fun k =>
  orKill (mapFrames p KILL li.dataPages k) fun k =>
  orKill (mapFrames p KILL (stackPages prog.args) k) fun k =>
  orKill (readSegment p li.t_vaddr li.t_npg prog.text k) fun k =>
  orKill (readSegment p li.id_vaddr li.id_npg prog.data k) fun k => do
    let k ← finishLoad p li prog.args k
    .ok (SUCCESS, k)

def loadProgram (p : PID) (prog : Program) (k : Kernel) : Except Stop (Int × Kernel) :=
  if (k.proc p).thread_leader.isSome then .ok (ERROR, k)
  else if !prog.opens then .ok (ERROR, k)
  else
    match prog.info with
    | none => .ok (-1, k)
    | some li =>
      if li.entry.toNat < VMEM_1_BASE then .ok (ERROR, k)
      else if long (stack_npg prog.args + li.data_pg1 + li.data_npg) ≥ MAX_PT_LEN then .ok (ERROR, k)
      else
        let k := k.modify p (setSp (cp2 prog.args))
        if !prog.malloc then .ok (ERROR, k)
        else do
          saveArguments prog.args
          let k ← freeAddressSpace p k
          loadSegments p li prog k

/-- The case `YALNIX_EXEC` of `trapKernel`: the caller goes on with its saved context, whatever the
result. -/
def trapExec (p : PID) (context : UserContext) (prog : Program) (k : Kernel) : Except Stop (Int × Kernel) := do
  let (result, k) ← loadProgram p prog (saveUserContext p context k)
  .ok (result, k.modify p fun P => { P with
    user_context := { P.user_context with regs := Function.update P.user_context.regs 0 result } })

/-! ## Inversion -/

variable {p : PID} {prog : Program} {li : LoadInfo} {k k' k₁ : Kernel} {a : Int} {bytes : List UInt8} {r : Int}

/-- What came before has killed the process, or the load has gone on. -/
theorem orKill_ok {x : Except Stop (Int × Kernel)} {rest : Kernel → Except Stop (Int × Kernel)}
    (h : orKill x rest = .ok (r, k')) : ∃ s k₁, x = .ok (s, k₁) ∧
      (s = KILL ∧ r = KILL ∧ k' = k₁ ∨ s ≠ KILL ∧ rest k₁ = .ok (r, k')) := by
  obtain ⟨⟨s, k₁⟩, hx, h⟩ := bind_ok h
  dsimp only at h
  split at h
  · rename_i hs
    rw [Except.ok.injEq, Prod.mk.injEq] at h
    exact ⟨s, k₁, hx, .inl ⟨hs, h.1.symm, h.2.symm⟩⟩
  · rename_i hs
    exact ⟨s, k₁, hx, .inr ⟨hs, h⟩⟩

/-- A load that succeeds has gone on. -/
theorem orKill_success {x : Except Stop (Int × Kernel)} {rest : Kernel → Except Stop (Int × Kernel)} :
    orKill x rest = .ok (SUCCESS, k') ↔
      ∃ status k₁, x = .ok (status, k₁) ∧ status ≠ KILL ∧ rest k₁ = .ok (SUCCESS, k') := by
  constructor
  · intro h
    obtain ⟨status, k₁, hx, ⟨-, hkill, -⟩ | ⟨hne, h⟩⟩ := orKill_ok h
    · cases hkill
    · exact ⟨status, k₁, hx, hne, h⟩
  · rintro ⟨status, k₁, rfl, hne, h⟩
    exact (if_neg hne).trans h

theorem orKill_assoc (x : Except Stop (Int × Kernel)) (f g : Kernel → Except Stop (Int × Kernel)) :
    orKill (orKill x f) g = orKill x fun k => orKill (f k) g := by
  cases x with
  | error e => rfl
  | ok r =>
    change orKill (if r.1 = KILL then .ok (KILL, r.2) else f r.2) g =
      if r.1 = KILL then .ok (KILL, r.2) else orKill (f r.2) g
    split
    · rfl
    · rfl

/-- One loop after the other is one loop. -/
theorem orKill_mapFrames (is js : List Int) (k : Kernel) :
    orKill (mapFrames p KILL is k) (mapFrames p KILL js) = mapFrames p KILL (is ++ js) k := by
  induction is generalizing k with
  | nil => rfl
  | cons i is ih =>
    rw [List.cons_append, mapFrames_cons, mapFrames_cons]
    split
    · rfl
    · by_cases hi : InTable i
      · rw [setEntry_inTable hi]
        exact ih _
      · rw [setEntry_outside hi]
        rfl

/-- The pages of `js` are mapped after those of `is`. -/
theorem mapFrames_append {is js : List Int} (h : mapFrames p KILL (is ++ js) k = .ok (SUCCESS, k')) :
    ∃ k₁, mapFrames p KILL is k = .ok (SUCCESS, k₁) ∧ mapFrames p KILL js k₁ = .ok (SUCCESS, k') := by
  rw [← orKill_mapFrames] at h
  obtain ⟨s, k₁, h₁, hs, h⟩ := orKill_success.mp h
  rw [(mapFrames_status h₁).resolve_right hs] at h₁
  exact ⟨k₁, h₁, h⟩

/-- The reads, and what comes after them. -/
def readSegments (p : PID) (li : LoadInfo) (prog : Program) (k : Kernel) : Except Stop (Int × Kernel) :=
  orKill (readSegment p li.t_vaddr li.t_npg prog.text k) fun k =>
  orKill (readSegment p li.id_vaddr li.id_npg prog.data k) fun k => do
    let k ← finishLoad p li prog.args k
    .ok (SUCCESS, k)

/-- **The three loops are one.** -/
theorem loadSegments_eq (p : PID) (li : LoadInfo) (prog : Program) (k : Kernel) : loadSegments p li prog k =
    orKill (mapFrames p KILL (loadPages li prog.args) (k.modify p (setInfo li))) (readSegments p li prog) := by
  unfold loadPages
  rw [← orKill_mapFrames, ← orKill_mapFrames, orKill_assoc, orKill_assoc]
  rfl

/-- The checks let the call pass. -/
structure Passes (p : PID) (prog : Program) (li : LoadInfo) (k : Kernel) : Prop where
  leader : (k.proc p).thread_leader = none
  opens : prog.opens = true
  info : prog.info = some li
  entry : VMEM_1_BASE ≤ li.entry.toNat
  room : long (stack_npg prog.args + li.data_pg1 + li.data_npg) < MAX_PT_LEN

/-- **A call that the checks let pass.** -/
theorem loadProgram_passes (h : Passes p prog li k) : loadProgram p prog k =
    if prog.malloc = true then do
      saveArguments prog.args
      let k ← freeAddressSpace p (k.modify p (setSp (cp2 prog.args)))
      loadSegments p li prog k
    else .ok (ERROR, k.modify p (setSp (cp2 prog.args))) := by
  obtain ⟨hleader, hopens, hinfo, hentry, hroom⟩ := h
  unfold loadProgram
  rw [hleader, hopens, hinfo]
  dsimp only
  rw [if_neg (by decide), if_neg (by decide), if_neg (by omega), if_neg (by omega)]
  cases hmalloc : prog.malloc with
  | true => rw [if_neg (by decide), if_pos rfl]
  | false => rw [if_pos (by decide), if_neg (by decide)]

/-- **A call that they do not changes nothing.** -/
theorem loadProgram_refused (h : ∀ li, ¬ Passes p prog li k) : loadProgram p prog k = .ok (ERROR, k) := by
  unfold loadProgram
  split
  · rfl
  · rename_i hleader
    split
    · rfl
    · rename_i hopens
      cases hinfo : prog.info with
      | none => rfl
      | some li =>
        dsimp only
        split
        · rfl
        · split
          · rfl
          · refine absurd ⟨?_, ?_, hinfo, by omega, by omega⟩ (h li)
            · simpa using hleader
            · simpa using hopens

/-- The address space has been given back. -/
def freed (p : PID) (k : Kernel) : Kernel := (freeAll (mappedFrames k p 128) k).modify p clearPageTable

/-- The state in which the loops begin to map pages. -/
def cleared (p : PID) (li : LoadInfo) (args : List (List UInt8)) (k : Kernel) : Kernel :=
  (freed p (k.modify p (setSp (cp2 args)))).modify p (setInfo li)

/-- The states of a load that succeeds. -/
structure Image (p : PID) (prog : Program) (li : LoadInfo) (k k' : Kernel) : Prop where
  passes : Passes p prog li k
  malloc : prog.malloc = true
  saved : argSize prog.args ≤ size prog.args
  states : ∃ s₄ s₅ k₃ k₄ k₅,
    mapFrames p KILL (loadPages li prog.args) (cleared p li prog.args k) = .ok (SUCCESS, k₃) ∧
    (readSegment p li.t_vaddr li.t_npg prog.text k₃ = .ok (s₄, k₄) ∧ s₄ ≠ KILL) ∧
    (readSegment p li.id_vaddr li.id_npg prog.data k₄ = .ok (s₅, k₅) ∧ s₅ ≠ KILL) ∧
    finishLoad p li prog.args k₅ = .ok k'

theorem saveArguments_ok {args : List (List UInt8)} : saveArguments args = .ok () ↔ argSize args ≤ size args := by
  unfold saveArguments
  split
  · exact iff_of_false nofun (by omega)
  · exact iff_of_true rfl (by omega)

/-- The frames have been freed, and the loops begin. -/
theorem loadProgram_eq (h : Passes p prog li k) (hmalloc : prog.malloc = true)
    (hsaved : argSize prog.args ≤ size prog.args) : loadProgram p prog k =
    orKill (mapFrames p KILL (loadPages li prog.args) (cleared p li prog.args k)) (readSegments p li prog) := by
  rw [loadProgram_passes h, if_pos hmalloc, saveArguments_ok.mpr hsaved, freeAddressSpace_eq]
  exact loadSegments_eq p li prog _

/-- **A load that succeeds has gone through all of it.** -/
theorem loadProgram_success : loadProgram p prog k = .ok (SUCCESS, k') ↔ ∃ li, Image p prog li k k' := by
  constructor
  · intro h
    by_cases hp : ∃ li, Passes p prog li k
    · obtain ⟨li, hpass⟩ := hp
      cases hmalloc : prog.malloc with
      | false =>
        rw [loadProgram_passes hpass, hmalloc, if_neg (by decide)] at h
        cases h
      | true =>
        by_cases hsaved : argSize prog.args ≤ size prog.args
        · rw [loadProgram_eq hpass hmalloc hsaved] at h
          obtain ⟨s, k₃, h₃, hs, h⟩ := orKill_success.mp h
          obtain ⟨s₄, k₄, h₄, hs₄, h⟩ := orKill_success.mp h
          obtain ⟨s₅, k₅, h₅, hs₅, h⟩ := orKill_success.mp h
          obtain ⟨k₆, h₆, h⟩ := bind_ok h
          cases h
          rw [(mapFrames_status h₃).resolve_right hs] at h₃
          exact ⟨li, hpass, hmalloc, hsaved, s₄, s₅, k₃, k₄, k₅, h₃, ⟨h₄, hs₄⟩, ⟨h₅, hs₅⟩, h₆⟩
        · rw [loadProgram_passes hpass, if_pos hmalloc] at h
          obtain ⟨u, hsave, h⟩ := bind_ok h
          exact absurd (saveArguments_ok.mp hsave) hsaved
    · rw [loadProgram_refused (not_exists.mp hp)] at h
      cases h
  · rintro ⟨li, hpass, hmalloc, hsaved, s₄, s₅, k₃, k₄, k₅, h₃, ⟨h₄, hs₄⟩, ⟨h₅, hs₅⟩, h₆⟩
    rw [loadProgram_eq hpass hmalloc hsaved]
    refine orKill_success.mpr ⟨_, k₃, h₃, by decide, ?_⟩
    refine orKill_success.mpr ⟨s₄, k₄, h₄, hs₄, ?_⟩
    refine orKill_success.mpr ⟨s₅, k₅, h₅, hs₅, ?_⟩
    rw [h₆]
    rfl

/-! ## Stores change memory only -/

/-- Nothing but the contents of frames has changed. -/
def MemoryOnly (k k' : Kernel) : Prop := k' = { k with pmem := k'.pmem }

theorem MemoryOnly.refl (k : Kernel) : MemoryOnly k k := rfl

theorem MemoryOnly.trans (h : MemoryOnly k k₁) (h' : MemoryOnly k₁ k') : MemoryOnly k k' := by
  unfold MemoryOnly at h h' ⊢
  rw [h', h]

theorem MemoryOnly.proc (h : MemoryOnly k k') : k'.proc = k.proc := by
  rw [h]

theorem MemoryOnly.table (h : MemoryOnly k k') (q : PID) : k'.table q = k.table q := by
  unfold Kernel.table
  rw [h.proc]

theorem MemoryOnly.frc (h : MemoryOnly k k') : k'.frc_table = k.frc_table := by
  rw [h]

theorem MemoryOnly.max_pid (h : MemoryOnly k k') : k'.max_pid = k.max_pid := by
  rw [h]

theorem store_memoryOnly {b : UInt8} (h : store k p a b = some k') : MemoryOnly k k' := by
  unfold store at h
  dsimp only at h
  split at h
  · cases h
    rfl
  · cases h

theorem copyOut_memoryOnly (h : copyOut p a bytes k = some k') : MemoryOnly k k' := by
  induction bytes generalizing a k with
  | nil =>
    cases h
    exact .refl _
  | cons b bytes ih =>
    obtain ⟨k₁, hstore, h⟩ := Option.bind_eq_some_iff.mp h
    exact (store_memoryOnly hstore).trans (ih h)

theorem kernelStore_ok : kernelStore p a bytes k = .ok k' ↔ copyOut p a bytes k = some k' := by
  unfold kernelStore
  cases copyOut p a bytes k with
  | none => exact iff_of_false nofun nofun
  | some k₁ => simp

theorem kernelStore_memoryOnly (h : kernelStore p a bytes k = .ok k') : MemoryOnly k k' :=
  copyOut_memoryOnly (kernelStore_ok.mp h)

theorem copyArguments_memoryOnly {n : Nat} {cp2 : List UInt8} {cpp cp : Int}
    (h : copyArguments p cpp cp n cp2 k = .ok k') : MemoryOnly k k' := by
  induction n generalizing cpp cp cp2 k with
  | zero =>
    obtain ⟨k₁, h₁, h⟩ := bind_ok h
    exact (kernelStore_memoryOnly h₁).trans (kernelStore_memoryOnly h)
  | succ n ih =>
    obtain ⟨k₁, h₁, h⟩ := bind_ok h
    obtain ⟨k₂, h₂, h⟩ := bind_ok h
    exact (kernelStore_memoryOnly h₁).trans ((kernelStore_memoryOnly h₂).trans (ih h))

theorem buildArguments_memoryOnly {args : List (List UInt8)} (h : buildArguments p args k = .ok k') :
    MemoryOnly k k' := by
  obtain ⟨k₁, h₁, h⟩ := bind_ok h
  obtain ⟨k₂, h₂, h⟩ := bind_ok h
  exact (kernelStore_memoryOnly h₁).trans ((kernelStore_memoryOnly h₂).trans (copyArguments_memoryOnly h))

theorem readBytes_memoryOnly {count : Nat} (h : readBytes p a bytes k = .ok (count, k')) : MemoryOnly k k' := by
  induction bytes generalizing a k count with
  | nil =>
    cases h
    exact .refl _
  | cons b bytes ih =>
    unfold readBytes at h
    split at h
    · cases h
    · cases hstore : store k p (a % 2 ^ 32) b with
      | none =>
        rw [hstore] at h
        cases h
        exact .refl _
      | some k₁ =>
        rw [hstore] at h
        obtain ⟨⟨count₁, k₂⟩, hrest, h⟩ := bind_ok h
        cases h
        exact (store_memoryOnly hstore).trans (ih hrest)

theorem read_memoryOnly {n : Nat} {file : Option (List UInt8)} (h : read p a n file k = .ok (r, k')) :
    MemoryOnly k k' := by
  cases file with
  | none =>
    cases h
    exact .refl _
  | some bytes =>
    obtain ⟨⟨count, k₁⟩, hread, h⟩ := bind_ok h
    cases h
    exact readBytes_memoryOnly hread

theorem readSegment_memoryOnly {a npg : u_long} {file : Option (List UInt8)}
    (h : readSegment p a npg file k = .ok (r, k')) : MemoryOnly k k' := by
  obtain ⟨⟨count, k₁⟩, hread, h⟩ := bind_ok h
  cases h
  exact read_memoryOnly hread

/-! ## The text -/

/-- The entry of a page of the text. -/
def textEntry (e : PTE) : PTE := createPTEWithOptions text_options e.pfn

/-- The descriptor after the entries of `n` pages from `pg1` on have been replaced. -/
def protectPages (pg1 : Int) (n : Int) (P : Process) : Process :=
  { P with page_table := fun j =>
      if pg1 ≤ j ∧ (j : Int) < pg1 + n then textEntry (P.page_table j) else P.page_table j }

theorem table_protectPages (pg1 n : Int) (j : Nat) : (k.modify p (protectPages pg1 n)).table p j =
    if pg1 ≤ j ∧ (j : Int) < pg1 + n then textEntry (k.table p j) else k.table p j := by
  simp [Kernel.table, protectPages]

theorem protectPages_zero (pg1 : Int) : k.modify p (protectPages pg1 0) = k := by
  have hP : protectPages pg1 0 (k.proc p) = k.proc p := by
    unfold protectPages
    simp [show ∀ j : Nat, ¬ (pg1 ≤ j ∧ (j : Int) < pg1) by omega]
  simp [Kernel.modify, hP]

/-- One page more. -/
theorem protectPages_succ {pg1 m : Int} {i : Nat} (hm : 0 ≤ m) (hi : pg1 + m = i) :
    (k.modify p (protectPages pg1 m)).modify p (Kernel.putEntry i (textEntry (k.table p i))) =
      k.modify p (protectPages pg1 (m + 1)) := by
  have hP : Kernel.putEntry i (textEntry (k.table p i)) (protectPages pg1 m (k.proc p)) =
      protectPages pg1 (m + 1) (k.proc p) := by
    unfold Kernel.putEntry protectPages
    congr 1
    funext j
    by_cases hj : j = i
    · subst hj
      rw [Function.update_self, if_pos (by omega)]
      rfl
    · rw [Function.update_of_ne hj]
      simp only [show (pg1 ≤ (j : Int) ∧ (j : Int) < pg1 + (m + 1)) ↔
        (pg1 ≤ (j : Int) ∧ (j : Int) < pg1 + m) by omega]
  simp only [Kernel.modify, Function.update_self, Function.update_idem, hP]

/-- **If the text is in the table, its pages become read-only and nothing else changes.** -/
theorem protectText_eq (h : ∀ i ∈ li.textPages, InTable i) :
    protectText p li k = .ok (k.modify p (protectPages li.text_pg1 li.t_npg.toNat)) := by
  have hloop := Loop.forRange_ok (a := 0) (b := (li.t_npg.toNat : Int)) (s := k)
    (P := fun m k' => k' = k.modify p (protectPages li.text_pg1 m))
    (g := fun i k => do
      let old_entry ← k.entry p (li.text_pg1 + i)
      k.setEntry p (li.text_pg1 + i) (createPTEWithOptions text_options old_entry.pfn))
    (by omega) (protectPages_zero _).symm ?_
  · obtain ⟨k', hrun, rfl⟩ := hloop
    exact hrun
  · rintro m k₁ hm hmn rfl
    have hin := h (li.text_pg1 + m) (mem_pages.mpr ⟨by omega, by omega⟩)
    obtain ⟨i, hi, hi128⟩ := hin.toNat
    have hentry : (k.modify p (protectPages li.text_pg1 m)).table p i = k.table p i := by
      rw [table_protectPages, if_neg (by omega)]
    have hsucc := protectPages_succ (k := k) (p := p) hm hi
    rw [hi]
    simp only [Kernel.entry_ok hi128, hentry, bind, Except.bind, Kernel.setEntry_ok hi128]
    exact ⟨_, congrArg Except.ok hsucc, rfl⟩

theorem MemoryOnly.modify (h : MemoryOnly k k') (u : Process → Process) :
    MemoryOnly (k.modify p u) (k'.modify p u) := by
  rw [h]
  rfl

/-- **After the reads only the flags of the text and the program counter change, apart from memory.** -/
theorem finishLoad_memoryOnly {args : List (List UInt8)} (hin : ∀ i ∈ li.textPages, InTable i)
    (h : finishLoad p li args k = .ok k') :
    MemoryOnly ((k.modify p (protectPages li.text_pg1 li.t_npg.toNat)).modify p (setPc li.entry.toNat)) k' := by
  obtain ⟨k₁, hprotect, h⟩ := bind_ok h
  rw [protectText_eq hin] at hprotect
  cases hprotect
  obtain ⟨k₂, h₂, hbuild⟩ := bind_ok h
  have hclear : MemoryOnly (k.modify p (protectPages li.text_pg1 li.t_npg.toNat)) k₂ :=
    kernelStore_memoryOnly h₂
  exact (hclear.modify _).trans (buildArguments_memoryOnly hbuild)

/-! ## The machine -/

theorem MemoryOnly.elsewhere (X : PID → Prop) (h : MemoryOnly k k') : Elsewhere X k k' := .of_proc h.max_pid h.proc

theorem orKill_elsewhere {x : Except Stop (Int × Kernel)} {rest : Kernel → Except Stop (Int × Kernel)}
    {X : PID → Prop} (hx : ∀ s k₁, x = .ok (s, k₁) → Elsewhere X k k₁)
    (hrest : ∀ k₁, rest k₁ = .ok (r, k') → Elsewhere X k₁ k') (h : orKill x rest = .ok (r, k')) :
    Elsewhere X k k' := by
  obtain ⟨status, k₁, hrun, ⟨-, -, rfl⟩ | ⟨-, h⟩⟩ := orKill_ok h
  · exact hx _ _ hrun
  · exact (hx _ _ hrun).trans (hrest _ h)

theorem protectText_elsewhere (h : protectText p li k = .ok k') : Elsewhere (· = p) k k' := by
  refine Elsewhere.forRange (fun i t t' ht => ?_) h
  obtain ⟨old_entry, -, ht⟩ := bind_ok ht
  exact .setEntry ht

theorem finishLoad_elsewhere {args : List (List UInt8)} (h : finishLoad p li args k = .ok k') :
    Elsewhere (· = p) k k' := by
  obtain ⟨k₁, h₁, h⟩ := bind_ok h
  obtain ⟨k₂, h₂, h⟩ := bind_ok h
  have hpc := Elsewhere.modify p (setPc li.entry.toNat) k₂
  exact (protectText_elsewhere h₁).trans (((kernelStore_memoryOnly h₂).elsewhere _).trans
    (hpc.trans ((buildArguments_memoryOnly h).elsewhere _)))

theorem loadSegments_elsewhere (h : loadSegments p li prog k = .ok (r, k')) : Elsewhere (· = p) k k' := by
  refine (Elsewhere.modify p (setInfo li) k).trans ?_
  refine orKill_elsewhere (fun s k₁ => mapFrames_elsewhere) (fun k₁ h => ?_) h
  refine orKill_elsewhere (fun s k₂ => mapFrames_elsewhere) (fun k₂ h => ?_) h
  refine orKill_elsewhere (fun s k₃ => mapFrames_elsewhere) (fun k₃ h => ?_) h
  refine orKill_elsewhere (fun s k₄ h => (readSegment_memoryOnly h).elsewhere _) (fun k₄ h => ?_) h
  refine orKill_elsewhere (fun s k₅ h => (readSegment_memoryOnly h).elsewhere _) (fun k₅ h => ?_) h
  obtain ⟨k₆, h₆, h⟩ := bind_ok h
  cases h
  exact finishLoad_elsewhere h₆

/-- **The loader writes no descriptor but that of the caller.** -/
theorem loadProgram_elsewhere (h : loadProgram p prog k = .ok (r, k')) : Elsewhere (· = p) k k' := by
  by_cases hp : ∃ li, Passes p prog li k
  · obtain ⟨li, hpass⟩ := hp
    rw [loadProgram_passes hpass] at h
    have hsp := Elsewhere.modify p (setSp (cp2 prog.args)) k
    split at h
    · obtain ⟨u, -, h⟩ := bind_ok h
      obtain ⟨k₀, hfree, h⟩ := bind_ok h
      exact hsp.trans ((freeAddressSpace_elsewhere hfree).trans (loadSegments_elsewhere h))
    · cases h
      exact hsp
  · rw [loadProgram_refused (not_exists.mp hp)] at h
    cases h
    exact .refl _ _

/-- **`Exec` is a step of the machine.** -/
theorem trapExec_step {m : Whole} {context : UserContext} (hlive : m.Live)
    (huser : m.sys.cont m.current = .user)
    (h : trapExec m.current context prog m.kernel = .ok (r, k')) : Step m .exec { m with kernel := k' } := by
  obtain ⟨⟨result, k₁⟩, hload, h⟩ := bind_ok h
  cases h
  have hsaved := saveUserContext_elsewhere m.current context m.kernel
  exact .exec hlive huser ((hsaved.trans (loadProgram_elsewhere hload)).trans (.modify m.current _ k₁))

end Yalnix.Whole
