import Yalnix.Hardware
import Mathlib.Tactic.DeriveFintype
import Mathlib.Data.BitVec

/-!
# Page-table entries

The `PTE` bit field of `memory.h`, its option bits, and `createPTEWithOptions`.

The kernel never changes an entry in place: it reads the bits back into an option word, edits
the word and packs a new entry.  `create_options` says that nothing is lost on the way;
`protectOptions` and `unprotectOptions` are the two edits the kernel makes (marking a page
copy-on-write, and giving it back its write bit), and the lemmas after them say what the
resulting entry allows.
-/

set_option autoImplicit false

namespace Yalnix

def PTE_VALID : BitVec 32 := 0x01
def PTE_COPY_ON_WRITE : BitVec 32 := 0x40
def PTE_MISC_MASK : BitVec 32 := 0xF0
def PTE_PERM_READ : BitVec 32 := 0x02
def PTE_PERM_WRITE : BitVec 32 := 0x04
def PTE_PERM_EXEC : BitVec 32 := 0x08
def PTE_PERM_MASK : BitVec 32 := 0x0E

/-- A page-table entry.  `pfn` is a number of one of the frames of physical memory, of which a
32-bit machine has too few to fill the 24 bits of the field. -/
structure PTE where
  valid : Bool
  perm : BitVec 3
  misc : BitVec 4
  pfn : Nat
  deriving DecidableEq, Repr

/-- `PTE_VALID | PTE_PERM_READ | PTE_PERM_WRITE`, the options of a page the kernel allocates. -/
def data_options : BitVec 32 := PTE_VALID ||| PTE_PERM_READ ||| PTE_PERM_WRITE

/-- `PTE_VALID | PTE_PERM_READ | PTE_PERM_EXEC`. -/
def text_options : BitVec 32 := PTE_VALID ||| PTE_PERM_READ ||| PTE_PERM_EXEC

def createPTEWithOptions (options : BitVec 32) (frame_number : Nat) : PTE where
  valid := options &&& PTE_VALID ≠ 0
  perm := ((options &&& PTE_PERM_MASK) >>> 1).setWidth 3
  misc := ((options &&& PTE_MISC_MASK) >>> 4).setWidth 4
  pfn := frame_number

namespace PTE

/-- `PTE_VALID | (old_entry.perm << 1) | (old_entry.misc << 4)`. -/
def options (e : PTE) : BitVec 32 :=
  PTE_VALID ||| (e.perm.setWidth 32 <<< 1) ||| (e.misc.setWidth 32 <<< 4)

/-- What the machine checks on a load. -/
def readable (e : PTE) : Bool := e.perm.getLsbD 0

/-- What the machine checks on a store. -/
def writable (e : PTE) : Bool := e.perm.getLsbD 1

/-- `(old_entry.misc << 4) & PTE_COPY_ON_WRITE`. -/
def cow (e : PTE) : Bool := (e.misc.setWidth 32 <<< 4) &&& PTE_COPY_ON_WRITE ≠ 0

/-- The entry of a page that is not mapped. -/
def clear : PTE := { valid := false, perm := 0, misc := 0, pfn := 0 }

/-- The frame an entry maps. -/
def frame (e : PTE) : Option Nat := if e.valid then some e.pfn else none

/-- An entry that is not valid is clear of the copy-on-write bit, and a valid one is readable. -/
structure Ok (e : PTE) : Prop where
  clear : e.valid = false → e.cow = false
  readable : e.valid = true → e.readable = true

end PTE

/-- The write bit is cleared and the copy-on-write bit set, if the write bit was set. -/
def protectOptions (options : BitVec 32) : BitVec 32 :=
  if options &&& PTE_PERM_WRITE ≠ 0 then (options &&& ~~~PTE_PERM_WRITE) ||| PTE_COPY_ON_WRITE
  else options

/-- `(options & ~PTE_COPY_ON_WRITE) | PTE_PERM_WRITE`. -/
def unprotectOptions (options : BitVec 32) : BitVec 32 :=
  (options &&& ~~~PTE_COPY_ON_WRITE) ||| PTE_PERM_WRITE

/-! ## What a repacked entry allows -/

variable {e : PTE} {f : Nat}

@[simp] theorem pfn_create (options : BitVec 32) (f : Nat) :
    (createPTEWithOptions options f).pfn = f := rfl

@[simp] theorem create_zero : createPTEWithOptions 0 0 = PTE.clear := by decide

@[simp] theorem frame_clear : PTE.clear.frame = none := rfl

theorem frame_eq_some : e.frame = some f ↔ e.valid = true ∧ e.pfn = f := by
  unfold PTE.frame
  split <;> simp_all

theorem frame_eq_none : e.frame = none ↔ e.valid = false := by
  unfold PTE.frame
  split <;> simp_all

/-- The bits of a valid entry survive the trip through the option word. -/
theorem create_options (hv : e.valid = true) (f : Nat) :
    createPTEWithOptions e.options f = { e with pfn := f } := by
  obtain ⟨v, p, m, g⟩ := e
  cases hv
  have h : ∀ (p : BitVec 3) (m : BitVec 4),
      createPTEWithOptions (PTE.options ⟨true, p, m, 0⟩) 0 = ⟨true, p, m, 0⟩ := by decide
  have hpm := h p m
  simp only [createPTEWithOptions, PTE.options, PTE.mk.injEq, and_true] at hpm ⊢
  exact hpm

/-- The entry `setCopyOnWrite` writes over `e`. -/
def PTE.protect (e : PTE) : PTE := createPTEWithOptions (protectOptions e.options) e.pfn

/-- The entry `handleMemoryTrap` writes when a copy-on-write page gets frame `f`. -/
def PTE.unprotect (e : PTE) (f : Nat) : PTE := createPTEWithOptions (unprotectOptions e.options) f

@[simp] theorem protect_pfn (e : PTE) : e.protect.pfn = e.pfn := rfl

@[simp] theorem unprotect_pfn (e : PTE) (f : Nat) : (e.unprotect f).pfn = f := rfl

/-- The flags of a protected entry. -/
theorem protect_flags (e : PTE) : e.protect.valid = true ∧ e.protect.writable = false ∧
    e.protect.readable = e.readable ∧ e.protect.cow = (e.cow || e.writable) := by
  obtain ⟨v, p, m, g⟩ := e
  have h : ∀ (p : BitVec 3) (m : BitVec 4),
      (PTE.protect ⟨true, p, m, 0⟩).valid = true ∧ (PTE.protect ⟨true, p, m, 0⟩).writable = false ∧
        (PTE.protect ⟨true, p, m, 0⟩).readable = PTE.readable ⟨true, p, m, 0⟩ ∧
        (PTE.protect ⟨true, p, m, 0⟩).cow = (PTE.cow ⟨true, p, m, 0⟩ || PTE.writable ⟨true, p, m, 0⟩) := by
    decide
  exact h p m

/-- The flags of an entry whose write bit has been given back. -/
theorem unprotect_flags (e : PTE) (f : Nat) : (e.unprotect f).valid = true ∧
    (e.unprotect f).writable = true ∧ (e.unprotect f).readable = e.readable ∧
    (e.unprotect f).cow = false := by
  obtain ⟨v, p, m, g⟩ := e
  have h : ∀ (p : BitVec 3) (m : BitVec 4),
      (PTE.unprotect ⟨true, p, m, 0⟩ 0).valid = true ∧
        (PTE.unprotect ⟨true, p, m, 0⟩ 0).writable = true ∧
        (PTE.unprotect ⟨true, p, m, 0⟩ 0).readable = PTE.readable ⟨true, p, m, 0⟩ ∧
        (PTE.unprotect ⟨true, p, m, 0⟩ 0).cow = false := by decide
  exact h p m

@[simp] theorem protect_frame (e : PTE) : e.protect.frame = some e.pfn :=
  frame_eq_some.mpr ⟨(protect_flags e).1, rfl⟩

@[simp] theorem unprotect_frame (e : PTE) (f : Nat) : (e.unprotect f).frame = some f :=
  frame_eq_some.mpr ⟨(unprotect_flags e f).1, rfl⟩

/-- The flags of a page the kernel has just allocated. -/
theorem data_flags (f : Nat) : (createPTEWithOptions data_options f).valid = true ∧
    (createPTEWithOptions data_options f).writable = true ∧
    (createPTEWithOptions data_options f).readable = true ∧
    (createPTEWithOptions data_options f).cow = false := by
  have h : (createPTEWithOptions data_options 0).valid = true ∧
      (createPTEWithOptions data_options 0).writable = true ∧
      (createPTEWithOptions data_options 0).readable = true ∧
      (createPTEWithOptions data_options 0).cow = false := by decide
  exact h

end Yalnix
