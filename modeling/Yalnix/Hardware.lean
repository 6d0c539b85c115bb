import Yalnix.Lib.Word

/-!
# The machine

Sizes and addresses of `include/hardware.h` and the page arithmetic of `memory/memory.h`.
The kernel is compiled with `-m32`: `long`, `int` and pointers are 32 bits wide, and signed
arithmetic wraps.
-/

set_option autoImplicit false

namespace Yalnix

def PAGESIZE : Nat := 0x2000
def VMEM_REGION_SIZE : Nat := 0x100000
def VMEM_1_BASE : Int := 0x100000
def VMEM_1_LIMIT : Int := 0x200000

/-- Entries of the page table of one region. -/
def MAX_PT_LEN : Nat := 128

def KERNEL_STACK_BASE : Nat := 0xFC000
def KERNEL_STACK_LIMIT : Nat := 0x100000

def NUM_TERMINALS : Nat := 4
def TERMINAL_MAX_LINE : Nat := 1024

def LONG_MAX : Int := 2147483647

/-- Return codes of the kernel (`process.h`). -/
def ERROR : Int := -1
def KILL : Int := -2
def SUCCESS : Int := 0

/-- The value of a `long` after `x` is stored in it. -/
def long (x : Int) : Int := Word.wrap 32 x

def DOWN_TO_PAGE (n : Int) : Int := n - n % 8192

def UP_TO_PAGE (n : Int) : Int := DOWN_TO_PAGE (long (n + 8191))

/-- `indexOfPage` of a signed address: an arithmetic shift. -/
def indexOfPage (a : Int) : Int := a / 8192

/-- `indexOfPage` of a physical address. -/
def frameOf (a : Nat) : Nat := a / 8192

/-- `pageAtIndex`, the base address of a frame. -/
def pageAtIndex (f : Nat) : Nat := f * 8192

/-- How the kernel leaves the path of normal execution. -/
inductive Stop where
  /-- `Halt()` was called. -/
  | halt
  /-- An access outside an array or to memory that is not there: the C code has no meaning. -/
  | fault
  deriving DecidableEq, Repr

theorem long_of_range {x : Int} (hlo : -2147483648 ≤ x) (hhi : x ≤ 2147483647) : long x = x :=
  Word.wrap_of_range (by omega) (by omega)

theorem long_range (x : Int) : -2147483648 ≤ long x ∧ long x ≤ 2147483647 := by
  have hle := Int.le_bmod (x := x) (m := 2 ^ 32) (by decide)
  have hlt := Int.bmod_lt (x := x) (m := 2 ^ 32) (by decide)
  unfold long Word.wrap
  omega

/-- What is stored is the value of a `long` that differs by a multiple of 2^32. -/
theorem long_eq {x y : Int} (h : (x - y) % 4294967296 = 0) (hlo : -2147483648 ≤ y) (hhi : y ≤ 2147483647) :
    long x = y := by
  unfold long Word.wrap
  rw [Int.bmod_def]
  norm_num
  omega

@[simp] theorem frameOf_pageAtIndex (f : Nat) : frameOf (pageAtIndex f) = f := by
  simp [frameOf, pageAtIndex]

theorem pageAtIndex_injective : Function.Injective pageAtIndex := fun a b h => by
  have := congrArg frameOf h
  simpa using this

theorem pageAtIndex_eq_zero {f : Nat} : pageAtIndex f = 0 ↔ f = 0 := by
  unfold pageAtIndex; omega

theorem DOWN_TO_PAGE_dvd (n : Int) : DOWN_TO_PAGE n % 8192 = 0 := by
  unfold DOWN_TO_PAGE; omega

/-- An address that `UP_TO_PAGE` rounds without overflow. -/
def Roundable (a : Int) : Prop := -2147483648 ≤ a ∧ a ≤ LONG_MAX - 8191

theorem UP_TO_PAGE_range {a : Int} (h : Roundable a) : UP_TO_PAGE a = a + 8191 - (a + 8191) % 8192 := by
  obtain ⟨hlo, hhi⟩ := h
  unfold LONG_MAX at hhi
  unfold UP_TO_PAGE DOWN_TO_PAGE
  rw [long_of_range (by omega) (by omega)]

end Yalnix
