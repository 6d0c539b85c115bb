import Mathlib.Logic.Function.Basic
import Mathlib.Tactic.Ring

/-!
# Machine words

Two's complement on `Int` (`wrap`), and little-endian 32-bit words in a byte-addressed page
(`readWord`, `writeWord`).

* `wrap_of_range` — a value in range is stored as it is.
* `wrap_wrap_add` — a chain of additions wraps once, at the end.
* `readWord_writeWord`, `readWord_writeWord_ne` — a word read back, and a word left alone.
-/

set_option autoImplicit false

namespace Word

/-- The value a signed machine integer of `w` bits holds after `x` is stored in it. -/
def wrap (w : Nat) (x : Int) : Int := x.bmod (2 ^ w)

theorem wrap_of_range {w : Nat} {x : Int} (hlo : -(2 ^ w : Int) ≤ 2 * x) (hhi : 2 * x < 2 ^ w) :
    wrap w x = x := by
  unfold wrap
  have hw : (((2 ^ w : Nat) : Int)) = 2 ^ w := by push_cast; rfl
  apply Int.bmod_eq_of_le_mul_two
  · rw [hw]; omega
  · rw [hw]; omega

theorem wrap_wrap_add (w : Nat) (x y : Int) : wrap w (wrap w x + y) = wrap w (x + y) := by
  simp [wrap]

/-! ## Words in a page -/

/-- The bytes of a page, by offset. -/
abbrev Page := Nat → UInt8

def readWord (pg : Page) (o : Nat) : Nat :=
  (pg o).toNat + 256 * (pg (o + 1)).toNat + 65536 * (pg (o + 2)).toNat +
    16777216 * (pg (o + 3)).toNat

def writeWord (pg : Page) (o v : Nat) : Page := fun i =>
  if i = o then UInt8.ofNat v
  else if i = o + 1 then UInt8.ofNat (v / 256)
  else if i = o + 2 then UInt8.ofNat (v / 65536)
  else if i = o + 3 then UInt8.ofNat (v / 16777216)
  else pg i

theorem readWord_writeWord (pg : Page) (o : Nat) {v : Nat} (hv : v < 2 ^ 32) :
    readWord (writeWord pg o v) o = v := by
  simp [readWord, writeWord]
  omega

theorem writeWord_of_off (pg : Page) {o i : Nat} (v : Nat) (h : i < o ∨ o + 4 ≤ i) :
    writeWord pg o v i = pg i := by
  unfold writeWord
  rw [if_neg (by omega), if_neg (by omega), if_neg (by omega), if_neg (by omega)]

theorem readWord_writeWord_ne (pg : Page) {o o' : Nat} (v : Nat) (h : o' + 4 ≤ o ∨ o + 4 ≤ o') :
    readWord (writeWord pg o v) o' = readWord pg o' := by
  unfold readWord
  rw [writeWord_of_off pg v (by omega), writeWord_of_off pg v (by omega),
    writeWord_of_off pg v (by omega), writeWord_of_off pg v (by omega)]

end Word
