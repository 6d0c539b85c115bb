import Mathlib.Data.List.GetD
import Mathlib.Data.Set.Function
import Mathlib.Tactic.Ring

/-!
# Byte-addressed memory

A memory is a function from addresses to bytes.

* `put` — writing a list of bytes from an address on; `put_cons` — one byte after the other.
* `Holds` — a memory holds a list of bytes from an address on.
* `Holds.put` — a write elsewhere leaves it there; `holds_put` — a write puts it there.
* `word`, `wordBytes` — little-endian words of 32 bits; `Holds.word`.
* `pointers` — the writes of a table of pointers to strings; `pointers_hold` — both are there afterwards.
-/

set_option autoImplicit false

namespace Bytes

abbrev Memory := Int → UInt8

variable {m m' : Memory} {a b x : Int} {bs cs : List UInt8}

/-- Writing the bytes of `bs` from `a` on. -/
def put (m : Memory) (a : Int) (bs : List UInt8) : Memory :=
  fun x => if a ≤ x ∧ x < a + bs.length then bs.getD (x - a).toNat 0 else m x

theorem put_inside {i : Nat} (hi : i < bs.length) : put m a bs (a + i) = bs[i] := by
  unfold put
  rw [if_pos (by omega), show (a + i - a).toNat = i by omega, List.getD_eq_getElem _ _ hi]

theorem put_outside (h : x < a ∨ a + bs.length ≤ x) : put m a bs x = m x := by
  unfold put
  rw [if_neg (by omega)]

@[simp] theorem put_nil : put m a [] = m := by
  funext x
  refine put_outside ?_
  rw [List.length_nil]
  omega

theorem put_cons (v : UInt8) : put m a (v :: bs) = put (Function.update m a v) (a + 1) bs := by
  funext x
  by_cases hx : a + 1 ≤ x ∧ x < a + 1 + bs.length
  · obtain ⟨i, rfl⟩ : ∃ i : Nat, x = a + 1 + i := ⟨(x - (a + 1)).toNat, by omega⟩
    have hi : i < bs.length := by omega
    rw [put_inside hi, show a + 1 + (i : Int) = a + (i + 1 : Nat) by push_cast; ring,
      put_inside (Nat.succ_lt_succ hi), List.getElem_cons_succ]
  · have hrest : put (Function.update m a v) (a + 1) bs x = Function.update m a v x := put_outside (by omega)
    rw [hrest]
    by_cases hxa : x = a
    · have h0 : put m a (v :: bs) (a + (0 : Nat)) = v := put_inside (Nat.succ_pos _)
      rw [Int.ofNat_zero, add_zero] at h0
      rw [hxa, h0, Function.update_self]
    · rw [Function.update_of_ne hxa, put_outside]
      rw [List.length_cons]
      omega

theorem put_replicate {n : Nat} {v : UInt8} (hlo : a ≤ x) (hhi : x < a + n) :
    put m a (List.replicate n v) x = v := by
  unfold put
  rw [List.length_replicate, if_pos ⟨hlo, hhi⟩, List.getD_replicate _ (by omega)]

/-- Where two memories agree they agree after a write. -/
theorem put_congr {S : Set Int} (h : Set.EqOn m m' S) : Set.EqOn (put m a bs) (put m' a bs) S := by
  intro x hx
  unfold put
  split
  · rfl
  · exact h hx

/-! ## What a memory holds -/

/-- From `a` on the memory holds the bytes of `bs`. -/
def Holds (m : Memory) (a : Int) (bs : List UInt8) : Prop := ∀ i (hi : i < bs.length), m (a + i) = bs[i]

theorem holds_put : Holds (put m a bs) a bs := fun _ hi => put_inside hi

/-- A write elsewhere. -/
theorem Holds.put (h : Holds m a bs) (hapart : a + bs.length ≤ b ∨ b + cs.length ≤ a) :
    Holds (put m b cs) a bs := by
  intro i hi
  rw [put_outside (by omega)]
  exact h i hi

theorem Holds.congr (h : Holds m a bs) (hm : ∀ x, a ≤ x → x < a + bs.length → m' x = m x) : Holds m' a bs := by
  intro i hi
  rw [hm _ (by omega) (by omega)]
  exact h i hi

/-! ## Words -/

/-- The word at an address. -/
def word (m : Memory) (a : Int) : Nat :=
  (m a).toNat + 256 * (m (a + 1)).toNat + 65536 * (m (a + 2)).toNat + 16777216 * (m (a + 3)).toNat

/-- The bytes of a number, modulo `2 ^ 32`. -/
def wordBytes (v : Int) : List UInt8 :=
  let n := (v % 2 ^ 32).toNat
  [UInt8.ofNat n, UInt8.ofNat (n / 256), UInt8.ofNat (n / 65536), UInt8.ofNat (n / 16777216)]

@[simp] theorem length_wordBytes (v : Int) : (wordBytes v).length = 4 := rfl

/-- **A word is read back.** -/
theorem Holds.word {v : Int} (h : Holds m a (wordBytes v)) : (word m a : Int) = v % 2 ^ 32 := by
  have hlength := length_wordBytes v
  have h₀ := h 0 (by omega)
  have h₁ := h 1 (by omega)
  have h₂ := h 2 (by omega)
  have h₃ := h 3 (by omega)
  rw [Int.ofNat_zero, add_zero] at h₀
  unfold Bytes.word
  rw [h₀, show a + 1 = a + (1 : Nat) from rfl, h₁, show a + 2 = a + (2 : Nat) from rfl, h₂,
    show a + 3 = a + (3 : Nat) from rfl, h₃]
  simp only [wordBytes, List.getElem_cons_zero, List.getElem_cons_succ, UInt8.toNat_ofNat']
  omega

theorem word_congr (h : ∀ x, a ≤ x → x < a + 4 → m' x = m x) : word m' a = word m a := by
  unfold word
  rw [h a (by omega) (by omega), h (a + 1) (by omega) (by omega), h (a + 2) (by omega) (by omega),
    h (a + 3) (by omega) (by omega)]

theorem word_eq_zero (h : ∀ x, a ≤ x → x < a + 4 → m x = 0) : word m a = 0 := by
  unfold word
  rw [h a (by omega) (by omega), h (a + 1) (by omega) (by omega), h (a + 2) (by omega) (by omega),
    h (a + 3) (by omega) (by omega)]
  rfl

/-! ## Writes one after the other -/

/-- A write: the address and the bytes. -/
abbrev Patch := Int × List UInt8

def putAll (m : Memory) (ws : List Patch) : Memory := ws.foldl (fun m w => put m w.1 w.2) m

@[simp] theorem putAll_nil : putAll m [] = m := rfl

@[simp] theorem putAll_cons (w : Patch) (ws : List Patch) : putAll m (w :: ws) = putAll (put m w.1 w.2) ws := rfl

@[simp] theorem putAll_append (ws vs : List Patch) : putAll m (ws ++ vs) = putAll (putAll m ws) vs :=
  List.foldl_append

theorem putAll_congr {S : Set Int} {ws : List Patch} (h : Set.EqOn m m' S) :
    Set.EqOn (putAll m ws) (putAll m' ws) S := by
  induction ws generalizing m m' with
  | nil => exact h
  | cons w ws ih => exact ih (put_congr h)

/-- The write is to addresses from `lo` up to `hi`. -/
def Within (lo hi : Int) (w : Patch) : Prop := lo ≤ w.1 ∧ w.1 + w.2.length ≤ hi

variable {ws : List Patch} {lo hi : Int}

theorem Within.mono {w : Patch} {lo' hi' : Int} (h : Within lo hi w) (hlo : lo' ≤ lo) (hhi : hi ≤ hi') :
    Within lo' hi' w :=
  ⟨hlo.trans h.1, h.2.trans hhi⟩

/-- An address that no write goes to. -/
theorem putAll_outside (h : ∀ w ∈ ws, x < w.1 ∨ w.1 + w.2.length ≤ x) : putAll m ws x = m x := by
  induction ws generalizing m with
  | nil => rfl
  | cons w ws ih =>
    obtain ⟨hw, hws⟩ := List.forall_mem_cons.mp h
    rw [putAll_cons, ih hws, put_outside hw]

/-- Writes elsewhere. -/
theorem Holds.putAll (h : Holds m a bs) (hapart : ∀ w ∈ ws, a + bs.length ≤ w.1 ∨ w.1 + w.2.length ≤ a) :
    Holds (putAll m ws) a bs := by
  refine h.congr fun x hlo hhi => putAll_outside fun w hw => ?_
  have hw' := hapart w hw
  omega

/-! ## Pointers to strings -/

/-- The bytes of the strings, with their terminators. -/
def stringBytes (ss : List (List UInt8)) : Nat := (ss.map fun s => s.length + 1).sum

@[simp] theorem stringBytes_nil : stringBytes [] = 0 := rfl

@[simp] theorem stringBytes_cons (s : List UInt8) (ss : List (List UInt8)) :
    stringBytes (s :: ss) = s.length + 1 + stringBytes ss := rfl

/-- Each string ends before the last one does. -/
theorem stringBytes_take {ss : List (List UInt8)} {i : Nat} (hi : i < ss.length) :
    stringBytes (ss.take i) + (ss[i].length + 1) ≤ stringBytes ss := by
  induction ss generalizing i with
  | nil => exact absurd hi (Nat.not_lt_zero _)
  | cons s ss ih =>
    cases i with
    | zero =>
      rw [List.take_zero, stringBytes_nil, stringBytes_cons, List.getElem_cons_zero]
      omega
    | succ i =>
      have hrest := ih (Nat.lt_of_succ_lt_succ hi)
      rw [List.take_succ_cons, stringBytes_cons, stringBytes_cons, List.getElem_cons_succ]
      omega

/-- The writes of a table of pointers at `a` and of the strings, from `b` on: each pointer before its
string. -/
def pointers (a b : Int) : List (List UInt8) → List Patch
  | [] => []
  | s :: ss => (a, wordBytes b) :: (b, s ++ [0]) :: pointers (a + 4) (b + (s.length + 1 : Nat)) ss

variable {s : List UInt8} {ss : List (List UInt8)}

theorem length_terminated (s : List UInt8) : (s ++ [(0 : UInt8)]).length = s.length + 1 := by simp

/-- They go to the table, or to the strings. -/
theorem pointers_within {w : Patch} (h : w ∈ pointers a b ss) :
    Within a (a + 4 * ss.length) w ∨ Within b (b + stringBytes ss) w := by
  induction ss generalizing a b with
  | nil => cases h
  | cons s ss ih =>
    unfold pointers at h
    rw [stringBytes_cons, List.length_cons]
    rcases List.mem_cons.mp h with rfl | h
    · refine .inl ⟨le_rfl, ?_⟩
      rw [length_wordBytes]
      omega
    · rcases List.mem_cons.mp h with rfl | h
      · refine .inr ⟨le_rfl, ?_⟩
        rw [length_terminated]
        omega
      · rcases ih h with h | h
        · exact .inl (h.mono (by omega) (by omega))
        · exact .inr (h.mono (by omega) (by omega))

/-- **If the table ends before the strings begin, each pointer is there, and so is each string.** -/
theorem pointers_hold (hroom : a + 4 * ss.length ≤ b) {i : Nat} (hi : i < ss.length) :
    Holds (putAll m (pointers a b ss)) (a + 4 * i) (wordBytes (b + stringBytes (ss.take i))) ∧
      Holds (putAll m (pointers a b ss)) (b + stringBytes (ss.take i)) (ss[i] ++ [0]) := by
  induction ss generalizing m a b i with
  | nil => exact absurd hi (Nat.not_lt_zero _)
  | cons s ss ih =>
    rw [List.length_cons] at hroom
    unfold pointers
    rw [putAll_cons, putAll_cons]
    cases i with
    | zero =>
      -- the writes after the first two go behind them
      rw [List.take_zero, stringBytes_nil, List.getElem_cons_zero, Int.ofNat_zero, mul_zero, add_zero, add_zero]
      have hstring := length_terminated s
      constructor
      · refine Holds.putAll (holds_put.put ?_) fun w hw => ?_
        · rw [length_wordBytes]
          omega
        · rw [length_wordBytes]
          rcases pointers_within hw with hw | hw
          · exact .inl hw.1
          · exact .inl (le_trans (by omega) hw.1)
      · refine Holds.putAll holds_put fun w hw => ?_
        rcases pointers_within hw with hw | hw
        · exact .inr (hw.2.trans (by omega))
        · exact .inl (le_trans (by omega) hw.1)
    | succ i =>
      have hnext := ih (m := put (put m a (wordBytes b)) b (s ++ [0])) (a := a + 4)
        (b := b + (s.length + 1 : Nat)) (by omega) (Nat.lt_of_succ_lt_succ hi)
      rw [List.take_succ_cons, stringBytes_cons, List.getElem_cons_succ,
        show a + 4 * ((i + 1 : Nat) : Int) = a + 4 + 4 * i by push_cast; ring,
        show b + ((s.length + 1 + stringBytes (ss.take i) : Nat) : Int) =
          b + (s.length + 1 : Nat) + stringBytes (ss.take i) by push_cast; ring]
      exact hnext

end Bytes
