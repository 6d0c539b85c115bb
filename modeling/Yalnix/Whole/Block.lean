import Yalnix.Lib.Bytes
import Yalnix.Whole.Layout

/-!
# The stores of the argument block

`buildArguments` is a list of stores: zeros, the count, a pointer and a string for each argument, and
two null pointers.

* `blockStores` — the list; `buildArguments_eq`.
* `storeAll_iff` — stores one after the other go through exactly if each byte can be stored.
* `Fits.block_within` — they go to addresses from `cpp` up to the end of region 1.
-/

set_option autoImplicit false

namespace Yalnix.Whole

open Bytes (Patch wordBytes pointers stringBytes)

variable {p : PID} {k k' : Kernel} {args : List (List UInt8)} {a b : Int} {ws vs : List Patch}

/-! ## Stores one after the other -/

def storeAll (p : PID) (ws : List Patch) (k : Kernel) : Except Stop Kernel :=
  ws.foldlM (fun k w => kernelStore p w.1 w.2 k) k

@[simp] theorem storeAll_nil : storeAll p [] k = .ok k := rfl

theorem storeAll_cons (w : Patch) : storeAll p (w :: ws) k = kernelStore p w.1 w.2 k >>= storeAll p ws := rfl

theorem storeAll_one (w : Patch) : storeAll p [w] k = kernelStore p w.1 w.2 k := by
  rw [storeAll_cons]
  exact bind_pure _

theorem kernelStore_iff {bytes : List UInt8} : (∃ k', kernelStore p a bytes k = .ok k') ↔
    ∀ i < bytes.length, Storable (k.table p) (a + i) := by
  rw [← copyOut_isSome, Option.isSome_iff_exists]
  exact exists_congr fun k' => kernelStore_ok

/-- **The stores go through exactly if each byte of each can be stored.** -/
theorem storeAll_iff : (∃ k', storeAll p ws k = .ok k') ↔
    ∀ w ∈ ws, ∀ i < w.2.length, Storable (k.table p) (w.1 + i) := by
  induction ws generalizing k with
  | nil => exact ⟨fun _ w hw => absurd hw List.not_mem_nil, fun _ => ⟨k, rfl⟩⟩
  | cons w ws ih =>
    rw [List.forall_mem_cons, ← kernelStore_iff, storeAll_cons]
    constructor
    · rintro ⟨k', h⟩
      obtain ⟨k₁, h₁, h⟩ := bind_ok h
      have hrest := ih.mp ⟨k', h⟩
      rw [(kernelStore_memoryOnly h₁).table] at hrest
      exact ⟨⟨k₁, h₁⟩, hrest⟩
    · rintro ⟨⟨k₁, h₁⟩, hrest⟩
      rw [← (kernelStore_memoryOnly h₁).table] at hrest
      obtain ⟨k', h⟩ := ih.mpr hrest
      refine ⟨k', ?_⟩
      rw [ok_bind h₁]
      exact h

/-! ## The block -/

theorem intBytes_eq (x : Int) : intBytes x = wordBytes x := by
  unfold intBytes wordBytes
  dsimp only
  generalize (x % 2 ^ 32).toNat = v
  have hbyte : ∀ w : Nat, UInt8.ofNat (w % 256) = UInt8.ofNat w := fun w => UInt8.toNat_inj.mp (by simp)
  simp [List.range_succ, hbyte]

theorem argSize_eq (args : List (List UInt8)) : argSize args = stringBytes args := rfl

theorem cString_argbuf {arg : List UInt8} (harg : (0 : UInt8) ∉ arg) (args : List (List UInt8)) :
    cString (argbuf (arg :: args)) = arg := by
  unfold cString argbuf
  rw [List.flatMap_cons, List.append_assoc, List.singleton_append, List.takeWhile_append_of_pos]
  · simp
  · intro b hb
    simpa using fun hb0 : b = 0 => harg (hb0 ▸ hb)

theorem drop_argbuf (arg : List UInt8) (args : List (List UInt8)) :
    (argbuf (arg :: args)).drop (arg.length + 1) = argbuf args := by
  unfold argbuf
  rw [List.flatMap_cons]
  exact List.drop_left' (Bytes.length_terminated arg)

/-- The two null pointers. -/
def nullStores (a : Int) : List Patch := [(a, wordBytes 0), (a + 4, wordBytes 0)]

/-- **The loop over the arguments finds each of them in `argbuf`.** -/
theorem copyArguments_eq (hargs : ∀ arg ∈ args, (0 : UInt8) ∉ arg) :
    copyArguments p a b args.length (argbuf args) k =
      storeAll p (pointers a b args ++ nullStores (a + 4 * args.length)) k := by
  induction args generalizing a b k with
  | nil =>
    rw [List.length_nil, Int.ofNat_zero, mul_zero, add_zero]
    unfold copyArguments pointers nullStores
    rw [List.nil_append, storeAll_cons, intBytes_eq]
    exact bind_congr fun k => (storeAll_one (a + 4, wordBytes 0)).symm
  | cons arg args ih =>
    obtain ⟨harg, hargs⟩ := List.forall_mem_cons.mp hargs
    rw [List.length_cons, show a + 4 * ((args.length + 1 : Nat) : Int) = a + 4 + 4 * args.length by
      push_cast
      ring]
    unfold copyArguments pointers
    rw [cString_argbuf harg, drop_argbuf, List.cons_append, List.cons_append, storeAll_cons, intBytes_eq]
    refine bind_congr fun k => ?_
    rw [storeAll_cons]
    exact bind_congr fun k => ih hargs

/-- `memset(cpp, 0, VMEM_1_LIMIT - cpp)`. -/
def clearStore (args : List (List UInt8)) : Patch :=
  (cpp args, List.replicate ((VMEM_1_LIMIT - cpp args) % 2 ^ 32).toNat 0)

/-- The stores that build the block, in the order in which they are made. -/
def blockStores (args : List (List UInt8)) : List Patch :=
  clearStore args :: (cpp args, wordBytes (argcount args)) ::
    (pointers (cpp args + 4) (cp args) args ++ nullStores (cpp args + 4 + 4 * args.length))

theorem buildArguments_eq (hargs : ∀ arg ∈ args, (0 : UInt8) ∉ arg) :
    buildArguments p args k = storeAll p (blockStores args) k := by
  have hclear : clearBytes p (cpp args) (VMEM_1_LIMIT - cpp args) k =
      kernelStore p (clearStore args).1 (clearStore args).2 k := by
    unfold clearStore clearBytes
    dsimp only
  unfold buildArguments blockStores
  rw [storeAll_cons, hclear]
  refine bind_congr fun k => ?_
  rw [storeAll_cons, intBytes_eq]
  exact bind_congr fun k => copyArguments_eq hargs

theorem nullStores_within {w : Patch} (h : w ∈ nullStores a) : Bytes.Within a (a + 8) w := by
  rcases List.mem_pair.mp h with rfl | rfl
  · exact ⟨le_rfl, by rw [Bytes.length_wordBytes]; omega⟩
  · exact ⟨by omega, by rw [Bytes.length_wordBytes]; omega⟩

theorem Fits.clear_length (h : Fits args) :
    ((clearStore args).2.length : Int) = VMEM_1_LIMIT - Whole.cpp args := by
  have hcpp := h.cpp
  unfold Fits at h
  unfold clearStore
  dsimp only
  rw [List.length_replicate, Int.emod_eq_of_lt (by unfold VMEM_1_LIMIT at *; omega)
    (by unfold VMEM_1_LIMIT at *; omega)]
  unfold VMEM_1_LIMIT at *
  omega

/-- **The block is stored below the end of region 1, the words below the strings.** -/
theorem Fits.block_within (h : Fits args) {w : Patch} (hw : w ∈ blockStores args) :
    Bytes.Within (Whole.cpp args) VMEM_1_LIMIT w := by
  have hcpp := h.cpp
  have hcp := cp_eq h.size
  have hclear := h.clear_length
  unfold Fits blockSize at h
  unfold blockSize at hcpp
  unfold blockStores at hw
  rcases List.mem_cons.mp hw with rfl | hw
  · exact ⟨le_rfl, by rw [hclear]; unfold clearStore; dsimp only; omega⟩
  unfold VMEM_1_LIMIT at *
  rcases List.mem_cons.mp hw with rfl | hw
  · exact ⟨le_rfl, by rw [Bytes.length_wordBytes]; omega⟩
  rcases List.mem_append.mp hw with hw | hw
  · rcases Bytes.pointers_within hw with hw | hw
    · exact hw.mono (by omega) (by omega)
    · exact hw.mono (by omega) (by rw [hcp, argSize_eq]; omega)
  · exact (nullStores_within hw).mono (by omega) (by omega)

/-- **The argument block can be built exactly if the memory from `cpp` to the end of region 1 can be stored
to.** -/
theorem buildArguments_iff (hfits : Fits args) (hargs : ∀ arg ∈ args, (0 : UInt8) ∉ arg) :
    (∃ k', buildArguments p args k = .ok k') ↔
      ∀ b, cpp args ≤ b → b < VMEM_1_LIMIT → Storable (k.table p) b := by
  rw [buildArguments_eq hargs, storeAll_iff]
  constructor
  · intro h b hlo hhi
    have hclear := hfits.clear_length
    have hb := h (clearStore args) List.mem_cons_self (b - cpp args).toNat (by omega)
    unfold clearStore at hb
    dsimp only at hb
    rw [show cpp args + ((b - cpp args).toNat : Int) = b by omega] at hb
    exact hb
  · intro h w hw i hi
    have hwithin := hfits.block_within hw
    exact h _ (le_trans hwithin.1 (by omega)) (lt_of_lt_of_le (by omega) hwithin.2)

end Yalnix.Whole
