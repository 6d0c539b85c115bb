import Yalnix.System.TtyRead

/-!
# The buffer of a terminal

A call of `ttyReadBegin` or `ttyRead` as it is past its loop, on the fields it uses.  The length of a
copy is what `memcpy` gets before the conversion to `size_t`.

* `InBounds` — the position is in the line, and the line in its buffer.
* `copies_inside_iff` — the copies stay in the line exactly if no call gives a negative length.
* `inBounds_run` — in the machine, which stops at a copy of negative length, all is in bounds.
-/

set_option autoImplicit false

namespace Yalnix.System

open Transition (Run)

/-! ## Calls -/

inductive TtyCall where
  | readBegin (malloc : Bool) (line : List UInt8)
  | read (u_length : Int)
  deriving DecidableEq

/-- `length - position`. -/
def TTY.rest (x : TTY) : Int := long (x.read_buffer_size - x.read_buffer_position)

/-- The length of the copy of `ttyRead`, and its result. -/
def TTY.sub_length (x : TTY) (u_length : Int) : Int := if x.rest > u_length then u_length else x.rest

/-- The terminal after a call. -/
def TtyCall.after (x : TTY) : TtyCall → TTY
  | .readBegin malloc line =>
    if !malloc then { x with read_buffer := none }
    else { x with read_buffer := some line, read_buffer_size := line.length, read_buffer_position := 0 }
  | .read u_length =>
    { x with read_buffer_position := long (x.read_buffer_position + x.sub_length u_length) }

/-- `TtyReceive` returns at most the length it is given, and `ttyRead` has found something to read. -/
def TtyCall.Possible (x : TTY) : TtyCall → Prop
  | .readBegin _ line => line.length ≤ TERMINAL_MAX_LINE
  | .read _ => x.drained = false

def CallStep (x : TTY) (call : TtyCall) (y : TTY) : Prop := call.Possible x ∧ y = call.after x

/-! ## Bounds -/

/-- The position is in the line, and the line in its buffer. -/
structure InBounds (x : TTY) : Prop where
  line : ∀ line, x.read_buffer = some line → x.read_buffer_size = line.length
  nonneg : 0 ≤ x.read_buffer_position
  le_size : x.read_buffer_position ≤ x.read_buffer_size
  size_le : x.read_buffer_size ≤ TERMINAL_MAX_LINE

/-- A read copies a part of the line that begins in it, and returns no more than was asked for. -/
def CopyInside (x : TTY) : TtyCall → Prop
  | .readBegin _ _ => True
  | .read u_length => ∃ line, x.read_buffer = some line ∧ 0 ≤ x.read_buffer_position ∧
      x.read_buffer_position < line.length ∧ 0 ≤ x.sub_length u_length ∧
      x.sub_length u_length ≤ x.read_buffer_size - x.read_buffer_position ∧
      x.read_buffer_position + x.sub_length u_length ≤ line.length ∧ x.sub_length u_length ≤ u_length

/-- All copies of the calls are inside, and the bounds hold before and after each call. -/
def CopiesInside : TTY → List TtyCall → Prop
  | x, [] => InBounds x
  | x, call :: calls => InBounds x ∧ CopyInside x call ∧ CopiesInside (call.after x) calls

variable {x y : TTY} {call : TtyCall} {calls : List TtyCall} {u_length : Int}

theorem InBounds.rest_eq (h : InBounds x) : x.rest = x.read_buffer_size - x.read_buffer_position := by
  obtain ⟨-, hnonneg, hle, hsize⟩ := h
  unfold TERMINAL_MAX_LINE at hsize
  unfold TTY.rest
  exact long_of_range (by omega) (by omega)

/-- What is copied is the smaller of what was asked for and what is there. -/
theorem InBounds.sub_length_eq (h : InBounds x) (u_length : Int) :
    x.sub_length u_length = min u_length (x.read_buffer_size - x.read_buffer_position) := by
  unfold TTY.sub_length
  rw [h.rest_eq]
  split
  · rename_i hgt
    exact (min_eq_left hgt.le).symm
  · rename_i hle
    exact (min_eq_right (not_lt.mp hle)).symm

theorem ready_line (h : x.drained = false) :
    ∃ line, x.read_buffer = some line ∧ x.read_buffer_position < x.read_buffer_size := by
  unfold TTY.drained at h
  rw [Bool.or_eq_false_iff, decide_eq_false_iff_not, not_le] at h
  obtain ⟨line, hline⟩ := Option.isSome_iff_exists.mp (Option.isNone_eq_false_iff.mp h.1)
  exact ⟨line, hline, h.2⟩

/-- **One copy is inside exactly if its length is not negative.** -/
theorem copy_inside_iff (h : InBounds x) (hready : x.drained = false) :
    CopyInside x (.read u_length) ↔ 0 ≤ u_length := by
  obtain ⟨line, hline, hlt⟩ := ready_line hready
  have hsize := h.line line hline
  have hnonneg := h.nonneg
  unfold CopyInside
  dsimp only
  rw [h.sub_length_eq]
  constructor
  · rintro ⟨-, -, -, -, hmin, -⟩
    omega
  · intro hu
    refine ⟨line, hline, hnonneg, ?_, ?_, ?_, ?_, ?_⟩
    · omega
    · omega
    · omega
    · omega
    · exact min_le_left _ _

theorem InBounds.after (h : InBounds x) (hpossible : call.Possible x)
    (hu : ∀ u_length, call = .read u_length → 0 ≤ u_length) : InBounds (call.after x) := by
  cases call with
  | readBegin malloc line =>
    unfold TtyCall.after
    cases malloc with
    | false => exact ⟨nofun, h.nonneg, h.le_size, h.size_le⟩
    | true =>
      refine ⟨fun line' hline => ?_, le_refl _, Int.natCast_nonneg _, ?_⟩
      · cases hline
        rfl
      · have hlength : line.length ≤ TERMINAL_MAX_LINE := hpossible
        exact Int.ofNat_le.mpr hlength
  | read u_length =>
    have hlength := h.sub_length_eq u_length
    have hlow := hu u_length rfl
    obtain ⟨hline, hnonneg, hle, hsize⟩ := h
    have hmax : (TERMINAL_MAX_LINE : Int) = 1024 := rfl
    have hnext : long (x.read_buffer_position + x.sub_length u_length) =
        x.read_buffer_position + x.sub_length u_length := long_of_range (by omega) (by omega)
    refine ⟨hline, ?_, ?_, hsize⟩
    · change 0 ≤ long _
      omega
    · change long _ ≤ x.read_buffer_size
      omega

/-- **The copies stay in the line exactly if no call gives a negative length.** -/
theorem copies_inside_iff (hx : InBounds x) (hrun : Run CallStep x calls y) :
    CopiesInside x calls ↔ ∀ u_length, .read u_length ∈ calls → 0 ≤ u_length := by
  induction hrun with
  | nil =>
    refine ⟨fun _ u_length hm => ?_, fun _ => hx⟩
    cases hm
  | @cons x y z call calls head tail ih =>
    obtain ⟨hpossible, rfl⟩ := head
    -- as far as the first negative length, the bounds hold
    have hcopy : CopyInside x call ↔ ∀ u_length, call = .read u_length → 0 ≤ u_length := by
      cases call with
      | readBegin malloc line => exact ⟨fun _ _ he => (nomatch he), fun _ => trivial⟩
      | read u_length =>
        rw [copy_inside_iff hx hpossible]
        refine ⟨fun hu v he => ?_, fun hall => hall _ rfl⟩
        cases he
        exact hu
    constructor
    · rintro ⟨-, hinside, hrest⟩ u_length hm
      have hu := hcopy.mp hinside
      rcases List.mem_cons.mp hm with rfl | hm
      · exact hu u_length rfl
      · exact (ih (hx.after hpossible hu)).mp hrest u_length hm
    · intro hall
      have hu : ∀ u_length, call = .read u_length → 0 ≤ u_length := fun u_length he =>
        hall u_length (he ▸ List.mem_cons_self)
      exact ⟨hx, hcopy.mpr hu, (ih (hx.after hpossible hu)).mpr fun u_length hm =>
        hall u_length (List.mem_cons_of_mem _ hm)⟩

/-! ## In the machine -/

variable {s s' t : Sys} {e : Event} {k : Cont} {tty : Nat} {result : Int}

/-- A chunk of `ttyRead` is a call. -/
theorem ttyReadChunk_call (h : InBounds (s.ttys tty)) (hready : (s.ttys tty).drained = false)
    (hrun : ttyReadChunk tty u_length s = .ret result t) :
    0 ≤ u_length ∧ t.ttys tty = (TtyCall.read u_length).after (s.ttys tty) := by
  obtain ⟨bytes, hnonneg, hresult, -, rfl⟩ := ttyReadChunk_some hrun
  have hlength := h.sub_length_eq u_length
  obtain ⟨line, hline, hlt⟩ := ready_line hready
  obtain ⟨-, hpos, hle, hsize⟩ := h
  have hmax : (TERMINAL_MAX_LINE : Int) = 1024 := rfl
  refine ⟨by omega, ?_⟩
  unfold signalWaitQueue
  rw [signal_ttys]
  refine (Function.update_self _ _ _).trans ?_
  unfold TtyCall.after
  dsimp only
  rw [hlength, ← hresult, long_of_range (by omega) (by omega)]

theorem ttyReadBegin_call (malloc : Bool) (line : List UInt8) (s : Sys) (hterminal : ¬ tty ≥ NUM_TERMINALS) :
    (ttyReadBegin malloc tty line s).ttys tty = (TtyCall.readBegin malloc line).after (s.ttys tty) := by
  unfold ttyReadBegin TtyCall.after
  rw [if_neg hterminal]
  cases malloc with
  | false => exact Function.update_self _ _ _
  | true =>
    unfold signalWaitQueue
    dsimp only
    rw [if_neg (by decide), signal_ttys, if_neg (by decide)]
    exact Function.update_self _ _ _

theorem InBounds.frame (h : InBounds (s.ttys tty)) (hf : ReadFrame tty s t) : InBounds (t.ttys tty) := by
  obtain ⟨hline, hnonneg, hle, hsize⟩ := h
  refine ⟨?_, ?_, ?_, ?_⟩
  · rw [hf.buffer, hf.size]
    exact hline
  · rw [hf.position]
    exact hnonneg
  · rw [hf.position, hf.size]
    exact hle
  · rw [hf.size]
    exact hsize

theorem InBounds.effect (h : InBounds (s.ttys tty)) (henabled : Enabled s e) (he : Effect s e k t) :
    InBounds (t.ttys tty) := by
  cases he.reads tty with
  | same frame => exact h.frame frame
  | sleep drained ends =>
    subst ends
    exact h
  | read ready run =>
    obtain ⟨hu, hcall⟩ := ttyReadChunk_call h ready run
    rw [hcall]
    refine h.after ready fun v hv => ?_
    cases hv
    exact hu
  | receive event terminal ends =>
    subst ends event
    rw [ttyReadBegin_call _ _ _ terminal]
    exact h.after henabled.2.2 fun _ hv => (nomatch hv)

theorem InBounds.step (h : InBounds (s.ttys tty)) (ho : Objects s) (hstep : Step s e s') :
    InBounds (s'.ttys tty) := by
  by_cases he : ∃ status, e = .exit status
  · obtain ⟨status, rfl⟩ := he
    obtain ⟨t, hkept, hs⟩ := hstep.exit_kept
    unfold Kept at hkept
    rw [hkept] at hs
    rcases hs with rfl | ⟨q, rfl⟩
    · exact h
    · exact h
  · refine (hstep.leads ho fun status hs => he ⟨status, hs⟩).keeps (J := fun s => InBounds (s.ttys tty))
      (fun _ _ hJ => hJ) fun k t heffect => ?_
    have ht := h.effect hstep.1 heffect
    exact ht

/-- **In every run of the machine the position is in the line, and the line in its buffer.** -/
theorem inBounds_run {es : List Event} (hrun : Run Step bootSys es s) (tty : Nat) : InBounds (s.ttys tty) := by
  have hboot : InBounds (bootSys.ttys tty) := ⟨nofun, le_refl _, le_refl _, Int.natCast_nonneg _⟩
  have hinv := hrun.invariant (P := fun s => InBounds (s.ttys tty) ∧ Objects s)
    (fun s e s' hs hstep => ⟨hs.1.step hs.2 hstep, hs.2.step hstep⟩) ⟨hboot, objects_boot⟩
  exact hinv.1

/-! ## A line of three bytes -/

/-- The first two bytes of a line are read. -/
def readTwo : List TtyCall := [.readBegin true [104, 105, 10], .read 2]

theorem freshTty_inBounds : InBounds (emptySys.ttys 0) := ⟨nofun, le_refl _, le_refl _, by decide⟩

theorem readTwo_inside : CopiesInside (emptySys.ttys 0) readTwo := by
  have hrun : Run CallStep (emptySys.ttys 0) readTwo _ := .cons ⟨show 3 ≤ 1024 by decide, rfl⟩ (.single ⟨rfl, rfl⟩)
  refine (copies_inside_iff freshTty_inBounds hrun).mpr fun u_length hm => ?_
  rcases List.mem_cons.mp hm with he | hm
  · cases he
  · cases List.mem_singleton.mp hm
    decide

/-- **A read of length -1 moves the position before the line, and the next one begins there.** -/
theorem negative_read_escapes : ∃ x, Run CallStep (emptySys.ttys 0) [.readBegin true [104, 105, 10], .read (-1)] x ∧
    x.read_buffer_position = -1 ∧ x.sub_length 8 = 4 ∧
    ¬ CopiesInside (emptySys.ttys 0) [.readBegin true [104, 105, 10], .read (-1)] := by
  refine ⟨_, .cons ⟨show 3 ≤ 1024 by decide, rfl⟩ (.single ⟨rfl, rfl⟩), by decide, by decide, fun hall => ?_⟩
  obtain ⟨line, -, -, -, hnonneg, -⟩ := hall.2.2.2.1
  revert hnonneg
  decide

end Yalnix.System
