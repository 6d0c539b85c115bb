import Yalnix.System.TtyBounds
import Yalnix.Whole.Stores

/-!
# Stores through user pointers

`Wait`, `TtyRead`, `LockInit` and `CvarInit` store through the pointer they are given and check
nothing.

* `copyOut_isSome` — the machine does the stores if every byte is in a page that is mapped writable.
* `StoreLength`, `Writable` — how many bytes a call stores, and a range of pages that can take them.
* `stores_respect_iff` — the stores respect the page table exactly if the caller had the pages behind
  the pointer mapped writable when it made the call, and has not been killed since.
-/

set_option autoImplicit false

namespace Yalnix.Whole

open Yalnix.System (Sys TTY)
open Transition (Run)

variable {m m₀ : Whole} {n : Nat} {p : PID} {e : System.Event} {acts : List Act} {k : Kernel}
  {table : Nat → PTE} {pointer a : Int} {bytes : List UInt8}

/-! ## Where the bytes go -/

/-- A byte of region 1 in a page that is mapped writable. -/
def Storable (table : Nat → PTE) (a : Int) : Prop :=
  (VMEM_1_BASE ≤ a % 2 ^ 32 ∧ a % 2 ^ 32 < VMEM_1_LIMIT) ∧
    (table (userPage (a % 2 ^ 32))).valid = true ∧ (table (userPage (a % 2 ^ 32))).writable = true

instance (table : Nat → PTE) (a : Int) : Decidable (Storable table a) :=
  inferInstanceAs (Decidable (_ ∧ _))

theorem store_isSome (b : UInt8) : (store k p (a % 2 ^ 32) b).isSome = true ↔ Storable (k.table p) a := by
  unfold store userEntry Storable
  dsimp only
  by_cases hregion : VMEM_1_BASE ≤ a % 2 ^ 32 ∧ a % 2 ^ 32 < VMEM_1_LIMIT
  · rw [if_pos hregion]
    split
    · rename_i hv
      rw [Bool.and_eq_true] at hv
      exact iff_of_true rfl ⟨hregion, hv⟩
    · rename_i hv
      rw [Bool.and_eq_true] at hv
      exact iff_of_false nofun fun h => hv h.2
  · rw [if_neg hregion]
    exact iff_of_false (by simp [PTE.clear]) fun h => hregion h.1

/-- **The machine does the stores if all bytes go to pages that are mapped writable, and only then.** -/
theorem copyOut_isSome : ∀ {bytes : List UInt8} {a : Int} {k : Kernel},
    (copyOut p a bytes k).isSome = true ↔ ∀ i < bytes.length, Storable (k.table p) (a + i)
  | [], _, _ => by simp [copyOut]
  | b :: bytes, a, k => by
    have hfirst := store_isSome (k := k) (p := p) (a := a) b
    unfold copyOut
    cases hstore : store k p (a % 2 ^ 32) b with
    | none =>
      rw [hstore] at hfirst
      refine iff_of_false nofun fun h => ?_
      have hzero := h 0 (Nat.succ_pos _)
      rw [Int.ofNat_zero, add_zero] at hzero
      cases hfirst.mpr hzero
    | some k₁ =>
      rw [hstore] at hfirst
      have htable : k₁.table p = k.table p :=
        congrArg Process.page_table ((store_elsewhere (fun _ => False) hstore).proc p id)
      rw [Option.bind_some, copyOut_isSome, htable]
      have hnext : ∀ i : Nat, a + 1 + i = a + (i + 1 : Nat) := by
        intro i
        push_cast
        ring
      constructor
      · intro h i hi
        cases i with
        | zero =>
          rw [Int.ofNat_zero, add_zero]
          exact hfirst.mp rfl
        | succ i =>
          rw [← hnext]
          exact h i (Nat.lt_of_succ_lt_succ hi)
      · intro h i hi
        rw [hnext]
        exact h (i + 1) (Nat.succ_lt_succ hi)

/-- Each byte that the handler stores is in a page that is mapped writable at that moment. -/
def Respects (m : Whole) (e : System.Event) (pointer : Int) : Prop :=
  ∀ bytes, Stores m.sys e bytes → ∀ i < bytes.length,
    Storable (m.kernel.table m.current) (m.destination e pointer + i)

/-! ## How many bytes, and where -/

/-- The bytes that `memcpy` copies for a read of `u_length`; a length below 0 becomes a `size_t`. -/
def readLength (x : TTY) (u_length : Int) : Nat :=
  if u_length < 0 then (u_length % 2 ^ 32).toNat
  else (min u_length (x.read_buffer_size - x.read_buffer_position)).toNat

/-- How many bytes the handler that `e` starts, or that goes on, stores through the pointer. -/
inductive StoreLength (s : Sys) : System.Event → Nat → Prop
  | wait (some : listIsEmpty (.children s.current) s.tree = some false) (takes : ∃ z, Takes s z) :
      StoreLength s .wait 4
  | waited {mallocs : List Bool} (inside : s.cont s.current = .waitForPID) (takes : ∃ z, Takes s z) :
      StoreLength s (.resume mallocs) 4
  | ttyRead {mallocs : List Bool} {tty u_length : Int} (terminal : ¬ (tty ≥ NUM_TERMINALS ∨ tty < 0))
      (ready : (s.ttys tty.toNat).drained = false) :
      StoreLength s (.ttyRead mallocs tty u_length) (readLength (s.ttys tty.toNat) u_length)
  | ttyWoken {mallocs : List Bool} {tty : Nat} {u_length : Int}
      (inside : s.cont s.current = .ttyRead tty u_length) (ready : (s.ttys tty).drained = false) :
      StoreLength s (.resume mallocs) (readLength (s.ttys tty) u_length)
  | mutexInitialize : StoreLength s (.mutexInitialize true true) 4
  | cvarInitialize : StoreLength s (.cvarInitialize true true) 4

theorem intBytes_length (x : Int) : (intBytes x).length = 4 := by
  unfold intBytes
  rw [List.length_map, List.length_range]

/-- A copy has the length that the line and the call give it. -/
theorem copies_length {s : Sys} {tty : Nat} {u_length : Int} (hb : System.InBounds (s.ttys tty))
    (h : Copies s tty u_length bytes) :
    (s.ttys tty).drained = false ∧ bytes.length = readLength (s.ttys tty) u_length := by
  cases h with
  | chunk ready length pos =>
    obtain ⟨line, hline, -⟩ := System.ready_line ready
    have hsize := hb.line line hline
    have hnonneg := hb.nonneg
    refine ⟨ready, ?_⟩
    unfold readLength
    rw [if_neg (by omega), ← length, hline, Option.getD_some, List.length_take, List.length_drop]
    omega
  | beyond ready neg length =>
    refine ⟨ready, ?_⟩
    unfold readLength
    rw [if_pos neg, ← length, Int.toNat_natCast]

theorem copies_of_ready {s : Sys} {tty : Nat} {u_length : Int} (hb : System.InBounds (s.ttys tty))
    (hready : (s.ttys tty).drained = false) :
    ∃ bytes, Copies s tty u_length bytes ∧ bytes.length = readLength (s.ttys tty) u_length := by
  by_cases hneg : u_length < 0
  · have hcopies : Copies s tty u_length (List.replicate (u_length % 2 ^ 32).toNat 0) := by
      refine .beyond hready hneg ?_
      rw [List.length_replicate, Int.toNat_of_nonneg (Int.emod_nonneg _ (by decide))]
    exact ⟨_, hcopies, (copies_length hb hcopies).2⟩
  · have hle := hb.le_size
    have hcopies : ∃ bytes, Copies s tty u_length bytes := ⟨_, .chunk hready rfl (by omega)⟩
    obtain ⟨bytes, hcopies⟩ := hcopies
    exact ⟨bytes, hcopies, (copies_length hb hcopies).2⟩

/-- What is stored has that length. -/
theorem stores_length (hb : ∀ tty, System.InBounds (m.sys.ttys tty)) (h : Stores m.sys e bytes) :
    StoreLength m.sys e bytes.length := by
  cases h with
  | wait some takes =>
    rw [intBytes_length]
    exact .wait some ⟨_, takes⟩
  | waited inside takes =>
    rw [intBytes_length]
    exact .waited inside ⟨_, takes⟩
  | ttyRead terminal copies =>
    obtain ⟨hready, hlength⟩ := copies_length (hb _) copies
    rw [hlength]
    exact .ttyRead terminal hready
  | ttyWoken inside copies =>
    obtain ⟨hready, hlength⟩ := copies_length (hb _) copies
    rw [hlength]
    exact .ttyWoken inside hready
  | mutexInitialize =>
    rw [intBytes_length]
    exact .mutexInitialize
  | cvarInitialize =>
    rw [intBytes_length]
    exact .cvarInitialize

theorem stores_of_length (hb : ∀ tty, System.InBounds (m.sys.ttys tty)) (h : StoreLength m.sys e n) :
    ∃ bytes, Stores m.sys e bytes ∧ bytes.length = n := by
  cases h with
  | wait some takes =>
    obtain ⟨z, hz⟩ := takes
    exact ⟨_, .wait some hz, intBytes_length _⟩
  | waited inside takes =>
    obtain ⟨z, hz⟩ := takes
    exact ⟨_, .waited inside hz, intBytes_length _⟩
  | ttyRead terminal ready =>
    obtain ⟨bytes, hcopies, hlength⟩ := copies_of_ready (hb _) ready
    exact ⟨bytes, .ttyRead terminal hcopies, hlength⟩
  | ttyWoken inside ready =>
    obtain ⟨bytes, hcopies, hlength⟩ := copies_of_ready (hb _) ready
    exact ⟨bytes, .ttyWoken inside hcopies, hlength⟩
  | mutexInitialize => exact ⟨_, .mutexInitialize, intBytes_length _⟩
  | cvarInitialize => exact ⟨_, .cvarInitialize, intBytes_length _⟩

/-- The `n` bytes at `a` are in region 1, and all pages from the first to the last of them are mapped
writable. -/
def Writable (table : Nat → PTE) (a : Int) (n : Nat) : Prop :=
  VMEM_1_BASE ≤ a % 2 ^ 32 ∧ a % 2 ^ 32 + n ≤ VMEM_1_LIMIT ∧
    ∀ i, userPage (a % 2 ^ 32) ≤ i → i ≤ userPage (a % 2 ^ 32 + n - 1) →
      (table i).valid = true ∧ (table i).writable = true

theorem userPage_eq {b : Int} (hb : VMEM_1_BASE ≤ b) : (userPage b : Int) = (b - VMEM_1_BASE) / 8192 := by
  unfold userPage indexOfPage
  exact Int.toNat_of_nonneg (Int.ediv_nonneg (by omega) (by decide))

/-- A page of the range holds one of the bytes. -/
theorem page_byte {b : Int} {i : Nat} (hn : 0 < n) (hb : VMEM_1_BASE ≤ b) (hlo : userPage b ≤ i)
    (hhi : i ≤ userPage (b + n - 1)) : ∃ o < n, userPage (b + (o : Nat)) = i := by
  have hfirst := userPage_eq hb
  have hlast := userPage_eq (b := b + n - 1) (by omega)
  by_cases hpage : userPage b = i
  · exact ⟨0, hn, by rw [Int.ofNat_zero, add_zero, hpage]⟩
  · refine ⟨(VMEM_1_BASE + i * 8192 - b).toNat, by omega, ?_⟩
    have hpos : 0 ≤ VMEM_1_BASE + i * 8192 - b := by omega
    have hbyte := userPage_eq (b := VMEM_1_BASE + i * 8192) (by omega)
    rw [Int.toNat_of_nonneg hpos, add_sub_cancel]
    omega

/-- **The bytes of a range are all in pages mapped writable exactly if the range is in region 1 and its
pages are mapped writable.** -/
theorem writable_iff (hn : 0 < n) : Writable table a n ↔ ∀ i < n, Storable table (a + i) := by
  have hlimit : VMEM_1_LIMIT < 2 ^ 32 := by decide
  constructor
  · rintro ⟨hlo, hhi, hpages⟩ i hi
    have hmod : (a + i) % 2 ^ 32 = a % 2 ^ 32 + i := by omega
    unfold Storable
    rw [hmod]
    refine ⟨⟨by omega, by omega⟩, hpages _ ?_ ?_⟩
    · have hfirst := userPage_eq hlo
      have hbyte := userPage_eq (b := a % 2 ^ 32 + i) (by omega)
      omega
    · have hlast := userPage_eq (b := a % 2 ^ 32 + n - 1) (by omega)
      have hbyte := userPage_eq (b := a % 2 ^ 32 + i) (by omega)
      omega
  · intro h
    have hzero := (h 0 hn).1
    rw [Int.ofNat_zero, add_zero] at hzero
    have hend : a % 2 ^ 32 + n ≤ VMEM_1_LIMIT := by
      -- else one of the bytes is at the end of region 1
      by_contra hover
      have hlast := (h (VMEM_1_LIMIT - a % 2 ^ 32).toNat (by omega)).1
      rw [Int.toNat_of_nonneg (by omega)] at hlast
      omega
    refine ⟨hzero.1, hend, fun i hlo hhi => ?_⟩
    obtain ⟨o, ho, rfl⟩ := page_byte hn hzero.1 hlo hhi
    have hbyte := (h o ho).2
    rw [show (a + o) % 2 ^ 32 = a % 2 ^ 32 + o by omega] at hbyte
    exact hbyte

theorem not_writable_clear (hn : 0 < n) : ¬ Writable (fun _ => PTE.clear) a n := fun h => by
  have hzero := (writable_iff hn).mp h 0 hn
  cases hzero.2.1

/-- The stores of a handler, as a range of addresses. -/
theorem respects_iff (hb : ∀ tty, System.InBounds (m.sys.ttys tty)) : Respects m e pointer ↔
    ∀ n > 0, StoreLength m.sys e n → Writable (m.kernel.table m.current) (m.destination e pointer) n := by
  constructor
  · intro h n hn hlength
    obtain ⟨bytes, hstores, rfl⟩ := stores_of_length hb hlength
    exact (writable_iff hn).mpr (h bytes hstores)
  · intro h bytes hstores i hi
    have hpos : 0 < bytes.length := by omega
    exact (writable_iff hpos).mp (h _ hpos (stores_length hb hstores)) i hi

/-- If the call stores anything, the caller had the range behind the pointer mapped writable when it
made the call, and its page table has not been freed since. -/
def GoodPointer (m : Whole) (e : System.Event) (pointer : Int) : Prop :=
  ∀ n > 0, StoreLength m.sys e n → m.Live ∧ Writable (m.callTable e) (m.destination e pointer) n

/-- The process goes on in a loop that stores. -/
theorem StoreLength.inside (h : StoreLength m.sys e n) (hc : isCall e = false) :
    InStore (m.sys.cont m.current) := by
  cases h with
  | waited inside takes =>
    rw [inside]
    exact True.intro
  | ttyWoken inside copies =>
    rw [inside]
    exact True.intro
  | _ => cases hc

/-- **What a handler stores through the pointer respects the page table exactly if the pointer was good
when the call was made.** -/
theorem stores_respect_iff (hb : Booted m₀) (hrun : Run Step m₀ acts m) (hcall : isCall e = true → m.Live) :
    Respects m e pointer ↔ GoodPointer m e pointer := by
  have hin := (Inside.booted hb).run (formed hb .nil) hrun
  have hbounds : ∀ tty, System.InBounds (m.sys.ttys tty) := fun tty => by
    obtain ⟨es, hes⟩ := run_sys hrun
    rw [hb.sys] at hes
    exact System.inBounds_run hes tty
  rw [respects_iff hbounds]
  refine forall_congr' fun n => forall_congr' fun hn => forall_congr' fun hlength => ?_
  cases hc : isCall e with
  | true =>
    have htable : m.callTable e = m.kernel.table m.current := by
      unfold callTable
      rw [if_pos hc]
    rw [htable]
    exact ⟨fun h => ⟨hcall hc, h⟩, fun h => h.2⟩
  | false =>
    have htable : m.callTable e = m.atCall m.current := by
      unfold callTable
      rw [hc]
      rfl
    rw [htable]
    rcases (hin.table _ (hlength.inside hc)).2 with ⟨hlive, heq⟩ | ⟨hdead, heq⟩
    · rw [heq]
      exact ⟨fun h => ⟨hlive, h⟩, fun h => h.2⟩
    · rw [heq]
      refine iff_of_false (not_writable_clear hn) fun h => ?_
      have hlive : (m.kernel.proc m.current).live = true := h.1
      rw [hdead] at hlive
      cases hlive

/-! ## A page that has become copy-on-write -/

/-- Process 1 forks; its data page is shared now. -/
theorem fork_shares : ∃ m, Run Step (firstWhole 3) [.fork true true firstContext] m ∧ m.Live ∧
    System.exec 8 System.bootSys (.fork true) = some m.sys ∧
      (m.kernel.table 1 1).writable = false := by
  have hN : 0 + 3 ≤ 65536 := by omega
  have hmax := max_pid_machine hN
  obtain ⟨k, l, leak, hstep, -, hs, -⟩ := (machine_sound hN).fork_step (machine_roomy hN)
    (running_machine hN) (by rw [proc_machine hN]; rfl) (by rw [hmax]; unfold LONG_MAX; omega)
    firstContext_sp (by omega) (by have := stackPages_le (k := machine (0 + 3)) (p := 1); omega) (by omega)
  rw [hmax] at hstep hs
  have hsome : (System.exec 8 System.bootSys (.fork true)).isSome = true := by decide +kernel
  obtain ⟨s, hexec⟩ := Option.isSome_iff_exists.mp hsome
  have hcurrent : s.current = 1 := by
    have hc : (System.exec 8 System.bootSys (.fork true)).map Sys.current = some 1 := by decide +kernel
    rw [hexec] at hc
    exact Option.some.inj hc
  cases hstep with
  | @fork _ _ _ m₁ m₂ result running frames fit run =>
    obtain ⟨c, k₁, k₂, hspawn, -⟩ := forkProcess_some run (by decide)
    obtain ⟨rfl, rfl, -, -⟩ := spawn_some hspawn
    have hfork : Step (firstWhole 3) (.fork true true firstContext)
        { firstWhole 3 with sys := s, kernel := k } :=
      .fork (running_machine hN).live run (System.exec_step hexec) rfl
    refine ⟨_, .single hfork, ?_, hexec, ?_⟩
    · change (k.proc s.current).live = true
      rw [hcurrent, hs.parent]
      exact (running_saveUserContext.mpr (running_machine hN)).live
    · change (k.table 1 1).writable = false
      rw [hs.table_parent, if_pos (by omega), table_saveUserContext, table_machine hN]
      decide

/-- **Process 1 forks and calls `LockInit` with a pointer into its data: the page is read-only.** -/
theorem lockInit_after_fork : ¬ ∀ (m₀ m : Whole) (acts : List Act) (e : System.Event) (pointer : Int),
    Booted m₀ → Run Step m₀ acts m → System.Enabled m.sys e → (isCall e = true → m.Live) →
    Respects m e pointer := by
  intro hall
  obtain ⟨m, hrun, hlive, hexec, hshared⟩ := fork_shares
  have huser : (System.exec 8 System.bootSys (.fork true)).map
      (fun s => (s.current, decide (System.Enabled s (.mutexInitialize true true)))) = some (1, true) := by
    decide +kernel
  rw [hexec, Option.map_some, Option.some.injEq, Prod.mk.injEq, decide_eq_true_eq] at huser
  have hcurrent : m.current = 1 := huser.1
  have hrespects := hall (firstWhole 3) m _ (.mutexInitialize true true) (VMEM_1_BASE + 8192)
    (firstWhole_booted (by omega)) hrun huser.2 fun _ => hlive
  have hbyte := hrespects _ .mutexInitialize 0 (by rw [intBytes_length]; decide)
  rw [hcurrent] at hbyte
  have hwritable : (m.kernel.table 1 1).writable = true := hbyte.2.2
  rw [hshared] at hwritable
  cases hwritable

/-- Before the fork the call stores where it may. -/
theorem lockInit_before_fork :
    Respects (firstWhole 0) (.mutexInitialize true true) (VMEM_1_BASE + 8192) := by
  have hlive : (firstWhole 0).Live := (running_machine (by omega)).live
  refine (stores_respect_iff (firstWhole_booted (by omega)) .nil fun _ => hlive).mpr ?_
  intro n hn hlength
  cases hlength with
  | mutexInitialize =>
    have htable : (firstWhole 0).callTable (.mutexInitialize true true) = firstProcess.page_table :=
      table_machine (by omega)
    have hpages : ∀ i < 4, Storable firstProcess.page_table ((VMEM_1_BASE + 8192 : Int) + (i : Nat)) := by
      decide
    refine ⟨hlive, ?_⟩
    rw [htable]
    exact (writable_iff hn).mpr hpages

end Yalnix.Whole
