import Yalnix.System.TtyTurn
import Yalnix.Whole.Disposal

/-!
# Processes that sleep before they store

`Wait` and `TtyRead` store through the pointer they are given when the process has slept.

* `Inside` — while a process sleeps in one of these calls its page table stays as it was when it made
  the call, until the process is killed; `Inside.step`, `Inside.run`.
-/

set_option autoImplicit false

namespace Yalnix.Whole

open Yalnix.System (Sys Cont Outcome)
open Transition (Run)

variable {m m' m₀ : Whole} {s t : Sys} {n : Nat} {p q c : PID} {e : System.Event} {act : Act} {acts : List Act}
  {k k₁ k' : Kernel} {context : UserContext} {pointer a : Int} {bytes : List UInt8} {status : Int}

/-! ## Where a process sleeps -/

/-- The process will store through the pointer of its call. -/
def InStore : Cont → Prop
  | .waitForPID => True
  | .ttyRead _ _ => True
  | _ => False

theorem ttyWriteChunks_not_inStore (tty : Nat) (buffer : List UInt8) (mallocs : List Bool) :
    ∀ (position : Nat) (s : Sys),
      (System.ttyWriteChunks tty buffer mallocs position s).Has fun k _ => ¬ InStore k := by
  have hlast : ∀ (position : Nat) (s t : Sys), (if position < buffer.length then
      Outcome.schedule (.ttyWriteChunk tty buffer (position + TERMINAL_MAX_LINE)) t
      else .ret SUCCESS s).Has fun k _ => ¬ InStore k := by
    intro position s t
    split
    · exact ⟨nofun, id⟩
    · exact id
  induction mallocs with
  | nil => exact fun position s => hlast position _ _
  | cons malloc mallocs ih =>
    intro position s
    cases malloc with
    | true => exact hlast position _ _
    | false =>
      unfold System.ttyWriteChunks
      split
      · exact ih _ _
      · exact id

theorem ttyWriteTurn_not_inStore (tty : Nat) (buffer : List UInt8) (mallocs : List Bool) (s : Sys) :
    (System.ttyWriteTurn tty buffer mallocs s).Has fun k _ => ¬ InStore k := by
  have hlast : ∀ mallocs', (if (s.ttys tty).write_current ≠ 0 then
      Outcome.schedule (.ttyWriteTurn tty buffer) (System.sleepOnWaitQueue (.tty_write tty) true s)
      else System.ttyWriteChunks tty buffer mallocs' 0 (System.takeTurn tty buffer s)).Has
        fun k _ => ¬ InStore k := by
    intro mallocs'
    split
    · exact ⟨nofun, id⟩
    · exact ttyWriteChunks_not_inStore _ _ _ _ _
  induction mallocs with
  | nil => exact hlast _
  | cons malloc mallocs ih =>
    cases malloc with
    | true => exact hlast _
    | false =>
      unfold System.ttyWriteTurn
      split
      · exact ih
      · exact ttyWriteChunks_not_inStore _ _ _ _ _

theorem mutexAcquireLoop_not_inStore (i : Nat) (cvar : Option Nat) (mallocs : List Bool) (s : Sys) :
    (System.mutexAcquireLoop i cvar mallocs s).Has fun k _ => ¬ InStore k := by
  rcases System.mutexAcquireLoop_cases i cvar mallocs s with ⟨-, ho⟩ | ⟨-, ho⟩
  · rw [ho]
    exact id
  · rw [ho]
    exact ⟨nofun, id⟩

/-- Who goes on elsewhere in the kernel does not come into one of these loops. -/
theorem resume_not_inStore (mallocs : List Bool) {k : Cont} (hk : ¬ InStore k) :
    (System.resume n mallocs s k).Has fun k' _ => ¬ InStore k' := by
  cases k with
  | user => exact True.intro
  | returns result => exact id
  | waitForPID => exact absurd True.intro hk
  | ttyRead tty u_length => exact absurd True.intro hk
  | joinThread thread_id =>
    change (System.joinLoop n thread_id s).Has _
    unfold System.joinLoop
    split
    · exact True.intro
    · exact ⟨nofun, id⟩
    · split
      · exact True.intro
      · exact id
  | mutexAcquire i cvar => exact mutexAcquireLoop_not_inStore i cvar mallocs s
  | cvarWait i mutex_id =>
    change (System.mutexAcquire mallocs mutex_id (some i) s).Has _
    unfold System.mutexAcquire
    split
    · exact id
    · split
      · exact True.intro
      · split
        · exact id
        · exact mutexAcquireLoop_not_inStore _ _ _ _
  | ttyWriteTurn tty buffer => exact ttyWriteTurn_not_inStore tty buffer mallocs s
  | ttyWriteChunk tty buffer position => exact ttyWriteChunks_not_inStore tty buffer mallocs position s

/-- A handler that is no system call does not bring the running process into one of these loops. -/
theorem handle_not_inStore (hcall : isCall e = false) (hk : ¬ InStore (s.cont s.current)) :
    (System.handle n s e).Has fun k _ => ¬ InStore k := by
  cases e with
  | clock => exact ⟨nofun, id⟩
  | ttyReceive malloc tty line => exact id
  | ttyTransmit tty => exact id
  | resume mallocs => exact resume_not_inStore mallocs hk
  | _ => cases hcall

/-- After an effect a process is in one of these loops if it was before, or goes there now. -/
theorem effect_inStore {k : Cont} (he : System.Effect s e k t)
    (hq : InStore ((t.setCont t.current k).cont q)) :
    q ≠ s.current ∧ InStore (s.cont q) ∨ q = s.current ∧ InStore k := by
  rw [he.processes.current] at hq
  rcases eq_or_ne q s.current with rfl | hne
  · have hself : (t.setCont s.current k).cont s.current = k := Function.update_self _ _ _
    rw [hself] at hq
    exact .inr ⟨rfl, hq⟩
  · have hother : (t.setCont s.current k).cont q = t.cont q := Function.update_of_ne hne _ _
    rw [hother] at hq
    rcases he.processes.cont_cases q with hc | hc
    · rw [hc] at hq
      exact .inl ⟨hne, hq⟩
    · rw [hc] at hq
      exact hq.elim

/-- A process is in one of these loops after a step if it was before, or calls now. -/
theorem inStore_step (hs : System.Objects s) (hplain : isSpecial e = false) (h : System.Step s e t)
    (hq : InStore (t.cont q)) : q ≠ s.current ∧ InStore (s.cont q) ∨
      q = s.current ∧ (isCall e = true ∨ isCall e = false ∧ InStore (s.cont q)) := by
  have hexit : ∀ status, e ≠ .exit status := by
    rintro status rfl
    cases hplain
  obtain ⟨-, n, hend⟩ := h
  have heff := System.handle_effect hs n hexit
  have hcalls : isCall e = false → ¬ InStore (s.cont s.current) →
      (System.handle n s e).Has fun k _ => ¬ InStore k := handle_not_inStore
  generalize System.handle n s e = o at hend heff hcalls
  cases hend with
  | switched => exact heff.elim
  | ret =>
    rcases effect_inStore heff hq with hother | ⟨-, hself⟩
    · exact .inl hother
    · exact hself.elim
  | schedule next =>
    rcases effect_inStore heff.2 hq with hother | ⟨rfl, hself⟩
    · exact .inl hother
    · refine .inr ⟨rfl, ?_⟩
      cases hcall : isCall e with
      | true => exact .inl rfl
      | false =>
        refine .inr ⟨rfl, ?_⟩
        by_contra hnot
        exact (hcalls hcall hnot).2 hself

/-- A fork goes back to the user. -/
theorem inStore_spawn (hs : System.Objects s) {b : Bool} (he : e = .fork b ∨ e = .createThread b)
    (h : System.Step s e t) (hq : InStore (t.cont q)) : q ≠ s.current ∧ InStore (s.cont q) := by
  have hexit : ∀ status, e ≠ .exit status := by
    rintro status rfl
    rcases he with he | he
    · cases he
    · cases he
  obtain ⟨-, n, hend⟩ := h
  have heff := System.handle_effect hs n hexit
  have hret : (System.handle n s e).Has fun k _ => k = .user := by
    rcases he with rfl | rfl
    · change (System.forkProcess b s).Has _
      unfold System.forkProcess
      dsimp only
      split_ifs
      · exact rfl
      · exact rfl
      · exact rfl
      · split
        · exact rfl
        · exact True.intro
    · change (System.createThread b s).Has _
      unfold System.createThread
      dsimp only
      split_ifs
      · exact rfl
      · exact rfl
      · exact rfl
      · split
        · exact rfl
        · exact True.intro
  generalize System.handle n s e = o at hend heff hret
  cases hend with
  | switched => exact heff.elim
  | schedule next => exact absurd hret.2 hret.1
  | ret =>
    rcases effect_inStore heff hq with hother | ⟨-, hself⟩
    · exact hother
    · exact hself.elim

/-! ## The page table of a process that sleeps -/

/-- Only living processes have page tables, and a process that sleeps in one of the calls has the one
it had when it made the call, or none. -/
structure Inside (m : Whole) : Prop where
  live : ∀ p, (m.kernel.proc p).live = true → p ≤ m.kernel.max_pid
  table : ∀ p, InStore (m.sys.cont p) → p ≤ m.kernel.max_pid ∧
    ((m.kernel.proc p).live = true ∧ m.kernel.table p = m.atCall p ∨
      (m.kernel.proc p).live = false ∧ m.kernel.table p = fun _ => PTE.clear)

/-- The stored bytes are in frames, and not in descriptors. -/
theorem copyOut_elsewhere (X : PID → Prop) : ∀ {bytes : List UInt8} {a : Int} {k : Kernel},
    copyOut p a bytes k = some k' → Elsewhere X k k'
  | [], _, _, h => by
    cases h
    exact .refl _ _
  | b :: bytes, a, k, h => by
    obtain ⟨k₁, hstore, h⟩ := Option.bind_eq_some_iff.mp h
    exact (store_elsewhere X hstore).trans (copyOut_elsewhere X h)

/-- A handler leaves all page tables alone. -/
theorem Written.descriptors (h : Written m e context pointer k) (s : Sys) :
    (m.switched s k).max_pid = m.kernel.max_pid ∧ ∀ q,
      ((m.switched s k).proc q).live = (m.kernel.proc q).live ∧
        (m.switched s k).table q = m.kernel.table q := by
  have hsaved : ∀ q, ((m.saved e context).proc q).live = (m.kernel.proc q).live ∧
      (m.saved e context).table q = m.kernel.table q := by
    intro q
    unfold saved
    split
    · rw [table_saveUserContext]
      refine ⟨?_, rfl⟩
      rcases eq_or_ne q m.current with rfl | hne
      · unfold saveUserContext
        rw [Kernel.proc_modify_self]
      · rw [(saveUserContext_elsewhere m.current context m.kernel).proc q hne]
    · exact ⟨rfl, rfl⟩
  have hk : Elsewhere (fun _ => False) (m.saved e context) k := by
    cases h with
    | nothing nothing => exact .refl _ _
    | bytes stores run => exact copyOut_elsewhere _ run
  have hmax : (m.saved e context).max_pid = m.kernel.max_pid := by
    unfold saved
    split
    · rfl
    · rfl
  have hswitched : (m.switched s k).max_pid = k.max_pid ∧ (m.switched s k).proc = k.proc := by
    unfold switched
    split
    · exact ⟨rfl, rfl⟩
    · exact ⟨rfl, rfl⟩
  refine ⟨hswitched.1.trans (hk.max_pid.trans hmax), fun q => ?_⟩
  unfold Kernel.table
  rw [hswitched.2, hk.proc q id]
  exact hsaved q

theorem Inside.keeps (h : Inside m) (hlive : m.Live) (hk : Keeps m.current m.kernel k) {u : Sys}
    (hq : ∀ q, InStore (u.cont q) → q ≠ m.current ∧ InStore (m.sys.cont q)) :
    Inside { m with sys := u, kernel := k } := by
  refine ⟨fun q hal => ?_, fun q hin => ?_⟩
  · change (k.proc q).live = true at hal
    change q ≤ k.max_pid
    rcases eq_or_ne q m.current with rfl | hne
    · exact (h.live _ hlive).trans hk.max_pid
    · by_contra hlt
      rw [hk.fresh q hne (not_le.mp hlt)] at hal
      exact hlt ((h.live q hal).trans hk.max_pid)
  · obtain ⟨hne, hin⟩ := hq q hin
    obtain ⟨hle, htable⟩ := h.table q hin
    refine ⟨hle.trans hk.max_pid, ?_⟩
    change (k.proc q).live = true ∧ k.table q = _ ∨ (k.proc q).live = false ∧ k.table q = _
    unfold Kernel.table at htable ⊢
    rw [hk.proc q hne hle]
    exact htable

/-- The running process is in user mode: nobody sleeps in its place. -/
theorem user_inStore (huser : m.sys.cont m.current = .user) (hin : InStore (m.sys.cont q)) :
    q ≠ m.current ∧ InStore (m.sys.cont q) := by
  refine ⟨?_, hin⟩
  rintro rfl
  rw [huser] at hin
  exact hin

theorem freePcbFrames_live (p : PID) (k : Kernel) :
    ((freePcbFrames p k).proc p).live = (k.proc p).live := by
  unfold freePcbFrames
  dsimp only
  rw [Kernel.proc_modify_self]
  dsimp only
  rw [freePageFrame_proc, freePageFrame_proc]

/-- Others lose their page tables at most. -/
theorem Inside.dropped (h : Inside m) (hmax : k.max_pid = m.kernel.max_pid)
    (hproc : ∀ q, q ≠ m.current → k.proc q = m.kernel.proc q ∨ k.proc q = dropTable (m.kernel.proc q))
    (hlive : (k.proc m.current).live = true → m.Live) {u : Sys}
    (hq : ∀ q, InStore (u.cont q) → q ≠ m.current ∧ InStore (m.sys.cont q)) :
    Inside { m with sys := u, kernel := k } := by
  refine ⟨fun q hal => ?_, fun q hin => ?_⟩
  · change (k.proc q).live = true at hal
    change q ≤ k.max_pid
    rw [hmax]
    rcases eq_or_ne q m.current with rfl | hne
    · exact h.live _ (hlive hal)
    · rcases hproc q hne with hp | hp
      · rw [hp] at hal
        exact h.live q hal
      · rw [hp] at hal
        cases hal
  · obtain ⟨hne, hin⟩ := hq q hin
    obtain ⟨hle, htable⟩ := h.table q hin
    change q ≤ k.max_pid ∧ ((k.proc q).live = true ∧ k.table q = _ ∨ (k.proc q).live = false ∧ k.table q = _)
    rw [hmax]
    refine ⟨hle, ?_⟩
    unfold Kernel.table at htable ⊢
    rcases hproc q hne with hp | hp
    · rw [hp]
      exact htable
    · rw [hp]
      exact .inr ⟨rfl, rfl⟩

theorem Inside.exit (h : Inside m) (huser : m.sys.cont m.current = .user)
    (hrun : killCurrentProcess n status { m with kernel := saveUserContext m.current context m.kernel } =
      some m') : Inside m' := by
  obtain ⟨⟨r, m₁⟩, hk, hend⟩ := Option.bind_eq_some_iff.mp hrun
  have hdrops := killProcess_drops hk
  have hculled := System.killProcess_any (killProcess_lists hk)
  have hcont : m₁.sys.cont = m.sys.cont := by
    rw [hculled.same]
    rfl
  have hcurrent : m₁.sys.current = m.current := hculled.current
  have hsaved := saveUserContext_elsewhere m.current context m.kernel
  have hproc : ∀ q, q ≠ m.current → m₁.kernel.proc q = m.kernel.proc q ∨
      m₁.kernel.proc q = dropTable (m.kernel.proc q) := by
    intro q hne
    have hq := hdrops.kernel.proc q
    rw [hsaved.proc q hne] at hq
    exact hq
  have hlive : (m₁.kernel.proc m.current).live = true → m.Live := by
    intro hal
    rcases hdrops.kernel.proc m.current with hq | hq
    · rw [hq] at hal
      unfold saveUserContext at hal
      rw [Kernel.proc_modify_self] at hal
      exact hal
    · rw [hq] at hal
      cases hal
  have hmax : m₁.kernel.max_pid = m.kernel.max_pid := hdrops.kernel.max_pid
  have hsame := hdrops.same
  cases r with
  | none =>
    cases hend
    rw [hsame]
    refine h.dropped hmax hproc hlive fun q hq => ?_
    have hc : (m₁.sys.setCont m₁.sys.current .user).cont =
        Function.update m.sys.cont m.current .user := by
      rw [hcurrent]
      unfold Sys.setCont
      rw [hcont]
    rw [hc] at hq
    rcases eq_or_ne q m.current with rfl | hne
    · rw [Function.update_self] at hq
      exact hq.elim
    · rw [Function.update_of_ne hne] at hq
      exact ⟨hne, hq⟩
  | some pb =>
    obtain ⟨s, hs, rfl⟩ := Option.map_eq_some_iff.mp hend
    obtain ⟨-, hswitch⟩ := System.killKernelContext_culled hs
    have hcs : s.cont = m.sys.cont := by
      have hsc := congrArg Sys.cont hswitch.same
      exact hsc.trans hcont
    have hstack : Elsewhere (· = m.current) m₁.kernel (killKernelContext m.current pb m₁.kernel) := by
      have hfree := freePcbFrames_elsewhere m.current (switchKernelContext pb m₁.kernel)
      exact ⟨hfree.max_pid, hfree.proc⟩
    rw [hsame]
    refine h.dropped (hstack.max_pid.trans hmax) (fun q hne => ?_) (fun hal => hlive ?_) fun q hq => ?_
    · rw [hstack.proc q hne]
      exact hproc q hne
    · change ((freePcbFrames m.current (switchKernelContext pb m₁.kernel)).proc m.current).live = true at hal
      rw [freePcbFrames_live] at hal
      exact hal
    · rw [hcs] at hq
      exact user_inStore huser hq

/-- **A page table stays as it was at the call, until it is freed.** -/
theorem Inside.step (h : Inside m) (hs : System.Objects m.sys) (hstep : Step m act m') : Inside m' := by
  cases hstep with
  | @handler e context pointer s k plain live step written =>
    obtain ⟨hmax, hsame⟩ := written.descriptors s
    have hsys : (m.enter e pointer).kernel = m.kernel := by
      unfold enter
      split
      · rfl
      · rfl
    refine ⟨fun q hal => ?_, fun q hin => ?_⟩
    · change ((m.switched s k).proc q).live = true at hal
      change q ≤ (m.switched s k).max_pid
      rw [(hsame q).1] at hal
      rw [hmax]
      exact h.live q hal
    · change q ≤ (m.switched s k).max_pid ∧ (((m.switched s k).proc q).live = true ∧
        (m.switched s k).table q = (m.enter e pointer).atCall q ∨
        ((m.switched s k).proc q).live = false ∧ (m.switched s k).table q = fun _ => PTE.clear)
      rw [hmax, (hsame q).1, (hsame q).2]
      rcases inStore_step hs plain step hin with ⟨hne, hin⟩ | ⟨rfl, hcall | ⟨hcall, hin⟩⟩
      · have hold : (m.enter e pointer).atCall q = m.atCall q := by
          unfold enter
          split
          · exact Function.update_of_ne hne _ _
          · rfl
        rw [hold]
        exact h.table q hin
      · have hnew : (m.enter e pointer).atCall m.sys.current = m.kernel.table m.sys.current := by
          unfold enter
          rw [if_pos hcall]
          exact Function.update_self _ _ _
        rw [hnew]
        exact ⟨h.live _ (live hcall), .inl ⟨live hcall, rfl⟩⟩
      · have hold : (m.enter e pointer).atCall m.sys.current = m.atCall m.sys.current := by
          unfold enter
          rw [if_neg (by rw [hcall]; decide)]
        rw [hold]
        exact h.table _ hin
  | fork live run step descriptor =>
    have hk := (saveUserContext_elsewhere m.current _ m.kernel).keeps.trans (forkProcess_keeps run)
    exact h.keeps live hk fun q hq => inStore_spawn hs (.inl rfl) step hq
  | createThread live run step descriptor =>
    have hk := (saveUserContext_elsewhere m.current _ m.kernel).keeps.trans (createThread_keeps run)
    exact h.keeps live hk fun q hq => inStore_spawn hs (.inr rfl) step hq
  | noDescriptor live user call =>
    exact h.keeps live (saveUserContext_elsewhere m.current _ m.kernel).keeps fun q hq => user_inStore user hq
  | exit live user run => exact h.exit user run
  | memoryTrap live user run =>
    exact h.keeps live (trapMemory_elsewhere run).keeps fun q hq => user_inStore user hq
  | setBrk live user run =>
    have hk := (saveUserContext_elsewhere m.current _ m.kernel).trans (setProcessBrk_elsewhere run)
    exact h.keeps live hk.keeps fun q hq => user_inStore user hq
  | exec live user own => exact h.keeps live own.keeps fun q hq => user_inStore user hq
  | userStore live user run =>
    exact h.keeps live (store_elsewhere _ run).keeps fun q hq => user_inStore user hq

theorem Inside.booted (hb : Booted m) : Inside m := by
  refine ⟨fun p hp => ?_, fun p hp => ?_⟩
  · rw [hb.live p hp, hb.max_pid]
  · rw [hb.sys] at hp
    exact hp.elim

theorem Inside.run (h : Inside m₀) (hf : ∃ threads, System.Formed m₀.sys threads)
    (hrun : Run Step m₀ acts m) : Inside m := by
  induction hrun with
  | nil => exact h
  | cons head _ ih =>
    obtain ⟨threads, hformed⟩ := hf
    refine ih (h.step hformed.objects head) ?_
    rcases head.sys with hsame | ⟨e, he⟩
    · rw [hsame]
      exact ⟨threads, hformed⟩
    · obtain ⟨threads', hformed', -⟩ := hformed.step he
      exact ⟨threads', hformed'⟩

end Yalnix.Whole
