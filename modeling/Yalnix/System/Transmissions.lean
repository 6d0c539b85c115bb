import Yalnix.System.Parked
import Yalnix.System.SleepErrors
import Yalnix.System.TtyTurn

/-!
# Transmissions, one at a time

* `ChunkSleepFails` — the sleep after a `TtyTransmit` does not get a node.
* `handle_provided` — in all other steps it does not matter which sleeps get a node, but for `cvarWait`.
* `Line` — a transmission is outstanding only while the writer sleeps; `Lines.step`.
* `failed_sleeps_unreported` — runs in which a failed sleep goes unnoticed.
* `failed_sleeps_reported` — when it does not.
-/

set_option autoImplicit false

namespace Yalnix.System

open Transition (Run)

variable {s s' s₁ t : Sys} {n : Nat} {p q : PID} {e : Event} {k : Cont} {tty position : Nat}
  {buffer : List UInt8} {mallocs : List Bool} {es : List Event}

/-! ## Which sleeps matter -/

/-- The process has called `TtyTransmit`, and there is no node for the sleep that follows. -/
def ChunkSleepFails (s : Sys) : Event → Prop
  | .ttyWrite mallocs tty length buffer =>
    (0 ≤ tty ∧ tty < NUM_TERMINALS ∧ mallocs.head? ≠ some false ∧ 0 ≤ length) ∧
      (s.ttys tty.toNat).write_current = 0 ∧ buffer.take length.toNat ≠ [] ∧
      mallocs.tail.head? = some false
  | .resume mallocs =>
    match s.cont s.current with
    | .ttyWriteTurn tty buffer =>
      (s.ttys tty).write_current = 0 ∧ buffer ≠ [] ∧ mallocs.head? = some false
    | .ttyWriteChunk _ buffer position => position < buffer.length ∧ mallocs.head? = some false
    | _ => False
  | _ => False

/-- The event with a node for every sleep. -/
def Event.supplied : Event → Event
  | .mutexAcquire _ mutex_id => .mutexAcquire [] mutex_id
  | .ttyRead _ tty u_length => .ttyRead [] tty u_length
  | .ttyWrite mallocs tty length buffer => .ttyWrite (mallocs.take 1) tty length buffer
  | .resume _ => .resume []
  | e => e

theorem mutexAcquireLoop_nodes (m : Nat) (cvar : Option Nat) (mallocs : List Bool) (s : Sys) :
    mutexAcquireLoop m cvar mallocs s = mutexAcquireLoop m cvar [] s := by
  rcases mutexAcquireLoop_cases m cvar mallocs s with ⟨hl, ho⟩ | ⟨hl, ho⟩
  · rcases mutexAcquireLoop_cases m cvar [] s with ⟨-, ho'⟩ | ⟨hl', -⟩
    · rw [ho, ho']
    · rw [hl] at hl'
      cases hl'
  · rcases mutexAcquireLoop_cases m cvar [] s with ⟨hl', -⟩ | ⟨-, ho'⟩
    · rw [hl] at hl'
      cases hl'
    · rw [ho, ho']

theorem mutexAcquire_nodes (mallocs : List Bool) (mutex_id : Int) (cvar : Option Nat) (s : Sys) :
    mutexAcquire mallocs mutex_id cvar s = mutexAcquire [] mutex_id cvar s := by
  unfold mutexAcquire
  simp only [mutexAcquireLoop_nodes _ _ mallocs]

theorem ttyReadLoop_nodes (tty : Nat) (u_length : Int) (mallocs : List Bool) (s : Sys) :
    ttyReadLoop tty u_length mallocs s = ttyReadLoop tty u_length [] s := by
  rcases ttyReadLoop_cases tty u_length mallocs s with ⟨hd, ho⟩ | ⟨hd, ho⟩
  · rcases ttyReadLoop_cases tty u_length [] s with ⟨-, ho'⟩ | ⟨hd', -⟩
    · rw [ho, ho']
    · rw [hd] at hd'
      cases hd'
  · rcases ttyReadLoop_cases tty u_length [] s with ⟨hd', -⟩ | ⟨-, ho'⟩
    · rw [hd] at hd'
      cases hd'
    · rw [ho, ho']

theorem ttyWriteChunks_nodes (h : ¬ (position < buffer.length ∧ mallocs.head? = some false)) :
    ttyWriteChunks tty buffer mallocs position s = ttyWriteChunks tty buffer [] position s := by
  cases mallocs with
  | nil => rfl
  | cons malloc mallocs =>
    cases malloc with
    | true => rfl
    | false =>
      have hdone : ¬ position < buffer.length := fun hmore => h ⟨hmore, rfl⟩
      unfold ttyWriteChunks
      rw [if_neg hdone, if_neg hdone]

theorem ttyWriteTurn_nodes
    (h : ¬ ((s.ttys tty).write_current = 0 ∧ buffer ≠ [] ∧ mallocs.head? = some false)) :
    ttyWriteTurn tty buffer mallocs s = ttyWriteTurn tty buffer [] s := by
  by_cases hfree : (s.ttys tty).write_current = 0
  · have hchunks : ttyWriteTurn tty buffer mallocs s =
        ttyWriteChunks tty buffer mallocs 0 (takeTurn tty buffer s) := by
      cases mallocs with
      | nil => exact if_neg (not_not.mpr hfree)
      | cons malloc mallocs =>
        cases malloc with
        | true => exact if_neg (not_not.mpr hfree)
        | false => exact if_neg (not_not.mpr hfree)
    have hnone : ttyWriteTurn tty buffer [] s =
        ttyWriteChunks tty buffer [] 0 (takeTurn tty buffer s) := if_neg (not_not.mpr hfree)
    rw [hchunks, hnone]
    refine ttyWriteChunks_nodes fun hr => h ⟨hfree, ?_, hr.2⟩
    exact List.ne_nil_of_length_pos hr.1
  · -- the terminal is busy in every round
    clear h
    induction mallocs with
    | nil => rfl
    | cons malloc mallocs ih =>
      have hbusy : ttyWriteTurn tty buffer [] s = .schedule (.ttyWriteTurn tty buffer)
          (sleepOnWaitQueue (.tty_write tty) true s) := if_pos hfree
      cases malloc with
      | true => exact (if_pos hfree).trans hbusy.symm
      | false => exact (if_pos hfree).trans ih

theorem ttyWrite_nodes {tty length : Int}
    (h : ¬ ChunkSleepFails s (.ttyWrite mallocs tty length buffer)) :
    ttyWrite mallocs tty length buffer s = ttyWrite (mallocs.take 1) tty length buffer s := by
  have hhead : (mallocs.take 1).head? = mallocs.head? := by
    cases mallocs with
    | nil => rfl
    | cons malloc mallocs => rfl
  have htail : (mallocs.take 1).tail = [] := by
    cases mallocs with
    | nil => rfl
    | cons malloc mallocs => rfl
  unfold ttyWrite
  rw [hhead, htail]
  split
  · rfl
  · rename_i hterminal
    split
    · rfl
    · rename_i hroom
      obtain ⟨hlt, hge⟩ := not_or.mp hterminal
      obtain ⟨hbuffer, hlength⟩ := not_or.mp hroom
      refine ttyWriteTurn_nodes fun hr => h ⟨⟨?_, ?_, hbuffer, ?_⟩, hr⟩
      · exact not_lt.mp hge
      · exact not_le.mp hlt
      · exact not_lt.mp hlength

theorem resume_nodes (h : ¬ ChunkSleepFails s (.resume mallocs)) (n : Nat) :
    resume n mallocs s (s.cont s.current) = resume n [] s (s.cont s.current) := by
  unfold ChunkSleepFails at h
  cases hk : s.cont s.current with
  | user => rfl
  | returns result => rfl
  | waitForPID => rfl
  | joinThread thread_id => rfl
  | mutexAcquire m cvar => exact mutexAcquireLoop_nodes m cvar mallocs s
  | cvarWait c mutex_id => exact mutexAcquire_nodes mallocs mutex_id (some c) s
  | ttyRead tty u_length => exact ttyReadLoop_nodes tty u_length mallocs s
  | ttyWriteTurn tty buffer =>
    rw [hk] at h
    exact ttyWriteTurn_nodes h
  | ttyWriteChunk tty buffer position =>
    rw [hk] at h
    exact ttyWriteChunks_nodes h

/-- **It does not matter which other sleeps fail**, but for `cvarWait`. -/
theorem handle_supplied (h : ¬ ChunkSleepFails s e) (n : Nat) :
    handle n s e = handle n s e.supplied := by
  cases e with
  | mutexAcquire mallocs mutex_id => exact mutexAcquire_nodes mallocs mutex_id none s
  | ttyRead mallocs tty u_length =>
    change ttyRead mallocs tty u_length s = ttyRead [] tty u_length s
    unfold ttyRead
    split
    · rfl
    · exact ttyReadLoop_nodes _ u_length mallocs s
  | ttyWrite mallocs tty length buffer => exact ttyWrite_nodes h
  | resume mallocs => exact resume_nodes h n
  | _ => rfl

theorem supplied_nodes (he : ∀ mallocs c m, e ≠ .cvarWait mallocs c m) :
    false ∉ e.supplied.nodes := by
  cases e with
  | cvarWait mallocs c m => exact absurd rfl (he mallocs c m)
  | ttyWrite mallocs tty length buffer =>
    change false ∉ (mallocs.take 1).tail
    cases mallocs with
    | nil => nofun
    | cons malloc mallocs => nofun
  | _ => nofun

/-- Nothing has happened that a terminal has to do with. -/
structure Aside (s : Sys) (k : Cont) (t : Sys) : Prop where
  goes : k = .user
  frame : ∀ tty, WriteFrame tty s t
  cont : t.cont = s.cont
  max_pid : t.max_pid = s.max_pid
  current : t.current = s.current

theorem aside_refl (s : Sys) : Aside s .user s :=
  ⟨rfl, fun _ => .congr rfl rfl rfl rfl rfl, rfl, rfl, rfl⟩

/-- What a handler does that has got all nodes, or has nothing to do with a terminal. -/
def Provides (s : Sys) (k : Cont) (t : Sys) : Prop :=
  (∃ e, false ∉ e.nodes ∧ Effect s e k t) ∨ Aside s k t

theorem Outcome.Has.mono {P Q : Cont → Sys → Prop} {o : Outcome} (h : o.Has P)
    (hPQ : ∀ k t, P k t → Q k t) : o.Has Q := by
  cases o with
  | ret r t => exact hPQ _ t h
  | schedule k t => exact ⟨h.1, hPQ k t h.2⟩
  | switched t => exact h
  | fault => exact True.intro

/-- A `cvarWait` that gets no node opens the mutex and takes it again. -/
theorem cvarWait_provides (hs : Objects s) (mallocs : List Bool) (cvar_id mutex_id : Int) :
    (cvarWait mallocs cvar_id mutex_id s).Has (Provides s) := by
  by_cases hnode : mallocs.head? = some false
  · cases hc : getResourceWithID cvar_id .RESOURCE_CVAR s with
    | none =>
      unfold cvarWait
      rw [hc]
      exact .inr (aside_refl s)
    | some r =>
      rcases located_cases s mutex_id .RESOURCE_MUTEX with hr | ⟨r', hr, hm⟩ | ⟨r', m, hr, hm⟩
      · unfold cvarWait mutexRelease
        rw [hc, hr]
        exact .inr (aside_refl s)
      · unfold cvarWait mutexRelease
        rw [hc, hr]
        dsimp only
        rw [hm]
        exact True.intro
      · rw [cvarWait_refused hc ⟨r', hr, hm⟩ hnode]
        right
        have hopen := (openMutex_synced m s).same
        refine ⟨rfl, fun tty => ?_, ?_, ?_, (openMutex_synced m s).current⟩
        · exact (writeFrame_openMutex m s).trans (.congr rfl rfl rfl rfl rfl)
        · change (openMutex m s).cont = _
          rw [hopen]
        · change (openMutex m s).max_pid = _
          rw [hopen]
  · have hsame : cvarWait mallocs cvar_id mutex_id s = cvarWait [] cvar_id mutex_id s := by
      cases mallocs with
      | nil => rfl
      | cons malloc mallocs =>
        cases malloc with
        | true =>
          unfold cvarWait
          cases getResourceWithID cvar_id .RESOURCE_CVAR s with
          | none => rfl
          | some r =>
            cases mutexRelease mutex_id s with
            | ret result t =>
              dsimp only
              split
              · rfl
              · cases r.location <;> rfl
            | _ => rfl
        | false => exact absurd rfl hnode
    rw [hsame]
    have hnone : false ∉ (Event.cvarWait [] cvar_id mutex_id).nodes := nofun
    exact (cvarWait_effect hs [] cvar_id mutex_id).mono fun k t heff => .inl ⟨_, hnone, heff⟩

/-- **All other sleeps may fail as they like.** -/
theorem handle_provided (hs : Objects s) (h : ¬ ChunkSleepFails s e)
    (he : ∀ status, e ≠ .exit status) (n : Nat) : (handle n s e).Has (Provides s) := by
  by_cases hwait : ∃ mallocs c m, e = .cvarWait mallocs c m
  · obtain ⟨mallocs, c, m, rfl⟩ := hwait
    exact cvarWait_provides hs mallocs c m
  · have hnodes := supplied_nodes (e := e) fun mallocs c m hcall => hwait ⟨mallocs, c, m, hcall⟩
    have hexit : ∀ status, e.supplied ≠ .exit status := by
      intro status hstatus
      cases e with
      | exit status' => exact he status' rfl
      | _ => cases hstatus
    rw [handle_supplied h]
    exact (handle_effect hs n hexit).mono fun k t heff => .inl ⟨_, hnodes, heff⟩

/-! ## The line to a terminal -/

/-- A transmission is outstanding only while its writer is on the queue of the terminal, and only the
writer is in the second loop of `ttyWrite`. -/
inductive Line (s : Sys) (tty : Nat) : Prop
  | free (turn : (s.ttys tty).write_current = 0) (outstanding : s.outstanding tty = 0)
      (none : ∀ q buffer position, s.cont q ≠ .ttyWriteChunk tty buffer position)
  | busy {p : PID} (turn : (s.ttys tty).write_current = p) (pid : 0 < p) (known : p ≤ s.max_pid)
      (only : ∀ q buffer position, s.cont q = .ttyWriteChunk tty buffer position → q = p)
      (outstanding : s.outstanding tty = 0 ∨
        s.outstanding tty = 1 ∧ ∃ node ∈ s.queue (.tty_write tty), node.process = p)

/-- At most one transmission has begun, and none was outstanding when it did. -/
def OneAtATime (s s' : Sys) (tty : Nat) : Prop :=
  s'.transmitted tty = s.transmitted tty ∨
    s.outstanding tty = 0 ∧ ∃ chunk, s'.transmitted tty = s.transmitted tty ++ [chunk]

theorem Line.frame (h : Line s tty) (hf : WriteFrame tty s t) (hmax : s.max_pid ≤ t.max_pid)
    (hcont : ∀ q buffer position, t.cont q = .ttyWriteChunk tty buffer position →
      s.cont q = .ttyWriteChunk tty buffer position) : Line t tty := by
  cases h with
  | free turn outstanding none =>
    exact .free (hf.write_current.trans turn) (hf.outstanding.trans outstanding)
      fun q b x hq => none q b x (hcont q b x hq)
  | busy turn pid known only outstanding =>
    refine .busy (hf.write_current.trans turn) pid (known.trans hmax)
      (fun q b x hq => only q b x (hcont q b x hq)) ?_
    rw [hf.outstanding, hf.queue]
    exact outstanding

/-- It does not matter who runs. -/
theorem Line.switch (h : Line s tty) (q : PID) : Line { s with current := q } tty :=
  h.frame (.congr rfl rfl rfl rfl rfl) (le_refl _) fun _ _ _ hq => hq

/-- The running process has the turn, and nothing is outstanding. -/
structure HasTurn (s : Sys) (tty : Nat) : Prop where
  turn : (s.ttys tty).write_current = s.current
  pid : 0 < s.current ∧ s.current ≤ s.max_pid
  alone : ∀ q, q ≠ s.current → ∀ buffer position, s.cont q ≠ .ttyWriteChunk tty buffer position
  outstanding : s.outstanding tty = 0

/-- It sends a chunk, and sleeps. -/
theorem HasTurn.send (h : HasTurn s tty) (bytes buffer : List UInt8) (position : Nat) :
    Line ((sleepOnWaitQueue (.tty_write tty) false (TtyTransmit tty bytes s)).setCont s.current
      (.ttyWriteChunk tty buffer position)) tty := by
  generalize ht : (sleepOnWaitQueue (.tty_write tty) false (TtyTransmit tty bytes s)).setCont s.current
    (.ttyWriteChunk tty buffer position) = t
  have hturn : (t.ttys tty).write_current = s.current := by
    rw [← ht]
    exact h.turn
  have hmax : t.max_pid = s.max_pid := by
    rw [← ht]
    rfl
  have hout : t.outstanding tty = 1 := by
    rw [← ht]
    change Function.update s.outstanding tty (s.outstanding tty + 1) tty = 1
    rw [Function.update_self, h.outstanding]
  have hqueue : ⟨false, s.current⟩ ∈ t.queue (.tty_write tty) := by
    rw [← ht]
    change _ ∈ (sleepOnWaitQueue (.tty_write tty) false (TtyTransmit tty bytes s)).queue _
    rw [sleep_queue_self, mem_addNodeToWaitQueue]
    exact .inl rfl
  refine .busy hturn h.pid.1 (hmax.ge.trans' h.pid.2) (fun q b x hq => ?_)
    (.inr ⟨hout, _, hqueue, rfl⟩)
  by_contra hne
  rw [← ht] at hq
  exact h.alone q hne b x ((Function.update_of_ne hne _ _).symm.trans hq)

/-- It gives the terminal back. -/
theorem HasTurn.finish (h : HasTurn s tty) :
    Line ((s.setTty tty { s.ttys tty with write_current := 0 }).setCont s.current .user) tty := by
  refine .free ?_ h.outstanding fun q b x hq => ?_
  · exact congrArg TTY.write_current (Function.update_self tty _ s.ttys)
  · rcases eq_or_ne q s.current with rfl | hne
    · have hself : Function.update s.cont s.current .user s.current = .user :=
        Function.update_self _ _ _
      have huser := hself.symm.trans hq
      cases huser
    · exact h.alone q hne b x ((Function.update_of_ne hne _ _).symm.trans hq)

/-- **A process that sends or has sent has the turn.** -/
theorem Line.hasTurn (h : Line s tty) (hr : Regular s) (hnodes : false ∉ e.nodes)
    (hw : Writing s e tty buffer position s₁) : HasTurn s₁ tty ∧ s₁.current = s.current ∧
      s.outstanding tty = 0 ∧ s₁.transmitted tty = s.transmitted tty := by
  cases hw with
  | resumed cont =>
    cases h with
    | free _ _ none => exact absurd cont (none _ _ _)
    | busy turn _ _ only outstanding =>
      have hp := only _ _ _ cont
      have hout : s.outstanding tty = 0 := by
        rcases outstanding with hout | ⟨-, node, hn, hnode⟩
        · exact hout
        · exact absurd (hnode.trans hp.symm) (hr.upright _ node hn)
      refine ⟨⟨turn.trans hp.symm, hr.numbered.current, fun q hq b x hc => ?_, hout⟩, rfl, hout, rfl⟩
      exact hq ((only q b x hc).trans hp.symm)
  | turn hfree =>
    cases h with
    | free _ outstanding none =>
      refine ⟨⟨?_, hr.numbered.current, fun q _ b x => none q b x, outstanding⟩, rfl, outstanding, rfl⟩
      exact congrArg TTY.write_current (Function.update_self tty _ s.ttys)
    | busy turn pid _ _ _ => exact absurd (turn.symm.trans hfree) pid.ne'
  | failed _ malloc _ => exact absurd malloc hnodes

/-- The terminal has finished with a transmission. -/
theorem Line.finished (h : Line s tty) : Line ((ttyWriteFinished tty
    { s with outstanding := Function.update s.outstanding tty (s.outstanding tty - 1) }).setCont
      s.current .user) tty ∧ OneAtATime s (ttyWriteFinished tty
    { s with outstanding := Function.update s.outstanding tty (s.outstanding tty - 1) }) tty := by
  generalize hu : ({ s with
    outstanding := Function.update s.outstanding tty (s.outstanding tty - 1) } : Sys) = u
  have hout : u.outstanding tty = s.outstanding tty - 1 := by
    rw [← hu]
    exact Function.update_self _ _ _
  have hsame : ttyWriteFinished tty u = { u with
      desc := (ttyWriteFinished tty u).desc, queue := (ttyWriteFinished tty u).queue } := by
    unfold ttyWriteFinished signalWaitQueue
    split
    · rfl
    · rw [signal_eq]
      rfl
  generalize ht : ttyWriteFinished tty u = t at hsame
  clear ht
  have hfinished : t.outstanding tty = s.outstanding tty - 1 := by
    rw [hsame]
    exact hout
  have hturn : (t.ttys tty).write_current = (s.ttys tty).write_current := by
    rw [hsame, ← hu]
  have hmax : t.max_pid = s.max_pid := by
    rw [hsame, ← hu]
  have htransmitted : t.transmitted tty = s.transmitted tty := by
    rw [hsame, ← hu]
  have hcont : ∀ q b x, (t.setCont s.current .user).cont q = .ttyWriteChunk tty b x →
      s.cont q = .ttyWriteChunk tty b x := by
    intro q b x hq
    have hsc : t.cont = s.cont := by
      rw [hsame, ← hu]
    change Function.update t.cont s.current .user q = _ at hq
    rcases eq_or_ne q s.current with rfl | hne
    · rw [Function.update_self] at hq
      cases hq
    · rw [Function.update_of_ne hne, hsc] at hq
      exact hq
  refine ⟨?_, .inl htransmitted⟩
  cases h with
  | free turn outstanding none =>
    refine .free (hturn.trans turn) ?_ fun q b x hq => none q b x (hcont q b x hq)
    change t.outstanding tty = 0
    rw [hfinished, outstanding]
  | busy turn pid known only outstanding =>
    refine .busy (hturn.trans turn) pid (hmax.ge.trans' known)
      (fun q b x hq => only q b x (hcont q b x hq)) (.inl ?_)
    change t.outstanding tty = 0
    rw [hfinished]
    rcases outstanding with hout | ⟨hout, -⟩
    · rw [hout]
    · rw [hout]

/-! ## Steps -/

/-- A process that finds the terminal busy sleeps behind the others. -/
theorem Line.turnSleep (h : Line s tty) (buffer : List UInt8) :
    Line ((sleepOnWaitQueue (.tty_write tty) true s).setCont s.current (.ttyWriteTurn tty buffer))
      tty := by
  have hcont : ∀ q b x, ((sleepOnWaitQueue (.tty_write tty) true s).setCont s.current
      (.ttyWriteTurn tty buffer)).cont q = .ttyWriteChunk tty b x →
        s.cont q = .ttyWriteChunk tty b x := by
    intro q b x hq
    change Function.update s.cont s.current _ q = _ at hq
    rcases eq_or_ne q s.current with rfl | hne
    · rw [Function.update_self] at hq
      cases hq
    · rwa [Function.update_of_ne hne] at hq
  cases h with
  | free turn outstanding none =>
    exact .free turn outstanding fun q b x hq => none q b x (hcont q b x hq)
  | busy turn pid known only outstanding =>
    refine .busy turn pid known (fun q b x hq => only q b x (hcont q b x hq)) ?_
    refine outstanding.imp_right fun hout => ⟨hout.1, ?_⟩
    obtain ⟨node, hn, hp⟩ := hout.2
    refine ⟨node, ?_, hp⟩
    change node ∈ (sleepOnWaitQueue (.tty_write tty) true s).queue _
    rw [sleep_queue_self, mem_addNodeToWaitQueue]
    exact .inr hn

theorem Line.effect (h : Line s tty) (hr : Regular s) (hnodes : false ∉ e.nodes)
    (he : Effect s e k t) : Line (t.setCont t.current k) tty ∧ OneAtATime s t tty := by
  have hcurrent := he.processes.current
  rw [hcurrent]
  cases he.writes tty with
  | same frame away =>
    refine ⟨h.frame (frame.trans (.congr rfl rfl rfl rfl rfl)) he.processes.max_pid_le
      fun q b x hq => ?_, .inl frame.transmitted⟩
    have hwaits : (Cont.ttyWriteChunk tty b x).queue.isSome := rfl
    rcases he.cont_cases q hwaits hq with ⟨-, rfl⟩ | ⟨-, hc⟩
    · exact absurd rfl away
    · exact hc
  | turnSleep _ goes ends =>
    rw [goes, ends]
    exact ⟨h.turnSleep _, .inl rfl⟩
  | @writeSleep buffer position s₁ writing _ goes ends =>
    obtain ⟨hturn, hsame, hout, htransmitted⟩ := h.hasTurn hr hnodes writing
    have hline := hturn.send
    rw [hsame] at hline
    rw [goes, ends]
    refine ⟨hline _ _ _, .inr ⟨hout, (buffer.drop position).take TERMINAL_MAX_LINE, ?_⟩⟩
    change Function.update s₁.transmitted tty _ tty = _
    rw [Function.update_self, htransmitted]
  | writeEnd writing _ goes ends =>
    obtain ⟨hturn, hsame, hout, htransmitted⟩ := h.hasTurn hr hnodes writing
    have hline := hturn.finish
    rw [hsame] at hline
    rw [goes, ends]
    exact ⟨hline, .inl htransmitted⟩
  | finished _ goes ends =>
    rw [goes, ends]
    exact h.finished

theorem Line.provided (h : Line s tty) (hr : Regular s) (hp : Provides s k t) :
    Line (t.setCont t.current k) tty ∧ OneAtATime s t tty := by
  rcases hp with ⟨e, hnodes, he⟩ | haside
  · exact h.effect hr hnodes he
  · have hframe := haside.frame tty
    rw [haside.goes, haside.current]
    refine ⟨h.frame (hframe.trans (.congr rfl rfl rfl rfl rfl)) haside.max_pid.ge fun q b x hq => ?_,
      .inl hframe.transmitted⟩
    change Function.update t.cont s.current .user q = _ at hq
    rcases eq_or_ne q s.current with rfl | hne
    · rw [Function.update_self] at hq
      cases hq
    · rwa [Function.update_of_ne hne, haside.cont] at hq

/-- **One step, in which the sleep after a `TtyTransmit` gets its node.** -/
theorem Line.step (h : Line s tty) (hr : Regular s) (hok : ¬ ChunkSleepFails s e)
    (hstep : Step s e s') : Line s' tty ∧ OneAtATime s s' tty := by
  have hobjects := hr.numbered.objects
  by_cases he : ∃ status, e = .exit status
  · obtain ⟨status, rfl⟩ := he
    obtain ⟨t, hkept, hend⟩ := hstep.exit_kept
    have hframe : WriteFrame tty s t := by
      unfold Kept at hkept
      rw [hkept]
      exact .congr rfl rfl rfl rfl rfl
    have hcont : t.cont = s.cont := by
      unfold Kept at hkept
      rw [hkept]
      rfl
    have hmax : t.max_pid = s.max_pid := by
      unfold Kept at hkept
      rw [hkept]
      rfl
    have hline : Line t tty := h.frame hframe hmax.ge fun q b x hq => by rwa [hcont] at hq
    rcases hend with rfl | ⟨q, rfl⟩
    · refine ⟨hline.frame (.congr rfl rfl rfl rfl rfl) (le_refl _) fun q b x hq => ?_,
        .inl hframe.transmitted⟩
      change Function.update t.cont t.current .user q = _ at hq
      rcases eq_or_ne q t.current with rfl | hne
      · rw [Function.update_self] at hq
        cases hq
      · rwa [Function.update_of_ne hne] at hq
    · exact ⟨hline.switch q, .inl hframe.transmitted⟩
  · obtain ⟨-, n, hend⟩ := hstep
    have hprovided := handle_provided hobjects hok (fun status hs => he ⟨status, hs⟩) n
    generalize handle n s e = o at hend hprovided
    cases hend with
    | ret => exact h.provided hr hprovided
    | schedule next =>
      obtain ⟨hline, hone⟩ := h.provided hr hprovided.2
      exact ⟨hline.switch _, hone⟩
    | switched => exact hprovided.elim

end Yalnix.System
