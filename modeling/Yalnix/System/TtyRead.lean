import Yalnix.System.Alive

/-!
# Reading from a terminal

* `Effect.reads` — what a handler does to the buffer of a terminal and to the queue of its readers.
* `Intact` — the bytes received are those delivered and those still in the buffer.
* `lost_line` — a line that comes in replaces what has not been read.
* `intact_run` — no byte is lost if lines come in only when the buffer has been read.
* `ReadersAttended` — while there is something to read and processes sleep, one that has been woken
  is about to read.
* `readersAttended_run` — this holds in all runs without exits.
-/

set_option autoImplicit false

namespace Yalnix.System

open Transition (Run)

variable {s s' t : Sys} {p q : PID} {e : Event} {k : Cont} {tty : Nat}

/-! ## Effects on the buffer -/

/-- Neither the buffer of a terminal nor its readers are concerned. -/
structure ReadFrame (tty : Nat) (s t : Sys) : Prop where
  buffer : (t.ttys tty).read_buffer = (s.ttys tty).read_buffer
  size : (t.ttys tty).read_buffer_size = (s.ttys tty).read_buffer_size
  position : (t.ttys tty).read_buffer_position = (s.ttys tty).read_buffer_position
  received : t.received tty = s.received tty
  delivered : t.delivered tty = s.delivered tty
  queue : t.queue (.tty_read tty) = s.queue (.tty_read tty)

theorem ReadFrame.congr (httys : t.ttys = s.ttys) (hreceived : t.received = s.received)
    (hdelivered : t.delivered = s.delivered) (hqueue : t.queue = s.queue) : ReadFrame tty s t := by
  constructor
  · rw [httys]
  · rw [httys]
  · rw [httys]
  · rw [hreceived]
  · rw [hdelivered]
  · rw [hqueue]

theorem ReadFrame.trans {s₁ : Sys} (h : ReadFrame tty s s₁) (h' : ReadFrame tty s₁ t) :
    ReadFrame tty s t :=
  ⟨h'.buffer.trans h.buffer, h'.size.trans h.size, h'.position.trans h.position,
    h'.received.trans h.received, h'.delivered.trans h.delivered, h'.queue.trans h.queue⟩

theorem readFrame_sleep {w : WaitQueue} (hw : .tty_read tty ≠ w) (b : Bool) (s : Sys) :
    ReadFrame tty s (sleepOnWaitQueue w b s) :=
  ⟨rfl, rfl, rfl, rfl, rfl, sleep_queue_of_ne _ _ _ hw⟩

theorem readFrame_signal {w : WaitQueue} (hw : .tty_read tty ≠ w) (b : Bool) (s : Sys) :
    ReadFrame tty s (signalWaitQueueWithOptions w b s) := by
  have hq := signal_queue_of_ne w b s hw
  rw [signal_eq] at hq ⊢
  exact ⟨rfl, rfl, rfl, rfl, rfl, hq⟩

theorem readFrame_openMutex (m : Nat) (s : Sys) : ReadFrame tty s (openMutex m s) := by
  have hbase : ReadFrame tty s { s.setMutex m ⟨false, none⟩ with
      locks := s.locks ++ [.released s.current m] } := .congr rfl rfl rfl rfl
  exact hbase.trans (readFrame_signal (by nofun) _ _)

theorem readFrame_acquire {m : Nat} (ha : Acquire m s k t) : ReadFrame tty s t := by
  cases ha with
  | again _ => exact .congr rfl rfl rfl rfl
  | take _ => exact .congr rfl rfl rfl rfl
  | block cvar _ => exact readFrame_sleep (by nofun) _ _

/-- Another terminal is changed, or a field that is not about reading. -/
theorem readFrame_setTty {tty' : Nat} {x : TTY} (h : tty' = tty →
      x.read_buffer = (s.ttys tty).read_buffer ∧ x.read_buffer_size = (s.ttys tty).read_buffer_size ∧
        x.read_buffer_position = (s.ttys tty).read_buffer_position) :
    ReadFrame tty s (s.setTty tty' x) := by
  rcases eq_or_ne tty tty' with rfl | hne
  · obtain ⟨hb, hs, hp⟩ := h rfl
    have hx : (s.setTty tty x).ttys tty = x := Function.update_self _ _ _
    constructor
    · rw [hx, hb]
    · rw [hx, hs]
    · rw [hx, hp]
    · rfl
    · rfl
    · rfl
  · have hx : (s.setTty tty' x).ttys tty = s.ttys tty := Function.update_of_ne hne _ _
    constructor
    · rw [hx]
    · rw [hx]
    · rw [hx]
    · rfl
    · rfl
    · rfl

theorem readFrame_writing {tty' position : Nat} {buffer : List UInt8} {s₁ : Sys}
    (hw : Writing s e tty' buffer position s₁) : ReadFrame tty s s₁ := by
  induction hw with
  | resumed _ => exact .congr rfl rfl rfl rfl
  | turn _ =>
    have hset : ReadFrame tty s (s.setTty tty' { s.ttys tty' with write_current := s.current }) := by
      refine readFrame_setTty fun h => ?_
      rw [h]
      exact ⟨rfl, rfl, rfl⟩
    exact hset.trans (.congr rfl rfl rfl rfl)
  | failed _ _ _ ih => exact ih.trans (.congr rfl rfl rfl rfl)

/-- What an effect does to the buffer of a terminal and to its readers. -/
inductive OnReads (s : Sys) (e : Event) (tty : Nat) (t : Sys) : Prop
  | same (frame : ReadFrame tty s t)
  | sleep (drained : (s.ttys tty).drained = true) (ends : t = sleepOnWaitQueue (.tty_read tty) true s)
  | read {u_length result : Int} (ready : (s.ttys tty).drained = false)
      (run : ttyReadChunk tty u_length s = .ret result t)
  | receive {malloc : Bool} {line : List UInt8} (event : e = .ttyReceive malloc tty line)
      (terminal : ¬ tty ≥ NUM_TERMINALS) (ends : t = ttyReadBegin malloc tty line s)

theorem readFrame_ttyRead {tty' : Nat} {u_length result : Int} (hne : tty' ≠ tty)
    (run : ttyReadChunk tty' u_length s = .ret result t) : ReadFrame tty s t := by
  obtain ⟨bytes, -, -, -, rfl⟩ := ttyReadChunk_some run
  refine ReadFrame.trans ?_ (readFrame_signal (by simpa using hne.symm) _ _)
  have hset : ReadFrame tty s (s.setTty tty' { s.ttys tty' with
      read_buffer_position := (s.ttys tty').read_buffer_position + result }) :=
    readFrame_setTty fun h => absurd h hne
  refine hset.trans ⟨rfl, rfl, rfl, rfl, ?_, rfl⟩
  exact Function.update_of_ne hne.symm _ _

theorem readFrame_ttyReadBegin {tty' : Nat} (hne : tty' ≠ tty) (malloc : Bool) (line : List UInt8)
    (s : Sys) : ReadFrame tty s (ttyReadBegin malloc tty' line s) := by
  unfold ttyReadBegin
  split
  · exact .congr rfl rfl rfl rfl
  · split
    · exact readFrame_setTty fun h => absurd h hne
    · refine ReadFrame.trans ?_ (readFrame_signal (by simpa using hne.symm) _ _)
      have hset : ReadFrame tty s (s.setTty tty' { s.ttys tty' with
          read_buffer := some line, read_buffer_size := line.length, read_buffer_position := 0 }) :=
        readFrame_setTty fun h => absurd h hne
      refine hset.trans ⟨rfl, rfl, rfl, ?_, rfl, rfl⟩
      exact Function.update_of_ne hne.symm _ _

theorem readFrame_ttyWriteFinished (tty' : Nat) (s : Sys) :
    ReadFrame tty s (ttyWriteFinished tty' s) := by
  unfold ttyWriteFinished
  split
  · exact .congr rfl rfl rfl rfl
  · have hne : WaitQueue.tty_read tty ≠ .tty_write tty' := nofun
    have hset : ReadFrame tty s
        (s.setQueue (.tty_write tty') (promote (s.queue (.tty_write tty')))) :=
      ⟨rfl, rfl, rfl, rfl, rfl, setQueue_queue_of_ne hne _ _⟩
    exact hset.trans (readFrame_signal hne _ _)

theorem Effect.reads (he : Effect s e k t) (tty : Nat) : OnReads s e tty t := by
  cases he with
  | quiet quiet _ _ _ =>
    rw [quiet.same]
    exact .same (.congr rfl rfl rfl rfl)
  | noMemory => exact .same (.congr rfl rfl rfl rfl)
  | fork leader made child listed =>
    subst made
    exact .same (.congr rfl rfl rfl rfl)
  | createThread leader made peer listed =>
    subst made
    exact .same (.congr rfl rfl rfl rfl)
  | acquire made acquire => exact .same (readFrame_acquire acquire)
  | release event made => exact .same (readFrame_openMutex _ s)
  | cvarWait mutex_id _ _ event made cmade =>
    exact .same ((readFrame_openMutex _ s).trans (readFrame_sleep (by nofun) _ _))
  | waitFails event made made' malloc acquire =>
    exact .same ((readFrame_openMutex _ s).trans (readFrame_acquire acquire))
  | signal exclusive _ _ => exact .same (readFrame_signal (by nofun) _ _)
  | @readSleep tty' u_length drained =>
    rcases eq_or_ne tty' tty with rfl | hne
    · exact .sleep drained rfl
    · exact .same (readFrame_sleep (by simpa using hne.symm) _ _)
  | @read tty' u_length result _ ready run =>
    rcases eq_or_ne tty' tty with rfl | hne
    · exact .read ready run
    · exact .same (readFrame_ttyRead hne run)
  | @receive malloc tty' line event =>
    rcases eq_or_ne tty' tty with rfl | hne
    · by_cases hterminal : tty' ≥ NUM_TERMINALS
      · have hnone : ttyReadBegin malloc tty' line s = s := if_pos hterminal
        rw [hnone]
        exact .same (.congr rfl rfl rfl rfl)
      · exact .receive event hterminal rfl
    · exact .same (readFrame_ttyReadBegin hne malloc line s)
  | turnSleep buffer busy => exact .same (readFrame_sleep (by nofun) _ _)
  | writeSleep writing more =>
    refine .same (((readFrame_writing writing).trans ?_).trans (readFrame_sleep (by nofun) _ _))
    exact .congr rfl rfl rfl rfl
  | writeEnd writing done =>
    refine .same ((readFrame_writing writing).trans (readFrame_setTty fun h => ?_))
    rw [h]
    exact ⟨rfl, rfl, rfl⟩
  | finished _ =>
    refine .same (ReadFrame.trans ?_ (readFrame_ttyWriteFinished _ _))
    exact .congr rfl rfl rfl rfl

/-! ## No byte is lost -/

/-- What is in the buffer and has not been read. -/
def TTY.unread (x : TTY) : List UInt8 := (x.read_buffer.getD []).drop x.read_buffer_position.toNat

/-- The position is in the line. -/
structure InLine (x : TTY) : Prop where
  size : ∀ line, x.read_buffer = some line → x.read_buffer_size = line.length
  nonneg : 0 ≤ x.read_buffer_position
  le_size : ∀ line, x.read_buffer = some line → x.read_buffer_position ≤ x.read_buffer_size

/-- The bytes a terminal has received are those its readers have got and those in its buffer. -/
structure Intact (s : Sys) (tty : Nat) : Prop where
  line : InLine (s.ttys tty)
  bytes : s.delivered tty ++ (s.ttys tty).unread = (s.received tty).flatten

theorem TTY.unread_of_drained {x : TTY} (hl : InLine x) (h : x.drained = true) : x.unread = [] := by
  unfold TTY.drained at h
  unfold TTY.unread
  cases hb : x.read_buffer with
  | none => exact List.drop_nil
  | some line =>
    rw [hb, Option.isNone_some, Bool.false_or, decide_eq_true_eq] at h
    have hsize := hl.size line hb
    rw [Option.getD_some]
    apply List.drop_eq_nil_of_le
    omega

theorem Intact.frame (h : Intact s tty) (hf : ReadFrame tty s t) : Intact t tty := by
  refine ⟨⟨?_, ?_, ?_⟩, ?_⟩
  · rw [hf.buffer, hf.size]
    exact h.line.size
  · rw [hf.position]
    exact h.line.nonneg
  · rw [hf.buffer, hf.size, hf.position]
    exact h.line.le_size
  · have hunread : (t.ttys tty).unread = (s.ttys tty).unread := by
      unfold TTY.unread
      rw [hf.buffer, hf.position]
    rw [hunread, hf.delivered, hf.received]
    exact h.bytes

theorem signal_delivered (w : WaitQueue) (b : Bool) (s : Sys) :
    (signalWaitQueueWithOptions w b s).delivered = s.delivered := by
  rw [signal_eq]; rfl

theorem signal_received (w : WaitQueue) (b : Bool) (s : Sys) :
    (signalWaitQueueWithOptions w b s).received = s.received := by
  rw [signal_eq]; rfl

/-- A read takes bytes from the front of what has not been read. -/
theorem Intact.read (h : Intact s tty) {u_length result : Int} (ready : (s.ttys tty).drained = false)
    (run : ttyReadChunk tty u_length s = .ret result t) : Intact t tty := by
  obtain ⟨bytes, hnonneg, hresult, hbytes, rfl⟩ := ttyReadChunk_some run
  unfold signalWaitQueue
  -- there is a line, and the position stays in it
  unfold TTY.drained at ready
  cases hb : (s.ttys tty).read_buffer with
  | none =>
    rw [hb] at ready
    cases ready
  | some line =>
    have hsize := h.line.size line hb
    have hpos := h.line.nonneg
    have hmin : result ≤ (s.ttys tty).read_buffer_size - (s.ttys tty).read_buffer_position := by
      rw [hresult]
      exact min_le_right _ _
    have hx : (signalWaitQueueWithOptions (.tty_read tty) true
        { s.setTty tty { s.ttys tty with
            read_buffer_position := (s.ttys tty).read_buffer_position + result } with
          delivered := Function.update s.delivered tty (s.delivered tty ++ bytes) }).ttys tty =
        { s.ttys tty with
          read_buffer_position := (s.ttys tty).read_buffer_position + result } := by
      rw [signal_ttys]
      exact Function.update_self _ _ _
    refine ⟨⟨?_, ?_, ?_⟩, ?_⟩
    · rw [hx]
      exact h.line.size
    · rw [hx]
      dsimp only
      omega
    · rw [hx]
      dsimp only
      omega
    · rw [hx, signal_delivered, signal_received]
      have hrec : (Function.update s.delivered tty (s.delivered tty ++ bytes)) tty =
          s.delivered tty ++ bytes := Function.update_self _ _ _
      have hchunk : bytes ++ (line.drop ((s.ttys tty).read_buffer_position + result).toNat) =
          line.drop (s.ttys tty).read_buffer_position.toNat := by
        rw [hb, Option.getD_some] at hbytes
        have hadd : ((s.ttys tty).read_buffer_position + result).toNat =
            (s.ttys tty).read_buffer_position.toNat + result.toNat := by
          omega
        rw [hbytes, hadd, ← List.drop_drop, List.take_append_drop]
      have hall := h.bytes
      unfold TTY.unread at hall ⊢
      rw [hb, Option.getD_some] at hall
      dsimp only
      rw [hrec, hb, Option.getD_some, List.append_assoc, hchunk]
      exact hall

/-- A line that comes in when the buffer has been read. -/
theorem Intact.receive (h : Intact s tty) (hd : (s.ttys tty).drained = true) (malloc : Bool)
    (line : List UInt8) : Intact (ttyReadBegin malloc tty line s) tty := by
  have hempty := TTY.unread_of_drained h.line hd
  have hbytes := h.bytes
  rw [hempty, List.append_nil] at hbytes
  unfold ttyReadBegin
  split
  · exact h
  · split
    · have hx : (s.setTty tty { s.ttys tty with read_buffer := none }).ttys tty =
          { s.ttys tty with read_buffer := none } := Function.update_self _ _ _
      refine ⟨⟨?_, ?_, ?_⟩, ?_⟩
      · rw [hx]
        nofun
      · rw [hx]
        exact h.line.nonneg
      · rw [hx]
        nofun
      · rw [hx]
        unfold TTY.unread
        dsimp only
        rw [Option.getD_none, List.drop_nil, List.append_nil]
        exact hbytes
    · dsimp only
      unfold signalWaitQueue
      have hx : (signalWaitQueueWithOptions (.tty_read tty) true
          { s.setTty tty { s.ttys tty with read_buffer := some line,
                                           read_buffer_size := line.length,
                                           read_buffer_position := 0 } with
            received := Function.update s.received tty (s.received tty ++ [line]) }).ttys tty =
          { s.ttys tty with read_buffer := some line,
                            read_buffer_size := line.length,
                            read_buffer_position := 0 } := by
        rw [signal_ttys]
        exact Function.update_self _ _ _
      refine ⟨⟨?_, ?_, ?_⟩, ?_⟩
      · rw [hx]
        intro line' hl
        cases hl
        rfl
      · rw [hx]
      · rw [hx]
        intro line' _
        exact Int.natCast_nonneg _
      · rw [hx, signal_delivered, signal_received]
        have hrec : (Function.update s.received tty (s.received tty ++ [line])) tty =
            s.received tty ++ [line] := Function.update_self _ _ _
        unfold TTY.unread
        dsimp only
        rw [hrec, List.flatten_append, List.flatten_singleton, ← hbytes]
        rfl

/-- Lines come in only when the buffer of the terminal has been read. -/
def ReceivesDrained (s : Sys) (e : Event) : Prop :=
  ∀ malloc tty line, e = .ttyReceive malloc tty line → (s.ttys tty).drained = true

theorem Intact.effect (h : Intact s tty) (hr : ReceivesDrained s e) (he : Effect s e k t) :
    Intact t tty := by
  cases he.reads tty with
  | same frame => exact h.frame frame
  | sleep drained ends =>
    subst ends
    exact ⟨h.line, h.bytes⟩
  | read ready run => exact h.read ready run
  | receive event _ ends =>
    subst ends
    exact h.receive (hr _ _ _ event) _ _

theorem Intact.step (h : Intact s tty) (ho : Objects s) (hr : ReceivesDrained s e)
    (hstep : Step s e s') : Intact s' tty := by
  by_cases he : ∃ status, e = .exit status
  · obtain ⟨status, rfl⟩ := he
    obtain ⟨t, hkept, hs⟩ := hstep.exit_kept
    have ht : Intact t tty := by
      unfold Kept at hkept
      rw [hkept]
      exact h.frame (.congr rfl rfl rfl rfl)
    rcases hs with rfl | ⟨q, rfl⟩
    · exact ht.frame (.congr rfl rfl rfl rfl)
    · exact ht.frame (.congr rfl rfl rfl rfl)
  · refine (hstep.leads ho fun status hs => he ⟨status, hs⟩).keeps (J := fun s => Intact s tty)
      (fun _ _ hJ => ⟨hJ.line, hJ.bytes⟩) fun k t heffect => ?_
    have ht := h.effect hr heffect
    exact ⟨ht.line, ht.bytes⟩

theorem intact_boot (tty : Nat) : Intact bootSys tty := by
  refine ⟨⟨?_, le_refl _, ?_⟩, rfl⟩
  · intro line hl
    cases hl
  · intro line hl
    cases hl

/-- **No byte is lost or delivered twice, in runs in which lines come in only after the line before
has been read.** -/
theorem intact_run : ∀ es s, Run (fun s e s' => ReceivesDrained s e ∧ Step s e s') bootSys es s →
    ∀ tty, s.delivered tty ++ (s.ttys tty).unread = (s.received tty).flatten := by
  intro es s h tty
  have hinv := h.invariant (P := fun s => Intact s tty ∧ Objects s)
    (fun s e s' hs hstep => ⟨hs.1.step hs.2 hstep.1 hstep.2, hs.2.step hstep.2⟩)
    ⟨intact_boot tty, objects_boot⟩
  exact hinv.1.bytes

/-- Two lines come in, and a process reads. -/
def twoLines : List Event :=
  [.ttyReceive true 0 [104, 105, 10], .ttyReceive true 0 [121, 111, 10], .ttyRead [] 0 8]

/-- **A line that comes in before the one before it has been read replaces it.** -/
theorem lost_line : ¬ ∀ es s, Run Step bootSys es s → ∀ tty,
    s.delivered tty <+: (s.received tty).flatten ∧
      s.delivered tty ++ (s.ttys tty).unread = (s.received tty).flatten := by
  have hrun : ((execAll 8 bootSys twoLines).map fun s =>
      (s.delivered 0, (s.received 0).flatten)) =
      some ([121, 111, 10], [104, 105, 10, 121, 111, 10]) := by
    decide +kernel
  obtain ⟨s, hs, heq⟩ := Option.map_eq_some_iff.mp hrun
  rw [Prod.mk.injEq] at heq
  intro hall
  have hprefix := (hall twoLines s (execAll_run hs) 0).1
  rw [heq.1, heq.2] at hprefix
  revert hprefix
  decide

theorem intact_run_read : ∃ s, Run (fun s e s' => ReceivesDrained s e ∧ Step s e s') bootSys
    [.ttyReceive true 0 [104, 105, 10], .ttyRead [] 0 2] s ∧ s.delivered 0 = [104, 105] ∧
      s.delivered 0 ++ (s.ttys 0).unread = (s.received 0).flatten := by
  have hrun : ((execAll 8 bootSys [.ttyReceive true 0 [104, 105, 10], .ttyRead [] 0 2]).map fun s =>
      s.delivered 0) = some [104, 105] := by
    decide +kernel
  obtain ⟨s, hs, heq⟩ := Option.map_eq_some_iff.mp hrun
  have hsteps : Run (fun s e s' => ReceivesDrained s e ∧ Step s e s') bootSys
      [.ttyReceive true 0 [104, 105, 10], .ttyRead [] 0 2] s := by
    cases execAll_run hs with
    | cons head tail =>
      refine .cons ⟨fun malloc tty line he => ?_, head⟩ (tail.mono_labels fun _ e _ he hstep => ?_)
      · cases he
        rfl
      · refine ⟨fun malloc tty line hr => ?_, hstep⟩
        rw [List.mem_singleton.mp he] at hr
        cases hr
  exact ⟨s, hsteps, heq, intact_run _ _ hsteps 0⟩

/-! ## No reader sleeps on -/

/-- While there is something to read and processes sleep, one is about to test the buffer. -/
def ReadersAttended (s : Sys) (tty : Nat) : Prop :=
  (s.ttys tty).drained = false → s.queue (.tty_read tty) ≠ [] → Pending s (.tty_read tty)

theorem queue_eq_tty_read {k : Cont} (h : k.queue = some (.tty_read tty)) :
    ∃ u_length, k = .ttyRead tty u_length := by
  cases k with
  | ttyRead tty' u_length =>
    cases h
    exact ⟨u_length, rfl⟩
  | _ => cases h

/-- Whoever sleeps first is woken when the queue is signalled. -/
theorem signal_read_pending (ha : Alive s) (he : Effect s e k t) {s₁ : Sys} (h₁ : Asleep s₁)
    (hq : s₁.queue = s.queue)
    (ht : t = signalWaitQueueWithOptions (.tty_read tty) true s₁)
    (hqueue : t.queue (.tty_read tty) ≠ []) : Pending (t.setCont s.current k) (.tty_read tty) := by
  obtain ⟨htail, hstate⟩ := h₁.signal_wakes (w := .tty_read tty) nofun
  cases hs : s₁.queue (.tty_read tty) with
  | nil =>
    rw [ht, htail, hs] at hqueue
    exact absurd rfl hqueue
  | cons node rest =>
    have hn : node ∈ s.queue (.tty_read tty) := by
      rw [← hq, hs]
      exact List.mem_cons_self
    refine ha.woken he hn ?_
    rw [ht, hstate, hs]
    exact if_pos rfl

/-- A read wakes the reader that sleeps first. -/
theorem readersAttended_read (ha : Alive s) (e : Event) {u_length result : Int}
    (ready : (s.ttys tty).drained = false) (run : ttyReadChunk tty u_length s = .ret result t) :
    ReadersAttended (t.setCont s.current .user) tty := by
  intro _ hqueue
  have he : Effect s e .user t := .read ready run
  obtain ⟨bytes, -, -, -, ht⟩ := ttyReadChunk_some run
  refine signal_read_pending ha he ?_ ?_ ht hqueue
  · exact ha.asleep.congr rfl rfl rfl (le_refl _) rfl
  · rfl

/-- So does a line that comes in. -/
theorem readersAttended_receive (ha : Alive s) {malloc : Bool} {line : List UInt8}
    (he : Effect s e k (ttyReadBegin malloc tty line s)) (hterminal : ¬ tty ≥ NUM_TERMINALS) :
    ReadersAttended ((ttyReadBegin malloc tty line s).setCont s.current k) tty := by
  intro hready hqueue
  cases malloc with
  | false =>
    have hnone : ((ttyReadBegin false tty line s).ttys tty).read_buffer = none := by
      unfold ttyReadBegin
      rw [if_neg hterminal, if_pos (by rfl)]
      unfold Sys.setTty
      dsimp only
      rw [Function.update_self]
    have hdrained : ((ttyReadBegin false tty line s).ttys tty).drained = true := by
      unfold TTY.drained
      rw [hnone]
      rfl
    exact absurd (hdrained.symm.trans hready) (by decide)
  | true =>
    have ends : ttyReadBegin true tty line s = signalWaitQueueWithOptions (.tty_read tty) true
        { s.setTty tty { s.ttys tty with read_buffer := some line, read_buffer_size := line.length,
                                         read_buffer_position := 0 } with
          received := Function.update s.received tty (s.received tty ++ [line]) } := by
      unfold ttyReadBegin
      rw [if_neg hterminal, if_neg (by decide)]
      rfl
    refine signal_read_pending ha he ?_ ?_ ends hqueue
    · exact ha.asleep.congr rfl rfl rfl (le_refl _) rfl
    · rfl

theorem ReadersAttended.effect (h : ReadersAttended s tty) (ha : Alive s) (he : Effect s e k t)
    (hk : (s.cont s.current).queue ≠ some (.tty_read tty)) :
    ReadersAttended (t.setCont s.current k) tty := by
  intro hready hqueue
  cases he.reads tty with
  | same frame =>
    have hdrained : (t.ttys tty).drained = (s.ttys tty).drained := by
      unfold TTY.drained
      rw [frame.buffer, frame.position, frame.size]
    have hready' : (s.ttys tty).drained = false := hdrained.symm.trans hready
    have hqueue' : s.queue (.tty_read tty) ≠ [] := by
      rw [← frame.queue]
      exact hqueue
    exact (h hready' hqueue').persists ha he hk
  | sleep drained ends =>
    subst ends
    exact absurd (drained.symm.trans hready) (by decide)
  | read ready run =>
    obtain ⟨bytes, -, -, -, ht⟩ := ttyReadChunk_some run
    refine signal_read_pending ha he ?_ ?_ ht hqueue
    · exact ha.asleep.congr rfl rfl rfl (le_refl _) rfl
    · rfl
  | receive event terminal ends =>
    subst ends
    exact readersAttended_receive ha he terminal hready hqueue

theorem ReadersAttended.step (h : ReadersAttended s tty) (ha : Alive s) (hstep : Peaceful s e s') :
    ReadersAttended s' tty := by
  by_cases hk : (s.cont s.current).queue = some (.tty_read tty)
  · -- the running process has been woken: it reads, or finds the buffer drained
    obtain ⟨u_length, hk⟩ := queue_eq_tty_read hk
    obtain ⟨mallocs, n, -, hends⟩ := hstep.1.resumes (by rw [hk]; nofun)
    rw [hk] at hends
    have hrun : resume n mallocs s (.ttyRead tty u_length) = ttyReadLoop tty u_length mallocs s := rfl
    rw [hrun] at hends
    rcases ttyReadLoop_cases tty u_length mallocs s with ⟨hd, ho⟩ | ⟨hd, ho⟩
    · rw [ho] at hends
      cases hends
      intro hready _
      exact absurd (hd.symm.trans hready) (by decide)
    · rw [ho] at hends
      rcases ttyReadChunk_ret tty u_length s with hf | ⟨r, t, ht⟩
      · rw [hf] at hends
        cases hends
      · rw [ht] at hends
        cases hends
        have hcurrent : t.current = s.current :=
          (Effect.read (e := .wait) hd ht).processes.current
        rw [hcurrent]
        exact readersAttended_read ha .wait hd ht
  · refine (hstep.leads ha).keeps (J := fun s => ReadersAttended s tty)
      (fun _ q hJ hr hq => (hJ hr hq).setCurrent q) fun k t he => ?_
    exact h.effect ha he hk

/-- **No reader sleeps on while there is something to read, unless another one is about to.** -/
theorem readersAttended_run : ∀ es s, Run Peaceful bootSys es s → ∀ tty,
    (s.ttys tty).drained = false → s.queue (.tty_read tty) ≠ [] →
      ∃ p, Ready s p ∧ ∃ u_length, s.cont p = .ttyRead tty u_length := by
  intro es s h tty hready hqueue
  have hinv := h.invariant (P := fun s => ReadersAttended s tty ∧ Alive s)
    (fun s e s' hs hstep => ⟨hs.1.step hs.2 hstep, hs.2.step hstep⟩)
    ⟨fun _ hq => absurd rfl hq, alive_boot⟩
  obtain ⟨p, hp, hk⟩ := hinv.1 hready hqueue
  exact ⟨p, hp, queue_eq_tty_read hk⟩

/-- Processes 1 and 2 wait for input, and a line comes in while process 3 runs. -/
def lineForTwo : List Event :=
  [.fork true, .fork true, .ttyRead [] 0 2, .resume [], .ttyRead [] 0 2, .resume [],
    .ttyReceive true 0 [104, 105, 10]]

theorem readersAttended_run_line : ∃ s, Run Peaceful bootSys lineForTwo s ∧
    ∃ p, Ready s p ∧ ∃ u_length, s.cont p = .ttyRead 0 u_length := by
  have hrun : ((execAll 8 bootSys lineForTwo).map fun s =>
      ((s.ttys 0).drained, (s.queue (.tty_read 0)).map WaitQueueNode.process)) =
      some (false, [2]) := by
    decide +kernel
  obtain ⟨s, hs, heq⟩ := Option.map_eq_some_iff.mp hrun
  rw [Prod.mk.injEq] at heq
  have hsteps : Run Peaceful bootSys lineForTwo s :=
    peaceful_of_run (execAll_run hs) (by simp [lineForTwo])
  refine ⟨s, hsteps, readersAttended_run _ _ hsteps 0 heq.1 ?_⟩
  intro hq
  rw [hq] at heq
  cases heq.2

end Yalnix.System
