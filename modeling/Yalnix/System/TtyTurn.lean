import Yalnix.System.CondVar

/-!
# The turn of a terminal

* `Effect.writes` — what a handler does to the writers of a terminal.
* `Writers` — the process that writes is first in the queue while a transmission is outstanding, and
  what has been transmitted is what has been written, up to where it is.
* `Writers.takeTurn`, `AtTurn.send`, `AtTurn.finish` — a process begins, goes on with and ends a
  message.
-/

set_option autoImplicit false

namespace Yalnix.System

variable {s s' s₁ t : Sys} {p q : PID} {e : Event} {k : Cont} {tty position : Nat}
  {buffer : List UInt8}

/-! ## Effects on the writers -/

/-- The writers of a terminal are not concerned. -/
structure WriteFrame (tty : Nat) (s t : Sys) : Prop where
  write_current : (t.ttys tty).write_current = (s.ttys tty).write_current
  outstanding : t.outstanding tty = s.outstanding tty
  messages : t.messages tty = s.messages tty
  transmitted : t.transmitted tty = s.transmitted tty
  queue : t.queue (.tty_write tty) = s.queue (.tty_write tty)

theorem WriteFrame.congr (httys : t.ttys = s.ttys) (houtstanding : t.outstanding = s.outstanding)
    (hmessages : t.messages = s.messages) (htransmitted : t.transmitted = s.transmitted)
    (hqueue : t.queue = s.queue) : WriteFrame tty s t := by
  constructor
  · rw [httys]
  · rw [houtstanding]
  · rw [hmessages]
  · rw [htransmitted]
  · rw [hqueue]

theorem WriteFrame.trans (h : WriteFrame tty s s₁) (h' : WriteFrame tty s₁ t) : WriteFrame tty s t :=
  ⟨h'.write_current.trans h.write_current, h'.outstanding.trans h.outstanding,
    h'.messages.trans h.messages, h'.transmitted.trans h.transmitted, h'.queue.trans h.queue⟩

theorem writeFrame_sleep {w : WaitQueue} (hw : .tty_write tty ≠ w) (b : Bool) (s : Sys) :
    WriteFrame tty s (sleepOnWaitQueue w b s) :=
  ⟨rfl, rfl, rfl, rfl, sleep_queue_of_ne _ _ _ hw⟩

theorem writeFrame_signal {w : WaitQueue} (hw : .tty_write tty ≠ w) (b : Bool) (s : Sys) :
    WriteFrame tty s (signalWaitQueueWithOptions w b s) := by
  have hq := signal_queue_of_ne w b s hw
  rw [signal_eq] at hq ⊢
  exact ⟨rfl, rfl, rfl, rfl, hq⟩

theorem writeFrame_openMutex (m : Nat) (s : Sys) : WriteFrame tty s (openMutex m s) := by
  have hbase : WriteFrame tty s { s.setMutex m ⟨false, none⟩ with
      locks := s.locks ++ [.released s.current m] } := .congr rfl rfl rfl rfl rfl
  exact hbase.trans (writeFrame_signal (by nofun) _ _)

theorem writeFrame_acquire {m : Nat} (ha : Acquire m s k t) : WriteFrame tty s t := by
  cases ha with
  | again _ => exact .congr rfl rfl rfl rfl rfl
  | take _ => exact .congr rfl rfl rfl rfl rfl
  | block cvar _ => exact writeFrame_sleep (by nofun) _ _

theorem writeFrame_setTty {tty' : Nat} {x : TTY}
    (h : tty' = tty → x.write_current = (s.ttys tty).write_current) :
    WriteFrame tty s (s.setTty tty' x) := by
  refine ⟨?_, rfl, rfl, rfl, rfl⟩
  unfold Sys.setTty
  dsimp only
  rcases eq_or_ne tty tty' with rfl | hne
  · rw [Function.update_self]
    exact h rfl
  · rw [Function.update_of_ne hne]

theorem writeFrame_ttyRead {tty' : Nat} {u_length result : Int}
    (run : ttyReadChunk tty' u_length s = .ret result t) : WriteFrame tty s t := by
  obtain ⟨bytes, -, -, -, rfl⟩ := ttyReadChunk_some run
  refine WriteFrame.trans ?_ (writeFrame_signal (by nofun) _ _)
  have hset : WriteFrame tty s (s.setTty tty' { s.ttys tty' with
      read_buffer_position := (s.ttys tty').read_buffer_position + result }) :=
    writeFrame_setTty fun h => by rw [h]
  exact hset.trans (.congr rfl rfl rfl rfl rfl)

theorem writeFrame_ttyReadBegin (malloc : Bool) (tty' : Nat) (line : List UInt8) (s : Sys) :
    WriteFrame tty s (ttyReadBegin malloc tty' line s) := by
  unfold ttyReadBegin
  split
  · exact .congr rfl rfl rfl rfl rfl
  · split
    · exact writeFrame_setTty fun h => by rw [h]
    · refine WriteFrame.trans ?_ (writeFrame_signal (by nofun) _ _)
      have hset : WriteFrame tty s (s.setTty tty' { s.ttys tty' with
          read_buffer := some line, read_buffer_size := line.length, read_buffer_position := 0 }) :=
        writeFrame_setTty fun h => by rw [h]
      exact hset.trans (.congr rfl rfl rfl rfl rfl)

theorem writeFrame_transmit {tty' : Nat} (hne : tty' ≠ tty) (bytes : List UInt8) (s : Sys) :
    WriteFrame tty s (TtyTransmit tty' bytes s) :=
  ⟨rfl, Function.update_of_ne hne.symm _ _, rfl, Function.update_of_ne hne.symm _ _, rfl⟩

theorem writeFrame_writing {tty' : Nat} (hne : tty' ≠ tty) (hw : Writing s e tty' buffer position s₁) :
    WriteFrame tty s s₁ := by
  induction hw with
  | resumed _ => exact .congr rfl rfl rfl rfl rfl
  | turn _ =>
    have hset : WriteFrame tty s (s.setTty tty' { s.ttys tty' with write_current := s.current }) :=
      writeFrame_setTty fun h => absurd h hne
    refine hset.trans ⟨rfl, rfl, ?_, rfl, rfl⟩
    exact Function.update_of_ne hne.symm _ _
  | failed _ _ _ ih => exact ih.trans (writeFrame_transmit hne _ _)

theorem writeFrame_ttyWriteFinished {tty' : Nat} (hne : tty' ≠ tty) (s : Sys) :
    WriteFrame tty s (ttyWriteFinished tty' s) := by
  have hq := ttyWriteFinished_queue_of_ne (v := .tty_write tty) (by simpa using hne.symm) s
  unfold ttyWriteFinished signalWaitQueue at hq ⊢
  split
  · exact .congr rfl rfl rfl rfl rfl
  · rename_i hterminal
    rw [if_neg hterminal] at hq
    rw [signal_eq] at hq ⊢
    exact ⟨rfl, rfl, rfl, rfl, hq⟩

/-- What an effect does to the writers of a terminal. -/
inductive OnWrites (s : Sys) (e : Event) (tty : Nat) (k : Cont) (t : Sys) : Prop
  | same (frame : WriteFrame tty s t) (away : k.queue ≠ some (.tty_write tty))
  | turnSleep {buffer : List UInt8} (busy : (s.ttys tty).write_current ≠ 0)
      (goes : k = .ttyWriteTurn tty buffer) (ends : t = sleepOnWaitQueue (.tty_write tty) true s)
  | writeSleep {buffer : List UInt8} {position : Nat} {s₁ : Sys}
      (writing : Writing s e tty buffer position s₁) (more : position < buffer.length)
      (goes : k = .ttyWriteChunk tty buffer (position + TERMINAL_MAX_LINE))
      (ends : t = sleepOnWaitQueue (.tty_write tty) false
        (TtyTransmit tty ((buffer.drop position).take TERMINAL_MAX_LINE) s₁))
  | writeEnd {buffer : List UInt8} {position : Nat} {s₁ : Sys}
      (writing : Writing s e tty buffer position s₁) (done : buffer.length ≤ position)
      (goes : k = .user) (ends : t = s₁.setTty tty { s₁.ttys tty with write_current := 0 })
  | finished (event : e = .ttyTransmit tty) (goes : k = .user) (ends : t = ttyWriteFinished tty
      { s with outstanding := Function.update s.outstanding tty (s.outstanding tty - 1) })

theorem Effect.writes (he : Effect s e k t) (tty : Nat) : OnWrites s e tty k t := by
  cases he with
  | quiet quiet queue _ _ =>
    rw [quiet.same]
    exact .same (.congr rfl rfl rfl rfl rfl) (by rw [queue]; nofun)
  | noMemory => exact .same (.congr rfl rfl rfl rfl rfl) nofun
  | fork leader made child listed =>
    subst made
    exact .same (.congr rfl rfl rfl rfl rfl) nofun
  | createThread leader made peer listed =>
    subst made
    exact .same (.congr rfl rfl rfl rfl rfl) nofun
  | acquire made acquire =>
    refine .same (writeFrame_acquire acquire) ?_
    cases acquire with
    | again _ => nofun
    | take _ => nofun
    | block cvar _ => nofun
  | release event made => exact .same (writeFrame_openMutex _ s) nofun
  | cvarWait mutex_id _ _ event made cmade =>
    exact .same ((writeFrame_openMutex _ s).trans (writeFrame_sleep (by nofun) _ _)) nofun
  | waitFails event made made' malloc acquire =>
    refine .same ((writeFrame_openMutex _ s).trans (writeFrame_acquire acquire)) ?_
    cases acquire with
    | again _ => nofun
    | take _ => nofun
    | block cvar _ => nofun
  | signal exclusive _ _ => exact .same (writeFrame_signal (by nofun) _ _) nofun
  | readSleep u_length drained => exact .same (writeFrame_sleep (by nofun) _ _) nofun
  | read ready run => exact .same (writeFrame_ttyRead run) nofun
  | receive event => exact .same (writeFrame_ttyReadBegin _ _ _ s) nofun
  | @turnSleep tty' buffer busy =>
    rcases eq_or_ne tty' tty with rfl | hne
    · exact .turnSleep busy rfl rfl
    · exact .same (writeFrame_sleep (by simpa using hne.symm) _ _) (by simpa [Cont.queue] using hne)
  | @writeSleep tty' position buffer s₁ writing more =>
    rcases eq_or_ne tty' tty with rfl | hne
    · exact .writeSleep writing more rfl rfl
    · refine .same (((writeFrame_writing hne writing).trans (writeFrame_transmit hne _ _)).trans
        (writeFrame_sleep (by simpa using hne.symm) _ _)) (by simpa [Cont.queue] using hne)
  | @writeEnd tty' position buffer s₁ writing done =>
    rcases eq_or_ne tty' tty with rfl | hne
    · exact .writeEnd writing done rfl rfl
    · refine .same ((writeFrame_writing hne writing).trans ?_) nofun
      exact writeFrame_setTty fun h => absurd h hne
  | @finished tty' event =>
    rcases eq_or_ne tty' tty with rfl | hne
    · exact .finished event rfl rfl
    · refine .same (WriteFrame.trans ?_ (writeFrame_ttyWriteFinished hne _)) nofun
      exact ⟨rfl, Function.update_of_ne hne.symm _ _, rfl, rfl, rfl⟩

/-! ## The turn of a terminal -/

/-- A process is writing `buffer`; `before` are the messages written before, and it has come to
`position`. -/
structure Message (s : Sys) (tty : Nat) (p : PID) (buffer : List UInt8) (position : Nat)
    (before : List (List UInt8)) : Prop where
  writer : (s.ttys tty).write_current = p
  pid : p ≠ 0
  messages : s.messages tty = before ++ [buffer]
  bytes : (s.transmitted tty).flatten = before.flatten ++ buffer.take position

/-- The process will go on in the second loop of `ttyWrite`, and no other process will. -/
structure Writes (s : Sys) (tty : Nat) (p : PID) (buffer : List UInt8) (position : Nat) : Prop where
  known : p ≤ s.max_pid
  cont : s.cont p = .ttyWriteChunk tty buffer position
  only : ∀ q buffer' position', s.cont q = .ttyWriteChunk tty buffer' position' → q = p

inductive Turn (s : Sys) (tty : Nat) : Prop
  /-- Nobody is writing. -/
  | free (current : (s.ttys tty).write_current = 0) (outstanding : s.outstanding tty = 0)
      (none : ∀ q buffer position, s.cont q ≠ .ttyWriteChunk tty buffer position)
      (bytes : (s.transmitted tty).flatten = (s.messages tty).flatten)
      (exclusive : ∀ node ∈ s.queue (.tty_write tty), node.is_exclusive = true)
  /-- A transmission is outstanding, and the writer sleeps in front of all others. -/
  | sending {p : PID} {buffer : List UInt8} {position : Nat} {before : List (List UInt8)}
      {rest : List WaitQueueNode} (message : Message s tty p buffer position before)
      (writes : Writes s tty p buffer position) (outstanding : s.outstanding tty = 1)
      (queue : s.queue (.tty_write tty) = ⟨false, p⟩ :: rest)
      (exclusive : ∀ node ∈ rest, node.is_exclusive = true)
  /-- The transmission has finished, and the writer has been woken. -/
  | sent {p : PID} {buffer : List UInt8} {position : Nat} {before : List (List UInt8)}
      (message : Message s tty p buffer position before) (writes : Writes s tty p buffer position)
      (outstanding : s.outstanding tty = 0)
      (exclusive : ∀ node ∈ s.queue (.tty_write tty), node.is_exclusive = true)

structure Writers (s : Sys) (tty : Nat) : Prop where
  turn : Turn s tty
  chunks : ∀ chunk ∈ s.transmitted tty, 1 ≤ chunk.length ∧ chunk.length ≤ TERMINAL_MAX_LINE
  waiting : ∀ p buffer, s.cont p = .ttyWriteTurn tty buffer →
    p ∈ (s.queue (.tty_write tty)).map WaitQueueNode.process

theorem Message.frame {before : List (List UInt8)} (h : Message s tty p buffer position before)
    (hf : WriteFrame tty s t) : Message t tty p buffer position before := by
  refine ⟨?_, h.pid, ?_, ?_⟩
  · rw [hf.write_current]
    exact h.writer
  · rw [hf.messages]
    exact h.messages
  · rw [hf.transmitted]
    exact h.bytes

/-- A process that is not concerned with the terminal has run. -/
theorem Writes.other (h : Writes s tty p buffer position) (hmax : s.max_pid ≤ t.max_pid)
    (hold : ∀ q, q ≠ s.current → q ≤ s.max_pid → t.cont q = s.cont q) (hp : p ≠ s.current)
    (hnew : ∀ q buffer position, t.cont q = .ttyWriteChunk tty buffer position →
      s.cont q = .ttyWriteChunk tty buffer position) : Writes t tty p buffer position :=
  ⟨h.known.trans hmax, (hold p hp h.known).trans h.cont,
    fun q b pos hq => h.only q b pos (hnew q b pos hq)⟩

/-! ## Where processes go on -/

theorem OnProcesses.max_pid_le (hp : OnProcesses s e k t) : s.max_pid ≤ t.max_pid := by
  cases hp with
  | synced synced =>
    rw [synced.same]
  | quiet quiet _ _ _ =>
    rw [quiet.same]
  | noMemory => exact Nat.le_succ _
  | fork leader made child listed =>
    subst made
    exact Nat.le_succ _
  | createThread leader made peer listed =>
    subst made
    exact Nat.le_succ _

theorem OnProcesses.cont_cases (hp : OnProcesses s e k t) (q : PID) :
    t.cont q = s.cont q ∨ t.cont q = .returns 0 := by
  have hnew : ∀ d, ((Sys.newProcess { s with max_pid := s.max_pid + 1 } (s.max_pid + 1) d).cont q =
      s.cont q ∨ (Sys.newProcess { s with max_pid := s.max_pid + 1 } (s.max_pid + 1) d).cont q =
      .returns 0) := by
    intro d
    rcases eq_or_ne q (s.max_pid + 1) with rfl | hne
    · exact .inr (Function.update_self _ _ _)
    · exact .inl (Function.update_of_ne hne _ _)
  cases hp with
  | synced synced =>
    refine .inl ?_
    rw [synced.same]
  | quiet quiet _ _ _ =>
    refine .inl ?_
    rw [quiet.same]
  | noMemory => exact .inl rfl
  | fork leader made child listed =>
    subst made
    exact hnew _
  | createThread leader made peer listed =>
    subst made
    exact hnew _

/-- After an effect a process is in a loop of `ttyWrite` if it was before, or goes there now. -/
theorem Effect.cont_cases (he : Effect s e k t) (q : PID) {k' : Cont} (hk' : k'.queue.isSome)
    (hq : (t.setCont s.current k).cont q = k') :
    q = s.current ∧ k = k' ∨ q ≠ s.current ∧ s.cont q = k' := by
  rcases eq_or_ne q s.current with rfl | hne
  · exact .inl ⟨rfl, (Function.update_self _ _ _).symm.trans hq⟩
  · have ht : (t.setCont s.current k).cont q = t.cont q := Function.update_of_ne hne _ _
    rw [ht] at hq
    rcases he.processes.cont_cases q with hc | hc
    · exact .inr ⟨hne, hc.symm.trans hq⟩
    · rw [hc] at hq
      subst hq
      cases hk'

/-! ## Sending a chunk -/

/-- The running process has the turn and is about to send the chunk at `position`. -/
structure AtTurn (s : Sys) (tty : Nat) (buffer : List UInt8) (position : Nat)
    (before : List (List UInt8)) : Prop where
  message : Message s tty s.current buffer position before
  known : s.current ≤ s.max_pid
  none : ∀ q, q ≠ s.current → ∀ buffer position, s.cont q ≠ .ttyWriteChunk tty buffer position
  outstanding : s.outstanding tty = 0
  exclusive : ∀ node ∈ s.queue (.tty_write tty), node.is_exclusive = true
  chunks : ∀ chunk ∈ s.transmitted tty, 1 ≤ chunk.length ∧ chunk.length ≤ TERMINAL_MAX_LINE
  waiting : ∀ p, p ≠ s.current → ∀ buffer, s.cont p = .ttyWriteTurn tty buffer →
    p ∈ (s.queue (.tty_write tty)).map WaitQueueNode.process

/-- It sends the chunk and goes to sleep in front of all others. -/
theorem AtTurn.send {before : List (List UInt8)} (h : AtTurn s tty buffer position before)
    (more : position < buffer.length)
    (ht : t = (sleepOnWaitQueue (.tty_write tty) false
      (TtyTransmit tty ((buffer.drop position).take TERMINAL_MAX_LINE) s)).setCont s.current
      (.ttyWriteChunk tty buffer (position + TERMINAL_MAX_LINE))) : Writers t tty := by
  have hlen : ((buffer.drop position).take TERMINAL_MAX_LINE).length =
      min TERMINAL_MAX_LINE (buffer.length - position) := by
    rw [List.length_take, List.length_drop]
  have httys : t.ttys = s.ttys := by
    rw [ht]
    rfl
  have hmessages : t.messages = s.messages := by
    rw [ht]
    rfl
  have hmax : t.max_pid = s.max_pid := by
    rw [ht]
    rfl
  have htransmitted : t.transmitted tty =
      s.transmitted tty ++ [(buffer.drop position).take TERMINAL_MAX_LINE] := by
    rw [ht]
    exact Function.update_self _ _ _
  have houtstanding : t.outstanding tty = s.outstanding tty + 1 := by
    rw [ht]
    exact Function.update_self _ _ _
  have hqueue : t.queue (.tty_write tty) = ⟨false, s.current⟩ :: s.queue (.tty_write tty) := by
    rw [ht]
    exact sleep_queue_self _ _ _
  have hcont : ∀ q, q ≠ s.current → t.cont q = s.cont q := by
    intro q hq
    rw [ht]
    exact Function.update_of_ne hq _ _
  have hself : t.cont s.current = .ttyWriteChunk tty buffer (position + TERMINAL_MAX_LINE) := by
    rw [ht]
    exact Function.update_self _ _ _
  clear ht
  have hmessage : Message t tty s.current buffer (position + TERMINAL_MAX_LINE) before := by
    refine ⟨?_, h.message.pid, ?_, ?_⟩
    · rw [httys]
      exact h.message.writer
    · rw [hmessages]
      exact h.message.messages
    · rw [htransmitted, List.flatten_append, List.flatten_singleton, h.message.bytes,
        List.append_assoc, List.take_add]
  refine ⟨.sending hmessage ⟨?_, hself, fun q b x hq => ?_⟩ ?_ hqueue h.exclusive,
    fun chunk hc => ?_, fun p b hp => ?_⟩
  · rw [hmax]
    exact h.known
  · by_contra hne
    rw [hcont q hne] at hq
    exact h.none q hne b x hq
  · rw [houtstanding, h.outstanding]
  · rw [htransmitted] at hc
    rcases List.mem_append.mp hc with hc | hc
    · exact h.chunks chunk hc
    · rw [List.mem_singleton.mp hc, hlen]
      refine ⟨le_min ?_ ?_, min_le_left _ _⟩
      · decide
      · omega
  · have hne : p ≠ s.current := by
      rintro rfl
      rw [hself] at hp
      cases hp
    rw [hcont p hne] at hp
    rw [hqueue]
    exact List.mem_cons_of_mem _ (h.waiting p hne b hp)

/-- It has sent the whole message, and the terminal is free. -/
theorem AtTurn.finish {before : List (List UInt8)} (h : AtTurn s tty buffer position before)
    (done : buffer.length ≤ position) :
    Writers ((s.setTty tty { s.ttys tty with write_current := 0 }).setCont s.current .user) tty := by
  have hcont : ∀ q, q ≠ s.current →
      ((s.setTty tty { s.ttys tty with write_current := 0 }).setCont s.current .user).cont q =
      s.cont q := fun q hq => Function.update_of_ne hq _ _
  have hself : ((s.setTty tty { s.ttys tty with write_current := 0 }).setCont s.current .user).cont
      s.current = .user := Function.update_self _ _ _
  refine ⟨.free ?_ h.outstanding (fun q b x hq => ?_) ?_ h.exclusive, h.chunks, fun p b hp => ?_⟩
  · have hx : ((s.setTty tty { s.ttys tty with write_current := 0 }).ttys tty).write_current = 0 := by
      unfold Sys.setTty
      dsimp only
      rw [Function.update_self]
    exact hx
  · rcases eq_or_ne q s.current with rfl | hne
    · rw [hself] at hq
      cases hq
    · rw [hcont q hne] at hq
      exact h.none q hne b x hq
  · have hbytes := h.message.bytes
    rw [List.take_of_length_le done] at hbytes
    have hmessages : (s.messages tty).flatten = before.flatten ++ buffer := by
      rw [h.message.messages, List.flatten_append, List.flatten_singleton]
    exact hbytes.trans hmessages.symm
  · have hne : p ≠ s.current := by
      rintro rfl
      rw [hself] at hp
      cases hp
    rw [hcont p hne] at hp
    exact h.waiting p hne b hp

/-- The process takes its turn at a free terminal. -/
theorem Writers.takeTurn (h : Writers s tty) (ha : Alive s) (free : (s.ttys tty).write_current = 0)
    (buffer : List UInt8) : AtTurn (System.takeTurn tty buffer s) tty buffer 0 (s.messages tty) := by
  have hpid : s.current ≠ 0 := by
    intro h0
    have := ha.pid
    rw [← h0, ha.awake.allocated] at this
    cases this
  have hwriter : ((System.takeTurn tty buffer s).ttys tty).write_current = s.current := by
    unfold System.takeTurn Sys.setTty
    dsimp only
    rw [Function.update_self]
  cases h.turn with
  | free current outstanding none bytes exclusive =>
    refine ⟨⟨hwriter, hpid, Function.update_self _ _ _, ?_⟩, ha.le_max ha.awake.allocated,
      fun q _ => none q, outstanding, exclusive, h.chunks, fun p _ => h.waiting p⟩
    rw [List.take_zero, List.append_nil]
    exact bytes
  | sending message writes outstanding queue exclusive =>
    exact absurd (message.writer.symm.trans free) message.pid
  | sent message writes outstanding exclusive =>
    exact absurd (message.writer.symm.trans free) message.pid

end Yalnix.System
