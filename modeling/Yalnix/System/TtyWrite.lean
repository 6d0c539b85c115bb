import Yalnix.System.TtyTurn

/-!
# Writing to a terminal

* `Writers.step` — every step keeps the order of the writers.
* `messages_whole` — messages are not interleaved and transmissions do not overlap.
* `attended_iff` — no writer is forgotten exactly if every message ends while no other writer sleeps.
* `forgotten_writer` — the end of a message wakes nobody.
-/

set_option autoImplicit false

namespace Yalnix.System

open Transition (Run)

variable {s s' s₁ t : Sys} {p q : PID} {e : Event} {k : Cont} {tty position : Nat}
  {buffer : List UInt8}

/-! ## Steps -/

/-- What the handlers that do not concern the terminal leave. -/
theorem Writers.same (h : Writers s tty) (ha : Alive s) (he : Effect s e k t)
    (hk : ∀ buffer position, s.cont s.current ≠ .ttyWriteChunk tty buffer position)
    (hf : WriteFrame tty s t) (away : k.queue ≠ some (.tty_write tty)) :
    Writers (t.setCont s.current k) tty := by
  have hf' : WriteFrame tty s (t.setCont s.current k) :=
    hf.trans (.congr rfl rfl rfl rfl rfl)
  have hmax : s.max_pid ≤ (t.setCont s.current k).max_pid := he.processes.max_pid_le
  have hold : ∀ q, q ≠ s.current → q ≤ s.max_pid → (t.setCont s.current k).cont q = s.cont q :=
    fun q hq hle => (Function.update_of_ne hq _ _).trans (he.processes.old ha hle).1
  have hnew : ∀ q k', k'.queue = some (.tty_write tty) → (t.setCont s.current k).cont q = k' →
      s.cont q = k' := by
    intro q k' hk' hq
    rcases he.cont_cases q (by rw [hk']; rfl) hq with ⟨-, rfl⟩ | ⟨-, hc⟩
    · exact absurd hk' away
    · exact hc
  refine ⟨?_, ?_, fun p b hp => ?_⟩
  · cases h.turn with
    | free current outstanding none bytes exclusive =>
      refine .free ?_ ?_ (fun q b x hq => none q b x (hnew q _ rfl hq)) ?_ ?_
      · rw [hf'.write_current]
        exact current
      · rw [hf'.outstanding]
        exact outstanding
      · rw [hf'.transmitted, hf'.messages]
        exact bytes
      · rw [hf'.queue]
        exact exclusive
    | sending message writes outstanding queue exclusive =>
      refine .sending (message.frame hf') (writes.other hmax hold ?_ fun q b x => hnew q _ rfl) ?_ ?_
        exclusive
      · rintro rfl
        exact hk _ _ writes.cont
      · rw [hf'.outstanding]
        exact outstanding
      · rw [hf'.queue]
        exact queue
    | sent message writes outstanding exclusive =>
      refine .sent (message.frame hf') (writes.other hmax hold ?_ fun q b x => hnew q _ rfl) ?_ ?_
      · rintro rfl
        exact hk _ _ writes.cont
      · rw [hf'.outstanding]
        exact outstanding
      · rw [hf'.queue]
        exact exclusive
  · rw [hf'.transmitted]
    exact h.chunks
  · rw [hf'.queue]
    exact h.waiting p b (hnew p _ rfl hp)

/-- A process finds the terminal busy, and goes to sleep behind all others. -/
theorem Writers.turnSleep (h : Writers s tty) (busy : (s.ttys tty).write_current ≠ 0)
    (hk : ∀ buffer position, s.cont s.current ≠ .ttyWriteChunk tty buffer position) :
    Writers ((sleepOnWaitQueue (.tty_write tty) true s).setCont s.current (.ttyWriteTurn tty buffer))
      tty := by
  generalize ht : (sleepOnWaitQueue (.tty_write tty) true s).setCont s.current
    (.ttyWriteTurn tty buffer) = t
  have httys : t.ttys = s.ttys := by
    rw [← ht]
    rfl
  have hmessages : t.messages = s.messages := by
    rw [← ht]
    rfl
  have htransmitted : t.transmitted = s.transmitted := by
    rw [← ht]
    rfl
  have houtstanding : t.outstanding = s.outstanding := by
    rw [← ht]
    rfl
  have hmax : t.max_pid = s.max_pid := by
    rw [← ht]
    rfl
  have hqueue : t.queue (.tty_write tty) = s.queue (.tty_write tty) ++ [⟨true, s.current⟩] := by
    rw [← ht]
    exact sleep_queue_self _ _ _
  have hcont : ∀ q, q ≠ s.current → t.cont q = s.cont q := by
    intro q hq
    rw [← ht]
    exact Function.update_of_ne hq _ _
  have hself : t.cont s.current = .ttyWriteTurn tty buffer := by
    rw [← ht]
    exact Function.update_self _ _ _
  clear ht
  have hmessage : ∀ {p b x before}, Message s tty p b x before → Message t tty p b x before := by
    intro p b x before hm
    refine ⟨?_, hm.pid, ?_, ?_⟩
    · rw [httys]
      exact hm.writer
    · rw [hmessages]
      exact hm.messages
    · rw [htransmitted]
      exact hm.bytes
  have hwrites : ∀ {p b x}, Writes s tty p b x → Writes t tty p b x := by
    intro p b x hw
    refine hw.other hmax.ge (fun q hq _ => hcont q hq) ?_ fun q b x hq => ?_
    · rintro rfl
      exact hk _ _ hw.cont
    · have hne : q ≠ s.current := by
        rintro rfl
        rw [hself] at hq
        cases hq
      exact (hcont q hne).symm.trans hq
  refine ⟨?_, ?_, fun p b hp => ?_⟩
  · cases h.turn with
    | free current _ _ _ _ => exact absurd current busy
    | @sending p b x before rest message writes outstanding queue exclusive =>
      have hlast : ∀ node ∈ rest ++ [⟨true, s.current⟩], node.is_exclusive = true := by
        intro node hn
        rcases List.mem_append.mp hn with hn | hn
        · exact exclusive node hn
        · rw [List.mem_singleton.mp hn]
      refine .sending (hmessage message) (hwrites writes) ?_ ?_ hlast
      · rw [houtstanding]
        exact outstanding
      · rw [hqueue, queue]
        rfl
    | sent message writes outstanding exclusive =>
      refine .sent (hmessage message) (hwrites writes) ?_ fun node hn => ?_
      · rw [houtstanding]
        exact outstanding
      · rw [hqueue] at hn
        rcases List.mem_append.mp hn with hn | hn
        · exact exclusive node hn
        · rw [List.mem_singleton.mp hn]
  · rw [htransmitted]
    exact h.chunks
  · rw [hqueue, List.map_append]
    rcases eq_or_ne p s.current with rfl | hne
    · exact List.mem_append_right _ List.mem_cons_self
    · exact List.mem_append_left _ (h.waiting p b ((hcont p hne).symm.trans hp))

/-- The terminal has finished: the writer is woken, and nobody else. -/
theorem Writers.finished (h : Writers s tty) (hterminal : tty < NUM_TERMINALS)
    (houtstanding : 0 < s.outstanding tty)
    (hk : ∀ buffer position, s.cont s.current ≠ .ttyWriteChunk tty buffer position) :
    Writers ((ttyWriteFinished tty
      { s with outstanding := Function.update s.outstanding tty (s.outstanding tty - 1) }).setCont
      s.current .user) tty := by
  cases h.turn with
  | free _ outstanding _ _ _ =>
    rw [outstanding] at houtstanding
    exact absurd houtstanding (lt_irrefl 0)
  | sent _ _ outstanding _ =>
    rw [outstanding] at houtstanding
    exact absurd houtstanding (lt_irrefl 0)
  | @sending p buffer position before rest message writes outstanding queue exclusive =>
    have hpromote : promote (s.queue (.tty_write tty)) = ⟨true, p⟩ :: rest := by
      rw [queue]
      have hrest : promote rest = rest := by
        cases rest with
        | nil => rfl
        | cons node rest =>
          unfold promote
          rw [if_pos (exclusive node List.mem_cons_self)]
      unfold promote
      rw [if_neg Bool.false_ne_true, hrest]
    have hsplit : splitWoken true (⟨true, p⟩ :: rest) = ([⟨true, p⟩], rest) := rfl
    generalize ht : (ttyWriteFinished tty
      { s with outstanding := Function.update s.outstanding tty (s.outstanding tty - 1) }).setCont
      s.current .user = t
    unfold ttyWriteFinished signalWaitQueue at ht
    rw [if_neg (not_le.mpr hterminal), signal_eq] at ht
    dsimp only at ht
    rw [hpromote, setQueue_queue_self, hsplit] at ht
    have httys : t.ttys = s.ttys := by
      rw [← ht]
      rfl
    have hmessages : t.messages = s.messages := by
      rw [← ht]
      rfl
    have htransmitted : t.transmitted = s.transmitted := by
      rw [← ht]
      rfl
    have hdone : t.outstanding tty = s.outstanding tty - 1 := by
      rw [← ht]
      exact Function.update_self _ _ _
    have hmax : t.max_pid = s.max_pid := by
      rw [← ht]
      rfl
    have hqueue : t.queue (.tty_write tty) = rest := by
      rw [← ht]
      exact Function.update_self _ _ _
    have hcont : t.cont = Function.update s.cont s.current .user := by
      rw [← ht]
      rfl
    clear ht
    have hnew : ∀ q k, k ≠ .user → t.cont q = k → s.cont q = k := by
      intro q k hne hq
      rw [hcont] at hq
      rcases eq_or_ne q s.current with rfl | hqc
      · rw [Function.update_self] at hq
        exact absurd hq.symm hne
      · rwa [Function.update_of_ne hqc] at hq
    have hmessage : Message t tty p buffer position before := by
      refine ⟨?_, message.pid, ?_, ?_⟩
      · rw [httys]
        exact message.writer
      · rw [hmessages]
        exact message.messages
      · rw [htransmitted]
        exact message.bytes
    have hwrites : Writes t tty p buffer position := by
      refine writes.other hmax.ge (fun q hq _ => ?_) ?_ fun q b x hq => hnew q _ (by simp) hq
      · rw [hcont]
        exact Function.update_of_ne hq _ _
      · rintro rfl
        exact hk _ _ writes.cont
    refine ⟨.sent hmessage hwrites ?_ ?_, ?_, fun q b hq => ?_⟩
    · rw [hdone, outstanding]
    · rw [hqueue]
      exact exclusive
    · rw [htransmitted]
      exact h.chunks
    · have hs : s.cont q = .ttyWriteTurn tty b := hnew q _ (by simp) hq
      have hmem := h.waiting q b hs
      rw [queue, List.map_cons, List.mem_cons] at hmem
      rw [hqueue]
      refine hmem.resolve_left ?_
      rintro rfl
      rw [writes.cont] at hs
      cases hs

/-- A process that is at its turn sends a chunk, or has sent the whole message. -/
theorem ttyWriteChunks_cases (tty : Nat) (buffer : List UInt8) {mallocs : List Bool}
    (hm : false ∉ mallocs) (position : Nat) (s : Sys) :
    position < buffer.length ∧ ttyWriteChunks tty buffer mallocs position s =
        .schedule (.ttyWriteChunk tty buffer (position + TERMINAL_MAX_LINE))
          (sleepOnWaitQueue (.tty_write tty) false
            (TtyTransmit tty ((buffer.drop position).take TERMINAL_MAX_LINE) s)) ∨
      buffer.length ≤ position ∧ ttyWriteChunks tty buffer mallocs position s =
        .ret SUCCESS (s.setTty tty { s.ttys tty with write_current := 0 }) := by
  have hrun : ttyWriteChunks tty buffer mallocs position s = if position < buffer.length then
      .schedule (.ttyWriteChunk tty buffer (position + TERMINAL_MAX_LINE))
        (sleepOnWaitQueue (.tty_write tty) false
          (TtyTransmit tty ((buffer.drop position).take TERMINAL_MAX_LINE) s))
      else .ret SUCCESS (s.setTty tty { s.ttys tty with write_current := 0 }) := by
    cases mallocs with
    | nil => rfl
    | cons malloc mallocs =>
      cases malloc with
      | true => rfl
      | false => exact absurd List.mem_cons_self hm
  rw [hrun]
  split
  · rename_i hmore
    exact .inl ⟨hmore, rfl⟩
  · rename_i hdone
    exact .inr ⟨not_lt.mp hdone, rfl⟩

/-- A process in the second loop of `ttyWrite` that runs has the turn. -/
theorem Writers.atTurn (h : Writers s tty) (ha : Alive s)
    (hk : s.cont s.current = .ttyWriteChunk tty buffer position) :
    ∃ before, AtTurn s tty buffer position before := by
  cases h.turn with
  | free _ _ none _ _ => exact absurd hk (none _ _ _)
  | sending message writes _ queue _ =>
    have hp := writes.only _ _ _ hk
    have hmem : (⟨false, s.current⟩ : WaitQueueNode) ∈ s.queue (.tty_write tty) := by
      rw [queue, hp]
      exact List.mem_cons_self
    exact absurd rfl (ha.awake.not_mem ha.asleep hmem)
  | sent message writes outstanding exclusive =>
    have hp := writes.only _ _ _ hk
    have hcont := writes.cont
    rw [← hp, hk] at hcont
    cases hcont
    rw [← hp] at message
    refine ⟨_, message, ha.le_max ha.awake.allocated, fun q hq b x hc => ?_, outstanding, exclusive,
      h.chunks, fun p _ => h.waiting p⟩
    exact hq ((writes.only q b x hc).trans hp.symm)

/-- Where no node is missing, the process is at its turn when it sends or has sent. -/
theorem Writers.writing (h : Writers s tty) (ha : Alive s) (hnodes : false ∉ e.nodes)
    (hw : Writing s e tty buffer position s₁)
    (hk : ∀ buffer position, s.cont s.current ≠ .ttyWriteChunk tty buffer position) :
    s₁.current = s.current ∧ ∃ before, AtTurn s₁ tty buffer position before := by
  cases hw with
  | resumed cont => exact absurd cont (hk _ _)
  | turn free => exact ⟨rfl, s.messages tty, h.takeTurn ha free buffer⟩
  | failed _ malloc _ => exact absurd malloc hnodes

theorem Writers.effect (h : Writers s tty) (ha : Alive s) (hen : Enabled s e)
    (hnodes : false ∉ e.nodes) (he : Effect s e k t)
    (hk : ∀ buffer position, s.cont s.current ≠ .ttyWriteChunk tty buffer position) :
    Writers (t.setCont s.current k) tty := by
  cases he.writes tty with
  | same frame away => exact h.same ha he hk frame away
  | turnSleep busy goes ends =>
    rw [goes, ends]
    exact h.turnSleep busy hk
  | writeSleep writing more goes ends =>
    obtain ⟨hcurrent, before, hturn⟩ := h.writing ha hnodes writing hk
    refine hturn.send more ?_
    rw [goes, ends, hcurrent]
  | writeEnd writing done goes ends =>
    obtain ⟨hcurrent, before, hturn⟩ := h.writing ha hnodes writing hk
    have hfinish := hturn.finish done
    rw [hcurrent] at hfinish
    rw [goes, ends]
    exact hfinish
  | finished event goes ends =>
    rw [event] at hen
    rw [goes, ends]
    exact h.finished hen.2.1 hen.2.2 hk

/-- **One step of any process.** -/
theorem Writers.step (h : Writers s tty) (ha : Alive s) (hnodes : false ∉ e.nodes)
    (hstep : Peaceful s e s') : Writers s' tty := by
  have hcurrent : ∀ (s : Sys) q, Writers s tty → Writers { s with current := q } tty := by
    intro s q hw
    refine ⟨?_, hw.chunks, hw.waiting⟩
    cases hw.turn with
    | free current outstanding none bytes exclusive =>
      exact .free current outstanding none bytes exclusive
    | sending m w outstanding queue exclusive =>
      exact .sending ⟨m.writer, m.pid, m.messages, m.bytes⟩ ⟨w.known, w.cont, w.only⟩ outstanding
        queue exclusive
    | sent m w outstanding exclusive =>
      exact .sent ⟨m.writer, m.pid, m.messages, m.bytes⟩ ⟨w.known, w.cont, w.only⟩ outstanding
        exclusive
  by_cases hchunk : ∃ buffer position, s.cont s.current = .ttyWriteChunk tty buffer position
  · -- the running process goes on with its message
    obtain ⟨buffer, position, hk⟩ := hchunk
    obtain ⟨before, hturn⟩ := h.atTurn ha hk
    obtain ⟨mallocs, n, rfl, hends⟩ := hstep.1.resumes (by rw [hk]; nofun)
    rw [hk] at hends
    have hrun : resume n mallocs s (.ttyWriteChunk tty buffer position) =
        ttyWriteChunks tty buffer mallocs position s := rfl
    rw [hrun] at hends
    have hm : false ∉ mallocs := hnodes
    rcases ttyWriteChunks_cases tty buffer hm position s with ⟨more, ho⟩ | ⟨done, ho⟩
    · rw [ho] at hends
      cases hends
      exact hcurrent _ _ (hturn.send more rfl)
    · rw [ho] at hends
      cases hends
      exact hturn.finish done
  · push Not at hchunk
    refine (hstep.leads ha).keeps (J := fun s => Writers s tty) hcurrent fun k t he => ?_
    exact h.effect ha hstep.1.1 hnodes he hchunk

theorem writers_boot (tty : Nat) : Writers bootSys tty := by
  refine ⟨.free rfl rfl (fun q b x hq => ?_) rfl fun node hn => ?_, fun chunk hc => ?_,
    fun p b hp => ?_⟩
  · cases hq
  · cases hn
  · cases hc
  · cases hp

/-! ## Messages -/

/-- A step in which no wait queue is short of a node and no process exits. -/
def Provided (s : Sys) (e : Event) (s' : Sys) : Prop := false ∉ e.nodes ∧ Peaceful s e s'

theorem writers_run {es : List Event} (h : Run Provided bootSys es s) :
    Alive s ∧ ∀ tty, Writers s tty :=
  h.invariant (P := fun s => Alive s ∧ ∀ tty, Writers s tty)
    (fun _ _ _ hs hstep =>
      ⟨hs.1.step hstep.2, fun tty => (hs.2 tty).step hs.1 hstep.1 hstep.2⟩)
    ⟨alive_boot, writers_boot⟩

/-- What has been transmitted so far is the messages, the last of which may still be under way. -/
def WholeMessages (s : Sys) (tty : Nat) : Prop :=
  (s.ttys tty).write_current = 0 ∧ (s.transmitted tty).flatten = (s.messages tty).flatten ∨
    ∃ before buffer position, (s.ttys tty).write_current ≠ 0 ∧
      s.messages tty = before ++ [buffer] ∧
      (s.transmitted tty).flatten = before.flatten ++ buffer.take position

/-- **Messages are not interleaved, and transmissions do not overlap.** -/
theorem messages_whole : ∀ es s, Run Provided bootSys es s → ∀ tty,
    s.outstanding tty ≤ 1 ∧
      (∀ chunk ∈ s.transmitted tty, 1 ≤ chunk.length ∧ chunk.length ≤ TERMINAL_MAX_LINE) ∧
      WholeMessages s tty := by
  intro es s h tty
  have hw := (writers_run h).2 tty
  have hunder : ∀ {p buffer position before}, Message s tty p buffer position before →
      WholeMessages s tty := by
    intro p buffer position before hm
    refine .inr ⟨before, buffer, position, ?_, hm.messages, hm.bytes⟩
    rw [hm.writer]
    exact hm.pid
  cases hw.turn with
  | free current outstanding _ bytes _ =>
    refine ⟨?_, hw.chunks, .inl ⟨current, bytes⟩⟩
    rw [outstanding]
    exact Nat.zero_le 1
  | sending message _ outstanding _ _ =>
    refine ⟨?_, hw.chunks, hunder message⟩
    rw [outstanding]
  | sent message _ outstanding _ =>
    refine ⟨?_, hw.chunks, hunder message⟩
    rw [outstanding]
    exact Nat.zero_le 1

/-- Two processes write, and the first chunk is on its way. -/
def twoWriters : List Event :=
  [.fork true, .fork true, .ttyWrite [] 0 2 [104, 105], .resume [], .ttyWrite [] 0 2 [121, 111]]

theorem messages_whole_two : ∃ s, Run Provided bootSys twoWriters s ∧
    s.transmitted 0 = [[104, 105]] ∧ WholeMessages s 0 := by
  have hrun : ((execAll 8 bootSys twoWriters).map fun s => s.transmitted 0) =
      some [[104, 105]] := by
    decide +kernel
  obtain ⟨s, hs, heq⟩ := Option.map_eq_some_iff.mp hrun
  have hevents : ∀ e ∈ twoWriters, false ∉ e.nodes ∧ ∀ status, e ≠ .exit status := by
    simp [twoWriters, Event.nodes]
  have hsteps : Run Provided bootSys twoWriters s := by
    refine (execAll_run hs).mono_labels fun _ e _ he hstep => ?_
    exact ⟨(hevents e he).1, hstep, (hevents e he).2⟩
  exact ⟨s, hsteps, heq, (messages_whole _ _ hsteps 0).2.2⟩

/-! ## Forgotten writers -/

/-- While the terminal is free and processes sleep, one has been woken and is about to test it. -/
def WritersAttended (s : Sys) (tty : Nat) : Prop :=
  (s.ttys tty).write_current = 0 → s.queue (.tty_write tty) ≠ [] →
    ∃ p, Ready s p ∧ ∃ buffer, s.cont p = .ttyWriteTurn tty buffer

/-- If the running process is about to end its message, no other writer sleeps. -/
def EndsAlone (s : Sys) (tty : Nat) : Prop :=
  ∀ buffer position, s.cont s.current = .ttyWriteChunk tty buffer position →
    buffer.length ≤ position → s.queue (.tty_write tty) = []

/-- Nobody sleeps at a free terminal. -/
def Unwanted (s : Sys) (tty : Nat) : Prop :=
  (s.ttys tty).write_current = 0 → s.queue (.tty_write tty) = []

theorem Unwanted.attended (h : Unwanted s tty) : WritersAttended s tty :=
  fun hfree hqueue => absurd (h hfree) hqueue

/-- A process that waits for its turn has not been woken. -/
theorem Writers.unwanted (h : Writers s tty) (ha : Alive s) (hw : WritersAttended s tty) :
    Unwanted s tty := by
  intro hfree
  by_contra hqueue
  obtain ⟨p, hp, buffer, hk⟩ := hw hfree hqueue
  obtain ⟨node, hn, rfl⟩ := List.mem_map.mp (h.waiting _ _ hk)
  have hstate := (ha.asleep.named _ node hn).1
  rw [hp.running] at hstate
  cases hstate

theorem AtTurn.busy {before : List (List UInt8)} (h : AtTurn s tty buffer position before) :
    (s.ttys tty).write_current ≠ 0 := by
  rw [h.message.writer]
  exact h.message.pid

theorem Unwanted.effect (hu : Unwanted s tty) (h : Writers s tty) (ha : Alive s)
    (hnodes : false ∉ e.nodes) (he : Effect s e k t) (hen : Enabled s e)
    (hk : ∀ buffer position, s.cont s.current ≠ .ttyWriteChunk tty buffer position) :
    Unwanted (t.setCont s.current k) tty := by
  intro hfree
  cases he.writes tty with
  | same frame away =>
    have hs := hu (frame.write_current.symm.trans hfree)
    rw [← frame.queue] at hs
    exact hs
  | turnSleep busy goes ends =>
    rw [ends] at hfree
    exact absurd hfree busy
  | writeSleep writing more goes ends =>
    obtain ⟨-, before, hturn⟩ := h.writing ha hnodes writing hk
    rw [ends] at hfree
    exact absurd hfree hturn.busy
  | writeEnd writing done goes ends =>
    subst ends
    cases writing with
    | resumed cont => exact absurd cont (hk _ _)
    | turn free => exact hu free
    | failed _ malloc _ => exact absurd malloc hnodes
  | finished event goes ends =>
    subst event
    have hs : (s.ttys tty).write_current = 0 := by
      rw [ends] at hfree
      unfold ttyWriteFinished signalWaitQueue at hfree
      rw [if_neg (not_le.mpr hen.2.1), signal_eq] at hfree
      exact hfree
    have hout := hen.2.2
    cases h.turn with
    | free _ outstanding _ _ _ =>
      rw [outstanding] at hout
      exact absurd hout (lt_irrefl 0)
    | sending message _ _ _ _ => exact absurd (message.writer.symm.trans hs) message.pid
    | sent message _ _ _ => exact absurd (message.writer.symm.trans hs) message.pid

/-- **The end of a message is what leaves sleeping writers at a free terminal.** -/
theorem Unwanted.step (hu : Unwanted s tty) (h : Writers s tty) (ha : Alive s)
    (hnodes : false ∉ e.nodes) (hstep : Peaceful s e s') :
    Unwanted s' tty ↔ EndsAlone s tty := by
  by_cases hchunk : ∃ buffer position, s.cont s.current = .ttyWriteChunk tty buffer position
  · obtain ⟨buffer, position, hk⟩ := hchunk
    obtain ⟨before, hturn⟩ := h.atTurn ha hk
    obtain ⟨mallocs, n, rfl, hends⟩ := hstep.1.resumes (by rw [hk]; nofun)
    rw [hk] at hends
    have hrun : resume n mallocs s (.ttyWriteChunk tty buffer position) =
        ttyWriteChunks tty buffer mallocs position s := rfl
    rw [hrun] at hends
    have hm : false ∉ mallocs := hnodes
    rcases ttyWriteChunks_cases tty buffer hm position s with ⟨more, ho⟩ | ⟨done, ho⟩
    · rw [ho] at hends
      cases hends
      refine iff_of_true (fun hfree => absurd hfree hturn.busy) fun b x hb hle => ?_
      rw [hk] at hb
      cases hb
      exact absurd more (not_lt.mpr hle)
    · rw [ho] at hends
      cases hends
      constructor
      · intro hs b x _ _
        refine hs ?_
        unfold Sys.setTty Sys.setCont
        dsimp only
        rw [Function.update_self]
      · intro hs _
        exact hs buffer position hk done
  · push Not at hchunk
    refine iff_of_true ?_ fun b x hb => absurd hb (hchunk b x)
    refine (hstep.leads ha).keeps (J := fun s => Unwanted s tty) (fun _ _ hJ => hJ) fun k t he => ?_
    exact hu.effect h ha hnodes he hstep.1.1 hchunk

theorem Run.start_mem {trace : List (Sys × Event)} (h : Run Traced s trace t) :
    s ∈ trace.map Prod.fst ++ [t] := by
  cases h with
  | nil => exact List.mem_singleton_self _
  | cons head _ =>
    rw [← head.1]
    exact List.mem_cons_self

theorem attended_iff_of {trace : List (Sys × Event)} (h : Run Traced s trace t) (ha : Alive s)
    (hw : Writers s tty) (hu : Unwanted s tty) :
    (∀ u ∈ trace.map Prod.fst ++ [t], WritersAttended u tty) ↔ ∀ a ∈ trace, EndsAlone a.1 tty := by
  induction h with
  | nil =>
    refine iff_of_true (fun u hu' => ?_) (by nofun)
    rw [List.mem_singleton.mp hu']
    exact hu.attended
  | @cons s s₁ t a trace head tail ih =>
    obtain ⟨hstate, hnodes, hpeaceful⟩ := head
    have ha₁ := ha.step hpeaceful
    have hw₁ := hw.step ha hnodes hpeaceful
    have hstep := hu.step hw ha hnodes hpeaceful
    constructor
    · intro hall
      have hrest : ∀ u ∈ trace.map Prod.fst ++ [t], WritersAttended u tty := fun u hmem =>
        hall u (List.mem_cons_of_mem _ hmem)
      have hu₁ := hw₁.unwanted ha₁ (hrest _ (Run.start_mem tail))
      intro b hb
      rcases List.mem_cons.mp hb with rfl | hb
      · rw [hstate]
        exact hstep.mp hu₁
      · exact (ih ha₁ hw₁ hu₁).mp hrest b hb
    · intro hall
      have hhead := hall a List.mem_cons_self
      rw [hstate] at hhead
      intro u hmem
      rcases List.mem_cons.mp hmem with rfl | hmem
      · rw [hstate]
        exact hu.attended
      · refine (ih ha₁ hw₁ (hstep.mpr hhead)).mpr (fun b hb => ?_) u hmem
        exact hall b (List.mem_cons_of_mem _ hb)

/-- **No writer is forgotten in a run exactly if every message ends while no other writer sleeps.** -/
theorem attended_iff : ∀ trace s, Run Traced bootSys trace s → ∀ tty,
    (∀ u ∈ trace.map Prod.fst ++ [s], WritersAttended u tty) ↔ ∀ a ∈ trace, EndsAlone a.1 tty :=
  fun _ _ h _ => attended_iff_of h alive_boot (writers_boot _) fun _ => rfl

/-- Process 1 writes; process 2 wants to, and sleeps; the message of process 1 ends. -/
def forgottenWriter : List Event :=
  [.fork true, .fork true, .ttyWrite [] 0 2 [104, 10], .resume [], .ttyWrite [] 0 2 [121, 10],
    .resume [], .ttyTransmit 0, .clock, .resume []]

/-- **The end of a message wakes nobody: the terminal is free, and the other writer sleeps on.** -/
theorem forgotten_writer : ¬ ∀ trace s, Run Traced bootSys trace s → ∀ tty,
    (s.ttys tty).write_current = 0 → s.queue (.tty_write tty) ≠ [] →
      ∃ p, Ready s p ∧ ∃ buffer, s.cont p = .ttyWriteTurn tty buffer := by
  have hrun : ((execAll 8 bootSys forgottenWriter).map fun s =>
      ((s.ttys 0).write_current, s.queue (.tty_write 0))) = some (0, [⟨true, 2⟩]) := by
    decide +kernel
  obtain ⟨s, hs, heq⟩ := Option.map_eq_some_iff.mp hrun
  rw [Prod.mk.injEq] at heq
  have hevents : ∀ e ∈ forgottenWriter, false ∉ e.nodes ∧ ∀ status, e ≠ .exit status := by
    simp [forgottenWriter, Event.nodes]
  have htrace := traced_run hs hevents
  intro hall
  obtain ⟨p, hp, buffer, hk⟩ := hall _ s htrace 0 heq.1 (by rw [heq.2]; simp)
  have hw := (writers_run ((execAll_run hs).mono_labels fun _ e _ he hstep =>
    ⟨(hevents e he).1, hstep, (hevents e he).2⟩))
  -- a process that waits for its turn is in the queue
  obtain ⟨node, hn, rfl⟩ := List.mem_map.mp ((hw.2 0).waiting _ _ hk)
  have hstate := (hw.1.asleep.named _ node hn).1
  rw [hp.running] at hstate
  cases hstate

/-- Process 1 writes alone, and then process 2 does. -/
def inTurn : List Event :=
  [.fork true, .fork true, .ttyWrite [] 0 2 [104, 10], .resume [], .ttyTransmit 0, .clock, .resume [],
    .clock, .resume [], .ttyWrite [] 0 2 [121, 10]]

theorem attended_iff_inTurn : ∃ s, Run Traced bootSys (trace 8 bootSys inTurn) s ∧
    s.messages 0 = [[104, 10], [121, 10]] ∧
      ((∀ u ∈ (trace 8 bootSys inTurn).map Prod.fst ++ [s], WritersAttended u 0) ↔
      ∀ a ∈ trace 8 bootSys inTurn, EndsAlone a.1 0) := by
  have hrun : ((execAll 8 bootSys inTurn).map fun s => s.messages 0) =
      some [[104, 10], [121, 10]] := by
    decide +kernel
  obtain ⟨s, hs, heq⟩ := Option.map_eq_some_iff.mp hrun
  have htrace : Run Traced bootSys (trace 8 bootSys inTurn) s :=
    traced_run hs (by simp [inTurn, Event.nodes])
  exact ⟨s, htrace, heq, attended_iff _ _ htrace 0⟩

end Yalnix.System
