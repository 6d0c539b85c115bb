import Yalnix.System.Turns

/-!
# Nobody starves

* `StaysReady` — a fair step before and after which a process can be switched to.
* `StaysReady.nearer` — each selection of another process brings its turn nearer.
* `selected_in_turn` — so it waits for those between, and for those who are made meanwhile.
-/

set_option autoImplicit false

namespace Yalnix.System

open Ring (IsRing)
open RoundRobin (pick distance)
open Transition (Run)

variable {s s' t : Sys} {p : PID} {l l' : List PID} {a : Event × List PID} {as : List (Event × List PID)}

/-- A fair step with whom it selects, before and after which `p` can be switched to. -/
structure StaysReady (p : PID) (s : Sys) (a : Event × List PID) (s' : Sys) : Prop where
  fair : Fair s a.1
  enabled : Enabled s a.1
  selects : Selects s a.1 a.2 s'
  ready : s.eligible p
  still : s'.eligible p
  listed : (s.desc p).allocated = true
  stays : (s'.desc p).allocated = true

theorem StaysReady.step (h : StaysReady p s a s') : Step s a.1 s' :=
  step_iff_selects.mpr ⟨h.enabled, _, h.selects⟩

theorem StaysReady.sane (h : StaysReady p s a s') (hs : Sane s) : Sane s' := hs.step h.fair h.step

theorem Sane.list (h : Sane s) : ∃ l : List PID, IsRing s.procs .process_head (l.map .process_list) :=
  let ⟨l, _, _, hl⟩ := h.ordered
  ⟨l, hl.procs⟩

theorem Sane.mem (h : Sane s) (hr : IsRing s.procs .process_head (l.map .process_list)) :
    p ∈ l ↔ (s.desc p).allocated = true := by
  obtain ⟨l₁, kids, threads, hl⟩ := h.ordered
  rw [procs_unique hr hl.procs]
  exact hl.members p

/-- The process that goes to sleep is still on the list. -/
theorem Sane.sleeper {n : Nat} {e : Event} {k : Cont} (hs : Sane s) (hf : Fair s e)
    (h : handle n s e = .schedule k t) : (t.desc s.current).allocated = true := by
  obtain ⟨l, kids, threads, hl⟩ := hs.ordered
  by_cases he : ∃ status, e = .exit status
  · obtain ⟨status, rfl⟩ := he
    rcases killCurrentProcess_cases n status hs.awake with hk | ⟨s₁, hk⟩
    · rw [show handle n s (.exit status) = .fault from hk] at h
      cases h
    · rw [show handle n s (.exit status) = .switched s₁ from hk] at h
      cases h
  · have heff := handle_effect (e := e) hs.objects n fun status hs => he ⟨status, hs⟩
    rw [h] at heff
    obtain ⟨_, _, _, gone, -, hmoved⟩ := heff.2.processes.moved hl hs.asleep hs.awake hf.tidy
    rw [(hmoved.desc _ (hs.awake.le_max hs.asleep) fun hgone => ?_).1]
    · exact hs.awake.allocated
    · have hzombie := (hmoved.left _ hgone).2.1
      rw [hs.awake.running] at hzombie
      cases hzombie

/-- **A step that does not select `p` brings its turn nearer by those it selects, and farther away by
those it makes.** -/
theorem StaysReady.nearer (h : StaysReady p s a s') (hs : Sane s)
    (hr : IsRing s.procs .process_head (l.map .process_list))
    (hr' : IsRing s'.procs .process_head (l'.map .process_list)) (hp : p ∉ a.2) :
    s.max_pid ≤ s'.max_pid ∧ a.2.length + distance l' s'.current p ≤
      distance l s.current p + (s'.max_pid - s.max_pid) := by
  obtain ⟨e, chosen⟩ := a
  have hs' := h.sane hs
  have hstep := h.step
  have hlists : ∃ kids threads, Lists s l kids threads := by
    obtain ⟨l₁, kids, threads, hl⟩ := hs.ordered
    rw [procs_unique hr hl.procs]
    exact ⟨kids, threads, hl⟩
  obtain ⟨kids, threads, hl⟩ := hlists
  obtain ⟨hmax, hevolves⟩ := hl.evolves hs.asleep hs.awake hs.objects h.fair.tidy hstep hr'
  have hc : s.current ∈ l := (hs.mem hr).mpr hs.awake.allocated
  have hc' : s'.current ∈ l' := (hs'.mem hr').mpr hs'.awake.allocated
  have hpl : p ∈ l := (hs.mem hr).mpr h.listed
  have hpl' : p ∈ l' := (hs'.mem hr').mpr h.stays
  have hdistance : ∀ q, q ∈ l → q ∈ l' →
      distance l' q p ≤ distance l q p + (s'.max_pid - s.max_pid) := fun q hq hq' =>
    hevolves.distance_le (ring_nodup hr) (ring_nodup hr') hq hq' hpl hpl'
  refine ⟨hmax, ?_⟩
  have hsel := h.selects
  have hfair := h.fair
  have hready := h.ready
  have hstill := h.still
  clear hevolves hstep h
  cases hsel with
  | @returns n result t call =>
    have hcurrent : t.current = s.current := handle_current hs.objects call
    change t.current ∈ l' at hc'
    change 0 + distance l' t.current p ≤ _
    rw [hcurrent] at hc' ⊢
    rw [Nat.zero_add]
    exact hdistance _ hc hc'
  | @schedules n k t q call next =>
    have hcurrent : t.current = s.current := handle_current hs.objects call
    have hallocated : (t.desc s.current).allocated = true := hs.sleeper hfair call
    have hsleeper : s.current ∈ l' := (hs'.mem hr').mpr hallocated
    have hne : q ≠ p := fun he => hp (List.mem_singleton.mpr he.symm)
    have hpick := (schedules_iff (s := t) hr' (hcurrent ▸ hsleeper)).mp next
    rw [hcurrent] at hpick
    have hlt := RoundRobin.distance_lt (ring_nodup hr') hsleeper hpl'
      (by simpa using (show t.eligible p from hstill)) hpick hne
    have hle := hdistance _ hc hsleeper
    change 1 + distance l' q p ≤ _
    omega
  | @exits n t call =>
    have hne : s'.current ≠ p := fun he => hp (List.mem_singleton.mpr he.symm)
    have hpick := (schedules_iff hr hc).mp (switched_next hs.objects call)
    have hlt := RoundRobin.distance_lt (ring_nodup hr) hc hpl (by simpa using hready) hpick hne
    have hle := hdistance _ (RoundRobin.pick_mem hpick) hc'
    change 1 + distance l' s'.current p ≤ _
    omega

/-! ## Runs -/

/-- Each selection in a run brings the turn of `p` nearer. -/
theorem StaysReady.run (h : Run (StaysReady p) s as t) : Sane s → ∀ {l l' : List PID},
    IsRing s.procs .process_head (l.map .process_list) →
    IsRing t.procs .process_head (l'.map .process_list) → p ∉ selected as →
    s.max_pid ≤ t.max_pid ∧ (selected as).length + distance l' t.current p ≤
      distance l s.current p + (t.max_pid - s.max_pid) := by
  induction h with
  | nil =>
    intro _ l l' hr hr' _
    rw [procs_unique hr hr']
    exact ⟨le_rfl, by simp [selected]⟩
  | @cons s s₁ t a as head _ ih =>
    intro hs l l' hr hr' hp
    have hsel : selected (a :: as) = a.2 ++ selected as := rfl
    rw [hsel, List.mem_append, not_or] at hp
    have hs₁ := head.sane hs
    obtain ⟨l₁, hr₁⟩ := hs₁.list
    obtain ⟨hmax, hnear⟩ := head.nearer hs hr hr₁ hp.1
    obtain ⟨hmax', hrest⟩ := ih hs₁ hr₁ hr' hp.2
    rw [hsel, List.length_append]
    omega

/-- **A process that stays ready is passed over no more often than there are processes between it and
the running one, and processes made meanwhile.** -/
theorem selected_in_turn : ∀ es s, Run FairStep bootSys es s → ∀ p as t,
    Run (StaysReady p) s as t → p ∉ selected as → ∀ l l' : List PID,
    IsRing s.procs .process_head (l.map .process_list) →
    IsRing t.procs .process_head (l'.map .process_list) →
    (selected as).length + distance l' t.current p ≤
      distance l s.current p + (t.max_pid - s.max_pid) := by
  intro es s hrun p as t has hp l l' hr hr'
  exact (StaysReady.run has (Sane.run hrun sane_boot) hr hr' hp).2

/-- Process 2 runs before process 3 does. -/
theorem selected_in_turn_three : ∃ s as t, Run FairStep bootSys [.fork true, .fork true] s ∧
    Run (StaysReady 3) s as t ∧ selected as = [2] ∧
    (selected as).length + distance [1, 2, 3] 2 3 ≤
      distance [1, 2, 3] 1 3 + (t.max_pid - s.max_pid) := by
  have hruns : ((execReapable 8 bootSys [.fork true, .fork true]).bind fun s =>
      (exec 8 s .clock).map fun t => decide (reapable 8 s .clock = true ∧
        (handle 8 s .clock).chosen t = [2] ∧ s.current = 1 ∧ t.current = 2 ∧
        IsRing s.procs .process_head ([1, 2, 3].map .process_list) ∧
        IsRing t.procs .process_head ([1, 2, 3].map .process_list) ∧ s.eligible 3 ∧ t.eligible 3 ∧
        (s.desc 3).allocated = true ∧ (t.desc 3).allocated = true)) = some true := by
    decide +kernel
  obtain ⟨s, hs, hclock⟩ := Option.bind_eq_some_iff.mp hruns
  obtain ⟨t, ht, hcheck⟩ := Option.map_eq_some_iff.mp hclock
  obtain ⟨hreap, hchosen, hcs, hct, hrs, hrt, hes, het, hls, hlt⟩ := of_decide_eq_true hcheck
  have hbefore : Run FairStep bootSys [.fork true, .fork true] s :=
    execReapable_still (by simp) hs
  have hselects : Selects s .clock [2] t := by
    rw [← hchosen]
    exact (exec_selects ht).2
  have hready : StaysReady 3 s (.clock, [2]) t :=
    ⟨reapable_still (by simp) hreap, (exec_step ht).1, hselects, hes, het, hls, hlt⟩
  have hafter : Run (StaysReady 3) s [(.clock, [2])] t := .cons hready .nil
  have hbound := selected_in_turn _ s hbefore 3 _ t hafter (by decide) [1, 2, 3] [1, 2, 3] hrs hrt
  rw [hcs, hct] at hbound
  exact ⟨s, _, t, hbefore, hafter, rfl, hbound⟩

end Yalnix.System
