import Yalnix.Lib.RoundRobin
import Yalnix.System.Groups

/-!
# Who runs next

* `nextProcess_turn` — one turn of the process list is enough, and picks as round robin does.
* `round_robin` — `schedule` selects the first process after the running one that can be switched to,
  and while the process list stays the same, nobody is selected twice before one that stays ready.
-/

set_option autoImplicit false

namespace Yalnix.System

open Ring (Heap IsRing Linked)
open RoundRobin (turn pick Picks)
open Transition (Run)

variable {s s' t : Sys} {n : Nat} {p q : PID} {l u v : List PID} {e : Event}

/-! ## The loop -/

/-- Along a stretch of the list, up to and including `b`. -/
theorem nextProcess_along {b : ProcNode} : ∀ {xs : List PID} {a : ProcNode},
    (a :: (xs.map .process_list ++ [b])).IsChain (fun a b => s.procs.next a = some b) → ∀ n,
    nextProcess s (xs.length + (n + 1)) a = (xs.find? fun p => decide (s.eligible p)).or
      (match b with
      | .process_head => nextProcess s n .process_head
      | .process_list p => if s.eligible p then some p else nextProcess s n (.process_list p))
  | [], a, hchain, n => by
    have hnext := (List.isChain_cons_cons.mp hchain).1
    rw [List.length_nil, Nat.zero_add]
    conv_lhs => unfold nextProcess
    rw [hnext]
    cases b with
    | process_head => rfl
    | process_list p => rfl
  | x :: xs, a, hchain, n => by
    obtain ⟨hnext, hrest⟩ := List.isChain_cons_cons.mp hchain
    have ih := nextProcess_along hrest n
    have hfuel : (x :: xs).length + (n + 1) = xs.length + (n + 1) + 1 := by
      rw [List.length_cons]
      omega
    rw [hfuel]
    conv_lhs => unfold nextProcess
    rw [hnext]
    dsimp only
    by_cases hx : s.eligible x
    · rw [if_pos hx, List.find?_cons_of_pos (by simpa using hx)]
      rfl
    · rw [if_neg hx, List.find?_cons_of_neg (by simpa using hx)]
      exact ih

/-- From the running process to the end of the list, and from its head back to the running process. -/
theorem ring_cut (hr : IsRing s.procs .process_head ((u ++ p :: v).map .process_list)) :
    (.process_list p :: (v.map .process_list ++ [.process_head])).IsChain
        (fun a b => s.procs.next a = some b) ∧
      (.process_head :: (u.map .process_list ++ [.process_list p])).IsChain
        (fun a b => s.procs.next a = some b) := by
  have hchain := hr.2.imp fun _ _ hl => hl.1
  have hshape : ProcNode.process_head :: (u ++ p :: v).map .process_list ++ [.process_head] =
      (.process_head :: u.map .process_list ++ [.process_list p]) ++
        (v.map .process_list ++ [.process_head]) := by
    simp
  have hshape' : ProcNode.process_head :: (u ++ p :: v).map .process_list ++ [.process_head] =
      (.process_head :: u.map .process_list) ++
        (.process_list p :: v.map .process_list ++ [.process_head]) := by
    simp
  constructor
  · rw [hshape'] at hchain
    exact hchain.right_of_append
  · rw [hshape] at hchain
    exact hchain.left_of_append

theorem ring_nodup (hr : IsRing s.procs .process_head (l.map .process_list)) : l.Nodup :=
  hr.nodup.of_map _

/-- **In one turn of the process list, the loop picks as round robin does.** -/
theorem nextProcess_turn (hr : IsRing s.procs .process_head (l.map .process_list))
    (hc : s.current ∈ l) : nextProcess s (l.length + 1) (.process_list s.current) =
      pick (fun p => decide (s.eligible p)) l s.current := by
  have hnodup := ring_nodup hr
  obtain ⟨u, v, rfl⟩ := List.append_of_mem hc
  obtain ⟨hafter, hbefore⟩ := ring_cut hr
  have hfuel : (u ++ s.current :: v).length + 1 = v.length + ((u.length + (0 + 1)) + 1) := by
    rw [List.length_append, List.length_cons]
    omega
  unfold pick
  rw [RoundRobin.turn_split (RoundRobin.not_mem_before hnodup), hfuel, nextProcess_along hafter]
  dsimp only
  rw [nextProcess_along hbefore, List.append_assoc, List.find?_append, List.find?_append]
  congr 2
  dsimp only
  by_cases he : s.eligible s.current
  · rw [if_pos he, List.find?_cons_of_pos (by simpa using he)]
  · rw [if_neg he, List.find?_cons_of_neg (by simpa using he)]
    rfl

/-- A walk over a list meets what is on it. -/
theorem schedules_iff (hr : IsRing s.procs .process_head (l.map .process_list))
    (hc : s.current ∈ l) :
    Schedules s q ↔ pick (fun p => decide (s.eligible p)) l s.current = some q := by
  have hturn := nextProcess_turn hr hc
  constructor
  · intro hq
    have hmem := hq.onList.mem hr hc
    have hsome : (pick (fun p => decide (s.eligible p)) l s.current).isSome :=
      RoundRobin.pick_isSome.mpr ⟨q, hmem, by simpa using hq.eligible⟩
    obtain ⟨r, hr⟩ := Option.isSome_iff_exists.mp hsome
    obtain ⟨n, hn⟩ := hq
    rw [hr] at hturn ⊢
    rw [nextProcess_unique hn hturn]
  · intro hq
    exact ⟨_, hturn.trans hq⟩

/-! ## Steps that select a process -/

/-- A step, and whom a call of `schedule`, or an exit, selects in it. -/
inductive Selects (s : Sys) (e : Event) : List PID → Sys → Prop
  | returns {n : Nat} {result : Int} {t : Sys} (call : handle n s e = .ret result t) :
      Selects s e [] (t.setCont t.current .user)
  | schedules {n : Nat} {k : Cont} {t : Sys} {q : PID} (call : handle n s e = .schedule k t)
      (next : Schedules t q) : Selects s e [q] { t.setCont t.current k with current := q }
  | exits {n : Nat} {t : Sys} (call : handle n s e = .switched t) : Selects s e [t.current] t

theorem step_iff_selects : Step s e s' ↔ Enabled s e ∧ ∃ chosen, Selects s e chosen s' := by
  constructor
  · rintro ⟨hen, n, hend⟩
    refine ⟨hen, ?_⟩
    generalize ho : handle n s e = o at hend
    cases hend with
    | ret => exact ⟨_, .returns ho⟩
    | schedule next => exact ⟨_, .schedules ho next⟩
    | switched => exact ⟨_, .exits ho⟩
  · rintro ⟨hen, chosen, hsel⟩
    cases hsel with
    | returns call => exact ⟨hen, _, call ▸ Ends.ret⟩
    | schedules call next => exact ⟨hen, _, call ▸ Ends.schedule next⟩
    | exits call => exact ⟨hen, _, call ▸ Ends.switched⟩

/-- Only an exit ends in a switch, to the process that the scheduler would have selected. -/
theorem switched_next (hs : Objects s) (h : handle n s e = .switched s') :
    Schedules s s'.current := by
  by_cases he : ∃ status, e = .exit status
  · obtain ⟨status, rfl⟩ := he
    change killCurrentProcess n status s = .switched s' at h
    unfold killCurrentProcess at h
    split at h
    · cases h
    · cases h
    · rename_i q s₁ hk
      split at h
      · cases h
      · rename_i s₂ hkk
        cases h
        rw [(killKernelContext_culled hkk).1]
        exact killProcess_next hk
  · have heff := handle_effect (e := e) hs n fun status hs => he ⟨status, hs⟩
    rw [h] at heff
    exact heff.elim

/-- A handler does not change who runs. -/
theorem handle_current (hs : Objects s) {o : Outcome} (h : handle n s e = o) :
    match o with
    | .ret _ t => t.current = s.current
    | .schedule _ t => t.current = s.current
    | _ => True := by
  by_cases he : ∃ status, e = .exit status
  · obtain ⟨status, rfl⟩ := he
    change killCurrentProcess n status s = o at h
    unfold killCurrentProcess at h
    split at h
    · subst h
      exact True.intro
    · rename_i s₁ hk
      subst h
      exact (killProcess_any hk).current
    · split at h
      · subst h
        exact True.intro
      · subst h
        exact True.intro
  · have heff := handle_effect (e := e) hs n fun status hs => he ⟨status, hs⟩
    rw [h] at heff
    cases o with
    | ret result t => exact heff.processes.current
    | schedule k t => exact heff.2.processes.current
    | switched t => exact True.intro
    | fault => exact True.intro

/-! ## Runs -/

/-- The process list is `l` and `p` is ready, before the step and after it. -/
structure Steady (l : List PID) (p : PID) (s : Sys) (a : Event × List PID) (s' : Sys) : Prop where
  enabled : Enabled s a.1
  selects : Selects s a.1 a.2 s'
  before : IsRing s.procs .process_head (l.map .process_list)
  after : IsRing s'.procs .process_head (l.map .process_list)
  ready : s.eligible p
  still : s'.eligible p

/-- Whom a step that ends in `s` has selected. -/
def Outcome.chosen (s : Sys) : Outcome → List PID
  | .ret _ _ => []
  | _ => [s.current]

theorem exec_selects (h : exec n s e = some s') :
    Enabled s e ∧ Selects s e ((handle n s e).chosen s') s' := by
  unfold exec at h
  split at h
  · rename_i he
    refine ⟨he, ?_⟩
    split at h
    · rename_i ho
      cases h
      rw [ho]
      exact .returns ho
    · rename_i ho
      obtain ⟨q, hq, rfl⟩ := Option.map_eq_some_iff.mp h
      rw [ho]
      exact .schedules ho ⟨n, hq⟩
    · rename_i ho
      cases h
      rw [ho]
      exact .exits ho
    · cases h
  · cases h

/-- The steady run that `es` leads to, if it is one. -/
def execSteady (n : Nat) (l : List PID) (p : PID) :
    Sys → List Event → Option (List (Event × List PID) × Sys)
  | s, [] => some ([], s)
  | s, e :: es => do
    let s' ← exec n s e
    if IsRing s.procs .process_head (l.map .process_list) ∧
        IsRing s'.procs .process_head (l.map .process_list) ∧ s.eligible p ∧ s'.eligible p then
      let (as, t) ← execSteady n l p s' es
      some ((e, (handle n s e).chosen s') :: as, t)
    else none

theorem execSteady_run : ∀ {es : List Event} {s t : Sys} {as : List (Event × List PID)},
    execSteady n l p s es = some (as, t) → Run (Steady l p) s as t
  | [], s, t, as, h => by
    cases h
    exact .nil
  | e :: es, s, t, as, h => by
    unfold execSteady at h
    simp only [Option.bind_eq_bind, Option.bind_eq_some_iff] at h
    obtain ⟨s', hs', h⟩ := h
    split at h
    · rename_i hsteady
      obtain ⟨hbefore, hafter, hready, hstill⟩ := hsteady
      obtain ⟨⟨as', t'⟩, hrest, h⟩ := Option.bind_eq_some_iff.mp h
      cases h
      obtain ⟨henabled, hselects⟩ := exec_selects hs'
      exact .cons ⟨henabled, hselects, hbefore, hafter, hready, hstill⟩ (execSteady_run hrest)
    · cases h

/-- All that have been selected in a run, in order. -/
def selected (as : List (Event × List PID)) : List PID := as.flatMap Prod.snd

/-- A step selects nobody, or one process after the running one. -/
theorem Steady.picks {a : Event × List PID} (h : Steady l p s a s') (hs : Objects s)
    (hc : s.current ∈ l) : a.2 = [] ∧ s'.current = s.current ∨
      a.2 = [s'.current] ∧ Picks l p s.current s'.current := by
  obtain ⟨e, chosen⟩ := a
  have hsel := h.selects
  generalize hs' : s' = x at hsel
  cases hsel with
  | returns call =>
    subst hs'
    exact .inl ⟨rfl, handle_current hs call⟩
  | @schedules n k t q call next =>
    have hcurrent : t.current = s.current := handle_current hs call
    have hring := h.after
    have hstill : t.eligible p := by
      have hs := h.still
      subst hs'
      exact hs
    subst hs'
    have hpick := (schedules_iff (s := t) hring (hcurrent ▸ hc)).mp next
    rw [hcurrent] at hpick
    exact .inr ⟨rfl, _, by simpa using hstill, hpick⟩
  | exits call =>
    subst hs'
    have hpick := (schedules_iff h.before hc).mp (switched_next hs call)
    exact .inr ⟨rfl, _, by simpa using h.ready, hpick⟩

theorem steady_chain {as : List (Event × List PID)} (hrun : Run (Steady l p) s as t) :
    ∀ {threads : PID → List PID}, Formed s threads → s.current ∈ l →
      (s.current :: selected as).IsChain (Picks l p) := by
  induction hrun with
  | nil => exact fun _ _ => .singleton _
  | @cons s s₁ t a as head _ ih =>
    intro threads hf hc
    have hstep : Step s a.1 s₁ := step_iff_selects.mpr ⟨head.enabled, _, head.selects⟩
    obtain ⟨threads₁, hf₁, -⟩ := hf.step hstep
    have hsel : selected (a :: as) = a.2 ++ selected as := rfl
    rcases head.picks hf.objects hc with ⟨hnone, hcurrent⟩ | ⟨hone, hpick⟩
    · have hrest := ih hf₁ (hcurrent ▸ hc)
      rw [hcurrent] at hrest
      rw [hsel, hnone]
      exact hrest
    · obtain ⟨_, -, hp⟩ := id hpick
      rw [hsel, hone]
      exact List.isChain_cons_cons.mpr ⟨hpick, ih hf₁ (RoundRobin.pick_mem hp)⟩

/-- **`schedule` goes round robin: in one turn of the process list it selects the first process
after the running one that can be switched to; and in a run in which the process list stays the
same, one that can always be switched to is selected before any other is selected twice.** -/
theorem round_robin :
    (∀ s u v, IsRing s.procs .process_head ((u ++ s.current :: v).map .process_list) →
      (∃ q ∈ u ++ s.current :: v, s.eligible q) →
      ∃ q before after, v ++ u ++ [s.current] = before ++ q :: after ∧
        (∀ x ∈ before, ¬ s.eligible x) ∧ (s.desc q).state = .RUNNING ∧
        (s.desc q).wake_up_time ≤ s.elapsed_clock_ticks ∧
        nextProcess s ((u ++ s.current :: v).length + 1) (.process_list s.current) = some q ∧
        (∀ r, Schedules s r ↔ r = q) ∧
        (q = s.current → ∀ x ∈ u ++ s.current :: v, s.eligible x → x = s.current)) ∧
    ∀ es s l p as t, Run Step bootSys es s → s.current ∈ l → p ∈ l → Run (Steady l p) s as t →
      ∀ before after, selected as = before ++ after → p ∉ before → before.Nodup := by
  refine ⟨fun s u v hr hsome => ?_, fun es s l p as t hrun hc hp has before after hsplit hnot => ?_⟩
  · have hnodup := ring_nodup hr
    have hc : s.current ∈ u ++ s.current :: v := by simp
    obtain ⟨q, hq⟩ : ∃ q, pick (fun p => decide (s.eligible p)) (u ++ s.current :: v) s.current =
        some q := by
      refine Option.isSome_iff_exists.mp (RoundRobin.pick_isSome.mpr ?_)
      obtain ⟨x, hx, he⟩ := hsome
      exact ⟨x, hx, by simpa using he⟩
    have helig : s.eligible q := by simpa using RoundRobin.pick_ready hq
    obtain ⟨before, after, hsplit, hbefore⟩ := RoundRobin.pick_split hq
    rw [RoundRobin.turn_split (RoundRobin.not_mem_before hnodup)] at hsplit
    refine ⟨q, before, after, hsplit, fun x hx => ?_, helig.1, helig.2,
      (nextProcess_turn hr hc).trans hq, fun r => ?_, fun he x hx hex => ?_⟩
    · simpa using hbefore x hx
    · rw [schedules_iff hr hc, hq, Option.some.injEq]
      exact eq_comm
    · subst he
      exact RoundRobin.pick_self hnodup hc hq x hx (by simpa using hex)
  · obtain ⟨threads, hf, -⟩ := formed_boot.run hrun
    cases as with
    | nil =>
      have hnil : before = [] := (List.append_eq_nil_iff.mp hsplit.symm).1
      rw [hnil]
      exact List.nodup_nil
    | cons a as =>
      have hring : IsRing s.procs .process_head (l.map .process_list) := by
        cases has with
        | cons head _ => exact head.before
      exact RoundRobin.fair (ring_nodup hring) hc hp (steady_chain has hf hc) hsplit hnot

/-- Three processes that are ready take turns. -/
theorem round_robin_three : ∃ s as t, Run Step bootSys [.fork true, .fork true] s ∧
    nextProcess s 4 (.process_list 1) = some 2 ∧ (∀ r, Schedules s r ↔ r = 2) ∧
    Run (Steady [1, 2, 3] 1) s as t ∧ selected as = [2, 3] ++ [1] ∧ [2, 3].Nodup := by
  have hrun : ((execAll 8 bootSys [.fork true, .fork true]).bind fun s =>
      (execSteady 8 [1, 2, 3] 1 s [.clock, .resume [], .clock, .resume [], .clock]).map fun x =>
        (s.current, selected x.1, decide (IsRing s.procs .process_head
          [.process_list 1, .process_list 2, .process_list 3] ∧ s.eligible 2))) =
      some (1, [2, 3, 1], true) := by
    decide +kernel
  obtain ⟨s, hs, hsteady⟩ := Option.bind_eq_some_iff.mp hrun
  obtain ⟨⟨as, t⟩, has, heq⟩ := Option.map_eq_some_iff.mp hsteady
  simp only [Prod.mk.injEq, decide_eq_true_eq] at heq
  obtain ⟨hcurrent, hselected, hring, htwo⟩ := heq
  have hlist : IsRing s.procs .process_head (([] ++ s.current :: [2, 3]).map .process_list) := by
    rw [hcurrent]
    exact hring
  obtain ⟨q, before, after, hsplit, hbefore, -, -, hnext, hsched, -⟩ :=
    round_robin.1 s [] [2, 3] hlist ⟨2, by simp, htwo⟩
  have hq : q = 2 := by
    cases before with
    | nil => exact (List.cons.inj hsplit).1.symm
    | cons x before =>
      have hx := hbefore x List.mem_cons_self
      rw [← (List.cons.inj hsplit).1] at hx
      exact absurd htwo hx
  subst hq
  rw [hcurrent] at hnext
  have hfair := round_robin.2 _ s [1, 2, 3] 1 as t (execAll_run hs) (by rw [hcurrent]; simp)
    (by simp) (execSteady_run has) [2, 3] [1] hselected (by decide)
  exact ⟨s, as, t, execAll_run hs, hnext, hsched, execSteady_run has, hselected, hfair⟩

end Yalnix.System
