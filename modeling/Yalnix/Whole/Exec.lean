import Yalnix.Whole.Loadable

/-!
# What becomes of the caller of `Exec`

* `Settled` — the call is refused and nothing has changed, or the program is loaded, or the process is
  killed.
* `loadProgram_committed` — with room in the heap a load ends with `SUCCESS` or `KILL`, and the process
  lives on.
* `exec_settled_iff` — the call settles exactly if the checks refuse it, or if the load succeeds, or if
  `malloc` fails and the stack pointer stays the same by chance.
-/

set_option autoImplicit false

namespace Yalnix.Whole

variable {p : PID} {prog : Program} {li : LoadInfo} {k k' k₁ : Kernel} {context : UserContext}
  {l : List Nat} {leak : Nat → Nat} {r : Int} {result : Except Stop (Int × Kernel)}

/-! ## Outcomes -/

/-- The page table, `ProcessInfo`, the program counter and the stack pointer are as they were. -/
structure Untouched (P P' : Process) : Prop where
  table : P'.page_table = P.page_table
  info : P'.info = P.info
  pc : P'.user_context.pc = P.user_context.pc
  sp : P'.user_context.sp = P.user_context.sp

/-- The outcomes of a call made in state `k`; the page table of a killed process has been freed. -/
def Settled (p : PID) (k : Kernel) (result : Except Stop (Int × Kernel)) : Prop :=
  ∃ r k', result = .ok (r, k') ∧
    (r = ERROR ∧ Untouched (k.proc p) (k'.proc p) ∨ r = SUCCESS ∨ (k'.proc p).live = false)

/-- The result goes to a register, and nothing else follows from it. -/
theorem settled_trapExec : Settled p (saveUserContext p context k) (trapExec p context prog k) ↔
    Settled p (saveUserContext p context k) (loadProgram p prog (saveUserContext p context k)) := by
  generalize hk : saveUserContext p context k = k₁
  have hregs : ∀ (P P' : Process) (regs : Nat → Int),
      Untouched P { P' with user_context := { P'.user_context with regs := regs } } ↔ Untouched P P' :=
    fun P P' regs => ⟨fun h => ⟨h.table, h.info, h.pc, h.sp⟩, fun h => ⟨h.table, h.info, h.pc, h.sp⟩⟩
  unfold Settled trapExec
  rw [hk]
  constructor
  · rintro ⟨r, k', hrun, h⟩
    obtain ⟨⟨r', k₂⟩, hload, hrun⟩ := bind_ok hrun
    cases hrun
    rw [Kernel.proc_modify_self, hregs] at h
    exact ⟨r, k₂, hload, h⟩
  · rintro ⟨r, k', hload, h⟩
    refine ⟨r, _, ok_bind hload _, ?_⟩
    rw [Kernel.proc_modify_self, hregs]
    exact h

/-- **Past the checks and with room in the heap there is no way back, and nobody kills the process.** -/
theorem loadProgram_committed (hpass : Passes p prog li k) (hmalloc : prog.malloc = true)
    (h : loadProgram p prog k = .ok (r, k')) :
    (r = SUCCESS ∨ r = KILL) ∧ (k'.proc p).live = (k.proc p).live := by
  by_cases hsaved : argSize prog.args ≤ size prog.args
  · rw [loadProgram_eq hpass hmalloc hsaved] at h
    obtain ⟨s, k₃, h₃, h⟩ := orKill_ok h
    have hlive₃ : (k₃.proc p).live = (k.proc p).live := by
      rw [(mapFrames_extends (by decide) h₃).1.self, cleared_proc]
    rcases h with ⟨-, rfl, rfl⟩ | ⟨hs, h⟩
    · exact ⟨.inr rfl, hlive₃⟩
    rw [(mapFrames_status h₃).resolve_right hs] at h₃
    obtain ⟨s₄, k₄, h₄, h⟩ := orKill_ok h
    have hlive₄ : (k₄.proc p).live = (k.proc p).live := by rw [(readSegment_memoryOnly h₄).proc, hlive₃]
    rcases h with ⟨-, rfl, rfl⟩ | ⟨-, h⟩
    · exact ⟨.inr rfl, hlive₄⟩
    obtain ⟨s₅, k₅, h₅, h⟩ := orKill_ok h
    have hlive₅ : (k₅.proc p).live = (k.proc p).live := by rw [(readSegment_memoryOnly h₅).proc, hlive₄]
    rcases h with ⟨-, rfl, rfl⟩ | ⟨-, h⟩
    · exact ⟨.inr rfl, hlive₅⟩
    obtain ⟨k₆, h₆, h⟩ := bind_ok h
    cases h
    have hin := ((mapFrames_success_iff (by decide)).mp ⟨k₃, h₃⟩).2
    have hfinish := finishLoad_memoryOnly (inTable_text hin) h₆
    refine ⟨.inl rfl, ?_⟩
    rw [hfinish.proc, Kernel.proc_modify_self, Kernel.proc_modify_self]
    exact hlive₅
  · rw [loadProgram_passes hpass, if_pos hmalloc] at h
    obtain ⟨u, hsave, -⟩ := bind_ok h
    exact absurd (saveArguments_ok.mp hsave) hsaved

/-- An error after the stack pointer has been set. -/
theorem settled_setSp (hlive : (k.proc p).live = true) (sp : Int) :
    Settled p k (.ok (ERROR, k.modify p (setSp sp))) ↔ (k.proc p).user_context.sp = sp := by
  constructor
  · rintro ⟨r, k', hrun, hout⟩
    rw [Except.ok.injEq, Prod.mk.injEq] at hrun
    obtain ⟨rfl, rfl⟩ := hrun
    rw [Kernel.proc_modify_self] at hout
    rcases hout with ⟨-, hsame⟩ | hout | hout
    · exact hsame.sp.symm
    · cases hout
    · exact absurd (hlive.symm.trans hout) (by decide)
  · intro hsp
    refine ⟨_, _, rfl, .inl ⟨rfl, ?_⟩⟩
    rw [Kernel.proc_modify_self]
    exact ⟨rfl, rfl, rfl, hsp.symm⟩

/-- From there on only success settles the call. -/
theorem settled_committed (hlive : (k.proc p).live = true) (hpass : Passes p prog li k)
    (hmalloc : prog.malloc = true) :
    Settled p k (loadProgram p prog k) ↔ ∃ k', loadProgram p prog k = .ok (SUCCESS, k') := by
  constructor
  · rintro ⟨r, k', hrun, hout⟩
    obtain ⟨hr, hsame⟩ := loadProgram_committed hpass hmalloc hrun
    have hr' : r = SUCCESS := by
      rcases hr with hr | rfl
      · exact hr
      · rcases hout with ⟨hout, -⟩ | hout | hout
        · cases hout
        · exact hout
        · rw [hsame, hlive] at hout
          cases hout
    rw [hr'] at hrun
    exact ⟨k', hrun⟩
  · rintro ⟨k', hrun⟩
    exact ⟨SUCCESS, k', hrun, .inr (.inl rfl)⟩

/-- A check refuses the call; or `malloc` fails, but `sp` is the stack pointer of the new program; or the
load finds what it needs. -/
def Settles (p : PID) (prog : Program) (k : Kernel) (l : List Nat) (sp : Int) : Prop :=
  (∀ li, ¬ Passes p prog li k) ∨ ∃ li, Passes p prog li k ∧
    (prog.malloc = false ∧ sp = cp2 prog.args ∨ prog.malloc = true ∧ Loadable p prog li k l)

theorem settles_of_passes {sp : Int} (hpass : Passes p prog li k) : Settles p prog k l sp ↔
    prog.malloc = false ∧ sp = cp2 prog.args ∨ prog.malloc = true ∧ Loadable p prog li k l := by
  constructor
  · rintro (hno | ⟨li', hpass', hli⟩)
    · exact absurd hpass (hno li)
    · rw [Option.some.inj (hpass'.info.symm.trans hpass.info)] at hli
      exact hli
  · exact fun hli => .inr ⟨li, hpass, hli⟩

/-- **A call settles exactly if the checks refuse it, or if the load succeeds, or if `malloc` fails and the
stack pointer was already that of the new program.** -/
theorem loadProgram_settled_iff (h : Bounded k leak l) (hp : Running k p) :
    Settled p k (loadProgram p prog k) ↔ Settles p prog k l (k.proc p).user_context.sp := by
  by_cases hpasses : ∃ li, Passes p prog li k
  · obtain ⟨li, hpass⟩ := hpasses
    rw [settles_of_passes hpass]
    cases hmalloc : prog.malloc with
    | false =>
      rw [loadProgram_passes hpass, hmalloc, if_neg (by decide), settled_setSp hp.live]
      exact ⟨fun hsp => .inl ⟨rfl, hsp⟩, fun hli => (hli.resolve_right fun hno => nomatch hno.1).2⟩
    | true =>
      rw [settled_committed hp.live hpass hmalloc, loadProgram_success_iff h hp hpass hmalloc]
      exact ⟨fun hload => .inr ⟨rfl, hload⟩, fun hli => (hli.resolve_left fun hno => nomatch hno.1).2⟩
  · refine iff_of_true ?_ (.inl (not_exists.mp hpasses))
    exact ⟨ERROR, k, loadProgram_refused (not_exists.mp hpasses), .inl ⟨rfl, rfl, rfl, rfl, rfl⟩⟩

/-! ## The trap -/

theorem proc_saved (context : UserContext) : (saveUserContext p context k).proc p =
    { k.proc p with user_context := context } := Kernel.proc_modify_self ..

theorem passes_saved : Passes p prog li (saveUserContext p context k) ↔ Passes p prog li k := by
  have hleader : ((saveUserContext p context k).proc p).thread_leader = (k.proc p).thread_leader := by
    rw [proc_saved]
  constructor
  · rintro ⟨h, hopens, hinfo, hentry, hroom⟩
    exact ⟨hleader ▸ h, hopens, hinfo, hentry, hroom⟩
  · rintro ⟨h, hopens, hinfo, hentry, hroom⟩
    exact ⟨hleader ▸ h, hopens, hinfo, hentry, hroom⟩

theorem ownFrames_saved : ownFrames (saveUserContext p context k) p = ownFrames k p := by
  unfold ownFrames mappedFrames sharesBelow
  rw [table_saveUserContext]
  rfl

theorem loadable_saved : Loadable p prog li (saveUserContext p context k) l ↔ Loadable p prog li k l := by
  constructor
  · rintro ⟨hsaved, hpages, hframes, htext, hdata, hbss, hblock⟩
    rw [ownFrames_saved] at hframes
    exact ⟨hsaved, hpages, hframes, htext, hdata, hbss, hblock⟩
  · rintro ⟨hsaved, hpages, hframes, htext, hdata, hbss, hblock⟩
    rw [← ownFrames_saved] at hframes
    exact ⟨hsaved, hpages, hframes, htext, hdata, hbss, hblock⟩

theorem settles_saved {sp : Int} :
    Settles p prog (saveUserContext p context k) l sp ↔ Settles p prog k l sp := by
  unfold Settles
  simp only [passes_saved, loadable_saved]

/-- **`Exec` fails as a whole, succeeds or kills the caller, unless `malloc` fails past the checks, which
moves the stack pointer, or the load fails after the old image has been freed, which kills nobody.** -/
theorem exec_settled_iff (h : Bounded k leak l) (hp : Running k p) :
    Settled p (saveUserContext p context k) (trapExec p context prog k) ↔ Settles p prog k l context.sp := by
  rw [settled_trapExec, loadProgram_settled_iff (h.saveUserContext p context) (running_saveUserContext.mpr hp),
    proc_saved, settles_saved]

/-- A file whose text cannot be read. -/
def unreadable : Program := { fromFile smallFile with text := none }

/-- **After a read that fails the caller goes on without an address space.** -/
theorem exec_survives_failed_read : ¬ ∀ (p : PID) (prog : Program) (context : UserContext) (k : Kernel)
    (leak : Nat → Nat) (l : List Nat), Bounded k leak l → Running k p →
    Settled p (saveUserContext p context k) (trapExec p context prog k) := by
  intro hall
  obtain ⟨l, hcounts, -⟩ := machine_countsExact (N := 3) (by omega)
  have hrunning := running_machine (N := 3) (by omega)
  have hpass : Passes 1 unreadable smallFile (machine 3) := ⟨rfl, rfl, rfl, by decide, by decide⟩
  have hsettled := hall 1 unreadable firstContext (machine 3) _ l hcounts.bounded hrunning
  rw [settled_trapExec, loadProgram_settled_iff (hcounts.bounded.saveUserContext 1 firstContext)
    (running_saveUserContext.mpr hrunning), settles_saved, settles_of_passes hpass] at hsettled
  rcases hsettled with ⟨hmalloc, -⟩ | ⟨-, hload⟩
  · cases hmalloc
  · obtain ⟨bytes, hbytes, -⟩ := hload.text.file
    cases hbytes

/-- `smallFile` is loaded. -/
theorem smallFile_settled : Settled 1 (saveUserContext 1 firstContext (machine 3))
    (trapExec 1 firstContext (fromFile smallFile) (machine 3)) := by
  obtain ⟨l, hcounts, -⟩ := machine_countsExact (N := 3) (by omega)
  have hrunning := running_machine (N := 3) (by omega)
  have hpass : Passes 1 (fromFile smallFile) smallFile (machine 3) := ⟨rfl, rfl, rfl, by decide, by decide⟩
  have hload := (loadProgram_success_iff hcounts.bounded hrunning hpass rfl).mp smallFile_loads
  exact (exec_settled_iff hcounts.bounded hrunning).mpr (.inr ⟨smallFile, hpass, .inr ⟨rfl, hload⟩⟩)

end Yalnix.Whole
