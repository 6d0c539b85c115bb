import Yalnix.Process.ForkError

/-!
# The end of a process

`exitProcess_spec`: the memory of a process without threads that exits goes back to the free list,
page table and kernel stack, and no other process is touched.
-/

set_option autoImplicit false

namespace Yalnix

open RefCount (refs)

variable {k k' : Kernel} {l l' : List Nat} {f g p q : Nat} {D : Finset Slot} {leak : Nat → Nat}

/-- The frames of the kernel stack are there, at page addresses. -/
def PcbOk (P : Process) : Prop := P.pcb = true ∧ ∀ j < 2, ∃ f, P.pcb_frames j = pageAtIndex f

/-- `killKernelContext` gives back the two frames of the kernel stack. -/
theorem freePcbFrames_spec (h : Counted k D leak l) (hp : p ≠ 0) (hpcb : PcbOk (k.proc p))
    (h₀ : (p, 128) ∈ D) (h₁ : (p, 129) ∈ D) (h127 : ∀ f, refs D (mapping k) f + leak f ≤ 127)
    (hD : ∀ x ∈ D, x.2 < 130) :
    ∃ l', (∀ g ∈ l, g ∈ l') ∧ Counted (freePcbFrames p k) D leak l' ∧
      Quiet k ((freePcbFrames p k).modify p fun P => { P with pcb := true }) l' ∧
      (∀ f, refs D (mapping (freePcbFrames p k)) f ≤ refs D (mapping k) f) ∧
      ((freePcbFrames p k).proc p).pcb = false := by
  obtain ⟨hlive, hframes⟩ := hpcb
  obtain ⟨f₀, hf₀⟩ := hframes 0 (by omega)
  obtain ⟨f₁, hf₁⟩ := hframes 1 (by omega)
  have hE₀ : insert (p, 128) (D.erase (p, 128)) = D := Finset.insert_erase h₀
  have hE₁ : insert (p, 129) ((D.erase (p, 128)).erase (p, 129)) = D.erase (p, 128) :=
    Finset.insert_erase (Finset.mem_erase.mpr ⟨by simp, h₁⟩)
  obtain ⟨l₁, -, hsub₁, hc₁, hq₁⟩ := (hE₀.symm ▸ h).forget (by simp) hp
    (mapping_pcb (j := 0) hp hlive hf₀) (by rw [hE₀]; exact h127 f₀)
  have hfr₁ : ((freePageFrame (pageAtIndex f₀) k).proc p).pcb_frames 1 = pageAtIndex f₁ := by
    rw [hq₁.proc]
    exact hf₁
  have hbound : refs (insert (p, 129) ((D.erase (p, 128)).erase (p, 129)))
      (mapping (freePageFrame (pageAtIndex f₀) k)) f₁ + leak f₁ ≤ 127 := by
    rw [hE₁, hq₁.mapping]
    have := RefCount.refs_mono (m := mapping k) (f := f₁) (Finset.erase_subset (p, 128) D)
    have := h127 f₁
    omega
  obtain ⟨l₂, -, hsub₂, hc₂, hq₂⟩ := (hE₁.symm ▸ hc₁).forget (by simp) hp
    (mapping_pcb (j := 1) hp (by rw [hq₁.proc]; exact hlive) hfr₁) hbound
  have hrun : freePcbFrames p k = (freePageFrame (pageAtIndex f₁)
      (freePageFrame (pageAtIndex f₀) k)).modify p fun P => { P with pcb := false } := by
    unfold freePcbFrames
    simp only [hf₀, hfr₁]
  have hq := (hq₁.mono hsub₂).trans hq₂
  generalize freePageFrame (pageAtIndex f₁) (freePageFrame (pageAtIndex f₀) k) = k₂ at hrun hc₂ hq
  have hother : ∀ x ∈ (D.erase (p, 128)).erase (p, 129),
      mapping (freePcbFrames p k) x = mapping k x := by
    intro x hx
    simp only [Finset.mem_erase, ne_eq] at hx
    rw [hrun, ← hq.mapping]
    unfold mapping Kernel.table
    by_cases hxp : x.1 = p
    · have hx2 : x.2 < 128 := by
        have := hD x hx.2.2
        have h128 : x.2 ≠ 128 := fun he => hx.2.1 (Prod.ext hxp he)
        have h129 : x.2 ≠ 129 := fun he => hx.1 (Prod.ext hxp he)
        omega
      simp [hxp, hx2]
    · simp [hxp]
  have hnone : ∀ j, 128 ≤ j → mapping (freePcbFrames p k) (p, j) = none := by
    intro j hj
    rw [hrun]
    unfold mapping
    simp [hp, show ¬ j < 128 by omega]
  have hcut : ∀ m : Slot → Option Nat, m (p, 128) = none → m (p, 129) = none → ∀ f,
      refs D m f = refs ((D.erase (p, 128)).erase (p, 129)) m f := by
    intro m hm₀ hm₁ f
    conv_lhs => rw [← hE₀]
    rw [RefCount.refs_insert_none hm₀, ← hE₁, RefCount.refs_insert_none hm₁]
    simp
  have hsmall : Counted (freePcbFrames p k) ((D.erase (p, 128)).erase (p, 129)) leak l₂ := by
    refine hc₂.congr ?_ ?_ ?_ fun x hx => ?_
    · rw [hrun]
      exact hc₂.list.of_eq rfl rfl rfl
    · rw [hrun]
      rfl
    · rw [hrun]
      rfl
    · rw [hother x hx, hq.mapping]
  refine ⟨l₂, fun g hg => hsub₂ g (hsub₁ g hg), ?_, ?_, fun f => ?_, ?_⟩
  · exact hE₀ ▸ (hE₁ ▸ hsmall.extend_none (hnone 129 (by omega))).extend_none (hnone 128 le_rfl)
  · rw [hrun]
    refine ⟨?_, hq.max_pid, hq.addr, hq.kpt, hq.pmem⟩
    simp only [Kernel.proc_modify, Function.update_self, Function.update_idem, hq.proc]
    funext q
    by_cases hqp : q = p
    · subst hqp
      rw [Function.update_self, ← hlive]
    · rw [Function.update_of_ne hqp]
  · rw [hcut _ (hnone 128 le_rfl) (hnone 129 (by omega)), RefCount.refs_congr hother]
    exact RefCount.refs_mono ((Finset.erase_subset _ _).trans (Finset.erase_subset _ _))
  · rw [hrun, Kernel.proc_modify_self]

/-- **When a process without threads exits, its table is empty, its kernel stack is gone, and
nothing else has changed but frames that are free now.** -/
theorem exitProcess_spec (h : Counted k D leak l) (hp : p ≠ 0) (hpcb : PcbOk (k.proc p))
    (hp130 : ∀ j < 130, (p, j) ∈ D) (hD : ∀ x ∈ D, x.2 < 130)
    (h127 : ∀ f, refs D (mapping k) f + leak f ≤ 127) :
    ∃ k' l', exitProcess p k = .ok k' ∧ (∀ g ∈ l, g ∈ l') ∧ Counted k' D leak l' ∧
      k'.max_pid = k.max_pid ∧ (∀ q, q ≠ p → k'.proc q = k.proc q) ∧
      (k'.proc p).live = false ∧ (k'.proc p).pcb = false ∧ (k'.proc p).info = (k.proc p).info ∧
      (k'.proc p).thread_leader = (k.proc p).thread_leader ∧
      (∀ i < 123, k'.kernel_page_table i = k.kernel_page_table i) ∧
      (∀ j, k'.table p j = PTE.clear) ∧ (∀ f, f ∉ l' → k'.pmem f = k.pmem f) ∧
      ∀ f, refs D (mapping k') f ≤ refs D (mapping k) f := by
  obtain ⟨k₁, l₁, hrun, hsub₁, hc₁, htouch, htable, hrefs₁⟩ :=
    freeAddressSpace_spec h hp (fun j hj => hp130 j (by omega)) h127
  have hsame : mapping (k₁.modify p fun P => { P with live := false }) = mapping k₁ := by
    funext x
    unfold mapping Kernel.table
    by_cases hx : x.1 = p
    · simp [hx]
    · simp [hx]
  have hc₂ : Counted (k₁.modify p fun P => { P with live := false }) D leak l₁ :=
    hc₁.congr (hc₁.list.of_eq rfl rfl rfl) rfl rfl fun x _ => by rw [hsame]
  have hpcb₂ : PcbOk ((k₁.modify p fun P => { P with live := false }).proc p) := by
    rw [Kernel.proc_modify_self, htouch.self]
    exact hpcb
  obtain ⟨l₂, hsub₂, hc₃, hquiet, hrefs₂, hdead⟩ := freePcbFrames_spec hc₂ hp hpcb₂
    (hp130 128 (by omega)) (hp130 129 (by omega))
    (fun f => by rw [hsame]; have := hrefs₁ f; have := h127 f; omega) hD
  have hproc := hquiet.proc
  have hself : (freePcbFrames p (k₁.modify p fun P => { P with live := false })).proc p =
      { k₁.proc p with live := false, pcb := false } := by
    have hp' := congrFun hproc p
    rw [Kernel.proc_modify_self, Kernel.proc_modify_self] at hp'
    generalize (freePcbFrames p (k₁.modify p fun P => { P with live := false })).proc p = P
      at hp' hdead
    cases P
    simp only [Process.mk.injEq] at hp' hdead ⊢
    exact ⟨hp'.1, hdead, hp'.2.2⟩
  refine ⟨_, l₂, ?_, fun g hg => hsub₂ g (hsub₁ g hg), hc₃, ?_, fun q hq => ?_, by rw [hself],
    by rw [hself], ?_, ?_, fun i hi => ?_, fun j => ?_, fun f hf => ?_, fun f => ?_⟩
  · unfold exitProcess
    rw [hrun]
    rfl
  · exact hquiet.max_pid.trans htouch.max_pid
  · have := congrFun hproc q
    simp only [Kernel.proc_modify, Function.update_of_ne hq] at this
    rw [this, htouch.proc q hq]
  · rw [hself, htouch.self]
  · rw [hself, htouch.self]
  · exact (hquiet.kpt i (by omega)).trans (htouch.kpt i (by omega))
  · have := htable j
    unfold Kernel.table at this ⊢
    rw [hself]
    exact this
  · have hf₁ : f ∉ l₁ := fun hm => hf (hsub₂ f hm)
    exact (hquiet.pmem f hf).trans (htouch.pmem f hf₁)
  · exact (hrefs₂ f).trans (hsame ▸ hrefs₁ f)

end Yalnix
