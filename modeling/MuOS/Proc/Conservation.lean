import MuOS.Proc.Boot

namespace MuOS.Proc.Conservation

open Function Lib.Runs Mm Frames Ledger Views Sharing Space Invariant Lifecycle ProcSteps ProcRuns
  Boot List Finset

variable {reserved : Nat → Prop} {kpd : Nat} {base : Nat → Nat} {vm vm' : Vm} {lost : List Nat}
  {live : Nat → Option View}

def freeFrames (fr : Allocator) : Finset Nat :=
  (Finset.range fr.totalPages).filter (fun f => bitmapTest fr f = false)

def noProcess (vm : Vm) : Prop := ∀ i, i ≠ 0 → i < procMax → (vm.procs i).used = false

theorem mem_freeFrames {fr : Allocator} {held : Nat → Nat} (h : Consistent fr held reserved)
    {f : Nat} : f ∈ freeFrames fr ↔ f < fr.totalPages ∧ held f = 0 ∧ ¬ reserved f := by
  rw [freeFrames, Finset.mem_filter, Finset.mem_range]
  constructor
  · rintro ⟨hlt, hfree⟩
    exact ⟨hlt, (h.free_iff hlt).mp hfree⟩
  · rintro ⟨hlt, hfree⟩
    exact ⟨hlt, (h.free_iff hlt).mpr hfree⟩

section

variable (h : Inv reserved kpd base vm lost live)
include h

theorem bare_slots (hn : noProcess vm) {i : Nat} (hi : i < procMax) :
    (vm.procs i).space = none ∧ (vm.procs i).kstack = 0 := by
  by_cases h0 : i = 0
  · subst h0
    exact h.book.shell.2
  · exact h.book.unused i hi (hn i h0 hi)

theorem no_spaces (hn : noProcess vm) : live = fun _ => none := by
  funext id
  cases hl : live id with
  | none => rfl
  | some v =>
    obtain ⟨i, hi, hs⟩ := exists_sharer (h.book.known id v hl).1
    cases (bare_slots h hn hi).1.symm.trans hs

theorem held_idle (hn : noProcess vm) (f : Nat) :
    heldBy (owned base lost vm.procs) live vm.nextSpace f = base f + lost.count f := by
  have hz : stackUse vm.procs f = 0 := by
    apply Finset.sum_eq_zero
    intro i hi
    rw [stackFrames_empty (bare_slots h hn (Finset.mem_range.mp hi)).2, count_nil]
  rw [no_spaces h hn, heldBy_empty, owned, hz, Nat.add_zero]

end

section

variable (h : Consistent vm.mm.fr base reserved) (h' : Inv reserved kpd base vm' lost live)
  (hn : noProcess vm')
include h h' hn

section

variable (htot : vm'.mm.fr.totalPages = vm.mm.fr.totalPages)
include htot

theorem freeFrames_eq : freeFrames vm'.mm.fr = freeFrames vm.mm.fr \ lost.toFinset := by
  ext f
  rw [mem_freeFrames h'.sound.ledger, held_idle h' hn, mem_sdiff, mem_freeFrames h, htot,
    mem_toFinset, ← count_eq_zero]
  constructor
  · rintro ⟨hlt, h0, hr⟩
    exact ⟨⟨hlt, by omega, hr⟩, by omega⟩
  · rintro ⟨⟨hlt, hb, hr⟩, hc⟩
    exact ⟨hlt, by omega, hr⟩

theorem lost_free : lost.toFinset ⊆ freeFrames vm.mm.fr := by
  intro f hf
  have hc := count_pos_iff.mpr (mem_toFinset.mp hf)
  have hheld := held_idle h' hn f
  rw [mem_freeFrames h, ← htot]
  refine ⟨h'.sound.ledger.held_lt f (by omega), h'.strays.2 f (mem_toFinset.mp hf), fun hr => ?_⟩
  have h0 := h'.sound.ledger.held_reserved f hr
  omega

end

end

theorem starts_cost (h : Idle reserved kpd base vm) {acts : List Act} (hm : Meets step Tame vm acts)
    (hr : run step vm acts = some vm') (hn : noProcess vm') : freeFrames vm'.mm.fr ⊆ freeFrames vm.mm.fr ∧
      (freeFrames vm'.mm.fr).card + stepCount step isStart vm acts = (freeFrames vm.mm.fr).card := by
  have := h.window
  obtain ⟨lost, live, hinv, -, htot, new, hnew, hlen⟩ := run_inv h.inv h.full hm hr
  rw [append_nil] at hnew
  subst hnew
  rw [freeFrames_eq h.ledger hinv hn htot]
  refine ⟨sdiff_subset, ?_⟩
  have hsub := lost_free h.ledger hinv hn htot
  have hcard := card_le_card hsub
  rw [card_sdiff_of_subset hsub]
  rw [toFinset_card_of_nodup hinv.strays.1] at hcard ⊢
  omega

def shortRun : List Act := [.launch true, .resume 0, .reap 1]

theorem shortRun_calm : Meets step Calm (bootVm roomy) shortRun ∧
    ∃ vm', run step (bootVm roomy) shortRun = some vm' ∧ noProcess vm' ∧
      stepCount step isStart (bootVm roomy) shortRun = 1 := by
  obtain ⟨vm, hvm, hinv, -, hst, -⟩ := below_launch (show 6151 ≤ 32768 by omega)
  obtain ⟨vm₁, hvm₁⟩ : ∃ vm₁ :
    Vm, vm₁ = { procSwitchSpace vm 0 with current := 0, active := false } := ⟨_, rfl⟩
  have hinv₁ : Inv (bootReserved roomy) kernelDir bootRefs vm₁ [6145] firstLive :=
    hvm₁ ▸ inv_switch hinv (by decide) hinv.book.shell.1 false (by simp)
  have hprocs : vm₁.procs = update (bootVm roomy).procs 1
      ⟨true, some 0, 4098 * 4096, blockPages, 6147 * 4096, 4096 * 4096⟩ := by
    rw [hvm₁]
    exact hst.procs
  have hused : (vm₁.procs 1).used = true := by rw [hprocs, update_self]
  have hcur : vm₁.current = 0 := by rw [hvm₁]
  have hflags : vm₁.mm.oom = false ∧ vm₁.mm.cloneFailed = false := by
    rw [hvm₁]
    exact ⟨hst.oom, hst.cloneFailed⟩
  obtain ⟨live', hinv₂, hr⟩ :=
    procReap_spec hinv₁ (by decide) (by decide) (by rw [hcur]; decide) hused
  obtain ⟨fr, hmm, -⟩ := hr.mm
  have h1 : step (bootVm roomy) (.launch true) = some vm := by rw [step, hvm]
  have h2 : step vm (.resume 0) = some vm₁ := by rw [step, if_pos rfl, hvm₁]
  have h3 : step vm₁ (.reap 1) = some (procReap vm₁ 1) := by
    rw [step, if_pos ⟨isUserProc_iff.mpr ⟨by decide, by decide, hused⟩, by rw [hcur]; decide⟩]
  refine ⟨meets_cons (by simp) h1 ⟨hst.oom, hst.cloneFailed⟩ (meets_cons (by simp) h2 hflags
    (meets_cons (by simp) h3 ?_ trivial)), procReap vm₁ 1,
    run_cons step h1 (run_cons step h2 (run_cons step h3 rfl)), ?_, ?_⟩
  · rw [hmm]
    exact hflags
  · intro j h0 hj
    rw [hr.procs, hprocs, update_idem]
    by_cases hj1 : j = 1
    · rw [hj1]
      rfl
    · rw [update_of_ne hj1]
      exact roomy_idle.empty j h0 hj
  · have hstart : isStart (bootVm roomy) (.launch true) = true := by
      rw [isStart, hvm, hst.active]
      rfl
    rw [shortRun, stepCount_cons _ h1, stepCount_cons _ h2, stepCount_cons _ h3, hstart]
    rfl

/-- The frames that are free before and after are the same if and only if no
program was started: every start leaks one frame, and nothing else is leaked
or freed twice. -/
theorem frames_conserved_iff (h : Idle reserved kpd base vm) {acts : List Act}
    (hm : Meets step Ample vm acts) (hr : run step vm acts = some vm') (hn : noProcess vm') :
    freeFrames vm'.mm.fr = freeFrames vm.mm.fr ↔ stepCount step isStart vm acts = 0 := by
  obtain ⟨hsub, hcard⟩ := starts_cost h (hm.mono fun _ _ ha => ha.tame) hr hn
  constructor
  · intro he
    rw [he] at hcard
    omega
  · intro h0
    exact eq_of_subset_of_card_le hsub (by omega)

theorem frames_conserved_short : ∃ vm', run step (bootVm roomy) shortRun = some vm' ∧
    noProcess vm' ∧ (freeFrames vm'.mm.fr = freeFrames (bootVm roomy).mm.fr ↔
    stepCount step isStart (bootVm roomy) shortRun = 0) := by
  obtain ⟨hm, vm', hr, hn, -⟩ := shortRun_calm
  exact ⟨vm', hr, hn, frames_conserved_iff roomy_idle (hm.mono fun _ _ hc => hc.ample) hr hn⟩

/-- One program that starts and ends leaves one frame less. -/
theorem short_run_leaks : Meets step Ample (bootVm roomy) shortRun ∧
    ∃ vm', run step (bootVm roomy) shortRun = some vm' ∧ noProcess vm' ∧
      freeFrames vm'.mm.fr ≠ freeFrames (bootVm roomy).mm.fr ∧
      (freeFrames vm'.mm.fr).card + 1 = (freeFrames (bootVm roomy).mm.fr).card := by
  obtain ⟨hm, vm', hr, hn, hone⟩ := shortRun_calm
  obtain ⟨-, hcard⟩ := starts_cost roomy_idle (hm.mono fun _ _ hc => hc.ample.tame) hr hn
  rw [hone] at hcard
  refine ⟨hm.mono fun _ _ hc => hc.ample, vm', hr, hn, fun he => ?_, hcard⟩
  rw [he] at hcard
  omega

end MuOS.Proc.Conservation
