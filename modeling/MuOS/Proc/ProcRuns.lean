import MuOS.Proc.Forking

namespace MuOS.Proc.ProcRuns

open Lib Memory Paging Runs Tally Mm Ledger UserPd Views TableOps TableClone
open Sharing SharingOps Space SpaceOps Invariant Cpu ProcSteps Lifecycle Forking User.Window
  List Option Nat

variable {reserved : Nat → Prop} {kpd : Nat} {base : Nat → Nat} {vm vm' : Vm} {lost : List Nat}
  {live : Nat → Option View} {id i va : Nat} {v : View} {a : Act}

/-- No user process; the shell runs on the kernel's directory. -/
structure Bare (reserved : Nat → Prop) (kpd : Nat) (base : Nat → Nat) (vm : Vm) : Prop where
  ledger : Consistent vm.mm.fr base reserved
  dir : vm.mm.pageDirPhys = kpd * 4096
  kdir : 0 < base kpd
  kernel : ∀ i, i < 1024 → isUser (rdEntry vm.mm.mem (kpd * 4096) i) = false
  loaded : vm.mm.cr3 = kpd * 4096
  flushed : ∀ p, vm.mm.tlb p = none
  shell : (vm.procs 0).used = true
  empty : ∀ i, i ≠ 0 → i < procMax → (vm.procs i).used = false
  bare : ∀ i, i < procMax → (vm.procs i).space = none ∧ (vm.procs i).pdPhys = 0 ∧
    (vm.procs i).kstack = 0
  spaces : ∀ id, vm.spaces id = none
  current : vm.current = 0

/-- The frames under the user window, 0x8000 to 0x8BFF, are out of use too. -/
structure Idle (reserved : Nat → Prop) (kpd : Nat) (base : Nat → Nat) (vm : Vm) : Prop
    extends Bare reserved kpd base vm where
  window : WindowReserved reserved

theorem Bare.owned_eq (h : Bare reserved kpd base vm) : owned base [] vm.procs = base := by
  funext f
  have hz : stackUse vm.procs f = 0 := by
    apply Finset.sum_eq_zero
    intro i hi
    rw [stackFrames_empty (h.bare i (Finset.mem_range.mp hi)).2.2, count_nil]
  simp only [owned, count_nil, hz, add_zero]

theorem heldBy_empty (rest : Nat → Nat) (n : Nat) : heldBy rest (fun _ => none) n = rest := by
  funext f
  simp only [heldBy, fixedUse, dataUse, tally_empty fun _ _ => rfl, add_zero]

theorem Bare.inv (h : Bare reserved kpd base vm) : Inv reserved kpd base vm [] (fun _ => none) := by
  have hbare := h.bare
  refine ⟨⟨h.dir, ?_, ?_, ?_⟩, h.kdir, ⟨nodup_nil, by simp⟩, ?_, ?_, ?_⟩
  · rw [h.loaded]
    exact mul_mod_left kpd 4096
  · rw [h.owned_eq]
    exact ⟨h.kdir, h.kernel, by simp, by simp, by simp, by simp, by simp, by simp⟩
  · rw [h.owned_eq, heldBy_empty]
    exact h.ledger
  · intro i hi
    rw [(hbare i hi).2.2]
  · refine ⟨⟨h.shell, (hbare 0 (by decide)).1, (hbare 0 (by decide)).2.2⟩, ?_, ?_, ?_, by simp,
      fun id _ => h.spaces id⟩
    · exact fun i hi _ => ⟨(hbare i hi).1, (hbare i hi).2.2⟩
    · exact fun i hi _ => (hbare i hi).2.1
    · intro i id hi hs
      cases (hbare i hi).1.symm.trans hs
  · refine ⟨?_, ?_, ?_, ?_, ?_⟩
    · rw [h.current]
      decide
    · rw [h.current]
      exact h.shell
    · exact fun hne => absurd h.current hne
    · rw [h.current, if_pos (hbare 0 (by decide)).2.1]
      exact h.loaded
    · intro p e he
      cases (h.flushed p).symm.trans he

theorem Bare.full (h : Bare reserved kpd base vm) : Full vm := by
  intro i h0 hi hu
  cases (h.empty i h0 hi).symm.trans hu

def isStart (vm : Vm) : Act → Bool
  | .launch km => !vm.active && (launch vm km).active
  | _ => false

/-- A step keeps the books; a program start costs one frame. -/
structure Stepped (reserved : Nat → Prop) (kpd : Nat) (base : Nat → Nat) (vm vm' : Vm) (a : Act)
    (lost lost' : List Nat) (live' : Nat → Option View) : Prop where
  inv : Inv reserved kpd base vm' lost' live'
  full : Full vm'
  total : vm'.mm.fr.totalPages = vm.mm.fr.totalPages
  lost : (isStart vm a = false ∧ lost' = lost) ∨ (isStart vm a = true ∧ ∃ f, lost' = f :: lost)

theorem stepped_memory {mm : Machine} {live' : Nat → Option View} (hf : Full vm)
    (ha : isStart vm a = false) (hinv : Inv reserved kpd base (setMm vm mm) lost live')
    (htot : mm.fr.totalPages = vm.mm.fr.totalPages) :
    Stepped reserved kpd base vm (setMm vm mm) a lost lost live' :=
  ⟨hinv, hf, htot, .inl ⟨ha, rfl⟩⟩

theorem reap_flags (vm : Vm) (hbare : (vm.procs i).space = none) :
    (procReap vm i).mm.cloneFailed = vm.mm.cloneFailed ∧ (procReap vm i).mm.oom = vm.mm.oom := by
  unfold procReap
  split
  · exact ⟨rfl, rfl⟩
  simp only [hbare, leaveSpace, freeStack, setSlot, setMm]
  split <;> exact ⟨rfl, rfl⟩

section

variable (h : Inv reserved kpd base vm lost live)
include h

theorem onPd_inv (hf : Full vm) {f : Machine → Nat → Machine}
    (hop : ∀ {k : Nat} {w : View}, live k = some w → ∃ live',
      Sound (f vm.mm (w.pd * 4096)) reserved kpd (owned base lost vm.procs) live' vm.nextSpace ∧
      Kept vm.mm (f vm.mm (w.pd * 4096)) live live') (hs : onPd vm i f = some vm') :
    ∃ mm live', vm' = setMm vm mm ∧ Inv reserved kpd base (setMm vm mm) lost live' ∧
      Kept vm.mm mm live live' := by
  obtain ⟨hu, hs⟩ := ite_none_right_eq_some.mp hs
  obtain ⟨id, v, -, hv, hpd⟩ := user_view h hf hu
  obtain ⟨live', hsd, hk⟩ := hop hv
  rw [hpd] at hs
  exact ⟨_, live', (some.inj hs).symm, h.kept hsd hk, hk⟩

theorem current_view (hf : Full vm) (hu : isUserProc vm vm.current = true) :
    ∃ id v, (vm.procs vm.current).space = some id ∧ live id = some v ∧ vm.current ≠ 0 := by
  obtain ⟨id, v, hid, hv, -⟩ := user_view h hf hu
  exact ⟨id, v, hid, hv, (isUserProc_iff.mp hu).1⟩

theorem load_inv (hid : (vm.procs vm.current).space = some id)
    (hv : live id = some v) (h1 : userBase ≤ va) (h2 : va < userSigtramp) :
    ∃ b mm, cpuLoad vm.mm va = some (b, mm) ∧ Inv reserved kpd base (setMm vm mm) lost live ∧
      mm.mem = vm.mm.mem ∧ mm.cloneFailed = vm.mm.cloneFailed ∧ mm.fr = vm.mm.fr ∧
      ∀ img, Shows vm.mm.mem live img → b = img id va := by
  have hi : va / 4096 - 32840 < dataPages := by
    unfold dataPages
    unfold userSigtramp at h2
    omega
  have hva : va / 4096 = 32840 + (va / 4096 - 32840) := by
    unfold userBase at h1
    omega
  refine ⟨_, _, cpuLoad_page h hid hv hi hva, inv_fill h hid hv hi hva, rfl, rfl, rfl, ?_⟩
  intro img hs
  have hb := hs id v _ _ hv hi (mod_lt va (by omega))
  have hpos : pageVa (va / 4096 - 32840) + va % 4096 = va := by
    unfold pageVa userBase
    omega
  rw [hpos] at hb
  exact hb

theorem step_inv [WindowReserved reserved] (hf : Full vm) (hw : wakesStraight vm a)
    (hs : step vm a = some vm') (hc : vm'.mm.cloneFailed = false ∨ vm'.mm.oom = false) :
    ∃ lost' live', Stepped reserved kpd base vm vm' a lost lost' live' := by
  cases a with
  | launch km =>
    have he : launch vm km = vm' := some.inj hs
    rw [← he]
    obtain ⟨live', hinv, hsame, -, -, -⟩ | ⟨i, ks, b, t, pd, ts, -, hinv, hfull, hst⟩ :=
      launch_spec h hf km
    · refine ⟨lost, live', hinv, hsame.full hf, hsame.total, .inl ⟨?_, rfl⟩⟩
      simp only [isStart, hsame.active, Bool.not_and_self]
    · refine ⟨_, _, hinv, hfull, hst.total, .inr ⟨?_, _, rfl⟩⟩
      simp only [isStart, hst.inactive, hst.active, Bool.not_false, Bool.and_self]
  | fork km fd =>
    obtain ⟨hu, hs⟩ := ite_none_right_eq_some.mp hs
    obtain ⟨id, v, hid, hv, -⟩ := current_view h hf hu
    have he : doFork vm km fd = vm' := some.inj hs
    rw [← he] at hc ⊢
    obtain ⟨live', hinv, hsame, -, -, -⟩ | ⟨i, ks, t, pd, ts, live', -, hinv, hfull, hbr⟩ |
        ⟨i, ks, fr₁, t, fs, fr, m, -, hfree, -, -, he', -⟩ := doFork_spec h hf hid hv km fd
    · exact ⟨lost, live', hinv, hsame.full hf, hsame.total, .inl ⟨rfl, rfl⟩⟩
    · exact ⟨lost, live', hinv, hfull, hbr.total, .inl ⟨rfl, rfl⟩⟩
    obtain ⟨hcf, ho⟩ :=
      reap_flags (i := i) (setMm (setSlot (setMm vm (setFr vm.mm fr₁)) i (bornSlot ks)) _)
      (by simp only [setMm, setSlot, Function.update_self, bornSlot])
    rw [he', hcf, ho] at hc
    exact absurd hc (by simp [setMm, failedClone])
  | thread fd =>
    obtain ⟨hu, hs⟩ := ite_none_right_eq_some.mp hs
    obtain ⟨id, v, hid, hv, -⟩ := current_view h hf hu
    have he : doThread vm fd = vm' := some.inj hs
    rw [← he]
    obtain ⟨live', hinv, hsame, -, -, -⟩ | ⟨i, ks, -, hinv, hfull, hj⟩ := doThread_spec h hf hid fd
    · exact ⟨lost, live', hinv, hsame.full hf, hsame.total, .inl ⟨rfl, rfl⟩⟩
    · exact ⟨lost, live, hinv, hfull, hj.total, .inl ⟨rfl, rfl⟩⟩
  | load va =>
    obtain ⟨hu, hs⟩ := ite_none_right_eq_some.mp hs
    obtain ⟨id, v, hid, hv, -⟩ := current_view h hf hu.1
    obtain ⟨b, mm, hl, hinv, -, -, hfr, -⟩ := load_inv h hid hv hu.2.1 hu.2.2
    rw [hl] at hs
    rw [← some.inj hs]
    exact ⟨lost, live, stepped_memory hf rfl hinv (by rw [hfr])⟩
  | store va b =>
    obtain ⟨hu, hs⟩ := ite_none_right_eq_some.mp hs
    obtain ⟨id, v, hid, hv, hcur⟩ := current_view h hf hu.1
    obtain ⟨mm, live', he, hinv, -, htot, -⟩ := userStore_spec h hid hcur hu.2.1 hu.2.2 b
    rw [he] at hs
    rw [← some.inj hs]
    exact ⟨lost, live', stepped_memory hf rfl hinv htot⟩
  | wake i va off bytes =>
    obtain ⟨hu, hs⟩ := ite_none_right_eq_some.mp hs
    obtain ⟨id, v, hid, hv, hpd⟩ := user_view h hf hu.1
    obtain ⟨mm, live', he, hinv, -, htot⟩ := wakeWrite_spec h hv hpd off bytes hw
    rw [he] at hs
    rw [← some.inj hs]
    exact ⟨lost, live', stepped_memory hf rfl hinv htot⟩
  | writeProtect i =>
    obtain ⟨mm, live', rfl, hinv, hk⟩ := onPd_inv h hf (fun hv => ⟨_, (h.sound.writeProtect hv).1,
      (h.sound.writeProtect hv).2.1⟩) hs
    exact ⟨lost, live', stepped_memory hf rfl hinv hk.total⟩
  | makeWritable i va =>
    obtain ⟨hr, hs⟩ := ite_none_right_eq_some.mp hs
    obtain ⟨mm, live', rfl, hinv, hk⟩ := onPd_inv h hf (fun hv => by
      obtain ⟨v', -, hsd, hk, -, -⟩ := h.sound.makeWritable hv hr.1 hr.2
      exact ⟨_, hsd, hk⟩) hs
    exact ⟨lost, live', stepped_memory hf rfl hinv hk.total⟩
  | detach i =>
    simp only [step] at hs
    obtain ⟨mm, live', rfl, hinv, hk⟩ := onPd_inv h hf (fun hv => by
      obtain ⟨v', -, hsd, hk⟩ := h.sound.detach hv
      exact ⟨_, hsd, hk⟩) hs
    exact ⟨lost, live', stepped_memory hf rfl hinv hk.total⟩
  | resume i =>
    simp only [step] at hs
    split at hs
    · next h0 =>
      rw [← some.inj hs]
      exact ⟨lost, live, inv_switch h (by decide) h.book.shell.1 false (by simp), hf, rfl, .inl ⟨rfl, rfl⟩⟩
    next h0 =>
    obtain ⟨hu, hs⟩ := ite_none_right_eq_some.mp hs
    obtain ⟨-, hi, hused⟩ := isUserProc_iff.mp hu
    rw [← some.inj hs]
    exact ⟨lost, live, inv_switch h hi hused true fun _ => rfl, hf, rfl, .inl ⟨rfl, rfl⟩⟩
  | reap i =>
    obtain ⟨hu, hs⟩ := ite_none_right_eq_some.mp hs
    obtain ⟨h0, hi, hused⟩ := isUserProc_iff.mp hu.1
    obtain ⟨live', hinv, hr⟩ := procReap_spec h h0 hi hu.2 hused
    obtain ⟨fr, hmm, htot⟩ := hr.mm
    rw [← some.inj hs]
    exact ⟨lost, live', hinv,
      full_update hf (by simp [emptySlot]) hr.procs, by rw [hmm]; exact htot, .inl ⟨rfl, rfl⟩⟩

end

def Orderly (vm : Vm) (a : Act) : Prop :=
  wakesStraight vm a ∧ ∀ vm', step vm a = some vm' → vm'.mm.cloneFailed = false

/-- No crooked wake-up write and no failed allocation. -/
def Ample (vm : Vm) (a : Act) : Prop :=
  wakesStraight vm a ∧ ∀ vm', step vm a = some vm' → vm'.mm.oom = false

def Tame (vm : Vm) (a : Act) : Prop :=
  wakesStraight vm a ∧ ∀ vm', step vm a = some vm' → vm'.mm.cloneFailed = false ∨ vm'.mm.oom = false

theorem Orderly.tame (h : Orderly vm a) : Tame vm a := ⟨h.1, fun vm' hs => .inl (h.2 vm' hs)⟩

theorem Ample.tame (h : Ample vm a) : Tame vm a := ⟨h.1, fun vm' hs => .inr (h.2 vm' hs)⟩

theorem run_inv [WindowReserved reserved] (h : Inv reserved kpd base vm lost live) (hf : Full vm)
    {acts : List Act} (hm : Meets step Tame vm acts) (hr : run step vm acts = some vm') :
    ∃ lost' live', Inv reserved kpd base vm' lost' live' ∧ Full vm' ∧
      vm'.mm.fr.totalPages = vm.mm.fr.totalPages ∧ (∃ new, lost' = new ++ lost ∧
        new.length = stepCount step isStart vm acts) := by
  induction acts generalizing vm lost live with
  | nil =>
    rw [← some.inj hr]
    exact ⟨lost, live, h, hf, rfl, [], rfl, rfl⟩
  | cons a acts ih =>
    obtain ⟨vm₁, hs, hr₁⟩ := run_cons_inv hr
    obtain ⟨lost₁, live₁, hst⟩ := step_inv h hf hm.1.1 hs (hm.1.2 vm₁ hs)
    obtain ⟨lost', live', hinv, hfull, htot, new, hnew, hlen⟩ := ih hst.inv hst.full (hm.2 vm₁ hs) hr₁
    rw [stepCount_cons acts hs]
    refine ⟨lost', live', hinv, hfull, htot.trans hst.total, ?_⟩
    obtain ⟨hno, hl⟩ | ⟨hyes, f, hl⟩ := hst.lost
    · refine ⟨new, by rw [hnew, hl], ?_⟩
      rw [hno, hlen]
      simp
    · refine ⟨new ++ [f], by rw [hnew, hl, append_assoc]; rfl, ?_⟩
      rw [hyes, length_append, hlen, length_singleton, if_pos rfl, add_comm]

end MuOS.Proc.ProcRuns
