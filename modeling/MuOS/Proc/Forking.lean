import MuOS.Proc.Lifecycle

namespace MuOS.Proc.Forking

open Function Mm Grants UserPd Views TableClone
open TableOps Sharing SharingOps Space SpaceOps Invariant Cpu ProcSteps Lifecycle Bool

variable {reserved : Nat → Prop} {kpd : Nat} {base : Nat → Nat} {vm vm' : Vm} {lost : List Nat}
  {live live' : Nat → Option View} {id i j : Nat} {v : View}

/-- After a fork the parent's pages are read-only, shared with the child. -/
def forkLive (live : Nat → Option View) (id n : Nat) (v : View) (t pd : Nat) (ts : List Nat) :
    Nat → Option View :=
  update (update live id (some (protect v dataPages))) n (some (childView v pd ts t))

theorem shows_forked {s s' : Machine} {rest : Nat → Nat} {n t pd : Nat} {ts : List Nat}
    (h : Forked s s' reserved kpd rest live n id v t pd ts) (hv : live id = some v)
    {img : Nat → Nat → BitVec 8} (hs : Shows s.mem live img) :
    Shows s'.mem (forkLive live id n v t pd ts) (update img n (img id)) := by
  intro k w l o hw hl ho
  by_cases hk : k = n
  · subst hk
    rw [forkLive, update_self] at hw
    rw [update_self, ← Option.some.inj hw, h.bytes l o hl ho]
    exact hs id v l o hv hl ho
  · rw [forkLive, update_of_ne hk] at hw
    rw [update_of_ne hk]
    exact hs.kept h.kept k w l o hw hl ho

theorem forkInto_spec (h : Inv reserved kpd base vm lost live) (hn : Newborn vm i)
    (hid : (vm.procs j).space = some id) (hv : live id = some v)
    (hpd : (vm.procs j).pdPhys = v.pd * 4096) (km fd : Bool) :
      (∃ mm live', Kept vm.mm mm live live ∧ Inv reserved kpd base (forkInto vm i j km fd) lost live' ∧
      Reaped (setMm vm mm) (forkInto vm i j km fd) i live live' ∧
      (km = false ∨ ((forkInto vm i j km fd).mm.oom = true ∧ ∀ f, f < vm.mm.fr.totalPages →
        0 < inUse base lost live vm f ∨ reserved f))) ∨
    (∃ t pd ts s' live', km = true ∧
      Forked vm.mm s' reserved kpd (owned base lost vm.procs) live vm.nextSpace id v t pd ts ∧
      Inv reserved kpd base (forkInto vm i j km fd) lost live' ∧
      ((fd = true ∧ live' = forkLive live id vm.nextSpace v t pd ts ∧ forkInto vm i j km fd =
          Space.attach (setMm vm s') i ⟨(vm.procs j).mem, (vm.procs j).memPages, pd * 4096, t * 4096, 1⟩) ∨
        (fd = false ∧ Reaped (Space.attach (setMm vm s') i
            ⟨(vm.procs j).mem, (vm.procs j).memPages, pd * 4096, t * 4096, 1⟩)
          (forkInto vm i j km fd) i (forkLive live id vm.nextSpace v t pd ts) live'))) ∨
    ∃ t fs fr m, km = true ∧ forkInto vm i j km fd = procReap (setMm vm (failedClone vm.mm fr m)) i ∧
      FailedFork vm.mm (inUse base lost live vm) reserved v t fs fr m := by
  have hsome : (vm.procs j).space.isNone = false := by rw [hid]; rfl
  have hfail : ∀ mm, Inv reserved kpd base (setMm vm mm) lost live →
      ∃ live', Inv reserved kpd base (procReap (setMm vm mm) i) lost live' ∧
        Reaped (setMm vm mm) (procReap (setMm vm mm) i) i live live' :=
    fun mm hinv => procReap_spec hinv hn.ne_zero hn.lt hn.ne_current hn.used
  cases km with
  | false =>
    have he : forkInto vm i j false fd = procReap (setMm vm vm.mm) i := by
      simp only [forkInto, procSpaceCow, hsome, Bool.false_eq_true, if_false, if_true, Bool.false_and]
      rfl
    obtain ⟨live', hinv, hr⟩ := hfail vm.mm h
    rw [he]
    exact .inl ⟨vm.mm, live', Kept.refl _ _, hinv, hr, .inl rfl⟩
  | true =>
    have hcard : ∀ f, dataUse live vm.nextSpace f ≤ 254 := fun f =>
      (h.dataUse_le f).trans (by decide)
    obtain ⟨t, pd, ts, s', he, hf⟩ | ⟨he, hall⟩ | ⟨t, fs, fr, m, he, hf, -⟩ :=
      cowSpace_spec h.sound hv hpd hcard
    · obtain ⟨sp, hsp⟩ : ∃ sp :
        ProcSpace, sp = ⟨(vm.procs j).mem, (vm.procs j).memPages, pd * 4096, t * 4096, 1⟩ := ⟨_, rfl⟩
      have hinv := h.attach hn.ne_zero hn.lt hn.ne_current hn.bare hn.used sp
        (by rw [hsp]; rfl) (by rw [hsp]; rfl) (by rw [hsp]) h.strays hf.kept hf.sound
      have hcow : procSpaceCow vm i j true = (true, Space.attach (setMm vm s') i sp) := by
        simp only [procSpaceCow, hsome, Bool.false_eq_true, Bool.true_eq_false, if_false, adopt, he, ← hsp]
      refine .inr (.inl ?_)
      cases fd with
      | true =>
        have he' : forkInto vm i j true true = Space.attach (setMm vm s') i sp := by
          simp only [forkInto, hcow, Bool.and_self, if_true]
        rw [he']
        exact ⟨t, pd, ts, s', _, rfl, hf, hinv, .inl ⟨rfl, rfl, by rw [hsp]⟩⟩
      | false =>
        have he' : forkInto vm i j true false = procReap (Space.attach (setMm vm s') i sp) i := by
          simp only [forkInto, hcow, Bool.and_false, Bool.false_eq_true, if_false]
        have hu : ((Space.attach (setMm vm s') i sp).procs i).used = true := by
          simp only [Space.attach, update_self]
          exact hn.used
        obtain ⟨live', hinv', hr⟩ := procReap_spec hinv hn.ne_zero hn.lt hn.ne_current hu
        rw [he']
        exact ⟨t, pd, ts, s', live', rfl, hf, hinv', .inr ⟨rfl, hsp ▸ hr⟩⟩
    · have he' : forkInto vm i j true fd = procReap (setMm vm (setOom vm.mm)) i := by
        simp only [forkInto, procSpaceCow, hsome, false_eq_true, true_eq_false, if_false, adopt, he,
          Bool.false_and]
      obtain ⟨live', hinv, hr⟩ :=
        hfail (setOom vm.mm) (h.kept h.sound.setOom_sound (Sound.setOom_kept _ _))
      rw [he']
      refine .inl ⟨setOom vm.mm, live', Sound.setOom_kept _ _, hinv, hr, .inr ⟨?_, hall⟩⟩
      obtain ⟨fr, hmm, -⟩ := hr.mm
      rw [hmm]
      rfl
    · refine .inr (.inr ⟨t, fs, fr, m, rfl, ?_, hf⟩)
      simp only [forkInto, procSpaceCow, hsome, false_eq_true, true_eq_false, if_false, adopt, he,
        Bool.false_and]

/-- The frames were free, and the child sees what its parent saw. -/
structure Branched (reserved : Nat → Prop) (held : Nat → Nat) (vm vm' : Vm)
    (live live' : Nat → Option View) (id : Nat) (v : View) (fd : Bool) (i ks t pd : Nat)
    (ts : List Nat) : Prop where
  slot : freeSlot vm = some i
  stack : FreshRun held reserved ks 2
  takes : Takes reserved (addAll held (List.range' ks 2)) (t :: pd :: ts)
  len : ts.length = 3
  nextSpace : vm'.nextSpace = vm.nextSpace + 1
  current : vm'.current = vm.current
  active : vm'.active = vm.active
  cloneFailed : vm'.mm.cloneFailed = vm.mm.cloneFailed
  total : vm'.mm.fr.totalPages = vm.mm.fr.totalPages
  oom : vm'.mm.oom = vm.mm.oom
  shows : ∀ img, Shows vm.mm.mem live img →
    Shows vm'.mm.mem live' (update img vm.nextSpace (img id))
  views : fd = true → live' = forkLive live id vm.nextSpace v t pd ts
  child : fd = true → vm'.procs = update vm.procs i ⟨true, some vm.nextSpace,
    (vm.procs vm.current).mem, (vm.procs vm.current).memPages, pd * 4096, ks * 4096⟩
  dropped : fd = false → SameTable vm vm'

/-- Why there was no fork, the clone of the directory apart. -/
def Declined (vm vm' : Vm) (km : Bool) (held : Nat → Nat) (reserved : Nat → Prop) : Prop :=
  freeSlot vm = none ∨ km = false ∨
    (vm'.mm.oom = true ∧ (NoStack vm.mm.fr.totalPages held reserved ∨
    ∃ ks, FreshRun held reserved ks 2 ∧
      ∀ f, f < vm.mm.fr.totalPages → 0 < addAll held (List.range' ks 2) f ∨ reserved f))

theorem doFork_spec (h : Inv reserved kpd base vm lost live) (hf : Full vm)
    (hid : (vm.procs vm.current).space = some id) (hv : live id = some v) (km fd : Bool) :
    Spared reserved kpd base vm (doFork vm km fd) lost live
      (Declined vm (doFork vm km fd) km (inUse base lost live vm) reserved) ∨
    (∃ i ks t pd ts live', km = true ∧ Inv reserved kpd base (doFork vm km fd) lost live' ∧
      Full (doFork vm km fd) ∧ Branched reserved (inUse base lost live vm) vm
        (doFork vm km fd) live live' id v fd i ks t pd ts) ∨
    ∃ i ks fr₁ t fs fr m, km = true ∧ freeSlot vm = some i ∧
      FreshRun (inUse base lost live vm) reserved ks 2 ∧
      fr₁.totalPages = vm.mm.fr.totalPages ∧
      doFork vm km fd = procReap (setMm (bornIn vm fr₁ i ks) (failedClone (setFr vm.mm fr₁) fr m)) i ∧
      FailedFork (setFr vm.mm fr₁) (addAll (inUse base lost live vm) (List.range' ks 2)) reserved v
      t fs fr m := by
  obtain ⟨hnone, hpa⟩ | ⟨i, hfree, hpa, hinv, hno⟩ | ⟨i, ks, fr, hfree, hpa, hrun, htot,
    hk, hinv⟩ :=
    procAlloc_spec h
  · exact .inl (.same h (by simp only [doFork, hpa]) (.inl hnone))
  · have he : doFork vm km fd = spoiled vm i := by
      simp only [doFork, hpa]
    rw [he]
    exact .inl (.spoiled h hfree hinv (.inr (.inr ⟨rfl, .inl hno⟩)))
  · have he : doFork vm km fd = forkInto (bornIn vm fr i ks) i vm.current km fd := by
      simp only [doFork, hpa]
    obtain ⟨-, hcur⟩ := freeSlot_ne h hfree
    have hslot : (bornIn vm fr i ks).procs vm.current = vm.procs vm.current :=
      update_of_ne hcur.symm ..
    obtain ⟨w, hw, hpd, -⟩ := h.loaded_view hid
    cases hw.symm.trans hv
    have hheld := held_born h hfree hrun.pos
    rw [he]
    obtain ⟨mm, live', hk', hinv', hr, hwhy⟩ | ⟨t, pd, ts, s', live', hkm, hfk, hinv', hout⟩ |
        ⟨t, fs, fr', m, hkm, he', hfail⟩ :=
      forkInto_spec hinv (newborn h hfree fr ks) (by rw [hslot]; exact hid) hv
        (by rw [hslot]; exact hpd) km fd
    · refine .inl ⟨live', hinv', ?_, hr.nextSpace,
        fun img hi => shows_reaped hr ((hi.kept hk).kept hk'), ?_⟩
      · exact SameTable.of_reaped h hr hfree rfl rfl rfl (hk'.cloneFailed.trans hk.cloneFailed)
          (hk'.total.trans htot)
      obtain hkm | ⟨ho, hall⟩ := hwhy
      · exact .inr (.inl hkm)
      refine .inr (.inr ⟨ho, .inr ⟨ks, hrun, ?_⟩⟩)
      rw [← hheld, ← htot]
      exact hall
    · have htk := hfk.takes
      rw [show (bornIn vm fr i ks).nextSpace = vm.nextSpace from rfl,
        show (bornIn vm fr i ks).procs = update vm.procs i (bornSlot ks) from rfl, hheld] at htk
      have hcf := hfk.kept.cloneFailed.trans hk.cloneFailed
      have htot' := hfk.kept.total.trans htot
      have hsh := fun img (hi : Shows vm.mm.mem live img) => shows_forked hfk hv (hi.kept hk)
      refine .inr (.inl ⟨i, ks, t, pd, ts, live', hkm, hinv', ?_⟩)
      obtain ⟨rfl, rfl, he'⟩ | ⟨rfl, hr⟩ := hout
      · have hprocs : (forkInto (bornIn vm fr i ks) i vm.current km true).procs =
            update vm.procs i ⟨true, some vm.nextSpace, (vm.procs vm.current).mem,
              (vm.procs vm.current).memPages, pd * 4096, ks * 4096⟩ := by
          rw [he', hslot]
          exact attach_procs vm fr ks _
        refine ⟨full_update hf (fun _ => ⟨_, rfl⟩) hprocs, hfree, hrun, htk, hfk.len, ?_, ?_, ?_,
          ?_, ?_, ?_, ?_, fun _ => rfl,
          fun _ => hprocs, fun hfd => by cases hfd⟩
        · rw [he']
          rfl
        · rw [he']
          rfl
        · rw [he']
          rfl
        · rw [he']
          exact hcf
        · rw [he']
          exact htot'
        · rw [he']
          exact hfk.oom
        · intro img hi
          rw [he']
          exact hsh img hi
      · have hsame := SameTable.of_reaped h hr hfree (attach_procs vm fr ks _) rfl rfl hcf htot'
        obtain ⟨fr', hmm, -⟩ := hr.mm
        refine ⟨hsame.full hf, hfree, hrun, htk, hfk.len, hr.nextSpace, hsame.current, hsame.active,
          hsame.cloneFailed, hsame.total, ?_, ?_, fun hfd => absurd hfd (by simp), fun hfd =>
          absurd hfd (by simp), fun _ => hsame⟩
        · rw [hmm]
          exact hfk.oom
        · exact fun img hi => shows_reaped hr (hsh img hi)
    · refine .inr (.inr ⟨i, ks, fr, t, fs, fr', m, hkm, hfree, hrun, htot, he', ?_⟩)
      rw [← hheld]
      exact hfail

/-- A thread: a new process in the running one's space. -/
structure Joined (reserved : Nat → Prop) (held : Nat → Nat) (vm vm' : Vm) (live : Nat → Option View)
    (id i ks : Nat) : Prop where
  slot : freeSlot vm = some i
  stack : FreshRun held reserved ks 2
  nextSpace : vm'.nextSpace = vm.nextSpace
  current : vm'.current = vm.current
  active : vm'.active = vm.active
  cloneFailed : vm'.mm.cloneFailed = vm.mm.cloneFailed
  total : vm'.mm.fr.totalPages = vm.mm.fr.totalPages
  oom : vm'.mm.oom = vm.mm.oom
  shows : ∀ img, Shows vm.mm.mem live img → Shows vm'.mm.mem live img
  child : ∃ q, vm'.procs = update vm.procs i q ∧ q.used = true ∧ q.space = some id ∧
    q.kstack = ks * 4096

theorem doThread_spec (h : Inv reserved kpd base vm lost live) (hf : Full vm)
    (hid : (vm.procs vm.current).space = some id) (fd : Bool) :
    Spared reserved kpd base vm (doThread vm fd) lost live
      (freeSlot vm = none ∨ fd = false ∨ ((doThread vm fd).mm.oom = true ∧
      NoStack vm.mm.fr.totalPages (inUse base lost live vm) reserved)) ∨
    ∃ i ks, fd = true ∧ Inv reserved kpd base (doThread vm fd) lost live ∧ Full (doThread vm fd) ∧
      Joined reserved (inUse base lost live vm) vm (doThread vm fd) live id i ks := by
  obtain ⟨hnone, hpa⟩ | ⟨i, hfree, hpa, hinv, hno⟩ | ⟨i, ks, fr, hfree, hpa, hrun, htot,
    hk, hinv⟩ :=
    procAlloc_spec h
  · exact .inl (.same h (by simp only [doThread, hpa]) (.inl hnone))
  · have he : doThread vm fd = spoiled vm i := by
      simp only [doThread, hpa]
    rw [he]
    exact .inl (.spoiled h hfree hinv (.inr (.inr ⟨rfl, hno⟩)))
  · have hn := newborn h hfree fr ks
    have hslot : (bornIn vm fr i ks).procs vm.current = vm.procs vm.current :=
      update_of_ne (freeSlot_ne h hfree).2.symm ..
    have hks : ((bornIn vm fr i ks).procs i).kstack = ks * 4096 := by
      simp only [setSlot, update_self, bornSlot]
    obtain ⟨q, spaces, hsh, hqu, hqs, hqk, hinv'⟩ :=
      hinv.share hn.ne_zero hn.lt hn.ne_current hn.bare hn.used
      hinv.running.current_lt (by rw [← hid, ← hslot]; rfl)
    have he : doThread vm fd = threadInto (bornIn vm fr i ks) i vm.current fd := by
      simp only [doThread, hpa]
    have hsh' : procSpaceShare (bornIn vm fr i ks) i vm.current = _ := hsh
    have hprocs : update (bornIn vm fr i ks).procs i q = update vm.procs i q := update_idem ..
    rw [he]
    cases fd with
    | true =>
      simp only [threadInto, hsh', Bool.and_self, if_true]
      refine .inr ⟨i, ks, trivial, hinv', ?_, hfree, hrun, rfl, rfl, rfl, hk.cloneFailed, htot, rfl,
        fun img hi => hi.kept hk, q, hprocs, hqu, hqs, hqk.trans hks⟩
      exact full_update hf (fun _ => ⟨id, hqs⟩) hprocs
    | false =>
      simp only [threadInto, hsh', Bool.and_false, Bool.false_eq_true, if_false]
      obtain ⟨live', hinv'', hr⟩ :=
        procReap_spec hinv' hn.ne_zero hn.lt hn.ne_current (by simp only [update_self]; exact hqu)
      refine .inl ⟨live', hinv'', ?_, hr.nextSpace, fun img hi => shows_reaped hr (hi.kept hk),
        .inr (.inl trivial)⟩
      exact SameTable.of_reaped h hr hfree hprocs rfl rfl hk.cloneFailed htot

end MuOS.Proc.Forking
