import MuOS.Proc.ProcSteps

namespace MuOS.Proc.Lifecycle

open Function Lib Memory Paging Patches Mm Frames Grants UserPd Views
open TableBuild Sharing SharingOps Space SpaceOps Invariant Cpu ProcSteps User.Window List Bool Nat

variable {reserved : Nat → Prop} {kpd : Nat} {base : Nat → Nat} {vm vm' : Vm} {lost : List Nat}
  {live live' : Nat → Option View} {id i : Nat} {v : View}
  {p : Slot} {img : Nat → Nat → BitVec 8} {live₁ : Nat → Option View} {why : Prop}
  {vm₁ : Vm} {ks : Nat}

section

variable {m : Mem}

theorem zero_pages (is : List Nat) (his : ∀ i ∈ is, i < dataPages) (hm : Mapped m kpd v)
    (hnt : ∀ i, i < dataPages → v.page i ∉ kpd :: v.tables) : AgreeOff v.pages m (is.foldl
        (fun m i => patch m (mmUserTranslate m (v.pd * 4096) (pageVa i)) 4096 (fun _ => 0#8)) m) ∧
      (∀ a, m a = 0#8 → is.foldl
        (fun m i => patch m (mmUserTranslate m (v.pd * 4096) (pageVa i)) 4096 (fun _ => 0#8)) m a = 0#8) ∧
      ∀ i ∈ is, ∀ o, o < 4096 → is.foldl
        (fun m i => patch m (mmUserTranslate m (v.pd * 4096) (pageVa i)) 4096 (fun _ => 0#8)) m
          (v.page i * 4096 + o) = 0#8 := by
  induction is generalizing m with
  | nil => exact ⟨AgreeOff.refl _ _, fun _ ha => ha, fun i hi => absurd hi not_mem_nil⟩
  | cons i is ih =>
    have hi := his i mem_cons_self
    have htr := hm.translate_page hi (show 0 < 4096 by omega)
    rw [add_zero, add_zero] at htr
    have hp := agree_patch m (fun _ => 0#8) (p := v.page i * 4096) (n := 4096) (by omega)
    rw [Nat.mul_div_cancel _ (by omega)] at hp
    have hm' : Mapped (patch m (v.page i * 4096) 4096 fun _ => 0#8) kpd v :=
      hm.agree hp fun f hf hs => hnt i hi (mem_singleton.mp hs ▸ hf)
    obtain ⟨ha, hz, hall⟩ := ih (fun j hj => his j (mem_cons_of_mem _ hj)) hm'
    simp only [foldl_cons, htr]
    refine ⟨?_, ?_, ?_⟩
    · exact AgreeOff.trans (hp.mono fun f hf => mem_singleton.mp hf ▸ page_mem hi) ha
    · intro a h0
      apply hz
      by_cases hin : v.page i * 4096 ≤ a ∧ a < v.page i * 4096 + 4096
      · exact patch_inside hin
      rw [patch_outside (by omega)]
      exact h0
    · intro j hj o ho
      cases mem_cons.mp hj with
      | inl he =>
        subst he
        exact hz _ (patch_inside (by omega))
      | inr hm => exact hall j hm o ho

theorem zeroWindow_spec (hm : Mapped m kpd v)
    (hnt : ∀ i, i < dataPages → v.page i ∉ kpd :: v.tables) :
    AgreeOff v.pages m (zeroWindow m (v.pd * 4096)) ∧
      ∀ i o, i < dataPages → o < 4096 → zeroWindow m (v.pd * 4096) (v.page i * 4096 + o) = 0#8 := by
  obtain ⟨ha, -, hz⟩ := zero_pages (range dataPages) (fun i hi => mem_range.mp hi) hm hnt
  exact ⟨ha, fun i o hi ho => hz i (mem_range.mpr hi) o ho⟩

end

structure SameTable (vm vm' : Vm) : Prop where
  used : ∀ j, j < procMax → (vm'.procs j).used = (vm.procs j).used
  space : ∀ j, j < procMax → (vm'.procs j).space = (vm.procs j).space
  current : vm'.current = vm.current
  active : vm'.active = vm.active
  cloneFailed : vm'.mm.cloneFailed = vm.mm.cloneFailed
  total : vm'.mm.fr.totalPages = vm.mm.fr.totalPages

theorem SameTable.refl (vm : Vm) : SameTable vm vm :=
  ⟨fun _ _ => rfl, fun _ _ => rfl, rfl, rfl, rfl, rfl⟩

theorem SameTable.full (h : SameTable vm vm') (hf : Full vm) : Full vm' := by
  intro i h0 hi hu
  rw [h.space i hi]
  exact hf i h0 hi ((h.used i hi).symm.trans hu)

theorem SameTable.of_slot (h : Inv reserved kpd base vm lost live) (hfree : freeSlot vm = some i)
    (hp : p.used = false ∧ p.space = none) (hprocs : vm'.procs = update vm.procs i p)
    (hcur : vm'.current = vm.current) (hact : vm'.active = vm.active)
    (hc : vm'.mm.cloneFailed = vm.mm.cloneFailed)
    (htot : vm'.mm.fr.totalPages = vm.mm.fr.totalPages) : SameTable vm vm' := by
  obtain ⟨hi, hu⟩ := freeSlot_spec hfree
  obtain ⟨hbare, -⟩ := h.book.unused i hi hu
  refine ⟨?_, ?_, hcur, hact, hc, htot⟩
  · intro j hj
    rw [hprocs]
    by_cases hji : j = i
    · subst hji
      rw [update_self, hp.1, hu]
    · rw [update_of_ne hji]
  · intro j hj
    rw [hprocs]
    by_cases hji : j = i
    · subst hji
      rw [update_self, hp.2, hbare]
    · rw [update_of_ne hji]

theorem SameTable.of_reaped (h : Inv reserved kpd base vm lost live)
    (hr : Reaped vm₁ vm' i live₁ live') (hfree : freeSlot vm = some i)
    (hprocs : vm₁.procs = update vm.procs i p) (hcur : vm₁.current = vm.current)
    (hact : vm₁.active = vm.active) (hc : vm₁.mm.cloneFailed = vm.mm.cloneFailed)
    (htot : vm₁.mm.fr.totalPages = vm.mm.fr.totalPages) : SameTable vm vm' := by
  obtain ⟨fr, hmm, hfr⟩ := hr.mm
  refine SameTable.of_slot h hfree (p := emptySlot) ⟨rfl, rfl⟩ ?_ (hr.current.trans hcur)
    (hr.active.trans hact) ?_ ?_
  · rw [hr.procs, hprocs, update_idem]
  · rw [hmm]
    exact hc
  · rw [hmm]
    exact hfr.trans htot

theorem shows_reaped (hr : Reaped vm₁ vm' i live₁ live') (hs : Shows vm₁.mm.mem live₁ img) :
    Shows vm'.mm.mem live' img := by
  obtain ⟨fr, hmm, -⟩ := hr.mm
  rw [hmm]
  exact fun k v i o hk => hs k v i o (hr.sub k v hk)

/-- A call that comes to nothing, for the reason `why`. -/
def Spared (reserved : Nat → Prop) (kpd : Nat) (base : Nat → Nat) (vm vm' : Vm) (lost : List Nat)
    (live : Nat → Option View) (why : Prop) : Prop :=
  ∃ live', Inv reserved kpd base vm' lost live' ∧ SameTable vm vm' ∧ vm'.nextSpace = vm.nextSpace ∧
    (∀ img, Shows vm.mm.mem live img → Shows vm'.mm.mem live' img) ∧ why

theorem Spared.same (h : Inv reserved kpd base vm lost live) (he : vm' = vm) (hw : why) :
    Spared reserved kpd base vm vm' lost live why := by
  subst he
  exact ⟨live, h, SameTable.refl _, rfl, fun _ hs => hs, hw⟩

theorem Spared.spoiled (h : Inv reserved kpd base vm lost live) (hfree : freeSlot vm = some i)
    (hinv : Inv reserved kpd base (spoiled vm i) lost live) (hw : why) :
    Spared reserved kpd base vm (spoiled vm i) lost live why :=
  ⟨live, hinv, SameTable.of_slot h hfree (p := { emptySlot with memPages := blockPages })
    ⟨rfl, rfl⟩ rfl rfl rfl rfl rfl, rfl, fun _ hs => hs, hw⟩

def Refused (vm vm' : Vm) (km : Bool) (held : Nat → Nat) (reserved : Nat → Prop) : Prop :=
  vm.active = true ∨ vm.mm.fr.totalPages * 4096 < userEnd ∨ freeSlot vm = none ∨ km = false ∨
    (vm'.mm.oom = true ∧ (NoStack vm.mm.fr.totalPages held reserved ∨
      ∃ ks, FreshRun held reserved ks 2 ∧
      NoSpace vm.mm.fr.totalPages (addAll held (List.range' ks 2)) reserved))

/-- The frames were free, and the program runs in a cleared window. -/
structure Started (reserved : Nat → Prop) (held : Nat → Nat) (vm vm' : Vm)
    (live : Nat → Option View) (i ks b t pd : Nat) (ts : List Nat) : Prop where
  inactive : vm.active = false
  ample : ¬ vm.mm.fr.totalPages * 4096 < userEnd
  slot : freeSlot vm = some i
  stack : FreshRun held reserved ks 2
  run : FreshRun (addAll held (List.range' ks 2)) reserved b 2048
  takes : Takes reserved (addAll (addAll held (List.range' ks 2)) (blockFrames b)) (t :: pd :: ts)
  len : ts.length = 3
  procs : vm'.procs = update vm.procs i
    ⟨true, some vm.nextSpace, b * 4096, blockPages, pd * 4096, ks * 4096⟩
  nextSpace : vm'.nextSpace = vm.nextSpace + 1
  current : vm'.current = i
  active : vm'.active = true
  cloneFailed : vm'.mm.cloneFailed = vm.mm.cloneFailed
  total : vm'.mm.fr.totalPages = vm.mm.fr.totalPages
  oom : vm'.mm.oom = vm.mm.oom
  shows : ∀ img, Shows vm.mm.mem live img → Shows vm'.mm.mem
    (update live vm.nextSpace (some (createdView pd ts t b)))
    (update img vm.nextSpace (fun _ => 0#8))

section

variable (h : Inv reserved kpd base vm lost live)
include h

theorem inv_switch (hi : i < procMax) (hu : (vm.procs i).used = true) (act : Bool)
    (hact : i ≠ 0 → act = true) :
    Inv reserved kpd base { procSwitchSpace vm i with current := i, active := act } lost live := by
  have hcr : (mmSwitchPd vm.mm (vm.procs i).pdPhys).cr3 =
      if (vm.procs i).pdPhys = 0 then kpd * 4096 else (vm.procs i).pdPhys := by
    rw [mmSwitchPd, h.sound.dir]
  refine ⟨⟨h.sound.dir, ?_, h.sound.shared, h.sound.ledger⟩, h.kdir, h.strays, h.kstacks, h.book,
    hi, hu, hact, hcr, fun p e he => absurd he (by simp [procSwitchSpace, setMm, mmSwitchPd])⟩
  refine (congrArg (· % 4096) hcr).trans ?_
  cases hs : (vm.procs i).space with
  | none =>
    rw [if_pos (h.book.bare i hi hs)]
    exact mul_mod_left kpd 4096
  | some id =>
    obtain ⟨v, hv, hpd⟩ := h.book.attached i id hi hs
    rw [hpd, if_neg (frame_ne_zero (h.sound.shared.mapped id v hv).pd_pos)]
    exact mul_mod_left v.pd 4096

omit h in
theorem held_slot (hi : i < procMax) (h0 : (vm.procs i).kstack = 0) (hks : 0 < ks)
    (hp : p.kstack = ks * 4096) : heldBy (owned base lost (update vm.procs i p)) live vm.nextSpace =
      addAll (inUse base lost live vm) (List.range' ks 2) := by
  rw [owned_take hi h0, stackFrames_run hks hp, Sound.heldBy_addAll]

theorem page_plain (hv : live id = some v) : ∀ j, j < dataPages → v.page j ∉ kpd :: v.tables := by
  intro j hj hm
  obtain ⟨h1, h2⟩ := page_not_table h hv hj
  cases mem_cons.mp hm with
  | inl he => exact h1 he
  | inr ht => exact h2 id v hv ht

theorem inv_enter (hi : i < procMax)
    (hu : (vm.procs i).used = true) (hv : live id = some v)
    (hpd : (vm.procs i).pdPhys = v.pd * 4096) :
    Inv reserved kpd base (enter (setMm (procSwitchSpace vm i) (setMem (procSwitchSpace vm i).mm
      (zeroWindow vm.mm.mem (vm.procs i).pdPhys))) i) lost live := by
  have hsw := inv_switch h hi hu true fun _ => rfl
  obtain ⟨ha, -⟩ := zeroWindow_spec (h.sound.shared.mapped id v hv) (page_plain h hv)
  rw [hpd]
  refine inv_write hsw ha ?_ ?_
  · intro hm
    obtain ⟨j, hj, he⟩ := mem_pages.mp hm
    exact (page_not_table h hv hj).1 he
  · intro f hf k w hw
    obtain ⟨j, hj, rfl⟩ := mem_pages.mp hf
    exact (page_not_table h hv hj).2 k w hw

end

theorem shows_zeroed (h : Inv reserved kpd base vm lost (update live id (some v)))
    (hrw : ∀ j, j < dataPages → v.rw j = true) (hs : Shows vm.mm.mem live img) :
    Shows (zeroWindow vm.mm.mem (v.pd * 4096)) (update live id (some v))
    (update img id (fun _ => 0#8)) := by
  have hv : update live id (some v) id = some v := update_self ..
  obtain ⟨ha, hz⟩ := zeroWindow_spec (h.sound.shared.mapped id v hv) (page_plain h hv)
  intro k w j o hw hj ho
  by_cases hk : k = id
  · subst hk
    cases hv.symm.trans hw
    rw [update_self]
    exact hz j o hj ho
  have hne : (w.page j * 4096 + o) / 4096 ∉ v.pages := by
    rw [show (w.page j * 4096 + o) / 4096 = w.page j by omega]
    intro hm
    obtain ⟨l, hl, he⟩ := mem_pages.mp hm
    have h1 := h.sound.shared.excl id v l hv hl (hrw l hl)
    exact hk (h.sound.shared.unique hw hv (he ▸ page_mem hj) (page_mem hl) h1)
  rw [ha _ hne, update_of_ne hk]
  rw [update_of_ne hk] at hw
  exact hs k w j o hw hj ho

structure Newborn (vm : Vm) (i : Nat) : Prop where
  ne_zero : i ≠ 0
  lt : i < procMax
  ne_current : i ≠ vm.current
  used : (vm.procs i).used = true
  bare : (vm.procs i).space = none

section

variable (h : Inv reserved kpd base vm lost live)
include h

theorem startProgram_spec (hn : Newborn vm i) (km : Bool) :
    (∃ mm live', Kept vm.mm mm live live ∧ Inv reserved kpd base (startProgram vm i km) lost live' ∧
      Reaped (setMm vm mm) (startProgram vm i km) i live live' ∧
      (km = false ∨ ((startProgram vm i km).mm.oom = true ∧
        NoSpace vm.mm.fr.totalPages (inUse base lost live vm) reserved))) ∨
    ∃ b t pd ts mm, km = true ∧ startProgram vm i km = enter (setMm (Space.attach vm i
        ⟨b * 4096, blockPages, pd * 4096, t * 4096, 1⟩) mm) i ∧
      Inv reserved kpd base (startProgram vm i km) ((b + 2047) :: lost)
        (update live vm.nextSpace (some (createdView pd ts t b))) ∧
      FreshRun (inUse base lost live vm) reserved b 2048 ∧
      Takes reserved (addAll (inUse base lost live vm) (blockFrames b)) (t :: pd :: ts) ∧
      ts.length = 3 ∧ mm.cloneFailed = vm.mm.cloneFailed ∧ mm.fr.totalPages = vm.mm.fr.totalPages ∧
      mm.oom = vm.mm.oom ∧ ∀ img, Shows vm.mm.mem live img →
        Shows mm.mem (update live vm.nextSpace (some (createdView pd ts t b)))
          (update img vm.nextSpace (fun _ => 0#8)) := by
  have hnone : (vm.procs i).space.isSome = false := by rw [hn.bare]; rfl
  have hfail : ∀ mm, Kept vm.mm mm live live → Inv reserved kpd base (setMm vm mm) lost live →
      ∃ live', Inv reserved kpd base (procReap (setMm vm mm) i) lost live' ∧
        Reaped (setMm vm mm) (procReap (setMm vm mm) i) i live live' :=
    fun mm _ hinv => procReap_spec hinv hn.ne_zero hn.lt hn.ne_current hn.used
  cases km with
  | false =>
    have he : startProgram vm i false = procReap (setMm vm vm.mm) i := by
      simp only [startProgram, procSpaceAlloc, hnone, false_eq_true, if_false, if_true]
      rfl
    obtain ⟨live', hinv, hr⟩ := hfail vm.mm (Kept.refl _ _) h
    rw [he]
    exact .inl ⟨vm.mm, live', Kept.refl _ _, hinv, hr, .inl rfl⟩
  | true =>
    obtain ⟨b, t, pd, ts, s', he, hl⟩ | ⟨s', he, hs, hk, ho, hno⟩ := newSpace_spec h.sound
    · obtain ⟨sp, hsp⟩ : ∃ sp : ProcSpace, sp = ⟨b * 4096, blockPages, pd * 4096, t * 4096, 1⟩ := ⟨_, rfl⟩
      have hlost := h.strays.cons (hl.run.unheld (b + 2047) (by omega) (by omega))
      have hs := hl.sound
      rw [← owned_lose] at hs
      have hinv := h.attach hn.ne_zero hn.lt hn.ne_current hn.bare hn.used sp
        (by rw [hsp]; rfl) (by rw [hsp]; rfl) (by rw [hsp]) hlost hl.kept hs
      have hpd : ((Space.attach (setMm vm s') i sp).procs i).pdPhys = pd * 4096 := by
        simp only [Space.attach, update_self, hsp]
      have hu : ((Space.attach (setMm vm s') i sp).procs i).used = true := by
        simp only [Space.attach, update_self]
        exact hn.used
      have hent := inv_enter hinv hn.lt hu (update_self ..) hpd
      have hzero := fun img (hi : Shows vm.mm.mem live img) =>
        shows_zeroed hinv (fun _ _ => rfl) (hi.kept hl.kept)
      have he' :
          startProgram vm i true = enter (setMm (procSwitchSpace (Space.attach (setMm vm s') i sp) i)
          (setMem (procSwitchSpace (Space.attach (setMm vm s') i sp) i).mm
            (zeroWindow (Space.attach (setMm vm s') i sp).mm.mem
              ((Space.attach (setMm vm s') i sp).procs i).pdPhys))) i := by
        simp only [startProgram, procSpaceAlloc, hnone, false_eq_true, true_eq_false, if_false,
          adopt, he, if_true, ← hsp]
        rfl
      rw [he']
      rw [hpd] at hent ⊢
      obtain ⟨m, hm⟩ : ∃ m, zeroWindow (Space.attach (setMm vm s') i sp).mm.mem (pd * 4096) = m := ⟨_, rfl⟩
      have hzero' : ∀ img, Shows vm.mm.mem live img →
          Shows m (update live vm.nextSpace (some (createdView pd ts t b)))
          (update img vm.nextSpace fun _ => 0#8) := fun img hi => hm ▸ hzero img hi
      rw [hm] at hent ⊢
      refine .inr ⟨b, t, pd, ts, setMem (procSwitchSpace (Space.attach (setMm vm s') i sp) i).mm m,
        rfl, ?_, hent,
        hl.run, hl.takes, hl.len, hl.kept.cloneFailed, hl.kept.total, hl.oom, hzero'⟩
      rw [← hsp]
      rfl
    · have he' : startProgram vm i true = procReap (setMm vm s') i := by
        simp only [startProgram, procSpaceAlloc, hnone, false_eq_true, true_eq_false, if_false, adopt, he]
      obtain ⟨live', hinv, hr⟩ := hfail s' hk (h.kept hs hk)
      rw [he']
      refine .inl ⟨s', live', hk, hinv, hr, .inr ⟨?_, hno⟩⟩
      obtain ⟨fr, hmm, -⟩ := hr.mm
      rw [hmm]
      exact ho

theorem newborn (hfree : freeSlot vm = some i) (fr : Allocator) (ks : Nat) :
    Newborn (bornIn vm fr i ks) i := by
  obtain ⟨hi, -⟩ := freeSlot_spec hfree
  obtain ⟨h0, hcur⟩ := freeSlot_ne h hfree
  refine ⟨h0, hi, hcur, ?_, ?_⟩
  · simp only [setSlot, update_self, bornSlot]
  · simp only [setSlot, update_self, bornSlot]

theorem held_born (hfree : freeSlot vm = some i) (hks : 0 < ks) :
    heldBy (owned base lost (update vm.procs i (bornSlot ks))) live vm.nextSpace =
      addAll (inUse base lost live vm) (List.range' ks 2) := by
  obtain ⟨hi, hu⟩ := freeSlot_spec hfree
  exact held_slot hi (h.book.unused i hi hu).2 hks rfl

end

theorem attach_procs (vm : Vm) (fr : Allocator) (ks : Nat) (sp : ProcSpace) :
    (Space.attach (bornIn vm fr i ks) i sp).procs =
      update vm.procs i ⟨true, some vm.nextSpace, sp.mem, sp.memPages, sp.pdPhys, ks * 4096⟩ := by
  simp only [Space.attach, setSlot, setMm, update_self, update_idem, bornSlot]

theorem full_update (hf : Full vm) (hp : p.used = true → ∃ id, p.space = some id)
    (hprocs : vm'.procs = update vm.procs i p) : Full vm' := by
  intro j h0 hj hu
  rw [hprocs] at hu ⊢
  by_cases hji : j = i
  · subst hji
    rw [update_self] at hu ⊢
    exact hp hu
  · rw [update_of_ne hji] at hu ⊢
    exact hf j h0 hj hu

theorem launch_spec (h : Inv reserved kpd base vm lost live) (hf : Full vm) (km : Bool) :
    Spared reserved kpd base vm (launch vm km) lost live
    (Refused vm (launch vm km) km (inUse base lost live vm) reserved) ∨
    ∃ i ks b t pd ts, km = true ∧ Inv reserved kpd base (launch vm km) ((b + 2047) :: lost)
        (update live vm.nextSpace (some (createdView pd ts t b))) ∧ Full (launch vm km) ∧
      Started reserved (inUse base lost live vm) vm (launch vm km) live i ks b t pd ts := by
  by_cases hact : vm.active = true
  · exact .inl (.same h (by simp only [launch, hact, if_true]) (.inl hact))
  by_cases hsmall : vm.mm.fr.totalPages * 4096 < userEnd
  · exact .inl (.same h (by simp only [launch, hact, hsmall, if_true, false_eq_true, if_false])
      (.inr (.inl hsmall)))
  obtain ⟨hnone, hpa⟩ | ⟨i, hfree, hpa, hinv, hno⟩ | ⟨i, ks, fr, hfree, hpa, hrun, htot,
    hk, hinv⟩ :=
    procAlloc_spec h
  · refine .inl (.same h ?_ (.inr (.inr (.inl hnone))))
    simp only [launch, hact, hsmall, false_eq_true, if_false, hpa]
  · have he : launch vm km = spoiled vm i := by
      simp only [launch, hact, hsmall, false_eq_true, if_false, hpa]
    rw [he]
    exact .inl (.spoiled h hfree hinv (.inr (.inr (.inr (.inr ⟨rfl, .inl hno⟩)))))
  · have he : launch vm km = startProgram (bornIn vm fr i ks) i km := by
      simp only [launch, hact, hsmall, false_eq_true, if_false, hpa]
    have hheld := held_born h hfree hrun.pos
    rw [he]
    obtain ⟨mm, live', hk', hinv', hr, hwhy⟩ | ⟨b, t, pd, ts, mm, hkm, he', hinv', hb, htk, hlen,
      hcf, htot', ho, hsh⟩ :=
      startProgram_spec hinv (newborn h hfree fr ks) km
    · refine .inl ⟨live', hinv', ?_, hr.nextSpace,
        fun img hi => shows_reaped hr ((hi.kept hk).kept hk'), ?_⟩
      · exact SameTable.of_reaped h hr hfree rfl rfl rfl (hk'.cloneFailed.trans hk.cloneFailed)
          (hk'.total.trans htot)
      obtain hkm | ⟨ho, hno⟩ := hwhy
      · exact .inr (.inr (.inr (.inl hkm)))
      refine .inr (.inr (.inr (.inr ⟨ho, .inr ⟨ks, hrun, ?_⟩⟩)))
      rw [← hheld, ← htot]
      exact hno
    · have hprocs := attach_procs (i := i) vm fr ks ⟨b * 4096, blockPages, pd * 4096, t * 4096, 1⟩
      refine .inr ⟨i, ks, b, t, pd, ts, hkm, hinv', ?_, by simpa using hact, hsmall, hfree, hrun,
        ?_, ?_, hlen,
        ?_, ?_, ?_, ?_, ?_, ?_, ?_, ?_⟩
      · exact full_update hf (fun _ => ⟨_, rfl⟩) (by rw [he']; exact hprocs)
      · rw [← hheld]
        exact hb
      · rw [← hheld]
        exact htk
      · rw [he']
        exact hprocs
      · rw [he']
        rfl
      · rw [he']
        rfl
      · rw [he']
        rfl
      · rw [he']
        exact hcf
      · rw [he']
        exact htot'.trans htot
      · rw [he']
        exact ho
      · intro img hi
        rw [he']
        exact hsh img (hi.kept hk)

end MuOS.Proc.Lifecycle
