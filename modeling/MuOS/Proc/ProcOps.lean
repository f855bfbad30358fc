import MuOS.Proc.Invariant

namespace MuOS.Proc.Invariant

open Function Lib.Paging Mm Frames Grants UserPd Views TableBuild Sharing SharingOps Space SpaceOps
  List Nat Option

variable {reserved : Nat → Prop} {kpd : Nat} {base : Nat → Nat} {vm vm' : Vm}
  {lost lost' : List Nat} {live live' : Nat → Option View} {mm : Machine} {i id : Nat} {p : Slot}
  {procs : Nat → Slot}

theorem freeSlot_spec (h : freeSlot vm = some i) : i < procMax ∧ (vm.procs i).used = false := by
  refine ⟨mem_range.mp (mem_of_find?_eq_some h), ?_⟩
  have hu := find?_some h
  simpa using hu

section

variable (h : Inv reserved kpd base vm lost live)
include h

theorem freeSlot_ne (hf : freeSlot vm = some i) : i ≠ 0 ∧ i ≠ vm.current := by
  obtain ⟨-, hu⟩ := freeSlot_spec hf
  constructor
  · rintro rfl
    cases hu.symm.trans h.book.shell.1
  · rintro rfl
    cases hu.symm.trans h.running.current_used

theorem Inv.not_live_next : live vm.nextSpace = none := by
  cases hl : live vm.nextSpace with
  | none => rfl
  | some v => exact absurd (h.sound.shared.live_lt _ v hl) (lt_irrefl _)

section

variable (hcur : vm'.current = vm.current) (hact : vm'.active = vm.active)
  (hslot : vm'.procs vm.current = vm.procs vm.current)
include hcur hact hslot

theorem Inv.still_running (hcr : vm'.mm.cr3 = vm.mm.cr3)
    (htlb : ∀ p e, vm'.mm.tlb p = some e → vm.mm.tlb p = some e)
    (hkeep : ∀ p e k v, vm'.mm.tlb p = some e → (vm.procs vm.current).space = some k →
      live k = some v → vm.mm.cr3 = v.pd * 4096 → live' k = some v) : Running vm' kpd live' := by
  have hr := h.running
  refine ⟨hcur ▸ hr.current_lt, ?_, ?_, ?_, ?_⟩
  · rw [hcur, hslot]
    exact hr.current_used
  · rw [hcur, hact]
    exact hr.active
  · rw [hcr, hcur, hslot]
    exact hr.loaded
  intro p e he
  obtain ⟨k, v, j, hk, hl, hj, hp, hpte⟩ := hr.cached p e (htlb p e he)
  obtain ⟨w, hw, -, hc⟩ := h.loaded_view hk
  rw [← some.inj (hl.symm.trans hw)] at hc
  refine ⟨k, v, j, ?_, hkeep p e k v he hk hl hc, hj, hp, hpte⟩
  rw [hcur, hslot]
  exact hk

theorem Inv.still_running_kept (hk : Kept vm.mm vm'.mm live live') : Running vm' kpd live' :=
  h.still_running hcur hact hslot hk.cr3 (fun p e he => (hk.tlb p e he).1)
    (fun p e k v he _ hl hc => (hk.tlb p e he).2 k v hl hc)

end

end

theorem kstacks_update (h : ∀ j, j < procMax → (procs j).kstack % 4096 = 0)
    (hp : p.kstack % 4096 = 0) : ∀ j, j < procMax → (update procs i p j).kstack % 4096 = 0 :=
  slots_update (fun q => q.kstack % 4096 = 0) hp fun j hj _ => h j hj

theorem Inv.slot (h : Inv reserved kpd base vm lost live) (h0 : i ≠ 0) (hi : i < procMax)
    (hcur : i ≠ vm.current) (hbare : (vm.procs i).space = none) (hp : p.space = none)
    (hpd : p.pdPhys = 0) (hks : p.kstack % 4096 = 0) (hun : p.used = false → p.kstack = 0)
    (hs : Sound mm reserved kpd (owned base lost (update vm.procs i p)) live vm.nextSpace)
    (hk : Kept vm.mm mm live live) : Inv reserved kpd base (setSlot (setMm vm mm) i p) lost live :=
  ⟨hs, h.kdir, h.strays, kstacks_update h.kstacks hks, h.book.slot h0 hi hbare hp hpd hun,
    h.still_running_kept rfl rfl (update_of_ne hcur.symm ..) hk⟩

theorem owned_same (hi : i < procMax) (hp : p.kstack = (procs i).kstack) :
    owned base lost (update procs i p) = owned base lost procs := by
  funext f
  have h := stackUse_update procs hi p f
  simp only [stackFrames, hp] at h
  simp only [owned]
  omega

def NoStack (total : Nat) (held : Nat → Nat) (reserved : Nat → Prop) : Prop :=
  ∀ q, q + 2 ≤ total → ∃ f, q ≤ f ∧ f < q + 2 ∧ (0 < held f ∨ reserved f)

def bornSlot (ks : Nat) : Slot := ⟨true, none, 0, blockPages, 0, ks * 4096⟩

abbrev spoiled (vm : Vm) (i : Nat) : Vm :=
  setSlot (setMm vm (setOom vm.mm)) i { emptySlot with memPages := blockPages }

abbrev bornIn (vm : Vm) (fr : Allocator) (i ks : Nat) : Vm :=
  setSlot (setMm vm (setFr vm.mm fr)) i (bornSlot ks)

section

variable (h : Inv reserved kpd base vm lost live)
include h

theorem procAlloc_spec : (freeSlot vm = none ∧ procAlloc vm = (none, vm)) ∨
      (∃ i, freeSlot vm = some i ∧ procAlloc vm = (none, spoiled vm i) ∧
      Inv reserved kpd base (spoiled vm i) lost live ∧
      NoStack vm.mm.fr.totalPages (inUse base lost live vm) reserved) ∨
    ∃ i b fr, freeSlot vm = some i ∧
      procAlloc vm = (some i, setSlot (setMm vm (setFr vm.mm fr)) i (bornSlot b)) ∧
      FreshRun (inUse base lost live vm) reserved b 2 ∧
      fr.totalPages = vm.mm.fr.totalPages ∧ Kept vm.mm (setFr vm.mm fr) live live ∧
      Inv reserved kpd base (setSlot (setMm vm (setFr vm.mm fr)) i (bornSlot b)) lost live := by
  cases hf : freeSlot vm with
  | none => exact .inl ⟨rfl, by simp only [procAlloc, hf]⟩
  | some i =>
    obtain ⟨hi, hu⟩ := freeSlot_spec hf
    obtain ⟨h0, hcur⟩ := freeSlot_ne h hf
    obtain ⟨hbare, hks⟩ := h.book.unused i hi hu
    refine .inr ?_
    obtain ⟨hb, hall⟩ | ⟨b, fr, hb, hrun, htot, hc⟩ :=
      allocPages_cases h.sound.ledger (show 0 < kernelStackPages by decide)
    · refine .inl ⟨i, rfl, ?_, ?_, hall⟩
      · simp only [procAlloc, hf, hb, if_true]
      refine h.slot h0 hi hcur hbare rfl rfl rfl (fun _ => rfl) ?_ (Sound.setOom_kept vm.mm live)
      rw [owned_same hi]
      · exact h.sound.setOom_sound
      · exact hks.symm
    · have hb0 := frame_ne_zero hrun.pos
      have hun : ∀ f ∈ range' b 2, inUse base lost live vm f = 0 := by
        intro f hf
        obtain ⟨h1, h2⟩ := mem_range'_1.mp hf
        exact hrun.unheld f h1 h2
      obtain ⟨hs, hk⟩ := h.sound.take hun hc (AgreeOff.refl _ vm.mm.mem) htot
      refine .inr ⟨i, b, fr, rfl, ?_, hrun, htot, hk, ?_⟩
      · simp only [procAlloc, hf, hb, hb0, if_false, bornSlot]
      refine h.slot h0 hi hcur hbare rfl rfl (mul_mod_left b 4096)
        (fun hu => absurd hu (by simp [bornSlot])) ?_ hk
      rw [owned_take hi hks, stackFrames_run hrun.pos rfl]
      exact hs

section

variable (h0 : i ≠ 0) (hi : i < procMax) (hcur : i ≠ vm.current)
include h0 hi hcur

section

variable (hbare : (vm.procs i).space = none) (hu : (vm.procs i).used = true)
include hbare hu

theorem Inv.attach (sp : ProcSpace) {v : View} (hsp : sp.pdPhys = v.pd * 4096)
    (htr : sp.trampPhys = v.tramp * 4096) (hrefs : sp.refs = 1) (hlost : Strays base lost')
    (hk : Kept vm.mm mm live live') (hs : Sound mm reserved kpd (owned base lost' vm.procs)
    (update live' vm.nextSpace (some v)) (vm.nextSpace + 1)) :
    Inv reserved kpd base (Space.attach (setMm vm mm) i sp) lost'
    (update live' vm.nextSpace (some v)) := by
  have hnone := hk.dom _ h.not_live_next
  have hbook := h.book.kept hk
  refine ⟨?_, h.kdir, hlost, ?_, ?_, ?_⟩
  · have he : owned base lost' (Space.attach (setMm vm mm) i sp).procs = owned base lost' vm.procs :=
      owned_same hi rfl
    rw [he]
    exact hs
  · exact kstacks_update h.kstacks (h.kstacks i hi)
  · refine hbook.join h0 hi hbare sp rfl hsp hu (.inl hnone) hsp htr ?_
    rw [hrefs, show (setMm vm mm).nextSpace = vm.nextSpace from rfl, hbook.unknown hnone]
  · refine h.still_running rfl rfl (update_of_ne hcur.symm ..) hk.cr3 (fun p e he => (hk.tlb p e he).1) ?_
    intro p e k w he _ hw hc
    have hkn : k ≠ vm.nextSpace := by
      rintro rfl
      cases h.not_live_next.symm.trans hw
    rw [update_of_ne hkn]
    exact (hk.tlb p e he).2 k w hw hc

theorem Inv.share {j : Nat}
    (hj : j < procMax) (hid : (vm.procs j).space = some id) : ∃ q spaces, procSpaceShare vm i j =
        (true, { vm with procs := update vm.procs i q, spaces := spaces }) ∧
      q.used = true ∧ q.space = some id ∧ q.kstack = (vm.procs i).kstack ∧
      Inv reserved kpd base { vm with procs := update vm.procs i q, spaces := spaces } lost live := by
  obtain ⟨v, hv, hpd⟩ := h.book.attached j id hj hid
  obtain ⟨-, sp, hsp, hspd, hstr, hrefs⟩ := h.book.known id v hv
  obtain ⟨q, hq⟩ : ∃ q : Slot, q = { vm.procs i with
    space := some id, mem := (vm.procs j).mem, memPages := (vm.procs j).memPages,
    pdPhys := (vm.procs j).pdPhys } := ⟨_, rfl⟩
  have hbook := h.book.join (p := q) h0 hi hbare { sp with refs := sp.refs + 1 }
    (by rw [hq]) (by rw [hq]; exact hpd) (by rw [hq]; exact hu) (.inr hv) hspd hstr (by rw [hrefs])
  rw [Sound.update_self_eq hv] at hbook
  have howned : owned base lost (update vm.procs i q) = owned base lost vm.procs :=
    owned_same hi (by rw [hq])
  refine ⟨q, update vm.spaces id (some { sp with refs := sp.refs + 1 }), ?_, by rw [hq]; exact hu,
    by rw [hq], by rw [hq], ?_, h.kdir, h.strays,
    kstacks_update h.kstacks (by rw [hq]; exact h.kstacks i hi), hbook, ?_⟩
  · simp only [procSpaceShare, hid, hsp, map_some, setSpace, setSlot, hq]
  · exact howned.symm ▸ h.sound
  · exact h.still_running rfl rfl (update_of_ne hcur.symm ..) rfl (fun _ _ he => he)
      fun _ _ _ _ _ _ hl _ => hl

end

end

theorem Inv.owned_kdir (procs : Nat → Slot) : 0 < owned base lost procs kpd := by
  have hk := h.kdir
  simp only [owned]
  omega

end

theorem free_stack {s : Machine} {rest : Nat → Nat} {n : Nat}
    (h : Sound s reserved kpd (addAll rest (stackFrames p)) live n) (hk : 0 < rest kpd)
    (hks : p.kstack % 4096 = 0) : ∃ fr, freeStack s p.kstack = setFr s fr ∧
      Sound (setFr s fr) reserved kpd rest live n ∧ fr.totalPages = s.fr.totalPages := by
  by_cases h0 : p.kstack = 0
  · rw [freeStack, if_pos h0]
    rw [stackFrames_empty h0] at h
    exact ⟨s.fr, rfl, h, rfl⟩
  obtain ⟨b, hb⟩ := dvd_of_mod_eq_zero hks
  rw [mul_comm] at hb
  have hpos : 0 < b := by
    by_contra hz
    exact h0 (by rw [hb, Nat.eq_zero_of_not_pos hz, Nat.zero_mul])
  rw [freeStack, if_neg h0, hb]
  rw [stackFrames_run hpos hb] at h
  have hheld : ∀ j, j < 2 → 0 < heldBy (addAll rest (range' b 2)) live n (b + j) := by
    intro j hj
    have hm : b + j ∈ range' b 2 := mem_range'_1.mpr (by omega)
    have hp := count_pos_iff.mpr hm
    simp only [heldBy, addAll]
    omega
  obtain ⟨fr, hfr, hs, htot⟩ := h.give hk (List.Perm.refl _)
  refine ⟨fr, ?_, hs, htot⟩
  rw [freePages, show kernelStackPages = 2 from rfl, freePages_run h.ledger hheld, hfr]

/-- The processes left keep their spaces; memory is untouched. -/
structure Reaped (vm vm' : Vm) (i : Nat) (live live' : Nat → Option View) : Prop where
  procs : vm'.procs = update vm.procs i emptySlot
  current : vm'.current = vm.current
  active : vm'.active = vm.active
  nextSpace : vm'.nextSpace = vm.nextSpace
  mm : ∃ fr, vm'.mm = setFr vm.mm fr ∧ fr.totalPages = vm.mm.fr.totalPages
  sub : ∀ k v, live' k = some v → live k = some v

theorem reap_rest (h : Inv reserved kpd base vm lost live) (spaces : Nat → Option ProcSpace)
    (hi : i < procMax) (hcur : i ≠ vm.current) {fr : Allocator}
    (htot : fr.totalPages = vm.mm.fr.totalPages)
    (hs : Sound (setFr vm.mm fr) reserved kpd (owned base lost vm.procs) live' vm.nextSpace)
    (hbook : Book (update vm.procs i emptySlot) spaces live')
    (hsub : ∀ k v, live' k = some v → live k = some v)
    (hkeep : ∀ k v, (vm.procs vm.current).space = some k → live k = some v → live' k = some v)
    (hr : procReap vm i = setSlot { vm with
      mm := freeStack (setFr vm.mm fr) (vm.procs i).kstack
      spaces := spaces
      current := if vm.current = i then 0 else vm.current } i emptySlot) :
    Inv reserved kpd base (procReap vm i) lost live' ∧ Reaped vm (procReap vm i) i live live' := by
  have hkd := h.owned_kdir (update vm.procs i emptySlot)
  rw [owned_give (p := emptySlot) hi rfl] at hs
  obtain ⟨fr', hfr', hs', htot'⟩ := free_stack hs hkd (h.kstacks i hi)
  rw [if_neg fun he => hcur he.symm, hfr'] at hr
  rw [hr]
  refine ⟨⟨hs', h.kdir, h.strays, kstacks_update h.kstacks rfl, hbook, ?_⟩, rfl, rfl, rfl, rfl,
    ⟨fr', rfl, htot'.trans htot⟩, hsub⟩
  exact h.still_running rfl rfl (update_of_ne hcur.symm ..) rfl (fun _ _ he => he)
    fun _ _ k v _ hk hl _ => hkeep k v hk hl

theorem procReap_spec (h : Inv reserved kpd base vm lost live) (h0 : i ≠ 0) (hi : i < procMax)
    (hcur : i ≠ vm.current) (hu : (vm.procs i).used = true) :
    ∃ live', Inv reserved kpd base (procReap vm i) lost live' ∧
    Reaped vm (procReap vm i) i live live' := by
  have hused : ¬ (vm.procs i).used = false := by rw [hu]; simp
  cases hid : (vm.procs i).space with
  | none =>
    refine ⟨live, reap_rest h vm.spaces hi hcur rfl h.sound
      (h.book.slot h0 hi hid rfl rfl fun _ => rfl) (fun _ _ hl => hl) (fun _ _ _ hl => hl) ?_⟩
    simp only [procReap, hused, hid, leaveSpace]
    rfl
  | some id =>
    obtain ⟨v, hv, hpd⟩ := h.book.attached i id hi hid
    obtain ⟨hpos, sp, hsp, hspd, hstr, hrefs⟩ := h.book.known id v hv
    by_cases h1 : 1 < sp.refs
    · refine ⟨live, reap_rest h (update vm.spaces id (some { sp with refs := sp.refs - 1 }))
        hi hcur rfl h.sound ?_ (fun _ _ hl => hl) (fun _ _ _ hl => hl) ?_⟩
      · have hb :=
          h.book.leave h0 hi hid (p := emptySlot) (o := some { sp with refs := sp.refs - 1 }) rfl rfl
          (fun _ => rfl) hv (.inr ⟨_, rfl, hspd, hstr, by simp only; omega, by simp only; omega⟩)
        rw [map_some, Sound.update_self_eq hv] at hb
        exact hb
      · simp only [procReap, hused, hid, leaveSpace, procSpaceUnref, hsp, h1, if_true]
        rfl
    have hone : sharers vm.procs id = 1 := by omega
    obtain ⟨fr, hfr, hs, htot⟩ := dropSpace_spec h.sound hv hspd hstr
    refine ⟨update live id none, reap_rest h (update vm.spaces id none) hi hcur htot hs ?_ ?_ ?_ ?_⟩
    · exact h.book.leave h0 hi hid rfl rfl (fun _ => rfl) hv (.inl ⟨rfl, hone⟩)
    · intro k w hw
      by_cases hk : k = id
      · subst hk
        rw [update_self] at hw
        cases hw
      · rwa [update_of_ne hk] at hw
    · intro k w hk hl
      have hne : k ≠ id := by
        rintro rfl
        have hc := sharers_update vm.procs hi emptySlot k
        have hslot : (update vm.procs i emptySlot vm.current).space = some k := by
          rw [update_of_ne hcur.symm]
          exact hk
        have hp := sharers_pos h.running.current_lt hslot
        rw [if_pos hid] at hc
        simp only [emptySlot, reduceCtorEq, if_false] at hc hp
        omega
      rw [update_of_ne hne]
      exact hl
    · simp only [procReap, hused, if_false, hid, leaveSpace, procSpaceUnref, hsp, h1, hfr]
      rfl

end MuOS.Proc.Invariant
