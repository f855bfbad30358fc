import MuOS.Proc.Boot

namespace MuOS.Proc.Counting

open Function Lib Memory Paging Patches Runs Tally Mm Grants UserPd Views
open TableOps Sharing Space SpaceOps Invariant Forking Cpu
open ProcSteps ProcRuns Boot User.Window List Option Nat

variable {reserved : Nat → Prop} {kpd : Nat} {base : Nat → Nat} {vm vm' : Vm} {lost : List Nat}
  {live : Nat → Option View} {v : View} {m : Mem} {id i f : Nat} {sp : ProcSpace}

/-- Window page `i` of the directory `pd` is mapped to frame `f`. -/
def mapsTo (m : Mem) (pd i f : Nat) : Bool := mmUserTranslate m pd (pageVa i) == f * 4096

/-- The pairs of a space and a window page mapped to `f`. -/
def mappings (vm : Vm) (f : Nat) : Nat :=
  tally vm.spaces vm.nextSpace
    (fun sp => (List.range blockPages).countP (fun i => mapsTo vm.mm.mem sp.pdPhys i f))

def pageWritable (m : Mem) (pd i : Nat) : Bool := (walk m pd (pageVa i)).elim false isWritable

/-- A user frame is counted once for each mapping, a writable one once. -/
def Counted (vm : Vm) : Prop :=
  ∀ id sp i f, vm.spaces id = some sp → i < blockPages → 0 < f →
    mapsTo vm.mm.mem sp.pdPhys i f = true → vm.mm.fr.frameRefs f = mappings vm f ∧
    (pageWritable vm.mm.mem sp.pdPhys i = true → mappings vm f = 1)

def trampUse (live : Nat → Option View) (n f : Nat) : Nat :=
  tally live n (fun v => [v.tramp].count f)

theorem trampUse_le (live : Nat → Option View) (n f : Nat) :
    trampUse live n f ≤ fixedUse live n f := by
  apply tally_mono
  intro v
  rw [View.fixed, count_singleton, count_cons]
  omega

theorem mapsTo_data (hm : Mapped m kpd v) (hi : i < dataPages) :
    mapsTo m (v.pd * 4096) i f = (v.page i == f) := by
  have ht := hm.translate_page hi (show 0 < 4096 by omega)
  rw [add_zero] at ht
  rw [mapsTo, Bool.eq_iff_iff, beq_iff_eq, beq_iff_eq]
  omega

theorem mapsTo_tramp (hm : Mapped m kpd v) :
    mapsTo m (v.pd * 4096) dataPages f = (v.tramp == f) := by
  have hoff : pageVa dataPages % 4096 = 0 := by decide
  rw [mapsTo, translate_tramp hm (by decide), hoff, Bool.eq_iff_iff, beq_iff_eq, beq_iff_eq]
  omega

theorem countP_mapsTo (hm : Mapped m kpd v) (f : Nat) :
    (List.range blockPages).countP (fun i => mapsTo m (v.pd * 4096) i f) = v.pages.count
    f + [v.tramp].count f := by
  have hdata :
    (range dataPages).countP (fun i => mapsTo m (v.pd * 4096) i f) = v.pages.count f := by
    rw [View.pages, List.count, countP_map]
    apply countP_congr
    intro i hi
    rw [mapsTo_data hm (mem_range.mp hi)]
    rfl
  rw [show blockPages = dataPages + 1 from rfl, range_succ, countP_append, hdata, countP_singleton,
    mapsTo_tramp hm, count_singleton]

section

variable (h : Inv reserved kpd base vm lost live)
include h

theorem mappings_eq (f : Nat) :
    mappings vm f = dataUse live vm.nextSpace f + trampUse live vm.nextSpace f := by
  rw [dataUse, trampUse, ← tally_add]
  apply tally_congr
  intro id _
  cases hl : live id with
  | none => rw [h.book.gone id hl, elim_none, elim_none]
  | some v =>
    obtain ⟨-, sp, hsp, hpd, -⟩ := h.book.known id v hl
    rw [hsp, elim_some, hpd]
    exact countP_mapsTo (h.sound.shared.mapped id v hl) f

theorem refs_held (hf : 0 < heldBy (owned base lost vm.procs) live vm.nextSpace f) :
    vm.mm.fr.frameRefs f = heldBy (owned base lost vm.procs) live vm.nextSpace f :=
  h.sound.ledger.refs_eq f (h.sound.ledger.held_lt f hf)

theorem data_counted (hv : live id = some v) (hi : i < dataPages) : vm.mm.fr.frameRefs
      (v.page i) = mappings vm (v.page i) ∧ (v.rw i = true → mappings vm (v.page i) = 1) := by
  obtain ⟨hrest, hfix⟩ := h.sound.shared.data id v i hv hi
  have hpos := h.sound.shared.dataUse_pos hv (page_mem hi)
  have htr := trampUse_le live vm.nextSpace (v.page i)
  have hheld : heldBy (owned base lost vm.procs) live vm.nextSpace (v.page i) =
      dataUse live vm.nextSpace (v.page i) := by
    simp only [heldBy, hrest, hfix, zero_add]
  have hmap : mappings vm (v.page i) = dataUse live vm.nextSpace (v.page i) := by
    rw [mappings_eq h]
    omega
  rw [hmap, refs_held h (hheld.symm ▸ hpos), hheld]
  exact ⟨rfl, h.sound.shared.excl id v i hv hi⟩

theorem tramp_counted (hv : live id = some v) :
    vm.mm.fr.frameRefs v.tramp = mappings vm v.tramp ∧ mappings vm v.tramp = 1 := by
  obtain ⟨hrest, hfix, hdata⟩ := h.sound.shared.fixed id v v.tramp hv mem_cons_self
  have htr := trampUse_le live vm.nextSpace v.tramp
  have hone : 1 ≤ trampUse live vm.nextSpace v.tramp := by
    have hle := le_tally (h.sound.shared.live_lt id v hv) hv fun w => [w.tramp].count v.tramp
    rwa [count_singleton_self] at hle
  have hheld : heldBy (owned base lost vm.procs) live vm.nextSpace v.tramp = 1 := by
    simp only [heldBy, hrest, hfix, hdata]
  have hmap : mappings vm v.tramp = 1 := by
    rw [mappings_eq h]
    omega
  rw [hmap, refs_held h (by omega), hheld]
  exact ⟨rfl, rfl⟩

theorem Inv.counted : Counted vm := by
  intro id sp i f hs hi hf hmap
  obtain ⟨v, hv, hpd, -⟩ := space_view h hs
  have hm := h.sound.shared.mapped id v hv
  rw [hpd] at hmap ⊢
  by_cases hd : i < dataPages
  · rw [mapsTo_data hm hd, beq_iff_eq] at hmap
    have hva : pageVa i / 4096 = 32840 + i := by
      unfold pageVa userBase
      omega
    obtain ⟨hrefs, hone⟩ := data_counted h hv hd
    rw [← hmap, pageWritable, walk_page hm hd hva, elim_some, writable_perm]
    exact ⟨hrefs, hone⟩
  · have he : i = dataPages := by
      unfold blockPages at hi
      unfold dataPages at hd ⊢
      omega
    subst he
    rw [mapsTo_tramp hm, beq_iff_eq] at hmap
    obtain ⟨hrefs, hone⟩ := tramp_counted h hv
    rw [← hmap]
    exact ⟨hrefs, fun _ => hone⟩

end

/-- In every orderly run the frame counts are the numbers of mappings. -/
theorem frames_counted (h : Idle reserved kpd base vm) {acts : List Act}
    (hm : Meets step Orderly vm acts) (hr : run step vm acts = some vm') : Counted vm' := by
  have := h.window
  obtain ⟨lost, live, hinv, -⟩ := run_inv h.inv h.full (hm.mono fun _ _ ho => ho.tame) hr
  exact Inv.counted hinv

theorem frames_counted_sample : Meets step Orderly (bootVm roomy) sampleRun ∧
    ∃ vm', run step (bootVm roomy) sampleRun = some vm' ∧ isUserProc vm' 1 = true ∧
      isUserProc vm' 2 = true ∧ Counted vm' := by
  obtain ⟨hm, vm', hr, h1, h2⟩ := sampleRun_calm
  have ho := hm.mono fun _ _ hc => hc.orderly
  exact ⟨ho, vm', hr, h1, h2, frames_counted roomy_idle ho hr⟩

section

/-- A wake-up write runs over a page's end, after a thread gave back the frames before a table. -/
def straddlingRun : List Act :=
  [.launch true, .thread true, .fork true true, .reap 2, .makeWritable 1 (pageVa 0),
    .wake 1 (pageVa 1 + 4092) 0 (List.replicate 8 0#8)]

def scattered (f : Nat) : Prop :=
  (4096 ≤ f ∧ f < 6151) ∨ f = 6153 ∨ f = 6155 ∨ f = 6157 ∨ (6160 ≤ f ∧ f < 6163) ∨
    (6164 ≤ f ∧ f < 6167)

instance : DecidablePred scattered :=
  fun f => inferInstanceAs (Decidable ((4096 ≤ f ∧ f < 6151) ∨ f = 6153 ∨
  f = 6155 ∨ f = 6157 ∨ (6160 ≤ f ∧ f < 6163) ∨ (6164 ≤ f ∧ f < 6167)))

instance : WindowReserved (bootReserved scattered) :=
  window_reserved scattered fun f hf => by
    unfold scattered at hf
    omega

def sharedView : View := protect firstView dataPages

def forkedView : View := childView firstView 6155 [6157, 6162, 6166] 6153

def sharedLive : Nat → Option View := forkLive firstLive 0 1 firstView 6153 6155 [6157, 6162, 6166]

theorem scattered_thread :
    ∃ vm, run step (bootVm scattered) [.launch true, .thread true] = some vm ∧
      Inv (bootReserved scattered) kernelDir bootRefs vm [6145] firstLive ∧ Full vm ∧ vm.current = 1 ∧
      (vm.procs 1).used = true ∧ (vm.procs 1).space = some 0 ∧ (vm.procs 2).used = true ∧
      (vm.procs 2).kstack = 6160 * 4096 ∧ vm.nextSpace = 1 ∧ freeSlot vm = some 3 ∧
      vm.mm.fr.totalPages = 65536 ∧ vm.mm.cloneFailed = false ∧
      Taken (heldIn bootRefs [6145] firstLive vm) (bootReserved scattered)
        (fun f => (f < 6151 ∨ ¬ scattered f) ∨ (6160 ≤ f ∧ f < 6162)) ∧
      ∀ f, 6160 ≤ f → f < 6162 → heldIn bootRefs [6145] firstLive vm f = 1 := by
  obtain ⟨vm, hvm, hinv, hfull, hst, ht, hid, hu, hslot⟩ := first_launch scattered
    (fun f hf => by unfold scattered at hf; omega) fun f h1 h2 => .inl ⟨h1, h2⟩
  have htot : vm.mm.fr.totalPages = 65536 := hst.total
  have hrun : LowestRun (fun f => f < 6151 ∨ ¬ scattered f) 6160 2 := by
    unfold scattered
    refine ⟨by omega, fun k hk => ?_⟩
    by_cases hs : k = 6153 ∨ k = 6155 ∨ k = 6157
    · exact ⟨k + 1, by omega⟩
    · exact ⟨k, by omega⟩
  obtain ⟨hinv₁, hfull₁, hj, he⟩ := thread_lowest 2 6160 hinv hfull hid hslot ht hrun (by omega)
  obtain ⟨q, hprocs, hqu, -, hqk⟩ := hj.child
  have hone : (doThread vm true).procs 1 = vm.procs 1 := by
    rw [hprocs, update_of_ne (by decide)]
  have htwo : (doThread vm true).procs 2 = q := by
    rw [hprocs, update_self]
  rw [hst.current] at hid hu
  refine ⟨doThread vm true, run_cons step (by rw [step, hvm]) (run_cons step (if_pos ?_) rfl),
    hinv₁, hfull₁, hj.current.trans hst.current, ?_, ?_, ?_, ?_, hj.nextSpace.trans hst.nextSpace,
    ?_, hj.total.trans htot, hj.cloneFailed.trans hst.cloneFailed, ?_, ?_⟩
  · rw [hst.current]
    exact hu
  · rw [hone]
    exact (isUserProc_iff.mp hu).2.2
  · rw [hone]
    exact hid
  · rw [htwo]
    exact hqu
  · rw [htwo]
    exact hqk
  · unfold freeSlot
    rw [hprocs, hst.procs]
    simp only [procMax, range_succ, range_zero, nil_append, cons_append, find?_cons]
    simp only [update_self, hqu]
    rfl
  · rw [he]
    exact ht.stack 6160
  · intro f h1 h2
    have h0 := hj.stack.unheld f h1 h2
    rw [he, addAll, h0, count_range', if_pos ⟨h1, h2⟩]

theorem scattered_reaped :
    ∃ vm, run step (bootVm scattered) [.launch true, .thread true, .fork true true, .reap 2] = some vm ∧
      Inv (bootReserved scattered) kernelDir bootRefs vm [6145] sharedLive ∧ (vm.procs 1).used = true ∧
      (vm.procs 1).space = some 0 ∧ vm.nextSpace = 2 ∧ vm.mm.fr.totalPages = 65536 ∧
      vm.mm.cloneFailed = false ∧ Taken (heldIn bootRefs [6145] sharedLive vm)
      (bootReserved scattered) (fun f => ¬(6160 ≤ f ∧ f < 6162)) := by
  obtain ⟨vm, hr, hinv, hfull, hcur, hu1, hs1, hu2, hk2, hn, hslot, htot, hcf, ht, hone⟩ :=
    scattered_thread
  have hid : (vm.procs vm.current).space = some 0 := by rw [hcur, hs1]
  have hrun : LowestRun (fun f => (f < 6151 ∨ ¬ scattered f) ∨ (6160 ≤ f ∧ f < 6162)) 6164 2 := by
    unfold scattered
    refine ⟨by omega, fun k hk => ?_⟩
    by_cases hs : k = 6153 ∨ k = 6155 ∨ k = 6157 ∨ k = 6162
    · exact ⟨k + 1, by omega⟩
    · exact ⟨k, by omega⟩
  have hlow : LowestAll (fun f => ((f < 6151 ∨ ¬ scattered f) ∨ (6160 ≤ f ∧ f < 6162)) ∨
      (6164 ≤ f ∧ f < 6164 + 2))
      [6153, 6155, 6157, 6162, 6166] := by
    unfold scattered
    exact ⟨⟨by omega, by omega⟩, ⟨by omega, by omega⟩, ⟨by omega, by omega⟩, ⟨by omega, by omega⟩,
      ⟨by omega, by omega⟩, trivial⟩
  obtain ⟨live', hinv₁, hfull₁, hbr⟩ :=
    fork_lowest true 3 6164 6153 6155 [6157, 6162, 6166] hinv hfull hid
    (update_self ..) hslot ht hrun (by omega) rfl hlow (by rw [htot]; decide)
  have hlive : live' = sharedLive := by
    rw [hbr.views rfl, hn]
    rfl
  subst hlive
  have ht₁ := taken_forked hinv (update_self ..) hbr ht
  have hprocs := hbr.child rfl
  have hsame : ∀ j, j ≠ 3 → (doFork vm true true).procs j = vm.procs j := by
    intro j hj
    rw [hprocs, update_of_ne hj]
  have hcur₁ : (doFork vm true true).current = 1 := hbr.current.trans hcur
  obtain ⟨hinv₂, hreap, hheld⟩ := thread_reaped (i := 2) hinv₁ (by decide) (by decide)
    (by rw [hcur₁]; decide) (by rw [hsame 2 (by decide)]; exact hu2) (show 0 < 6160 by omega)
    (by rw [hsame 2 (by decide)]; exact hk2) (by
      intro id v hv
      by_cases h1 : id = 1
      · exact ⟨3, by decide, by decide, by rw [hprocs, update_self, h1, hn]⟩
      by_cases h0 : id = 0
      · exact ⟨1, by decide, by decide, by rw [hsame 1 (by decide), h0]; exact hs1⟩
      have hnone : sharedLive id = none := by
        simp only [sharedLive, forkLive, firstLive, update_of_ne h1, update_of_ne h0]
      cases hnone.symm.trans hv)
  obtain ⟨fr, hmm, hfr⟩ := hreap.mm
  have hfirst : (procReap (doFork vm true true) 2).procs 1 = vm.procs 1 := by
    rw [hreap.procs, update_of_ne (by decide), hsame 1 (by decide)]
  refine ⟨procReap (doFork vm true true) 2, ?_, hinv₂, ?_, ?_, ?_, ?_, ?_, ?_⟩
  · have hstep₁ : step vm (.fork true true) = some (doFork vm true true) :=
      if_pos (by rw [hcur]; exact isUserProc_iff.mpr ⟨by decide, by decide, hu1⟩)
    have hstep₂ : step (doFork vm true true) (.reap 2) = some (procReap (doFork vm true true) 2) := by
      rw [step, if_pos ⟨isUserProc_iff.mpr ⟨by decide, by decide, by rw [hsame 2 (by decide)]; exact hu2⟩,
        by rw [hcur₁]; decide⟩]
    have happ := run_append step (bootVm scattered) [.launch true, .thread true] [.fork true true, .reap 2]
    rw [hr] at happ
    exact happ.trans (run_cons step hstep₁ (run_cons step hstep₂ rfl))
  · rw [hfirst]
    exact hu1
  · rw [hfirst]
    exact hs1
  · rw [hreap.nextSpace, hbr.nextSpace, hn]
  · rw [hmm]
    exact hfr.trans (hbr.total.trans htot)
  · rw [hmm]
    exact hbr.cloneFailed.trans hcf
  · intro f
    have hf := hheld f
    have htf := ht₁ f
    have hadd := heldIn_forked hinv (update_self ..) hbr f
    rw [count_range'] at hf
    by_cases hin : 6160 ≤ f ∧ f < 6162
    · have h1 := hone f hin.1 hin.2
      have hnot : [6153, 6155, 6157, 6162, 6166].count f = 0 := count_eq_zero_of_not_mem (by simp; omega)
      have hpages : firstView.pages.count f = 0 := by
        apply count_eq_zero_of_not_mem
        intro hm
        obtain ⟨j, hj, he⟩ := mem_pages.mp hm
        have he' : 4098 + j = f := he
        unfold dataPages at hj
        omega
      rw [count_range', if_neg (by omega), hf, if_pos hin] at hadd
      have hres : ¬ bootReserved scattered f := fun hc => hc.1 (by unfold scattered; omega)
      refine ⟨?_, fun hc => absurd hin hc⟩
      rintro (hp | hr)
      · omega
      · exact absurd hr hres
    · rw [if_neg hin, add_zero] at hf
      rw [← hf, htf]
      refine ⟨fun _ => hin, fun _ => ?_⟩
      simp only [mem_cons, not_mem_nil, or_false]
      unfold scattered
      omega

/-- The eight bytes around the start of frame 6162 are cleared. -/
def straddled (m : Mem) : Mem :=
  patch m (6161 * 4096 + 4092 + 0) 8 (fun k => (List.replicate 8 0#8).getD k 0#8)

theorem straddled_agree (m : Mem) : AgreeOff [6161, 6162] m (straddled m) := by
  intro a ha
  simp only [mem_cons, not_mem_nil, or_false, not_or] at ha
  exact patch_outside (by omega)

theorem straddled_unmaps (hm : Mapped m kernelDir forkedView) (hi : i < blockPages) :
    mapsTo (straddled m) (6155 * 4096) i 5050 = false := by
  unfold blockPages at hi
  have hva : pageVa i / 4096 = 32840 + i := by
    unfold pageVa userBase
    omega
  have hoff : pageVa i % 4096 = 0 := by
    unfold pageVa userBase
    omega
  have hdir :
    userPte (straddled m) (6155 * 4096) (pageVa i) = some (forkedView.pteAddr (32840 + i)) := by
    rw [← hm.userPte_eq hva (by omega) (by omega)]
    unfold userPte
    rw [(straddled_agree m).rdEntry (by decide) (by omega)]
    rfl
  by_cases h952 : i = 952
  · subst h952
    have hz : rd32 (straddled m) (forkedView.pteAddr (32840 + 952)) = 0#32 := by
      apply rd32_zero
      intro k hk
      rw [show forkedView.pteAddr (32840 + 952) = 6162 * 4096 from rfl, straddled, patch_inside (by omega)]
      exact getD_replicate _ (by omega)
    rw [mapsTo, mmUserTranslate, hdir]
    simp only [hz]
    decide
  · have hsame : rd32 (straddled m) (forkedView.pteAddr (32840 + i)) = forkedView.pte (32840 + i) := by
      rw [← hm.rdPte_eq (by omega) (by omega)]
      apply rd32_congr
      intro x h1 h2
      apply patch_outside
      have ha : forkedView.pteAddr (32840 + i) =
        [6157, 6162, 6166].getD ((32840 + i) / 1024 - 32) 0 * 4096 + 4 * ((32840 + i) % 1024) := rfl
      have hq : (32840 + i) / 1024 = 32 ∨ (32840 + i) / 1024 = 33 ∨ (32840 + i) / 1024 = 34 := by omega
      obtain hq | hq | hq := hq
      · rw [hq, show [6157, 6162, 6166].getD (32 - 32) 0 = 6157 from rfl] at ha
        omega
      · rw [hq, show [6157, 6162, 6166].getD (33 - 32) 0 = 6162 from rfl] at ha
        omega
      · rw [hq, show [6157, 6162, 6166].getD (34 - 32) 0 = 6166 from rfl] at ha
        omega
    have htr : mmUserTranslate (straddled m) (6155 * 4096) (pageVa i) =
        mmUserTranslate m (forkedView.pd * 4096) (pageVa i) := by
      rw [mmUserTranslate, mmUserTranslate, hdir, hm.userPte_eq hva (by omega) (by omega)]
      simp only [hsame, hm.rdPte_eq (show 32768 ≤ 32840 + i by omega) (by omega)]
    have hmaps : mapsTo (straddled m) (6155 * 4096) i 5050 = mapsTo m (forkedView.pd * 4096) i 5050 := by
      rw [mapsTo, mapsTo, htr]
    rw [hmaps]
    by_cases hd : i < dataPages
    · rw [mapsTo_data hm hd, show forkedView.page i = 4098 + i from rfl, beq_eq_false_iff_ne]
      omega
    have he : i = dataPages := by
      unfold dataPages at hd ⊢
      omega
    rw [he, mapsTo_tramp hm]
    rfl

variable {w : View}

theorem straddling_state :
    ∃ vm mm v, run step (bootVm scattered) straddlingRun =
      some (setMm (setMm vm mm) (setMem mm (straddled mm.mem))) ∧
      Inv (bootReserved scattered) kernelDir bootRefs (setMm vm mm) [6145]
      (update sharedLive 0 (some v)) ∧ vm.nextSpace = 2 ∧ mm.cloneFailed = false ∧ v.pd = 6147 ∧
      v.tables = [6147, 6148, 6149, 6150] ∧ v.page 952 = 5050 := by
  obtain ⟨vm, hr, hinv, hu, hs, hn, htot, hcf, ht⟩ := scattered_reaped
  have hv₀ : sharedLive 0 = some sharedView := rfl
  have hw₀ : sharedLive 1 = some forkedView := rfl
  have hpd : (vm.procs 1).pdPhys = 6147 * 4096 := by
    obtain ⟨v, hv, hpd⟩ := hinv.book.attached 1 0 (by decide) hs
    rw [hpd, ← Option.some.inj (hv₀.symm.trans hv)]
    rfl
  obtain ⟨mm, hmm, hinv₁, htot₁, -, hcf₁, ht₁⟩ := copy_lowest 6160 hinv hv₀ (by decide)
    (show pageVa 0 / 4096 = 32840 + 0 by decide) rfl
    (hinv.sound.shared.one_lt_dataUse hv₀ hw₀ (by decide) (page_mem (by decide)) (page_mem (by decide))) ht
    ⟨by omega, by omega⟩ (by omega)
  obtain ⟨v₁, hv₁⟩ : ∃ v₁, sharedView.setPage 0 6160 true = v₁ := ⟨_, rfl⟩
  rw [hv₁] at hinv₁ ht₁
  have hlive₁ : update sharedLive 0 (some v₁) 0 = some v₁ := update_self ..
  have hother₁ : update sharedLive 0 (some v₁) 1 = some forkedView := update_of_ne (by decide) ..
  have hpage₁ : v₁.page 1 = forkedView.page 1 := by
    rw [← hv₁]
    rfl
  have hpd₁ : v₁.pd = 6147 := by
    rw [← hv₁]
    rfl
  have hva : (pageVa 1 + 4092) / 4096 = 32840 + 1 := by decide
  obtain ⟨mm₂, hmm₂, hinv₂, -, -, hcf₂, -⟩ := copy_lowest 6161 hinv₁ hlive₁ (by decide) hva
    (by rw [← hv₁]; rfl)
    (hinv₁.sound.shared.one_lt_dataUse hlive₁ hother₁ (by decide) (page_mem (by decide))
    (hpage₁ ▸ page_mem (by decide))) ht₁ ⟨by omega, by omega⟩
    (show 6161 < mm.fr.totalPages by omega)
  rw [update_idem] at hinv₂
  have hu₁ : isUserProc (setMm vm mm) 1 = true := isUserProc_iff.mpr ⟨by decide, by decide, hu⟩
  have hptr :
    procUserPtr (setMm vm mm) 1 (pageVa 1 + 4092) = (6161 * 4096 + 4092,
    setMm (setMm vm mm) mm₂) := by
    have hpd' : ((setMm vm mm).procs 1).pdPhys = v₁.pd * 4096 := hpd.trans (by rw [hpd₁])
    have hm₂ := hinv₂.sound.shared.mapped 0 _ (update_self ..)
    have htr := translate_data hm₂ (by decide) hva
    have hne : v₁.pd * 4096 ≠ 0 := by
      rw [hpd₁]
      decide
    simp only [procUserPtr, hpd', hne, ne_eq, not_false_eq_true, if_true]
    rw [hmm₂]
    exact Prod.ext htr rfl
  have hstep₁ : step vm (.makeWritable 1 (pageVa 0)) = some (setMm vm mm) := by
    rw [step, onPd, if_pos (isUserProc_iff.mpr ⟨by decide, by decide, hu⟩), hpd]
    exact congrArg (fun s => some (setMm vm s)) hmm
  have hstep₂ : step (setMm vm mm) (.wake 1 (pageVa 1 + 4092) 0 (replicate 8 0#8)) =
      some (setMm (setMm (setMm vm mm) mm₂) (setMem mm₂ (straddled mm₂.mem))) := by
    rw [step, if_pos ⟨hu₁, by decide⟩, wakeWrite, hptr]
    rfl
  have happ :=
    run_append step (bootVm scattered) [.launch true, .thread true, .fork true true, .reap 2]
    [.makeWritable 1 (pageVa 0), .wake 1 (pageVa 1 + 4092) 0 (replicate 8 0#8)]
  rw [hr] at happ
  refine ⟨setMm vm mm, mm₂, v₁.setPage 1 6161 true,
    happ.trans (run_cons step hstep₁ (run_cons step hstep₂ rfl)),
    hinv₂, hn, hcf₂.trans (hcf₁.trans hcf), hpd₁, ?_, ?_⟩
  · rw [← hv₁]
    rfl
  · rw [← hv₁]
    rfl

/-- A wake-up write that runs over the end of a page leaves a frame with two
references and one mapping. -/
theorem straddling_write_miscounts : ∃ vm, run step (bootVm scattered) straddlingRun = some vm ∧
      vm.mm.cloneFailed = false ∧ 2 ≤ vm.mm.fr.frameRefs 5050 ∧ mappings vm 5050 = 1 ∧ ¬ Counted vm := by
  obtain ⟨vm, mm, v, hr, hinv, hn, hcf, hpd, htab, hpage⟩ := straddling_state
  refine ⟨_, hr, ?_⟩
  have hv : update sharedLive 0 (some v) 0 = some v := update_self ..
  have hw : update sharedLive 0 (some v) 1 = some forkedView := update_of_ne (by decide) ..
  have hm : Mapped mm.mem kernelDir v := hinv.sound.shared.mapped 0 v hv
  have hmw : Mapped mm.mem kernelDir forkedView := hinv.sound.shared.mapped 1 forkedView hw
  have hm' : Mapped (straddled mm.mem) kernelDir v :=
    hm.agree (straddled_agree mm.mem) (by rw [htab]; decide)
  have hin : 5050 ∈ v.pages := hpage ▸ page_mem (by decide)
  have hin' : 5050 ∈ forkedView.pages := mem_pages.mpr ⟨952, by decide, rfl⟩
  obtain ⟨-, sp, hsp, hsppd, -⟩ := hinv.book.known 0 v hv
  obtain ⟨-, sp', hsp', hsppd', -⟩ := hinv.book.known 1 forkedView hw
  have htwo := hinv.sound.shared.one_lt_dataUse hv hw (by decide) hin hin'
  have hrefs : 2 ≤ mm.fr.frameRefs 5050 := by
    have hheld : 2 ≤ heldBy (owned bootRefs [6145] (setMm vm mm).procs)
        (update sharedLive 0 (some v)) (setMm vm mm).nextSpace 5050 := by
      exact Nat.le_trans htwo (Nat.le_add_left ..)
    have he := refs_held hinv (f := 5050) (by omega)
    exact he ▸ hheld
  have hcount : v.pages.count 5050 = 1 := by
    have hle := nodup_iff_count_le_one.mp (pages_nodup fun i j => hinv.sound.shared.inj 0 v i j hv) 5050
    have hpos := count_pos_iff.mpr hin
    omega
  have htramp : [v.tramp].count 5050 = 0 := by
    apply count_eq_zero_of_not_mem
    intro hc
    have hfix := (hinv.sound.shared.fixed 0 v v.tramp hv mem_cons_self).2.2
    rw [← mem_singleton.mp hc] at hfix
    exact absurd (hfix ▸ htwo) (by omega)
  have hA := countP_mapsTo hm' 5050
  have hQ : (range blockPages).countP
    (fun i => mapsTo (straddled mm.mem) (forkedView.pd * 4096) i 5050) = 0 := by
    rw [countP_eq_zero]
    intro i hi
    rw [show forkedView.pd = 6155 from rfl, straddled_unmaps hmw (mem_range.mp hi)]
    simp
  rw [hcount, htramp] at hA
  have hmap : mappings (setMm (setMm vm mm) (setMem mm (straddled mm.mem))) 5050 = 1 := by
    rw [mappings, show (setMm (setMm vm mm) (setMem mm (straddled mm.mem))).nextSpace = 2
      from hn, tally, Finset.sum_range_succ, Finset.sum_range_succ]
    rw [show (setMm (setMm vm mm) (setMem mm (straddled mm.mem))).spaces 0 = some sp from hsp,
      show (setMm (setMm vm mm) (setMem mm (straddled mm.mem))).spaces 1 = some sp' from hsp',
      elim_some, elim_some, hsppd, hsppd']
    exact (congrArg₂ (fun a b => 0 + a + b) hA hQ).trans rfl
  have hrefs' :
    2 ≤ (setMm (setMm vm mm) (setMem mm (straddled mm.mem))).mm.fr.frameRefs 5050 := hrefs
  refine ⟨hcf, hrefs', hmap, fun hc => ?_⟩
  have hmt : mapsTo (straddled mm.mem) sp.pdPhys 952 5050 = true := by
    rw [hsppd, mapsTo_data hm' (by decide), hpage]
    rfl
  have heq := (hc 0 sp 952 5050 hsp (by decide) (by omega) hmt).1
  omega

end

end MuOS.Proc.Counting
