import MuOS.Proc.Boot

namespace MuOS.Proc.Isolation

open Function Lib Memory Paging Runs Tally Mm Ledger FrameOps Grants UserPd Views
open TableBuild TableClone TableOps Sharing Space SpaceOps Invariant Forking Cpu
open ProcSteps ProcRuns Boot User.Window List Option

variable {reserved : Nat → Prop} {kpd : Nat} {base : Nat → Nat} {vm vm' : Vm} {lost : List Nat}
  {live : Nat → Option View} {v : View} {m : Mem} {d : Nat}

/-- Whether Ring3 may use page `p` under directory `pd`. -/
def ring3 (m : Mem) (pd p : Nat) : Bool := (walk m pd (p * 4096)).elim false isUser

def tableAddr (m : Mem) (pd d : Nat) : Nat := addrOf (rdEntry m pd d)

/-- Ring3 reaches the window alone; trampoline and tables are its own. -/
structure Fenced (vm : Vm) (id : Nat) (sp : ProcSpace) : Prop where
  access : ∀ p, p < 1048576 →
    (ring3 vm.mm.mem sp.pdPhys p = true ↔ userBase ≤ p * 4096 ∧ p * 4096 < userEnd)
  tramp : mmUserTranslate vm.mm.mem sp.pdPhys userSigtramp = sp.trampPhys
  own_tramp : ∀ id' sp', vm.spaces id' = some sp' → id' ≠ id → sp'.trampPhys ≠ sp.trampPhys
  tables : ∀ id' sp', vm.spaces id' = some sp' → id' ≠ id → ∀ d ∈ windowPdes, ∀ d' ∈ windowPdes,
    tableAddr vm.mm.mem sp'.pdPhys d' ≠ tableAddr vm.mm.mem sp.pdPhys d
  kernel : ∀ d, d < 1024 → d ∉ windowPdes →
    rdEntry vm.mm.mem sp.pdPhys d = rdEntry vm.mm.mem vm.mm.pageDirPhys d ∧
      isUser (rdEntry vm.mm.mem sp.pdPhys d) = false

def Isolated (vm : Vm) : Prop := ∀ id sp, vm.spaces id = some sp → Fenced vm id sp

theorem mem_windowPdes : d ∈ windowPdes ↔ 32 ≤ d ∧ d < 35 := by
  simp only [windowPdes, mem_cons, not_mem_nil, or_false]
  omega

theorem grant_none {x y : BitVec 32} (h : isUser y = false) :
    isUser (x &&& (y ||| 0xFFFFFFF8#32)) = false := by
  have hy : y &&& 4#32 = 0#32 := by simpa [isUser] using h
  have hm : 0xFFFFFFF8#32 &&& 4#32 = 0#32 := by decide
  have hz : x &&& (y ||| 0xFFFFFFF8#32) &&& 4#32 = 0#32 := by
    rw [BitVec.and_assoc, BitVec.and_or_distrib_right, hy, hm, BitVec.or_zero, BitVec.and_zero]
  simp [isUser, hz]

theorem ring3_iff (h : Mapped m kpd v)
    (hk : ∀ d, d < 1024 → isUser (rdEntry m (kpd * 4096) d) = false) {p : Nat}
    (hp : p < 1048576) : ring3 m (v.pd * 4096) p = true ↔ userBase ≤ p * 4096 ∧
    p * 4096 < userEnd := by
  have hdiv : p * 4096 / 4096 = p := Nat.mul_div_cancel p (by omega)
  unfold userBase userEnd
  by_cases hw : 32768 ≤ p ∧ p < 35840
  · rw [ring3, walk_window h (by omega) (by omega), hdiv]
    by_cases hd : 32840 ≤ p ∧ p < 34887
    · have hi : p - 32840 < dataPages := by
        unfold dataPages
        omega
      have hpte : v.pte p = entry (v.page (p - 32840)) (perm (v.rw (p - 32840))) := by
        rw [← pte_page hi, Nat.add_sub_cancel' hd.1]
      rw [hpte, present_perm, if_pos rfl, elim_some, user_perm, eq_self, true_iff]
      omega
    · by_cases ht : p = 34887
      · rw [ht, pte_tramp, present_perm, if_pos rfl, elim_some, user_perm, eq_self, true_iff]
        omega
      · rw [pte_outside (by omega), if_neg (by decide), elim_none]
        simp only [Bool.false_eq_true, false_iff]
        omega
  · have hd : rdEntry m (v.pd * 4096) (p * 4096 / 4194304) = rdEntry m (kpd * 4096)
      (p * 4096 / 4194304) := by
      rw [h.dir _ (by omega), if_neg (by omega)]
    have hu := hk (p * 4096 / 4194304) (by omega)
    have hf : ring3 m (v.pd * 4096) p = false := by
      simp only [ring3, walk, hd]
      split
      · split
        · exact grant_none hu
        · rfl
      · rfl
    rw [hf]
    simp only [Bool.false_eq_true, false_iff]
    omega

theorem tableAddr_eq (h : Mapped m kpd v) (hd : d ∈ windowPdes) :
    ∃ t ∈ v.tables, tableAddr m (v.pd * 4096) d = t * 4096 := by
  obtain ⟨h1, h2⟩ := mem_windowPdes.mp hd
  have ht := Mapped.tab_mem v (show d - 32 < 3 by omega)
  refine ⟨v.tab (d - 32), ht, ?_⟩
  rw [tableAddr, h.dir d (by omega), if_pos ⟨h1, h2⟩, addrOf_entry (h.table_lt _ ht)]

theorem Inv.isolated (h : Inv reserved kpd base vm lost live) : Isolated vm := by
  intro id sp hs
  obtain ⟨v, hv, hpd, htr⟩ := space_view h hs
  have hm := h.sound.shared.mapped id v hv
  have hkern := h.sound.shared.kernel
  refine ⟨?_, ?_, ?_, ?_, ?_⟩
  · intro p hp
    rw [hpd]
    exact ring3_iff hm hkern hp
  · have hoff : userSigtramp % 4096 = 0 := by decide
    rw [hpd, htr, translate_tramp hm (by decide), hoff, Nat.add_zero]
  · intro id' sp' hs' hne he
    obtain ⟨w, hw, -, htr'⟩ := space_view h hs'
    rw [htr, htr'] at he
    exact h.sound.shared.fixed_disjoint hw hv hne mem_cons_self (frame_inj he ▸ mem_cons_self)
  · intro id' sp' hs' hne d hd d' hd' he
    obtain ⟨w, hw, hpd', -⟩ := space_view h hs'
    obtain ⟨t, ht, hte⟩ := tableAddr_eq hm hd
    obtain ⟨t', ht', hte'⟩ := tableAddr_eq (h.sound.shared.mapped id' w hw) hd'
    rw [hpd, hpd', hte, hte'] at he
    exact h.sound.shared.fixed_disjoint hw hv hne (table_mem_fixed ht') (frame_inj he ▸ table_mem_fixed ht)
  · intro d hd hw
    have hn : ¬(32 ≤ d ∧ d < 35) := fun hc => hw (mem_windowPdes.mpr hc)
    have hdir : rdEntry vm.mm.mem sp.pdPhys d = rdEntry vm.mm.mem (kpd * 4096) d := by
      rw [hpd, hm.dir d hd, if_neg hn]
    rw [hdir, h.sound.dir]
    exact ⟨rfl, hkern d hd⟩

/-- In every orderly run every address space is fenced. -/
theorem spaces_isolated (h : Idle reserved kpd base vm) {acts : List Act}
    (hm : Meets step Orderly vm acts) (hr : run step vm acts = some vm') : Isolated vm' := by
  have := h.window
  obtain ⟨lost, live, hinv, -⟩ := run_inv h.inv h.full (hm.mono fun _ _ ho => ho.tame) hr
  exact Inv.isolated hinv

theorem spaces_isolated_sample : Meets step Orderly (bootVm roomy) sampleRun ∧
    ∃ vm', run step (bootVm roomy) sampleRun = some vm' ∧ isUserProc vm' 1 = true ∧
      isUserProc vm' 2 = true ∧ Isolated vm' := by
  obtain ⟨hm, vm', hr, h1, h2⟩ := sampleRun_calm
  have ho := hm.mono fun _ _ hc => hc.orderly
  exact ⟨ho, vm', hr, h1, h2, spaces_isolated roomy_idle ho hr⟩

/-- No cached translation is stale: the processor finds what the loaded tables say. -/
theorem translations_current (h : Idle reserved kpd base vm) {acts : List Act}
    (hm : Meets step Tame vm acts) (hr : run step vm acts = some vm') (va : Nat) :
    Space.lookup vm'.mm va = walk vm'.mm.mem vm'.mm.cr3 va := by
  have := h.window
  obtain ⟨lost, live, hinv, -⟩ := run_inv h.inv h.full hm hr
  have hrun := hinv.running
  unfold Space.lookup
  split
  · rename_i e he
    obtain ⟨id, v, i, hid, hv, hi, hp, rfl⟩ := hrun.cached _ e he
    obtain ⟨w, hw, hpd⟩ := hinv.book.attached _ id hrun.current_lt hid
    obtain rfl := Option.some.inj (hv.symm.trans hw)
    have hmap := hinv.sound.shared.mapped id v hv
    have hpos := hmap.pd_pos
    rw [hrun.loaded, hpd, if_neg (by omega), walk_page hmap hi hp, hp, pte_page hi]
  · rfl

theorem translations_current_sample : ∃ vm', run step (bootVm roomy) sampleRun = some vm' ∧
    isUserProc vm' 1 = true ∧ ∀ va, Space.lookup vm'.mm va = walk vm'.mm.mem vm'.mm.cr3 va := by
  obtain ⟨hm, vm', hr, h1, -⟩ := sampleRun_calm
  exact ⟨vm', hr, h1, translations_current roomy_idle (hm.mono fun _ _ hc => hc.orderly.tame) hr⟩

section

/-- A fork succeeds, the next fails, then a shared page is made writable. -/
def starvedRun : List Act :=
  [.launch true, .fork true true, .fork true true, .makeWritable 1 userBase]

def parentView : View := protect firstView dataPages

def parentLive : Nat → Option View := forkLive firstLive 0 1 firstView 6153 6154 [6155, 6156, 6157]

abbrev starved : Nat → Prop := below 6163

instance : WindowReserved (bootReserved starved) := window_reserved starved fun _ hf =>
    lt_trans hf.2 (by decide)

theorem below_fork {hi : Nat} (hhi : 6158 ≤ hi) :
    ∃ vm, Meets step Calm (bootVm (below hi)) [.launch true, .fork true true] ∧
      run step (bootVm (below hi)) [.launch true, .fork true true] = some vm ∧
      Inv (bootReserved (below hi)) kernelDir bootRefs vm [6145] parentLive ∧ Full vm ∧
      vm.current = 1 ∧ (vm.procs 1).space = some 0 ∧ vm.nextSpace = 2 ∧ freeSlot vm = some 3 ∧
      isUserProc vm 1 = true ∧ vm.mm.fr.totalPages = 65536 ∧
      Taken (heldIn bootRefs [6145] parentLive vm) (bootReserved (below hi))
      (fun f => f < 6158 ∨ hi ≤ f) ∧ ∀ o, o < 4096 → vm.mm.mem (4098 * 4096 + o) = 0#8 := by
  obtain ⟨vm, hvm, hinv, hfull, hst, ht, hid, hu, hslot⟩ := below_launch (show 6151 ≤ hi by omega)
  have htot : vm.mm.fr.totalPages = 65536 := hst.total
  have hnext : vm.nextSpace = 1 := hst.nextSpace
  obtain ⟨live', hinv₁, hfull₁, hbr⟩ :=
    fork_lowest true 2 6151 6153 6154 [6155, 6156, 6157] hinv hfull hid
    (update_self ..) hslot ht ⟨by omega, fun k hk => ⟨k, by omega⟩⟩ (by omega) rfl
    ⟨⟨by omega, by omega⟩, ⟨by omega, by omega⟩, ⟨by omega, by omega⟩, ⟨by omega, by omega⟩,
    ⟨by omega, by omega⟩, trivial⟩ (by rw [htot]; decide)
  have hlive : live' = parentLive := by
    rw [hbr.views rfl, hnext]
    rfl
  subst hlive
  have hprocs := hbr.child rfl
  have hone : (doFork vm true true).procs 1 = vm.procs 1 := by
    rw [hprocs, update_of_ne (by decide)]
  have hu₁ : isUserProc (doFork vm true true) 1 = true := by
    rw [isUserProc, hone]
    rw [hst.current] at hu
    exact hu
  have h1 : step (bootVm (below hi)) (.launch true) = some vm := by rw [step, hvm]
  have h2 : step vm (.fork true true) = some (doFork vm true true) := if_pos hu
  have hcalm := And.intro (hbr.oom.trans hst.oom) (hbr.cloneFailed.trans hst.cloneFailed)
  refine ⟨doFork vm true true, meets_cons (by simp) h1 ⟨hst.oom, hst.cloneFailed⟩
    (meets_cons (by simp) h2 hcalm trivial), run_cons step h1 (run_cons step h2 rfl), hinv₁, hfull₁,
    hbr.current.trans hst.current, ?_, ?_, ?_, hu₁, hbr.total.trans htot, ?_, ?_⟩
  · rw [hone, ← hst.current]
    exact hid
  · rw [hbr.nextSpace, hnext]
  · unfold freeSlot
    rw [hprocs, hst.procs]
    rfl
  · refine (taken_forked hinv (update_self ..) hbr ht).congr (fun f => ?_)
    simp only [mem_cons, not_mem_nil, or_false]
    omega
  · intro o ho
    have hs := hbr.shows _ (hst.shows (fun _ _ => 0#8) fun k v i o hk => by cases hk) 0 parentView 0 o
      rfl (by decide) ho
    rw [hnext] at hs
    exact hs

variable {vm : Vm}

theorem parent_held (h : Inv (bootReserved starved) kernelDir bootRefs vm [6145] parentLive) :
    2 ≤ heldIn bootRefs [6145] parentLive vm 4098 ∧
    heldIn bootRefs [6145] parentLive vm 6149 = 1 := by
  constructor
  · have hlt := h.sound.shared.one_lt_dataUse (show parentLive 0 = some parentView from rfl)
      (show parentLive 1 = some (childView firstView 6154 [6155, 6156, 6157] 6153) from rfl) (by decide)
      (page_mem (i := 0) (by decide)) (page_mem (i := 0) (by decide))
    rw [show parentView.page 0 = 4098 from rfl] at hlt
    rw [heldIn, heldBy]
    omega
  · exact h.sound.held_fixed (show parentLive 0 = some parentView from rfl) (by decide)

theorem table_overwritten {s : Machine} {held : Nat → Nat}
    (hc : Consistent s.fr held (bootReserved starved))
    (hm : Mapped s.mem kernelDir parentView) (hpage : 2 ≤ held 4098) (htab : held 6149 = 0)
    (hlow : ∀ k, k < 6149 → 0 < held k ∨ bootReserved starved k) (htot : s.fr.totalPages = 65536)
    (hz : ∀ o, o < 4096 → s.mem (4098 * 4096 + o) = 0#8) :
    ring3 (mmUserMakeWritable s (6147 * 4096) userBase).2.mem (6147 * 4096) 33792 = false := by
  have hfree : ¬ bootReserved starved 6149 := fun hr => hr.1 (by decide)
  obtain ⟨hw, -⟩ | ⟨-, hone, -⟩ | ⟨-, -, -, hall⟩ | ⟨-, -, g, fr, he, hg, -, -⟩ :=
    makeWritable_cases (f := 4098) hc hm
      (show userBase / 4096 = 32840 by decide) (by omega) (by omega) rfl (by omega) (by omega)
  · cases hw
  · omega
  · obtain hp | hr := hall 6149 (by omega)
    · omega
    · exact absurd hr hfree
  have hg' := hg.unique htab hfree hlow
  subst hg'
  have he' : (mmUserMakeWritable s (6147 * 4096) userBase).2.mem =
      wrEntry (copyPage s.mem (6149 * 4096) (4098 * 4096)) (6148 * 4096) 72 (entry 6149 (perm true)) := by
    rw [show (6147 : Nat) = parentView.pd from rfl, he, refresh_mem]
    rfl
  have hcopy := agree_copyPage s.mem 6149 (4098 * 4096)
  have hwr := agree_wrEntry (copyPage s.mem (6149 * 4096) (4098 * 4096)) 6148 (j := 72)
    (entry 6149 (perm true)) (by omega)
  have hpde : rdEntry (mmUserMakeWritable s (6147 * 4096) userBase).2.mem
    (6147 * 4096) 33 = entry 6149 7#12 := by
    rw [he', hwr.rdEntry (by decide) (by omega)]
    exact hm.dir 33 (by omega)
  have hbyte : ∀ k, k < 4 → (mmUserMakeWritable s (6147 * 4096) userBase).2.mem
    (6149 * 4096 + k) = 0#8 := by
    intro k hk
    have hk' : (6149 * 4096 + k) / 4096 = 6149 := by omega
    rw [he', hwr _ (by rw [hk']; decide), copyPage_byte _ _ _ (by omega)]
    exact hz k (by omega)
  have hpte := rd32_zero hbyte
  have hd : 33792 * 4096 / 4194304 = 33 := by decide
  have hr : 6149 * 4096 + 4 * (33792 * 4096 / 4096 % 1024) = 6149 * 4096 := by decide
  have hpr : isPresent (entry 6149 7#12) = true := by decide
  rw [ring3, walk, hpde, if_pos hpr, addrOf_entry (by omega), hpte, if_neg (by decide), elim_none]

theorem starved_failure :
    ∃ vm held, run step (bootVm starved) [.launch true, .fork true true, .fork true true] = some vm ∧
      isUserProc vm 1 = true ∧ (vm.procs 1).pdPhys = 6147 * 4096 ∧
      (∃ sp, vm.spaces 0 = some sp ∧ sp.pdPhys = 6147 * 4096) ∧
      Consistent vm.mm.fr held (bootReserved starved) ∧ Mapped vm.mm.mem kernelDir parentView ∧
      2 ≤ held 4098 ∧ held 6149 = 0 ∧ (∀ k, k < 6149 → 0 < held k ∨ bootReserved starved k) ∧
      vm.mm.fr.totalPages = 65536 ∧ ∀ o, o < 4096 → vm.mm.mem (4098 * 4096 + o) = 0#8 := by
  obtain ⟨vm, -, hr, hinv, hfull, hcur, hspace, hn, hslot, hu, htot, ht, hz⟩ :=
    below_fork (show 6158 ≤ 6163 by omega)
  obtain ⟨hpage, htab⟩ := parent_held hinv
  have hid : (vm.procs vm.current).space = some 0 := by rw [hcur, hspace]
  obtain ⟨fr₁, fr, m, hfr₁, he, hfail⟩ :=
    fork_exhausted true 3 6158 6160 [6161, 6162] hinv hfull hid
    (rfl) hslot ht ⟨by omega, fun k hk => ⟨k, by omega⟩⟩ (by omega)
    ⟨⟨by omega, by omega⟩, ⟨by omega, by omega⟩, ⟨by omega, by omega⟩, trivial⟩
    (by rw [htot]; decide) (by decide) (by simp only [mem_cons, not_mem_nil, or_false]; omega)
  obtain ⟨vm₁, hvm₁⟩ : ∃ vm₁, setMm (setSlot (setMm vm (setFr vm.mm fr₁)) 3 (bornSlot 6158))
      (failedClone (setFr vm.mm fr₁) fr m) = vm₁ := ⟨_, rfl⟩
  rw [hvm₁] at he
  have hled : Consistent vm₁.mm.fr (dropAll (addAll (heldIn bootRefs [6145] parentLive vm) (range' 6158 2))
      [6149, 6150]) (bootReserved starved) := hvm₁ ▸ hfail.ledger
  have hborn : vm₁.procs 3 = bornSlot 6158 := by
    rw [← hvm₁]
    simp only [setMm, setSlot, update_self]
  have hother : ∀ j, j ≠ 3 → vm₁.procs j = vm.procs j := by
    intro j hj
    rw [← hvm₁]
    simp only [setMm, setSlot, update_of_ne hj]
  have hpos : ∀ j, j < 2 → 0 < dropAll
      (addAll (heldIn bootRefs [6145] parentLive vm) (range' 6158 2)) [6149, 6150] (6158 + j) := by
    intro j hj
    have hnot : [6149, 6150].count (6158 + j) = 0 := count_eq_zero_of_not_mem (by simp; omega)
    simp only [dropAll, addAll, count_range', hnot,
      if_pos (show 6158 ≤ 6158 + j ∧ 6158 + j < 6158 + 2 by omega)]
    omega
  obtain ⟨fr', hreap, htot', hc⟩ :=
    reap_newborn vm₁ (by rw [← hvm₁]; exact hcur ▸ by decide) hborn (by omega) hled hpos
  obtain ⟨held, hheld⟩ :
      ∃ held, dropAll (dropAll (addAll (heldIn bootRefs [6145] parentLive vm) (range' 6158 2))
      [6149, 6150]) (range' 6158 2) = held := ⟨_, rfl⟩
  rw [hheld] at hc
  have hval : ∀ f, held f = heldIn bootRefs [6145] parentLive vm f - [6149, 6150].count f := by
    intro f
    rw [← hheld]
    simp only [dropAll, addAll]
    omega
  have hone : (setSlot (setMm vm₁ (setFr vm₁.mm fr')) 3 emptySlot).procs 1 = vm.procs 1 := by
    exact hother 1 (by decide)
  have hmem : (setSlot (setMm vm₁ (setFr vm₁.mm fr')) 3 emptySlot).mm.mem = m := by
    rw [← hvm₁]
    rfl
  refine ⟨setSlot (setMm vm₁ (setFr vm₁.mm fr')) 3 emptySlot, held, ?_, ?_, ?_, ?_, hc, ?_, ?_,
    ?_, ?_, ?_, ?_⟩
  · have hstep :
      step vm (.fork true true) = some (setSlot (setMm vm₁ (setFr vm₁.mm fr')) 3 emptySlot) := by
      rw [step, if_pos (by rw [hcur]; exact hu), he, hreap]
    have happ := run_append step (bootVm starved) [.launch true, .fork true true] [.fork true true]
    rw [hr] at happ
    exact happ.trans (run_cons step hstep rfl)
  · rw [isUserProc, hone]
    exact hu
  · obtain ⟨v, hv, hpd⟩ := hinv.book.attached 1 0 (by decide) hspace
    rw [hone, hpd, ← Option.some.inj hv]
    rfl
  · obtain ⟨-, sp, hsp, hpd, -⟩ := hinv.book.known 0 parentView rfl
    exact ⟨sp, by rw [← hvm₁]; exact hsp, hpd⟩
  · rw [hmem]
    exact (hinv.sound.shared.mapped 0 parentView rfl).agree hfail.agree (by decide)
  · have hnot : [6149, 6150].count 4098 = 0 := by decide
    rw [hval]
    exact hpage
  · have hin : [6149, 6150].count 6149 = 1 := by decide
    rw [hval, hin, htab]
  · intro k hk
    have hnot : [6149, 6150].count k = 0 := count_eq_zero_of_not_mem (by simp; omega)
    rw [hval, hnot]
    exact (ht k).mpr (.inl (by omega))
  · refine htot'.trans ?_
    rw [← hvm₁]
    exact (hfail.total.trans hfr₁).trans htot
  · intro o ho
    rw [hmem, hfail.agree _ (by rw [show (4098 * 4096 + o) / 4096 = 4098 by omega]; decide)]
    exact hz o ho

/-- A failed fork costs the parent a part of its window: after one of its pages
is copied, a page of the window is closed to it. -/
theorem failed_clone_closes_window : ∃ vm sp, run step (bootVm starved) starvedRun = some vm ∧
    vm.spaces 0 = some sp ∧ userBase ≤ 33792 * 4096 ∧ 33792 * 4096 < userEnd ∧
    ring3 vm.mm.mem sp.pdPhys 33792 = false ∧ ¬ Isolated vm := by
  obtain ⟨vm, held, hr, hu, hpd, ⟨sp, hsp, hsppd⟩, hc, hm, hpage, htab, hlow, htot, hz⟩ :=
    starved_failure
  have hclosed := table_overwritten hc hm hpage htab hlow htot hz
  have hstep : step vm (.makeWritable 1 userBase) =
      some (setMm vm (mmUserMakeWritable vm.mm (6147 * 4096) userBase).2) := by
    rw [step, if_pos (by decide), onPd, if_pos hu, hpd]
  have happ := run_append step (bootVm starved) [.launch true, .fork true true,
    .fork true true] [.makeWritable 1 userBase]
  rw [hr] at happ
  have hring : ring3 (setMm vm (mmUserMakeWritable vm.mm (6147 * 4096) userBase).2).mm.mem sp.pdPhys
    33792 = false := by
    rw [hsppd]
    exact hclosed
  refine ⟨_, sp, happ.trans (run_cons step hstep rfl), hsp, by decide, by decide, hring,
    fun hiso => ?_⟩
  have hopen := ((hiso 0 sp hsp).access 33792 (by omega)).mpr ⟨by decide, by decide⟩
  cases hring.symm.trans hopen

end

end MuOS.Proc.Isolation
