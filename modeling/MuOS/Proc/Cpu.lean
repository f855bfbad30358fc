import MuOS.Proc.ProcOps

namespace MuOS.Proc.Cpu

open Function Lib Memory Paging Mm UserPd Views TableBuild Sharing SharingOps Space
open SpaceOps Invariant User.Window Option

variable {img : Nat → Nat → BitVec 8}

section

variable {m : Mem} {kpd va i : Nat} {v : View}

theorem grant_all (x : BitVec 32) (t : Nat) : x &&& (entry t 7#12 ||| 0xFFFFFFF8#32) = x := by
  have h7 : entry t 7#12 = entry t 0#12 ||| 7#32 := (entry_or t 0#12 7#12).symm
  have hall : 7#32 ||| 0xFFFFFFF8#32 = BitVec.allOnes 32 := by decide
  rw [h7, BitVec.or_assoc, hall, BitVec.or_allOnes, BitVec.and_allOnes]

theorem walk_window (h : Mapped m kpd v) (h1 : 32768 ≤ va / 4096) (h2 : va / 4096 < 35840) :
    walk m (v.pd * 4096) va =
      if isPresent (v.pte (va / 4096)) then some (v.pte (va / 4096)) else none := by
  have hdiv : va / 4194304 = va / 4096 / 1024 := by omega
  have hd : rdEntry m (v.pd * 4096) (va / 4096 / 1024) = entry
    (v.tab (va / 4096 / 1024 - 32)) 7#12 := by
    rw [h.dir _ (by omega), if_pos (by omega)]
  have hl := h.table_lt _ (Mapped.tab_mem v (by omega : va / 4096 / 1024 - 32 < 3))
  have hpr : isPresent (entry (v.tab (va / 4096 / 1024 - 32)) 7#12) = true :=
    present_perm (w := true)
  have hpte := h.rdPte_eq h1 h2
  simp only [View.pteAddr] at hpte
  simp only [walk, hdiv, hd, hpr, if_true, addrOf_entry hl, hpte, grant_all]

theorem walk_page (h : Mapped m kpd v) (hi : i < dataPages) (hva : va / 4096 = 32840 + i) :
    walk m (v.pd * 4096) va = some (entry (v.page i) (perm (v.rw i))) := by
  obtain ⟨h1, h2⟩ := page_covered hi
  rw [walk_window h (by omega) (by omega), hva, pte_page hi, present_perm, if_pos rfl]

end

variable {reserved : Nat → Prop} {kpd : Nat} {base : Nat → Nat} {vm : Vm} {lost : List Nat}
  {live live' : Nat → Option View} {id i va : Nat} {v : View}

section

variable (h : Inv reserved kpd base vm lost live)
include h

section

variable (hid : (vm.procs vm.current).space = some id) (hv : live id = some v) (hi : i < dataPages)
include hid hv hi

section

variable (hva : va / 4096 = 32840 + i)
include hva

theorem lookup_page : lookup vm.mm va = some (entry (v.page i) (perm (v.rw i))) := by
  cases ht : vm.mm.tlb (va / 4096) with
  | some e =>
    obtain ⟨k, w, j, hk, hw, hj, hp, rfl⟩ := h.running.cached _ e ht
    cases hk.symm.trans hid
    have hwv : w = v := some.inj (hw.symm.trans hv)
    subst hwv
    simp only [lookup, ht]
    rw [hva, pte_page hi]
  | none =>
    obtain ⟨w, hw, -, hcr⟩ := h.loaded_view hid
    have hwv : w = v := some.inj (hw.symm.trans hv)
    subst hwv
    simp only [lookup, ht, hcr, walk_page (h.sound.shared.mapped id w hv) hi hva]

theorem inv_fill :
    Inv reserved kpd base (setMm vm (fill vm.mm va (entry (v.page i) (perm (v.rw i)))))
    lost live := by
  refine ⟨⟨h.sound.dir, h.sound.aligned, h.sound.shared, h.sound.ledger⟩, h.kdir, h.strays,
    h.kstacks, h.book, h.running.current_lt, h.running.current_used, h.running.active,
    h.running.loaded, ?_⟩
  intro p e he
  by_cases hp : p = va / 4096
  · subst hp
    simp only [setMm, fill, update_self] at he
    exact ⟨id, v, i, hid, hv, hi, hva, by rw [hva, pte_page hi, some.inj he]⟩
  · simp only [setMm, fill, update_of_ne hp] at he
    exact h.running.cached p e he

theorem cpuLoad_page : cpuLoad vm.mm va = some (vm.mm.mem (v.page i * 4096 + va % 4096),
      fill vm.mm va (entry (v.page i) (perm (v.rw i)))) := by
  have hlt := (h.sound.shared.mapped id v hv).page_lt i hi
  simp only [cpuLoad, lookup_page h hid hv hi hva, user_perm, if_true, addrOf_entry hlt]

theorem cpuStore_page (b : BitVec 8) : cpuStore vm.mm va b = if v.rw i then
      some (setMem (fill vm.mm va (entry (v.page i) (perm (v.rw i))))
        (store vm.mm.mem (v.page i * 4096 + va % 4096) b)) else none := by
  have hlt := (h.sound.shared.mapped id v hv).page_lt i hi
  simp only [cpuStore, lookup_page h hid hv hi hva, user_perm, writable_perm, Bool.true_and,
    addrOf_entry hlt]

end

end

theorem inv_write {fs : List Nat} {m' : Mem} (ha : AgreeOff fs vm.mm.mem m') (hk : kpd ∉ fs)
    (hfs : ∀ f ∈ fs, ∀ k v, live k = some v → f ∉ v.tables) :
    Inv reserved kpd base (setMm vm (setMem vm.mm m')) lost live :=
  ⟨⟨h.sound.dir, h.sound.aligned, h.sound.shared.keep_tables ha hk hfs, h.sound.ledger⟩, h.kdir,
    h.strays, h.kstacks, h.book, h.running.current_lt, h.running.current_used, h.running.active,
    h.running.loaded, h.running.cached⟩

theorem page_not_table (hv : live id = some v) (hi : i < dataPages) :
    v.page i ≠ kpd ∧ ∀ k w, live k = some w → v.page i ∉ w.tables := by
  constructor
  · intro he
    have h0 := (h.sound.shared.data id v i hv hi).1
    have hp := h.sound.shared.kdir
    rw [he] at h0
    omega
  · intro k w hw hm
    exact h.sound.shared.page_ne_fixed hw hv (table_mem_fixed hm) (page_mem hi)

theorem tramp_not_table (hv : live id = some v) : v.tramp ≠ kpd ∧ ∀ k w, live k = some w →
    v.tramp ∉ w.tables := by
  constructor
  · rintro rfl
    exact h.sound.shared.kdir_not_fixed hv List.mem_cons_self
  intro k w hw hm
  by_cases hk : id = k
  · subst hk
    have hwv : w = v := some.inj (hw.symm.trans hv)
    subst hwv
    have h1 := (h.sound.shared.fixed id w w.tramp hv List.mem_cons_self).2.1
    have hle := MuOS.Lib.Tally.le_tally (h.sound.shared.live_lt id w hv) hv fun u => u.fixed.count w.tramp
    have hc := List.count_pos_iff.mpr hm
    have hcc : w.fixed.count w.tramp = w.tables.count w.tramp + 1 := List.count_cons_self
    simp only [fixedUse] at h1
    omega
  · exact h.sound.shared.fixed_disjoint hv hw hk List.mem_cons_self (table_mem_fixed hm)

end

theorem agree_store (m : Mem) (a : Nat) (b : BitVec 8) : AgreeOff [a / 4096] m (store m a b) := by
  intro x hx
  exact store_of_ne m b fun he => hx (he ▸ List.mem_singleton_self _)

def Shows (m : Mem) (live : Nat → Option View) (img : Nat → Nat → BitVec 8) : Prop :=
  ∀ k v i o, live k = some v → i < dataPages → o < 4096 →
    m (v.page i * 4096 + o) = img k (pageVa i + o)

theorem Shows.kept {s s' : Machine} (h : Shows s.mem live img)
    (hk : Kept s s' live live') : Shows s'.mem live' img := by
  intro k v' i o hv' hi ho
  cases hl : live k with
  | none => cases (hk.dom k hl).symm.trans hv'
  | some v =>
    obtain ⟨w, hw, -, -, hb⟩ := hk.view k v hl
    cases hw.symm.trans hv'
    rw [hb i o hi ho]
    exact h k v i o hl hi ho

def poke (img : Nat → Nat → BitVec 8) (k va : Nat) (b : BitVec 8) : Nat → Nat → BitVec 8 :=
  update img k (update (img k) va b)

section

variable (h : Inv reserved kpd base vm lost live)
include h

theorem shows_store (hv : live id = some v) (hi : i < dataPages) (hrw : v.rw i = true) {o : Nat}
    (ho : o < 4096) (hs : Shows vm.mm.mem live img) (b : BitVec 8) :
    Shows (store vm.mm.mem (v.page i * 4096 + o) b) live (poke img id (pageVa i + o) b) := by
  have h1 := h.sound.shared.excl id v i hv hi hrw
  intro k w j o' hw hj ho'
  by_cases hk : k = id
  · subst hk
    have hwv : w = v := some.inj (hw.symm.trans hv)
    subst hwv
    simp only [poke, update_self]
    by_cases he : pageVa j + o' = pageVa i + o
    · obtain ⟨rfl, rfl⟩ : j = i ∧ o' = o := by grind [pageVa]
      simp [store]
    have hne : w.page j * 4096 + o' ≠ w.page i * 4096 + o := by
      intro heq
      have hpg : w.page j = w.page i := by omega
      have hji := h.sound.shared.inj k w j i hv hj hi hpg
      subst hji
      exact he (by omega)
    rw [store_of_ne _ _ hne, update_of_ne he]
    exact hs k w j o' hw hj ho'
  · have hne : w.page j * 4096 + o' ≠ v.page i * 4096 + o := by
      intro heq
      have hpg : w.page j = v.page i := by omega
      exact hk (h.sound.shared.unique hw hv (hpg ▸ page_mem hj) (page_mem hi) h1)
    rw [store_of_ne _ _ hne, poke, update_of_ne hk]
    exact hs k w j o' hw hj ho'

section

variable (hid : (vm.procs vm.current).space = some id) (hv : live id = some v)
include hid hv

theorem store_writable (hi : i < dataPages) (hva : va / 4096 = 32840 + i) (hrw : v.rw i = true)
    (b : BitVec 8) :
    ∃ mm, cpuStore vm.mm va b = some mm ∧ Inv reserved kpd base (setMm vm mm) lost live ∧
      mm.cloneFailed = vm.mm.cloneFailed ∧ mm.oom = vm.mm.oom ∧ mm.fr = vm.mm.fr ∧
      ∀ img, Shows vm.mm.mem live img → Shows mm.mem live (poke img id va b) := by
  have hpage : (v.page i * 4096 + va % 4096) / 4096 = v.page i := by omega
  obtain ⟨hk, ht⟩ := page_not_table h hv hi
  have ha := agree_store vm.mm.mem (v.page i * 4096 + va % 4096) b
  rw [hpage] at ha
  have hfill := inv_fill h hid hv hi hva
  refine ⟨_, (cpuStore_page h hid hv hi hva b).trans (if_pos hrw), ?_, rfl, rfl, rfl, ?_⟩
  · refine inv_write hfill ha (by simpa using hk.symm) ?_
    intro f hf k w hw
    rw [List.mem_singleton.mp hf]
    exact ht k w hw
  · intro img hs
    have hpos : va = pageVa i + va % 4096 := by
      unfold pageVa userBase
      omega
    have hst := shows_store h hv hi hrw (Nat.mod_lt va (by omega)) hs b
    rw [← hpos] at hst
    exact hst

theorem isrHandler_eq (hcur : vm.current ≠ 0) (h1 : userBase ≤ va) (h2 : va < userSigtramp) :
    isrHandler vm va = ((mmUserMakeWritable vm.mm (v.pd * 4096) va).1,
      setMm vm (mmUserMakeWritable vm.mm (v.pd * 4096) va).2) := by
  obtain ⟨w, hw, hpd, -⟩ := h.loaded_view hid
  obtain rfl := some.inj (hw.symm.trans hv)
  have hpd0 := frame_ne_zero (h.sound.shared.mapped id w hv).pd_pos
  simp only [isrHandler, hpd]
  rw [if_pos ⟨h.running.active hcur, hpd0, h1, h2⟩]

end

end

theorem page_of_window (h1 : userBase ≤ va) (h2 : va < userSigtramp) : ∃ i, i < dataPages ∧
    va / 4096 = 32840 + i := by
  refine ⟨va / 4096 - 32840, ?_⟩
  unfold userBase at h1
  unfold userSigtramp at h2
  unfold dataPages
  omega

theorem userStore_spec [TableOps.WindowReserved reserved] (h : Inv reserved kpd base vm lost live)
    (hid : (vm.procs vm.current).space = some id) (hcur : vm.current ≠ 0) (h1 : userBase ≤ va)
    (h2 : va < userSigtramp) (b : BitVec 8) :
    ∃ mm live', userStore vm va b = setMm vm mm ∧ Inv reserved kpd base (setMm vm mm) lost live' ∧
      mm.cloneFailed = vm.mm.cloneFailed ∧ mm.fr.totalPages = vm.mm.fr.totalPages ∧
      (mm.oom = true ∨ ∀ img, Shows vm.mm.mem live img → Shows mm.mem live' (poke img id va b)) := by
  obtain ⟨v, hv, -, -⟩ := h.loaded_view hid
  obtain ⟨i, hi, hva⟩ := page_of_window h1 h2
  cases hrw : v.rw i with
  | true =>
    obtain ⟨mm, he, hinv, hc, -, hfr, hs⟩ := store_writable h hid hv hi hva hrw b
    refine ⟨mm, live, ?_, hinv, hc, by rw [hfr], .inr hs⟩
    simp only [userStore, he]
  | false =>
    have hnone : cpuStore vm.mm va b = none := by
      rw [cpuStore_page h hid hv hi hva b, if_neg (by simp [hrw])]
    have hisr := isrHandler_eq h hid hv hcur h1 h2
    obtain ⟨v', hpd', hs, hk, hok, hno⟩ := h.sound.makePage hv va hi hva
    obtain ⟨s', hs'⟩ : ∃ s', (mmUserMakeWritable vm.mm (v.pd * 4096) va).2 = s' := ⟨_, rfl⟩
    rw [hs'] at hs hk hok hno hisr
    have hinv := h.kept hs hk
    cases hr : (mmUserMakeWritable vm.mm (v.pd * 4096) va).1 with
    | false =>
      refine ⟨s', _, ?_, hinv, hk.cloneFailed, hk.total, .inl (hno hr)⟩
      simp only [userStore, hnone, hisr, hr]
      rfl
    | true =>
      obtain ⟨mm, he, hinv', hc, -, hfr, hs''⟩ :=
        store_writable hinv hid (update_self ..) hi hva (hok hr).2 b
      have htot : mm.fr.totalPages = vm.mm.fr.totalPages := by
        rw [hfr]
        exact hk.total
      refine ⟨mm, _, ?_, hinv', hc.trans hk.cloneFailed, htot, .inr fun img hsh => hs'' img (hsh.kept hk)⟩
      simp only [userStore, hnone, hisr, hr, if_true]
      rw [he]
      rfl

end MuOS.Proc.Cpu
