import MuOS.Proc.Cpu

namespace MuOS.Proc.ProcSteps

open Function Lib Memory Paging Patches Mm UserPd Views TableBuild Sharing Space SpaceOps Invariant
  Cpu User.Window List

def Full (vm : Vm) : Prop :=
  ∀ i, i ≠ 0 → i < procMax → (vm.procs i).used = true → ∃ id, (vm.procs i).space = some id

/-- Bytes stored from one pointer are found at consecutive addresses. -/
def Straight (vm : Vm) (i va off len : Nat) : Prop :=
  (procUserPtr vm i va).1 = 0 ∨ ∀ k, k < len → va + off + k < userEnd ∧
    mmUserTranslate (procUserPtr vm i va).2.mm.mem (vm.procs i).pdPhys (va + off + k) =
      (procUserPtr vm i va).1 + off + k

def wakesStraight (vm : Vm) : Act → Prop
  | .wake i va off bytes => Straight vm i va off bytes.length
  | _ => True

variable {reserved : Nat → Prop} {kpd : Nat} {base : Nat → Nat} {vm vm' : Vm} {lost : List Nat}
  {live : Nat → Option View} {id i va : Nat} {v : View} {m : Mem}

theorem isUserProc_iff : isUserProc vm i = true ↔ i ≠ 0 ∧ i < procMax ∧
    (vm.procs i).used = true := by
  simp only [isUserProc, Bool.and_eq_true, decide_eq_true_eq, Nat.pos_iff_ne_zero, and_assoc]

theorem user_view (h : Inv reserved kpd base vm lost live) (hf : Full vm)
    (hu : isUserProc vm i = true) : ∃ id v, (vm.procs i).space = some id ∧ live id = some v ∧
    (vm.procs i).pdPhys = v.pd * 4096 := by
  obtain ⟨h0, hi, hused⟩ := isUserProc_iff.mp hu
  obtain ⟨id, hid⟩ := hf i h0 hi hused
  obtain ⟨v, hv, hpd⟩ := h.book.attached i id hi hid
  exact ⟨id, v, hid, hv, hpd⟩

theorem space_view (h : Inv reserved kpd base vm lost live) {sp : ProcSpace}
    (hs : vm.spaces id = some sp) : ∃ v, live id = some v ∧ sp.pdPhys = v.pd * 4096 ∧
    sp.trampPhys = v.tramp * 4096 := by
  cases hl : live id with
  | none => cases (h.book.gone id hl).symm.trans hs
  | some v =>
    obtain ⟨-, sp', hsp, hpd, htr, -⟩ := h.book.known id v hl
    cases hsp.symm.trans hs
    exact ⟨v, rfl, hpd, htr⟩

theorem translate_tramp (h : Mapped m kpd v) (hva : va / 4096 = 34887) :
    mmUserTranslate m (v.pd * 4096) va = v.tramp * 4096 + va % 4096 := by
  simp only [mmUserTranslate, h.userPte_eq hva (by omega) (by omega), h.rdPte_eq (p := 34887)
    (by omega) (by omega), pte_tramp, present_perm, if_true, addrOf_entry h.tramp_lt]

theorem translate_data (h : Mapped m kpd v) (hi : i < dataPages) (hva : va / 4096 = 32840 + i) :
    mmUserTranslate m (v.pd * 4096) va = v.page i * 4096 + va % 4096 := by
  have ht := h.translate_page hi (Nat.mod_lt va (by omega))
  have hpos : pageVa i + va % 4096 = va := by
    unfold pageVa userBase
    omega
  rwa [hpos] at ht

theorem translate_frame (h : Mapped m kpd v) (h1 : userBase ≤ va) (h2 : va < userEnd) :
    mmUserTranslate m (v.pd * 4096) va / 4096 ∈ v.tramp :: v.pages := by
  unfold userBase at h1
  unfold userEnd at h2
  by_cases ht : va / 4096 = 34887
  · rw [translate_tramp h ht, show (v.tramp * 4096 + va % 4096) / 4096 = v.tramp by omega]
    exact mem_cons_self
  have hi : va / 4096 - 32840 < dataPages := by
    unfold dataPages
    omega
  rw [translate_data h hi (by omega), show (v.page (va / 4096 - 32840) * 4096 + va % 4096) / 4096 =
    v.page (va / 4096 - 32840) by omega]
  exact mem_cons_of_mem _ (page_mem hi)

section

variable (h : Inv reserved kpd base vm lost live) (hv : live id = some v)
include h hv

theorem inv_tables : kpd ∉ v.tramp :: v.pages ∧ ∀ f ∈ v.tramp :: v.pages, ∀ k w, live k = some w →
    f ∉ w.tables := by
  constructor
  · intro hm
    cases mem_cons.mp hm with
    | inl he => exact (tramp_not_table h hv).1 he.symm
    | inr hm =>
      obtain ⟨i, hi, he⟩ := mem_pages.mp hm
      exact (page_not_table h hv hi).1 he
  · intro f hm
    cases mem_cons.mp hm with
    | inl he =>
      rw [he]
      exact (tramp_not_table h hv).2
    | inr hm =>
      obtain ⟨i, hi, rfl⟩ := mem_pages.mp hm
      exact (page_not_table h hv hi).2

theorem wakeWrite_spec [TableOps.WindowReserved reserved] (hpd : (vm.procs i).pdPhys = v.pd * 4096)
    (off : Nat) (bytes : List (BitVec 8)) (hst : Straight vm i va off bytes.length) : ∃ mm live',
      wakeWrite vm i va off bytes = setMm vm mm ∧ Inv reserved kpd base (setMm vm mm) lost live' ∧
      mm.cloneFailed = vm.mm.cloneFailed ∧ mm.fr.totalPages = vm.mm.fr.totalPages := by
  by_cases hrange : va < userBase ∨ userEnd ≤ va
  · have hp : procUserPtr vm i va = (0, vm) := by simp only [procUserPtr, hrange, if_true]
    refine ⟨vm.mm, live, ?_, h, rfl, rfl⟩
    simp only [wakeWrite, hp, if_true]
    rfl
  obtain ⟨v', hpd', hs, hk, -, -⟩ :=
    h.sound.makeWritable hv (show userBase ≤ va by omega) (by omega)
  obtain ⟨s, hseq⟩ : ∃ s, (mmUserMakeWritable vm.mm (v.pd * 4096) va).2 = s := ⟨_, rfl⟩
  have hne := frame_ne_zero (h.sound.shared.mapped id v hv).pd_pos
  have hp : procUserPtr vm i va = (mmUserTranslate s.mem (v.pd * 4096) va, setMm vm s) := by
    simp only [procUserPtr, hrange, if_false, hpd, hne, ne_eq, not_false_eq_true, if_true, hseq]
  rw [hseq] at hs hk
  have hinv := h.kept hs hk
  have hmap := hs.shared.mapped id v' (update_self ..)
  rw [Straight, hp, hpd, ← hpd'] at hst
  by_cases h0 : mmUserTranslate s.mem (v.pd * 4096) va = 0
  · refine ⟨s, _, ?_, hinv, hk.cloneFailed, hk.total⟩
    simp only [wakeWrite, hp, h0, if_true]
  obtain ⟨hkd, htab⟩ := inv_tables hinv (update_self id (some v') live)
  have ha : AgreeOff (v'.tramp :: v'.pages) s.mem (patch s.mem
      (mmUserTranslate s.mem (v.pd * 4096) va + off) bytes.length fun k => bytes.getD k 0#8) := by
    intro a ha
    apply patch_outside
    by_contra hin
    have hstr := hst.resolve_left (by rw [hpd']; exact h0)
    obtain ⟨k, hk'⟩ :=
      Nat.exists_eq_add_of_le (show mmUserTranslate s.mem (v.pd * 4096) va + off ≤ a by omega)
    obtain ⟨hlt, htr⟩ := hstr k (by omega)
    have htr' : mmUserTranslate s.mem (v'.pd * 4096) (va + off + k) = mmUserTranslate s.mem
      (v'.pd * 4096) va + off + k := htr
    have hf := translate_frame hmap (by omega) hlt
    rw [htr', hpd', ← hk'] at hf
    exact ha hf
  refine ⟨_, update live id (some v'), ?_, inv_write hinv ha hkd htab, hk.cloneFailed, hk.total⟩
  simp only [wakeWrite, hp, h0, if_false]
  rfl

end

end MuOS.Proc.ProcSteps
