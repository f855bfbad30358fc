import MuOS.Proc.Boot

namespace MuOS.Proc.Stores

open Function Lib Memory Paging Runs Mm Frames Grants UserPd Views TableOps
open Space Invariant Cpu ProcRuns Boot User.Window

variable {reserved : Nat → Prop} {kpd : Nat} {base : Nat → Nat} {vm vm' : Vm} {lost : List Nat}
  {live : Nat → Option View} {id va ptr len : Nat} {v : View} {i : Nat}

/-- A store by the kernel; with CR0.WP a read-only page faults. -/
def kernelStore (s : Machine) (va : Nat) (b : BitVec 8) : Option Machine :=
  match lookup s va with
  | none => none
  | some e => if isWritable e then
    some (setMem (fill s va e) (store s.mem (addrOf e + va % 4096) b)) else none

/-- A system call's store; an unresolved fault halts, `none`. -/
def storeUser (vm : Vm) (va : Nat) (b : BitVec 8) : Option Vm :=
  match kernelStore vm.mm va b with
  | some mm => some (setMm vm mm)
  | none =>
    let r := isrHandler vm va
    if r.1 then (kernelStore r.2.mm va b).map (setMm r.2) else none

/-- The page is writable, or below the trampoline and its owner's alone or copyable. -/
def Resolvable (vm : Vm) (va : Nat) : Prop :=
  ∃ e, lookup vm.mm va = some e ∧ (isWritable e = true ∨ va < userSigtramp ∧
    (vm.mm.fr.frameRefs (addrOf e / 4096) ≤ 1 ∨ ∃ f, f < vm.mm.fr.totalPages ∧
    bitmapTest vm.mm.fr f = false))

section

variable (h : Inv reserved kpd base vm lost live)
include h

section

variable (hid : (vm.procs vm.current).space = some id) (hv : live id = some v)
include hid hv

theorem lookup_tramp (hva : va / 4096 = 34887) :
    lookup vm.mm va = some (entry v.tramp (perm v.trampRw)) := by
  cases ht : vm.mm.tlb (va / 4096) with
  | some e =>
    obtain ⟨-, -, j, -, -, hj, hp, -⟩ := h.running.cached _ e ht
    unfold dataPages at hj
    omega
  | none =>
    obtain ⟨w, hw, -, hcr⟩ := h.loaded_view hid
    obtain rfl := Option.some.inj (hw.symm.trans hv)
    simp only [lookup, ht, hcr]
    rw [walk_window (h.sound.shared.mapped id w hv) (by omega) (by omega), hva, pte_tramp,
      present_perm, if_pos rfl]

theorem kernelStore_page (hi : i < dataPages)
    (hva : va / 4096 = 32840 + i) (b : BitVec 8) :
    kernelStore vm.mm va b = cpuStore vm.mm va b := by
  simp only [kernelStore, cpuStore, lookup_page h hid hv hi hva, user_perm, Bool.true_and]

end

theorem makes_writable_iff [WindowReserved reserved] (hv : live id = some v)
    (hi : i < dataPages) (hva : va / 4096 = 32840 + i) (hrw : v.rw i = false) :
    (mmUserMakeWritable vm.mm (v.pd * 4096) va).1 = true ↔ vm.mm.fr.frameRefs (v.page i) ≤ 1 ∨
      ∃ f, f < vm.mm.fr.totalPages ∧ bitmapTest vm.mm.fr f = false := by
  have hled := h.sound.ledger
  have hm := h.sound.shared.mapped id v hv
  obtain ⟨h1, h2⟩ := page_covered hi
  obtain ⟨hheld, hpos⟩ := h.sound.held_page hv hi
  have hrefs := hled.refs_eq _ (hled.held_lt (v.page i) (by omega))
  obtain ⟨hw, -⟩ | ⟨-, hone, he⟩ | ⟨-, hmany, he, hall⟩ | ⟨-, -, g, fr, he, hg, htot, hc⟩ :=
    makeWritable_cases hled hm hva h1 h2 (pte_page hi) (hm.page_lt i hi) (by omega)
  · cases hrw.symm.trans hw
  · rw [he]
    exact iff_of_true rfl (.inl (by omega))
  · rw [he]
    refine iff_of_false (by simp) ?_
    rintro (hle | ⟨f, hlt, hb⟩)
    · omega
    · exact absurd ((hled.used_iff f hlt).mpr (hall f hlt)) (by simp [hb])
  · rw [he]
    have hlt : g < vm.mm.fr.totalPages := htot ▸ hc.held_lt g (by simp [addAll])
    refine iff_of_true rfl (.inr ⟨g, hlt, Bool.eq_false_iff.mpr fun hb => ?_⟩)
    exact ((hled.used_iff g hlt).mp hb).elim (fun hp => Nat.ne_of_gt hp hg.unheld) hg.unreserved

theorem storeUser_iff [WindowReserved reserved] (hid : (vm.procs vm.current).space = some id)
    (hcur : vm.current ≠ 0) (h1 : userBase ≤ va) (h2 : va < userEnd) (b : BitVec 8) :
    (storeUser vm va b).isSome = true ↔ Resolvable vm va := by
  obtain ⟨v, hv, -, -⟩ := h.loaded_view hid
  have hm := h.sound.shared.mapped id v hv
  by_cases hs : va < userSigtramp
  · obtain ⟨i, hi, hva⟩ := page_of_window h1 hs
    have hlook := lookup_page h hid hv hi hva
    have hres : Resolvable vm va ↔ v.rw i = true ∨ vm.mm.fr.frameRefs (v.page i) ≤ 1 ∨
        ∃ f, f < vm.mm.fr.totalPages ∧ bitmapTest vm.mm.fr f = false := by
      simp [Resolvable, hlook, hs, addrOf_entry (hm.page_lt i hi)]
    cases hrw : v.rw i with
    | true =>
      obtain ⟨mm, he, -⟩ := store_writable h hid hv hi hva hrw b
      simp [storeUser, kernelStore_page h hid hv hi hva, he, hres, hrw]
    | false =>
      have hnone : kernelStore vm.mm va b = none := by
        rw [kernelStore_page h hid hv hi hva, cpuStore_page h hid hv hi hva b, if_neg (by simp [hrw])]
      obtain ⟨v', -, hsound, hk, hok, -⟩ := h.sound.makePage hv va hi hva
      have hinv := h.kept hsound hk
      simp only [hres, hrw, Bool.false_eq_true, false_or, ← makes_writable_iff h hv hi hva hrw]
      simp only [storeUser, hnone, isrHandler_eq h hid hv hcur h1 hs]
      cases hr : (mmUserMakeWritable vm.mm (v.pd * 4096) va).1 with
      | false => simp
      | true =>
        obtain ⟨mm, he, -⟩ := store_writable hinv hid (update_self ..) hi hva (hok hr).2 b
        have hstore := (kernelStore_page hinv hid (update_self ..) hi hva b).trans he
        simp only [setMm] at hstore
        simp [setMm, hstore]
  · have hva : va / 4096 = 34887 := by
      unfold userSigtramp at hs
      unfold userEnd at h2
      omega
    have hlook := lookup_tramp h hid hv hva
    cases hrw : v.trampRw <;> simp [storeUser, kernelStore, isrHandler, Resolvable, hlook, hs, hrw]

end

/-- A store of the kernel through a pointer that `user_ptr_ok` accepted goes
through just when its page can be made writable. -/
theorem kernel_store_resolved_iff (hidle : Idle reserved kpd base vm) {acts : List Act}
    (hm : Meets step Orderly vm acts) (hr : run step vm acts = some vm')
    (hu : isUserProc vm' vm'.current = true) (hp : userPtrOk ptr len = true) (h1 : ptr ≤ va)
    (h2 : va < ptr + len) (b : BitVec 8) : (storeUser vm' va b).isSome = true ↔
    Resolvable vm' va := by
  have := hidle.window
  obtain ⟨lost, live, hi, hfull, -⟩ :=
    run_inv hidle.inv hidle.full (hm.mono fun _ _ ho => ho.tame) hr
  simp only [isUserProc, Bool.and_eq_true, decide_eq_true_eq] at hu
  obtain ⟨id, hid⟩ := hfull _ (Nat.ne_of_gt hu.1.1) hu.1.2 hu.2
  obtain ⟨hlo, hhi⟩ := userPtrOk_iff.mp hp
  exact storeUser_iff hi hid (Nat.ne_of_gt hu.1.1) (hlo.trans h1) (by omega) b

theorem roomy_begun : ∃ vm, run step (bootVm roomy) [.launch true] = some vm ∧
    Meets step Orderly (bootVm roomy) [.launch true] ∧
    Begun roomy vm (fun f => f < 6151 ∨ 32768 ≤ f) := by
  obtain ⟨vm, hb⟩ := below_launch (show 6151 ≤ 32768 by omega)
  refine ⟨vm, ?_, ⟨sampleRun_calm.1.1.orderly, fun _ _ => trivial⟩, hb⟩
  rw [← hb.launched]
  rfl

theorem kernel_store_base : ∃ vm, run step (bootVm roomy) [.launch true] = some vm ∧
    ((storeUser vm userBase 1#8).isSome = true ↔ Resolvable vm userBase) := by
  obtain ⟨vm, hr, hm, hb⟩ := roomy_begun
  exact ⟨vm, hr, kernel_store_resolved_iff roomy_idle hm hr hb.user
    (show userPtrOk userBase 4 = true by decide) le_rfl (by decide) 1#8⟩

/-- The trampoline page is in the range that `user_ptr_ok` accepts, and a store
to it halts the machine. -/
theorem trampoline_store_halts : ∃ vm, run step (bootVm roomy) [.launch true] = some vm ∧
    isUserProc vm vm.current = true ∧ userPtrOk userSigtramp 4 = true ∧
    storeUser vm userSigtramp 1#8 = none := by
  obtain ⟨vm, hr, -, hb⟩ := roomy_begun
  have hlook :=
    lookup_tramp hb.inv hb.space (update_self ..) (show userSigtramp / 4096 = 34887 by decide)
  have hro : firstView.trampRw = false := rfl
  refine ⟨vm, hr, hb.user, by decide, ?_⟩
  simp [storeUser, kernelStore, isrHandler, hlook, hro]

end MuOS.Proc.Stores
