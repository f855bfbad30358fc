import MuOS.Mm.TableBuild

namespace MuOS.Mm.TableOps

open Function Lib Memory Paging Frames Ledger Grants UserPd Views TableBuild List

variable {s : Machine} {held : Nat → Nat} {reserved : Nat → Prop} {kpd : Nat} {v : View} {m : Mem}

section

variable (s : Machine) (pd : Nat)

@[simp] theorem refresh_fr : (refresh s pd).fr = s.fr := by
  unfold refresh
  split <;> rfl

@[simp] theorem refresh_mem : (refresh s pd).mem = s.mem := by
  unfold refresh
  split <;> rfl

@[simp] theorem refresh_pageDirPhys : (refresh s pd).pageDirPhys = s.pageDirPhys := by
  unfold refresh
  split <;> rfl

@[simp] theorem refresh_oom : (refresh s pd).oom = s.oom := by
  unfold refresh
  split <;> rfl

@[simp] theorem refresh_cloneFailed : (refresh s pd).cloneFailed = s.cloneFailed := by
  unfold refresh
  split <;> rfl

theorem refresh_cr3 {s : Machine} {pd : Nat} (hc : s.cr3 % 4096 = 0) (hp : 0 < pd) :
    (refresh s pd).cr3 = s.cr3 := by
  unfold refresh mmGetCurrentPd
  split
  · simp only [mmSwitchPd]
    rw [if_neg (by omega)]
    omega
  · rfl

theorem refresh_tlb {s : Machine} (hc : s.cr3 % 4096 = 0) (pd p : Nat) (e : BitVec 32)
    (h : (refresh s pd).tlb p = some e) : s.cr3 ≠ pd ∧ s.tlb p = some e := by
  unfold refresh mmGetCurrentPd at h
  split at h
  · simp [mmSwitchPd] at h
  · exact ⟨by omega, h⟩

end

theorem agree_pte (m : Mem) (v : View) {p : Nat} (e : BitVec 32) (h1 : 32768 ≤ p) (h2 : p < 35840) :
    AgreeOff v.tables m (wr32 m (v.pteAddr p) e) := by
  have hm := Mapped.tab_mem v (by omega : p / 1024 - 32 < 3)
  refine (agree_wrEntry m (v.tab (p / 1024 - 32)) e (Nat.mod_lt p (by omega : 0 < 1024))).mono ?_
  exact fun x hx => mem_singleton.mp hx ▸ hm

/-- The frames that the window hides are kept from use. -/
class WindowReserved (reserved : Nat → Prop) : Prop where
  out : ∀ f, 32768 ≤ f → f < 35840 → reserved f

theorem kernelSees_frame [hw : WindowReserved reserved] (s : Machine) (w : Bool) {f : Nat}
    (hf : ¬ reserved f) : kernelSees s w (f * 4096) = f * 4096 := by
  refine if_neg fun h => hf (hw.out f ?_ ?_)
  all_goals
    have hm := h.2
    simp only [windowPdes, mem_cons, not_mem_nil, or_false] at hm
    omega

theorem makeWritable_eq {va p f : Nat} {w : Bool} (hv : Mapped s.mem kpd v) (hp : va / 4096 = p)
    (h1 : 32768 ≤ p) (h2 : p < 35840) (hpte : v.pte p = entry f (perm w)) (hf : f < 1048576) :
    mmUserMakeWritable s (v.pd * 4096) va =
      if w then (true, s)
      else if 1 < s.fr.frameRefs f then
        let r := allocPage s
        let dst := kernelSees r.2 true r.1
        let src := kernelSees r.2 false (f * 4096)
        if r.1 = 0 ∨ dst = 0 ∨ src = 0 then (false, r.2)
        else (true, refresh (setFr (setMem r.2 (wr32 (copyPage r.2.mem dst src) (v.pteAddr p)
          (BitVec.ofNat 32 r.1 ||| flagsOf (entry f (perm false)) ||| 2#32))) (pageUnref r.2.fr f))
          (v.pd * 4096))
      else (true, refresh (setMem s (wr32 s.mem (v.pteAddr p) (entry f (perm true)))) (v.pd * 4096)) := by
  have hdiv : f * 4096 / 4096 = f := by omega
  simp only [mmUserMakeWritable, hv.userPte_eq hp h1 h2, hv.rdPte_eq h1 h2, hpte, present_perm,
    Bool.true_eq_false, if_false, writable_perm, addrOf_entry hf, hdiv]
  cases w with
  | true => rfl
  | false =>
    simp only [Bool.false_eq_true, if_false, entry_unprotect]
    rfl

theorem makeWritable_cases [WindowReserved reserved] {va p f : Nat} {w : Bool}
    (h : Consistent s.fr held reserved) (hv : Mapped s.mem kpd v) (hp : va / 4096 = p)
    (h1 : 32768 ≤ p) (h2 : p < 35840) (hpte : v.pte p = entry f (perm w)) (hf : f < 1048576)
    (hheld : 0 < held f) : (w = true ∧ mmUserMakeWritable s (v.pd * 4096) va = (true, s)) ∨
    (w = false ∧ held f = 1 ∧ mmUserMakeWritable s (v.pd * 4096) va =
      (true, refresh (setMem s (wr32 s.mem (v.pteAddr p) (entry f (perm true)))) (v.pd * 4096))) ∨
    (w = false ∧ 1 < held f ∧ mmUserMakeWritable s (v.pd * 4096) va = (false, setOom s) ∧
      ∀ g, g < s.fr.totalPages → 0 < held g ∨ reserved g) ∨
    (w = false ∧ 1 < held f ∧ ∃ g fr, mmUserMakeWritable s (v.pd * 4096) va =
        (true, refresh (setFr (setMem s (wr32 (copyPage s.mem (g * 4096) (f * 4096)) (v.pteAddr p)
          (entry g (perm true)))) (pageUnref fr f)) (v.pd * 4096)) ∧
      Fresh held reserved g ∧ fr.totalPages = s.fr.totalPages ∧
        Consistent fr (addAll held [g]) reserved) := by
  have hrefs := h.refs_eq f (h.held_lt f hheld)
  have hold : ¬ reserved f := fun hr => hheld.ne' (h.held_reserved f hr)
  have hpos : 0 < f := Nat.pos_of_ne_zero fun h0 => hold (h0 ▸ h.zero_reserved)
  rw [makeWritable_eq hv hp h1 h2 hpte hf, hrefs]
  cases w with
  | true => exact .inl ⟨rfl, rfl⟩
  | false =>
    rw [if_neg Bool.false_ne_true]
    by_cases hone : 1 < held f
    · rw [if_pos hone]
      obtain ⟨he, hall⟩ | ⟨g, fr, he, hg, ht, hc⟩ := alloc_cases h
      · refine .inr (.inr (.inl ⟨rfl, hone, ?_, hall⟩))
        rw [he]
        rfl
      have hne : ¬ g * 4096 = 0 := frame_ne_zero hg.pos
      refine .inr (.inr (.inr ⟨rfl, hone, g, fr, ?_, hg, ht, hc⟩))
      simp only [he, kernelSees_frame _ _ hg.unreserved, kernelSees_frame _ _ hold, hne,
        frame_ne_zero hpos, or_self, if_false]
      rw [entry_retarget hg.lt, entry_unprotect]
      rfl
    · refine .inr (.inl ⟨rfl, by omega, ?_⟩)
      rw [if_neg hone]

def protect (v : View) (n : Nat) : View := { v with rw := fun i => if i < n then false else v.rw i }

theorem protect_succ (v : View) (n : Nat) :
    protect v (n + 1) = (protect v n).setPage n (v.page n) false := by
  have hr : (fun i => if i < n + 1 then false else v.rw i) =
      update (fun i => if i < n then false else v.rw i) n false := by
    funext i
    by_cases hi : i = n
    · subst hi; simp
    have hc : i < n + 1 ↔ i < n := by omega
    simp [hi, hc]
  have hp : v.page = update v.page n (v.page n) := (update_eq_self n v.page).symm
  simp only [protect, View.setPage, hr]
  rw [← hp]

theorem protectPage_eq (hv : Mapped m kpd v) {i : Nat} (hi : i < dataPages) :
    protectPage m (v.pd * 4096) (pageVa i) = wr32 m (v.pteAddr (32840 + i))
    (entry (v.page i) (perm false)) := by
  obtain ⟨h1, h2⟩ := page_covered hi
  have hva : pageVa i / 4096 = 32840 + i := pageVa_div i (o := 0) (by omega)
  simp only [protectPage, hv.userPte_eq hva h1 h2, hv.rdPte_eq h1 h2, pte_page hi, present_perm,
    if_true, entry_protect]

theorem protectPages_spec (hv : Mapped m kpd v) (n : Nat) (hn : n ≤ dataPages) :
    Mapped ((List.range n).foldl (fun m i => protectPage m (v.pd * 4096) (pageVa i)) m) kpd
      (protect v n) ∧ AgreeOff v.tables m
      ((List.range n).foldl (fun m i => protectPage m (v.pd * 4096) (pageVa i)) m) := by
  induction n with
  | zero => exact ⟨hv, AgreeOff.refl _ _⟩
  | succ n ih =>
    obtain ⟨hm, ha⟩ := ih (by omega)
    have hlt : n < dataPages := by omega
    obtain ⟨h1, h2⟩ := page_covered hlt
    have hpp : protectPage _ (v.pd * 4096) (pageVa n) = _ := protectPage_eq hm hlt
    rw [range_succ, foldl_append, foldl_cons, hpp]
    constructor
    · rw [protect_succ]
      refine hm.setPte h1 h2 rfl rfl hv.tramp_lt ?_ (setPage_pte hlt)
      intro i hi
      by_cases he : i = n
      · subst he
        simpa [View.setPage] using hv.page_lt i hi
      · simpa [View.setPage, he] using hm.page_lt i hi
    · exact ha.trans (agree_pte _ (protect v n) _ h1 h2)

theorem writeProtect_spec (hv : Mapped s.mem kpd v) :
    ∃ m, mmUserWriteProtect s (v.pd * 4096) = refresh (setMem s m) (v.pd * 4096) ∧
      Mapped m kpd (protect v dataPages) ∧ AgreeOff v.tables s.mem m := by
  have hne : ¬ v.pd * 4096 = 0 := by
    have hp := hv.pd_pos
    omega
  obtain ⟨hm, ha⟩ := protectPages_spec hv dataPages (Nat.le_refl _)
  refine ⟨_, ?_, hm, ha⟩
  rw [mmUserWriteProtect, if_neg hne]

theorem releasePages_eq (hv : Mapped s.mem kpd v) :
    mmUserReleasePages s (v.pd * 4096) = setFr s (v.pages.foldl pageUnref s.fr) := by
  have hne : ¬ v.pd * 4096 = 0 := by
    have hp := hv.pd_pos
    omega
  have hstep : ∀ fr i, i ∈ range dataPages →
      releasePage s.mem (v.pd * 4096) fr (pageVa i) = pageUnref fr (v.page i) := by
    intro fr i hi
    have hlt := mem_range.mp hi
    obtain ⟨h1, h2⟩ := page_covered hlt
    have hva : pageVa i / 4096 = 32840 + i := pageVa_div i (o := 0) (by omega)
    have hd : v.page i * 4096 / 4096 = v.page i := by omega
    simp only [releasePage, hv.userPte_eq hva h1 h2, hv.rdPte_eq h1 h2, pte_page hlt, present_perm,
      if_true, addrOf_entry (hv.page_lt i hlt), hd]
  rw [mmUserReleasePages, if_neg hne, View.pages, foldl_map, foldl_ext _ _ _ hstep]

end MuOS.Mm.TableOps
