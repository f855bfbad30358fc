import Mathlib.Data.List.GetD
import MuOS.Mm.TableBuild

namespace MuOS.Mm.TableClone

open Lib Memory Paging Frames Ledger FrameOps Grants UserPd Views TableBuild List

variable {s : Machine} {held : Nat → Nat} {reserved : Nat → Prop}

/-- A directory under cloning: `ts` copy the first tables of `v`. -/
structure Cloning (m₀ : Mem) (held : Nat → Nat) (reserved : Nat → Prop) (kpd : Nat) (v : View)
    (pd : Nat) (ts : List Nat) (fr : Allocator) (m : Mem) : Prop where
  takes : Takes reserved held (pd :: ts)
  ledger : Consistent fr (addAll held (pd :: ts)) reserved
  agree : AgreeOff (pd :: ts) m₀ m
  dir : ∀ j, j < 1024 → rdEntry m (pd * 4096) j =
    if 32 ≤ j ∧ j < 35 then entry (ts.getD (j - 32) (v.tab (j - 32))) 7#12 else rdEntry m₀ (kpd * 4096) j
  ent : ∀ k t j, ts[k]? = some t → j < 1024 → rdEntry m (t * 4096) j = v.pte (1024 * (32 + k) + j)

def clonedView (v : View) (pd : Nat) (ts : List Nat) (tramp : Nat) : View :=
  { v with pd := pd, tab := fun k => ts.getD k 0, tramp := tramp, trampRw := false }

namespace Cloning

variable {m₀ m : Mem} {kpd pd : Nat} {v : View} {ts : List Nat} {fr : Allocator}

theorem start (hv : Mapped m kpd v) (hheld : ∀ f ∈ kpd :: v.tables, 0 < held f)
    (hf : Fresh held reserved pd) (hc : Consistent fr (addAll held [pd]) reserved) :
    Cloning m held reserved kpd v pd [] fr (copyTable m (pd * 4096) (v.pd * 4096)) := by
  have hne : pd ≠ v.pd := by
    rintro rfl
    have h0 := hf.unheld
    have h1 := hheld v.pd (by simp [View.tables])
    omega
  refine ⟨⟨hf, trivial⟩, hc, agree_copyTable m hne, ?_, ?_⟩
  · intro j hj
    rw [rdEntry_copyTable m hne hj, hv.dir j hj]
    rfl
  · intro k t j ht
    simp at ht

theorem next (h : Cloning m₀ held reserved kpd v pd ts fr m) (hv : Mapped m₀ kpd v)
    (hheld : ∀ f ∈ kpd :: v.tables, 0 < held f) {f : Nat} {fr' : Allocator} (hlen : ts.length < 3)
    (hf : Fresh (addAll held (pd :: ts)) reserved f)
    (hc : Consistent fr' (addAll (addAll held (pd :: ts)) [f]) reserved) :
    Cloning m₀ held reserved kpd v pd (ts ++ [f]) fr'
      (wrEntry (copyTable m (f * 4096) (v.tab ts.length * 4096)) (pd * 4096) (32 + ts.length)
      (entry f 7#12)) := by
  have htakes : Takes reserved held (pd :: ts ++ [f]) := h.takes.append ⟨hf, trivial⟩
  have hsrc : v.tab ts.length ∉ pd :: ts ++ [f] :=
    not_mem_of_held htakes (hheld _ (mem_cons_of_mem _ (Mapped.tab_mem v hlen)))
  have hfsrc : f ≠ v.tab ts.length := fun he => hsrc (he ▸ mem_append_right _ mem_cons_self)
  have hfpd : pd ≠ f :=
    fun he => (nodup_cons.mp htakes.nodup).1 (he ▸ mem_append_right _ mem_cons_self)
  have ha := agree_copyTable m hfsrc
  refine ⟨htakes, ?_, ?_, ?_, ?_⟩
  · rw [addAll_addAll] at hc
    exact hc
  · exact (h.agree.mono (subset_append_left _ _)).trans
      ((ha.mono (by simp)).trans ((agree_wrEntry _ pd _ (by omega)).mono (by simp)))
  · intro j hj
    by_cases he : j = 32 + ts.length
    · subst he
      rw [rdEntry_wrEntry_self, if_pos (by omega), Nat.add_sub_cancel_left,
        getD_append_right _ _ _ _ (Nat.le_refl _), Nat.sub_self]
      rfl
    rw [rdEntry_wrEntry_index _ _ _ he, ha.rdEntry (by simpa using hfpd) hj, h.dir j hj]
    by_cases hw : 32 ≤ j ∧ j < 35
    · by_cases hk : j - 32 < ts.length
      · rw [getD_append _ _ _ _ hk]
      rw [getD_eq_default _ _ (by omega), getD_eq_default]
      rw [length_append, length_singleton]
      omega
    · rw [if_neg hw, if_neg hw]
  · intro k t j ht hj
    obtain ⟨ht, he⟩ | ⟨rfl, rfl, he⟩ := rdEntry_next (d := 32 + ts.length) htakes.nodup ha ht hj (by omega)
    · rw [he, h.ent k t j ht hj]
    · have hsrc' : v.tab ts.length ∉ pd :: ts := fun hm => hsrc (mem_append_left _ hm)
      rw [he, rdEntry_copyTable m hfsrc hj, h.agree.rdEntry hsrc' hj, hv.ent _ j hlen hj]

theorem cloneTables_spec (s : Machine) (hv : Mapped m₀ kpd v)
    (hheld : ∀ f ∈ kpd :: v.tables, 0 < held f) (r : Nat)
    (h : Cloning m₀ held reserved kpd v pd ts fr m) (hr : ts.length + r = 3) :
    (∃ ts' fr' m', cloneTables (v.pd * 4096) (pd * 4096) (List.range' (32 + ts.length) r)
        (setMem (setFr s fr) m) = (true, setMem (setFr s fr') m') ∧
      Cloning m₀ held reserved kpd v pd ts' fr' m' ∧ ts'.length = 3 ∧ fr'.totalPages = fr.totalPages) ∨
    (∃ ts' fr' m', cloneTables (v.pd * 4096) (pd * 4096) (List.range' (32 + ts.length) r)
        (setMem (setFr s fr) m) = (false, setOom (setMem (setFr s fr') m')) ∧
      Cloning m₀ held reserved kpd v pd ts' fr' m' ∧ ts'.length < 3 ∧ fr'.totalPages = fr.totalPages ∧
      ∀ f, f < fr.totalPages → 0 < addAll held (pd :: ts') f ∨ reserved f) := by
  induction r generalizing ts fr m with
  | zero => exact .inl ⟨ts, fr, m, rfl, h, hr, rfl⟩
  | succ r ih =>
    have hlen : ts.length < 3 := by omega
    have hpd : v.pd ∉ pd :: ts := not_mem_of_held h.takes (hheld _ (by simp [View.tables]))
    have hsrc : rdEntry m (v.pd * 4096) (32 + ts.length) = entry (v.tab ts.length) 7#12 := by
      rw [h.agree.rdEntry hpd (by omega), hv.dir _ (by omega), if_pos (by omega), Nat.add_sub_cancel_left]
    have hpr : isPresent (entry (v.tab ts.length) 7#12) = true := present_perm (w := true)
    have hlt := hv.table_lt _ (Mapped.tab_mem v hlen)
    rw [range'_succ, cloneTables]
    simp only [setMem_mem, hsrc, hpr, if_true]
    obtain ⟨he, hall⟩ | ⟨f, fr', he, hf, ht, hc⟩ := alloc_cases (s := setMem (setFr s fr) m) h.ledger
    · refine .inr ⟨ts, fr, m, ?_, h, hlen, rfl, hall⟩
      rw [he]
      rfl
    have hne : ¬ f * 4096 = 0 := frame_ne_zero hf.pos
    have hstep := ih (h.next hv hheld hlen hf hc) (by rw [length_append, length_singleton]; omega)
    rw [length_append, show fr'.totalPages = fr.totalPages from ht] at hstep
    rw [he]
    simp only [hne, if_false, addrOf_entry hlt]
    rw [entry_retarget hf.lt]
    exact hstep

theorem finish (h : Cloning m₀ held reserved kpd v pd ts fr m) (hv : Mapped m₀ kpd v)
    (hlen : ts.length = 3)
    (hkpd : 0 < held kpd) : Mapped m kpd { v with pd := pd, tab := fun k => ts.getD k 0 } := by
  have hnk : kpd ∉ pd :: ts := not_mem_of_held h.takes hkpd
  have htabs : ({ v with pd := pd, tab := fun k => ts.getD k 0 } : View).tables = pd :: ts :=
    tables_of_length rfl rfl hlen
  refine ⟨h.takes.pos pd mem_cons_self, ?_, ?_, hv.tramp_lt, hv.page_lt, ?_, ?_⟩
  · rw [htabs]
    exact nodup_cons.mpr ⟨hnk, h.takes.nodup⟩
  · rw [htabs]
    exact h.takes.lt
  · intro j hj
    rw [h.agree.rdEntry hnk hj]
    refine (h.dir j hj).trans ?_
    by_cases hw : 32 ≤ j ∧ j < 35
    · have hk : j - 32 < ts.length := by omega
      rw [if_pos hw, if_pos hw, getD_eq_getElem _ _ hk]
      exact congrArg (entry · 7#12) (getD_eq_getElem _ _ hk).symm
    · rw [if_neg hw, if_neg hw]
  · intro k j hk hj
    exact h.ent k _ j (getElem?_eq_getD (by omega)) hj

end Cloning

/-- The source's tables that a half-built clone still names. -/
def abandoned (v : View) (fs : List Nat) : List Nat :=
  if fs = [] then [] else [v.tab 0, v.tab 1, v.tab 2].drop (fs.length - 1)

theorem Cloning.names {m₀ m : Mem} {kpd pd : Nat} {v : View} {ts : List Nat} {fr : Allocator}
    (h : Cloning m₀ held reserved kpd v pd ts fr m) (hv : Mapped m₀ kpd v) (hlen : ts.length < 3) :
    Names m pd (ts ++ abandoned v (pd :: ts)) := by
  have hget : ∀ k, k < 3 → (ts ++ abandoned v (pd :: ts))[k]? = some (ts.getD k (v.tab k)) := by
    intro k hk
    have hc : k = 0 ∨ k = 1 ∨ k = 2 := by omega
    rcases ts with _ | ⟨a, _ | ⟨b, _ | ⟨c, ts⟩⟩⟩
    · obtain rfl | rfl | rfl := hc <;> rfl
    · obtain rfl | rfl | rfl := hc <;> rfl
    · obtain rfl | rfl | rfl := hc <;> rfl
    · simp only [length_cons] at hlen
      omega
  refine ⟨?_, ?_, ?_⟩
  · simp only [abandoned, reduceCtorEq, if_false, length_append, length_drop, length_cons, length_nil]
    omega
  · intro t ht
    cases mem_append.mp ht with
    | inl hm => exact h.takes.lt t (mem_cons_of_mem _ hm)
    | inr hm =>
      refine hv.table_lt t (mem_cons_of_mem _ ?_)
      exact mem_of_mem_drop hm
  · intro k hk
    rw [hget k hk, h.dir (32 + k) (by omega), if_pos (by omega), Nat.add_sub_cancel_left]
    rfl

/-- A failed clone gave back its frames and the source's tables left. -/
structure FailedClone (s : Machine) (held : Nat → Nat) (reserved : Nat → Prop) (v : View)
    (fs : List Nat) (fr : Allocator) (m : Mem) : Prop where
  takes : Takes reserved held fs
  len : fs.length < 4
  full : ∀ f, f < s.fr.totalPages → 0 < addAll held fs f ∨ reserved f
  total : fr.totalPages = s.fr.totalPages
  ledger : Consistent fr (dropAll held (abandoned v fs)) reserved
  agree : AgreeOff fs s.mem m

def failedClone (s : Machine) (fr : Allocator) (m : Mem) : Machine :=
  { setOom (setMem (setFr s fr) m) with cloneFailed := true }

theorem abandoned_sub (v : View) (fs : List Nat) : (abandoned v fs).Sublist v.tables := by
  unfold abandoned
  split
  · exact nil_sublist _
  · exact (drop_sublist _ _).trans (sublist_cons_self _ _)

theorem Cloning.free {m₀ m : Mem} {kpd pd : Nat} {v : View} {ts : List Nat} {fr : Allocator}
    (h : Cloning m₀ held reserved kpd v pd ts fr m) (hv : Mapped m₀ kpd v)
    (hheld : ∀ f ∈ kpd :: v.tables, 0 < held f) (hlen : ts.length < 3)
    (hdir : s.pageDirPhys = kpd * 4096) :
    ∃ fr', mmFreeUserPd (setOom (setMem (setFr s fr) m)) (pd * 4096) =
        setOom (setMem (setFr s fr') m) ∧ fr'.totalPages = fr.totalPages ∧
      Consistent fr' (dropAll held (abandoned v (pd :: ts))) reserved := by
  have hpos := h.takes.pos pd mem_cons_self
  have hnk : kpd ∉ pd :: ts := not_mem_of_held h.takes (hheld kpd mem_cons_self)
  have hne : pd * 4096 ≠ s.pageDirPhys := by
    rw [hdir]
    exact fun he => hnk (frame_inj he ▸ mem_cons_self)
  have hsub := abandoned_sub v (pd :: ts)
  have hnd : v.tables.Nodup := (nodup_cons.mp hv.nodup).2
  have hcount : ∀ f, (abandoned v (pd :: ts)).count f ≤ held f := by
    intro f
    by_cases hm : f ∈ abandoned v (pd :: ts)
    · rw [count_eq_one_of_mem (hnd.sublist hsub) hm]
      exact hheld f (mem_cons_of_mem _ (hsub.subset hm))
    · rw [count_eq_zero_of_not_mem hm]
      exact Nat.zero_le _
  have hfree := freeUserPd_eq (s := setOom (setMem (setFr s fr) m)) hpos hne (h.names hv hlen)
  obtain ⟨hc, htot⟩ := unrefAll_spec ((ts ++ abandoned v (pd :: ts)) ++ [pd]) h.ledger fun f => by
    have hf := hcount f
    simp only [addAll, count_append, count_cons, count_nil]
    omega
  refine ⟨_, hfree, htot, ?_⟩
  have he : dropAll (addAll held (pd :: ts)) ((ts ++ abandoned v (pd :: ts)) ++ [pd]) =
      dropAll held (abandoned v (pd :: ts)) := by
    funext f
    simp only [dropAll, addAll, count_append, count_cons, count_nil]
    omega
  rw [he] at hc
  exact hc

theorem clonedView_pte (v : View) (pd : Nat) (ts : List Nat) (tramp p : Nat) :
    (clonedView v pd ts tramp).pte p = if p = 34887 then entry tramp (perm false) else v.pte p := by
  by_cases hp : p = 34887
  · rw [hp]
    rfl
  · simp only [View.pte, clonedView, hp, if_false]

theorem cloneUserPd_spec {kpd tramp : Nat} {v : View} (h : Consistent s.fr held reserved)
    (hdir : s.pageDirPhys = kpd * 4096) (hv : Mapped s.mem kpd v)
    (hheld : ∀ f ∈ kpd :: v.tables, 0 < held f) (ht : 0 < tramp) (htramp : tramp < 1048576) :
    (∃ pd ts fr m, mmCloneUserPd s (v.pd * 4096) (tramp * 4096) = (pd * 4096, setMem (setFr s fr) m) ∧
      Takes reserved held (pd :: ts) ∧ ts.length = 3 ∧ fr.totalPages = s.fr.totalPages ∧
      Consistent fr (addAll held (pd :: ts)) reserved ∧ AgreeOff (pd :: ts) s.mem m ∧
      Mapped m kpd (clonedView v pd ts tramp)) ∨
    (∃ fs fr m, mmCloneUserPd s (v.pd * 4096) (tramp * 4096) = (0, failedClone s fr m) ∧
      FailedClone s held reserved v fs fr m ∧ ((allocPage s).1 = 0 ↔ fs = [])) := by
  have hsrc : ¬(v.pd * 4096 = 0 ∨ tramp * 4096 = 0) := by
    have hp := hv.pd_pos
    omega
  simp only [mmCloneUserPd, hsrc, if_false]
  obtain ⟨he, hall⟩ | ⟨pd, fr, he, hf, htot, hc⟩ := alloc_cases h
  · refine .inr ⟨[], s.fr, s.mem, ?_, ⟨trivial, by simp, ?_, rfl, h, AgreeOff.refl _ _⟩, by simp [he]⟩
    · rw [he]
      rfl
    · exact hall
  have hne : ¬ pd * 4096 = 0 := frame_ne_zero hf.pos
  have hst := Cloning.start hv hheld hf hc
  have hpdes : windowPdes = range' (32 + ([] : List Nat).length) 3 := rfl
  rw [he]
  simp only [hne, if_false, setFr_mem, hpdes]
  obtain ⟨ts, fr', m', he', hC, hlen, htot'⟩ |
      ⟨ts, fr', m', he', hC, hlen, htot', hall⟩ := hst.cloneTables_spec s hv hheld 3 rfl
  · have hmap := hC.finish hv hlen (hheld kpd mem_cons_self)
    have ht34 : userSigtramp / 4194304 = 34 ∧ userSigtramp / 4096 % 1024 = 71 := by decide
    have htm : ts.getD 2 0 ∈ pd :: ts :=
      mem_cons_of_mem _ (mem_of_getElem? (getElem?_eq_getD (by omega)))
    have htlt := hC.takes.lt _ htm
    have hdir : rdEntry m' (pd * 4096) 34 = entry (ts.getD 2 0) 7#12 := by
      have hd := hmap.dir 34 (by omega)
      exact hd
    have hset := hmap.setPte (u := clonedView v pd ts tramp)
      (by omega) (by omega) rfl rfl htramp hv.page_lt fun q => clonedView_pte v pd ts tramp q
    refine .inl ⟨pd, ts, fr', _, ?_, hC.takes, hlen, by omega, hC.ledger, ?_, hset⟩
    · rw [he']
      simp only [if_true, ht34.1, ht34.2, setMem_mem, hdir, addrOf_entry htlt]
      rw [entry_tramp htramp]
      rfl
    · refine hC.agree.trans ((agree_wrEntry m' (ts.getD 2 0) _ (by omega : 71 < 1024)).mono ?_)
      exact fun x hx => mem_singleton.mp hx ▸ htm
  · obtain ⟨fr'', hfree, htot'', hc''⟩ := hC.free hv hheld hlen hdir
    refine .inr ⟨pd :: ts, fr'', m', ?_,
      ⟨hC.takes, by rw [length_cons]; omega, ?_, by omega, hc'', hC.agree⟩, by simp⟩
    · rw [he']
      simp only [Bool.false_eq_true, if_false, hfree]
      rfl
    · rw [htot] at hall
      exact hall

end MuOS.Mm.TableClone
