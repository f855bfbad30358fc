import MuOS.Mm.Grants
import MuOS.Mm.Views

namespace MuOS.Mm.TableBuild

open Lib Memory Paging Frames Ledger FrameOps Grants UserPd Views User.Window List Option

variable {s : Machine} {held : Nat → Nat} {reserved : Nat → Prop} {ts : List Nat} {fr : Allocator}
  {f : Nat} {d : Nat}

theorem frame_ne_zero (h : 0 < f) : ¬ f * 4096 = 0 := by omega

theorem frame_inj {g : Nat} (h : f * 4096 = g * 4096) : f = g := by omega

theorem alloc_cases (h : Consistent s.fr held reserved) :
    (allocPage s = (0, setOom s) ∧ ∀ f, f < s.fr.totalPages → 0 < held f ∨ reserved f) ∨
      ∃ f fr, allocPage s = (f * 4096, setFr s fr) ∧ Fresh held reserved f ∧
        fr.totalPages = s.fr.totalPages ∧ Consistent fr (addAll held [f]) reserved := by
  obtain ⟨he, hall⟩ | ⟨f, fr, he, hf, ht, hc⟩ := alloc_grant h
  · refine .inl ⟨?_, hall⟩
    rw [allocPage, he]
    rfl
  · have hne : ¬ f * 4096 = 0 := frame_ne_zero hf.pos
    refine .inr ⟨f, fr, ?_, hf, ht, hc⟩
    rw [allocPage, he, granted, if_neg hne]

theorem allocPages_cases (h : Consistent s.fr held reserved) {count : Nat} (hcount : 0 < count) :
    (allocPages s count = (0, setOom s) ∧ ∀ q, q + count ≤ s.fr.totalPages →
        ∃ f, q ≤ f ∧ f < q + count ∧ (0 < held f ∨ reserved f)) ∨
      ∃ b fr, allocPages s count = (b * 4096, setFr s fr) ∧ FreshRun held reserved b count ∧
        fr.totalPages = s.fr.totalPages ∧ Consistent fr (addAll held (List.range' b count)) reserved := by
  obtain ⟨he, hall⟩ | ⟨b, fr, he, hb, ht, hc⟩ := allocPages_grant h hcount
  · refine .inl ⟨?_, hall⟩
    rw [allocPages, he]
    rfl
  · have hne : ¬ b * 4096 = 0 := frame_ne_zero hb.pos
    refine .inr ⟨b, fr, ?_, hb, ht, hc⟩
    rw [allocPages, he, granted, if_neg hne]

theorem mmFreePage_eq (fr : Allocator) (f : Nat) : mmFreePage fr (f * 4096) = pageUnref fr f := by
  have hd : f * 4096 / 4096 = f := by omega
  simp only [mmFreePage, hd]
  split
  · rfl
  rw [pageUnref, if_pos (by omega)]

def tableEntry (o : Option Nat) : BitVec 32 := o.elim 0#32 (fun t => entry t 7#12)

theorem freeTable_eq {pd d : Nat} {o : Option Nat} (hlt : ∀ t ∈ o, t < 1048576)
    (h : rdEntry s.mem pd d = tableEntry o) :
    freeTable pd s d = setFr s (o.toList.foldl pageUnref s.fr) := by
  cases o with
  | none =>
    have hpr : ¬ isPresent (tableEntry none) = true := by decide
    rw [freeTable, h]
    rfl
  | some t =>
    have hpr : isPresent (tableEntry (some t)) = true := present_perm (w := true)
    have ha : addrOf (tableEntry (some t)) = t * 4096 := addrOf_entry (hlt t rfl)
    rw [freeTable, h, if_pos hpr, ha, freePage, mmFreePage_eq]
    rfl

structure Names (m : Mem) (pd : Nat) (ts : List Nat) : Prop where
  len : ts.length ≤ 3
  lt : ∀ t ∈ ts, t < 1048576
  dir : ∀ k, k < 3 → rdEntry m (pd * 4096) (32 + k) = tableEntry ts[k]?

theorem eq_of_length_le_three (h : ts.length ≤ 3) :
    ts = ts[0]?.toList ++ (ts[1]?.toList ++ ts[2]?.toList) := by
  rcases ts with _ | ⟨a, _ | ⟨b, _ | ⟨c, _ | ⟨d, ts⟩⟩⟩⟩
  · rfl
  · rfl
  · rfl
  · rfl
  · simp only [length_cons] at h
    omega

theorem freeTables_eq {pd : Nat} (h : Names s.mem pd ts) :
    windowPdes.foldl (freeTable (pd * 4096)) s = setFr s (ts.foldl pageUnref s.fr) := by
  have hlt : ∀ k t, t ∈ ts[k]? → t < 1048576 := fun k t ht => h.lt t (mem_of_getElem? ht)
  have hd : ∀ k fr, k < 3 → freeTable (pd * 4096) (setFr s fr) (32 + k) =
      setFr s (ts[k]?.toList.foldl pageUnref fr) := fun k fr hk => freeTable_eq (hlt k) (h.dir k hk)
  calc windowPdes.foldl (freeTable (pd * 4096)) s
      = freeTable (pd * 4096) (freeTable (pd * 4096) (freeTable (pd * 4096) (setFr s s.fr) 32) 33)
        34 := rfl
    _ = setFr s (ts[2]?.toList.foldl pageUnref (ts[1]?.toList.foldl pageUnref
          (ts[0]?.toList.foldl pageUnref s.fr))) := by
        rw [hd 0 s.fr (by omega), hd 1 _ (by omega), hd 2 _ (by omega)]
    _ = setFr s (ts.foldl pageUnref s.fr) := by
        rw [← foldl_append, ← foldl_append, ← eq_of_length_le_three h.len]

theorem freeUserPd_eq {pd : Nat} (hpos : 0 < pd) (hk : pd * 4096 ≠ s.pageDirPhys)
    (h : Names s.mem pd ts) :
    mmFreeUserPd s (pd * 4096) = setFr s ((ts ++ [pd]).foldl pageUnref s.fr) := by
  have hne : ¬(pd * 4096 = 0 ∨ pd * 4096 = s.pageDirPhys) := by omega
  rw [mmFreeUserPd, if_neg hne, freeTables_eq h, freePage, mmFreePage_eq, foldl_append]
  rfl

theorem not_mem_of_held {fs : List Nat} (h : Takes reserved held fs) (hf : 0 < held f) : f ∉ fs :=
  fun hm => by
  have h0 := h.unheld f hm
  omega

/-- The entry of a new table leaves the tables as they were. -/
theorem rdEntry_next {m m' : Mem} {e : BitVec 32} {pd k t j d : Nat}
    (hn : (pd :: (ts ++ [f])).Nodup) (ha : AgreeOff [f] m m') (ht : (ts ++ [f])[k]? = some t)
    (hj : j < 1024) (hd : d < 1024) :
    (ts[k]? = some t ∧ rdEntry (wrEntry m' (pd * 4096) d e) (t * 4096) j = rdEntry m (t * 4096) j) ∨
      k = ts.length ∧ t = f ∧ rdEntry (wrEntry m' (pd * 4096) d e) (t * 4096) j = rdEntry m'
      (t * 4096) j := by
  obtain ⟨hpd, hts⟩ := nodup_cons.mp hn
  have htpd : t ≠ pd := fun he => hpd (he ▸ mem_of_getElem? ht)
  rw [rdEntry_wrEntry_frame _ _ htpd hj hd]
  by_cases hk : k < ts.length
  · rw [getElem?_append_left hk] at ht
    have htf : t ≠ f := (nodup_append.mp hts).2.2 t (mem_of_getElem? ht) f mem_cons_self
    exact .inl ⟨ht, ha.rdEntry (by simpa using htf) hj⟩
  have hk' : k = ts.length := by
    have hl := (List.getElem?_eq_some_iff.mp ht).1
    rw [length_append, length_singleton] at hl
    omega
  subst hk'
  rw [getElem?_append_right (Nat.le_refl _), Nat.sub_self] at ht
  exact .inr ⟨rfl, (some.inj ht).symm, rfl⟩

/-- A directory under construction: `ts` map the first `n` pages. -/
structure Building (m₀ : Mem) (held : Nat → Nat) (reserved : Nat → Prop) (kpd block pd n : Nat)
    (ts : List Nat) (fr : Allocator) (m : Mem) : Prop where
  takes : Takes reserved held (pd :: ts)
  ledger : Consistent fr (addAll held (pd :: ts)) reserved
  agree : AgreeOff (pd :: ts) m₀ m
  len : ts.length ≤ 3
  dir : ∀ j, j < 1024 → rdEntry m (pd * 4096) j =
    if 32 ≤ j ∧ j < 35 then tableEntry ts[j - 32]? else rdEntry m₀ (kpd * 4096) j
  ent : ∀ k t j, ts[k]? = some t → j < 1024 → rdEntry m (t * 4096) j =
    if 32840 ≤ 1024 * (32 + k) + j ∧ 1024 * (32 + k) + j < 32840 + n then
      entry (block + (1024 * (32 + k) + j - 32840)) 7#12 else 0#32

namespace Building

variable {m₀ m : Mem} {kpd block pd n : Nat} {ts : List Nat} {fr : Allocator}

section

variable (h : Building m₀ held reserved kpd block pd n ts fr m)
include h

theorem names : Names m pd ts := by
  refine ⟨h.len, fun t ht => h.takes.lt t (mem_cons_of_mem _ ht), ?_⟩
  intro k hk
  rw [h.dir (32 + k) (by omega), if_pos (by omega), Nat.add_sub_cancel_left]

theorem grow {fr' : Allocator} (hd : d = 32 + ts.length) (hlen : ts.length < 3)
    (hn : n = 0 ∨ 32840 + n ≤ 1024 * d) (hf : Fresh (addAll held (pd :: ts)) reserved f)
    (hc : Consistent fr' (addAll (addAll held (pd :: ts)) [f]) reserved) :
    Building m₀ held reserved kpd block pd n (ts ++ [f]) fr'
      (wrEntry (clearTable m (f * 4096)) (pd * 4096) d (entry f 7#12)) := by
  have htakes : Takes reserved held (pd :: ts ++ [f]) := h.takes.append ⟨hf, trivial⟩
  have hfpd : pd ≠ f :=
    fun he => (nodup_cons.mp htakes.nodup).1 (he ▸ mem_append_right _ mem_cons_self)
  have hsub :
    AgreeOff (pd :: ts ++ [f]) m (wrEntry (clearTable m (f * 4096)) (pd * 4096) d (entry f 7#12)) :=
    ((agree_clearTable m f).mono (by simp)).trans
      ((agree_wrEntry _ pd (entry f 7#12) (by omega)).mono (by simp))
  refine ⟨htakes, ?_, ?_, ?_, ?_, ?_⟩
  · rw [addAll_addAll] at hc
    exact hc
  · exact (h.agree.mono (subset_append_left _ _)).trans hsub
  · rw [length_append, length_singleton]
    omega
  · intro j hj
    by_cases he : j = d
    · subst he
      rw [rdEntry_wrEntry_self, if_pos (by omega)]
      have hk : j - 32 = ts.length := by omega
      rw [hk, getElem?_append_right (Nat.le_refl _), Nat.sub_self]
      rfl
    · rw [rdEntry_wrEntry_index _ _ _ he, (agree_clearTable m f).rdEntry
        (by simpa using hfpd) hj, h.dir j hj]
      by_cases hw : 32 ≤ j ∧ j < 35
      · by_cases hk : j - 32 < ts.length
        · rw [getElem?_append_left hk]
        rw [getElem?_eq_none (by omega), getElem?_eq_none]
        rw [length_append, length_singleton]
        omega
      · rw [if_neg hw, if_neg hw]
  · intro k t j ht hj
    obtain ⟨ht, he⟩ | ⟨rfl, rfl, he⟩ := rdEntry_next (d := d) (e := entry f 7#12) htakes.nodup
      (agree_clearTable m f) ht hj (by omega)
    · rw [he, h.ent k t j ht hj]
    · rw [he, rdEntry_clearTable m _ hj, if_neg (by omega)]

theorem mapNext {t : Nat} (ht : ts[(32840 + n) / 1024 - 32]? = some t) :
    Building m₀ held reserved kpd block pd (n + 1) ts fr
      (wrEntry m (t * 4096) ((32840 + n) % 1024) (entry (block + n) 7#12)) := by
  have htm : t ∈ ts := mem_of_getElem? ht
  have htpd : t ≠ pd := fun he => (nodup_cons.mp h.takes.nodup).1 (he ▸ htm)
  have hmod : (32840 + n) % 1024 < 1024 := Nat.mod_lt _ (by omega)
  have ha := agree_wrEntry m t (entry (block + n) 7#12) hmod
  refine ⟨h.takes, h.ledger, h.agree.trans (ha.mono (by simp [htm])), h.len, ?_, ?_⟩
  · intro j hj
    rw [ha.rdEntry (by simpa using htpd.symm) hj, h.dir j hj]
  intro k u j hu hj
  by_cases hut : u = t
  · subst hut
    have hnd : ts.Nodup := (nodup_cons.mp h.takes.nodup).2
    have hlt := (List.getElem?_eq_some_iff.mp hu).1
    have hk : k = (32840 + n) / 1024 - 32 := (getElem?_inj hlt hnd).mp (hu.trans ht.symm)
    by_cases hj' : j = (32840 + n) % 1024
    · subst hj'
      have he : 1024 * (32 + k) + (32840 + n) % 1024 = 32840 + n := by omega
      rw [rdEntry_wrEntry_self, he, if_pos (by omega), Nat.add_sub_cancel_left]
    · rw [rdEntry_wrEntry_index _ _ _ hj', h.ent k u j hu hj]
      apply if_congr _ rfl rfl
      omega
  · rw [ha.rdEntry (by simpa using hut) hj, h.ent k u j hu hj]
    apply if_congr _ rfl rfl
    have hne : k ≠ (32840 + n) / 1024 - 32 := by
      rintro rfl
      exact hut (some.inj (hu.symm.trans ht))
    omega

end

theorem ensure (s : Machine) (h : Building m₀ held reserved kpd block pd n ts fr m)
    (hd1 : 32 ≤ d) (hd2 : d < 35) (hlen : d - 32 ≤ ts.length)
    (hn : d - 32 = ts.length → n = 0 ∨ 32840 + n ≤ 1024 * d) :
    (∃ ts' fr' m' t, ensureTable (setMem (setFr s fr) m) (pd * 4096) d = (true, setMem (setFr s fr') m') ∧
      Building m₀ held reserved kpd block pd n ts' fr' m' ∧ ts'[d - 32]? = some t ∧
      ts'.length = max ts.length (d - 31) ∧ fr'.totalPages = fr.totalPages) ∨
    (ensureTable (setMem (setFr s fr) m) (pd * 4096) d = (false, setOom (setMem (setFr s fr) m)) ∧
      ts.length < 3 ∧ ∀ f, f < fr.totalPages → 0 < addAll held (pd :: ts) f ∨ reserved f) := by
  have hdir : rdEntry m (pd * 4096) d = tableEntry ts[d - 32]? := by
    rw [h.dir d (by omega), if_pos ⟨hd1, hd2⟩]
  by_cases hk : d - 32 < ts.length
  · obtain ⟨t, ht⟩ : ∃ t, ts[d - 32]? = some t := ⟨_, getElem?_eq_getElem hk⟩
    have hpr : isPresent (tableEntry (some t)) = true := present_perm (w := true)
    refine .inl ⟨ts, fr, m, t, ?_, h, ht, by omega, rfl⟩
    rw [ensureTable, setMem_mem, hdir, ht, if_pos hpr]
  have hnone : ts[d - 32]? = none := getElem?_eq_none (by omega)
  have hpr : ¬ isPresent (tableEntry none) = true := by decide
  have heq : d = 32 + ts.length := by omega
  obtain ⟨he, hall⟩ | ⟨f, fr', he, hf, ht, hc⟩ := alloc_cases (s := setMem (setFr s fr) m) h.ledger
  · refine .inr ⟨?_, by omega, hall⟩
    rw [ensureTable, setMem_mem, hdir, hnone, he]
    rfl
  have hne : ¬ f * 4096 = 0 := frame_ne_zero hf.pos
  refine .inl ⟨ts ++ [f], fr', _, f, ?_, h.grow heq (by omega) (hn (by omega)) hf hc, ?_, ?_, ht⟩
  · rw [ensureTable, setMem_mem, hdir, hnone, he]
    simp only [hne, if_false]
    rw [entry_block hf.lt]
    rfl
  · rw [show d - 32 = ts.length by omega, getElem?_append_right (Nat.le_refl _), Nat.sub_self]
    rfl
  · rw [length_append, length_singleton]
    omega

def tablesFor (n : Nat) : Nat := if n = 0 then 0 else (32839 + n) / 1024 - 31

theorem tablesFor_succ (n : Nat) : tablesFor (n + 1) = (32840 + n) / 1024 - 31 := by
  rw [tablesFor, if_neg (by omega), show 32839 + (n + 1) = 32840 + n by omega]

theorem mapBlock_spec (s : Machine) (hblock : block + 2047 < 1048576) (k : Nat)
    (h : Building m₀ held reserved kpd block pd n ts fr m) (hlen : ts.length = tablesFor n)
    (hk : n + k ≤ 2047) :
    (∃ ts' fr' m', mapBlock (pd * 4096) (block * 4096) (List.range' n k) (setMem (setFr s fr) m) =
        (true, setMem (setFr s fr') m') ∧
      Building m₀ held reserved kpd block pd (n + k) ts' fr' m' ∧ ts'.length = tablesFor (n + k) ∧
      fr'.totalPages = fr.totalPages) ∨
    (∃ n' ts' fr' m', mapBlock (pd * 4096) (block * 4096) (List.range' n k)
        (setMem (setFr s fr) m) = (false, setOom (setMem (setFr s fr') m')) ∧
      Building m₀ held reserved kpd block pd n' ts' fr' m' ∧ ts'.length < 3 ∧
      fr'.totalPages = fr.totalPages ∧
      ∀ f, f < fr'.totalPages → 0 < addAll held (pd :: ts') f ∨ reserved f) := by
  induction k generalizing n ts fr m with
  | zero => exact .inl ⟨ts, fr, m, rfl, h, hlen, rfl⟩
  | succ k ih =>
    have hva : pageVa n / 4194304 = (32840 + n) / 1024 := by
      unfold pageVa userBase
      omega
    have hpti : pageVa n / 4096 % 1024 = (32840 + n) % 1024 := by
      rw [show pageVa n / 4096 = 32840 + n from pageVa_div n (o := 0) (by omega)]
    have hfr : block * 4096 + n * 4096 = (block + n) * 4096 := by omega
    have hbound : (32840 + n) / 1024 - 32 ≤ ts.length ∧
        ((32840 + n) / 1024 - 32 = ts.length → n = 0 ∨ 32840 + n ≤ 1024 * ((32840 + n) / 1024)) ∧
        max ts.length ((32840 + n) / 1024 - 31) = tablesFor (n + 1) := by
      rw [hlen, tablesFor_succ]
      unfold tablesFor
      split <;> omega
    obtain ⟨hb1, hb2, hb3⟩ := hbound
    rw [range'_succ, mapBlock]
    simp only [hva, hpti, hfr]
    obtain ⟨ts', fr', m', t, he, hB, ht, hl, htot⟩ | ⟨he, hl, hall⟩ :=
      h.ensure s (by omega) (by omega) hb1 hb2
    · have htlt : t < 1048576 := hB.takes.lt t (mem_cons_of_mem _ (mem_of_getElem? ht))
      have hdir : rdEntry m' (pd * 4096) ((32840 + n) / 1024) = entry t 7#12 := by
        rw [hB.dir _ (by omega), if_pos (by omega), ht]
        rfl
      have hstep := ih (hB.mapNext ht) (hl.trans hb3) (by omega)
      rw [he]
      simp only [if_true, setMem_mem, hdir, addrOf_entry htlt]
      rw [entry_block (by omega), show n + (k + 1) = n + 1 + k by omega]
      rw [htot] at hstep
      exact hstep
    · refine .inr ⟨n, ts, fr, m, ?_, h, hl, rfl, hall⟩
      rw [he]
      rfl

theorem abandon (s : Machine) (h : Building m₀ held reserved kpd block pd n ts fr m)
    (hk : s.pageDirPhys = kpd * 4096) (hkpd : 0 < held kpd) :
    ∃ fr', mmFreeUserPd (setOom (setMem (setFr s fr) m)) (pd * 4096) = setOom
      (setMem (setFr s fr') m) ∧ fr'.totalPages = fr.totalPages ∧ Consistent fr' held reserved := by
  have hne : pd * 4096 ≠ s.pageDirPhys := by
    have hp : kpd ≠ pd := fun he => not_mem_of_held h.takes hkpd (he ▸ mem_cons_self)
    omega
  have hperm : addAll held (pd :: ts) = addAll held ([] ++ (ts ++ [pd])) :=
    addAll_perm held (perm_append_singleton pd ts).symm
  have hc := h.ledger
  rw [hperm] at hc
  obtain ⟨hd, ht⟩ := unrefAll_spec (ts ++ [pd]) hc fun f => by simp only [addAll, nil_append]; omega
  rw [dropAll_addAll] at hd
  refine ⟨_, ?_, ht, hd⟩
  rw [freeUserPd_eq (s := setOom (setMem (setFr s fr) m))
    (h.takes.pos pd mem_cons_self) hne h.names]
  rfl

end Building

theorem agree_clearWindow (m : Mem) (pd : Nat) : AgreeOff [pd] m (clearWindow m (pd * 4096)) := by
  exact ((agree_wrEntry m pd 0#32 (by omega)).trans (agree_wrEntry _ pd 0#32 (by omega))).trans
    (agree_wrEntry _ pd 0#32 (by omega))

theorem rdEntry_clearWindow (m : Mem) (pd : Nat) {j : Nat} :
    rdEntry (clearWindow m (pd * 4096)) (pd * 4096) j =
      if 32 ≤ j ∧ j < 35 then 0#32 else rdEntry m (pd * 4096) j := by
  simp only [clearWindow, windowPdes, foldl_cons, foldl_nil]
  by_cases h34 : j = 34
  · rw [h34, rdEntry_wrEntry_self, if_pos (by omega)]
  rw [rdEntry_wrEntry_index _ _ _ h34]
  by_cases h33 : j = 33
  · rw [h33, rdEntry_wrEntry_self, if_pos (by omega)]
  rw [rdEntry_wrEntry_index _ _ _ h33]
  by_cases h32 : j = 32
  · rw [h32, rdEntry_wrEntry_self, if_pos (by omega)]
  · rw [rdEntry_wrEntry_index _ _ _ h32, if_neg (by omega)]

theorem Building.start {m : Mem} (block : Nat) {kpd pd : Nat} (hf : Fresh held reserved pd)
    (hkpd : 0 < held kpd) (hc : Consistent fr (addAll held [pd]) reserved) :
      Building m held reserved kpd block pd 0 [] fr
      (clearWindow (copyTable m (pd * 4096) (kpd * 4096)) (pd * 4096)) := by
  have hne : pd ≠ kpd := by
    rintro rfl
    have h0 := hf.unheld
    omega
  refine ⟨⟨hf, trivial⟩, hc, (agree_copyTable m hne).trans
    (agree_clearWindow _ pd), by simp, ?_, ?_⟩
  · intro j hj
    rw [rdEntry_clearWindow]
    split
    · rfl
    · exact rdEntry_copyTable m hne hj
  · intro k t j ht
    simp at ht

/-- What `mm_create_user_pd` builds: block writable, trampoline read-only. -/
def createdView (pd : Nat) (ts : List Nat) (tramp block : Nat) : View :=
  ⟨pd, fun k => ts.getD k 0, tramp, fun i => block + i, fun _ => true, false⟩

theorem tables_of_length {v : View} {pd : Nat} (hpd : v.pd = pd)
    (htab : v.tab = fun k => ts.getD k 0) (h : ts.length = 3) : v.tables = pd :: ts := by
  rcases ts with _ | ⟨a, _ | ⟨b, _ | ⟨c, _ | ⟨d, ts⟩⟩⟩⟩
  · simp at h
  · simp at h
  · simp at h
  · simp [View.tables, hpd, htab]
  · simp at h

theorem getElem?_eq_getD {k : Nat} (h : k < ts.length) : ts[k]? = some (ts.getD k 0) := by
  rw [getD_eq_getElem?_getD, getElem?_eq_getElem h, getD_some]

theorem Building.ent_eq {m₀ m : Mem} {kpd block pd : Nat}
    (h : Building m₀ held reserved kpd block pd 2047 ts fr m) (hlen : ts.length = 3) (tramp : Nat)
    {k j p : Nat} (hk : k < 3) (hj : j < 1024) (hp : 1024 * (32 + k) + j = p) (hne : p ≠ 34887) :
    rdEntry m (ts.getD k 0 * 4096) j = (createdView pd ts tramp block).pte p := by
  rw [h.ent k _ j (getElem?_eq_getD (by omega)) hj, hp, View.pte, if_neg hne]
  rfl

theorem Building.finish_ent {m₀ m : Mem} {kpd block pd : Nat}
    (h : Building m₀ held reserved kpd block pd 2047 ts fr m) (hlen : ts.length = 3) (tramp : Nat)
    (k j : Nat) (hk : k < 3) (hj : j < 1024) :
    rdEntry (wrEntry m (ts.getD 2 0 * 4096) 71 (entry tramp (perm false))) (ts.getD k 0 * 4096) j =
      (createdView pd ts tramp block).pte (1024 * (32 + k) + j) := by
  have ha := agree_wrEntry m (ts.getD 2 0) (entry tramp (perm false)) (by omega : 71 < 1024)
  by_cases hk2 : k = 2
  · by_cases hj71 : j = 71
    · have hp : 1024 * (32 + k) + j = 34887 := by omega
      rw [hk2, hj71, rdEntry_wrEntry_self]
      rfl
    · rw [hk2, rdEntry_wrEntry_index m _ _ hj71]
      exact h.ent_eq hlen tramp (by omega) hj rfl (by omega)
  · have hne : ts.getD k 0 ∉ [ts.getD 2 0] := by
      intro hm
      have hkl : ts[k]? = ts[2]? := by
        rw [getElem?_eq_getD (by omega), getElem?_eq_getD (by omega)]
        exact congrArg some (mem_singleton.mp hm)
      exact hk2 ((getElem?_inj (by omega) (nodup_cons.mp h.takes.nodup).2).mp hkl)
    rw [ha.rdEntry hne hj]
    exact h.ent_eq hlen tramp hk hj rfl (by omega)

theorem Building.finish {m₀ m : Mem} {kpd block pd tramp : Nat}
    (h : Building m₀ held reserved kpd block pd 2047 ts fr m) (hlen : ts.length = 3)
    (hkpd : 0 < held kpd) (hblock : block + 2047 < 1048576) (htramp : tramp < 1048576) :
    Mapped (wrEntry m (ts.getD 2 0 * 4096) 71 (entry tramp (perm false))) kpd
    (createdView pd ts tramp block) := by
  have hnk : kpd ∉ pd :: ts := not_mem_of_held h.takes hkpd
  have htabs : (createdView pd ts tramp block).tables = pd :: ts := tables_of_length rfl rfl hlen
  have hmem : ∀ k, k < 3 → ts.getD k 0 ∈ ts :=
    fun k hk => mem_of_getElem? (getElem?_eq_getD (by omega))
  have hpd : ∀ k, k < 3 → pd ≠ ts.getD k 0 :=
    fun k hk he => (nodup_cons.mp h.takes.nodup).1 (he ▸ hmem k hk)
  have ha := agree_wrEntry m (ts.getD 2 0) (entry tramp (perm false)) (by omega : 71 < 1024)
  refine ⟨h.takes.pos pd mem_cons_self, ?_, ?_, htramp, ?_, ?_, ?_⟩
  · rw [htabs]
    exact nodup_cons.mpr ⟨hnk, h.takes.nodup⟩
  · rw [htabs]
    exact h.takes.lt
  · intro i hi
    unfold dataPages at hi
    simp only [createdView]
    omega
  · intro j hj
    have hr : rdEntry _ (pd * 4096) j = _ :=
      (ha.rdEntry (by simpa using hpd 2 (by omega)) hj).trans (h.dir j hj)
    have hq : rdEntry _ (kpd * 4096) j = _ := ha.rdEntry
      (fun hm => hnk (mem_singleton.mp hm ▸ mem_cons_of_mem _ (hmem 2 (by omega)))) hj
    rw [hq, h.agree.rdEntry hnk hj]
    refine hr.trans ?_
    by_cases hw : 32 ≤ j ∧ j < 35
    · rw [if_pos hw, if_pos hw, getElem?_eq_getD (by omega)]
      rfl
    · rw [if_neg hw, if_neg hw]
  · exact h.finish_ent hlen tramp

theorem frame_aligned (h : 0 < f) : ¬(f * 4096 = 0 ∨ f * 4096 % 4096 ≠ 0) := by omega

theorem createUserPd_spec {kpd block tramp : Nat} (h : Consistent s.fr held reserved)
    (hk : s.pageDirPhys = kpd * 4096) (hkpd : 0 < held kpd) (hb : 0 < block)
    (hblock : block + 2047 < 1048576) (ht : 0 < tramp) (htramp : tramp < 1048576) :
    (∃ pd ts fr m, mmCreateUserPd s (block * 4096) (tramp * 4096) = (pd * 4096, setMem (setFr s fr) m) ∧
      Takes reserved held (pd :: ts) ∧ ts.length = 3 ∧ fr.totalPages = s.fr.totalPages ∧
      Consistent fr (addAll held (pd :: ts)) reserved ∧ AgreeOff (pd :: ts) s.mem m ∧
      Mapped m kpd (createdView pd ts tramp block)) ∨
    (∃ fs fr m, mmCreateUserPd s (block * 4096) (tramp * 4096) = (0, setOom (setMem (setFr s fr) m)) ∧
      Takes reserved held fs ∧ fs.length < 4 ∧ fr.totalPages = s.fr.totalPages ∧
      Consistent fr held reserved ∧ AgreeOff fs s.mem m ∧
      ∀ f, f < s.fr.totalPages → 0 < addAll held fs f ∨ reserved f) := by
  simp only [mmCreateUserPd, frame_aligned hb, frame_aligned ht, if_false]
  obtain ⟨he, hall⟩ | ⟨pd, fr, he, hf, htot, hc⟩ := alloc_cases h
  · refine .inr ⟨[], s.fr, s.mem, ?_, trivial, by simp, rfl, h, AgreeOff.refl _ _, ?_⟩
    · rw [he]
      rfl
    · exact hall
  have hne : ¬ pd * 4096 = 0 := frame_ne_zero hf.pos
  have hrange : range dataPages = range' 0 2047 := range_eq_range'
  rw [he]
  simp only [hne, if_false, setFr_mem, setFr_pageDirPhys, hk, hrange]
  obtain ⟨ts, fr', m', he', hB, hlen, htot'⟩ | ⟨n, ts, fr', m', he', hB, hlen, htot', hall⟩ :=
    Building.mapBlock_spec s hblock 2047 (Building.start (m := s.mem) block hf hkpd hc) rfl (by omega)
  · have hlen3 : ts.length = 3 := hlen
    have ht34 : userSigtramp / 4194304 = 34 ∧ userSigtramp / 4096 % 1024 = 71 := by decide
    obtain ⟨ts'', fr'', m'', t, he'', hB'', ht'', hlen'', htot''⟩ | ⟨-, hlt, -⟩ :=
      hB.ensure s (d := 34) (by omega) (by omega) (by omega) (by omega)
    · have hl : ts''.length = 3 := by omega
      have htd : t = ts''.getD 2 0 := some.inj (ht''.symm.trans (getElem?_eq_getD (by omega)))
      have htlt : t < 1048576 := hB''.takes.lt t (mem_cons_of_mem _ (mem_of_getElem? ht''))
      have hdir : rdEntry m'' (pd * 4096) 34 = entry t 7#12 := by
        rw [hB''.dir 34 (by omega), ht'']
        rfl
      refine .inl ⟨pd, ts'', fr'', _, ?_, hB''.takes, hl, by omega, hB''.ledger, ?_,
        hB''.finish hl hkpd hblock htramp⟩
      · rw [he']
        simp only [if_true, mapTramp, ht34.1, ht34.2, he'', setMem_mem, hdir, addrOf_entry htlt]
        rw [entry_tramp htramp, htd]
        rfl
      · refine hB''.agree.trans ((agree_wrEntry m'' _ _ (by omega)).mono ?_)
        rw [← htd]
        simp [mem_of_getElem? ht'']
    · omega
  · obtain ⟨fr'', he'', htot'', hc''⟩ := hB.abandon s hk hkpd
    refine .inr ⟨pd :: ts, fr'', m', ?_, hB.takes, ?_, by omega, hc'', hB.agree, ?_⟩
    · rw [he']
      simp only [Bool.false_eq_true, if_false]
      rw [he'']
    · rw [length_cons]
      omega
    · intro f hf'
      exact hall f (by omega)

end MuOS.Mm.TableBuild
