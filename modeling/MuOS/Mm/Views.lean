import MuOS.Mm.UserPd

namespace MuOS.Mm.Views

open Lib Memory Paging UserPd User.Window List

/-- A space's tables, and each page's frame and permission. -/
structure View where
  pd : Nat
  tab : Nat → Nat
  tramp : Nat
  page : Nat → Nat
  rw : Nat → Bool
  trampRw : Bool

def perm (w : Bool) : BitVec 12 := if w then 7#12 else 5#12

/-- The entry of page `p`, if covered by the tables. -/
def View.pte (v : View) (p : Nat) : BitVec 32 :=
  if 32840 ≤ p ∧ p < 34887 then entry (v.page (p - 32840)) (perm (v.rw (p - 32840)))
  else if p = 34887 then entry v.tramp (perm v.trampRw)
  else 0#32

/-- The address of the entry of the page number `p`. -/
def View.pteAddr (v : View) (p : Nat) : Nat := v.tab (p / 1024 - 32) * 4096 + 4 * (p % 1024)

def View.tables (v : View) : List Nat := [v.pd, v.tab 0, v.tab 1, v.tab 2]

/-- The frames of the space alone: tables and trampoline. -/
def View.fixed (v : View) : List Nat := v.tramp :: v.tables

def View.pages (v : View) : List Nat := (List.range dataPages).map v.page

def View.setPage (v : View) (i f : Nat) (w : Bool) : View :=
  { v with page := Function.update v.page i f, rw := Function.update v.rw i w }

/-- The memory holds the tables of `v`, with the kernel's `kpd`. -/
structure Mapped (m : Mem) (kpd : Nat) (v : View) : Prop where
  pd_pos : 0 < v.pd
  nodup : (kpd :: v.tables).Nodup
  table_lt : ∀ f ∈ v.tables, f < 1048576
  tramp_lt : v.tramp < 1048576
  page_lt : ∀ i, i < dataPages → v.page i < 1048576
  dir : ∀ j, j < 1024 → rdEntry m (v.pd * 4096) j =
    if 32 ≤ j ∧ j < 35 then entry (v.tab (j - 32)) 7#12 else rdEntry m (kpd * 4096) j
  ent : ∀ k j, k < 3 → j < 1024 → rdEntry m (v.tab k * 4096) j = v.pte (1024 * (32 + k) + j)

variable {p : Nat} {k : Nat} {o : Nat}

section

variable {f g : Nat} {w : Bool}

@[simp] theorem present_perm : isPresent (entry f (perm w)) = true := by
  rw [isPresent_entry]
  cases w <;> rfl

@[simp] theorem writable_perm : isWritable (entry f (perm w)) = w := by
  rw [isWritable_entry]
  cases w <;> rfl

@[simp] theorem user_perm : isUser (entry f (perm w)) = true := by
  rw [isUser_entry]
  cases w <;> rfl

theorem entry_block (hf : f < 1048576) :
    BitVec.ofNat 32 (f * 4096) ||| 3#32 ||| 4#32 = entry f 7#12 := by
  rw [ofNat_eq_entry hf]
  have h3 : entry f 0#12 ||| 3#32 = entry f (0#12 ||| 3#12) := entry_or f 0#12 3#12
  have h4 : entry f (0#12 ||| 3#12) ||| 4#32 = entry f (0#12 ||| 3#12 ||| 4#12) := entry_or f _ 4#12
  rw [h3, h4]
  rfl

theorem entry_tramp (hf : f < 1048576) :
    BitVec.ofNat 32 (f * 4096) ||| 1#32 ||| 4#32 = entry f (perm false) := by
  rw [ofNat_eq_entry hf]
  have h1 : entry f 0#12 ||| 1#32 = entry f (0#12 ||| 1#12) := entry_or f 0#12 1#12
  have h4 : entry f (0#12 ||| 1#12) ||| 4#32 = entry f (0#12 ||| 1#12 ||| 4#12) := entry_or f _ 4#12
  rw [h1, h4]
  rfl

theorem entry_retarget (hf : f < 1048576) (fl : BitVec 12) :
    BitVec.ofNat 32 (f * 4096) ||| flagsOf (entry g fl) = entry f fl := by
  rw [ofNat_eq_entry hf, flagsOf_entry, entry_or, BitVec.zero_or]

theorem entry_unprotect : entry f (perm w) ||| 2#32 = entry f (perm true) := by
  have h : entry f (perm w) ||| 2#32 = entry f (perm w ||| 2#12) := entry_or f _ 2#12
  rw [h]
  cases w <;> rfl

theorem entry_protect : entry f (perm w) &&& ~~~2#32 = entry f (perm false) := by
  have h : entry f (perm w) &&& ~~~2#32 = entry f (perm w &&& ~~~2#12) := entry_and f _ (~~~2#12)
  rw [h]
  cases w <;> rfl

variable {v v' : View} {i : Nat}

theorem pte_page (hi : i < dataPages) : v.pte (32840 + i) = entry (v.page i) (perm (v.rw i)) := by
  unfold dataPages at hi
  rw [View.pte, if_pos (by omega), Nat.add_sub_cancel_left]

theorem pte_tramp (v : View) : v.pte 34887 = entry v.tramp (perm v.trampRw) := by
  rw [View.pte, if_neg (by omega), if_pos rfl]

theorem pte_outside (hp : p < 32840 ∨ 34887 < p) : v.pte p = 0#32 := by
  rw [View.pte, if_neg (by omega), if_neg (by omega)]

theorem setPage_pte (hi : i < dataPages) (p : Nat) :
    (v.setPage i f w).pte p = if p = 32840 + i then entry f (perm w) else v.pte p := by
  by_cases hp : p = 32840 + i
  · subst hp
    rw [pte_page hi]
    simp [View.setPage]
  · rw [if_neg hp]
    by_cases hd : 32840 ≤ p ∧ p < 34887
    · have hne : p - 32840 ≠ i := by omega
      simp [View.pte, View.setPage, hd, hne]
    · simp [View.pte, View.setPage, hd]

theorem setTramp_pte (v : View) (w : Bool) (p : Nat) :
    ({ v with trampRw := w } : View).pte p = if p = 34887 then entry v.tramp (perm w)
    else v.pte p := by
  by_cases hp : p = 34887
  · subst hp
    rw [if_pos rfl, pte_tramp]
  · simp [View.pte, hp]

theorem pageVa_div (i : Nat) (ho : o < 4096) : (pageVa i + o) / 4096 = 32840 + i := by
  unfold pageVa userBase
  omega

theorem pageVa_mod (i : Nat) (ho : o < 4096) : (pageVa i + o) % 4096 = o := by
  unfold pageVa userBase
  omega

theorem page_covered (hi : i < dataPages) : 32768 ≤ 32840 + i ∧ 32840 + i < 35840 := by
  unfold dataPages at hi
  omega

end

namespace Mapped

variable {m m' : Mem} {kpd : Nat} {v : View} {fs : List Nat}

theorem tab_mem (v : View) (hk : k < 3) : v.tab k ∈ v.tables := by
  have hc : k = 0 ∨ k = 1 ∨ k = 2 := by omega
  obtain rfl | rfl | rfl := hc <;> simp [View.tables]

section

variable (h : Mapped m kpd v)
include h

theorem agree (ha : AgreeOff fs m m') (hd : ∀ f ∈ kpd :: v.tables, f ∉ fs) : Mapped m' kpd v := by
  refine ⟨h.pd_pos, h.nodup, h.table_lt, h.tramp_lt, h.page_lt, ?_, ?_⟩
  · intro j hj
    rw [ha.rdEntry (hd v.pd (by simp [View.tables])) hj, h.dir j hj, ha.rdEntry (hd kpd (by simp)) hj]
  · intro k j hk hj
    rw [ha.rdEntry (hd _ (mem_cons_of_mem _ (tab_mem v hk))) hj, h.ent k j hk hj]

theorem tab_ne_pd (hk : k < 3) : v.pd ≠ v.tab k := by
  have hn := h.nodup
  have hc : k = 0 ∨ k = 1 ∨ k = 2 := by omega
  simp only [View.tables, nodup_cons, mem_cons, not_or] at hn
  obtain rfl | rfl | rfl := hc
  · exact hn.2.1.1
  · exact hn.2.1.2.1
  · exact hn.2.1.2.2.1

theorem tab_ne_kpd (hk : k < 3) : kpd ≠ v.tab k :=
  fun he => (nodup_cons.mp h.nodup).1 (he ▸ tab_mem v hk)

theorem tab_inj {l : Nat} (hk : k < 3) (hl : l < 3) (he : v.tab k = v.tab l) : k = l := by
  have hn := h.nodup
  simp only [View.tables, nodup_cons, mem_cons, not_or] at hn
  obtain ⟨-, -, ⟨h01, h02, -⟩, ⟨h12, -⟩, -⟩ := hn
  have hc : k = 0 ∨ k = 1 ∨ k = 2 := by omega
  have hd : l = 0 ∨ l = 1 ∨ l = 2 := by omega
  obtain rfl | rfl | rfl := hc <;> obtain rfl | rfl | rfl := hd <;>
    first
      | rfl
      | exact absurd he h01
      | exact absurd he h02
      | exact absurd he h12
      | exact absurd he.symm h01
      | exact absurd he.symm h02
      | exact absurd he.symm h12

theorem userPte_eq {va : Nat} (hp : va / 4096 = p) (h1 : 32768 ≤ p)
    (h2 : p < 35840) : userPte m (v.pd * 4096) va = some (v.pteAddr p) := by
  have hpos := h.pd_pos
  have hne : ¬ v.pd * 4096 = 0 := by omega
  have hdiv : va / 4194304 = p / 1024 := by omega
  have hd : rdEntry m (v.pd * 4096) (p / 1024) = entry (v.tab (p / 1024 - 32)) 7#12 := by
    rw [h.dir _ (by omega), if_pos (by omega)]
  have hl := h.table_lt _ (tab_mem v (by omega : p / 1024 - 32 < 3))
  have hpr : isPresent (entry (v.tab (p / 1024 - 32)) 7#12) = true := present_perm (w := true)
  simp only [userPte, hne, if_false, hdiv, hd, hpr, if_true, addrOf_entry hl, hp, View.pteAddr]

theorem rdPte_eq (h1 : 32768 ≤ p) (h2 : p < 35840) : rd32 m (v.pteAddr p) = v.pte p := by
  have he := h.ent (p / 1024 - 32) (p % 1024) (by omega) (Nat.mod_lt _ (by omega))
  have hp : 1024 * (32 + (p / 1024 - 32)) + p % 1024 = p := by omega
  rw [hp] at he
  exact he

theorem translate_page {i o : Nat} (hi : i < dataPages) (ho : o < 4096) :
    mmUserTranslate m (v.pd * 4096) (pageVa i + o) = v.page i * 4096 + o := by
  obtain ⟨h1, h2⟩ := page_covered hi
  simp only [mmUserTranslate, h.userPte_eq (pageVa_div i ho) h1 h2, h.rdPte_eq h1 h2, pte_page hi,
    present_perm, if_true, addrOf_entry (h.page_lt i hi), pageVa_mod i ho]

theorem setPte {u : View} {e : BitVec 32} (h1 : 32768 ≤ p) (h2 : p < 35840)
    (hpd : u.pd = v.pd) (htab : u.tab = v.tab) (htramp : u.tramp < 1048576)
    (hpage : ∀ i, i < dataPages → u.page i < 1048576)
    (hpte : ∀ q, u.pte q = if q = p then e else v.pte q) :
    Mapped (wr32 m (v.pteAddr p) e) kpd u := by
  have hk : p / 1024 - 32 < 3 := by omega
  have htabs : u.tables = v.tables := by simp only [View.tables, hpd, htab]
  have ha := agree_wrEntry m (v.tab (p / 1024 - 32)) e (Nat.mod_lt p (by omega : 0 < 1024))
  refine ⟨hpd ▸ h.pd_pos, htabs ▸ h.nodup, htabs ▸ h.table_lt, htramp, hpage, ?_, ?_⟩
  · intro i hi
    have hr := ha.rdEntry (by simpa using h.tab_ne_pd hk) hi
    have hq := ha.rdEntry (by simpa using h.tab_ne_kpd hk) hi
    rw [hpd, htab]
    exact hr.trans ((h.dir i hi).trans (by rw [← hq]; rfl))
  · intro l i hl hi
    rw [htab, hpte]
    by_cases hkl : l = p / 1024 - 32
    · by_cases hij : i = p % 1024
      · rw [if_pos (by omega), hkl, hij]
        exact rdEntry_wrEntry_self m _ _ e
      · rw [if_neg (by omega), ← h.ent l i hl hi, hkl]
        exact rdEntry_wrEntry_index m _ e hij
    · rw [if_neg (by omega), ← h.ent l i hl hi]
      exact ha.rdEntry (by simpa using fun he => hkl (h.tab_inj hl hk he)) hi

end

end Mapped

end MuOS.Mm.Views
