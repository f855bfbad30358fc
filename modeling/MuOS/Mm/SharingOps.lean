import MuOS.Mm.Sharing

namespace MuOS.Mm.SharingOps

open Function Lib Memory Paging Tally Frames Ledger FrameOps Grants UserPd Views TableOps Sharing
  User.Window List Nat

/-- The allocator counts the references of `live` and the `rest`. -/
structure Sound (s : Machine) (reserved : Nat → Prop) (kpd : Nat) (rest : Nat → Nat)
    (live : Nat → Option View) (n : Nat) : Prop where
  dir : s.pageDirPhys = kpd * 4096
  aligned : s.cr3 % 4096 = 0
  shared : Shared s.mem kpd rest live n
  ledger : Consistent s.fr (heldBy rest live n) reserved

def SameBytes (m : Mem) (v : View) (m' : Mem) (v' : View) : Prop :=
  ∀ i o, i < dataPages → o < 4096 → m' (v'.page i * 4096 + o) = m (v.page i * 4096 + o)

/-- Spaces and bytes are kept, and cached translations while the loaded space is. -/
structure Kept (s s' : Machine) (live live' : Nat → Option View) : Prop where
  dom : ∀ k, live k = none → live' k = none
  view : ∀ k v, live k = some v → ∃ v', live' k = some v' ∧ v'.pd = v.pd ∧ v'.tramp = v.tramp ∧
    SameBytes s.mem v s'.mem v'
  cr3 : s'.cr3 = s.cr3
  tlb : ∀ p e, s'.tlb p = some e → s.tlb p = some e ∧
    ∀ k v, live k = some v → s.cr3 = v.pd * 4096 → live' k = some v
  cloneFailed : s'.cloneFailed = s.cloneFailed
  total : s'.fr.totalPages = s.fr.totalPages
  oom : s.oom = true → s'.oom = true

variable {m' : Mem} {fr : Allocator} {i : Nat} {gs : List Nat} {g : Nat} {va : Nat}

theorem Kept.refl (s : Machine) (live : Nat → Option View) : Kept s s live live :=
  ⟨fun _ h => h, fun _ v h => ⟨v, h, rfl, rfl, fun _ _ _ _ => rfl⟩, rfl,
    fun _ _ h => ⟨h, fun _ _ h _ => h⟩, rfl, rfl, id⟩

theorem Kept.trans {s s' s'' : Machine} {live live' live'' : Nat → Option View}
    (h : Kept s s' live live') (h' : Kept s' s'' live' live'') : Kept s s'' live live'' := by
  refine ⟨fun k hk => h'.dom k (h.dom k hk), ?_, h'.cr3.trans h.cr3, ?_,
    h'.cloneFailed.trans h.cloneFailed, h'.total.trans h.total, fun ho => h'.oom (h.oom ho)⟩
  · intro k v hk
    obtain ⟨v', hk', hpd, htr, hb⟩ := h.view k v hk
    obtain ⟨v'', hk'', hpd', htr', hb'⟩ := h'.view k v' hk'
    exact ⟨v'', hk'', hpd'.trans hpd, htr'.trans htr,
      fun i o hi ho => (hb' i o hi ho).trans (hb i o hi ho)⟩
  · intro p e he
    obtain ⟨he', hv'⟩ := h'.tlb p e he
    obtain ⟨he'', hv⟩ := h.tlb p e he'
    exact ⟨he'', fun k v hk hc => hv' k v (hv k v hk hc) (h.cr3.trans hc)⟩

section

variable {live : Nat → Option View} {n k f : Nat} {v w : View}

section

variable (rest : Nat → Nat) (hlt : k < n) (hk : live k = some v)
include rest hlt hk

theorem heldBy_replace (hfix : w.fixed = v.fixed) (f : Nat) :
    heldBy rest (update live k (some w)) n f + v.pages.count f = heldBy rest live n f +
    w.pages.count f := by
  have hx := tally_replace (b := w) hlt hk fun v => v.fixed.count f
  have hd := tally_replace (b := w) hlt hk fun v => v.pages.count f
  simp only [hfix] at hx
  simp only [heldBy, fixedUse, dataUse]
  omega

theorem heldBy_retune (hfix : w.fixed = v.fixed)
    (hpages : w.pages = v.pages) : heldBy rest (update live k (some w)) n = heldBy rest live n := by
  funext f
  have h := heldBy_replace rest hlt hk hfix f
  rw [hpages] at h
  omega

end

theorem dataUse_retune (hlt : k < n) (hk : live k = some v) (hpages : w.pages = v.pages) (f : Nat) :
    dataUse (update live k (some w)) n f = dataUse live n f := by
  have hd := tally_replace (b := w) hlt hk fun v => v.pages.count f
  simp only [hpages] at hd
  unfold dataUse
  omega

theorem setPage_pages (v : View) (i g : Nat) (w : Bool) :
    (v.setPage i g w).pages = v.pages.set i g := by
  apply ext_getElem
  · simp [View.pages]
  intro j h1 h2
  by_cases hij : i = j
  · subst hij
    simp [View.pages, View.setPage]
  · simp [View.pages, View.setPage, hij, Ne.symm hij]

theorem setPage_count (v : View) (g : Nat) (w : Bool) (hi : i < dataPages) (f : Nat) :
    (v.setPage i g w).pages.count f + (if f = v.page i then 1
    else 0) = v.pages.count f + (if f = g then 1 else 0) := by
  have hlen : i < v.pages.length := by simpa [View.pages] using hi
  have hget : v.pages[i] = v.page i := by simp [View.pages]
  have hpos : 0 < v.pages.count (v.page i) := count_pos_iff.mpr (page_mem hi)
  rw [setPage_pages, count_set hlen, hget]
  by_cases ho : f = v.page i
  · subst ho
    by_cases hg : v.page i = g
    · simp [hg]
      rw [hg] at hpos
      omega
    · simp [hg, Ne.symm hg]
      omega
  · by_cases hg : f = g
    · subst hg
      simp [ho, Ne.symm ho]
    · simp [ho, hg, Ne.symm ho, Ne.symm hg]

end

variable {s : Machine} {reserved : Nat → Prop} {kpd n k : Nat} {rest : Nat → Nat}
  {live : Nat → Option View} {v v' : View} {fs : List Nat}

theorem Kept.of_replace {x : Machine} (hk : live k = some v) (hcr : s.cr3 % 4096 = 0)
    (hpos : 0 < v.pd) (hpd : v'.pd = v.pd) (htramp : v'.tramp = v.tramp) (hx3 : x.cr3 = s.cr3)
    (hxt : x.tlb = s.tlb) (hxc : x.cloneFailed = s.cloneFailed) (hxo : x.oom = s.oom)
    (htot : x.fr.totalPages = s.fr.totalPages) (hown : SameBytes s.mem v x.mem v')
    (hothers : ∀ l u, live l = some u → SameBytes s.mem u x.mem u) :
    Kept s (refresh x (v.pd * 4096)) live (update live k (some v')) := by
  have hcx : x.cr3 % 4096 = 0 := hx3 ▸ hcr
  refine ⟨?_, ?_, (refresh_cr3 hcx (by omega)).trans hx3, ?_, ?_, ?_, ?_⟩
  · intro l hl
    have hne : l ≠ k := by
      rintro rfl
      rw [hk] at hl
      cases hl
    rw [update_of_ne hne]
    exact hl
  · intro l u hu
    rw [refresh_mem]
    by_cases hlk : l = k
    · subst hlk
      cases hu.symm.trans hk
      exact ⟨v', update_self .., hpd, htramp, hown⟩
    · exact ⟨u, by rw [update_of_ne hlk]; exact hu, rfl, rfl, hothers l u hu⟩
  · intro p e he
    obtain ⟨hne, he'⟩ := refresh_tlb hcx _ p e he
    refine ⟨hxt ▸ he', ?_⟩
    intro l u hu hc
    have hlk : l ≠ k := by
      intro he
      subst he
      cases hu.symm.trans hk
      exact hne (hx3.trans hc)
    rw [update_of_ne hlk]
    exact hu
  · rw [refresh_cloneFailed, hxc]
  · rw [refresh_fr, htot]
  · rw [refresh_oom, hxo]
    exact id

namespace Sound

section

variable (h : Sound s reserved kpd rest live n) (hk : live k = some v)
include h hk

theorem held_page (hi : i < dataPages) :
    heldBy rest live n (v.page i) = dataUse live n (v.page i) ∧ 0 < dataUse live n (v.page i) := by
  obtain ⟨h0, h1⟩ := h.shared.data k v i hk hi
  exact ⟨by simp only [heldBy, h0, h1]; omega, h.shared.dataUse_pos hk (page_mem hi)⟩

theorem held_fixed {f : Nat} (hf : f ∈ v.fixed) : heldBy rest live n f = 1 := by
  obtain ⟨h0, h1, h2⟩ := h.shared.fixed k v f hk hf
  simp only [heldBy, h0, h1, h2]

end

def Plain (rest : Nat → Nat) (live : Nat → Option View) (n f : Nat) : Prop :=
  rest f = 0 ∧ fixedUse live n f = 0

theorem plain_of_unheld {f : Nat} (h : heldBy rest live n f = 0) : Plain rest live n f ∧
    dataUse live n f = 0 := by
  simp only [heldBy] at h
  exact ⟨⟨by omega, by omega⟩, by omega⟩

section

variable (h : Sound s reserved kpd rest live n)
include h

section

variable (hk : live k = some v)
include hk

theorem sameBytes_of_agree (ha : AgreeOff (fs ++ v'.tables) s.mem m')
    (hfs : ∀ f ∈ fs, dataUse live n f = 0) (hv' : ∀ f ∈ v'.tables, dataUse live n f = 0) :
    SameBytes s.mem v m' v := by
  intro i o hi ho
  apply ha
  have hd : (v.page i * 4096 + o) / 4096 = v.page i := by omega
  rw [hd]
  intro hm
  have hp := h.shared.dataUse_pos hk (page_mem hi)
  cases mem_append.mp hm with
  | inl hm =>
    have h0 := hfs _ hm
    omega
  | inr hm =>
    have h0 := hv' _ hm
    omega

theorem tables_unused : ∀ f ∈ v.tables, dataUse live n f = 0 :=
  fun f hf => (h.shared.fixed k v f hk (table_mem_fixed hf)).2.2

theorem retune {u : View}
    (hpd : u.pd = v.pd) (htab : u.tab = v.tab) (htramp : u.tramp = v.tramp)
    (hpage : u.page = v.page) (hmap : Mapped m' kpd u) (ha : AgreeOff v.tables s.mem m')
    (hexcl : ∀ i, i < dataPages → u.rw i = true → dataUse live n (v.page i) = 1) :
    Sound (refresh (setMem s m') (v.pd * 4096)) reserved kpd rest (update live k (some u)) n ∧
      Kept s (refresh (setMem s m') (v.pd * 4096)) live (update live k (some u)) := by
  have hlt := h.shared.live_lt k v hk
  have hfix : u.fixed = v.fixed := by simp only [View.fixed, View.tables, hpd, htab, htramp]
  have hpages : u.pages = v.pages := by simp only [View.pages, hpage]
  have hpos := (h.shared.mapped k v hk).pd_pos
  have ha' : AgreeOff ([] ++ v.tables) s.mem m' := ha
  have hbytes : ∀ l w, live l = some w → SameBytes s.mem w m' w := fun l w hw =>
    h.sameBytes_of_agree hw ha' (fun f hf => absurd hf not_mem_nil) (h.tables_unused hk)
  constructor
  · refine ⟨by simpa using h.dir, ?_, ?_, ?_⟩
    · rw [refresh_cr3 (s := setMem s m') h.aligned (by omega)]
      exact h.aligned
    · rw [refresh_mem]
      refine h.shared.replace hk hfix hmap ha' (fun f hf => absurd hf not_mem_nil) ?_ ?_ ?_
      · exact fun i hi => .inl (hpage ▸ page_mem hi)
      · intro i j hi hj he
        rw [hpage] at he
        exact h.shared.inj k v i j hk hi hj he
      · intro i hi hrw
        rw [dataUse_retune hlt hk hpages, hpage]
        exact hexcl i hi hrw
    · rw [refresh_fr, heldBy_retune rest hlt hk hfix hpages]
      exact h.ledger
  · refine Kept.of_replace hk h.aligned hpos hpd htramp rfl rfl rfl rfl rfl ?_ hbytes
    intro i o hi ho
    rw [hpage]
    exact hbytes k v hk i o hi ho

end

end

theorem setPage_self (v : View) (i g : Nat) (w : Bool) : (v.setPage i g w).page i = g := by
  simp [View.setPage]

theorem setPage_other (v : View) {j : Nat} (g : Nat) (w : Bool) (h : j ≠ i) :
    (v.setPage i g w).page j = v.page j := by simp [View.setPage, h]

theorem dataUse_copy (hlt : k < n) (hk : live k = some v) (hi : i < dataPages) (g f : Nat) :
    dataUse (update live k (some (v.setPage i g true))) n f + (if f = v.page i then 1 else 0) =
      dataUse live n f + (if f = g then 1 else 0) := by
  have ht := tally_replace (b := v.setPage i g true) hlt hk fun v => v.pages.count f
  have hs := setPage_count v g true hi f
  unfold dataUse
  omega

structure Copied (m : Mem) (kpd : Nat) (v : View) (i g : Nat) (m' : Mem) : Prop where
  mapped : Mapped m' kpd (v.setPage i g true)
  agree : AgreeOff ([g] ++ v.tables) m m'
  bytes : ∀ o, o < 4096 → m' (g * 4096 + o) = m (v.page i * 4096 + o)

theorem mapped_copied {m : Mem} (hv : Mapped m kpd v) (hi : i < dataPages) (hlt : g < 1048576)
    (hg : g ∉ kpd :: v.tables) (src : Nat) :
      Mapped (wr32 (copyPage m (g * 4096) src) (v.pteAddr (32840 + i))
      (entry g (perm true))) kpd (v.setPage i g true) := by
  obtain ⟨h1, h2⟩ := page_covered hi
  have hmapc : Mapped (copyPage m (g * 4096) src) kpd v :=
    hv.agree (agree_copyPage m g src) fun f hf hm => hg (mem_singleton.mp hm ▸ hf)
  refine hmapc.setPte h1 h2 rfl rfl hv.tramp_lt (fun j hj => ?_) (setPage_pte hi)
  by_cases he : j = i
  · rw [he, setPage_self]
    exact hlt
  · rw [setPage_other v g true he]
    exact hv.page_lt j hj

theorem copied_byte (m : Mem) (hi : i < dataPages) (hg : g ∉ v.tables) (src : Nat) {o : Nat}
    (ho : o < 4096)
    (e : BitVec 32) : wr32 (copyPage m (g * 4096) src) (v.pteAddr (32840 + i)) e (g * 4096 + o) = m
    (src + o) := by
  obtain ⟨h1, h2⟩ := page_covered hi
  have hd : (g * 4096 + o) / 4096 = g := by omega
  rw [agree_pte _ v _ h1 h2 _ (by rwa [hd]), copyPage_byte _ _ _ ho]

theorem copied {m : Mem} (hv : Mapped m kpd v) (hi : i < dataPages) (hlt : g < 1048576)
    (hg : g ∉ kpd :: v.tables) :
      Copied m kpd v i g (wr32 (copyPage m (g * 4096) (v.page i * 4096)) (v.pteAddr (32840 + i))
      (entry g (perm true))) := by
  obtain ⟨h1, h2⟩ := page_covered hi
  have hcp := agree_copyPage m g (v.page i * 4096)
  refine ⟨mapped_copied hv hi hlt hg _, ?_, fun o ho => copied_byte m hi
    (fun hm => hg (mem_cons_of_mem _ hm)) _ ho _⟩
  exact (hcp.mono (subset_append_left _ _)).trans
    ((agree_pte _ v _ h1 h2).mono (subset_append_right _ _))

theorem copy (h : Sound s reserved kpd rest live n) (hk : live k = some v) (hi : i < dataPages)
    (hshare : 1 < dataUse live n (v.page i)) (hg : Fresh (heldBy rest live n) reserved g)
    (htot : fr.totalPages = s.fr.totalPages)
    (hc : Consistent fr (addAll (heldBy rest live n) [g]) reserved)
    (hm : Copied s.mem kpd v i g m') :
    Sound (refresh (setFr (setMem s m') (pageUnref fr (v.page i))) (v.pd * 4096)) reserved kpd rest
        (update live k (some (v.setPage i g true))) n ∧
      Kept s (refresh (setFr (setMem s m') (pageUnref fr (v.page i))) (v.pd * 4096)) live
        (update live k (some (v.setPage i g true))) := by
  have hlt := h.shared.live_lt k v hk
  have hpos := (h.shared.mapped k v hk).pd_pos
  obtain ⟨hplain, hg0⟩ := plain_of_unheld hg.unheld
  obtain ⟨hheld, -⟩ := h.held_page hk hi
  have hgpage : g ∉ v.pages := fun hm => by
    have hp := h.shared.dataUse_pos hk hm
    omega
  have hdata := dataUse_copy hlt hk hi g
  have hbytes : ∀ l u, live l = some u → SameBytes s.mem u m' u := fun l u hu =>
    h.sameBytes_of_agree hu hm.agree (fun f hf => mem_singleton.mp hf ▸ hg0) (h.tables_unused hk)
  have hone : ∀ f, ([v.page i] : List Nat).count f ≤ addAll (heldBy rest live n) [g] f := by
    intro f
    by_cases hf : f = v.page i
    · subst hf
      simp only [addAll, count_singleton_self]
      omega
    · rw [count_eq_zero_of_not_mem (by simpa using hf)]
      omega
  obtain ⟨hu, hut⟩ := unrefAll_spec [v.page i] hc hone
  constructor
  · refine ⟨by simpa using h.dir, ?_, ?_, ?_⟩
    · rw [refresh_cr3 (s := setFr (setMem s m') _) h.aligned (by omega)]
      exact h.aligned
    · rw [refresh_mem, setFr_mem]
      refine h.shared.replace hk rfl hm.mapped hm.agree (fun f hf => mem_singleton.mp hf ▸ hplain) ?_ ?_ ?_
      · intro j hj
        by_cases he : j = i
        · rw [he, setPage_self]
          exact .inr ⟨hplain.1, hplain.2, hg0⟩
        · rw [setPage_other v g true he]
          exact .inl (page_mem hj)
      · intro a b hA hB hab
        by_cases hai : a = i
        · by_cases hbi : b = i
          · exact hai.trans hbi.symm
          rw [hai, setPage_self, setPage_other v g true hbi] at hab
          exact absurd (hab ▸ page_mem hB) hgpage
        · by_cases hbi : b = i
          · rw [hbi, setPage_self, setPage_other v g true hai] at hab
            exact absurd (hab ▸ page_mem hA) hgpage
          · rw [setPage_other v g true hai, setPage_other v g true hbi] at hab
            exact h.shared.inj k v a b hk hA hB hab
      · intro j hj hrw
        by_cases he : j = i
        · have hdg := hdata g
          have hne : g ≠ v.page i := fun he => hgpage (he ▸ page_mem hi)
          rw [if_neg hne, if_pos rfl, hg0] at hdg
          rw [he, setPage_self]
          exact hdg
        · have hrw' : v.rw j = true := by simpa [View.setPage, he] using hrw
          have hj1 := h.shared.excl k v j hk hj hrw'
          have hne : v.page j ≠ v.page i := fun hp => he (h.shared.inj k v j i hk hj hi hp)
          have hneg : v.page j ≠ g := fun hp => hgpage (hp ▸ page_mem hj)
          have hdj := hdata (v.page j)
          rw [if_neg hne, if_neg hneg, hj1] at hdj
          rw [setPage_other v g true he]
          exact hdj
    · have he : dropAll (addAll (heldBy rest live n) [g]) [v.page i] =
          heldBy rest (update live k (some (v.setPage i g true))) n := by
        funext f
        have hr := heldBy_replace rest (w := v.setPage i g true) hlt hk rfl f
        have hs := setPage_count v g true hi f
        simp only [dropAll, addAll, count_singleton, beq_iff_eq, eq_comm (a := g), eq_comm (a := v.page i)]
        omega
      rw [refresh_fr, ← he]
      exact hu
  · refine Kept.of_replace hk h.aligned hpos rfl rfl rfl rfl rfl rfl (hut.trans htot) ?_ hbytes
    intro j o hj ho
    by_cases he : j = i
    · rw [he, setPage_self]
      exact hm.bytes o ho
    · rw [setPage_other v g true he]
      exact hbytes k v hk j o hj ho

theorem update_self_eq (hk : live k = some v) : update live k (some v) = live := by
  rw [← hk]
  exact update_eq_self k live

theorem setOom_sound (h : Sound s reserved kpd rest live n) :
    Sound (setOom s) reserved kpd rest live n :=
  ⟨h.dir, h.aligned, h.shared, h.ledger⟩

theorem setOom_kept (s : Machine) (live : Nat → Option View) : Kept s (setOom s) live live :=
  ⟨fun _ h => h, fun _ v h => ⟨v, h, rfl, rfl, fun _ _ _ _ => rfl⟩, rfl,
    fun _ _ h => ⟨h, fun _ _ h _ => h⟩, rfl, rfl, fun _ => rfl⟩

section

variable (h : Sound s reserved kpd rest live n)
include h

section

variable (hk : live k = some v)
include hk

theorem table_not_fresh (hg : heldBy rest live n g = 0) : g ∉ kpd :: v.tables := by
  obtain ⟨hplain, -⟩ := plain_of_unheld hg
  intro hm
  cases mem_cons.mp hm with
  | inl he =>
    have hp := h.shared.kdir
    have h0 := hplain.1
    rw [he] at h0
    omega
  | inr hm =>
    have hf := (h.shared.fixed k v g hk (table_mem_fixed hm)).2.1
    have h0 := hplain.2
    omega

theorem writeProtect : Sound (mmUserWriteProtect s (v.pd * 4096)) reserved kpd rest
        (update live k (some (protect v dataPages))) n ∧
      Kept s (mmUserWriteProtect s (v.pd * 4096)) live (update live k (some (protect v dataPages))) ∧
      AgreeOff v.tables s.mem (mmUserWriteProtect s (v.pd * 4096)).mem ∧
      (mmUserWriteProtect s (v.pd * 4096)).oom = s.oom := by
  obtain ⟨m, he, hmap, ha⟩ := writeProtect_spec (h.shared.mapped k v hk)
  rw [he]
  obtain ⟨hs, hkept⟩ := h.retune hk (u := protect v dataPages) rfl rfl rfl rfl hmap ha
    (fun i hi hrw => by simp [protect, hi] at hrw)
  exact ⟨hs, hkept, by simpa using ha, by simp⟩

variable [WindowReserved reserved]

theorem makePage (va : Nat) (hi : i < dataPages) (hva : va / 4096 = 32840 + i) :
    ∃ v', v'.pd = v.pd ∧
      Sound (mmUserMakeWritable s (v.pd * 4096) va).2 reserved kpd rest (update live k (some v')) n ∧
      Kept s (mmUserMakeWritable s (v.pd * 4096) va).2 live (update live k (some v')) ∧
      ((mmUserMakeWritable s (v.pd * 4096) va).1 = true →
        (mmUserMakeWritable s (v.pd * 4096) va).2.oom = s.oom ∧ v'.rw i = true) ∧
      ((mmUserMakeWritable s (v.pd * 4096) va).1 = false →
        (mmUserMakeWritable s (v.pd * 4096) va).2.oom = true) := by
  have hv := h.shared.mapped k v hk
  obtain ⟨h1, h2⟩ := page_covered hi
  obtain ⟨hheld, hpos⟩ := h.held_page hk hi
  obtain ⟨hw, he⟩ | ⟨hw, hone, he⟩ | ⟨hw, hmany, he, -⟩ | ⟨hw, hmany, g, fr, he, hg, htot, hc⟩ :=
    makeWritable_cases h.ledger hv hva h1 h2 (pte_page hi) (hv.page_lt i hi) (by omega)
  · rw [he]
    refine ⟨v, rfl, ?_, ?_, fun _ => ⟨rfl, hw⟩, fun hf => by cases hf⟩
    · rw [update_self_eq hk]
      exact h
    · rw [update_self_eq hk]
      exact Kept.refl s live
  · rw [he]
    have hpage : (v.setPage i (v.page i) true).page = v.page := update_eq_self i v.page
    have hmap := hv.setPte (u := v.setPage i (v.page i) true) h1 h2 rfl rfl hv.tramp_lt
      (fun j hj => by rw [hpage]; exact hv.page_lt j hj) (setPage_pte hi)
    obtain ⟨hs, hkept⟩ := h.retune hk (u := v.setPage i (v.page i) true) rfl rfl rfl hpage hmap
      (agree_pte s.mem v _ h1 h2) (by
        intro j hj hrw
        by_cases hji : j = i
        · subst hji
          omega
        · exact h.shared.excl k v j hk hj (by simpa [View.setPage, hji] using hrw))
    exact ⟨v.setPage i (v.page i) true, rfl, hs, hkept, fun _ => ⟨by simp, by simp [View.setPage]⟩,
      fun hf => by cases hf⟩
  · rw [he]
    refine ⟨v, rfl, ?_, ?_, fun hf => absurd hf (by simp), fun _ => rfl⟩
    · rw [update_self_eq hk]
      exact h.setOom_sound
    · rw [update_self_eq hk]
      exact setOom_kept s live
  · rw [he]
    obtain ⟨hs, hkept⟩ :=
      h.copy hk hi (by omega) hg htot hc (copied hv hi hg.lt (h.table_not_fresh hk hg.unheld))
    exact ⟨v.setPage i g true, rfl, hs, hkept, fun _ => ⟨by simp, by simp [View.setPage]⟩,
      fun hf => by cases hf⟩

theorem makeTramp (hva : va / 4096 = 34887) :
    ∃ w, Sound (mmUserMakeWritable s (v.pd * 4096) va).2 reserved kpd rest
        (update live k (some { v with trampRw := w })) n ∧
      Kept s (mmUserMakeWritable s (v.pd * 4096) va).2 live
        (update live k (some { v with trampRw := w })) ∧
      (mmUserMakeWritable s (v.pd * 4096) va).1 = true ∧
      (mmUserMakeWritable s (v.pd * 4096) va).2.oom = s.oom := by
  have hv := h.shared.mapped k v hk
  have hone := h.held_fixed hk mem_cons_self
  obtain ⟨hw, he⟩ | ⟨-, -, he⟩ | ⟨-, hmany, -, -⟩ | ⟨-, hmany, -⟩ :=
    makeWritable_cases h.ledger hv hva (by omega) (by omega) (pte_tramp v) hv.tramp_lt (by omega)
  · rw [he]
    refine ⟨v.trampRw, ?_, ?_, rfl, rfl⟩
    · rw [update_self_eq hk]
      exact h
    · rw [update_self_eq hk]
      exact Kept.refl s live
  · rw [he]
    have hmap := hv.setPte (u := { v with trampRw := true }) (by omega) (by omega) rfl rfl
      hv.tramp_lt hv.page_lt (setTramp_pte v true)
    obtain ⟨hs, hkept⟩ := h.retune hk (u := { v with trampRw := true }) rfl rfl rfl rfl hmap
      (agree_pte s.mem v _ (by omega) (by omega)) fun j hj hrw => h.shared.excl k v j hk hj hrw
    exact ⟨true, hs, hkept, rfl, by simp⟩
  · omega
  · omega

theorem makeWritable (h1 : userBase ≤ va) (h2 : va < userEnd) : ∃ v', v'.pd = v.pd ∧
      Sound (mmUserMakeWritable s (v.pd * 4096) va).2 reserved kpd rest (update live k (some v')) n ∧
      Kept s (mmUserMakeWritable s (v.pd * 4096) va).2 live (update live k (some v')) ∧
      ((mmUserMakeWritable s (v.pd * 4096) va).1 = true →
      (mmUserMakeWritable s (v.pd * 4096) va).2.oom = s.oom) ∧
      ((mmUserMakeWritable s (v.pd * 4096) va).1 = false →
      (mmUserMakeWritable s (v.pd * 4096) va).2.oom = true) := by
  unfold userBase at h1
  unfold userEnd at h2
  by_cases ht : va / 4096 = 34887
  · obtain ⟨w, hs, hkept, hok, hoom⟩ := h.makeTramp hk ht
    exact ⟨{ v with trampRw := w }, rfl, hs, hkept, fun _ => hoom, fun hf => by cases hok.symm.trans hf⟩
  · obtain ⟨v', hpd, hs, hkept, hok, hno⟩ :=
      h.makePage hk va (i := va / 4096 - 32840) (by unfold dataPages; omega) (by omega)
    exact ⟨v', hpd, hs, hkept, fun hf => (hok hf).1, hno⟩

end

theorem refresh_sound (pd : Nat) (hpd : 0 < pd) :
    Sound (refresh s pd) reserved kpd rest live n ∧ Kept s (refresh s pd) live live := by
  have hcr := refresh_cr3 h.aligned hpd
  refine ⟨⟨by simpa using h.dir,
    hcr ▸ h.aligned, by simpa using h.shared, by simpa using h.ledger⟩, ?_⟩
  refine ⟨fun _ h => h, fun _ v h => ⟨v, h, rfl, rfl, ?_⟩, hcr, ?_, by simp, by simp, by simp⟩
  · rw [refresh_mem]
    exact fun _ _ _ _ => rfl
  · intro p e he
    exact ⟨(refresh_tlb h.aligned _ p e he).2, fun _ _ h _ => h⟩

end

theorem detachLoop [WindowReserved reserved] (is : List Nat) (his : ∀ i ∈ is, i < dataPages)
    (h : Sound s reserved kpd rest live n) (hk : live k = some v) : ∃ v', v'.pd = v.pd ∧
      Sound (UserPd.detachLoop (v.pd * 4096) is s).2 reserved kpd rest (update live k (some v')) n ∧
      Kept s (UserPd.detachLoop (v.pd * 4096) is s).2 live (update live k (some v')) := by
  induction is generalizing s live v with
  | nil =>
    have hpos := (h.shared.mapped k v hk).pd_pos
    obtain ⟨hs, hkept⟩ := h.refresh_sound (v.pd * 4096) (by omega)
    refine ⟨v, rfl, ?_, ?_⟩
    · rw [update_self_eq hk]
      exact hs
    · rw [update_self_eq hk]
      exact hkept
  | cons i is ih =>
    have hi := his i mem_cons_self
    have hrest : ∀ j ∈ is, j < dataPages := fun j hj => his j (mem_cons_of_mem _ hj)
    rw [UserPd.detachLoop]
    by_cases hpr : isProtected s.mem (v.pd * 4096) (pageVa i) = true
    · rw [if_pos hpr]
      obtain ⟨v', hpd, hs, hkept, -, -⟩ := h.makePage hk (pageVa i) hi (pageVa_div i (o := 0) (by omega))
      cases hok : (mmUserMakeWritable s (v.pd * 4096) (pageVa i)).1 with
      | false =>
        simp only [hok, Bool.false_eq_true, if_false]
        exact ⟨v', hpd, hs, hkept⟩
      | true =>
        simp only [hok, if_true]
        obtain ⟨v'', hpd', hs', hkept'⟩ := ih hrest hs (update_self ..)
        rw [hpd, update_idem] at hs' hkept'
        exact ⟨v'', hpd'.trans hpd, hs', hkept.trans hkept'⟩
    · rw [if_neg hpr]
      exact ih hrest h hk

theorem detach [WindowReserved reserved] (h : Sound s reserved kpd rest live n)
    (hk : live k = some v) : ∃ v', v'.pd = v.pd ∧
      Sound (mmUserDetachPages s (v.pd * 4096)).2 reserved kpd rest (update live k (some v')) n ∧
      Kept s (mmUserDetachPages s (v.pd * 4096)).2 live (update live k (some v')) := by
  have hne : ¬ v.pd * 4096 = 0 := by
    have hpos := (h.shared.mapped k v hk).pd_pos
    omega
  rw [mmUserDetachPages, if_neg hne]
  exact h.detachLoop _ (fun i hi => mem_range.mp hi) hk

theorem heldBy_addAll (rest : Nat → Nat) (live : Nat → Option View) (n : Nat) (fs : List Nat) :
    heldBy (addAll rest fs) live n = addAll (heldBy rest live n) fs := by
  funext f
  simp only [heldBy, addAll]
  omega

theorem kept_of_agree (h : Sound s reserved kpd rest live n) (fs : List Nat)
    (hfs : ∀ f ∈ fs, dataUse live n f = 0) (ha : AgreeOff fs s.mem m')
    (htot : fr.totalPages = s.fr.totalPages) : Kept s (setMem (setFr s fr) m') live live := by
  refine ⟨fun _ h => h, fun l u hu => ⟨u, hu, rfl, rfl, ?_⟩, rfl,
    fun _ _ h => ⟨h, fun _ _ h _ => h⟩, rfl, htot, id⟩
  intro i o hi ho
  apply ha
  have hd : (u.page i * 4096 + o) / 4096 = u.page i := by omega
  rw [hd]
  intro hm
  have hp := h.shared.dataUse_pos hu (page_mem hi)
  have h0 := hfs _ hm
  omega

theorem take (h : Sound s reserved kpd rest live n) (hfs : ∀ f ∈ fs, heldBy rest live n f = 0)
    (hc : Consistent fr (addAll (heldBy rest live n) fs) reserved) (ha : AgreeOff fs s.mem m')
    (htot : fr.totalPages = s.fr.totalPages) : Sound (setMem (setFr s fr) m') reserved kpd
      (addAll rest fs) live n ∧ Kept s (setMem (setFr s fr) m') live live := by
  have hplain : ∀ f ∈ fs, Plain rest live n f ∧ dataUse live n f = 0 :=
    fun f hf => plain_of_unheld (hfs f hf)
  refine ⟨⟨h.dir, h.aligned, ?_, ?_⟩, h.kept_of_agree fs (fun f hf => (hplain f hf).2) ha htot⟩
  · refine (h.shared.agree ha fun f hf => (hplain f hf).1).rest_change ?_ ?_
    · exact lt_of_lt_of_le h.shared.kdir (le_add_right _ _)
    intro f hp
    have hnm : f ∉ fs := fun hm => by
      obtain ⟨⟨-, h1⟩, h2⟩ := hplain f hm
      omega
    simp only [addAll, count_eq_zero_of_not_mem hnm, add_zero]
  · rw [heldBy_addAll]
    exact hc

section

variable (h : Sound s reserved kpd (addAll rest fs) live n)
include h

theorem give (hk : 0 < rest kpd) (hp : gs.Perm fs) :
    ∃ fr, gs.foldl pageUnref s.fr = fr ∧ Sound (setFr s fr) reserved kpd rest live n ∧
      fr.totalPages = s.fr.totalPages := by
  have hl := h.ledger
  rw [heldBy_addAll] at hl
  obtain ⟨hc, ht⟩ := unrefAll_spec gs hl fun f => by simp only [addAll, hp.count_eq]; omega
  refine ⟨_, rfl, ⟨h.dir, h.aligned, ?_, ?_⟩, ht⟩
  · refine h.shared.rest_change hk ?_
    intro f hu
    have hz : addAll rest fs f = 0 := by
      by_cases hfx : 0 < fixedUse live n f
      · obtain ⟨k, v, -, hk, hm⟩ := exists_of_tally_pos hfx
        exact (h.shared.fixed k v f hk (count_pos_iff.mp hm)).1
      have hd : 0 < dataUse live n f := by omega
      obtain ⟨k, v, -, hk, hm⟩ := exists_of_tally_pos hd
      obtain ⟨i, hi, rfl⟩ := mem_pages.mp (count_pos_iff.mp hm)
      exact (h.shared.data k v i hk hi).1
    simp only [addAll] at hz ⊢
    omega
  · have he : dropAll (addAll (heldBy rest live n) fs) gs = heldBy rest live n := by
      funext f
      simp only [dropAll, addAll, hp.count_eq]
      omega
    rw [he] at hc
    exact hc

theorem adopt (fr : Allocator) (hk : 0 < rest kpd)
    (hmap : Mapped s.mem kpd v) (hfs : ∀ f ∈ fs, heldBy rest live n f = 0) (hfix : v.fixed ⊆ fs)
    (hnd : v.fixed.Nodup) (hpages : ∀ i, i < dataPages → (v.page i ∈ fs ∧ v.page i ∉ v.fixed) ∨
    ∃ k w, live k = some w ∧
    v.page i ∈ w.pages) (hinj : ∀ i j, i < dataPages → j < dataPages → v.page i = v.page j → i = j)
    (hexcl : ∀ i, i < dataPages → v.rw i = true → dataUse live n (v.page i) = 0)
    (hro : ∀ k w j, live k = some w → j < dataPages → w.rw j = true → w.page j ∉ v.pages)
    (hc : Consistent fr (heldBy rest (update live n (some v)) (n + 1)) reserved) :
    Sound (setFr s fr) reserved kpd rest (update live n (some v)) (n + 1) := by
  have hplain : ∀ f ∈ fs, Plain rest live n f ∧ dataUse live n f = 0 :=
    fun f hf => plain_of_unheld (hfs f hf)
  have hsh : Shared s.mem kpd rest live n := by
    refine h.shared.rest_change hk ?_
    intro f hu
    have hnm : f ∉ fs := fun hm => by
      obtain ⟨⟨-, h1⟩, h2⟩ := hplain f hm
      omega
    simp only [addAll, count_eq_zero_of_not_mem hnm, add_zero]
  refine ⟨h.dir, h.aligned, ?_, hc⟩
  refine hsh.insert hmap (AgreeOff.refl [] s.mem)
    (fun f hf => absurd hf not_mem_nil) hnd ?_ ?_ hinj hexcl hro
  · intro f hf
    obtain ⟨⟨h0, h1⟩, h2⟩ := hplain f (hfix hf)
    refine ⟨h0, h1, h2, ?_⟩
    intro hm
    obtain ⟨i, hi, rfl⟩ := mem_pages.mp hm
    cases hpages i hi with
    | inl hin => exact hin.2 hf
    | inr hold =>
      obtain ⟨k, w, hkw, hmem⟩ := hold
      have hp := hsh.dataUse_pos hkw hmem
      omega
  · intro i hi
    cases hpages i hi with
    | inl hin => exact (hplain _ hin.1).1
    | inr hold =>
      obtain ⟨k, w, hkw, hmem⟩ := hold
      obtain ⟨j, hj, he⟩ := mem_pages.mp hmem
      rw [← he]
      exact hsh.data k w j hkw hj

end

theorem discard (h : Sound s reserved kpd rest live n) (hk : live k = some v)
    (hp : gs.Perm (v.fixed ++ v.pages)) : ∃ fr, gs.foldl pageUnref s.fr = fr ∧ Sound
      (setFr s fr) reserved kpd rest (update live k none) n ∧ fr.totalPages = s.fr.totalPages := by
  have hlt := h.shared.live_lt k v hk
  have hfx : ∀ f, fixedUse (update live k none) n f + v.fixed.count f = fixedUse live n f :=
    fun f => tally_remove hlt hk fun v => v.fixed.count f
  have hdt : ∀ f, dataUse (update live k none) n f + v.pages.count f = dataUse live n f :=
    fun f => tally_remove hlt hk fun v => v.pages.count f
  obtain ⟨hc, ht⟩ := unrefAll_spec gs h.ledger fun f => by
    have h1 := hfx f
    have h2 := hdt f
    simp only [heldBy, hp.count_eq, count_append]
    omega
  refine ⟨_, rfl, ⟨h.dir, h.aligned, h.shared.remove hk, ?_⟩, ht⟩
  have he : dropAll (heldBy rest live n) gs = heldBy rest (update live k none) n := by
    funext f
    have h1 := hfx f
    have h2 := hdt f
    simp only [dropAll, heldBy, hp.count_eq, count_append]
    omega
  rw [he] at hc
  exact hc

end Sound

end MuOS.Mm.SharingOps
