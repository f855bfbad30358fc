import MuOS.Lib.Tally
import MuOS.Mm.TableClone
import MuOS.Mm.TableOps

namespace MuOS.Mm.Sharing

open Function Lib Memory Paging Tally UserPd Views List

def fixedUse (live : Nat → Option View) (n f : Nat) : Nat := tally live n (fun v => v.fixed.count f)

def dataUse (live : Nat → Option View) (n f : Nat) : Nat := tally live n (fun v => v.pages.count f)

def heldBy (rest : Nat → Nat) (live : Nat → Option View) (n : Nat) : Nat → Nat :=
  fun f => rest f + fixedUse live n f + dataUse live n f

/-- The spaces `live`: each has its own tables, and writable pages alone. -/
structure Shared (m : Mem) (kpd : Nat) (rest : Nat → Nat) (live : Nat → Option View)
    (n : Nat) : Prop where
  kdir : 0 < rest kpd
  kernel : ∀ i, i < 1024 → isUser (rdEntry m (kpd * 4096) i) = false
  live_lt : ∀ k v, live k = some v → k < n
  mapped : ∀ k v, live k = some v → Mapped m kpd v
  fixed : ∀ k v f, live k = some v → f ∈ v.fixed →
    rest f = 0 ∧ fixedUse live n f = 1 ∧ dataUse live n f = 0
  data : ∀ k v i, live k = some v → i < dataPages → rest (v.page i) = 0 ∧
    fixedUse live n (v.page i) = 0
  inj : ∀ k v i j, live k = some v → i < dataPages → j < dataPages → v.page i = v.page j → i = j
  excl : ∀ k v i, live k = some v → i < dataPages → v.rw i = true → dataUse live n (v.page i) = 1

section

variable {v : View} {f i : Nat}

theorem mem_pages : f ∈ v.pages ↔ ∃ i, i < dataPages ∧ v.page i = f := by
  simp only [View.pages, mem_map, mem_range]

theorem page_mem (hi : i < dataPages) : v.page i ∈ v.pages := mem_pages.mpr ⟨i, hi, rfl⟩

theorem pages_nodup (hinj : ∀ i j, i < dataPages → j < dataPages → v.page i = v.page j → i = j) :
    v.pages.Nodup := by
  apply List.Nodup.map_on _ nodup_range
  intro i hi j hj he
  exact hinj i j (mem_range.mp hi) (mem_range.mp hj) he

theorem table_mem_fixed (h : f ∈ v.tables) : f ∈ v.fixed := List.mem_cons_of_mem _ h

end

namespace Shared

variable {m m' : Mem} {kpd n : Nat} {rest rest' : Nat → Nat} {live : Nat → Option View}
  {v v' w : View} {k l i j f : Nat} {fs : List Nat}

section

variable (h : Shared m kpd rest live n)
include h

section

variable (hk : live k = some v)
include hk

theorem dataUse_pos (hf : f ∈ v.pages) : 0 < dataUse live n f :=
  Nat.lt_of_lt_of_le (count_pos_iff.mpr hf)
    (le_tally (h.live_lt k v hk) hk fun v => v.pages.count f)

theorem one_lt_dataUse (hl : live l = some w) (hne : k ≠ l) (hf : f ∈ v.pages) (hg : f ∈ w.pages) :
    1 < dataUse live n f := by
  have hle := add_le_tally (h.live_lt k v hk) (h.live_lt l w hl) hne hk hl fun v => v.pages.count f
  have hp := count_pos_iff.mpr hf
  have hq := count_pos_iff.mpr hg
  unfold dataUse
  omega

theorem unique (hl : live l = some w) (hf : f ∈ v.pages) (hg : f ∈ w.pages)
    (h1 : dataUse live n f = 1) : k = l := by
  by_contra hne
  exact (h.one_lt_dataUse hk hl hne hf hg).ne' h1

theorem fixed_disjoint (hl : live l = some w) (hne : k ≠ l) (hf : f ∈ v.fixed) : f ∉ w.fixed := by
  intro hg
  have hle := add_le_tally (h.live_lt k v hk) (h.live_lt l w hl) hne hk hl fun v => v.fixed.count f
  have hp := count_pos_iff.mpr hf
  have hq := count_pos_iff.mpr hg
  have h1 := (h.fixed k v f hk hf).2.1
  unfold fixedUse at h1
  omega

theorem kdir_not_fixed : kpd ∉ v.fixed := by
  intro hf
  have h0 := (h.fixed k v kpd hk hf).1
  have hp := h.kdir
  omega

theorem page_ne_fixed (hl : live l = some w) (hf : f ∈ v.fixed) : f ∉ w.pages := by
  intro hg
  have h0 := (h.fixed k v f hk hf).2.2
  have hp := h.dataUse_pos hl hg
  omega

end

theorem kernel_agree (ha : AgreeOff fs m m') (hk : kpd ∉ fs) :
    ∀ i, i < 1024 → isUser (rdEntry m' (kpd * 4096) i) = false := by
  intro i hi
  rw [ha.rdEntry hk hi]
  exact h.kernel i hi

theorem keep_tables (ha : AgreeOff fs m m') (hkpd : kpd ∉ fs)
    (hfs : ∀ f ∈ fs, ∀ k v, live k = some v → f ∉ v.tables) : Shared m' kpd rest live n := by
  refine ⟨h.kdir, h.kernel_agree ha hkpd, h.live_lt, ?_, h.fixed, h.data, h.inj, h.excl⟩
  intro k v hk
  refine (h.mapped k v hk).agree ha ?_
  intro f hf hm
  cases mem_cons.mp hf with
  | inl he => exact hkpd (he ▸ hm)
  | inr ht => exact hfs f hm k v hk ht

theorem kdir_not_mem (hfs : ∀ f ∈ fs, rest f = 0 ∧ fixedUse live n f = 0) : kpd ∉ fs := by
  intro hm
  have h0 := (hfs kpd hm).1
  have hp := h.kdir
  omega

theorem agree (ha : AgreeOff fs m m') (hfs : ∀ f ∈ fs, rest f = 0 ∧ fixedUse live n f = 0) :
    Shared m' kpd rest live n := by
  refine h.keep_tables ha (h.kdir_not_mem hfs) ?_
  intro f hf k v hk ht
  have h1 := (hfs f hf).2
  have h2 := (h.fixed k v f hk (table_mem_fixed ht)).2.1
  omega

theorem rest_change (hk : 0 < rest' kpd) (hr : ∀ f, 0 < fixedUse live n f + dataUse live n f →
    rest' f = rest f) :
    Shared m kpd rest' live n := by
  refine ⟨hk, h.kernel, h.live_lt, h.mapped, ?_, ?_, h.inj, h.excl⟩
  · intro k v f hk hf
    obtain ⟨h0, h1, h2⟩ := h.fixed k v f hk hf
    exact ⟨(hr f (by omega)).trans h0, h1, h2⟩
  · intro k v i hk hi
    obtain ⟨h0, h1⟩ := h.data k v i hk hi
    have hp := h.dataUse_pos hk (page_mem hi)
    exact ⟨(hr _ (by omega)).trans h0, h1⟩

theorem replace (hk : live k = some v) (hfix : v'.fixed = v.fixed)
    (hmap : Mapped m' kpd v') (ha : AgreeOff (fs ++ v.tables) m m')
    (hfs : ∀ f ∈ fs, rest f = 0 ∧ fixedUse live n f = 0)
    (hpage : ∀ i, i < dataPages → v'.page i ∈ v.pages ∨
      (rest (v'.page i) = 0 ∧ fixedUse live n (v'.page i) = 0 ∧ dataUse live n (v'.page i) = 0))
    (hinj : ∀ i j, i < dataPages → j < dataPages → v'.page i = v'.page j → i = j)
    (hexcl : ∀ i, i < dataPages → v'.rw i = true → dataUse (update live k (some v')) n (v'.page i) = 1) :
    Shared m' kpd rest (update live k (some v')) n := by
  have hlt := h.live_lt k v hk
  have hfixed : ∀ f, fixedUse (update live k (some v')) n f = fixedUse live n f := by
    intro f
    have hr := tally_replace (b := v') hlt hk fun v => v.fixed.count f
    simp only [hfix] at hr
    unfold fixedUse
    omega
  have hdata : ∀ f, dataUse (update live k (some v')) n f + v.pages.count f =
      dataUse live n f + v'.pages.count f := fun f => tally_replace hlt hk fun v => v.pages.count f
  have hnew : ∀ f ∈ v'.pages, rest f = 0 ∧ fixedUse live n f = 0 := by
    intro f hf
    obtain ⟨i, hi, rfl⟩ := mem_pages.mp hf
    cases hpage i hi with
    | inl hm =>
      obtain ⟨j, hj, he⟩ := mem_pages.mp hm
      rw [← he]
      exact h.data k v j hk hj
    | inr hz => exact ⟨hz.1, hz.2.1⟩
  have hcases : ∀ l u, update live k (some v') l = some u → (l = k ∧ u = v') ∨
    (l ≠ k ∧ live l = some u) := by
    intro l u hu
    by_cases hlk : l = k
    · subst hlk
      rw [update_self] at hu
      exact .inl ⟨rfl, (Option.some.inj hu).symm⟩
    · rw [update_of_ne hlk] at hu
      exact .inr ⟨hlk, hu⟩
  have hfixed0 : ∀ l u f, live l = some u → f ∈ u.fixed → rest f = 0 ∧
        fixedUse (update live k (some v')) n f = 1 ∧ dataUse (update live k (some v')) n f = 0 := by
    intro l u f hu hf
    obtain ⟨h0, h1, h2⟩ := h.fixed l u f hu hf
    have hnot : v'.pages.count f = 0 := by
      apply count_eq_zero_of_not_mem
      intro hm
      have hz := (hnew f hm).2
      omega
    have hd := hdata f
    exact ⟨h0, (hfixed f).trans h1, by omega⟩
  refine ⟨h.kdir, ?_, ?_, ?_, ?_, ?_, ?_, ?_⟩
  · refine h.kernel_agree ha ?_
    intro hm
    cases mem_append.mp hm with
    | inl hm => exact h.kdir_not_mem hfs hm
    | inr hm => exact h.kdir_not_fixed hk (table_mem_fixed hm)
  · intro l u hu
    obtain ⟨rfl, rfl⟩ | ⟨-, hu⟩ := hcases l u hu
    · exact hlt
    · exact h.live_lt l u hu
  · intro l u hu
    obtain ⟨rfl, rfl⟩ | ⟨hlk, hu⟩ := hcases l u hu
    · exact hmap
    refine (h.mapped l u hu).agree ha ?_
    intro f hf hm
    have hft : f = kpd ∨ f ∈ u.tables := mem_cons.mp hf
    cases mem_append.mp hm with
    | inl hm =>
      obtain ⟨h0, h1⟩ := hfs f hm
      cases hft with
      | inl he =>
        have hp := h.kdir
        subst he
        omega
      | inr ht =>
        have h2 := (h.fixed l u f hu (table_mem_fixed ht)).2.1
        omega
    | inr hm =>
      cases hft with
      | inl he => exact h.kdir_not_fixed hk (he ▸ table_mem_fixed hm)
      | inr ht => exact h.fixed_disjoint hu hk hlk (table_mem_fixed ht) (table_mem_fixed hm)
  · intro l u f hu hf
    obtain ⟨rfl, rfl⟩ | ⟨-, hu⟩ := hcases l u hu
    · exact hfixed0 l v f hk (hfix ▸ hf)
    · exact hfixed0 l u f hu hf
  · intro l u i hu hi
    obtain ⟨rfl, rfl⟩ | ⟨-, hu⟩ := hcases l u hu
    · rw [hfixed]
      exact hnew _ (page_mem hi)
    · rw [hfixed]
      exact h.data l u i hu hi
  · intro l u i j hu hi hj he
    obtain ⟨rfl, rfl⟩ | ⟨-, hu⟩ := hcases l u hu
    · exact hinj i j hi hj he
    · exact h.inj l u i j hu hi hj he
  · intro l u i hu hi hrw
    obtain ⟨rfl, rfl⟩ | ⟨hlk, hu⟩ := hcases l u hu
    · exact hexcl i hi hrw
    have h1 := h.excl l u i hu hi hrw
    have hv : u.page i ∉ v.pages := fun hm => hlk (h.unique hu hk (page_mem hi) hm h1)
    have hv' : u.page i ∉ v'.pages := by
      intro hm
      obtain ⟨j, hj, he⟩ := mem_pages.mp hm
      cases hpage j hj with
      | inl hin => exact hv (he ▸ hin)
      | inr hz =>
        rw [he] at hz
        omega
    have hd := hdata (u.page i)
    rw [count_eq_zero_of_not_mem hv, count_eq_zero_of_not_mem hv'] at hd
    omega

theorem insert (hmap : Mapped m' kpd v) (ha : AgreeOff fs m m')
    (hfs : ∀ f ∈ fs, rest f = 0 ∧ fixedUse live n f = 0) (hnd : v.fixed.Nodup)
    (hfixed : ∀ f ∈ v.fixed, rest f = 0 ∧ fixedUse live n f = 0 ∧ dataUse live n f = 0 ∧
    f ∉ v.pages) (hdata : ∀ i, i < dataPages → rest (v.page i) = 0 ∧ fixedUse live n (v.page i) = 0)
    (hinj : ∀ i j, i < dataPages → j < dataPages → v.page i = v.page j → i = j)
    (hexcl : ∀ i, i < dataPages → v.rw i = true → dataUse live n (v.page i) = 0)
    (hro : ∀ k w j, live k = some w → j < dataPages → w.rw j = true → w.page j ∉ v.pages) :
    Shared m' kpd rest (update live n (some v)) (n + 1) := by
  have hfx : ∀ f, fixedUse (update live n (some v)) (n + 1) f =
      fixedUse live n f + v.fixed.count f := fun f => tally_insert live n v fun v => v.fixed.count f
  have hdt : ∀ f, dataUse (update live n (some v)) (n + 1) f =
      dataUse live n f + v.pages.count f := fun f => tally_insert live n v fun v => v.pages.count f
  have hm := h.agree ha hfs
  have hcases : ∀ l u, update live n (some v) l = some u → (l = n ∧ u = v) ∨ live l = some u := by
    intro l u hu
    by_cases hln : l = n
    · subst hln
      rw [update_self] at hu
      exact .inl ⟨rfl, (Option.some.inj hu).symm⟩
    · rw [update_of_ne hln] at hu
      exact .inr hu
  refine ⟨h.kdir, hm.kernel, ?_, ?_, ?_, ?_, ?_, ?_⟩
  · intro l u hu
    obtain ⟨rfl, rfl⟩ | hu := hcases l u hu
    · exact Nat.lt_succ_self l
    · exact Nat.lt_succ_of_lt (h.live_lt l u hu)
  · intro l u hu
    obtain ⟨rfl, rfl⟩ | hu := hcases l u hu
    · exact hmap
    · exact hm.mapped l u hu
  · intro l u f hu hf
    rw [hfx, hdt]
    obtain ⟨rfl, rfl⟩ | hu := hcases l u hu
    · obtain ⟨h0, h1, h2, h3⟩ := hfixed f hf
      rw [count_eq_one_of_mem hnd hf, count_eq_zero_of_not_mem h3, h1, h2]
      exact ⟨h0, rfl, rfl⟩
    obtain ⟨h0, h1, h2⟩ := h.fixed l u f hu hf
    have hnf : f ∉ v.fixed := fun hin => by
      have hz := (hfixed f hin).2.1
      omega
    have hnp : f ∉ v.pages := fun hin => by
      obtain ⟨i, hi, rfl⟩ := mem_pages.mp hin
      have hz := (hdata i hi).2
      omega
    rw [count_eq_zero_of_not_mem hnf, count_eq_zero_of_not_mem hnp, h1, h2]
    exact ⟨h0, rfl, rfl⟩
  · intro l u i hu hi
    rw [hfx]
    obtain ⟨rfl, rfl⟩ | hu := hcases l u hu
    · obtain ⟨h0, h1⟩ := hdata i hi
      have hnf : u.page i ∉ u.fixed := fun hin => (hfixed _ hin).2.2.2 (page_mem hi)
      rw [count_eq_zero_of_not_mem hnf, h1]
      exact ⟨h0, rfl⟩
    · obtain ⟨h0, h1⟩ := h.data l u i hu hi
      have hnf : u.page i ∉ v.fixed := fun hin => by
        have hz := (hfixed _ hin).2.2.1
        have hp := h.dataUse_pos hu (page_mem hi)
        omega
      rw [count_eq_zero_of_not_mem hnf, h1]
      exact ⟨h0, rfl⟩
  · intro l u i j hu hi hj he
    obtain ⟨rfl, rfl⟩ | hu := hcases l u hu
    · exact hinj i j hi hj he
    · exact h.inj l u i j hu hi hj he
  · intro l u i hu hi hrw
    rw [hdt]
    obtain ⟨rfl, rfl⟩ | hu := hcases l u hu
    · rw [count_eq_one_of_mem (pages_nodup hinj) (page_mem hi), hexcl i hi hrw]
    · rw [count_eq_zero_of_not_mem (hro l u i hu hi hrw), h.excl l u i hu hi hrw]

theorem remove (hk : live k = some v) : Shared m kpd rest (update live k none) n := by
  have hlt := h.live_lt k v hk
  have hfx : ∀ f, fixedUse (update live k none) n f + v.fixed.count f = fixedUse live n f :=
    fun f => tally_remove hlt hk fun v => v.fixed.count f
  have hdt : ∀ f, dataUse (update live k none) n f + v.pages.count f = dataUse live n f :=
    fun f => tally_remove hlt hk fun v => v.pages.count f
  have hcases : ∀ l u, update live k none l = some u → l ≠ k ∧ live l = some u := by
    intro l u hu
    by_cases hlk : l = k
    · subst hlk
      rw [update_self] at hu
      cases hu
    · rw [update_of_ne hlk] at hu
      exact ⟨hlk, hu⟩
  refine ⟨h.kdir, h.kernel, ?_, ?_, ?_, ?_, ?_, ?_⟩
  · exact fun l u hu => h.live_lt l u (hcases l u hu).2
  · exact fun l u hu => h.mapped l u (hcases l u hu).2
  · intro l u f hu hf
    obtain ⟨hlk, hu⟩ := hcases l u hu
    obtain ⟨h0, h1, h2⟩ := h.fixed l u f hu hf
    have hnf := count_eq_zero_of_not_mem (h.fixed_disjoint hu hk hlk hf)
    have hf' := hfx f
    have hd' := hdt f
    exact ⟨h0, by omega, by omega⟩
  · intro l u i hu hi
    obtain ⟨-, hu⟩ := hcases l u hu
    obtain ⟨h0, h1⟩ := h.data l u i hu hi
    have hf' := hfx (u.page i)
    exact ⟨h0, by omega⟩
  · exact fun l u i j hu => h.inj l u i j (hcases l u hu).2
  · intro l u i hu hi hrw
    obtain ⟨hlk, hu⟩ := hcases l u hu
    have h1 := h.excl l u i hu hi hrw
    have hnv : u.page i ∉ v.pages := fun hm => hlk (h.unique hu hk (page_mem hi) hm h1)
    have hd' := hdt (u.page i)
    rw [count_eq_zero_of_not_mem hnv] at hd'
    omega

end

end Shared

end MuOS.Mm.Sharing
