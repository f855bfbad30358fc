import MuOS.Mm.SharingOps
import MuOS.Proc.Space

namespace MuOS.Proc.SpaceOps

open Function Lib Memory Paging Tally Mm Frames Ledger FrameOps Grants UserPd Views
open TableBuild TableClone TableOps Sharing SharingOps Space List Nat

variable {s : Machine} {reserved : Nat → Prop} {kpd n k : Nat} {rest : Nat → Nat}
  {live : Nat → Option View} {v : View} {held : Nat → Nat} {fr : Allocator} {ts : List Nat}
  {m : Mem} {fs gs : List Nat} {parent : Slot} {b t pd : Nat} {f : Nat}

theorem agree_trampoline (m : Mem) (t : Nat) :
    AgreeOff [t] m (writeSigTrampoline m (t * 4096)) := by
  have h :=
    agree_patch m (fun i => if i = 0 then 0xB8#8 else if i = 1 then 173#8 else if i = 5 then 0xCD#8
    else if i = 6 then 0x80#8 else 0#8) (p := t * 4096) (n := 4096) (by omega)
  rwa [Nat.mul_div_cancel t (by omega)] at h

theorem freePages_run (h : Consistent fr held reserved) {c : Nat}
    (hheld : ∀ i, i < c → 0 < held (b + i)) :
    mmFreePages fr (b * 4096) c = (List.range' b c).foldl pageUnref fr := by
  have hd : b * 4096 / 4096 = b := by omega
  have hr : mmFreePages fr (b * 4096) c = _ := freePages_eq h (by omega) (by rw [hd]; exact hheld)
  rwa [hd] at hr

@[irreducible] def blockFrames (b : Nat) : List Nat := List.range' b blockPages

theorem blockFrames_eq (b : Nat) : blockFrames b = List.range' b blockPages := by unfold blockFrames; rfl

theorem mem_blockFrames : f ∈ blockFrames b ↔ b ≤ f ∧ f < b + 2048 := by
  rw [blockFrames_eq]
  exact mem_range'_1

theorem blockFrames_split (b t pd : Nat) (ts : List Nat) :
    blockFrames b = (createdView pd ts t b).pages ++ [b + 2047] := by
  simp only [blockFrames_eq, blockPages, View.pages, createdView, dataPages]
  rw [range'_concat, range'_eq_map_range]

theorem freeBlock (h : Consistent s.fr (addAll held (blockFrames b)) reserved) :
    freePages s (b * 4096) blockPages = setFr s ((blockFrames b).foldl pageUnref s.fr) := by
  rw [freePages, freePages_run h, ← blockFrames_eq]
  intro i hi
  have hm : b + i ∈ blockFrames b := mem_blockFrames.mpr ⟨by omega, Nat.add_lt_add_left hi b⟩
  have hp := count_pos_iff.mpr hm
  simp only [addAll]
  omega

theorem unheld_of_takes (hf : ∀ f ∈ fs, held f = 0)
    (h : Takes reserved (addAll held fs) gs) : ∀ f ∈ fs ++ gs, held f = 0 := by
  intro f hm
  cases mem_append.mp hm with
  | inl hm => exact hf f hm
  | inr hm =>
    have h0 := h.unheld f hm
    simp only [addAll] at h0
    omega

theorem disjoint_of_takes (h : Takes reserved (addAll held fs) gs) : ∀ f ∈ gs, f ∉ fs := by
  intro f hm hf
  have h0 := h.unheld f hm
  have hp := count_pos_iff.mpr hf
  simp only [addAll] at h0
  omega

theorem held_created (hlen : ts.length = 3) :
    heldBy (addAll rest [b + 2047]) (update live n (some (createdView pd ts t b))) (n + 1) =
      addAll (heldBy rest live n) (blockFrames b ++ t :: pd :: ts) := by
  funext f
  have hx := tally_insert live n (createdView pd ts t b) fun v => v.fixed.count f
  have hd := tally_insert live n (createdView pd ts t b) fun v => v.pages.count f
  have hfixed : (createdView pd ts t b).fixed = t :: pd :: ts := by
    rw [View.fixed, tables_of_length rfl rfl hlen]
    rfl
  simp only [hfixed] at hx
  simp only [heldBy, fixedUse, dataUse, addAll, blockFrames_split b t pd ts, count_append, hx, hd]
  omega

/-- No run of frames for the block, or no frame after fewer than five more. -/
def NoSpace (total : Nat) (held : Nat → Nat) (reserved : Nat → Prop) : Prop :=
  (∀ q, q + 2048 ≤ total → ∃ f, q ≤ f ∧ f < q + 2048 ∧ (0 < held f ∨ reserved f)) ∨
    ∃ b fs, FreshRun held reserved b 2048 ∧ fs.length < 5 ∧
      ∀ f, f < total → 0 < addAll held (blockFrames b ++ fs) f ∨ reserved f

/-- A new space's own block, trampoline and four tables. -/
structure Launched (s s' : Machine) (reserved : Nat → Prop) (kpd : Nat) (rest : Nat → Nat)
    (live : Nat → Option View) (n b t pd : Nat) (ts : List Nat) : Prop where
  run : FreshRun (heldBy rest live n) reserved b 2048
  takes : Takes reserved (addAll (heldBy rest live n) (blockFrames b)) (t :: pd :: ts)
  len : ts.length = 3
  sound : Sound s' reserved kpd (addAll rest [b + 2047])
    (update live n (some (createdView pd ts t b))) (n + 1)
  kept : Kept s s' live live
  agree : AgreeOff (t :: pd :: ts) s.mem s'.mem
  oom : s'.oom = s.oom

section

variable (h : Sound s reserved kpd rest live n)
include h

section

variable (hrun : FreshRun (heldBy rest live n) reserved b 2048)
include hrun

theorem created_sound
    (htk : Takes reserved (addAll (heldBy rest live n) (blockFrames b)) (t :: pd :: ts))
    (hlen : ts.length = 3)
    (hc : Consistent fr (addAll (heldBy rest live n) (blockFrames b ++ t :: pd :: ts)) reserved)
    (ha : AgreeOff (t :: pd :: ts) s.mem m) (htot : fr.totalPages = s.fr.totalPages)
    (hmap : Mapped m kpd (createdView pd ts t b)) :
    Launched s (setMem (setFr s fr) m) reserved kpd rest live n b t pd ts := by
  have hkd := h.shared.kdir
  have hblock : ∀ f ∈ blockFrames b, heldBy rest live n f = 0 := fun f hf => by
    obtain ⟨h1, h2⟩ := mem_blockFrames.mp hf
    exact hrun.unheld f h1 h2
  have hfs := unheld_of_takes hblock htk
  have hnot := disjoint_of_takes htk
  have hfixed : (createdView pd ts t b).fixed = t :: pd :: ts := by
    rw [View.fixed, tables_of_length rfl rfl hlen]
    rfl
  have hpage : ∀ i, i < dataPages → (createdView pd ts t b).page i ∈ blockFrames b := by
    intro i hi
    rw [blockFrames_split b t pd ts]
    exact mem_append_left _ (page_mem hi)
  obtain ⟨hs, hkept⟩ := h.take hfs hc (ha.mono (subset_append_right _ _)) htot
  have hsplit : addAll rest (blockFrames b ++ t :: pd :: ts) =
      addAll (addAll rest [b + 2047]) ((createdView pd ts t b).pages ++ t :: pd :: ts) := by
    funext f
    simp only [addAll, blockFrames_split b t pd ts, count_append]
    omega
  rw [hsplit] at hs
  have hsub : ∀ f ∈ (createdView pd ts t b).pages ++ t :: pd :: ts, heldBy
    (addAll rest [b + 2047]) live n f = 0 := by
    intro f hf
    have hm : f ∈ blockFrames b ++ t :: pd :: ts ∧ f ≠ b + 2047 := by
      cases mem_append.mp hf with
      | inl hp =>
        obtain ⟨i, hi, rfl⟩ := mem_pages.mp hp
        refine ⟨mem_append_left _ (hpage i hi), ?_⟩
        have hlt : i < 2047 := hi
        simp only [createdView]
        omega
      | inr hp =>
        refine ⟨mem_append_right _ hp, ?_⟩
        rintro rfl
        exact hnot _ hp (mem_blockFrames.mpr (by omega))
    rw [Sound.heldBy_addAll, addAll, hfs f hm.1, count_eq_zero_of_not_mem (by simpa using hm.2)]
  refine ⟨hrun, htk, hlen, ?_, hkept, ha, rfl⟩
  refine hs.adopt fr ?_ hmap hsub ?_ ?_ ?_ ?_ ?_ ?_ ?_
  · exact lt_of_lt_of_le hkd (le_add_right _ _)
  · rw [hfixed]
    exact subset_append_right _ _
  · rw [hfixed]
    exact htk.nodup
  · intro i hi
    refine .inl ⟨mem_append_left _ (page_mem hi), ?_⟩
    rw [hfixed]
    exact fun hf => hnot _ hf (hpage i hi)
  · exact fun i j _ _ he => add_left_cancel he
  · exact fun i hi _ => (Sound.plain_of_unheld (hblock _ (hpage i hi))).2
  · intro l u j hl hj _ hm
    obtain ⟨i, hi, he⟩ := mem_pages.mp hm
    have h0 := hblock _ (hpage i hi)
    obtain ⟨hh, hp⟩ := h.held_page hl hj
    rw [he] at h0
    omega
  · rw [held_created hlen]
    exact hc

theorem newTables_spec (ht : Fresh (addAll (heldBy rest live n) (blockFrames b)) reserved t)
    (hc : Consistent fr (addAll (addAll (heldBy rest live n) (blockFrames b)) [t]) reserved)
    (htot : fr.totalPages = s.fr.totalPages) : (∃ pd ts s', newTables (setFr s fr) (b * 4096) (t * 4096) =
        (some ⟨b * 4096, blockPages, pd * 4096, t * 4096, 1⟩, s') ∧
      Launched s s' reserved kpd rest live n b t pd ts) ∨
    (∃ s', newTables (setFr s fr) (b * 4096) (t * 4096) = (none, s') ∧
      Sound s' reserved kpd rest live n ∧ Kept s s' live live ∧ s'.oom = true ∧
      NoSpace s.fr.totalPages (heldBy rest live n) reserved) := by
  have hkd := h.shared.kdir
  have hblock : ∀ f ∈ blockFrames b, heldBy rest live n f = 0 := fun f hf => by
    obtain ⟨h1, h2⟩ := mem_blockFrames.mp hf
    exact hrun.unheld f h1 h2
  have htk1 : Takes reserved (addAll (heldBy rest live n) (blockFrames b)) [t] := ⟨ht, trivial⟩
  have hheld := unheld_of_takes hblock htk1
  have hlt : b + 2047 < 1048576 := by
    have hl := hrun.lt
    omega
  have hkpd : 0 < addAll (addAll (heldBy rest live n) (blockFrames b)) [t] kpd := by
    simp only [addAll, heldBy]
    omega
  have htr := agree_trampoline s.mem t
  simp only [newTables]
  obtain ⟨pd, ts, fr3, m3, he, htk, hlen, htot3, hc3, ha3, hmap⟩ | ⟨fs, fr3, m3, he, htk, hlen,
    htot3, hc3, ha3, hall⟩ :=
    createUserPd_spec (s := setMem (setFr s fr) (writeSigTrampoline s.mem (t * 4096))) hc h.dir hkpd
      hrun.pos hlt ht.pos ht.lt
  · have hpd0 : ¬ pd * 4096 = 0 := frame_ne_zero (htk.pos pd mem_cons_self)
    have hagree : AgreeOff (t :: pd :: ts) s.mem m3 :=
      AgreeOff.trans (htr.mono (by simp)) (ha3.mono (subset_cons_self _ _))
    refine .inl ⟨pd, ts, setMem (setFr s fr3) m3, ?_, ?_⟩
    · rw [setFr_mem, he]
      simp only [hpd0, if_false]
      rfl
    · refine created_sound h hrun ⟨ht, htk⟩ hlen ?_ hagree (htot3.trans htot) hmap
      rw [addAll_addAll, addAll_addAll] at hc3
      exact hc3
  · rw [addAll_addAll] at hc3
    obtain ⟨hs2, -⟩ :=
      h.take hheld (by rw [← addAll_addAll]; exact hc) (htr.mono (subset_append_right _ _)) htot
    have hmid : Sound (setMem (setFr s fr3) m3) reserved kpd
      (addAll rest (blockFrames b ++ [t])) live n := by
      refine ⟨h.dir, h.aligned, hs2.shared.agree ha3 ?_, ?_⟩
      · intro f hf
        have h0 := htk.unheld f hf
        rw [addAll_addAll, ← Sound.heldBy_addAll] at h0
        exact (Sound.plain_of_unheld h0).1
      · rw [Sound.heldBy_addAll]
        exact hc3
    have hperm : (t :: blockFrames b).Perm (blockFrames b ++ [t]) := (perm_append_singleton t _).symm
    obtain ⟨fr4, hfr4, hs4, htot4⟩ := hmid.give hkd hperm
    have hkept : Kept s (setMem (setFr s fr4) m3) live live := by
      refine h.kept_of_agree (t :: fs) ?_ ?_ (htot4.trans (htot3.trans htot))
      · intro f hf
        cases mem_cons.mp hf with
        | inl he =>
          rw [he]
          exact (Sound.plain_of_unheld (hheld t (by simp))).2
        | inr hm =>
          have h0 := htk.unheld f hm
          rw [addAll_addAll, ← Sound.heldBy_addAll] at h0
          exact (Sound.plain_of_unheld h0).2
      · exact AgreeOff.trans (htr.mono (by simp)) (ha3.mono (subset_cons_self _ _))
    have hfree : freePages (freePage (setOom (setMem (setFr s fr3) m3)) (t * 4096))
        (b * 4096) blockPages = setOom (setMem (setFr s fr4) m3) := by
      obtain ⟨hc4, -⟩ := unrefAll_spec [t] hc3 fun f => by
        simp only [addAll, count_append]
        omega
      rw [dropAll_addAll] at hc4
      rw [freePage, setOom_fr, setMem_fr, setFr_fr, mmFreePage_eq]
      rw [freeBlock hc4, setFr_fr, ← foldl_cons, show fr3 = (setMem (setFr s fr3) m3).fr from rfl, hfr4]
      rfl
    refine .inr ⟨setOom (setMem (setFr s fr4) m3), ?_, hs4.setOom_sound,
      hkept.trans (Sound.setOom_kept _ live), rfl, ?_⟩
    · rw [setFr_mem, he]
      exact congrArg (Prod.mk none) hfree
    · refine .inr ⟨b, t :: fs, hrun, by rw [length_cons]; omega, ?_⟩
      rw [addAll_addAll, addAll_addAll] at hall
      exact fun f hf => hall f (htot.symm ▸ hf)

end

theorem newSpace_spec :
    (∃ b t pd ts s', newSpace s = (some ⟨b * 4096, blockPages, pd * 4096, t * 4096, 1⟩, s') ∧
      Launched s s' reserved kpd rest live n b t pd ts) ∨
    (∃ s', newSpace s = (none, s') ∧ Sound s' reserved kpd rest live n ∧ Kept s s' live live ∧
      s'.oom = true ∧ NoSpace s.fr.totalPages (heldBy rest live n) reserved) := by
  have hkd := h.shared.kdir
  simp only [newSpace]
  obtain ⟨hb, hall⟩ | ⟨b, fr1, hb, hrun, htot1, hc1⟩ :=
    allocPages_cases h.ledger (show 0 < 2048 by omega)
  · refine .inr ⟨setOom s, ?_, h.setOom_sound, Sound.setOom_kept s live, rfl, .inl hall⟩
    rw [blockPages, hb]
    rfl
  have hb0 : ¬ b * 4096 = 0 := frame_ne_zero hrun.pos
  have hblock : ∀ f ∈ blockFrames b, heldBy rest live n f = 0 := fun f hf => by
    obtain ⟨h1, h2⟩ := mem_blockFrames.mp hf
    exact hrun.unheld f h1 h2
  have hc1' : Consistent fr1 (addAll (heldBy rest live n) (blockFrames b)) reserved := by
    rw [blockFrames_eq]
    exact hc1
  rw [show allocPages s blockPages = allocPages s 2048 from rfl, hb]
  simp only [hb0, if_false, newTramp]
  obtain ⟨ht, hall⟩ | ⟨t, fr2, ht, hf2, htot2, hc2⟩ := alloc_cases (s := setFr s fr1) hc1'
  · obtain ⟨hs1, -⟩ := h.take hblock hc1' (AgreeOff.refl _ s.mem) htot1
    obtain ⟨fr3, hfr3, hs2, htot⟩ := hs1.give hkd (List.Perm.refl _)
    rw [setMem_fr, setFr_fr] at hfr3
    refine .inr ⟨setOom (setFr s fr3), ?_, hs2.setOom_sound, ?_, rfl, ?_⟩
    · rw [ht]
      rw [freeBlock hc1', setOom_fr, setFr_fr, hfr3]
      rfl
    · exact (h.kept_of_agree [] (fun f hf => absurd hf not_mem_nil) (AgreeOff.refl [] s.mem)
        (htot.trans htot1)).trans (Sound.setOom_kept _ live)
    · refine .inr ⟨b, [], hrun, by simp, ?_⟩
      rw [append_nil]
      exact fun f hf => hall f (htot1 ▸ hf)
  · have ht0 : ¬ t * 4096 = 0 := frame_ne_zero hf2.pos
    rw [ht]
    simp only [ht0, if_false]
    obtain ⟨pd, ts, s', he, hl⟩ | ⟨s', he, hs, hk, ho, hno⟩ :=
      newTables_spec h hrun hf2 hc2 (htot2.trans htot1)
    · exact .inl ⟨b, t, pd, ts, s', he, hl⟩
    · exact .inr ⟨s', he, hs, hk, ho, hno⟩

end

theorem Mapped.names (h : Mapped m kpd v) : Names m v.pd [v.tab 0, v.tab 1, v.tab 2] := by
  refine ⟨le_refl 3, fun t ht => h.table_lt t (mem_cons_of_mem _ ht), ?_⟩
  intro k hk
  rw [h.dir (32 + k) (by omega)]
  have hc : k = 0 ∨ k = 1 ∨ k = 2 := by omega
  obtain rfl | rfl | rfl := hc <;> rfl

theorem fixed_pos (h : Sound s reserved kpd rest live n) (hk : live k = some v)
    (hf : f ∈ v.fixed) : 0 < f := by
  have h1 := h.held_fixed hk hf
  have h0 := h.ledger.held_reserved 0 h.ledger.zero_reserved
  by_contra hz
  have hfz : f = 0 := by omega
  rw [hfz] at h1
  omega

def dropped (v : View) : List Nat :=
  v.pages ++ (([v.tab 0, v.tab 1, v.tab 2] ++ [v.pd]) ++ [v.tramp])

theorem dropped_perm (v : View) : (dropped v).Perm (v.fixed ++ v.pages) := by
  refine perm_append_comm.trans (List.Perm.append_right _ ?_)
  have h1 : ([v.tab 0, v.tab 1, v.tab 2] ++ [v.pd]).Perm v.tables :=
    perm_append_singleton v.pd [v.tab 0, v.tab 1, v.tab 2]
  exact (perm_append_singleton v.tramp _).trans (List.Perm.cons _ h1)

theorem dropSpace_spec (h : Sound s reserved kpd rest live n) (hk : live k = some v)
    {sp : ProcSpace} (hpd : sp.pdPhys = v.pd * 4096) (htr : sp.trampPhys = v.tramp * 4096) :
    ∃ fr, dropSpace s sp = setFr s fr ∧ Sound (setFr s fr) reserved kpd rest
      (update live k none) n ∧ fr.totalPages = s.fr.totalPages := by
  have hv := h.shared.mapped k v hk
  have hpd0 : ¬ v.pd * 4096 = 0 := frame_ne_zero hv.pd_pos
  have htr0 : ¬ v.tramp * 4096 = 0 := frame_ne_zero (fixed_pos h hk mem_cons_self)
  have hkp : v.pd * 4096 ≠ s.pageDirPhys := by
    rw [h.dir]
    exact fun he => (nodup_cons.mp hv.nodup).1 (frame_inj he ▸ mem_cons_self)
  obtain ⟨fr, hfr, hs, htot⟩ := h.discard hk (dropped_perm v)
  refine ⟨fr, ?_, hs, htot⟩
  simp only [dropSpace, hpd, htr, hpd0, htr0, if_false]
  obtain ⟨fr1, hfr1⟩ : ∃ fr1, v.pages.foldl pageUnref s.fr = fr1 := ⟨_, rfl⟩
  rw [dropped, foldl_append, hfr1] at hfr
  rw [releasePages_eq hv, hfr1, freeUserPd_eq (s := setFr s fr1) hv.pd_pos hkp (Mapped.names hv),
    freePage, mmFreePage_eq, ← hfr]
  rfl

theorem refPages_eq (hv : Mapped s.mem kpd v) (hpos : ∀ i, i < dataPages → 0 < v.page i) :
    refPages s (v.pd * 4096) =
      setFr s (v.pages.foldl (fun fr f => mmPageRefInc fr (f * 4096)) s.fr) := by
  have hstep : ∀ fr i, i ∈ range dataPages →
    (if mmUserTranslate s.mem (v.pd * 4096) (pageVa i) = 0 then fr
        else mmPageRefInc fr (mmUserTranslate s.mem (v.pd * 4096) (pageVa i))) =
      mmPageRefInc fr (v.page i * 4096) := by
    intro fr i hi
    have hlt := mem_range.mp hi
    have ht := hv.translate_page hlt (o := 0) (by omega)
    rw [add_zero, add_zero] at ht
    rw [ht, if_neg (frame_ne_zero (hpos i hlt))]
  rw [refPages, View.pages, foldl_map, foldl_ext _ _ _ hstep]

def childView (v : View) (pd : Nat) (ts : List Nat) (t : Nat) : View :=
  protect (clonedView v pd ts t) dataPages

structure Forked (s s' : Machine) (reserved : Nat → Prop) (kpd : Nat) (rest : Nat → Nat)
    (live : Nat → Option View) (n k : Nat) (v : View) (t pd : Nat) (ts : List Nat) : Prop where
  takes : Takes reserved (heldBy rest live n) (t :: pd :: ts)
  len : ts.length = 3
  sound : Sound s' reserved kpd rest
    (update (update live k (some (protect v dataPages))) n (some (childView v pd ts t))) (n + 1)
  kept : Kept s s' live (update live k (some (protect v dataPages)))
  bytes : SameBytes s.mem v s'.mem (childView v pd ts t)
  oom : s'.oom = s.oom

theorem Kept.of_refresh {s' : Machine} {live' : Nat → Option View} (h : Kept s s' live live')
    (hcr : s'.cr3 % 4096 = 0) (pd : Nat) (hpd : 0 < pd) : Kept s (refresh s' pd) live live' := by
  refine ⟨h.dom, ?_, (refresh_cr3 hcr hpd).trans h.cr3,
    ?_, by simpa using h.cloneFailed, by simpa using h.total,
    by simpa using h.oom⟩
  · intro k v hk
    rw [refresh_mem]
    exact h.view k v hk
  · exact fun p e he => h.tlb p e (refresh_tlb hcr pd p e he).2

theorem protect_pages (v : View) (n : Nat) : (protect v n).pages = v.pages := rfl

theorem childView_pages (v : View) (pd : Nat) (ts : List Nat) (t : Nat) :
    (childView v pd ts t).pages = v.pages := rfl

theorem childView_fixed (v : View) (pd t : Nat) (h : ts.length = 3) :
    (childView v pd ts t).fixed = t :: pd :: ts := by
  rw [View.fixed, tables_of_length rfl rfl h]
  rfl

theorem refPages_oom (s : Machine) (pd : Nat) : (refPages s pd).oom = s.oom := by
  simp only [refPages, setFr_oom]

theorem childView_protect (v : View) (pd : Nat) (ts : List Nat) (t : Nat) :
    childView (protect v dataPages) pd ts t = childView v pd ts t := by
  simp only [childView, protect, clonedView]
  congr 1
  funext i
  split <;> rfl

theorem fork_adopt (h : Sound s reserved kpd (addAll rest (t :: pd :: ts)) live n)
    (hk : live k = some v) (hro : ∀ i, i < dataPages → v.rw i = false) (hkd : 0 < rest kpd)
    (htk : Takes reserved (heldBy rest live n) (t :: pd :: ts)) (hlen : ts.length = 3)
    (hmap : Mapped s.mem kpd (childView v pd ts t)) (hcard : ∀ f, dataUse live n f ≤ 254) :
    Sound (refPages s (pd * 4096)) reserved kpd rest (update live n (some (childView v pd ts t)))
      (n + 1) ∧ Kept s (refPages s (pd * 4096)) live live := by
  have hpos : ∀ i, i < dataPages → 0 < (childView v pd ts t).page i := by
    intro i hi
    obtain ⟨hh, hp⟩ := h.held_page hk hi
    have h0 := h.ledger.held_reserved 0 h.ledger.zero_reserved
    by_contra hz
    have hfz : v.page i = 0 := Nat.eq_zero_of_not_pos hz
    rw [hfz] at hh hp
    omega
  have hnd : v.pages.Nodup := pages_nodup fun i j => h.shared.inj k v i j hk
  have hheld : ∀ f, heldBy (addAll rest (t :: pd :: ts)) live n f + v.pages.count f ≤ 255 := by
    intro f
    by_cases hm : f ∈ v.pages
    · obtain ⟨i, hi, rfl⟩ := mem_pages.mp hm
      obtain ⟨hh, -⟩ := h.held_page hk hi
      have hc := hcard (v.page i)
      rw [count_eq_one_of_mem hnd hm]
      omega
    · rw [count_eq_zero_of_not_mem hm]
      exact h.ledger.held_le f
  have hlow : ∀ f ∈ v.pages, 0 < heldBy (addAll rest (t :: pd :: ts)) live n f := by
    intro f hf
    obtain ⟨i, hi, rfl⟩ := mem_pages.mp hf
    obtain ⟨hh, hp⟩ := h.held_page hk hi
    omega
  obtain ⟨hc, htot⟩ := incAll_spec v.pages h.ledger hlow hheld
  have href := refPages_eq hmap hpos
  rw [childView_pages] at href
  obtain ⟨fr, hfr⟩ :
    ∃ fr, v.pages.foldl (fun fr f => mmPageRefInc fr (f * 4096)) s.fr = fr := ⟨_, rfl⟩
  rw [hfr] at href hc htot
  have hrefs : refPages s (pd * 4096) = setFr s fr := href
  have hfixed := childView_fixed v pd t hlen
  rw [hrefs]
  constructor
  · refine h.adopt _ hkd hmap htk.unheld (by rw [hfixed]; exact List.Subset.refl _)
      (by rw [hfixed]; exact htk.nodup) ?_ ?_ ?_ ?_ ?_
    · exact fun i hi => .inr ⟨k, v, hk, page_mem hi⟩
    · exact fun i j hi hj he => h.shared.inj k v i j hk hi hj he
    · intro i hi hrw
      simp [childView, protect, hi] at hrw
    · intro l u j hl hj hrw hm
      have h1 := h.shared.excl l u j hl hj hrw
      have hlk := h.shared.unique hl hk (page_mem hj) hm h1
      subst hlk
      cases hl.symm.trans hk
      rw [hro j hj] at hrw
      cases hrw
    · have he : heldBy rest (update live n (some (childView v pd ts t))) (n + 1) =
          addAll (heldBy (addAll rest (t :: pd :: ts)) live n) v.pages := by
        funext f
        have hx := tally_insert live n (childView v pd ts t) fun v => v.fixed.count f
        have hd := tally_insert live n (childView v pd ts t) fun v => v.pages.count f
        simp only [hfixed] at hx
        simp only [childView_pages] at hd
        simp only [heldBy, fixedUse, dataUse, addAll, hx, hd]
        omega
      rw [he]
      exact hc
  · exact h.kept_of_agree [] (fun f hf => absurd hf not_mem_nil) (AgreeOff.refl [] s.mem) htot

theorem protect_ro (v : View) : ∀ i, i < dataPages → (protect v dataPages).rw i = false := by
  intro i hi
  simp [protect, hi]

theorem dataUse_protect (h : live k = some v) (hlt : k < n) (f : Nat) :
    dataUse (update live k (some (protect v dataPages))) n f = dataUse live n f :=
  dataUse_retune hlt h (protect_pages v dataPages) f

/-- After a fork that failed in the clone of the directory. -/
structure FailedFork (s : Machine) (held : Nat → Nat) (reserved : Nat → Prop) (v : View) (t : Nat)
    (fs : List Nat) (fr : Allocator) (m : Mem) : Prop where
  takes : Takes reserved held (t :: fs)
  len : fs.length < 4
  full : ∀ f, f < s.fr.totalPages → 0 < addAll held (t :: fs) f ∨ reserved f
  total : fr.totalPages = s.fr.totalPages
  ledger : Consistent fr (dropAll held (abandoned v fs)) reserved
  agree : AgreeOff (t :: fs) s.mem m

theorem failedFork_of {fr' : Allocator}
    (hheld : ∀ f ∈ v.tables, 0 < held f) (ht : Fresh held reserved t)
    (htot : fr.totalPages = s.fr.totalPages)
    (hf : FailedClone (setMem (setFr s fr) (writeSigTrampoline s.mem (t * 4096)))
      (addAll held [t]) reserved v fs fr' m) :
    freePage (failedClone (setMem (setFr s fr) (writeSigTrampoline s.mem (t * 4096))) fr' m)
        (t * 4096) = failedClone s (pageUnref fr' t) m ∧
      FailedFork s held reserved v t fs (pageUnref fr' t) m := by
  have hnot : t ∉ abandoned v fs := by
    intro hm
    have h0 := ht.unheld
    have h1 := hheld t ((abandoned_sub v fs).subset hm)
    omega
  have hone : ∀ f, [t].count f ≤ dropAll (addAll held [t]) (abandoned v fs) f := by
    intro f
    by_cases he : f = t
    · subst he
      simp only [dropAll, addAll, count_eq_zero_of_not_mem hnot]
      omega
    · rw [count_eq_zero_of_not_mem (by simpa using he)]
      exact zero_le _
  obtain ⟨hc, htot'⟩ := unrefAll_spec [t] hf.ledger hone
  have he : dropAll (dropAll (addAll held [t]) (abandoned v fs)) [t] = dropAll held
    (abandoned v fs) := by
    funext f
    simp only [dropAll, addAll]
    omega
  rw [he] at hc
  refine ⟨?_, ⟨ht, hf.takes⟩, hf.len, ?_, htot'.trans (hf.total.trans htot), hc, ?_⟩
  · rw [freePage, mmFreePage_eq]
    rfl
  · intro f hlt
    have hfull := hf.full f (htot.symm ▸ hlt)
    rwa [addAll_addAll] at hfull
  · exact AgreeOff.trans ((agree_trampoline s.mem t).mono (by simp)) (hf.agree.mono (subset_cons_self _ _))

section

variable (h : Sound s reserved kpd rest live n) (hk : live k = some v)
include h hk

section

variable (hpd : parent.pdPhys = v.pd * 4096) (hcard : ∀ f, dataUse live n f ≤ 254)
include hpd hcard

theorem cowTables_spec (ht : Fresh (heldBy rest live n) reserved t)
    (hc : Consistent fr (addAll (heldBy rest live n) [t]) reserved)
    (htot : fr.totalPages = s.fr.totalPages) :
    (∃ pd ts s', cowTables (setFr s fr) parent (t * 4096) =
        (some ⟨parent.mem, parent.memPages, pd * 4096, t * 4096, 1⟩, s') ∧
      Forked s s' reserved kpd rest live n k v t pd ts) ∨
    (∃ fs fr' m, cowTables (setFr s fr) parent (t * 4096) = (none, failedClone s fr' m) ∧
      FailedFork s (heldBy rest live n) reserved v t fs fr' m ∧
      ((allocPage (setFr s fr)).1 = 0 ↔ fs = [])) := by
  have hv := h.shared.mapped k v hk
  have hkd := h.shared.kdir
  have hlt := h.shared.live_lt k v hk
  have htk1 : Takes reserved (heldBy rest live n) [t] := ⟨ht, trivial⟩
  obtain ⟨hs1, -⟩ := h.take htk1.unheld hc (agree_trampoline s.mem t) htot
  have hheld : ∀ f ∈ kpd :: v.tables, 0 < addAll (heldBy rest live n) [t] f := by
    intro f hf
    cases mem_cons.mp hf with
    | inl he =>
      simp only [addAll, heldBy, he]
      omega
    | inr hm =>
      have h1 := h.held_fixed hk (table_mem_fixed hm)
      simp only [addAll, h1]
      omega
  simp only [cowTables, hpd, setFr_mem]
  obtain ⟨pd, ts, fr2, m2, he, htk, hlen, htot2, hc2, ha2, hmap⟩ | ⟨fs, fr2, m2, he,
    hfail, hfirst⟩ :=
    cloneUserPd_spec (s := setMem (setFr s fr) (writeSigTrampoline s.mem (t * 4096))) hc h.dir
      (hs1.shared.mapped k v hk) hheld ht.pos ht.lt
  · have hpdpos := htk.pos pd mem_cons_self
    have htakes : Takes reserved (heldBy rest live n) (t :: pd :: ts) := ⟨ht, htk⟩
    have htabs : (clonedView v pd ts t).tables = pd :: ts := tables_of_length rfl rfl hlen
    have hc2' : Consistent fr2 (addAll (heldBy rest live n) (t :: pd :: ts)) reserved := by
      rw [addAll_addAll] at hc2
      exact hc2
    obtain ⟨m3, he3, hmap3, ha3⟩ := writeProtect_spec (s := setMem (setFr s fr2) m2) hmap
    rw [htabs] at ha3
    have hagree : AgreeOff (t :: pd :: ts) s.mem m3 :=
      AgreeOff.trans ((agree_trampoline s.mem t).mono (by simp))
        (AgreeOff.trans (ha2.mono (subset_cons_self _ _)) (ha3.mono (subset_cons_self _ _)))
    obtain ⟨hs3, hk3⟩ := h.take htakes.unheld hc2' hagree (htot2.trans htot)
    have hs4 := (hs3.refresh_sound (pd * 4096) (by omega)).1
    have hk4 := Kept.of_refresh hk3 h.aligned (pd * 4096) (by omega)
    obtain ⟨hs5, hk5, ha5, ho5⟩ := hs4.writeProtect hk
    have hmap5 :
        Mapped (mmUserWriteProtect (refresh (setMem (setFr s fr2) m3) (pd * 4096)) (v.pd * 4096)).mem
        kpd (childView (protect v dataPages) pd ts t) := by
      rw [refresh_mem] at ha5
      rw [childView_protect]
      refine Mapped.agree hmap3 ha5 ?_
      intro f hf hm
      cases mem_cons.mp hf with
      | inl he => exact h.shared.kdir_not_fixed hk (he ▸ table_mem_fixed hm)
      | inr hf =>
        have hf' : f ∈ (clonedView v pd ts t).tables := hf
        rw [htabs] at hf'
        have h0 := htakes.unheld f (mem_cons_of_mem _ hf')
        have h1 := h.held_fixed hk (table_mem_fixed hm)
        omega
    obtain ⟨s5, hs5eq⟩ : ∃ s5, mmUserWriteProtect (refresh (setMem (setFr s fr2) m3) (pd * 4096))
        (v.pd * 4096) = s5 := ⟨_, rfl⟩
    rw [hs5eq] at hs5 hk5 ho5 hmap5
    have hheld5 := heldBy_retune rest (w := protect v dataPages) hlt hk rfl (protect_pages v dataPages)
    obtain ⟨hs6, hk6⟩ := fork_adopt hs5 (update_self ..) (protect_ro v) hkd
      (by rw [hheld5]; exact htakes) hlen hmap5 fun f => by rw [dataUse_protect hk hlt]; exact hcard f
    rw [childView_protect] at hs6
    have hkept := (hk4.trans hk5).trans hk6
    refine .inl ⟨pd, ts, refPages s5 (pd * 4096), ?_, htakes, hlen, hs6, hkept, ?_, ?_⟩
    · have he3' : mmUserWriteProtect (setMem (setFr s fr2) m2) (pd * 4096) =
          refresh (setMem (setFr s fr2) m3) (pd * 4096) := he3
      rw [he]
      simp only [frame_ne_zero hpdpos, if_false, shareWith, frame_ne_zero hv.pd_pos]
      rw [show setMem (setFr (setMem (setFr s fr) (writeSigTrampoline s.mem (t * 4096))) fr2) m2 =
        setMem (setFr s fr2) m2 from rfl, he3', hs5eq]
    · obtain ⟨v', hv', -, -, hb⟩ := hkept.view k v hk
      rw [update_self] at hv'
      rw [← Option.some.inj hv'] at hb
      exact hb
    · rw [refPages_oom, ho5, refresh_oom]
      rfl
  · have hheld' : ∀ f ∈ v.tables, 0 < heldBy rest live n f := by
      intro f hf
      rw [h.held_fixed hk (table_mem_fixed hf)]
      exact one_pos
    obtain ⟨hfree, hff⟩ := failedFork_of hheld' ht htot hfail
    refine .inr ⟨fs, pageUnref fr2 t, m2, ?_, hff, hfirst⟩
    rw [he]
    simp only [if_true, hfree]

theorem cowSpace_spec :
    (∃ t pd ts s', cowSpace s parent = (some ⟨parent.mem, parent.memPages, pd * 4096, t * 4096, 1⟩, s') ∧
      Forked s s' reserved kpd rest live n k v t pd ts) ∨
    (cowSpace s parent = (none, setOom s) ∧ ∀ f, f < s.fr.totalPages → 0 < heldBy rest live n f ∨
      reserved f) ∨
    (∃ t fs fr m, cowSpace s parent = (none, failedClone s fr m) ∧
      FailedFork s (heldBy rest live n) reserved v t fs fr m ∧
      ((allocPage (allocPage s).2).1 = 0 ↔ fs = [])) := by
  simp only [cowSpace]
  obtain ⟨ht, hall⟩ | ⟨t, fr, ht, hf, htot, hc⟩ := alloc_cases h.ledger
  · refine .inr (.inl ⟨?_, hall⟩)
    rw [ht]
    rfl
  · rw [ht]
    simp only [frame_ne_zero hf.pos, if_false]
    obtain ⟨pd, ts, s', he, hfork⟩ | ⟨fs, fr', m, he, hfail, hsecond⟩ :=
      cowTables_spec h hk hpd hcard hf hc htot
    · exact .inl ⟨t, pd, ts, s', he, hfork⟩
    · exact .inr (.inr ⟨t, fs, fr', m, he, hfail, hsecond⟩)

end

end

end MuOS.Proc.SpaceOps
