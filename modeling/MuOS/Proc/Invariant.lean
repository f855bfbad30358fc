import MuOS.Proc.SpaceOps

namespace MuOS.Proc.Invariant

open Function Lib.Tally Mm Grants UserPd Views TableBuild Sharing SharingOps Space SpaceOps
  Finset Nat Option

variable {p : Slot} {v : View}

def stackFrames (p : Slot) : List Nat :=
  if p.kstack = 0 then [] else List.range' (p.kstack / 4096) kernelStackPages

def stackUse (procs : Nat → Slot) (f : Nat) : Nat :=
  ∑ i ∈ Finset.range procMax, (stackFrames (procs i)).count f

def sharers (procs : Nat → Slot) (id : Nat) : Nat :=
  ∑ i ∈ Finset.range procMax, if (procs i).space = some id then 1 else 0

/-- References no space holds: the kernel's, lost frames, and kernel stacks. -/
def owned (base : Nat → Nat) (lost : List Nat) (procs : Nat → Slot) : Nat → Nat :=
  fun f => base f + lost.count f + stackUse procs f

abbrev inUse (base : Nat → Nat) (lost : List Nat) (live : Nat → Option View) (vm : Vm) :
    Nat → Nat :=
  heldBy (owned base lost vm.procs) live vm.nextSpace

/-- Every space is referenced as often as processes run in it. -/
structure Book (procs : Nat → Slot) (spaces : Nat → Option ProcSpace)
    (live : Nat → Option View) : Prop where
  shell : (procs 0).used = true ∧ (procs 0).space = none ∧ (procs 0).kstack = 0
  unused : ∀ i, i < procMax → (procs i).used = false → (procs i).space = none ∧ (procs i).kstack = 0
  bare : ∀ i, i < procMax → (procs i).space = none → (procs i).pdPhys = 0
  attached : ∀ i id, i < procMax → (procs i).space = some id →
    ∃ v, live id = some v ∧ (procs i).pdPhys = v.pd * 4096
  known : ∀ id v, live id = some v → 0 < sharers procs id ∧ ∃ sp, spaces id = some sp ∧
    sp.pdPhys = v.pd * 4096 ∧ sp.trampPhys = v.tramp * 4096 ∧ sp.refs = sharers procs id
  gone : ∀ id, live id = none → spaces id = none

/-- The loaded directory and cached translations are the running process's. -/
structure Running (vm : Vm) (kpd : Nat) (live : Nat → Option View) : Prop where
  current_lt : vm.current < procMax
  current_used : (vm.procs vm.current).used = true
  active : vm.current ≠ 0 → vm.active = true
  loaded : vm.mm.cr3 = if (vm.procs vm.current).pdPhys = 0 then kpd * 4096
    else (vm.procs vm.current).pdPhys
  cached : ∀ p e, vm.mm.tlb p = some e → ∃ id v i, (vm.procs vm.current).space = some id ∧
    live id = some v ∧ i < dataPages ∧ p = 32840 + i ∧ e = v.pte p

/-- Frames nobody gives back: none twice, none of the kernel's. -/
def Strays (base : Nat → Nat) (lost : List Nat) : Prop := lost.Nodup ∧ ∀ f ∈ lost, base f = 0

structure Inv (reserved : Nat → Prop) (kpd : Nat) (base : Nat → Nat) (vm : Vm) (lost : List Nat)
    (live : Nat → Option View) : Prop where
  sound : Sound vm.mm reserved kpd (owned base lost vm.procs) live vm.nextSpace
  kdir : 0 < base kpd
  strays : Strays base lost
  kstacks : ∀ i, i < procMax → (vm.procs i).kstack % 4096 = 0
  book : Book vm.procs vm.spaces live
  running : Running vm kpd live

section

variable {procs : Nat → Slot} {i id f : Nat}

theorem slots_update (Q : Slot → Prop) (hp : Q p) (h : ∀ j, j < procMax → j ≠ i → Q (procs j)) :
    ∀ j, j < procMax → Q (update procs i p j) := by
  intro j hj
  by_cases hji : j = i
  · subst hji
    rw [update_self]
    exact hp
  · rw [update_of_ne hji]
    exact h j hj hji

section

variable (procs)

theorem stackUse_update (hi : i < procMax) (p : Slot) (f : Nat) :
    stackUse (update procs i p) f + (stackFrames (procs i)).count f = stackUse procs f +
    (stackFrames p).count f := by
  have h := sum_change (fun j => (stackFrames (procs j)).count f)
    (fun j => (stackFrames (update procs i p j)).count f) (mem_range.mpr hi)
    (fun j hj => by rw [update_of_ne hj])
  rwa [update_self] at h

theorem sharers_update (hi : i < procMax) (p : Slot) (id : Nat) :
    sharers (update procs i p) id + (if (procs i).space = some id then 1 else 0) =
      sharers procs id + (if p.space = some id then 1 else 0) := by
  have h := sum_change (fun j => if (procs j).space = some id then 1 else 0)
    (fun j => if (update procs i p j).space = some id then 1 else 0) (mem_range.mpr hi)
    (fun j hj => by rw [update_of_ne hj])
  rwa [update_self] at h

theorem sharers_same (hi : i < procMax) (hp : p.space = (procs i).space) (id : Nat) :
    sharers (update procs i p) id = sharers procs id := by
  have h := sharers_update procs hi p id
  rw [hp] at h
  omega

end

theorem sharers_pos (hi : i < procMax) (h : (procs i).space = some id) : 0 < sharers procs id := by
  have hs := single_le_sum (f := fun j => if (procs j).space = some id then 1 else 0)
    (fun j _ => zero_le _) (mem_range.mpr hi)
  simp only [h, if_true] at hs
  exact hs

theorem exists_sharer (h : 0 < sharers procs id) : ∃ i, i < procMax ∧
    (procs i).space = some id := by
  obtain ⟨i, hi, hne⟩ := exists_ne_zero_of_sum_ne_zero (Nat.ne_of_gt h)
  refine ⟨i, mem_range.mp hi, ?_⟩
  by_contra hs
  exact hne (if_neg hs)

theorem stackFrames_empty (h : p.kstack = 0) : stackFrames p = [] := if_pos h

theorem stackFrames_run {b : Nat} (hb : 0 < b) (h : p.kstack = b * 4096) :
    stackFrames p = List.range' b 2 := by
  rw [stackFrames, if_neg (h ▸ frame_ne_zero hb), h, Nat.mul_div_cancel b (by omega)]
  rfl

theorem owned_take {base : Nat → Nat} {lost : List Nat} (hi : i < procMax)
    (h0 : (procs i).kstack = 0) :
    owned base lost (update procs i p) = addAll (owned base lost procs) (stackFrames p) := by
  funext f
  have h := stackUse_update procs hi p f
  rw [stackFrames_empty h0, List.count_nil] at h
  simp only [owned, addAll]
  omega

theorem owned_give {base : Nat → Nat} {lost : List Nat} (hi : i < procMax) (h0 : p.kstack = 0) :
    owned base lost procs = addAll (owned base lost (update procs i p))
    (stackFrames (procs i)) := by
  funext f
  have h := stackUse_update procs hi p f
  rw [stackFrames_empty h0, List.count_nil] at h
  simp only [owned, addAll]
  omega

theorem owned_lose {base : Nat → Nat} {lost : List Nat} (f : Nat) :
    owned base (f :: lost) procs = addAll (owned base lost procs) [f] := by
  funext g
  simp only [owned, addAll, List.count_cons, List.count_nil]
  omega

end

variable {reserved : Nat → Prop} {kpd : Nat} {base : Nat → Nat} {vm : Vm} {lost : List Nat}
  {live live' : Nat → Option View} {mm : Machine}

theorem Strays.cons (h : Strays base lost) {procs : Nat → Slot} {n f : Nat}
    (hf : heldBy (owned base lost procs) live n f = 0) : Strays base (f :: lost) := by
  simp only [heldBy, owned] at hf
  refine ⟨List.nodup_cons.mpr ⟨List.count_eq_zero.mp (by omega), h.1⟩, ?_⟩
  rintro g (_ | ⟨_, hg⟩)
  · omega
  · exact h.2 g hg

theorem Inv.dataUse_le (h : Inv reserved kpd base vm lost live) (f : Nat) :
    dataUse live vm.nextSpace f ≤ procMax := by
  have hone : ∀ k v, live k = some v → v.pages.count f ≤ 1 := fun k v hk =>
    List.nodup_iff_count_le_one.mp (pages_nodup fun i j => h.sound.shared.inj k v i j hk) f
  refine (tally_le_card hone).trans ?_
  have hsub : (Finset.range vm.nextSpace).filter (fun k => (live k).isSome) ⊆
      (Finset.range procMax).image (fun i => ((vm.procs i).space).getD 0) := by
    intro k hk
    obtain ⟨v, hv⟩ := isSome_iff_exists.mp (mem_filter.mp hk).2
    obtain ⟨i, hi, hs⟩ := exists_sharer (h.book.known k v hv).1
    exact mem_image.mpr ⟨i, mem_range.mpr hi, by rw [hs]; rfl⟩
  calc _ ≤ ((Finset.range procMax).image fun i => ((vm.procs i).space).getD 0).card :=
        card_le_card hsub
    _ ≤ (Finset.range procMax).card := card_image_le
    _ = procMax := card_range procMax

section

variable {procs : Nat → Slot} {spaces : Nat → Option ProcSpace} {s s' : Machine}
  {i : Nat} {p : Slot}

section

variable (h : Book procs spaces live)
include h

theorem Book.kept (hk : Kept s s' live live') : Book procs spaces live' := by
  refine ⟨h.shell, h.unused, h.bare, ?_, ?_, ?_⟩
  · intro i id hi hs
    obtain ⟨v, hv, hpd⟩ := h.attached i id hi hs
    obtain ⟨v', hv', hpd', -, -⟩ := hk.view id v hv
    exact ⟨v', hv', hpd.trans (by rw [hpd'])⟩
  · intro id v' hv'
    cases hl : live id with
    | none => cases (hk.dom id hl).symm.trans hv'
    | some v =>
      obtain ⟨hp, sp, hsp, hpd, htr, hrefs⟩ := h.known id v hl
      obtain ⟨w, hw, hpd', htr', -⟩ := hk.view id v hl
      cases hw.symm.trans hv'
      exact ⟨hp, sp, hsp, by rw [hpd, hpd'], by rw [htr, htr'], hrefs⟩
  · intro id hl
    cases hl' : live id with
    | none => exact h.gone id hl'
    | some v =>
      obtain ⟨w, hw, -⟩ := hk.view id v hl'
      cases hl.symm.trans hw

theorem Book.slot (h0 : i ≠ 0) (hi : i < procMax) (hbare : (procs i).space = none)
    (hp : p.space = none) (hpd : p.pdPhys = 0) (hun : p.used = false → p.kstack = 0) :
    Book (update procs i p) spaces live := by
  have hsame := sharers_same procs hi (hp.trans hbare.symm)
  refine ⟨?_, ?_, ?_, ?_, ?_, h.gone⟩
  · rw [update_of_ne h0.symm]
    exact h.shell
  · exact slots_update (fun q => q.used = false → q.space = none ∧ q.kstack = 0)
      (fun hu => ⟨hp, hun hu⟩) (fun j hj _ => h.unused j hj)
  · exact slots_update (fun q => q.space = none → q.pdPhys = 0) (fun _ => hpd) fun j hj _ => h.bare j hj
  · intro j id hj
    refine slots_update (fun q => q.space = some id → ∃ v, live id = some v ∧ q.pdPhys = v.pd * 4096) ?_
      (fun j hj _ => h.attached j id hj) j hj
    exact fun hs => by cases hs.symm.trans hp
  · intro id v hv
    rw [hsame]
    exact h.known id v hv

theorem Book.unknown {id : Nat} (hid : live id = none) : sharers procs id = 0 := by
  by_contra hne
  obtain ⟨i, hi, hs⟩ := exists_sharer (pos_of_ne_zero hne)
  obtain ⟨v, hv, -⟩ := h.attached i id hi hs
  cases hid.symm.trans hv

theorem Book.join (h0 : i ≠ 0) (hi : i < procMax) (hbare : (procs i).space = none)
    {id : Nat} (sp : ProcSpace) (hp : p.space = some id) (hpd : p.pdPhys = v.pd * 4096)
    (hu : p.used = true) (hlive : live id = none ∨ live id = some v) (hsp : sp.pdPhys = v.pd * 4096)
    (htr : sp.trampPhys = v.tramp * 4096) (hrefs : sp.refs = sharers procs id + 1) :
    Book (update procs i p) (update spaces id (some sp)) (update live id (some v)) := by
  have hsh : ∀ k, sharers (update procs i p) k = sharers procs k + if id = k then 1 else 0 := by
    intro k
    have hc := sharers_update procs hi p k
    simp only [hbare, hp, some.injEq, reduceCtorEq, if_false] at hc
    omega
  refine ⟨?_, ?_, ?_, ?_, ?_, ?_⟩
  · rw [update_of_ne h0.symm]
    exact h.shell
  · refine slots_update (fun q => q.used = false → q.space = none ∧ q.kstack = 0) ?_
      (fun j hj _ => h.unused j hj)
    exact fun hun => by cases hun.symm.trans hu
  · refine slots_update (fun q => q.space = none → q.pdPhys = 0) ?_ (fun j hj _ => h.bare j hj)
    exact fun hs => by cases hs.symm.trans hp
  · intro j k hj
    refine slots_update (fun q => q.space = some k → ∃ w, update live id (some v) k = some w ∧
      q.pdPhys = w.pd * 4096) ?_ ?_ j hj
    · intro hs
      cases hp.symm.trans hs
      exact ⟨v, update_self .., hpd⟩
    intro j hj _ hs
    obtain ⟨w, hw, hpdw⟩ := h.attached j k hj hs
    by_cases hk : k = id
    · subst hk
      refine ⟨v, update_self .., ?_⟩
      cases hlive with
      | inl hn => cases hn.symm.trans hw
      | inr hv => rw [hpdw, some.inj (hw.symm.trans hv)]
    · exact ⟨w, by rw [update_of_ne hk]; exact hw, hpdw⟩
  · intro k w hw
    rw [hsh]
    by_cases hk : k = id
    · subst hk
      rw [update_self] at hw ⊢
      cases hw
      rw [if_pos rfl]
      exact ⟨succ_pos _, sp, rfl, hsp, htr, hrefs⟩
    · rw [update_of_ne hk] at hw ⊢
      rw [if_neg (Ne.symm hk)]
      exact h.known k w hw
  · intro k hk
    by_cases hki : k = id
    · subst hki
      rw [update_self] at hk
      cases hk
    · rw [update_of_ne hki] at hk ⊢
      exact h.gone k hk

theorem Book.leave (h0 : i ≠ 0) (hi : i < procMax) {id : Nat}
    (hid : (procs i).space = some id) (hp : p.space = none) (hpd : p.pdPhys = 0)
    (hun : p.used = false → p.kstack = 0) {o : Option ProcSpace} (hv : live id = some v)
    (ho : (o = none ∧ sharers procs id = 1) ∨ ∃ sp, o = some sp ∧ sp.pdPhys = v.pd * 4096 ∧
      sp.trampPhys = v.tramp * 4096 ∧ sp.refs + 1 = sharers procs id ∧ 0 < sp.refs) :
    Book (update procs i p) (update spaces id o) (update live id (o.map (fun _ => v))) := by
  have hsh : ∀ k, sharers (update procs i p) k + (if id = k then 1 else 0) = sharers procs k := by
    intro k
    have hc := sharers_update procs hi p k
    simp only [hid, hp, some.injEq, reduceCtorEq, if_false] at hc
    omega
  refine ⟨?_, ?_, ?_, ?_, ?_, ?_⟩
  · rw [update_of_ne h0.symm]
    exact h.shell
  · exact slots_update (fun q => q.used = false → q.space = none ∧ q.kstack = 0)
      (fun hu => ⟨hp, hun hu⟩) (fun j hj _ => h.unused j hj)
  · exact slots_update (fun q => q.space = none → q.pdPhys = 0) (fun _ => hpd) fun j hj _ => h.bare j hj
  · intro j k hj
    refine slots_update (fun q => q.space = some k → ∃ w, update live id (o.map fun _ => v) k = some w ∧
      q.pdPhys = w.pd * 4096) ?_ ?_ j hj
    · exact fun hs => by cases hs.symm.trans hp
    intro j hj hji hs
    obtain ⟨w, hw, hpdw⟩ := h.attached j k hj hs
    by_cases hk : k = id
    · subst hk
      have hpos := sharers_pos hj ((congrArg Slot.space (update_of_ne hji p procs)).trans hs)
      have hc := hsh k
      rw [if_pos rfl] at hc
      obtain ⟨-, h1⟩ | ⟨sp, rfl, -⟩ := ho
      · omega
      refine ⟨v, update_self .., ?_⟩
      rw [hpdw, some.inj (hw.symm.trans hv)]
    · exact ⟨w, by rw [update_of_ne hk]; exact hw, hpdw⟩
  · intro k w hw
    have hc := hsh k
    by_cases hk : k = id
    · subst hk
      rw [if_pos rfl] at hc
      rw [update_self] at hw ⊢
      obtain ⟨rfl, -⟩ | ⟨sp, rfl, hsp, htr, hrefs, hpos⟩ := ho
      · cases hw
      cases hw
      exact ⟨by omega, sp, rfl, hsp, htr, by omega⟩
    · rw [update_of_ne hk] at hw ⊢
      rw [if_neg (Ne.symm hk), add_zero] at hc
      rw [hc]
      exact h.known k w hw
  · intro k hk
    by_cases hki : k = id
    · subst hki
      rw [update_self] at hk ⊢
      exact map_eq_none_iff.mp hk
    · rw [update_of_ne hki] at hk ⊢
      exact h.gone k hk

end

end

theorem Inv.loaded_view (h : Inv reserved kpd base vm lost live) {id : Nat}
    (hs : (vm.procs vm.current).space = some id) :
    ∃ v, live id = some v ∧ (vm.procs vm.current).pdPhys = v.pd * 4096 ∧
    vm.mm.cr3 = v.pd * 4096 := by
  obtain ⟨v, hv, hpd⟩ := h.book.attached _ id h.running.current_lt hs
  refine ⟨v, hv, hpd, ?_⟩
  rw [h.running.loaded, hpd, if_neg (frame_ne_zero (h.sound.shared.mapped id v hv).pd_pos)]

theorem Inv.kept (h : Inv reserved kpd base vm lost live)
    (hs : Sound mm reserved kpd (owned base lost vm.procs) live' vm.nextSpace)
    (hk : Kept vm.mm mm live live') : Inv reserved kpd base (setMm vm mm) lost live' := by
  refine ⟨hs, h.kdir, h.strays, h.kstacks, h.book.kept hk, ?_⟩
  refine ⟨h.running.current_lt, h.running.current_used, h.running.active,
    hk.cr3.trans h.running.loaded, ?_⟩
  intro p e he
  obtain ⟨he', hkeep⟩ := hk.tlb p e he
  obtain ⟨id, v, i, hid, hl, hi, hp, hpte⟩ := h.running.cached p e he'
  obtain ⟨w, hw, -, hcr⟩ := h.loaded_view hid
  rw [← some.inj (hl.symm.trans hw)] at hcr
  exact ⟨id, v, i, hid, hkeep id v hl hcr, hi, hp, hpte⟩

end MuOS.Proc.Invariant
