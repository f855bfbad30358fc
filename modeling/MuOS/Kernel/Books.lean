import MuOS.Kernel.Counts
import MuOS.Kernel.Layout

namespace MuOS.Kernel.Books

open Function Lib.Tally Fs.RamFs User.Descriptors Syscall Vfs FileCalls References State Wake
open Calls Stir Tables ProcTable Step Phases Counts Option Finset Nat

def holders (k : Machine) (t : Nat) : Finset (Fin 8) :=
  Finset.univ.filter (fun i => (k.procs i).used = true ∧ (k.procs i).fdState = some t)

/-- The saved tables with contents `T`, their holders and the counts. -/
structure Balanced (D : Fin 16 → Prop) (k : Machine) (T : Nat → Option Table) : Prop where
  below : ∀ t, k.nextState ≤ t → k.states t = none
  dom : ∀ t, (T t).isSome = (k.states t).isSome
  held : ∀ i t, (k.procs i).used = true → (k.procs i).fdState = some t → (k.states t).isSome = true
  refs : ∀ t f, k.states t = some f → 0 < f.refs ∧ f.refs = (holders k t).card
  named : ∀ t v fd, T t = some v → Named k (v fd)
  charged : Charged D k (fun j => tally T k.nextState (many (isEnd j)))
    (fun s => tally T k.nextState (many (isOpen s)))

structure Framed (k k' : Machine) : Prop where
  next : k'.nextState = k.nextState
  refs : ∀ t, (k'.states t).map FdState.refs = (k.states t).map FdState.refs
  rows : ∀ i, (k'.procs i).used = (k.procs i).used ∧
    ((k.procs i).used = true → (k'.procs i).fdState = (k.procs i).fdState)
  pipes : ∀ j, (k.pipes j).used = true → (k'.pipes j).used = true

variable {D : Fin 16 → Prop} {k k' k1 : Machine} {T T' : Nat → Option Table} {t : Nat} {v : Table}
  {i : Fin 8} {x : Desc} {j : Fin 8} {f : FdState} {t' : Nat} {d : Done}

theorem mem_holders : i ∈ holders k t ↔ (k.procs i).used = true ∧ (k.procs i).fdState = some t := by
  simp [holders]

theorem Framed.holders (h : Framed k k') (t : Nat) : holders k' t = holders k t := by
  ext i
  rw [mem_holders, mem_holders, (h.rows i).1]
  refine and_congr_right fun hu => ?_
  rw [(h.rows i).2 hu]

theorem Framed.isSome (h : Framed k k') (t : Nat) : (k'.states t).isSome = (k.states t).isSome := by
  rw [← isSome_map, h.refs, isSome_map]

section

variable (h : Balanced D k T)
include h

theorem Balanced.lt (ht : T t = some v) : t < k.nextState := by
  by_contra hge
  have hd := h.dom t
  rw [ht, h.below t (not_lt.mp hge)] at hd
  cases hd

theorem Balanced.recharge (hf : Framed k k') (hd : ∀ t, (T' t).isSome = (T t).isSome)
    (hn : ∀ t v fd, T' t = some v → Named k' (v fd))
      (hc : Charged D k' (fun j => tally T' k.nextState (many (isEnd j)))
      (fun s => tally T' k.nextState (many (isOpen s)))) : Balanced D k' T' where
  below := by
    intro t ht
    rw [hf.next] at ht
    have hs := hf.isSome t
    rw [h.below t ht] at hs
    exact isNone_iff_eq_none.mp (not_isSome_iff_eq_none.mp (by rw [hs]; simp) ▸ rfl)
  dom := fun t => by rw [hd, h.dom, hf.isSome]
  held := by
    intro i t hu ht
    rw [(hf.rows i).1] at hu
    rw [(hf.rows i).2 hu] at ht
    rw [hf.isSome]
    exact h.held i t hu ht
  refs := by
    intro t f ht
    have hr := hf.refs t
    rw [ht] at hr
    obtain ⟨g, hg, he⟩ := map_eq_some_iff.mp hr.symm
    rw [hf.holders, ← he]
    exact h.refs t g hg
  named := hn
  charged := by
    rw [hf.next]
    exact hc

theorem Balanced.level (hf : Framed k k') (hw : ∀ j, (k'.pipes j).writers = (k.pipes j).writers)
    (hr : Keeps D k.ram k'.ram) : Balanced D k' T := by
  refine h.recharge hf (fun _ => rfl) (fun t v fd ht => (h.named t v fd ht).grow hf.pipes)
    ⟨fun j => ?_, ?_⟩
  · rw [hw]
    exact h.charged.writers j
  · exact h.charged.files.keeps hr

omit h in
theorem holders_card (k : Machine) (n : Nat) : ∑ t ∈ Finset.range n, (holders k t).card ≤ 8 := by
  rw [← card_biUnion]
  · exact card_le_univ _
  intro t _ t' _ hne
  refine disjoint_left.mpr fun i hi hi' => ?_
  rw [mem_holders] at hi hi'
  exact hne (some.inj (hi.2.symm.trans hi'.2))

theorem Balanced.few (p : Desc → Bool) : tally T k.nextState (many p) ≤ 88 := by
  have hle : tally T k.nextState (many p) ≤ ∑ t ∈ Finset.range k.nextState,
    11 * (holders k t).card := by
    refine sum_le_sum fun t _ => ?_
    cases ht : T t with
    | none => exact zero_le _
    | some v =>
      have hd := h.dom t
      rw [ht] at hd
      obtain ⟨f, hf⟩ := isSome_iff_exists.mp hd.symm
      have hr := h.refs t f hf
      have hm := many_le p v
      rw [elim_some]
      omega
  rw [← mul_sum] at hle
  have hc := holders_card k k.nextState
  omega

theorem Balanced.bound (s : Fin 16) : tally T k.nextState (many (isOpen s)) + 12 < 2 ^ 32 := by
  have hf := h.few (isOpen s)
  omega

theorem Balanced.used {r : Ram} (hr : Keeps D k.ram r) (ht : T t = some v) {fd : Fin 11}
    {s : Fin 16} (hk : (v fd).kind = .file) (hs : (v fd).fsSlot = s.val) :
    isUsed (r.tables.files s) = true := by
  have hone : 0 < many (isOpen s) v := by
    refine card_pos.mpr ⟨fd, ?_⟩
    simp [isOpen, hk, hs]
  have hle := le_tally (h.lt ht) ht (many (isOpen s))
  have hb := h.bound s
  exact (h.charged.files.keeps hr).used (lt_of_lt_of_le hone hle) (by omega)

end

theorem dom_update (ht : (T t).isSome = true) (v : Table) (t' : Nat) :
    (update T t (some v) t').isSome = (T t').isSome := by
  by_cases he : t' = t
  · rw [he, update_self, ht]
    rfl
  · rw [update_of_ne he]

theorem named_update (h : Balanced D k T) (hp : ∀ j, (k.pipes j).used = true →
    (k'.pipes j).used = true)
    (hv : ∀ fd, Named k' (v fd)) (t' : Nat) (v' : Table) (fd : Fin 11)
    (ht : update T t (some v) t' = some v') : Named k' (v' fd) := by
  by_cases he : t' = t
  · rw [he, update_self] at ht
    rw [← some.inj ht]
    exact hv fd
  · rw [update_of_ne he] at ht
    exact (h.named t' v' fd ht).grow hp

theorem tally_setDesc {n : Nat} (hlt : t < n) (ht : T t = some v) (p : Desc → Bool) (i : Fin 11)
    (x : Desc) : tally (update T t (some (setDesc v i x))) n (many p) + (p (v i)).toNat = tally T n
    (many p) + (p x).toNat := by
  have hr := tally_replace (b := setDesc v i x) hlt ht (many p)
  have hm := many_setDesc p v i x
  omega

theorem named_setDesc (h : ∀ fd, Named k (v fd)) (hx : Named k x) (i fd : Fin 11) :
    Named k (setDesc v i x fd) := by
  by_cases he : fd = i
  · rw [he, setDesc_self]
    exact hx
  · rw [setDesc_ne he]
    exact h fd

section

variable (h : Balanced D k T) (ht : T t = some v)
include h ht

theorem Balanced.opened {i : Fin 11} (hi : (v i).kind = .free) (hf : Framed k k') (hx : Named k' x)
    (hw : WritersAre k' (fun j => tally T k.nextState (many (isEnd j)) + (isEnd j x).toNat))
    (hr : FilesAre D k'.ram (fun s => tally T k.nextState (many (isOpen s)) + (isOpen s x).toNat)) :
    Balanced D k' (update T t (some (setDesc v i x))) := by
  have hnew : ∀ p : Desc → Bool, p (v i) = false →
    tally (update T t (some (setDesc v i x))) k.nextState (many p) =
        tally T k.nextState (many p) + (p x).toNat := by
    intro p hp
    have hs := tally_setDesc (h.lt ht) ht p i x
    rw [hp] at hs
    exact hs
  refine h.recharge hf (dom_update (by rw [ht]; rfl) _) (named_update h hf.pipes fun fd => ?_) ?_
  · exact named_setDesc (fun fd => (h.named t v fd ht).grow hf.pipes) hx i fd
  refine Charged.congr ⟨hw, hr⟩ (fun j => ?_) fun s => ?_
  · exact hnew _ (isEnd_of_ne (by simp [hi]))
  · exact hnew _ (isOpen_of_ne (by simp [hi]))

theorem Balanced.alike {v' : Table} (ha : ∀ fd, Alike (v fd) (v' fd))
    (hf : Framed k k') (hw : ∀ j, (k'.pipes j).writers = (k.pipes j).writers)
    (hr : Keeps D k.ram k'.ram) : Balanced D k' (update T t (some v')) := by
  have hnew : ∀ p : Desc → Bool, (∀ fd, p (v' fd) = p (v fd)) →
      tally (update T t (some v')) k.nextState (many p) = tally T k.nextState (many p) := by
    intro p hp
    have hs := tally_replace (b := v') (h.lt ht) ht (many p)
    rw [many_congr hp] at hs
    omega
  refine h.recharge hf (dom_update (by rw [ht]; rfl) _) (named_update h hf.pipes fun fd => ?_) ?_
  · exact ((h.named t v fd ht).grow hf.pipes).alike (ha fd)
  refine Charged.congr (h.level hf hw hr).charged (fun j => ?_) fun s => ?_
  · rw [hf.next]
    exact hnew _ fun fd => isEnd_alike (ha fd)
  · rw [hf.next]
    exact hnew _ fun fd => isOpen_alike (ha fd)

theorem Balanced.closed (i : Fin 11) (hf : Framed k k')
    (hw : ∀ W, WritersAre k (fun j => W j + (isEnd j (v i)).toNat) → WritersAre k' W)
    (hr : k'.ram = unrefFile k.ram (v i)) :
    Balanced D k' (update T t (some (setDesc v i emptyDesc))) := by
  have hnew : ∀ p : Desc → Bool, p emptyDesc = false →
      tally (update T t (some (setDesc v i emptyDesc))) k.nextState (many p) + (p (v i)).toNat =
        tally T k.nextState (many p) := by
    intro p hp
    have hs := tally_setDesc (h.lt ht) ht p i emptyDesc
    rw [hp] at hs
    exact hs
  have hc := h.charged.congr (fun j => hnew (isEnd j) rfl) fun s => hnew (isOpen s) rfl
  refine h.recharge hf (dom_update (by rw [ht]; rfl) _) (named_update h hf.pipes fun fd => ?_)
    ⟨hw _ hc.writers, ?_⟩
  · exact named_setDesc (fun fd => (h.named t v fd ht).grow hf.pipes) (.plain rfl) i fd
  rw [hr]
  refine hc.files.unref (fun s => ?_) (h.named t v i ht).slot
  have hb := h.bound s
  have he := hnew (isOpen s) rfl
  omega

end

theorem Framed.refl (k : Machine) : Framed k k :=
  ⟨rfl, fun _ => rfl, fun _ => ⟨rfl, fun _ => rfl⟩, fun _ h => h⟩

theorem Framed.trans (h : Framed k k1) (h' : Framed k1 k') : Framed k k' where
  next := h'.next.trans h.next
  refs := fun t => (h'.refs t).trans (h.refs t)
  rows := fun i => ⟨(h'.rows i).1.trans (h.rows i).1, fun hu =>
    ((h'.rows i).2 ((h.rows i).1.trans hu)).trans ((h.rows i).2 hu)⟩
  pipes := fun j hu => h'.pipes j (h.pipes j hu)

theorem Framed.rang (h : Rang k k') : Framed k k' where
  next := h.nextState
  refs := fun t => by rw [h.states]
  rows := fun i => ⟨(Rang.fit h i).used, fun _ => (Rang.fit h i).fdState⟩
  pipes := fun j hu => (h.pipeUsed j).trans hu

theorem Framed.setRam (h : Framed k k') (r : Ram) : Framed k { k' with ram := r } :=
  ⟨h.next, h.refs, h.rows, h.pipes⟩

theorem Framed.stirred (h : Stirred k k') : Framed k k' where
  next := h.nextState
  refs := fun t => by rw [h.states]
  rows := fun i => ⟨(h.procs i).used, fun _ => (h.procs i).fdState⟩
  pipes := fun j hu => (h.pipeUsed j).trans hu

theorem Balanced.stirred (h : Balanced D k T) (hs : Stirred k k') : Balanced D k' T :=
  h.level (.stirred hs) hs.writers (by rw [hs.ram]; exact .refl D _)

theorem Balanced.filed {s : Sys} (h : Balanced D k T) (ht : T t = some s.fds) (hram : s.ram = k.ram)
    (he : Effect D s d) : Balanced D (addWriters (setFiles k d.sys) d.pipes)
    (update T t (some d.sys.fds)) := by
  have hset : Framed k (setFiles k d.sys) :=
    ⟨rfl, fun _ => rfl, fun _ => ⟨rfl, fun _ => rfl⟩, fun _ hu => hu⟩
  have hf : Framed k (addWriters (setFiles k d.sys) d.pipes) :=
    hset.trans (.rang (addWriters_rang _ _))
  have hr : (addWriters (setFiles k d.sys) d.pipes).ram = d.sys.ram := addWriters_ram _ _
  cases he with
  | kept hk hp =>
    refine h.alike ht hk.fds hf (fun j => ?_) ?_
    · rw [hp]
      rfl
    · rw [hr, ← hram]
      exact hk.ram
  | opened i y r hkr hfree hx hdr hfds hcwd hp =>
    rw [hram] at hkr
    have hy : Named k y := by
      cases hx with
      | file s hy hu =>
        rw [hy]
        exact ⟨fun hk => by rcases hk with hk | hk <;> exact User.Fds.FdKind.noConfusion hk,
          fun _ => ⟨s, rfl⟩⟩
      | plain hk => exact .plain hk
      | copy fd hy =>
        rw [hy]
        exact h.named t _ fd ht
    have hfile :
      FilesAre D d.sys.ram (fun s => tally T k.nextState (many (isOpen s)) + (isOpen s y).toNat) := by
      rw [hdr]
      refine (h.charged.files.keeps hkr).ref (fun s => by have := h.bound s; omega) fun hk => ?_
      obtain ⟨s, hs⟩ := hy.slot hk
      refine ⟨s, hs, ?_⟩
      cases hx with
      | file s' hy' hu =>
        rw [hy'] at hs
        have hss : s' = s := Fin.ext (Int.ofNat.inj hs)
        exact hss ▸ hu
      | plain hp' =>
        rw [hk] at hp'
        cases hp'
      | copy fd hy' =>
        rw [hy'] at hk hs
        exact h.used hkr ht hk hs
    rw [hfds]
    refine h.opened ht hfree hf (hy.grow hf.pipes) ?_ (hr ▸ hfile)
    have hw : WritersAre (setFiles k d.sys) (fun j => tally T k.nextState (many (isEnd j))) :=
      h.charged.writers
    rw [hp]
    exact hw.more ⟨hy.pipe, hy.slot⟩
  | closed i hdr hfds hcwd hp =>
    rw [hfds]
    refine h.closed ht i hf (fun W hW => ?_) (by rw [hr, hdr, hram])
    have hw : WritersAre (setFiles k d.sys) (fun j => W j + (isEnd j (s.fds i)).toNat) := hW
    have hx := h.named t _ i ht
    rw [hp]
    exact hw.less ⟨hx.pipe, hx.slot⟩
  | replaced i j hne hdr hfds hcwd hp =>
    -- the old entry is taken off before the copy is counted
    have hx := h.named t _ i ht
    have hy := h.named t _ j ht
    have hrang := addWriters_rang (setFiles k d.sys) (pipeDelta (-1) (s.fds j))
    generalize hk1 : addWriters (setFiles k d.sys) (pipeDelta (-1) (s.fds j)) = k1 at hrang
    have hf1 : Framed k { k1 with ram := unrefFile k.ram (s.fds j) } :=
      hset.trans ((Framed.rang hrang).setRam _)
    have h1 := h.closed ht j hf1 (fun W hW => ?_) rfl
    · have ht1 : update T t (some (setDesc s.fds j emptyDesc)) t = some (setDesc s.fds j emptyDesc) :=
        update_self ..
      have hi : setDesc s.fds j emptyDesc i = s.fds i := setDesc_ne hne
      have hram1 : k1.ram = d.sys.ram := by
        rw [← hk1]
        exact addWriters_ram _ _
      have hlast : addWriters (setFiles k d.sys) d.pipes = addWriters k1 (pipeDelta 1 (s.fds i)) := by
        rw [hp, addWriters_append, hk1]
      rw [hlast] at hr ⊢
      have hset1 : Framed { k1 with ram := unrefFile k.ram (s.fds j) } k1 := (Framed.refl _).setRam k1.ram
      have hf2 := hset1.trans (.rang (addWriters_rang k1 (pipeDelta 1 (s.fds i))))
      have hx1 : Named k1 (s.fds i) := hx.grow hf1.pipes
      have h2 := h1.opened ht1 (by rw [setDesc_self]; rfl) hf2 (hx1.rang (addWriters_rang _ _)) ?_ ?_
      · have hdesc : setDesc (setDesc s.fds j emptyDesc) j (s.fds i) = d.sys.fds := by
          rw [hfds, setDesc, setDesc, setDesc, update_idem]
        rw [hdesc, update_idem] at h2
        exact h2
      · have hw1 : WritersAre k1 _ := h1.charged.writers
        exact hw1.more hx1
      · rw [hr, hdr, hram]
        refine h1.charged.files.ref (fun s => by have := h1.bound s; omega) fun hk => ?_
        obtain ⟨l, hl⟩ := hx.slot hk
        have hki : (setDesc s.fds j emptyDesc i).kind = .file := by
          rw [hi]
          exact hk
        have hli : (setDesc s.fds j emptyDesc i).fsSlot = l.val := by
          rw [hi]
          exact hl
        exact ⟨l, hl, h1.used (.refl D _) ht1 hki hli⟩
    · have hw : WritersAre (setFiles k d.sys) (fun l => W l + (isEnd l (s.fds j)).toNat) := hW
      have hw1 := hw.less ⟨hy.pipe, hy.slot⟩
      rw [hk1] at hw1
      exact hw1

theorem Framed.setFiles (k : Machine) (s : Sys) : Framed k (setFiles k s) :=
  ⟨rfl, fun _ => rfl, fun _ => ⟨rfl, fun _ => rfl⟩, fun _ hu => hu⟩

theorem Balanced.unused (h : Balanced D k T) (hu : (k.pipes j).used = false) :
    (k.pipes j).writers = 0 := by
  by_contra hne
  have hpos : 0 < tally T k.nextState (many (isEnd j)) := by
    have hw := h.charged.writers j
    omega
  obtain ⟨t, v, -, ht, hm⟩ := exists_of_tally_pos hpos
  obtain ⟨fd, hfd⟩ := card_pos.mp hm
  obtain ⟨hk, hid⟩ : (v fd).kind = .pipeWrite ∧ (v fd).pipeId = j.val := by simpa [isEnd] using hfd
  obtain ⟨l, hl⟩ := isSome_iff_exists.mp ((h.named t v fd ht).pipe (.inr hk))
  obtain ⟨hl', hul⟩ := pipeValid_some hl
  have hjl : j = l := Fin.ext (hid.symm.trans hl')
  rw [hjl, hul] at hu
  cases hu

theorem pipeCreate_unused (h : pipeCreate k = some j) : (k.pipes j).used = false := by
  have hp := List.find?_some h
  simpa using hp

theorem Balanced.createPipe (h : Balanced D k T) : Balanced D (createPipe k) T := by
  rw [Calls.createPipe]
  split
  · exact h
  rename_i j hj
  have hz := h.unused (pipeCreate_unused hj)
  refine h.level ⟨rfl, fun _ => rfl, fun _ => ⟨rfl, fun _ => rfl⟩, fun l hu => ?_⟩
    (fun l => ?_) (.refl D _)
  · by_cases he : l = j
    · simp only [he, setPipe, update_self]
      rfl
    · simp only [setPipe, update_of_ne he]
      exact hu
  · by_cases he : l = j
    · simp only [he, setPipe, update_self, hz]
      rfl
    · simp only [setPipe, update_of_ne he]

theorem named_pipe (hu : (k.pipes j).used = true) (b : Bool) : Named k (pipeDesc j.val b) := by
  refine ⟨fun _ => ?_, fun hk => ?_⟩
  · have hid : (pipeDesc j.val b).pipeId = j.val := rfl
    rw [hid, pipeValid_used hu]
    rfl
  · cases b <;> exact User.Fds.FdKind.noConfusion hk

theorem Balanced.piped {w : World} (h : Balanced D k T) (ht : T t = some k.fds)
    (hd : d = FileCalls.doPipe (files k) (fsCtx k w) true) :
    Balanced D (addWriters (setFiles (Calls.createPipe k) d.sys) d.pipes)
    (update T t (some d.sys.fds)) := by
  have h1 := h.createPipe
  have hram : (Calls.createPipe k).ram = k.ram := by
    rw [Calls.createPipe]
    split <;> rfl
  have hsame : ∀ s : Sys, s.ram = k.ram → (∀ fd, Alike (k.fds fd) (s.fds fd)) →
      Balanced D (setFiles (Calls.createPipe k) s) (update T t (some s.fds)) := by
    intro s hs ha
    refine h1.alike ht ha (.setFiles _ _) (fun _ => rfl) ?_
    have he : (setFiles (Calls.createPipe k) s).ram = (Calls.createPipe k).ram := hs.trans hram.symm
    rw [he]
    exact .refl D _
  have hctx : (fsCtx k w).pipeCreate = (pipeCreate k).map Fin.val := rfl
  have hfiles : (files k).fds = k.fds := rfl
  subst hd
  simp only [FileCalls.doPipe, hctx, hfiles]
  cases hj : pipeCreate k with
  | none => exact hsame (files k) rfl fun _ => .refl _
  | some j =>
    have hused : ((Calls.createPipe k).pipes j).used = true := by
      simp only [Calls.createPipe, hj, setPipe, update_self]
      rfl
    simp only [map_some]
    cases hr : fdAllocWith k.fds (pipeDesc j.val false) with
    | none => exact hsame (files k) rfl fun _ => .refl _
    | some r =>
      obtain ⟨a, t1⟩ := r
      obtain ⟨hfree, rfl⟩ := fdAllocWith_some hr
      simp only
      cases hw : fdAllocWith (setDesc k.fds a (pipeDesc j.val false)) (pipeDesc j.val true) with
      | none =>
        have ha :
          ∀ fd, Alike (k.fds fd) (setDesc (setDesc k.fds a (pipeDesc j.val false)) a emptyDesc fd) := by
          intro fd
          by_cases he : fd = a
          · subst he
            rw [setDesc_self]
            exact .inr ⟨hfree, rfl⟩
          · rw [setDesc_ne he, setDesc_ne he]
            exact .refl _
        exact hsame { files k with fds := _ } rfl ha
      | some q =>
        obtain ⟨b, t2⟩ := q
        obtain ⟨hfree', rfl⟩ := fdAllocWith_some hw
        have h2 := h1.opened ht hfree (.refl _) (named_pipe hused false) h1.charged.writers (by
          exact h1.charged.files)
        generalize hs : ({ files k with
          fds := setDesc (setDesc k.fds a (pipeDesc j.val false)) b (pipeDesc j.val true) } : Sys) = s
        have hf := (Framed.setFiles (Calls.createPipe k) s).trans (.rang (addWriters_rang _ [(j.val, 1)]))
        have h3 := h2.opened (update_self ..) hfree' hf ((named_pipe hused true).grow hf.pipes) ?_ ?_
        · rw [update_idem] at h3
          rw [← hs] at h3
          exact h3
        · have hw : WritersAre (setFiles (Calls.createPipe k) s) _ := h2.charged.writers
          exact hw.more (named_pipe (k := setFiles (Calls.createPipe k) s) hused true)
        · rw [addWriters_ram]
          have hf2 := h2.charged.files
          rw [hram] at hf2
          rw [← hs]
          exact hf2

section

variable {c : Fin 8} (hrow : (k'.procs c).used = true ∧ (k'.procs c).fdState = some t)
  (ho : ∀ i, i ≠ c → (k'.procs i).used = (k.procs i).used ∧
  (k'.procs i).fdState = (k.procs i).fdState)
include hrow ho

theorem holders_new : holders k' t = insert c (holders k t) := by
  ext i
  rw [mem_holders, mem_insert, mem_holders]
  by_cases hic : i = c
  · rw [hic, hrow.2]
    simp [hrow.1]
  · rw [(ho i hic).1, (ho i hic).2]
    simp [hic]

theorem holders_old (hc : (k.procs c).used = false) (he : t' ≠ t) :
    holders k' t' = holders k t' := by
  ext i
  rw [mem_holders, mem_holders]
  by_cases hic : i = c
  · rw [hic, hrow.2, hc]
    simp [Ne.symm he]
  · rw [(ho i hic).1, (ho i hic).2]

theorem held_new (h : Balanced D k T) (hs : ∀ t', (k.states t').isSome = true →
    (k'.states t').isSome = true)
    (ht : (k'.states t).isSome = true) (i : Fin 8) (t' : Nat) (hu : (k'.procs i).used = true)
    (hi : (k'.procs i).fdState = some t') : (k'.states t').isSome = true := by
  by_cases hic : i = c
  · rw [hic, hrow.2] at hi
    rw [← some.inj hi]
    exact ht
  · rw [(ho i hic).1] at hu
    rw [(ho i hic).2] at hi
    exact hs t' (h.held i t' hu hi)

end

theorem isSome_update (st : Nat → Option FdState) (t : Nat) (f : FdState)
    (h : (st t').isSome = true) : (update st t (some f) t').isSome = true := by
  by_cases he : t' = t
  · rw [he, update_self]
    rfl
  · rw [update_of_ne he]
    exact h

theorem Balanced.enrol {c : Fin 8} (h : Balanced D k T) (hc : (k.procs c).used = false)
    (hn : k'.nextState = k.nextState + 1)
    (hst : k'.states = update k.states k.nextState (some ⟨1, v⟩))
    (hrow : (k'.procs c).used = true ∧ (k'.procs c).fdState = some k.nextState)
    (ho : ∀ i, i ≠ c → (k'.procs i).used = (k.procs i).used ∧
    (k'.procs i).fdState = (k.procs i).fdState) (hp : ∀ j, (k'.pipes j).used = (k.pipes j).used)
    (hv : ∀ fd, Named k (v fd))
    (hch : Charged D k' (fun j => tally T k.nextState (many (isEnd j)) + many (isEnd j) v)
      (fun s => tally T k.nextState (many (isOpen s)) + many (isOpen s) v)) :
    Balanced D k' (update T k.nextState (some v)) := by
  have hempty : holders k k.nextState = ∅ := by
    refine eq_empty_of_forall_notMem fun i hi => ?_
    rw [mem_holders] at hi
    have hs := h.held i _ hi.1 hi.2
    rw [h.below _ (le_refl _)] at hs
    cases hs
  have hpipes : ∀ j, (k.pipes j).used = true → (k'.pipes j).used = true :=
    fun j hu => (hp j).trans hu
  refine ⟨fun t ht => ?_, fun t => ?_, held_new hrow ho h (fun t' ht' => ?_) ?_,
    fun t f hf => ?_, ?_, ?_⟩
  · rw [hst, update_of_ne (by omega)]
    exact h.below t (by omega)
  · rw [hst]
    by_cases he : t = k.nextState
    · rw [he, update_self, update_self]
      rfl
    · rw [update_of_ne he, update_of_ne he]
      exact h.dom t
  · rw [hst]
    exact isSome_update _ _ _ ht'
  · rw [hst, update_self]
    rfl
  · rw [hst] at hf
    by_cases he : t = k.nextState
    · subst he
      rw [update_self] at hf
      cases hf
      rw [holders_new hrow ho, hempty]
      exact ⟨one_pos, rfl⟩
    · rw [update_of_ne he] at hf
      rw [holders_old hrow ho hc he]
      exact h.refs t f hf
  · exact named_update h hpipes fun fd => (hv fd).grow hpipes
  · rw [hn]
    exact hch.congr (fun j => tally_insert T _ v _) fun s => tally_insert T _ v _

theorem Balanced.join {c : Fin 8} (h : Balanced D k T) (hc : (k.procs c).used = false)
    (hf : k.states t = some f) (hn : k'.nextState = k.nextState)
    (hst : k'.states = update k.states t (some { f with refs := f.refs + 1 }))
    (hrow : (k'.procs c).used = true ∧ (k'.procs c).fdState = some t)
    (ho : ∀ i, i ≠ c → (k'.procs i).used = (k.procs i).used ∧
    (k'.procs i).fdState = (k.procs i).fdState) (hp : k'.pipes = k.pipes) (hr : k'.ram = k.ram) :
    Balanced D k' T := by
  have hlt : t < k.nextState := by
    by_contra hge
    rw [h.below t (not_lt.mp hge)] at hf
    exact Option.noConfusion rfl (heq_of_eq hf)
  refine ⟨fun t' ht => ?_, fun t' => ?_, held_new hrow ho h (fun t' ht' => ?_) ?_,
    fun t' g hg => ?_, fun t' v fd ht => ?_, ⟨fun j => ?_, ?_⟩⟩
  · rw [hn] at ht
    rw [hst, update_of_ne (by omega)]
    exact h.below t' ht
  · rw [h.dom, hst]
    by_cases he : t' = t
    · rw [he, update_self, hf]
      rfl
    · rw [update_of_ne he]
  · rw [hst]
    exact isSome_update _ _ _ ht'
  · rw [hst, update_self]
    rfl
  · rw [hst] at hg
    by_cases he : t' = t
    · subst he
      rw [update_self] at hg
      cases hg
      have hnot : c ∉ holders k t' := by
        rw [mem_holders, hc]
        exact fun hcc => by cases hcc.1
      rw [holders_new hrow ho, card_insert_of_notMem hnot, ← (h.refs t' f hf).2]
      exact ⟨succ_pos _, rfl⟩
    · rw [update_of_ne he] at hg
      rw [holders_old hrow ho hc he]
      exact h.refs t' g hg
  · exact (h.named t' v fd ht).grow fun j hu => by rw [hp]; exact hu
  · rw [hp, hn]
    exact h.charged.writers j
  · rw [hr, hn]
    exact h.charged.files

theorem Balanced.leave {c : Fin 8} (h : Balanced D k T) (hc : (k.procs c).used = true)
    (hfd : (k.procs c).fdState = some t) (hf : k.states t = some f)
    (hn : k'.nextState = k.nextState) (hgone : (k'.procs c).used = false)
    (ho : ∀ i, i ≠ c → (k'.procs i).used = (k.procs i).used ∧
    (k'.procs i).fdState = (k.procs i).fdState) (hp : ∀ j, (k'.pipes j).used = (k.pipes j).used)
    (hst : 1 < f.refs ∧ T' = T ∧ k'.states = update k.states t (some { f with refs := f.refs - 1 }) ∨
      f.refs ≤ 1 ∧ T' = update T t none ∧ k'.states = update k.states t none)
    (hch : Charged D k' (fun j => tally T' k.nextState (many (isEnd j)))
      (fun s => tally T' k.nextState (many (isOpen s)))) : Balanced D k' T' := by
  have hmem : c ∈ holders k t := mem_holders.mpr ⟨hc, hfd⟩
  have hrefs := h.refs t f hf
  have herase : ∀ t', holders k' t' = (holders k t').erase c := by
    intro t'
    ext i
    rw [mem_holders, mem_erase, mem_holders]
    by_cases hic : i = c
    · rw [hic, hgone]
      simp
    · rw [(ho i hic).1, (ho i hic).2]
      simp [hic]
  have hother : ∀ t', t' ≠ t → holders k' t' = holders k t' := by
    intro t' he
    rw [herase, erase_eq_of_notMem]
    intro hm
    exact he (some.inj ((mem_holders.mp hm).2.symm.trans hfd))
  have hself : (holders k' t).card = f.refs - 1 := by rw [herase, card_erase_of_mem hmem, hrefs.2]
  have hback : ∀ i t', (k'.procs i).used = true → (k'.procs i).fdState = some t' →
      i ∈ holders k' t' ∧ (k.states t').isSome = true := by
    intro i t' hu hi
    have hm := mem_holders.mpr ⟨hu, hi⟩
    have hm' := hm
    rw [herase] at hm'
    obtain ⟨hu', hi'⟩ := mem_holders.mp (mem_of_mem_erase hm')
    exact ⟨hm, h.held i t' hu' hi'⟩
  have hlt : t < k.nextState := by
    by_contra hge
    rw [h.below t (not_lt.mp hge)] at hf
    exact Option.noConfusion rfl (heq_of_eq hf)
  have hpipes : ∀ j, (k.pipes j).used = true → (k'.pipes j).used = true :=
    fun j hu => (hp j).trans hu
  rcases hst with ⟨hr, rfl, hst⟩ | ⟨hr, rfl, hst⟩
  · refine ⟨fun t' ht => ?_, fun t' => ?_, fun i t' hu hi => ?_, fun t' g hg => ?_,
      fun t' v fd ht => (h.named t' v fd ht).grow hpipes, hn ▸ hch⟩
    · rw [hn] at ht
      rw [hst, update_of_ne (by omega)]
      exact h.below t' ht
    · rw [h.dom, hst]
      by_cases he : t' = t
      · rw [he, update_self, hf]
        rfl
      · rw [update_of_ne he]
    · rw [hst]
      exact isSome_update _ _ _ (hback i t' hu hi).2
    · rw [hst] at hg
      by_cases he : t' = t
      · subst he
        rw [update_self] at hg
        cases hg
        rw [hself]
        exact ⟨Nat.sub_pos_of_lt hr, rfl⟩
      · rw [update_of_ne he] at hg
        rw [hother t' he]
        exact h.refs t' g hg
  · have hzero : holders k' t = ∅ := card_eq_zero.mp (by omega)
    refine ⟨fun t' ht => ?_, fun t' => ?_, fun i t' hu hi => ?_, fun t' g hg => ?_,
      fun t' v fd ht => ?_, hn ▸ hch⟩
    · rw [hn] at ht
      rw [hst, update_of_ne (by omega)]
      exact h.below t' ht
    · rw [hst]
      by_cases he : t' = t
      · rw [he, update_self, update_self]
        rfl
      · rw [update_of_ne he, update_of_ne he]
        exact h.dom t'
    · obtain ⟨hm, hs⟩ := hback i t' hu hi
      have he : t' ≠ t := by
        rintro rfl
        rw [hzero] at hm
        exact notMem_empty i hm
      rw [hst, update_of_ne he]
      exact hs
    · rw [hst] at hg
      have he : t' ≠ t := by
        rintro rfl
        rw [update_self] at hg
        exact Option.noConfusion rfl (heq_of_eq hg)
      rw [update_of_ne he] at hg
      rw [hother t' he]
      exact h.refs t' g hg
    · have he : t' ≠ t := by
        rintro rfl
        rw [update_self] at ht
        exact Option.noConfusion rfl (heq_of_eq ht)
      rw [update_of_ne he] at ht
      exact (h.named t' v fd ht).grow hpipes

end MuOS.Kernel.Books
