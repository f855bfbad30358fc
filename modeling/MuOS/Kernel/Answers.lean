import MuOS.Kernel.Requests
import MuOS.Kernel.Streams

namespace MuOS.Kernel.Answers

open Function User Descriptors Window Lib.Runs Syscall.References State Wake Sched Calls Stir Tables
open Prims ProcTable Step Phases Layout Rows Requests Counts Holdings Bystanders Sleepers
  Streams List Option

variable {j : Fin 8} {q : Proc} {b : Machine} {x : Fin 8} {t : Nat}

structure Asks (p : Proc) : Prop where
  waits : p.waitKind ≠ .none
  space : p.space.isSome = true
  buffer : p.waitKind = .read → userPtrOk p.blkPtr.toNat p.blkLen.toNat = true

theorem procSignalSend_trace (k : Machine) (pid : BitVec 32) (sig : Int) :
    (procSignalSend k pid sig).1.trace = k.trace := by
  unfold procSignalSend
  repeat' split
  all_goals rfl

def Solid (k : Machine) : Prop := ∀ t f fd, k.states t = some f → Named k (f.table fd)

/-- One that does not run is left alone, or woken with its answer. -/
structure Heeds (i : Fin 8) (k k' : Machine) : Prop where
  row : Roused (k.procs i) (k'.procs i)
  unshared : Unshared k i → Unshared k' i
  table : Unshared k i → savedTable k' (k'.procs i) = savedTable k (k.procs i)
  ticks : k'.ticks = k.ticks
  reads : k.trace.reads <+: k'.trace.reads
  polls : k.trace.polls <+: k'.trace.polls
  solid : Solid k → Solid k'
  results : Solid k → Asks (k.procs i) → (k.procs i).state = .blocked →
    (k'.procs i).state = .ready → (k'.procs i).waitKind = .none ∧ Result k k' i (k'.procs i).ctx.eax

variable {D : Fin 16 → Prop} {k k' k1 : Machine} {i : Fin 8} {c : Call} {a : Act} {p : Proc}

theorem Asks.sane (h : Asks (k.procs i)) (hs : Solid k) : Sane k i := by
  refine ⟨h.waits, h.space, h.buffer, fun t ht fd hk => ?_⟩
  obtain ⟨f, hf, rfl⟩ := map_eq_some_iff.mp ht
  obtain ⟨t0, -, hst⟩ := bind_eq_some_iff.mp hf
  exact (hs t0 f fd hst).pipe (.inl hk)

theorem Asks.roused {p' : Proc} (h : Asks p) (hr : Roused p p') (hb : p.state = .blocked)
    (hb' : p'.state = .blocked) : Asks p' := by
  obtain ⟨-, hw, -⟩ := hr.stays hb hb'
  refine ⟨hw ▸ h.waits, ?_, fun hk => ?_⟩
  · rw [hr.space]
    exact h.space
  · rw [hr.blkPtr, hr.blkLen]
    exact h.buffer (hw ▸ hk)

theorem Solid.grow (h : Solid k) (hs : k'.states = k.states)
    (hp : ∀ j, (k.pipes j).used = true → (k'.pipes j).used = true) : Solid k' := by
  intro t f fd hf
  rw [hs] at hf
  exact (h t f fd hf).grow hp

theorem Solid.set {f' : Option FdState} (h : Solid k) (hs : k'.states = update k.states t f')
    (hp : k'.pipes = k.pipes) (hf : ∀ f fd, f' = some f → Named k (f.table fd)) : Solid k' := by
  have hgrow : ∀ x, Named k x → Named k' x := fun x hx => hx.grow fun j hu => by rw [hp]; exact hu
  intro t' f fd ht
  rw [hs] at ht
  by_cases he : t' = t
  · rw [he, update_self] at ht
    exact hgrow _ (hf f fd ht)
  · rw [update_of_ne he] at ht
    exact hgrow _ (h t' f fd ht)

section

variable (h : Unshared k i)
include h

theorem unshared_rows (hi : (k'.procs i).fdState = (k.procs i).fdState)
    (ho : ∀ j, j ≠ i → (k'.procs j).used = true →
      (k.procs j).used = true ∧ (k'.procs j).fdState = (k.procs j).fdState ∨
      (k'.procs j).fdState ≠ (k.procs i).fdState) :
    Unshared k' i := by
  intro j hj hu
  rw [hi]
  rcases ho j hj hu with ⟨hused, hsame⟩ | hne
  · rw [hsame]
    exact h j hj hused
  · exact hne

theorem unshared_same (hp : k'.procs = k.procs) : Unshared k' i :=
  unshared_rows h (by rw [hp]) fun j _ hu => by rw [hp] at hu ⊢; exact .inl ⟨hu, rfl⟩

theorem unshared_stirred (hr : ∀ j, Roused (k.procs j) (k'.procs j)) : Unshared k' i := by
  refine unshared_rows h ((hr i).fdState) fun j _ hu => .inl ⟨?_, (hr j).fdState⟩
  exact ((hr j).used).symm.trans hu

theorem unshared_set (hij : i ≠ j) (hp : k'.procs = (setProc k j p).procs)
    (hf : p.used = true → (k.procs j).used = true ∧ p.fdState = (k.procs j).fdState ∨
    p.fdState ≠ (k.procs i).fdState) : Unshared k' i := by
  refine unshared_rows h (by rw [hp, setProc_ne hij]) fun l _ hu => ?_
  obtain ⟨rfl, he⟩ | ⟨-, he⟩ := row_set hp l <;> rw [he] at hu ⊢
  · exact hf hu
  · exact .inl ⟨hu, rfl⟩

end

theorem savedTable_congr (hi : k'.procs i = k.procs i) (hs : k'.states = k.states) :
    savedTable k' (k'.procs i) = savedTable k (k.procs i) := by rw [savedTable, savedTable, hi, hs]

theorem Heeds.same (hi : k'.procs i = k.procs i) (hun : Unshared k i → Unshared k' i)
    (htab : Unshared k i → savedTable k' (k'.procs i) = savedTable k (k.procs i))
    (ht : k'.ticks = k.ticks) (hr : k.trace.reads <+: k'.trace.reads)
    (hp : k.trace.polls <+: k'.trace.polls) (hs : Solid k → Solid k') : Heeds i k k' := by
  refine ⟨by rw [hi]; exact Roused.refl _, hun, htab, ht, hr, hp, hs, fun _ _ hb hready => ?_⟩
  rw [hi] at hready
  cases hb.symm.trans hready

theorem Heeds.quiet (hp : k'.procs = k.procs) (ht : k'.ticks = k.ticks) (hr : k'.trace = k.trace)
    (hs : k'.states = k.states) (hq : k'.pipes = k.pipes) : Heeds i k k' :=
  .same (by rw [hp]) (fun h => unshared_same h hp) (fun _ => savedTable_congr (by rw [hp]) hs) ht
    (by rw [hr]) (by rw [hr]) (fun h => h.grow hs fun j hu => by rw [hq]; exact hu)

theorem Heeds.refl (i : Fin 8) (k : Machine) : Heeds i k k := .quiet rfl rfl rfl rfl rfl

theorem Heeds.set (hij : i ≠ j) (hp : k'.procs = (setProc k j p).procs)
    (hf : p.used = true → (k.procs j).used = true ∧ p.fdState = (k.procs j).fdState)
    (ht : k'.ticks = k.ticks) (hr : k'.trace = k.trace) (hs : k'.states = k.states)
    (hq : k'.pipes = k.pipes) : Heeds i k k' := by
  have hi : k'.procs i = k.procs i := by rw [hp, setProc_ne hij]
  exact .same hi (fun h => unshared_set h hij hp fun hu => .inl (hf hu))
    (fun _ => savedTable_congr hi hs) ht (by rw [hr])
    (by rw [hr]) fun h => h.grow hs fun j hu => by rw [hq]; exact hu

theorem Heeds.trans (h : Heeds i k k1) (h' : Heeds i k1 k') : Heeds i k k' where
  row := h.row.trans h'.row
  unshared := fun hu => h'.unshared (h.unshared hu)
  table := fun hu => (h'.table (h.unshared hu)).trans (h.table hu)
  ticks := h'.ticks.trans h.ticks
  reads := h.reads.trans h'.reads
  polls := h.polls.trans h'.polls
  solid := fun hs => h'.solid (h.solid hs)
  results := by
    intro hs ha hb hr
    cases h.row.wakes hb with
    | inl hb1 =>
      obtain ⟨-, hw, hd⟩ := h.row.stays hb hb1
      obtain ⟨hn, hres⟩ := h'.results (h.solid hs) (ha.roused h.row hb hb1) hb1 hr
      exact ⟨hn, hres.earlier hw hd h.row.blkDeadline h.ticks h.reads h.polls⟩
    | inr hr1 =>
      obtain ⟨hn, hres⟩ := h.results hs ha hb hr1
      obtain ⟨-, hc, hw⟩ := h'.row.calm (by rw [hr1]; simp)
      rw [hw, hc]
      exact ⟨hn, hres.later h'.reads h'.polls⟩

theorem Woke.heeds (h : Woke k k') : Heeds i k k' where
  row := h.procs i
  unshared := fun hu => unshared_stirred hu h.procs
  table := fun _ => h.savedTable i
  ticks := h.ticks
  reads := h.reads
  polls := h.polls
  solid := fun hs => hs.grow h.states fun j hu => (h.pipeUsed j).trans hu
  results := fun hs ha => h.results i (ha.sane hs)

theorem Rang.heeds (h : Rang k k') : Heeds i k k' where
  row := h.procs i
  unshared := fun hu => unshared_stirred hu h.procs
  table := fun _ => Stirred.savedTable h.toStirred i
  ticks := h.ticks
  reads := Woke.reads (k := withCounts k k') h
  polls := Woke.polls (k := withCounts k k') h
  solid := fun hs => hs.grow h.states fun j hu => (h.pipeUsed j).trans hu
  results := by
    intro hs ha hb hr
    have hsane := ha.sane hs
    obtain ⟨hn, hres⟩ := Woke.results h i ⟨hsane.waits, hsane.space, hsane.buffer, hsane.table⟩ hb hr
    exact ⟨hn, hres.earlier rfl rfl rfl rfl prefix_rfl prefix_rfl⟩

theorem Freed.heeds (h : Freed k p k') (hp : Unshared k i → p.fdState ≠ (k.procs i).fdState) :
    Heeds i k k' := by
  cases h with
  | none => exact .refl i k
  | less t f ht hf hr =>
    exact .same rfl (fun h => unshared_same h rfl)
      (fun _ => savedTable_setState (g := { f with refs := f.refs - 1 }) hf rfl _) rfl
      prefix_rfl prefix_rfl fun hs => hs.set rfl rfl fun g fd hg => by cases hg; exact hs t f fd hf
  | last t f ht hf hr =>
    have hrang : Rang k (if p.fdsRetained then release k f.table else k) := by
      split
      · exact release_rang _ _
      · exact Rang.refl k
    generalize (if p.fdsRetained then release k f.table else k) = k1 at *
    have hh : Heeds i k k1 := Rang.heeds hrang
    refine ⟨hh.row, fun hu => unshared_same (hh.unshared hu) rfl, fun hu => ?_, hh.ticks, hh.reads,
      hh.polls, fun hs => (hh.solid hs).set rfl rfl (fun _ _ hg => by cases hg), fun hs ha hb hready => ?_⟩
    · refine (savedTable_setState_ne (fun he => hp hu ?_)).trans (hh.table hu)
      exact ht.trans (hh.row.fdState.symm.trans he).symm
    · obtain ⟨hn, hres⟩ := hh.results hs ha hb hready
      exact ⟨hn, hres.later prefix_rfl prefix_rfl⟩

theorem procReap_heeds (hu : (k.procs j).used = true) (hc : k.current ≠ j) (hi : i ≠ j) :
    Heeds i k (procReap k j) := by
  have hlost : Heeds i k (setProc k j (lost (k.procs j))) :=
    .set hi rfl (fun _ => ⟨hu, rfl⟩) rfl rfl rfl rfl
  have hfreed := fdstateFree_freed (setProc k j (lost (k.procs j))) j
  have hempty : ∀ b : Machine, Heeds i b (setProc b j emptyProc) := fun b =>
    .set hi rfl (fun hf => by cases hf) rfl rfl rfl rfl
  rw [procReap_eq hu hc]
  refine hlost.trans ((Freed.heeds hfreed fun hun => ?_).trans (hempty _))
  refine hun j hi.symm ?_
  rw [setProc_self]
  exact hu

theorem InBooks.live_named (h : InBooks D k) (hs : Shape k) (hb : busy k.phase = true)
    (fd : Fin 11) : Named k (k.fds fd) := by
  obtain ⟨t, hl, hst⟩ := InBooks.running h hs hb
  exact h.named t k.fds fd (tables_live hl hst)

theorem InBooks.fresh (h : InBooks D k) (hu : (k.procs i).used = true) :
    (k.procs i).fdState ≠ some k.nextState := by
  intro ht
  have hs := h.held i k.nextState hu ht
  rw [h.below k.nextState le_rfl] at hs
  cases hs

theorem createPipe_heeds (k : Machine) : Heeds i k (createPipe k) := by
  rw [createPipe]
  split
  · exact .refl i k
  rename_i j hj
  refine .same rfl (fun h => unshared_same h rfl) (fun _ => rfl) rfl prefix_rfl prefix_rfl
    (fun hs => hs.grow rfl fun l hl => ?_)
  by_cases he : l = j
  · have hself : (setPipe k j freshPipe).pipes j = freshPipe := update_self ..
    rw [he, hself]
    rfl
  · have hother : (setPipe k j freshPipe).pipes l = k.pipes l := update_of_ne he ..
    rw [hother]
    exact hl

theorem signalled_heeds (pid sig : BitVec 32)
    (hk : (k.procs i).state = .blocked → pid = -1#32 → sig.toInt ≤ 0 ∨ 32 ≤ sig.toInt) :
    Heeds i k (procSignalSend k pid sig.toInt).1 := by
  by_cases hb : (k.procs i).state = .blocked
  · by_cases hp : pid ≠ -1#32 ∨ sig.toInt = 0
    · exact Woke.heeds (procSignalSend_woke k sig.toInt hp)
    have hout : sig.toInt < 0 ∨ 32 ≤ sig.toInt := by
      rw [not_or, not_not] at hp
      have hrange := hk hb hp.1
      omega
    rw [procSignalSend, if_pos hout]
    exact .refl i k
  · have hs := procSignalSend_stirred k pid sig.toInt
    have ht := procSignalSend_trace k pid sig.toInt
    refine ⟨hs.procs i, fun hu => unshared_stirred hu hs.procs, fun _ => hs.savedTable i,
      hs.ticks, by rw [ht], by rw [ht], fun h => ?_, fun _ _ hb' => absurd hb' hb⟩
    exact h.grow hs.states fun j hu => (hs.pipeUsed j).trans hu

def Stays (k : Machine) (i : Fin 8) : Prop := (k.procs i).used = true ∧ (k.procs i).state ≠ .zombie

theorem Stays.heeds (h : Stays k i) (hh : Heeds i k k') : Stays k' i := by
  refine ⟨hh.row.used.trans h.1, fun hz => ?_⟩
  by_cases hb : (k.procs i).state = .blocked
  · rcases hh.row.wakes hb with hs | hs
    · cases hs.symm.trans hz
    · cases hs.symm.trans hz
  · exact h.2 ((hh.row.calm hb).1.symm.trans hz)

section

variable (h : InBooks D k) (hs : Shape k) (hb : busy k.phase = true)
include h hs hb

section

variable (hi : Stays k i) (hne : i ≠ k.current) (hk : (k.procs i).state = .blocked →
  ∀ sig, c = .kill (-1#32) sig → sig.toInt ≤ 0 ∨ 32 ≤ sig.toInt)
include hi hne hk

theorem does_heeds (hd : Does c k k') : Heeds i k k' := by
  obtain ⟨h0, hu, hr⟩ := hs.cpu hb
  have hchild : ∀ child, freeSlot k = some child → i ≠ child := by
    rintro child hf rfl
    cases hi.1.symm.trans (freeSlot_unused hf)
  have hzombie : ∀ j, (k.procs j).state = .zombie → i ≠ j := by
    rintro j hz rfl
    exact hi.2 hz
  have hfresh := InBooks.fresh h hi.1
  cases hd with
  | stored | keyed | moved | jumped => exact .quiet rfl rfl rfl rfl rfl
  | took j n _ => exact Woke.heeds (took_woke k j n _)
  | answered e _ _ =>
    exact .same rfl (fun h => unshared_same h rfl) (fun _ => rfl) rfl (prefix_append _ _) prefix_rfl
      (fun hs => hs.grow rfl fun _ hu => hu)
  | wrote j bs _ => exact Woke.heeds (wrote_woke k j bs)
  | filed d _ =>
    have hfiles : Heeds i k (setFiles k d.sys) := .quiet rfl rfl rfl rfl rfl
    exact hfiles.trans (Rang.heeds (addWriters_rang _ _))
  | piped d _ _ =>
    have hfiles : Heeds i (createPipe k) (setFiles (createPipe k) d.sys) := .quiet rfl rfl rfl rfl rfl
    exact (createPipe_heeds k).trans (hfiles.trans (Rang.heeds (addWriters_rang _ _)))
  | self p ho =>
    have hf : (outer p).fdState = (outer (cur k)).fdState := congrArg Proc.fdState ho
    exact .set hne rfl (fun _ => ⟨hu, hf⟩) rfl rfl rfl rfl
  | resumed =>
    obtain ⟨s, f, he⟩ := sigreturn_eq k
    rw [he]
    exact .set hne rfl (fun _ => ⟨hu, rfl⟩) rfl rfl rfl rfl
  | segment entry base limit flags out => exact .set hne rfl (fun _ => ⟨hu, rfl⟩) rfl rfl rfl rfl
  | signalled pid sig =>
    refine signalled_heeds pid sig fun hbl hp => hk hbl sig ?_
    rw [hp]
  | refused child hf => exact .set (hchild child hf) rfl (fun hf => by cases hf) rfl rfl rfl rfl
  | dropped child sp ns m hf =>
    rw [dropped_eq (freeSlot_ne hf hu)]
    exact .set (hchild child hf) rfl (fun hf => by cases hf) rfl rfl rfl rfl
  | forked child sp ns m x tls thread hf hx =>
    have hc := hchild child hf
    have hrow : (tabled k child sp ns m).procs i = k.procs i :=
      (setProc_ne hc).trans (begun_ne hc sp ns m)
    have halloc : Heeds i k (tabled k child sp ns m) := by
      refine .same hrow (fun hun => ?_) (fun _ => ?_) rfl prefix_rfl prefix_rfl fun hsolid => ?_
      · refine unshared_rows hun (by rw [hrow]) (fun j _ huj => ?_)
        by_cases hj : j = child
        · right
          have hself : (tabled k child sp ns m).procs child =
              { (begun k child sp ns m).procs child with fdState := some k.nextState } := setProc_self
          rw [hj, hself]
          exact fun he => hfresh he.symm
        · left
          have hother : (tabled k child sp ns m).procs j = k.procs j :=
            (setProc_ne hj).trans (begun_ne hj sp ns m)
          rw [hother] at huj ⊢
          exact ⟨huj, rfl⟩
      · rw [hrow]
        exact savedTable_new h hi.1 ⟨1, k.fds⟩
      · have hstates : (tabled k child sp ns m).states = update k.states k.nextState
          (some ⟨1, k.fds⟩) := rfl
        refine hsolid.set hstates rfl fun f fd hf => ?_
        cases hf
        exact InBooks.live_named h hs hb fd
    have hown : Heeds i (retain (tabled k child sp ns m) k.fds) (ownChild k child sp ns m) :=
      .set hc rfl (fun hu => ⟨hu, rfl⟩) rfl rfl rfl rfl
    have hend : ∀ b : Machine, Heeds i b (finishChild b child x tls thread).1 := fun b =>
      .set hc rfl (fun hu => ⟨hu, rfl⟩) rfl rfl rfl rfl
    exact halloc.trans ((Rang.heeds (retain_rang _ k.fds)).trans (hown.trans (hend _)))
  | shared child sp ns t m x tls thread hf ht hx =>
    have hc := hchild child hf
    obtain ⟨f, hst⟩ := isSome_iff_exists.mp (h.held _ t hu ht)
    have hrow := shared_row (k := k) hc sp ns t m k.current
    have hstates : (sharer k child sp ns t m).states =
        (setState k t (some { f with refs := f.refs + 1 })).states :=
        shared_states hst child k.current sp ns m
    have hshare : Heeds i k (sharer k child sp ns t m) := by
      refine .same hrow (fun hun => ?_) (fun _ => ?_) rfl prefix_rfl prefix_rfl fun hsolid => ?_
      · refine unshared_rows hun (by rw [hrow]) (fun j _ huj => ?_)
        by_cases hj : j = child
        · right
          rw [hj, shared_self]
          exact fun he => hun k.current hne.symm hu (ht.trans he)
        · left
          rw [shared_row hj] at huj ⊢
          exact ⟨huj, rfl⟩
      · rw [hrow, ← savedTable_setState (g := { f with refs := f.refs + 1 }) hst rfl (k.procs i),
          savedTable, savedTable, hstates]
      · refine hsolid.set hstates rfl (fun g fd hg => ?_)
        cases hg
        exact hsolid t f fd hst
    have hend : ∀ b : Machine, Heeds i b (finishChild b child x tls thread).1 := fun b =>
      .set hc rfl (fun hu => ⟨hu, rfl⟩) rfl rfl rfl rfl
    exact hshare.trans (hend _)
  | settled =>
    obtain he | he | ⟨j, hj, hz, he⟩ := reapReported_cases k <;> rw [he]
    · exact .refl i k
    · exact .set hne rfl (fun _ => ⟨hu, rfl⟩) rfl rfl rfl rfl
    have hused := (procFind_some hj).1
    have hc := running_ne hr hz
    refine (procReap_heeds hused hc (hzombie j hz)).trans
      (.set ?_ rfl (fun hu => ⟨hu, rfl⟩) rfl rfl rfl rfl)
    rw [procReap_current hused hc]
    exact hne
  | waited _ j hj =>
    obtain ⟨⟨hused, -⟩, hz⟩ := zombieChild_spec hj
    exact procReap_heeds hused (running_ne hr hz) (hzombie j hz)

theorem parts_heeds (hp : Parts c k k') : Heeds i k k' := by
  have hall :=
    parts_invariant (I := fun k1 => InBooks D k1 ∧ k1.current = k.current ∧ Heeds i k k1) hs hb
    (fun k1 k2 hsh hbb hin hd => ?_) ⟨h, rfl, .refl i k⟩ hp
  · exact hall.2.2
  obtain ⟨hbooks, hcur, hh⟩ := hin
  refine ⟨InBooks.does hbooks hsh hbb hd, (hsh.does hbb hd).current.trans hcur, hh.trans ?_⟩
  refine does_heeds hbooks hsh hbb (hi.heeds hh) (by rw [hcur]; exact hne) (fun hb1 => hk ?_) hd
  by_contra hnb
  exact hnb ((hh.row.calm hnb).1.symm.trans hb1)

end

omit h hs hb in
theorem after_heeds (k : Machine) (fl : Flow) : Heeds i k (after k fl) := by
  cases fl <;> exact .quiet rfl rfl rfl rfl rfl

theorem aside_heeds (hne : i ≠ k.current) (hq : q.fdState = (cur k).fdState) :
    Heeds i k (aside k q) := by
  have hu := (hs.cpu hb).2.1
  have hrow : (aside k q).procs i = k.procs i := setProc_ne hne
  refine .same hrow (fun hun => unshared_set hun hne rfl fun _ => .inl ⟨hu, hq⟩)
    (fun hun => ?_) rfl prefix_rfl prefix_rfl (fun hsolid => ?_)
  · rw [hrow]
    exact savedTable_aside hun hu hne q
  have hst : (aside k q).states = (saveFds k k.current).states := rfl
  rw [saveFds] at hst
  cases hf : (k.procs k.current).fdState with
  | none =>
    rw [hf] at hst
    exact hsolid.grow hst fun _ hu => hu
  | some t =>
    rw [hf] at hst
    refine hsolid.set hst rfl fun f fd hm => ?_
    obtain ⟨g, hg, rfl⟩ := map_eq_some_iff.mp hm
    exact InBooks.live_named h hs hb fd

end

theorem notified_heeds (hne : i ≠ k.current) (h : Notified k k') : Heeds i k k' := by
  obtain ⟨m, eip, sp, eax, sig, rfl⟩ := h
  exact .set hne rfl (fun hu => ⟨hu, rfl⟩) rfl rfl rfl rfl

theorem reaps_heeds (hr : Reaps k k') : (k'.procs i).state = .free ∨ Heeds i k k' := by
  refine hr.keeps (P := fun b => (b.procs i).state = .free ∨ Heeds i k b) (.inr (.refl i k))
    fun b j _ ih hu _ hc _ => ?_
  by_cases hi : i = j
  · left
    rw [hi, procReap_self hu hc]
    rfl
  · refine ih.imp (fun hfree => ?_) (fun hh => hh.trans (procReap_heeds hu hc hi))
    exact ((procReap_other hu hc hi).calm (by rw [hfree]; simp)).1.trans hfree

/-- What a step is for a process that does not run. -/
inductive Turn (i : Fin 8) (k : Machine) (a : Act) : Machine → Prop
  | heeds {k' : Machine} (n : BitVec 32) (h : Heeds i { k with ticks := n } k') : Turn i k a k'
  | loads (b : Machine) (j : Fin 8) (n : Nat) (ph : Phase) (h : Heeds i k b)
    (hi : b.procs i = k.procs i) (hj : pickFrom b n = some j) :
    Turn i k a (setPhase (schedLoad b j) ph)
  | ends (l : Fin 8) (hp : k.phase = .returned l) : Turn i k a (Step.finish k l)
  | exits (code : BitVec 32) (faulted sys : Bool) (hp : k.phase = .exiting code faulted sys)
    (ha : a = .go) :
    Turn i k a (setPhase (procWakeParent (ended k code faulted) (exited k code faulted))
    (.picking sys))

theorem Heeds.turn (h : Heeds i k k') : Turn i k a k' := .heeds k.ticks h

theorem stepped_turn (h : InBooks D k) (hs : Shape k) (hst : Stepped k a k') (hi : Stays k i)
    (hne : busy k.phase = true → i ≠ k.current)
    (hk : (k.procs i).state = .blocked → ∀ sig, a = .sys (.kill (-1#32) sig) → sig.toInt ≤ 0 ∨
    32 ≤ sig.toInt) : Turn i k a k' := by
  have hphase : ∀ (b : Machine) ph, Heeds i b (setPhase b ph) :=
    fun b ph => .quiet rfl rfl rfl rfl rfl
  have haside : busy k.phase = true → ∀ q : Proc, q.fdState = (cur k).fdState →
    Heeds i k (aside k q) := fun hb q hq =>
    aside_heeds h hs hb (hne hb) hq
  have hdeliver : ∀ {k1 : Machine} {d : Delivery} ph, busy k.phase = true →
      signalDeliver k = (k1, d) → Heeds i k (setPhase k1 ph) := by
    intro k1 d ph hb hd
    have hnote := delivered_notified hd
    exact (notified_heeds (hne hb) hnote).trans (hphase _ _)
  have htick : Heeds i (counted k) (ticked k) := Woke.heeds (ticked_woke k)
  have hfree : ∀ j, freeSlot k = some j → i ≠ j := by
    rintro j hf rfl
    cases hi.1.symm.trans (freeSlot_unused hf)
  cases hst with
  | compute | exit | fault | back | lost | shell
  | shellKey => exact Heeds.turn (.quiet rfl rfl rfl rfl rfl)
  | call c k1 fl hp hc =>
    have hb := busy_at hp
    have h1 : InBooks D (inCall k) := InBooks.same h rfl rfl rfl rfl rfl rfl rfl
    have hparts := sysCall_parts (k := inCall k) c
    rw [hc] at hparts
    have hq : Heeds i k (inCall k) := .quiet rfl rfl rfl rfl rfl
    have hcall := parts_heeds h1 hs.entered hb hi (hne hb)
      (fun hbl sig he => hk hbl sig (congrArg Act.sys he)) hparts
    exact Heeds.turn (hq.trans (hcall.trans (after_heeds k1 fl)))
  | tick hp => exact .heeds (k.ticks + 1#32) (htick.trans (hphase _ _))
  | idle hp hn => exact .heeds (k.ticks + 1#32) htick
  | key c hp => exact Heeds.turn (Woke.heeds (typed_woke k c))
  | sleep r o j hp hf hj =>
    have hb := busy_at hp
    exact .loads _ j _ _ (haside hb (sleeper k r) rfl) (setProc_ne (hne hb)) hj
  | awake r o hp hf hn =>
    have hact : ∀ b : Machine, Heeds i b { b with active := true } := fun b => .quiet rfl rfl rfl rfl rfl
    exact Heeds.turn ((haside (busy_at hp) (sleepless k r) rfl).trans ((hact _).trans (after_heeds _ _)))
  | tableless r o hp hf => exact Heeds.turn (after_heeds k _)
  | leave _ _ hp hd | alarm _ _ hp hd => exact Heeds.turn (hdeliver _ (busy_at hp) hd)
  | ignored hp hn => exact Heeds.turn (hphase k _)
  | yield j hp hj hn =>
    have hb := busy_at hp
    exact .loads _ j _ _ (haside hb (yielder k .ready) rfl) (setProc_ne (hne hb)) hj
  | keep hp => exact Heeds.turn ((haside (busy_at hp) (yielder k .running) rfl).trans (hphase _ _))
  | die code faulted sys hp => exact .exits code faulted sys hp rfl
  | pick sys j hp hj => exact .loads k j _ _ (.refl i k) rfl hj
  | finish l hp => exact .ends l hp
  | launch frames l hp ha =>
    refine Heeds.turn ?_
    refine hs.launch_elim hp frames l (.refl i k) (fun j _ _ _ _ _ _ _ hj hu => ?_) fun j b m f hj _ => ?_
    · exact .set (hfree j hj) rfl (fun hp => by cases hu.symm.trans hp) rfl rfl rfl rfl
    have hrow : (started k j b m f).procs i = k.procs i := setProc_ne (hfree j hj)
    refine .same hrow (fun hun => unshared_set hun (hfree j hj) rfl fun _ => .inr
      (InBooks.fresh h hi.1).symm) (fun _ => ?_) rfl
      prefix_rfl prefix_rfl fun hsolid => ?_
    · rw [hrow]
      exact savedTable_new h hi.1 ⟨1, userFdsReset⟩
    refine hsolid.set rfl rfl fun g fd hg => ?_
    cases hg
    have hplain : ∀ fd, refers (userFdsReset fd).kind = false := by decide
    exact Named.plain (hplain fd)
  | refuse frames l hp ha => exact Heeds.turn (.refl i k)
  | spinDone v takesKey out m hp =>
    have hkeys : Heeds i k (spun k takesKey m) :=
      .quiet rfl rfl rfl rfl rfl
    exact Heeds.turn (hkeys.trans (after_heeds _ _))

theorem finish_heeds {l : Fin 8} (hs : Shape k) (hp : k.phase = .returned l) :
    ((Step.finish k l).procs i).state = .free ∨ Heeds i k (Step.finish k l) := by
  obtain ⟨k1, hreaps, -, he⟩ := hs.finish_reaps hp
  have hstart : Heeds i k (halted k) := .quiet rfl rfl rfl rfl rfl
  rw [he]
  refine (reaps_heeds hreaps).imp id fun hh => (hstart.trans hh).trans ?_
  exact .quiet rfl rfl rfl rfl rfl

section

variable {ram : Fs.RamFs.Ram} {mem : UserMem} {cow : Cow} {as : List Act}

def Poised (k : Machine) : Prop :=
  ∀ i, (k.procs i).used = true → (k.procs i).state = .blocked → Asks (k.procs i)

theorem sleeps_waitKind (hs : Shape k) (hu : (k.procs i).used = true)
    (hb : (k.procs i).state = .blocked) : sleeps (k.procs i) (k.procs i).waitKind = true := by
  have h0 : i ≠ 0 := by
    rintro rfl
    cases hs.kernel.state.symm.trans hb
  have hpid := hs.pids i h0 hu
  have hne : (k.procs i).pid ≠ 1 := by omega
  simp [sleeps, isUser, hu, hb, hne]

theorem Asks.sleeper {r : Request} {o : Otherwise} (hs : Shape k) (ha : Asking k)
    (hp : k.phase = .blocking r o) : Asks (sleeper k r) := by
  have hb := busy_at hp
  obtain ⟨h0, hu, -⟩ := hs.cpu hb
  refine ⟨?_, (hs.formed _ h0 hu).space, fun hk => ?_⟩
  · have hkind : (Phases.sleeper k r).waitKind = r.kind := rfl
    rw [hkind]
    cases ha r o hp <;> simp
  refine (Buffered.sleeper ha hp ?_).window
  have hpid := hs.pids _ h0 hu
  have hne : (cur k).pid ≠ 1 := Nat.ne_of_gt hpid
  have huser : isUser (Phases.sleeper k r) = true := by
    show ((cur k).used && (cur k).pid != 1) = true
    rw [hu]
    simp [hne]
  have hblocked : (Phases.sleeper k r).state = .blocked := rfl
  simp [sleeps, huser, hblocked, hk]

theorem Poised.stepped (h : Poised k) (hk : Kept k) (hst : Stepped k a k') : Poised k' := by
  intro i hu hb
  have hsl := sleeps_waitKind (hk.shape.stepped hst) hu hb
  rcases Stepped.sleeps hk.shape hst hsl with hr | ⟨r, o, j, rfl, hp, -, hj, rfl⟩
  · have hold := sleeps_roused hr hsl
    obtain ⟨huser, hb0, -⟩ := sleeps_spec hold
    exact (h i (isUser_spec huser).1 hb0).roused hr hb0 hb
  · have hrow : (setPhase (schedLoad (aside k (sleeper k r)) j) .leaving).procs k.current = sleeper k r :=
      (setProc_ne (Ne.symm hj)).trans setProc_self
    rw [hrow]
    exact Asks.sleeper hk.shape hk.asking hp

end

end MuOS.Kernel.Answers
