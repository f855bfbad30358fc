import MuOS.Kernel.Holdings
import MuOS.Kernel.Wakers

namespace MuOS.Kernel.Bystanders

open Function User.Descriptors Lib.Rings State Wake Sched Calls Stir Tables Prims ProcTable Step
open Phases Layout Wakers Counts Books Holdings Option List

def Stands (k k' : Machine) (i : Fin 8) : Prop :=
  (k'.procs i).used = true ∧ ((k'.procs i).state = .blocked ∨
    (k.procs i).used = true ∧ (k.procs i).state ≠ .running ∧ (k'.procs i).state ≠ .running)

/-- What a process that does not run finds unchanged. -/
structure Loose (i : Fin 8) (k k' : Machine) : Prop where
  row : Roused (k.procs i) (k'.procs i)
  table : savedTable k' (k'.procs i) = savedTable k (k.procs i)
  valid : ∀ t fd, savedTable k (k.procs i) = some t → (t fd).kind = .pipeRead ∨
    (t fd).kind = .pipeWrite → pipeValid k' (t fd).pipeId = pipeValid k (t fd).pipeId

structure Quiet (i : Fin 8) (k k' : Machine) : Prop extends Loose i k k' where
  pipes : ∀ j, (k.pipes j).used = true → k'.pipes j = k.pipes j

/-- For one that does not run: pipe or key changes, then a notification. -/
inductive Chime (i : Fin 8) (k : Machine) : Machine → Prop
  | apart {k' : Machine} (h : ¬ Stands k k' i) : Chime i k k'
  | quiet {k' : Machine} (h : Quiet i k k') : Chime i k k'
  | rung {k' : Machine} (h : Loose i k k') : Chime i k (procNotify k')

abbrev Chimes (i : Fin 8) : Machine → Machine → Prop := Relation.ReflTransGen (Chime i)

def Unshared (k : Machine) (i : Fin 8) : Prop :=
  ∀ j, j ≠ i → (k.procs j).used = true → (k.procs j).fdState ≠ (k.procs i).fdState

instance (k : Machine) (i : Fin 8) : Decidable (Unshared k i) :=
  inferInstanceAs
    (Decidable (∀ j, j ≠ i → (k.procs j).used = true → (k.procs j).fdState ≠ (k.procs i).fdState))

variable {D : Fin 16 → Prop} {k k' k1 : Machine} {i : Fin 8} {c : Call} {p : Proc}
  {j : Fin 8} {t : Nat} {thread : Bool} {child : Fin 8} {x : Context} {m : UserMem} {b : Machine}
  {sp ns : Nat} {tls : Tls}

theorem pipeValid_congr (h : ∀ j, (k'.pipes j).used = (k.pipes j).used) (id : Nat) :
    pipeValid k' id = pipeValid k id := by
  simp only [pipeValid, h]

theorem Quiet.of (hrow : Roused (k.procs i) (k'.procs i))
    (ht : savedTable k' (k'.procs i) = savedTable k (k.procs i))
    (hp : k'.pipes = k.pipes) : Quiet i k k' :=
  ⟨⟨hrow, ht, fun _ _ _ _ => pipeValid_congr (fun j => by rw [hp]) _⟩, fun j _ => congrFun hp j⟩

theorem Quiet.same (hi : k'.procs i = k.procs i) (hs : k'.states = k.states)
    (hp : k'.pipes = k.pipes) : Quiet i k k' := by
  refine .of (by rw [hi]; exact Roused.refl _) ?_ hp
  rw [savedTable, savedTable, hi, hs]

theorem Quiet.stirred (hs : Stirred k k') (hp : k'.pipes = k.pipes) : Quiet i k k' :=
  .of (hs.procs i) (hs.savedTable i) hp

theorem Loose.same (hi : k'.procs i = k.procs i) (hs : k'.states = k.states)
    (hp : ∀ j, (k'.pipes j).used = (k.pipes j).used) : Loose i k k' := by
  refine ⟨by rw [hi]; exact Roused.refl _, ?_, fun _ _ _ _ => pipeValid_congr hp _⟩
  rw [savedTable, savedTable, hi, hs]

theorem chimes_quiet (h : Quiet i k k') : Chimes i k k' := .single (.quiet h)

theorem chimes_rung (h : Loose i k k') : Chimes i k (procNotify k') := .single (.rung h)

theorem chimes_apart (h : ¬ Stands k k' i) : Chimes i k k' := .single (.apart h)

theorem not_stands_unused (h : (k'.procs i).used = false) : ¬ Stands k k' i := fun hs =>
  by cases h.symm.trans hs.1

theorem not_stands_running (h : (k'.procs i).state = .running) : ¬ Stands k k' i := by
  rintro ⟨-, hb | ⟨-, -, hr⟩⟩
  · cases h.symm.trans hb
  · exact hr h

theorem not_stands_fresh (hu : (k.procs i).used = false) (h : (k'.procs i).state = .ready) :
    ¬ Stands k k' i := by
  rintro ⟨-, hb | ⟨hu', -, -⟩⟩
  · cases h.symm.trans hb
  · cases hu.symm.trans hu'

def banks (k : Machine) :
    (Fin 8 → Bool × RingBuf (BitVec 8)) × (Fin 8 → List (BitVec 8)) ×
    (Fin 8 → List (BitVec 8)) × List ReadDone × Bool :=
  (fun j => ((k.pipes j).used, (k.pipes j).ring), k.trace.accepted, k.trace.handed, k.trace.reads,
    k.trace.crowded)

def Aloof (k k' : Machine) : Prop := k'.pipes = k.pipes ∧ banks k' = banks k

theorem Aloof.refl (k : Machine) : Aloof k k := ⟨rfl, rfl⟩

theorem Aloof.trans (h : Aloof k k1) (h' : Aloof k1 k') : Aloof k k' :=
  ⟨h'.1.trans h.1, h'.2.trans h.2⟩

theorem Pokes.aloof (h : Pokes k k') : Aloof k k' := by
  obtain ⟨m, rfl⟩ := h
  exact ⟨rfl, rfl⟩

section

variable (k)

theorem tickOne_aloof (i : Fin 8) : Aloof k (tickOne k i) := by
  have hring : Aloof k (ringAlarm k i) := by
    simp only [ringAlarm]
    split <;> exact ⟨rfl, rfl⟩
  rw [tickOne]
  split
  · refine hring.trans ?_
    simp only [expirePoll]
    split
    · have hend : ∀ k1, Aloof k1 (procPollFinish k1 i 0) := fun _ => ⟨rfl, rfl⟩
      exact (Pokes.aloof (expireEntries_pokes ..)).trans (hend _)
    · exact .refl _
  · exact .refl k

theorem procTickAll_aloof : Aloof k (procTickAll k) := by
  rw [procTickAll, overProcs]
  induction finRange 8 generalizing k with
  | nil => exact .refl k
  | cons i l ih => exact (tickOne_aloof k i).trans (ih _)

theorem procSignalSend_aloof (pid : BitVec 32) (sig : Int) :
    Aloof k (procSignalSend k pid sig).1 := by
  unfold procSignalSend
  repeat' split
  all_goals exact ⟨rfl, rfl⟩

theorem procWakeParent_aloof (c : Proc) : Aloof k (procWakeParent k c) := by
  rw [procWakeParent]
  split
  · exact .refl k
  rename_i i _
  have hend : ∀ k1 p, Aloof k1 (setProc k1 i p) := fun _ _ => ⟨rfl, rfl⟩
  simp only [wakeWaiter]
  split
  · refine Aloof.trans ?_ (hend ..)
    split
    · exact .refl k
    · exact Pokes.aloof (procWriteUserU32_pokes k ..)
  · exact (Pokes.aloof (writeWords_pokes k (k.procs i) (k.procs i).waitInfop (siginfo c))).trans (hend ..)
  · exact ⟨rfl, rfl⟩

theorem pipeWriterAdd_chimes (id : Nat) (n : Int) : Chimes i k (pipeWriterAdd k id n) := by
  rw [pipeWriterAdd]
  split
  · exact .refl
  rename_i j _
  refine chimes_rung (.same rfl rfl fun l => ?_)
  by_cases hl : l = j
  · subst hl
    simp only [setPipe, update_self]
  · simp only [setPipe, update_of_ne hl]

end

theorem foldl_chimes {α : Type} {f : Machine → α → Machine} (hf : ∀ k a, Chimes i k (f k a))
    (l : List α) (k : Machine) : Chimes i k (l.foldl f k) := by
  induction l generalizing k with
  | nil => exact .refl
  | cons a l ih => exact (hf k a).trans (ih _)

section

variable (k)

theorem addWriters_chimes (ds : List (Nat × Int)) : Chimes i k (addWriters k ds) :=
  foldl_chimes (fun k d => pipeWriterAdd_chimes k d.1 d.2) ds k

theorem setRam_chimes (r : Fs.RamFs.Ram) : Chimes i k { k with ram := r } :=
  chimes_quiet (.same rfl rfl rfl)

theorem entryRef_chimes (d : Desc) : Chimes i k (entryRef k d) := by
  simp only [entryRef]
  split
  · exact (setRam_chimes k _).trans (pipeWriterAdd_chimes ..)
  · exact setRam_chimes k _

theorem entryUnref_chimes (d : Desc) : Chimes i k (entryUnref k d) := by
  simp only [entryUnref]
  split
  · exact (setRam_chimes k _).trans (pipeWriterAdd_chimes ..)
  · exact setRam_chimes k _

theorem retain_chimes (t : Table) : Chimes i k (retain k t) :=
  foldl_chimes (fun k fd => entryRef_chimes k (t fd)) _ k

end

theorem savedTable_setState {f g : FdState} (hf : k.states t = some f) (hg : g.table = f.table)
    (p : Proc) : savedTable (setState k t (some g)) p = savedTable k p := by
  rw [savedTable, savedTable]
  cases p.fdState with
  | none => rfl
  | some t' =>
    by_cases ht : t' = t
    · subst ht
      simp only [setState, bind_some, update_self, hf, map_some, hg]
    · simp only [setState, bind_some, update_of_ne ht]

theorem savedTable_setState_ne {f : Option FdState} (hp : p.fdState ≠ some t) :
    savedTable (setState k t f) p = savedTable k p := by
  rw [savedTable, savedTable]
  cases hf : p.fdState with
  | none => rfl
  | some t' =>
    have ht : t' ≠ t := fun he => hp (hf.trans (congrArg some he))
    simp only [setState, bind_some, update_of_ne ht]

theorem procReap_chimes {c : Fin 8} (h : InBooks D k) (hu : (k.procs c).used = true)
    (hc : k.current ≠ c) : Chimes i k (procReap k c) := by
  by_cases hi : i = c
  · refine chimes_apart (not_stands_unused ?_)
    rw [hi, procReap_self hu hc]
    rfl
  rw [procReap_eq hu hc]
  have hfreed := fdstateFree_freed (lostAt k c) c
  rw [setProc_self] at hfreed
  have hlost : Chimes i k (lostAt k c) := chimes_quiet (.same (setProc_ne hi) rfl rfl)
  have hempty : ∀ b : Machine, Chimes i b (setProc b c emptyProc) :=
    fun b => chimes_quiet (.same (setProc_ne hi) rfl rfl)
  refine hlost.trans (Relation.ReflTransGen.trans ?_ (hempty _))
  generalize fdstateFree (lostAt k c) c = k1 at hfreed
  cases hfreed with
  | none => exact .refl
  | less t f hp hf hr =>
    exact chimes_quiet (.of (Roused.refl _)
      (savedTable_setState (g := { f with refs := f.refs - 1 }) hf rfl _) rfl)
  | last t f hp hf hr =>
    have hrel : Chimes i (lostAt k c)
        (if (lost (k.procs c)).fdsRetained then release (lostAt k c) f.table
          else setProc k c (lost (k.procs c))) := by
      split
      · exact foldl_chimes (fun k fd => entryUnref_chimes k _) _ _
      · exact .refl
    have hrang : Rang (lostAt k c)
        (if (lost (k.procs c)).fdsRetained then release (lostAt k c) f.table
          else setProc k c (lost (k.procs c))) := by
      split
      · exact release_rang _ _
      · exact Rang.refl _
    refine hrel.trans ?_
    have hrow := hrang.procs i
    generalize (if (lost (k.procs c)).fdsRetained then release (lostAt k c) f.table
          else setProc k c (lost (k.procs c))) = k2 at hrow
    rw [setProc_ne hi] at hrow
    by_cases hui : (k2.procs i).used = true
    · refine chimes_quiet (.of (Roused.refl _) (savedTable_setState_ne fun hit => ?_) rfl)
      have hused := hrow.used
      have hstate := hrow.fdState
      have htwo : 1 < f.refs := by
        rw [(h.refs t f hf).2, Finset.one_lt_card]
        exact ⟨_, mem_holders.mpr ⟨hu, hp⟩, i,
          mem_holders.mpr ⟨hused.symm.trans hui, hstate.symm.trans hit⟩, Ne.symm hi⟩
      exact absurd hr (Nat.not_le.mpr htwo)
    · exact chimes_apart (not_stands_unused (Bool.eq_false_iff.mpr hui))

theorem own_chimes (hp : p.state = .running) (hb : b.procs = (setProc k k.current p).procs)
    (hs : b.states = k.states) (hq : b.pipes = k.pipes) : Chimes i k b := by
  obtain ⟨-, he⟩ | ⟨-, he⟩ := row_set hb i
  · exact chimes_apart (not_stands_running (he ▸ hp))
  · exact chimes_quiet (.same he hs hq)

theorem freed_chimes (hp : p.used = false) (hb : b.procs = (setProc k j p).procs)
    (hs : b.states = k.states) (hq : b.pipes = k.pipes) : Chimes i k b := by
  obtain ⟨-, he⟩ | ⟨-, he⟩ := row_set hb i
  · exact chimes_apart (not_stands_unused (he ▸ hp))
  · exact chimes_quiet (.same he hs hq)

section

variable (h : InBooks D k)
include h

theorem savedTable_new (hi : (k.procs i).used = true) (f : FdState) :
    savedTable { k with states := update k.states k.nextState (some f) } (k.procs i) = savedTable k
    (k.procs i) := by
  refine savedTable_setState_ne fun ht => ?_
  have hs := h.held i k.nextState hi ht
  rw [h.below k.nextState le_rfl] at hs
  cases hs

theorem forked_chimes (hf : freeSlot k = some child) :
    Chimes i k (forkedBy k child sp ns m x tls thread) := by
  by_cases hi : i = child
  · subst hi
    refine chimes_apart (not_stands_fresh (freeSlot_unused hf) ?_)
    obtain ⟨p, hp, hrow, -⟩ := ownTable_child (begun k i sp ns m) i
    have hself : (finishChild (ownTable (begun k i sp ns m) i) i x tls thread).1.procs i =
        childOf _ ((ownTable (begun k i sp ns m) i).procs i) _ x tls thread := setProc_self
    rw [begun_self] at hrow
    rw [hself, hp]
    exact (hrow.calm (by rintro ⟨⟩)).1
  · have halloc : (tabled k child sp ns m).procs i = k.procs i :=
      (setProc_ne hi).trans (begun_ne hi sp ns m)
    have hnew : Chimes i k (tabled k child sp ns m) := by
      by_cases hu : (k.procs i).used = true
      · refine chimes_quiet (.of ?_ ?_ rfl)
        · rw [halloc]
          exact Roused.refl _
        · rw [halloc]
          exact savedTable_new h hu ⟨1, k.fds⟩
      · refine chimes_apart (not_stands_unused ?_)
        rw [halloc]
        exact Bool.eq_false_iff.mpr hu
    refine hnew.trans ((retain_chimes _ k.fds).trans ?_)
    exact chimes_quiet (.same ((setProc_ne hi).trans (setProc_ne hi)) rfl rfl)

theorem shared_chimes (hf : freeSlot k = some child) (hu : (cur k).used = true)
    (ht : (cur k).fdState = some t) : Chimes i k (sharedBy k child sp ns t m x tls thread) := by
  by_cases hi : i = child
  · subst hi
    refine chimes_apart (not_stands_fresh (freeSlot_unused hf) ?_)
    rw [finishChild_self, shared_self]
    rfl
  obtain ⟨f, hst⟩ := isSome_iff_exists.mp (h.held _ t hu ht)
  have hrow : (sharedBy k child sp ns t m x tls thread).procs i =
      k.procs i := (finishChild_other hi x tls thread).trans (shared_row hi sp ns t m k.current)
  refine chimes_quiet (.of ?_ ?_ rfl)
  · rw [hrow]
    exact Roused.refl _
  have hone := savedTable_setState (g := { f with refs := f.refs + 1 }) hst rfl (k.procs i)
  have hstates : (sharedBy k child sp ns t m x tls thread).states =
      (setState k t (some { f with refs := f.refs + 1 })).states :=
      shared_states hst child k.current sp ns m
  rw [hrow, ← hone, savedTable, savedTable, hstates]

theorem zombie_chimes (hr : (cur k).state = .running) (hu : (k.procs j).used = true)
    (hz : (k.procs j).state = .zombie) : Chimes i k (procReap k j) :=
  procReap_chimes h hu (running_ne hr hz)

section

variable (hs : Shape k) (hb : busy k.phase = true) (hc : isPipe c = false)
include hs hb hc

theorem does_chimes (hd : Does c k k') : Chimes i k k' := by
  obtain ⟨h0, hu, hr⟩ := hs.cpu hb
  cases hd with
  | stored | keyed | answered | moved | jumped => exact chimes_quiet (.same rfl rfl rfl)
  | took j n =>
    have hlog : Chimes i k (logHanded k j (front k j n)) := chimes_quiet (.same rfl rfl rfl)
    refine hlog.trans (chimes_rung (.same rfl rfl ?_))
    exact (dropFront_woke _ j n).pipeUsed
  | wrote j bs => exact chimes_rung (.same rfl rfl (appendTo_woke k j _).pipeUsed)
  | filed d _ =>
    have hfiles : Chimes i k (setFiles k d.sys) := chimes_quiet (.same rfl rfl rfl)
    exact hfiles.trans (addWriters_chimes _ _)
  | piped d _ hp => cases hc.symm.trans hp
  | self p ho =>
    have hst : (outer p).state = (outer (cur k)).state := congrArg Proc.state ho
    exact own_chimes (p := p) (hst.trans hr) rfl rfl rfl
  | resumed =>
    obtain ⟨s, f, he⟩ := sigreturn_eq k
    rw [he]
    exact own_chimes (p := { cur k with sig := s }) hr rfl rfl rfl
  | segment entry base limit flags out =>
    exact own_chimes (p := withTls k base limit flags) hr rfl rfl rfl
  | signalled pid sig =>
    exact chimes_quiet
      (.stirred (procSignalSend_stirred k pid sig.toInt) (procSignalSend_aloof k pid sig.toInt).1)
  | refused child hf => exact freed_chimes rfl rfl rfl rfl
  | dropped child sp ns m hf =>
    rw [dropped_eq (freeSlot_ne hf hu)]
    exact freed_chimes rfl rfl rfl rfl
  | forked child sp ns m x tls thread hf hx => exact forked_chimes h hf
  | shared child sp ns t m x tls thread hf ht hx => exact shared_chimes h hf hu ht
  | settled =>
    obtain he | he | ⟨j, hj, hz, he⟩ := reapReported_cases k <;> rw [he]
    · exact own_chimes (p := { cur k with lastWaitPid := 0 }) hr rfl rfl rfl
    have hused := (procFind_some hj).1
    have hcur := procReap_cur hused (running_ne hr hz)
    refine (zombie_chimes h hr hused hz).trans (own_chimes ?_ rfl rfl rfl)
    exact (hcur.calm (by rw [hr]; simp)).1.trans hr
  | waited _ j hj =>
    obtain ⟨⟨hused, -⟩, hz⟩ := zombieChild_spec hj
    exact zombie_chimes h hr hused hz

theorem parts_chimes (hp : Parts c k k') : Chimes i k k' := by
  have hall := parts_invariant (I := fun k1 => InBooks D k1 ∧ Chimes i k k1) hs hb
    (fun k1 k2 hsh hbb hi hd =>
    ⟨InBooks.does hi.1 hsh hbb hd, hi.2.trans (does_chimes hi.1 hsh hbb hc hd)⟩) ⟨h, .refl⟩ hp
  exact hall.2

end

end

section

variable (h : InBooks D k) (hs : Shape k) (hb : busy k.phase = true)
include h hs hb

section

variable (hun : Unshared k i) (hi : i ≠ k.current)
include hun hi

theorem createPipe_quiet : Quiet i k (createPipe k) := by
  rw [createPipe]
  split
  · exact .same rfl rfl rfl
  rename_i j hj
  have hfree : (k.pipes j).used = false := pipeCreate_unused hj
  have hkeep : ∀ l, (k.pipes l).used = true → (setPipe k j freshPipe).pipes l = k.pipes l := by
    intro l hl
    refine update_of_ne (fun he => ?_) ..
    rw [he, hfree] at hl
    cases hl
  refine ⟨⟨Roused.refl _, rfl, fun t fd ht hk => ?_⟩, hkeep⟩
  obtain ⟨f, hf, rfl⟩ := map_eq_some_iff.mp ht
  obtain ⟨t0, ht0, hst⟩ := bind_eq_some_iff.mp hf
  have hlive : live k ≠ some t0 := by
    rw [live_busy hb, ← ht0]
    exact hun k.current (Ne.symm hi) (hs.cpu hb).2.1
  have htab : tables k t0 = some f.table := by rw [tables, hst, map_some, if_neg hlive]
  obtain ⟨l, hl⟩ := isSome_iff_exists.mp ((h.named t0 f.table fd htab).pipe hk)
  obtain ⟨hid, hu⟩ := pipeValid_some hl
  rw [hl, hid, pipeValid_used (by rw [hkeep l hu, hu])]

theorem doPipe_chimes {w : World} {ptr : BitVec 32} {out : Stores} :
    Chimes i k (Calls.doPipe k w ptr out).1 := by
  simp only [Calls.doPipe, failWith]
  split
  · exact .refl
  have hmade : Chimes i k (createPipe k) := chimes_quiet (createPipe_quiet h hs hb hun hi)
  have hset : ∀ (b : Machine) s, Chimes i b (setFiles b s) :=
    fun b s => chimes_quiet (.same rfl rfl rfl)
  have hpoke : ∀ b : Machine, Chimes i b (pokeAll b out) := fun b =>
    chimes_quiet (.stirred (pokeAll_pokes b out).woke.toStirred (Pokes.aloof (pokeAll_pokes b out)).1)
  exact hmade.trans ((hset _ _).trans ((addWriters_chimes _ _).trans (hpoke _)))

theorem sysCall_chimes (c : Call) : Chimes i k (sysCall k c).1 := by
  have hparts : isPipe c = false → Chimes i k (sysCall k c).1 := fun hc =>
    parts_chimes h hs hb hc (sysCall_parts c)
  cases c with
  | pipe ptr w out => exact doPipe_chimes h hs hb hun hi
  | _ => exact hparts rfl

end

end

theorem after_chimes (k : Machine) (fl : Flow) : Chimes i k (after k fl) := by
  cases fl <;> exact chimes_quiet (.same rfl rfl rfl)

section

variable (hun : Unshared k i) (hu : (cur k).used = true) (hi : i ≠ k.current)
include hun hu hi

theorem savedTable_aside (q : Proc) :
    savedTable (aside k q) (k.procs i) = savedTable k (k.procs i) := by
  have hne : (cur k).fdState ≠ (k.procs i).fdState := hun k.current (Ne.symm hi) hu
  have hst : (aside k q).states = (saveFds k k.current).states := rfl
  rw [savedTable, hst, saveFds]
  split
  · rfl
  rename_i t ht
  have hit : (k.procs i).fdState ≠ some t := fun he => hne (ht.trans he.symm)
  exact savedTable_setState_ne hit

theorem aside_quiet (q : Proc) : Quiet i k (aside k q) := by
  have hrow : (aside k q).procs i = k.procs i := setProc_ne hi
  refine .of ?_ ?_ rfl
  · rw [hrow]
    exact Roused.refl _
  · rw [hrow]
    exact savedTable_aside hun hu hi q

end

theorem load_chimes (k : Machine) (j : Fin 8) (ph : Phase) :
    Chimes i k (setPhase (schedLoad k j) ph) := by
  obtain ⟨-, he⟩ | ⟨-, he⟩ := row_set (b := setPhase (schedLoad k j) ph) rfl i
  · exact chimes_apart (not_stands_running (by rw [he]))
  · exact chimes_quiet (.same he rfl rfl)

theorem notified_chimes (hr : (cur k).state = .running) (h : Notified k k') : Chimes i k k' := by
  obtain ⟨m, eip, sp, eax, sig, rfl⟩ := h
  exact own_chimes (p := { cur k with sig := sig }) hr rfl rfl rfl

theorem reaps_chimes (h : InBooks D k) (hs : Sound k) (hb : busy k.phase = false)
    (hr : Reaps k k') : Chimes i k k' := by
  refine hr.keeps .refl fun b j hpre ih hu _ hc _ => ?_
  exact ih.trans (procReap_chimes (InBooks.reaps h hs hb hpre) hu hc)

theorem started_chimes (h : InBooks D k) (b : User.Window.Brk) (m : UserMem) (f : Regs) :
    Chimes i k (started k j b m f) := by
  obtain ⟨-, he⟩ | ⟨-, hrow⟩ := row_set (b := started k j b m f) rfl i
  · exact chimes_apart (not_stands_running (by rw [he]; rfl))
  by_cases hu : (k.procs i).used = true
  · refine chimes_quiet (.of ?_ ?_ rfl)
    · rw [hrow]
      exact Roused.refl _
    · rw [hrow]
      exact savedTable_new h hu _
  · refine chimes_apart (not_stands_unused ?_)
    rw [hrow]
    exact Bool.eq_false_iff.mpr hu

theorem Stepped.chimes {a : Act} (h : InBooks D k) (hs : Shape k) (hst : Stepped k a k')
    (hi : busy k.phase = true → i ≠ k.current) (hun : Unshared k i) : Chimes i k k' := by
  have hcpu : busy k.phase = true → (cur k).used = true ∧ (cur k).state = .running :=
    fun hb => (hs.cpu hb).2
  have haside : busy k.phase = true → ∀ q, Chimes i k (aside k q) := fun hb q =>
    chimes_quiet (aside_quiet hun (hcpu hb).1 (hi hb) q)
  have hphase : ∀ (b : Machine) ph, Chimes i b (setPhase b ph) :=
    fun b ph => chimes_quiet (.same rfl rfl rfl)
  have htick : Chimes i k (ticked k) := by
    have hclock : Chimes i k (counted k) := chimes_quiet (.same rfl rfl rfl)
    exact hclock.trans (chimes_quiet (.stirred (ticked_woke k).toStirred (procTickAll_aloof _).1))
  cases hst with
  | compute | exit | fault | back | lost => exact chimes_quiet (.same rfl rfl rfl)
  | call c k1 fl hp hc =>
    have hb := busy_at hp
    have h1 : InBooks D (inCall k) := InBooks.same h rfl rfl rfl rfl rfl rfl rfl
    have hq : Chimes i k (inCall k) := chimes_quiet (.same rfl rfl rfl)
    have hcall := sysCall_chimes h1 hs.entered hb hun (hi hb) c
    rw [hc] at hcall
    exact hq.trans (hcall.trans (after_chimes k1 fl))
  | tick hp => exact htick.trans (hphase _ _)
  | idle hp hn => exact htick
  | key c hp =>
    rw [typed]
    split
    · exact chimes_rung (.same rfl rfl fun _ => rfl)
    · exact .refl
  | sleep _ _ j hp | yield j hp => exact (haside (busy_at hp) _).trans (load_chimes _ j _)
  | awake r o hp hf hn =>
    have hact : ∀ b : Machine, Chimes i b { b with active := true } :=
      fun b => chimes_quiet (.same rfl rfl rfl)
    exact (haside (busy_at hp) _).trans ((hact _).trans (after_chimes _ _))
  | tableless r o hp hf => exact after_chimes k _
  | leave _ _ hp hd | alarm _ _ hp hd =>
    have hnote := delivered_notified hd
    exact (notified_chimes (hcpu (busy_at hp)).2 hnote).trans (hphase _ _)
  | ignored hp hn => exact hphase k _
  | keep hp => exact (haside (busy_at hp) _).trans (hphase _ _)
  | die code faulted sys hp =>
    have hact : ∀ b : Machine, Chimes i b { b with active := false } :=
      fun b => chimes_quiet (.same rfl rfl rfl)
    have hwake : ∀ b : Machine, Chimes i b (procWakeParent b (exited k code faulted)) := fun b =>
      chimes_quiet (.stirred (procWakeParent_stirred b _) (procWakeParent_aloof b _).1)
    exact (haside (busy_at hp) _).trans ((hact _).trans ((hwake _).trans (hphase _ _)))
  | pick sys j hp hj => exact load_chimes k j _
  | finish l hp =>
    have hb : busy k.phase = false := by rw [hp]; rfl
    obtain ⟨k1, hreaps, -, he⟩ := hs.finish_reaps hp
    have h1 : InBooks D (halted k) :=
      InBooks.same h rfl rfl rfl rfl rfl rfl rfl
    have hq : Chimes i k (halted k) := chimes_quiet (.same rfl rfl rfl)
    rw [he]
    refine hq.trans ((reaps_chimes h1 (hs.toSound.congr rfl rfl) hb hreaps).trans ?_)
    exact chimes_quiet (.same rfl rfl rfl)
  | launch frames l hp ha =>
    exact hs.launch_elim hp frames l .refl (fun j _ _ _ _ _ _ _ _ hu => freed_chimes hu rfl rfl rfl)
      (fun _ b m f _ _ => started_chimes h b m f)
  | refuse frames l hp ha => exact .refl
  | shell o hp ho => exact setRam_chimes k _
  | shellKey hp => exact chimes_quiet (.same rfl rfl rfl)
  | spinDone v takesKey out m hp =>
    have hq : Chimes i k (spun k takesKey m) := chimes_quiet (.same rfl rfl rfl)
    exact hq.trans (after_chimes _ _)

end MuOS.Kernel.Bystanders
