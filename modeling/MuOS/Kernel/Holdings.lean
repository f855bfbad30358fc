import Mathlib.Data.Finset.Option
import MuOS.Kernel.Books

namespace MuOS.Kernel.Holdings

open Function Lib Runs Tally Fs.RamFs User.Descriptors Syscall Vfs References
open State Wake Sched Calls Stir Tables Prims ProcTable Step Phases Layout Counts Books Option Nat

def live (k : Machine) : Option Nat := if busy k.phase then (cur k).fdState else none

/-- The descriptor tables, the live one for the running process. -/
def tables (k : Machine) (t : Nat) : Option Table :=
  (k.states t).map (fun f => if live k = some t then k.fds else f.table)

variable {D : Fin 16 → Prop} {k k' k1 : Machine} {t : Nat} {i : Fin 8}
  {p : Proc} {thread : Bool} {child : Fin 8} {x : Context} {sp ns : Nat} {m : UserMem}
  {ph : Phase} {tls : Tls}

theorem live_congr (hp : k'.phase = k.phase) (hf : (cur k').fdState = (cur k).fdState) :
    live k' = live k := by
  rw [live, live, hp, hf]

theorem tables_congr (hs : k'.states = k.states) (hl : live k' = live k) (hf : k'.fds = k.fds) :
    tables k' = tables k := by
  funext t
  rw [tables, tables, hs, hl, hf]

theorem live_busy (hb : busy k.phase = true) : live k = (cur k).fdState := if_pos hb

theorem live_idle (hb : busy k.phase = false) : live k = none := by rw [live, hb]; rfl

theorem tables_live (hl : live k = some t) (hs : (k.states t).isSome = true) :
    tables k t = some k.fds := by
  obtain ⟨f, hf⟩ := isSome_iff_exists.mp hs
  rw [tables, hf, map_some, if_pos hl]

def InBooks (D : Fin 16 → Prop) (k : Machine) : Prop := Balanced D k (tables k)

section

variable (h : InBooks D k)
include h

theorem InBooks.stirred (hs : Stirred k k') : InBooks D k' := by
  have hf : (cur k').fdState = (cur k).fdState := by
    rw [cur, hs.current]
    exact (hs.procs _).fdState
  have ht : tables k' = tables k := tables_congr hs.states (live_congr hs.phase hf) hs.fds
  rw [InBooks, ht]
  exact Balanced.stirred h hs

theorem InBooks.rows (hr : ∀ i, (k'.procs i).used = (k.procs i).used ∧
      ((k.procs i).used = true → (k'.procs i).fdState = (k.procs i).fdState))
    (hs : k'.states = k.states) (hn : k'.nextState = k.nextState) (hp : k'.pipes = k.pipes)
      (hm : k'.ram = k.ram)
    (hl : live k' = live k) (hf : k'.fds = k.fds ∨ live k = none) : InBooks D k' := by
  have ht : tables k' = tables k := by
    rcases hf with hf | hf
    · exact tables_congr hs hl hf
    funext t
    rw [tables, tables, hs, hl, hf]
    simp
  rw [InBooks, ht]
  refine Balanced.level h ⟨hn, fun t => by rw [hs], hr, fun j hu => by rw [hp]; exact hu⟩
    (fun j => by rw [hp]) ?_
  rw [hm]
  exact .refl D _

theorem InBooks.same (hr : k'.procs = k.procs) (hs : k'.states = k.states)
    (hn : k'.nextState = k.nextState) (hp : k'.pipes = k.pipes) (hm : k'.ram = k.ram)
    (hl : live k' = live k) (hf : k'.fds = k.fds) : InBooks D k' :=
  h.rows (fun i => by rw [hr]; exact ⟨rfl, fun _ => rfl⟩) hs hn hp hm hl (.inl hf)

theorem InBooks.own (hu : p.used = (cur k).used) (hf : p.fdState = (cur k).fdState) :
    InBooks D (setProc k k.current p) := by
  refine h.rows (fun i => ?_) rfl rfl rfl rfl
    (live_congr rfl (by rw [cur_setProc]; exact hf)) (.inl rfl)
  obtain ⟨rfl, he⟩ | ⟨-, he⟩ := row_set (b := setProc k k.current p) rfl i <;> rw [he]
  · exact ⟨hu, fun _ => hf⟩
  · exact ⟨rfl, fun _ => rfl⟩

theorem InBooks.slipped (hf : freeSlot k = some i) (hu : p.used = false)
    (hp : k'.procs = (setProc k i p).procs) (hs : k'.states = k.states)
    (hn : k'.nextState = k.nextState) (hpi : k'.pipes = k.pipes) (hm : k'.ram = k.ram)
    (hl : live k' = live k) (hd : k'.fds = k.fds ∨ live k = none) : InBooks D k' := by
  refine h.rows (fun j => ?_) hs hn hpi hm hl hd
  obtain ⟨rfl, he⟩ | ⟨-, he⟩ := row_set hp j <;> rw [he]
  · rw [hu, freeSlot_unused hf]
    exact ⟨rfl, fun hx => by cases hx⟩
  · exact ⟨rfl, fun _ => rfl⟩

end

theorem InBooks.reap {c : Fin 8} (h : InBooks D k) (hu : (k.procs c).used = true)
    (hc : k.current ≠ c) (hf : (k.procs c).fdState.isSome = true)
    (hr : (k.procs c).fdsRetained = true) (hcur : busy k.phase = true → (cur k).used = true) :
    InBooks D (procReap k c) := by
  obtain ⟨t, ht⟩ := isSome_iff_exists.mp hf
  obtain ⟨f, hst⟩ := isSome_iff_exists.mp (h.held c t hu ht)
  have hself := procReap_self hu hc
  have hother : ∀ i, i ≠ c → ((procReap k c).procs i).used = (k.procs i).used ∧
      ((procReap k c).procs i).fdState = (k.procs i).fdState := fun i hi =>
    ⟨(procReap_other hu hc hi).used, (procReap_other hu hc hi).fdState⟩
  have hlive : live (procReap k c) = live k := by
    refine live_congr ?_ ((procReap_cur hu hc).fdState)
    exact procReap_field _ hu hc fun _ _ => rfl
  have hfds : (procReap k c).fds = k.fds :=
    procReap_field _ hu hc fun _ _ => rfl
  have hnext : (procReap k c).nextState = k.nextState :=
    procReap_field _ hu hc fun _ _ => rfl
  have hpipe : ∀ j, ((procReap k c).pipes j).used = (k.pipes j).used := fun j =>
    procReap_field (fun k => (k.pipes j).used) hu hc fun _ _ => rfl
  have hfreed := fdstateFree_freed (lostAt k c) c
  rw [setProc_self] at hfreed
  have he := procReap_eq hu hc
  generalize procReap k c = k' at *
  generalize fdstateFree (lostAt k c) c = k1 at he hfreed
  have hlost : (lost (k.procs c)).fdState = some t := ht
  cases hfreed with
  | none hn =>
    rw [hlost] at hn
    cases hn.symm.trans hst
  | less t' g hp hg hrefs =>
    cases hlost.symm.trans hp
    cases hst.symm.trans hg
    have hstates : k'.states = update k.states t (some { f with refs := f.refs - 1 }) := by rw [he]; rfl
    have htab : tables k' = tables k := by
      funext t'
      rw [tables, tables, hlive, hfds, hstates]
      by_cases hte : t' = t
      · rw [hte, update_self, hst]
        rfl
      · rw [update_of_ne hte]
    rw [InBooks, htab]
    refine Balanced.leave h hu ht hst hnext (by rw [hself]; rfl) hother hpipe
      (.inl ⟨hrefs, rfl, hstates⟩) ?_
    exact ⟨by rw [he]; exact h.charged.writers, by rw [he]; exact h.charged.files⟩
  | last t' g hp hg hrefs =>
    cases hlost.symm.trans hp
    cases hst.symm.trans hg
    have hnot : live k ≠ some t := by
      intro hl
      -- the running process would hold the table too
      rw [live] at hl
      split at hl
      · rename_i hb
        have hsub : {c, k.current} ⊆ holders k t := by
          intro i hi
          rcases Finset.mem_insert.mp hi with hi | hi
          · rw [hi]
            exact mem_holders.mpr ⟨hu, ht⟩
          · rw [Finset.mem_singleton.mp hi]
            exact mem_holders.mpr ⟨hcur hb, hl⟩
        have hcard := Finset.card_le_card hsub
        rw [Finset.card_pair (Ne.symm hc), ← (h.refs t f hst).2] at hcard
        omega
      · exact Option.noConfusion rfl (heq_of_eq hl)
    have hsaved : tables k t = some f.table := by
      rw [tables, hst, map_some, if_neg hnot]
    have hret : (lost (k.procs c)).fdsRetained = true := hr
    rw [if_pos hret] at he
    have hrang := release_rang (lostAt k c) f.table
    have hstates : k'.states = update k.states t none := by
      rw [he]
      exact congrArg (fun st => update st t none) hrang.states
    have htab : tables k' = update (tables k) t none := by
      funext t'
      rw [tables, hlive, hfds, hstates]
      by_cases hte : t' = t
      · rw [hte, update_self, update_self]
        rfl
      · rw [update_of_ne hte, update_of_ne hte, tables]
    have hrem := fun p : Desc → Bool => tally_remove (Balanced.lt h hsaved) hsaved (many p)
    have hch : Charged D (lostAt k c)
        (fun j => tally (update (tables k) t none) k.nextState (many (isEnd j)) + many (isEnd j) f.table)
        (fun s => tally (update (tables k) t none) k.nextState (many (isOpen s)) + many
        (isOpen s) f.table) :=
      Charged.congr ⟨h.charged.writers, h.charged.files⟩ (fun j => hrem _) fun s => hrem _
    have hrel := hch.release (fun fd => (h.named t f.table fd hsaved).grow fun _ hu => hu) fun s => by
      have hb := Balanced.bound h s
      have hr' := hrem (isOpen s)
      omega
    rw [InBooks, htab]
    refine Balanced.leave h hu ht hst hnext (by rw [hself]; rfl) hother hpipe
      (.inr ⟨hrefs, rfl, hstates⟩) ?_
    exact ⟨by rw [he]; exact hrel.writers, by rw [he]; exact hrel.files⟩

section

variable {c : Call}

theorem InBooks.running (h : InBooks D k) (hs : Shape k) (hb : busy k.phase = true) :
    ∃ t, live k = some t ∧ (k.states t).isSome = true := by
  obtain ⟨h0, hu, -⟩ := hs.cpu hb
  obtain ⟨t, ht⟩ := isSome_iff_exists.mp (hs.formed _ h0 hu).fdState
  exact ⟨t, (live_busy hb).trans ht, h.held _ t hu ht⟩

theorem tables_files {s : Sys} (hl : live k = some t) (ht : (k.states t).isSome = true)
    (hst : k1.states = k.states) (hl1 : live k1 = live k) (hr : Rang (setFiles k1 s) k') :
    tables k' = update (tables k) t (some s.fds) := by
  have hst' : k'.states = k.states := hr.states.trans hst
  have hf : (cur k').fdState = (cur k1).fdState := by
    have hrow := hr.procs (setFiles k1 s).current
    rw [cur, hr.current]
    exact hrow.fdState
  have hlive : live k' = live k := (live_congr hr.phase hf).trans hl1
  funext t'
  rw [tables, hst', hlive, hl, hr.fds]
  by_cases he : t' = t
  · obtain ⟨f, hf⟩ := isSome_iff_exists.mp ht
    rw [he, update_self, hf, map_some, if_pos rfl]
    rfl
  · rw [update_of_ne he, tables, hl]
    have hne : ¬ some t = some t' := fun hc => he (some.inj hc).symm
    simp only [if_neg hne]

section

variable (h : InBooks D k)
include h

theorem InBooks.zombie (hs : Sound k) (hr : (cur k).state = .running)
    (hcur : (cur k).used = true) (hu : (k.procs i).used = true) (hz : (k.procs i).state = .zombie) :
    InBooks D (procReap k i) := by
  have h0 : i ≠ 0 := by
    rintro rfl
    cases hz.symm.trans hs.kernel.state
  have hf := hs.formed i h0 hu
  exact h.reap hu (running_ne hr hz) hf.fdState hf.retained fun _ => hcur

section

variable (hs : Shape k) (hb : busy k.phase = true)
include hs hb

theorem InBooks.forked (hf : freeSlot k = some child) :
    InBooks D (forkedBy k child sp ns m x tls thread) := by
  obtain ⟨h0, hu, hr⟩ := hs.cpu hb
  obtain ⟨t, hl, hst⟩ := h.running hs hb
  have hne := freeSlot_ne hf hu
  have hfree := freeSlot_unused hf
  have htab := tables_live hl hst
  have hlt := Balanced.lt h htab
  obtain ⟨p, hp, hrow, -⟩ := ownTable_child (begun k child sp ns m) child
  rw [begun_self] at hrow
  have hrang := tabled_rang k child sp ns m
  have hother : ∀ i, i ≠ child →
    Fit (k.procs i) ((forkedBy k child sp ns m x tls thread).procs i) := by
    intro i hi
    rw [finishChild_other hi]
    exact Roused.fit (forked_row hi sp ns m).1 (forked_row hi sp ns m).2
  have hcharged := Charged.retain (k := tabled k child sp ns m)
    ⟨h.charged.writers, h.charged.files⟩ (fun fd => (h.named t _ fd htab).grow fun _ hu => hu)
    (fun s => by have := Balanced.bound h s; omega)
    (fun fd s hk hsl => Balanced.used h (.refl D _) htab hk hsl)
  have hnew : tables (forkedBy k child sp ns m x tls thread) = update (tables k) k.nextState
    (some k.fds) := by
    have hstates : (forkedBy k child sp ns m x tls thread).states =
        update k.states k.nextState (some ⟨1, k.fds⟩) := hrang.states
    have hfds : (forkedBy k child sp ns m x tls thread).fds = k.fds := hrang.fds
    have hcur : (forkedBy k child sp ns m x tls thread).current = k.current :=
      hrang.current
    have hlive : live (forkedBy k child sp ns m x tls thread) = live k := by
      refine live_congr hrang.phase ?_
      rw [cur, hcur]
      exact (hother _ hne).fdState
    funext t'
    rw [tables, hstates, hlive, hfds]
    by_cases he : t' = k.nextState
    · have hnl : live k ≠ some k.nextState := by
        rw [hl]
        exact fun hc => absurd (some.inj hc) (Nat.ne_of_lt hlt)
      rw [he, update_self, update_self, map_some, if_neg hnl]
    · rw [update_of_ne he, update_of_ne he, tables]
  rw [InBooks, hnew]
  refine Balanced.enrol h hfree hrang.nextState hrang.states ?_
    (fun i hi => ⟨(hother i hi).used, (hother i hi).fdState⟩)
    (fun j => hrang.pipeUsed j) (fun fd => h.named t _ fd htab) ⟨hcharged.writers, hcharged.files⟩
  rw [finishChild_self, hp]
  exact ⟨hrow.used, hrow.fdState⟩

theorem InBooks.shared (hf : freeSlot k = some child) (ht : (cur k).fdState = some t) :
    InBooks D (sharedBy k child sp ns t m x tls thread) := by
  obtain ⟨h0, hu, hr⟩ := hs.cpu hb
  obtain ⟨f, hst⟩ := isSome_iff_exists.mp (h.held _ t hu ht)
  have hne := freeSlot_ne hf hu
  have hother : ∀ i, i ≠ child → (sharedBy k child sp ns t m x tls thread).procs i = k.procs i := by
    intro i hi
    rw [finishChild_other hi, shared_row hi]
  have hstates : (sharedBy k child sp ns t m x tls thread).states =
      update k.states t (some { f with refs := f.refs + 1 }) := shared_states hst child k.current sp ns m
  have hnew : tables (sharedBy k child sp ns t m x tls thread) = tables k := by
    have hlive : live (sharedBy k child sp ns t m x tls thread) =
        live k := live_congr rfl (congrArg Proc.fdState (hother _ hne))
    funext t'
    rw [tables, hstates, hlive, tables]
    by_cases he : t' = t
    · rw [he, update_self, hst]
      rfl
    · rw [update_of_ne he]
      rfl
  rw [InBooks, hnew]
  refine Balanced.join h (freeSlot_unused hf) hst rfl hstates ?_
    (fun i hi => by rw [hother i hi]; exact ⟨rfl, rfl⟩)
    rfl rfl
  rw [finishChild_self, shared_self]
  exact ⟨rfl, rfl⟩

theorem InBooks.does (hd : Does c k k') : InBooks D k' := by
  obtain ⟨h0, hu, hr⟩ := hs.cpu hb
  obtain ⟨t, hl, hst⟩ := h.running hs hb
  cases hd with
  | stored | keyed | answered | moved | jumped => exact h.same rfl rfl rfl rfl rfl rfl rfl
  | took j n => exact h.stirred (took_woke k j n _).toStirred
  | wrote j bs => exact h.stirred (wrote_woke k j bs).toStirred
  | filed d he =>
    rw [InBooks, tables_files hl hst rfl rfl (addWriters_rang _ _)]
    exact Balanced.filed h (tables_live hl hst) rfl (he D)
  | piped d he =>
    obtain ⟨w, hd⟩ := he
    obtain ⟨ps, hps⟩ := createPipe_eq k
    have hst1 : (createPipe k).states = k.states := by rw [hps]
    have hl1 : live (createPipe k) = live k := by rw [hps]; rfl
    rw [InBooks, tables_files hl hst hst1 hl1 (addWriters_rang _ _)]
    exact Balanced.piped h (tables_live hl hst) hd
  | self p ho => exact h.own (Fit.outer ho).used (Fit.outer ho).fdState
  | resumed =>
    obtain ⟨s, f, he⟩ := sigreturn_eq k
    have hown : InBooks D (setProc k k.current { cur k with sig := s }) := h.own rfl rfl
    rw [he]
    exact hown.same rfl rfl rfl rfl rfl rfl rfl
  | segment entry base limit flags out =>
    have hown : InBooks D (setProc k k.current (withTls k base limit flags)) := h.own rfl rfl
    exact hown.same rfl rfl rfl rfl rfl rfl rfl
  | signalled pid sig => exact h.stirred (procSignalSend_stirred k pid sig.toInt)
  | refused child hf =>
    have hne := freeSlot_ne hf hu
    exact h.slipped hf
      rfl rfl rfl rfl rfl rfl (live_congr rfl (congrArg Proc.fdState (setProc_ne hne))) (.inl rfl)
  | dropped child sp ns m hf =>
    have hne := freeSlot_ne hf hu
    rw [dropped_eq hne]
    exact h.slipped hf
      rfl rfl rfl rfl rfl rfl (live_congr rfl (congrArg Proc.fdState (setProc_ne hne))) (.inl rfl)
  | forked child sp ns m x tls thread hf hx => exact h.forked hs hb hf
  | shared child sp ns t m x tls thread hf ht hx => exact h.shared hs hb hf ht
  | settled =>
    obtain he | he | ⟨i, hi, hz, he⟩ := reapReported_cases k <;> rw [he]
    · exact h
    · exact h.own rfl rfl
    · exact (h.zombie hs.toSound hr hu (procFind_some hi).1 hz).own rfl rfl
  | waited _ i hi =>
    obtain ⟨⟨hui, -⟩, hz⟩ := zombieChild_spec hi
    exact h.zombie hs.toSound hr hu hui hz

theorem InBooks.parts (hp : Parts c k k') : InBooks D k' :=
  parts_invariant hs hb (fun _ _ hsh hbb hi hd => hi.does hsh hbb hd) h hp

theorem InBooks.sysCall (c : Call) : InBooks D (sysCall k c).1 :=
  h.parts hs hb (sysCall_parts c)

end

end

def savedTables (k : Machine) (t : Nat) : Option Table := (k.states t).map FdState.table

theorem tables_idle (hb : busy k.phase = false) : tables k = savedTables k := by
  funext t
  rw [tables, live_idle hb, savedTables]
  simp

theorem savedTables_aside (hb : busy k.phase = true) (p : Proc) :
    savedTables (aside k p) = tables k := by
  funext t
  have hst : (aside k p).states = (saveFds k k.current).states := rfl
  rw [savedTables, hst, tables, live_busy hb, saveFds, cur]
  cases hf : (k.procs k.current).fdState with
  | none => simp
  | some t' =>
    by_cases he : t = t'
    · subst he
      simp only [update_self, map_map, if_true]
      rfl
    · have hne : ¬ some t' = some t := fun hc => he (some.inj hc).symm
      simp only [update_of_ne he, if_neg hne]

theorem Framed.aside (hu : p.used = (cur k).used) (hf : p.fdState = (cur k).fdState) :
    Framed k (aside k p) := by
  refine ⟨rfl, fun t => ?_, fun i => ?_, fun _ h => h⟩
  · have hst : (Phases.aside k p).states = (saveFds k k.current).states := rfl
    rw [hst, saveFds]
    split
    · rfl
    rename_i t' _
    by_cases he : t = t'
    · subst he
      simp only [update_self, map_map]
      rfl
    · simp only [update_of_ne he]
  · obtain ⟨rfl, he⟩ | ⟨-, he⟩ := row_set (b := Phases.aside k p) rfl i <;> rw [he]
    · exact ⟨hu, fun _ => hf⟩
    · exact ⟨rfl, fun _ => rfl⟩

section

variable (h : InBooks D k) (hb : busy k.phase = true) (hu : p.used = (cur k).used)
include h hb hu

theorem InBooks.shelve (hf : p.fdState = (cur k).fdState) :
    Balanced D (aside k p) (savedTables (aside k p)) := by
  rw [savedTables_aside hb]
  exact Balanced.level h (Framed.aside hu hf) (fun _ => rfl) (.refl D _)

theorem InBooks.stay (hf : p.fdState = (cur k).fdState) : InBooks D (aside k p) := by
  have ht : tables (aside k p) = tables k := by
    have hl : live (aside k p) = live k := live_congr rfl (by rw [aside_cur]; exact hf)
    rw [← savedTables_aside hb p]
    funext t
    rw [tables, savedTables, hl]
    cases hs : (aside k p).states t with
    | none => rfl
    | some f =>
      split
      · rename_i hlt
        have hsv := congrFun (savedTables_aside hb p) t
        rw [savedTables, hs] at hsv
        have hsome : (k.states t).isSome = true := by
          rw [← (Framed.aside hu hf).isSome, hs]
          rfl
        rw [tables_live hlt hsome] at hsv
        exact hsv.symm
      · rfl
  rw [InBooks, ht]
  exact Balanced.level h (Framed.aside hu hf) (fun _ => rfl) (.refl D _)

end

theorem Balanced.load (h : Balanced D k (savedTables k)) (hb : busy ph = true)
    (hr : runnable (k.procs i) = true) : InBooks D (setPhase (schedLoad k i) ph) := by
  obtain ⟨hu, -, -⟩ := runnable_spec hr
  have hframe : Framed k (setPhase (schedLoad k i) ph) := by
    refine ⟨rfl, fun _ => rfl, fun l => ?_, fun _ h => h⟩
    obtain ⟨rfl, he⟩ | ⟨-, he⟩ := row_set (b := setPhase (schedLoad k i) ph) rfl l <;> rw [he]
    · exact ⟨rfl, fun _ => rfl⟩
    · exact ⟨rfl, fun _ => rfl⟩
  have ht : tables (setPhase (schedLoad k i) ph) = savedTables k := by
    have hself : cur (setPhase (schedLoad k i) ph) = { k.procs i with state := .running } := setProc_self
    have hcur : (cur (setPhase (schedLoad k i) ph)).fdState = (k.procs i).fdState := by rw [hself]
    funext t
    have hst : (setPhase (schedLoad k i) ph).states = k.states := rfl
    have hfds : (setPhase (schedLoad k i) ph).fds = (savedTable k (k.procs i)).getD k.fds := rfl
    rw [tables, live_busy hb, hcur, savedTables, hst, hfds, savedTable]
    cases hs : k.states t with
    | none => rfl
    | some f =>
      split
      · rename_i hf
        rw [hf, bind_some, hs]
        rfl
      · rfl
  rw [InBooks, ht]
  exact Balanced.level h hframe (fun _ => rfl) (.refl D _)

section

variable (h : InBooks D k)
include h

theorem InBooks.onto (hb : busy k.phase = busy ph) : InBooks D (setPhase k ph) := by
  refine h.same rfl rfl rfl rfl rfl ?_ rfl
  rw [live, live, hb]
  rfl

theorem InBooks.after (hb : busy k.phase = true) (fl : Flow) : InBooks D (after k fl) := by
  cases fl with
  | ret v =>
    have h1 : InBooks D (setEax k v) := h.same rfl rfl rfl rfl rfl rfl rfl
    exact h1.onto hb
  | block | spin => exact h.onto hb

theorem InBooks.notified (hn : Notified k k') : InBooks D k' := by
  obtain ⟨m, eip, sp, eax, sig, rfl⟩ := hn
  have hown : InBooks D (setProc k k.current { cur k with sig := sig }) := h.own rfl rfl
  exact hown.same rfl rfl rfl rfl rfl rfl rfl

theorem InBooks.reaps (hs : Sound k) (hb : busy k.phase = false) (hr : Reaps k k') :
    InBooks D k' := by
  refine hr.keeps h fun b i hpre ih hu hi hc _ => ?_
  have hf := (Sound.culled hs hpre.culled).formed i hi hu
  refine ih.reap hu hc hf.fdState hf.retained fun hb' => ?_
  rw [hpre.culled.phase, hb] at hb'
  cases hb'

theorem InBooks.started (hb : busy k.phase = false) (hf : freeSlot k = some i) (b : User.Window.Brk)
    (m : UserMem) (f : Regs) : InBooks D (started k i b m f) := by
  have hself : (Phases.started k i b m f).procs i = starter k b := setProc_self
  have hother : ∀ j, j ≠ i → (Phases.started k i b m f).procs j = k.procs j :=
    fun j hj => setProc_ne hj
  have hplain : ∀ fd, refers (userFdsReset fd).kind = false := by decide
  have hzero : ∀ p : Desc → Bool, (∀ x : Desc, refers x.kind = false → p x = false) →
    many p userFdsReset = 0 := by
    intro p hp
    rw [many_sum]
    exact Finset.sum_eq_zero fun fd _ => by rw [hp _ (hplain fd)]; rfl
  have hend : ∀ j, many (isEnd j) userFdsReset = 0 := fun j => hzero _ fun x hx => isEnd_of_ne (by
    intro hk
    rw [hk] at hx
    cases hx)
  have hopen : ∀ s, many (isOpen s) userFdsReset = 0 := fun s => hzero _ fun x hx =>
    isOpen_of_ne (by
    intro hk
    rw [hk] at hx
    cases hx)
  have ht : tables (Phases.started k i b m f) = update (tables k) k.nextState
    (some userFdsReset) := by
    have hcur : cur (Phases.started k i b m f) = starter k b := setProc_self
    have hlive : live (Phases.started k i b m f) = some k.nextState := by
      rw [live_busy rfl, hcur]
      rfl
    have hst : (Phases.started k i b m f).states = update k.states k.nextState
      (some ⟨1, userFdsReset⟩) := rfl
    funext t
    rw [tables, hlive, hst]
    by_cases he : t = k.nextState
    · rw [he, update_self, update_self, map_some, if_pos rfl]
      rfl
    · have hne : ¬ some k.nextState = some t := fun hc => he (some.inj hc).symm
      rw [update_of_ne he, update_of_ne he, tables_idle hb, savedTables]
      simp only [if_neg hne]
  rw [InBooks, ht]
  refine Balanced.enrol h (c := i) (freeSlot_unused hf) rfl rfl (by rw [hself]; exact ⟨rfl, rfl⟩)
    (fun j hj => by rw [hother j hj]; exact ⟨rfl, rfl⟩) (fun _ => rfl)
    (fun fd => .plain (hplain fd)) ?_
  refine Charged.congr ⟨h.charged.writers, h.charged.files⟩ (fun j => ?_) fun s => ?_
  · rw [hend, add_zero]
  · rw [hopen, add_zero]

theorem InBooks.stepped {a : Act} (hs : Shape k) (hst : Stepped k a k') : InBooks D k' := by
  cases hst with
  | compute | shellKey => exact h.same rfl rfl rfl rfl rfl rfl rfl
  | call c k1 fl hp hc =>
    have hb := busy_at hp
    have h1 : InBooks D (inCall k) := h.same rfl rfl rfl rfl rfl rfl rfl
    have hs1 := hs.entered
    have h2 := h1.sysCall hs1 hb c
    have hph := (hs1.sysCall hb c).2
    rw [hc] at h2 hph
    exact h2.after (hph ▸ hb) fl
  | exit code hp =>
    have h1 : InBooks D { k with frameSwitched := false, active := false } :=
      h.same rfl rfl rfl rfl rfl rfl rfl
    exact h1.onto ((busy_at hp).trans rfl)
  | fault hp ha =>
    have h1 : InBooks D { k with active := false } := h.same rfl rfl rfl rfl rfl rfl rfl
    exact h1.onto ((busy_at hp).trans rfl)
  | tick hp =>
    have h1 : InBooks D (counted k) := h.same rfl rfl rfl rfl rfl rfl rfl
    have hw := (ticked_woke k).toStirred
    refine (h1.stirred hw).onto ?_
    rw [hw.phase, hp]
    rfl
  | idle hp hn =>
    have h1 : InBooks D (counted k) := h.same rfl rfl rfl rfl rfl rfl rfl
    exact h1.stirred (ticked_woke k).toStirred
  | key c hp => exact h.stirred (typed_woke k c).toStirred
  | sleep r o i hp hf hi =>
    have hb := busy_at hp
    have h1 : Balanced D (aside k (sleeper k r)) _ := h.shelve hb rfl rfl
    exact Balanced.load h1 rfl (pickFrom_runnable hi)
  | awake r o hp hf hn =>
    have hb := busy_at hp
    have h1 : InBooks D (aside k (sleepless k r)) := h.stay hb rfl rfl
    have h2 : InBooks D (stayed k r) := h1.same rfl rfl rfl rfl rfl rfl rfl
    exact h2.after hb _
  | tableless r o hp hf => exact h.after (busy_at hp) _
  | leave k1 d hp hd =>
    have hnote := delivered_notified hd
    refine (h.notified hnote).onto ?_
    rw [Notified.phase hnote, hp, busy_onward d rfl]
    rfl
  | ignored hp hn => exact h.onto ((busy_at hp).trans rfl)
  | alarm k1 d hp hd =>
    have hnote := delivered_notified hd
    refine (h.notified hnote).onto ?_
    rw [Notified.phase hnote, hp, busy_onward d (busy_tickEnd k1 d)]
    rfl
  | yield i hp hi hne =>
    have hb := busy_at hp
    have h1 : Balanced D (yields k) _ := h.shelve hb rfl rfl
    exact Balanced.load h1 rfl (pickFrom_runnable hi)
  | keep hp =>
    have hb := busy_at hp
    have h1 : InBooks D (aside k (yielder k .running)) := h.stay hb rfl rfl
    exact h1.onto hb
  | die code faulted sys hp =>
    have hb := busy_at hp
    have h1 : Balanced D (aside k (exited k code faulted)) _ := h.shelve hb rfl rfl
    have h2 : Balanced D (ended k code faulted) (savedTables (aside k (exited k code faulted))) :=
      Balanced.level h1 ⟨rfl, fun _ => rfl, fun _ => ⟨rfl, fun _ => rfl⟩, fun _ hu => hu⟩
        (fun _ => rfl) (.refl D _)
    have hst := procWakeParent_stirred (ended k code faulted) (exited k code faulted)
    have h3 := Balanced.stirred h2 hst
    have hstates := hst.states
    generalize procWakeParent (ended k code faulted) (exited k code faulted) = k1 at *
    have ht : tables (setPhase k1 (.picking sys)) = savedTables (aside k (exited k code faulted)) := by
      funext t
      exact congrArg (Option.map FdState.table) (congrFun hstates t)
    rw [InBooks, ht]
    exact Balanced.level h3 ⟨rfl, fun _ => rfl, fun _ => ⟨rfl, fun _ => rfl⟩, fun _ hu => hu⟩
      (fun _ => rfl) (.refl D _)
  | pick sys i hp hi =>
    have h1 : Balanced D k (savedTables k) := by
      rw [← tables_idle (by rw [hp]; rfl)]
      exact h
    exact Balanced.load h1 (by split <;> rfl) (pickFrom_runnable hi)
  | back _ _ hp | lost _ hp =>
    have hl0 : live k = none := live_idle (by rw [hp]; rfl)
    exact h.rows (fun _ => ⟨rfl, fun _ => rfl⟩) rfl rfl rfl rfl hl0.symm (.inr hl0)
  | finish l hp =>
    have hb : busy k.phase = false := by rw [hp]; rfl
    obtain ⟨k1, hreap, hcur, he⟩ := hs.finish_reaps hp
    have h1 : InBooks D (halted k) := h.same rfl rfl rfl rfl rfl rfl rfl
    have h2 := h1.reaps (hs.toSound.congr rfl rfl) hb hreap
    have hl1 : live k1 = none := live_idle (by rw [hreap.culled.phase]; exact hb)
    rw [he]
    exact h2.rows (fun _ => ⟨rfl, fun _ => rfl⟩) rfl rfl rfl rfl hl1.symm (.inr hl1)
  | launch frames l hp ha =>
    have hb : busy k.phase = false := by rw [hp]; rfl
    refine hs.launch_elim hp frames l h (fun _ _ _ _ _ _ _ _ hi hu => ?_) fun _ b m f hi _ =>
      h.started hb hi b m f
    have hl0 := live_idle hb
    exact h.slipped hi hu rfl rfl rfl rfl rfl (Eq.trans (live_idle hb) hl0.symm) (.inr hl0)
  | refuse frames l hp ha => exact h
  | shell o hp ho =>
    have ht : tables { k with ram := (Fs.RamFs.call k.ram o).ram } = tables k := rfl
    refine Balanced.level h ((Framed.refl k).setRam _) (fun _ => rfl) (call_keeps o fun slot => ⟨?_, ?_⟩)
    · rintro rfl
      cases ho
    · rintro rfl
      cases ho
  | spinDone v takesKey out m hp =>
    have h1 : InBooks D (spun k takesKey m) :=
      h.same rfl rfl rfl rfl rfl rfl rfl
    exact h1.after (busy_at hp) _

end

variable {r : Ram} {mem : UserMem} {cow : Cow} {as : List Act}

section

variable (hD : ∀ s, D s → isUsed (r.tables.files s) = true → (r.tables.files s).deleted = 0#32)
include hD

theorem boot_books : InBooks D (boot r mem cow) := by
  have hnone : ∀ t, (boot r mem cow).states t = none := fun _ => rfl
  have hempty : ∀ t, tables (boot r mem cow) t = none := fun _ => rfl
  have hzero : ∀ p : Desc → Bool, tally (tables (boot r mem cow)) (boot r mem cow).nextState
    (many p) = 0 :=
    fun p => tally_empty (fun t _ => hempty t) _
  refine ⟨fun t _ => hnone t, fun _ => rfl, fun i t hu hi => ?_, fun t f hf => ?_,
    fun t v fd ht => ?_, ?_⟩
  · have hfd : ((boot r mem cow).procs i).fdState = none := by
      simp only [boot]
      split <;> rfl
    cases hfd.symm.trans hi
  · cases (hnone t).symm.trans hf
  · cases (hempty t).symm.trans ht
  · refine Charged.congr
      ⟨fun _ => rfl, ⟨⟨fun s hs => absurd rfl hs, fun s hd hu hdel => ?_⟩, fun _ => rfl⟩⟩
      (fun j => hzero _) fun s => hzero _
    exact absurd (hD s hd hu) hdel

theorem books_run (h : run step (boot r mem cow) as = some k) : InBooks D k :=
  holds_run (boot_books hD) (fun _ _ _ hs hi hst => hi.stepped hs hst) h

end

def heldTables (k : Machine) : Finset Nat :=
  Finset.univ.biUnion (fun i => if (k.procs i).used then (k.procs i).fdState.toFinset else ∅)

def tableOf (k : Machine) (t : Nat) : Table := (tables k t).getD (fun _ => emptyDesc)

theorem mem_heldTables : t ∈ heldTables k ↔ ∃ i, (k.procs i).used = true ∧
    (k.procs i).fdState = some t := by
  simp only [heldTables, Finset.mem_biUnion, Finset.mem_univ, true_and]
  refine exists_congr fun i => ?_
  by_cases hu : (k.procs i).used = true
  · simp [hu]
  · simp [hu]

theorem InBooks.held_iff (h : InBooks D k) : t ∈ heldTables k ↔ (tables k t).isSome = true := by
  rw [mem_heldTables, h.dom]
  refine ⟨fun ⟨i, hu, hi⟩ => h.held i t hu hi, fun hs => ?_⟩
  obtain ⟨f, hf⟩ := isSome_iff_exists.mp hs
  obtain ⟨hpos, hcard⟩ := h.refs t f hf
  obtain ⟨i, hi⟩ := Finset.card_pos.mp (hcard ▸ hpos)
  exact ⟨i, mem_holders.mp hi⟩

theorem InBooks.total (h : InBooks D k) (w : Table → Nat) :
    tally (tables k) k.nextState w = ∑ t ∈ heldTables k, w (tableOf k t) := by
  have hsub : heldTables k ⊆ Finset.range k.nextState := by
    intro t ht
    obtain ⟨v, hv⟩ := isSome_iff_exists.mp (h.held_iff.mp ht)
    exact Finset.mem_range.mpr (Balanced.lt h hv)
  rw [tally, ← Finset.sum_subset hsub]
  · refine Finset.sum_congr rfl (fun t ht => ?_)
    obtain ⟨v, hv⟩ := isSome_iff_exists.mp (h.held_iff.mp ht)
    rw [tableOf, hv]
    rfl
  · intro t _ hn
    rw [h.held_iff] at hn
    rw [not_isSome_iff_eq_none.mp hn]
    rfl

/-- Every writer count is the number of write ends, and every reference count the
number of entries of the file, in all tables. -/
theorem counts_are_entries (h : run step (boot r mem cow) as = some k) :
    (∀ j, (k.pipes j).writers = ((∑ t ∈ heldTables k, many (isEnd j) (tableOf k t) : Nat) : Int)) ∧
      ∀ s, (k.ram.refs s).toNat = ∑ t ∈ heldTables k, many (isOpen s) (tableOf k t) := by
  have hb : InBooks (fun _ => False) k := books_run (fun _ hf => absurd hf id) h
  refine ⟨fun j => ?_, fun s => ?_⟩
  · rw [← hb.total]
    exact hb.charged.writers j
  · have hlt := Balanced.bound hb s
    rw [hb.charged.files.refs s, ← hb.total]
    exact mod_eq_of_lt (by omega)

def noWorld : World := ⟨false, 0, fun _ _ => [], fun _ => 0#32, fun _ _ => 0⟩

def pipeAndFork : List Act :=
  [enter, .sys (.pipe 0x08840000#32 noWorld []), .go, .sys (.fork none), .go]

theorem counts_are_entries_two : ∃ k, run step plain pipeAndFork = some k ∧
    (k.pipes 0).writers = 2 ∧ ∑ t ∈ heldTables k, many (isEnd 0) (tableOf k t) = 2 := by
  obtain ⟨k, hk, hw⟩ : ∃ k, run step plain pipeAndFork = some k ∧ (k.pipes 0).writers = 2 := by
    decide +kernel
  refine ⟨k, hk, hw, ?_⟩
  have hc := (counts_are_entries hk).1 0
  omega

end

/-- No descriptor table leaks or dangles: its count is the number of its holders, and no
process is without. -/
theorem tables_counted (h : run step (boot r mem cow) as = some k) :
    (∀ t f, k.states t = some f → f.refs = (holders k t).card ∧ (holders k t).Nonempty) ∧
      ∀ i, i ≠ 0 → (k.procs i).used = true → ∃ t f, (k.procs i).fdState = some t ∧
      k.states t = some f := by
  have hb : InBooks (fun _ => False) k := books_run (fun _ hf => absurd hf id) h
  refine ⟨fun t f hf => ?_, fun i hi hu => ?_⟩
  · obtain ⟨hpos, hc⟩ := hb.refs t f hf
    exact ⟨hc, Finset.card_pos.mp (hc ▸ hpos)⟩
  · obtain ⟨t, ht⟩ := isSome_iff_exists.mp ((shape_run h).formed i hi hu).fdState
    obtain ⟨f, hf⟩ := isSome_iff_exists.mp (hb.held i t hu ht)
    exact ⟨t, f, ht, hf⟩

theorem tables_counted_forked : ∃ k, run step plain pipeAndFork = some k ∧
    ∃ t f, (k.procs 2).fdState = some t ∧ k.states t = some f := by
  obtain ⟨k, hk, hu⟩ : ∃ k, run step plain pipeAndFork = some k ∧ (k.procs 2).used = true := by
    decide +kernel
  exact ⟨k, hk, (tables_counted hk).2 2 (by decide) hu⟩

end MuOS.Kernel.Holdings
