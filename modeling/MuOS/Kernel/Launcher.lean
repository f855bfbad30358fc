import Mathlib.Data.Fintype.Card
import MuOS.Kernel.Rows

namespace MuOS.Kernel.Launcher

open Lib.Runs State Wake Sched Calls Stir Prims ProcTable Step Phases Layout Rows Tables Traps
  Finset Option

variable {k k' k1 : Machine} {c : Call} {a : Act} {i j l : Fin 8} {r : Fs.RamFs.Ram} {mem : UserMem}
  {cow : Cow} {as : List Act} {p p' : Proc}

def Ended (k : Machine) : Prop :=
  ∀ l, k.phase = .returned l → (k.procs l).used = true ∧ (k.procs l).state = .zombie

/-- When an exit leaves none to run, the launched one is not blocked. -/
def SparesLaunched (k : Machine) (a : Act) : Prop :=
  ∀ sys l, k.phase = .picking sys → a = .go → pickFrom k 0 = none → k.launched = some l →
    (k.procs l).state ≠ .blocked

theorem pickFrom_none (h : pickFrom k 0 = none) (i : Fin 8) : runnable (k.procs i) = false := by
  rw [pickFrom, List.find?_eq_none] at h
  refine Bool.eq_false_iff.mpr (h i ?_)
  rw [List.mem_map]
  refine ⟨i.val, List.mem_range.mpr i.isLt, ?_⟩
  apply Fin.ext
  simp only [Fin.ofNat]
  omega

theorem Shape.launched_state (h : Shape k) {sys : Bool} (hp : k.phase = .picking sys)
    (hn : pickFrom k 0 = none) (hl : k.launched = some l) : (k.procs l).state = .blocked ∨
    (k.procs l).state = .zombie := by
  obtain ⟨h0, hu, -⟩ := h.root l hl
  have hf := h.formed l h0 hu
  have hrun := (h.picking hp).still l h0 hu
  have hpid := h.pids l h0 hu
  have hready : (k.procs l).state ≠ .ready := by
    intro hr
    have hno := pickFrom_none hn l
    simp only [runnable, isUser, hu, hr, hf.hasCtx (.inl hr)] at hno
    simp only [Bool.true_and, beq_self_eq_true, Bool.and_true, bne_eq_false_iff_eq] at hno
    omega
  cases hs : (k.procs l).state with
  | free => exact absurd hs hf.state
  | running => exact absurd hs hrun
  | ready => exact absurd hs hready
  | blocked => exact .inl rfl
  | zombie => exact .inr rfl

theorem Ended.stepped (hs : Shape k) (h : Ended k) (hok : SparesLaunched k a)
    (hst : Stepped k a k') : Ended k' := by
  have hwoke : ∀ {k1 : Machine}, Woke k1 k' → k1.phase = k.phase → k1.procs = k.procs →
    Ended k' := by
    intro k1 hw hph hp l hl
    obtain ⟨hu, hz⟩ := h l ((hph.symm.trans hw.phase.symm).trans hl)
    have hrow := hw.procs l
    rw [hp] at hrow
    exact ⟨hrow.used.trans hu, (Roused.zombie hrow).mpr hz⟩
  have hbusy : busy k'.phase = true → Ended k' := by
    intro hb l hl
    rw [hl] at hb
    cases hb
  cases hst with
  | compute | refuse | shell | shellKey => exact h
  | call c k1 fl hp hc => exact hbusy (by cases fl <;> rfl)
  | exit | fault | tick | sleep | ignored | yield | keep | spinDone => exact hbusy rfl
  | idle hp hn => exact hwoke (ticked_woke k) rfl rfl
  | key c hp => exact hwoke (typed_woke k c) rfl rfl
  | awake _ o | tableless _ o => exact hbusy (by cases o <;> rfl)
  | leave k1 d hp hd => exact hbusy (busy_onward d rfl)
  | alarm k1 d hp hd => exact hbusy (busy_onward d (busy_tickEnd k1 d))
  | die code faulted sys hp => exact fun l hl => by cases hl
  | pick sys i hp hi => exact hbusy (by cases sys <;> rfl)
  | back sys l hp hn hl =>
    intro l' hl'
    obtain rfl : l = l' := by
      cases hl'
      rfl
    refine ⟨(hs.root l hl).2.1, ?_⟩
    exact (Shape.launched_state hs hp hn hl).resolve_left (hok sys l hp rfl hn hl)
  | lost sys hp hn hl => exact fun l hl => by cases hl
  | finish l hp => exact fun l hl => by cases hl
  | launch frames l hp ha =>
    exact hs.launch_elim hp frames l h (fun _ _ _ _ _ _ _ _ _ _ l hl => by cases hp.symm.trans hl)
      (fun _ _ _ _ _ _ l hl => by cases hl)

/-- Control returns to the launcher after its process has ended. -/
theorem returns_after_exit (hm : Meets step SparesLaunched (boot r mem cow) as)
    (h : run step (boot r mem cow) as = some k) (_ : k.nextPid ≤ 4294967296) : Ended k := by
  have hinv := meets_invariant (I := fun k => Shape k ∧ Ended k)
    (fun s a t hi hok ht => ⟨hi.1.stepped (step_stepped ht),
    hi.2.stepped hi.1 hok (step_stepped ht)⟩)
    ⟨boot_shape r mem cow, fun l hl => by cases hl⟩ hm h
  exact hinv.2

def launchedAwake (k : Machine) (_ : Act) : Bool :=
  match k.phase, k.launched with
  | .picking _, some l => (k.procs l).state != .blocked
  | _, _ => true

theorem launchedAwake_spares (k : Machine) (a : Act) (h : launchedAwake k a = true) :
    SparesLaunched k a := by
  intro sys l hp _ _ hl
  simp only [launchedAwake, hp, hl] at h
  simpa using h

/-- The program forks and waits; the child exits, then the program. -/
def waitsAndExits : List Act :=
  [enter, .sys (.fork none), .go, .sys (.wait4 (-1) 0#32 0#32), .go, .go, .exit 7#32, .go, .go, .go,
    .exit 0#32, .go, .go]

theorem returns_after_exit_sample :
    ∃ k, run step plain waitsAndExits = some k ∧ k.phase = .returned 1 ∧
    (k.procs 1).state = .zombie := by
  have hm : Meets step SparesLaunched plain waitsAndExits :=
    checks_meets launchedAwake_spares (by decide +kernel)
  obtain ⟨k, hk, hp, hn⟩ : ∃ k, run step plain waitsAndExits = some k ∧
      returnedTo k.phase = some 1 ∧ k.nextPid ≤ 4294967296 := by
    decide +kernel
  have hph := returnedTo_eq hp
  exact ⟨k, hk, hph, (returns_after_exit hm hk hn 1 hph).2⟩

/-- A child forks and exits; the program reads the console, its grandchild exits. -/
def readsConsole : List Act :=
  [enter, .sys (.fork none), .go, .tick, .go, .go, .sys (.fork none), .go, .exit 0#32,
    .go, .go, .go,
    .sys (.read 0#32 0x08049000#32 1#32 ⟨false, 0, fun _ _ => [], fun _ => 0#32, fun _ _ => 0⟩ []),
    .go, .go, .exit 0#32, .go, .go]

theorem blocked_program_is_left :
    ∃ k, run step plain readsConsole = some k ∧ k.phase = .returned 1 ∧
    (k.procs 1).state = .blocked ∧ ¬ Ended k := by
  obtain ⟨k, hk, hp, hb⟩ : ∃ k, run step plain readsConsole = some k ∧ returnedTo k.phase = some 1 ∧
      (k.procs 1).state = .blocked := by
    decide +kernel
  have hph := returnedTo_eq hp
  refine ⟨k, hk, hph, hb, fun he => ?_⟩
  cases hb.symm.trans (he 1 hph).2

def place (p : Proc) : Bool × Nat × Nat := (p.used, p.pid, p.ppid)

theorem Fit.place (h : Fit p p') : place p' = place p := by
  rw [Launcher.place, Launcher.place, h.used, h.pid, h.ppid]

theorem Roused.place (h : Roused p p') : place p' = place p := h.field _ fun _ => rfl

theorem place_eq (h : place p' = place p) : p'.used = p.used ∧ p'.pid = p.pid ∧
    p'.ppid = p.ppid := by
  simpa only [place, Prod.mk.injEq] using h

theorem place_setProc (h : place p = place (k.procs j)) (i : Fin 8) :
    place ((setProc k j p).procs i) = place (k.procs i) := by
  obtain ⟨rfl, he⟩ | ⟨-, he⟩ := row_set (b := setProc k j p) rfl i <;> rw [he]
  exact h

theorem place_load (k : Machine) (i : Fin 8) (ph : Phase) (j : Fin 8) :
    place ((setPhase (schedLoad k i) ph).procs j) = place (k.procs j) :=
  place_setProc (p := { k.procs i with state := .running }) rfl j

structure Settled (k k' : Machine) : Prop where
  place : ∀ i, place (k'.procs i) = place (k.procs i)
  launched : k'.launched = k.launched
  shell : k'.phase = .shell → k.phase = .shell

theorem Stepped.settled (hs : Shape k) (h : Stepped k a k') :
    (∃ c, a = .sys c) ∨ (∃ l, k.phase = .returned l ∧ a = .go) ∨ (∃ f l, a = .launch f l) ∨
    Settled k k' := by
  have hrow : (∀ i, place (k'.procs i) = place (k.procs i)) → k'.launched = k.launched →
      (k'.phase = .shell → k.phase = .shell) →
      (∃ c, a = .sys c) ∨ (∃ l, k.phase = .returned l ∧ a = .go) ∨ (∃ f l, a = .launch f l) ∨
      Settled k k' :=
    fun h1 h2 h3 => .inr (.inr (.inr ⟨h1, h2, h3⟩))
  have haside : ∀ p : Proc, place p = place (cur k) →
    ∀ i, place ((aside k p).procs i) = place (k.procs i) :=
    fun p hp => place_setProc hp
  have hbusy : ∀ {ph : Phase}, busy ph = true → ph = .shell → k.phase = .shell :=
    fun hb he => absurd he (busy_ne hb).1
  cases h with
  | call c => exact .inl ⟨c, rfl⟩
  | finish l hp => exact .inr (.inl ⟨l, hp, rfl⟩)
  | launch frames l => exact .inr (.inr (.inl ⟨frames, l, rfl⟩))
  | refuse | compute | shell | shellKey => exact hrow (fun _ => rfl) rfl id
  | exit | fault | ignored | spinDone => exact hrow (fun _ => rfl) rfl (hbusy rfl)
  | tick hp =>
    exact hrow (fun i => Roused.place ((ticked_woke k).procs i)) (ticked_woke k).launched (hbusy rfl)
  | idle hp hn =>
    exact hrow (fun i => Roused.place ((ticked_woke k).procs i)) (ticked_woke k).launched
      (fun h => (ticked_woke k).phase.symm.trans h)
  | key c hp =>
    exact hrow (fun i => Roused.place ((typed_woke k c).procs i)) (typed_woke k c).launched
      (fun h => (typed_woke k c).phase.symm.trans h)
  | sleep r o j hp =>
    exact hrow (fun i => (place_load _ j _ i).trans (haside (sleeper k r) rfl i)) rfl (hbusy rfl)
  | awake r o hp => cases o <;> exact hrow (haside (sleepless k r) rfl) rfl (hbusy rfl)
  | tableless r o hp => cases o <;> exact hrow (fun _ => rfl) rfl (hbusy rfl)
  | leave k1 d hp hd =>
    have hnote := delivered_notified hd
    have hfit := Notified.fits hnote
    obtain ⟨m, eip, sp, eax, sig, rfl⟩ := hnote
    exact hrow (fun i => Fit.place (hfit i)) rfl (hbusy (busy_onward d rfl))
  | alarm k1 d hp hd =>
    have hnote := delivered_notified hd
    have hfit := Notified.fits hnote
    obtain ⟨m, eip, sp, eax, sig, rfl⟩ := hnote
    exact hrow (fun i => Fit.place (hfit i)) rfl (hbusy (busy_onward d (busy_tickEnd _ d)))
  | yield j hp =>
    exact hrow (fun i => (place_load _ j _ i).trans (haside (yielder k .ready) rfl i)) rfl (hbusy rfl)
  | keep hp => exact hrow (haside (yielder k .running) rfl) rfl (hbusy rfl)
  | die code faulted sys hp =>
    have hst := procWakeParent_stirred (ended k code faulted) (exited k code faulted)
    exact hrow (fun i => (Roused.place (hst.procs i)).trans (haside (exited k code faulted) rfl i))
      hst.launched
      (fun h => by cases h)
  | pick sys j hp => cases sys <;> exact hrow (place_load k j _) rfl (hbusy rfl)
  | back sys l hp => exact hrow (fun _ => rfl) rfl fun h => by cases h
  | lost sys hp hn hl =>
    have ho := hs.outer (by rw [hp]; simp)
    rw [hl] at ho
    cases ho

/-- Who is there was there before, or is the caller's new child. -/
structure Kinship (k k' : Machine) : Prop where
  there : ∀ i, (k'.procs i).used = true → place (k'.procs i) = place (k.procs i) ∨
    (k'.procs i).ppid = (cur k).pid ∧ k.nextPid ≤ (k'.procs i).pid
  next : k.nextPid ≤ k'.nextPid
  caller : place (cur k') = place (cur k)
  current : k'.current = k.current
  launched : k'.launched = k.launched
  phase : k'.phase = k.phase

theorem Kinship.refl (k : Machine) : Kinship k k :=
  ⟨fun _ _ => .inl rfl, le_rfl, rfl, rfl, rfl, rfl⟩

theorem Kinship.trans (h : Kinship k k1) (h' : Kinship k1 k') : Kinship k k' where
  there := by
    intro i hu
    rcases h'.there i hu with hp | ⟨hp, hn⟩
    · rw [hp]
      obtain ⟨hu1, hpid, hpp⟩ := place_eq hp
      rcases h.there i (hu1 ▸ hu) with hq | ⟨hq, hm⟩
      · exact .inl hq
      rw [hpid, hpp]
      exact .inr ⟨hq, hm⟩
    · refine .inr ⟨hp.trans (place_eq h.caller).2.1, h.next.trans hn⟩
  next := h.next.trans h'.next
  caller := h'.caller.trans h.caller
  current := h'.current.trans h.current
  launched := h'.launched.trans h.launched
  phase := h'.phase.trans h.phase

theorem Turned.kinship (h : Turned k k') (hu : (cur k).used = true)
    (hr : (cur k).state = .running) : Kinship k k' := by
  refine ⟨fun i hui => ?_, h.nextPid, Fit.place (h.cur_fit hu hr), h.current, h.launched, h.phase⟩
  obtain ⟨c, hc, ho⟩ := h.turn
  by_cases hi : i = c
  · subst hi
    cases hc with
    | fit hf => exact .inl (Fit.place hf)
    | slipped _ hn => cases hn.symm.trans hui
    | born _ hb _ hp _ => exact .inr ⟨hp, hb.pid.ge⟩
    | reaped _ _ _ he =>
      rw [he] at hui
      cases hui
  · exact .inl (Fit.place (ho i hi))

theorem Parts.kinship (hs : Shape k) (hb : busy k.phase = true) (h : Parts c k k') :
    Kinship k k' := by
  refine parts_invariant hs hb (fun k1 k2 hsh hbb hk hd => ?_) (.refl k) h
  obtain ⟨-, hu, hr⟩ := hsh.cpu hbb
  exact hk.trans (Turned.kinship (hsh.does hbb hd) hu hr)

/-- All but the launched one have a parent in the table, and are younger. -/
structure Family (k : Machine) : Prop where
  parent : ∀ i, i ≠ 0 → (k.procs i).used = true → (k.procs i).ppid = 1 ∨
    ∃ j, j ≠ 0 ∧ (k.procs j).used = true ∧ (k.procs j).pid = (k.procs i).ppid
  older : ∀ i, i ≠ 0 → (k.procs i).used = true → (k.procs i).ppid < (k.procs i).pid

theorem Family.place (h : Family k) (hp : ∀ i, place (k'.procs i) = place (k.procs i)) :
    Family k' := by
  refine ⟨fun i hi hu => ?_, fun i hi hu => ?_⟩
  · obtain ⟨hu', hpid, hpp⟩ := place_eq (hp i)
    rw [hpp]
    rcases h.parent i hi (hu' ▸ hu) with h1 | ⟨j, hj, huj, hpj⟩
    · exact .inl h1
    obtain ⟨huj', hpidj, -⟩ := place_eq (hp j)
    exact .inr ⟨j, hj, huj'.trans huj, hpidj.trans hpj⟩
  · obtain ⟨hu', hpid, hpp⟩ := place_eq (hp i)
    rw [hpid, hpp]
    exact h.older i hi (hu' ▸ hu)

theorem Family.empty (h : Family k) (hno : ∀ i, i ≠ 0 → (k.procs i).used = true →
    (k.procs i).ppid ≠ 1) (i : Fin 8)
    (hi : i ≠ 0) : (k.procs i).used = false := by
  -- by strong induction on the number of the process: its parent has a smaller one
  have hall : ∀ n i, i ≠ 0 → (k.procs i).pid = n → (k.procs i).used ≠ true := by
    intro n
    induction n using Nat.strong_induction_on with
    | h n ih =>
      intro i hi hn hu
      rcases h.parent i hi hu with h1 | ⟨j, hj, huj, hpj⟩
      · exact hno i hi hu h1
      have hlt := h.older i hi hu
      exact ih (k.procs j).pid (by omega) j hj rfl huj
  exact Bool.eq_false_iff.mpr (hall _ i hi rfl)

/-- The processes that are younger than `pid`. -/
def younger (k : Machine) (pid : Nat) : Finset (Fin 8) :=
  Finset.univ.filter (fun i => i ≠ 0 ∧ (k.procs i).used = true ∧ pid < (k.procs i).pid)

theorem younger_culled (h : Culled k k') (pid : Nat) : younger k' pid ⊆ younger k pid := by
  intro i hi
  simp only [younger, mem_filter, mem_univ, true_and] at hi ⊢
  obtain ⟨h0, hu, hp⟩ := hi
  have hf := h.fits i hu
  exact ⟨h0, hf.used ▸ hu, hf.pid ▸ hp⟩

theorem Family.reap (h : Family k) (h0 : k.current = 0) (hi : i ≠ 0)
    (hno : (k.procs i).used = true → ∀ j, j ≠ 0 → (k.procs j).used = true →
    (k.procs j).ppid ≠ (k.procs i).pid) : Family (procReap k i) := by
  by_cases hui : (k.procs i).used = true
  · have hc := procReap_culled h0 hi
    refine ⟨fun j hj hu => ?_, fun j hj hu => ?_⟩ <;> have hf := hc.fits j hu
    on_goal 2 =>
      rw [hf.pid, hf.ppid]
      exact h.older j hj (hf.used ▸ hu)
    have huj : (k.procs j).used = true := hf.used ▸ hu
    rw [hf.ppid]
    rcases h.parent j hj huj with h1 | ⟨m, hm, hum, hpm⟩
    · exact .inl h1
    have hmi : m ≠ i := by
      rintro rfl
      exact hno hui j hj huj hpm.symm
    have hfm := procReap_fit hui (by rw [h0]; exact hi.symm) hmi
    exact .inr ⟨m, hm, hfm.used.trans hum, hfm.pid.trans hpm⟩
  · rw [procReap, if_neg hui]
    exact h

theorem procReap_unused (h0 : k.current = 0) (hi : i ≠ 0) :
    ((procReap k i).procs i).used = false := by
  by_cases hu : (k.procs i).used = true
  · rw [procReap_self hu (by rw [h0]; exact hi.symm)]
    rfl
  · rw [procReap, if_neg hu]
    exact Bool.eq_false_iff.mpr hu

theorem cleanupChildren_family (fuel : Nat) {pid : Nat} (hp : 0 < pid) (hs : Sound k)
    (h0 : k.current = 0)
    (h : Family k) (hf : (younger k pid).card ≤ fuel) : Family (cleanupChildren fuel pid k) ∧
      ∀ i, i ≠ 0 → ((cleanupChildren fuel pid k).procs i).used = true →
      ((cleanupChildren fuel pid k).procs i).ppid ≠ pid := by
  induction fuel generalizing pid k with
  | zero =>
    refine ⟨h, fun i hi hu he => ?_⟩
    have hmem : i ∈ younger k pid := by
      simp only [younger, mem_filter, mem_univ, true_and]
      have hlt := h.older i hi hu
      exact ⟨hi, hu, he ▸ hlt⟩
    rw [card_eq_zero.mp (Nat.le_zero.mp hf)] at hmem
    exact absurd hmem (notMem_empty i)
  | succ fuel ih =>
    -- the slots that the loop has passed hold no child any more
    have hloop : ∀ (l : List (Fin 8)) (k : Machine), Sound k → k.current = 0 → Family k →
        (younger k pid).card ≤ fuel + 1 → Family (l.foldl (cullChild fuel pid) k) ∧
        Culled k (l.foldl (cullChild fuel pid) k) ∧ ∀ i ∈ l, i ≠ 0 →
          ((l.foldl (cullChild fuel pid) k).procs i).used = true →
          ((l.foldl (cullChild fuel pid) k).procs i).ppid ≠ pid := by
      intro l
      induction l with
      | nil => exact fun k _ _ hfam _ => ⟨hfam, .refl k, fun i hi => absurd hi (List.not_mem_nil)⟩
      | cons i l ihl =>
        intro k hs h0 hfam hcard
        have hone : Family (cullChild fuel pid k i) ∧ Culled k (cullChild fuel pid k i) ∧
            (i ≠ 0 → ((cullChild fuel pid k i).procs i).used = true →
            ((cullChild fuel pid k i).procs i).ppid ≠ pid) := by
          rw [cullChild]
          split
          · rename_i hc
            have hi : i ≠ 0 := by
              rintro rfl
              rw [hs.kernel.ppid] at hc
              omega
            have hlt := hfam.older i hi hc.1
            have hsub : (younger k (k.procs i).pid).card ≤ fuel := by
              have hss : younger k (k.procs i).pid ⊂ younger k pid := by
                refine Finset.ssubset_iff_subset_ne.mpr ⟨fun j hj => ?_, fun he => ?_⟩
                · simp only [younger, Finset.mem_filter, Finset.mem_univ, true_and] at hj ⊢
                  exact ⟨hj.1, hj.2.1, by omega⟩
                have hmem : i ∈ younger k pid := by
                  simp only [younger, mem_filter, mem_univ, true_and]
                  exact ⟨hi, hc.1, by omega⟩
                rw [← he] at hmem
                simp only [younger, mem_filter, lt_irrefl, and_false] at hmem
              have := card_lt_card hss
              omega
            obtain ⟨hfam1, hno⟩ := ih (hs.pos hc.1) hs h0 hfam hsub
            have hcull := cleanupChildren_culled fuel (hs.pos hc.1) hs h0
            generalize cleanupChildren fuel (k.procs i).pid k = k1 at hfam1 hno hcull
            have h01 := hcull.current.trans h0
            have hs1 := Sound.culled hs hcull
            refine ⟨hfam1.reap h01 hi fun hui j hj huj => ?_, hcull.trans (procReap_culled h01 hi),
              fun _ hu => ?_⟩
            · rw [(hcull.fits i hui).pid]
              exact hno j hj huj
            · cases (procReap_unused h01 hi).symm.trans hu
          · rename_i hc
            refine ⟨hfam, .refl k, fun hi hu he => hc ⟨hu, ?_, he⟩⟩
            have hlt := hfam.older i hi hu
            omega
        obtain ⟨hfam1, hcull1, hno1⟩ := hone
        have hcard1 := (card_le_card (younger_culled hcull1 pid)).trans hcard
        obtain ⟨hfam2, hcull2, hno2⟩ :=
          ihl _ (Sound.culled hs hcull1) (hcull1.current.trans h0) hfam1 hcard1
        refine ⟨hfam2, hcull1.trans hcull2, fun j hj hj0 hu => ?_⟩
        rcases List.mem_cons.mp hj with rfl | hmem
        · have hfit := hcull2.fits j hu
          rw [List.foldl_cons, hfit.ppid]
          exact hno1 hj0 (hfit.used ▸ hu)
        · exact hno2 j hmem hj0 hu
    obtain ⟨hfam, -, hno⟩ := hloop (List.finRange 8) k hs h0 h hf
    exact ⟨hfam, fun i hi hu => hno i (List.mem_finRange i) hi hu⟩

/-- The launched process and its descendants; in the shell, none. -/
structure Tree (k : Machine) : Prop extends Family k where
  only : ∀ i, i ≠ 0 → (k.procs i).used = true → (k.procs i).ppid = 1 → k.launched = some i
  home : k.phase = .shell → ∀ i, i ≠ 0 → (k.procs i).used = false

/-- A call that removes a process leaves no child of it behind. -/
def LeavesNoOrphans (k : Machine) (a : Act) : Prop :=
  ∀ c k', a = .sys c → step k a = some k' → ∀ i, (k.procs i).used = true →
    (∀ j, (k'.procs j).used = true → (k'.procs j).pid ≠ (k.procs i).pid) →
    ∀ m, (k'.procs m).used = true → (k'.procs m).ppid ≠ (k.procs i).pid

theorem Tree.empty (h : ∀ i, i ≠ 0 → (k.procs i).used = false) : Tree k := by
  have hno : ∀ i, i ≠ 0 → (k.procs i).used ≠ true := fun i hi => Bool.eq_false_iff.mp (h i hi)
  exact ⟨⟨fun i hi hu => absurd hu (hno i hi), fun i hi hu => absurd hu (hno i hi)⟩,
    fun i hi hu => absurd hu (hno i hi), fun _ => h⟩

theorem Tree.place (h : Tree k) (hp : ∀ i, place (k'.procs i) = place (k.procs i))
    (hl : k'.launched = k.launched) (hs : k'.phase = .shell → k.phase = .shell) : Tree k' := by
  refine ⟨h.toFamily.place hp, fun i hi hu h1 => ?_, fun hsh i hi => ?_⟩
  · obtain ⟨hu', -, hpp⟩ := place_eq (hp i)
    rw [hl]
    exact h.only i hi (hu' ▸ hu) (hpp ▸ h1)
  · rw [(place_eq (hp i)).1]
    exact h.home (hs hsh) i hi

section

variable (h : Tree k) (hs : Shape k)
include h hs

theorem Tree.call (hb : busy k.phase = true) (hk : Kinship k k')
    (hno : ∀ i, (k.procs i).used = true →
      (∀ j, (k'.procs j).used = true → (k'.procs j).pid ≠ (k.procs i).pid) →
      ∀ m, (k'.procs m).used = true → (k'.procs m).ppid ≠ (k.procs i).pid) (hs' : Sound k') : Tree k' := by
  obtain ⟨h0, hu0, -⟩ := hs.cpu hb
  obtain ⟨hcu, hcp, -⟩ := place_eq hk.caller
  rw [cur, hk.current] at hcu hcp
  have hpid := hs.pid hb
  refine ⟨⟨fun i hi hu => ?_, fun i hi hu => ?_⟩, fun i hi hu h1 => ?_, fun hsh => ?_⟩
  · rcases hk.there i hu with hp | ⟨hp, -⟩
    · obtain ⟨hu', -, hpp⟩ := place_eq hp
      rw [hpp]
      rcases h.parent i hi (hu' ▸ hu) with h1 | ⟨j, hj, huj, hpj⟩
      · exact .inl h1
      by_cases hex : ∃ m, (k'.procs m).used = true ∧ (k'.procs m).pid = (k.procs j).pid
      · obtain ⟨m, hum, hpm⟩ := hex
        refine .inr ⟨m, ?_, hum, hpm.trans hpj⟩
        rintro rfl
        have hlt := hs.pids j hj huj
        rw [hs'.kernel.pid] at hpm
        omega
      · exact absurd (hpp.trans hpj.symm) (hno j huj (fun m hum he => hex ⟨m, hum, he⟩) i hu)
    · exact .inr ⟨k.current, h0, hcu.trans hu0, hcp.trans hp.symm⟩
  · rcases hk.there i hu with hp | ⟨hp, hn⟩
    · obtain ⟨hu', hpi, hpp⟩ := place_eq hp
      rw [hpi, hpp]
      exact h.older i hi (hu' ▸ hu)
    · rw [hp]
      exact Nat.lt_of_lt_of_le (hs.below _ hu0) hn
  · rcases hk.there i hu with hp | ⟨hp, -⟩
    · obtain ⟨hu', -, hpp⟩ := place_eq hp
      rw [hk.launched]
      exact h.only i hi (hu' ▸ hu) (hpp ▸ h1)
    · omega
  · rw [hk.phase] at hsh
    rw [hsh] at hb
    cases hb

theorem Tree.finish (hp : k.phase = .returned l) : Tree (finish k l) := by
  have h0 := hs.home (.inr ⟨l, hp⟩)
  have hlau := hs.back l hp
  obtain ⟨hl0, hlu, -⟩ := hs.root l hlau
  have hpos := hs.toSound.pos hlu
  have hsound : Sound (halted k) := hs.toSound.congr rfl rfl
  have hfam : Family (halted k) := ⟨h.parent, h.older⟩
  have hcard : (younger (halted k) (k.procs l).pid).card ≤ 8 :=
    (card_le_univ _).trans (Fintype.card_fin 8).le
  obtain ⟨hfam1, hno⟩ := cleanupChildren_family 8 hpos hsound h0 hfam hcard
  have hcull := cleanupChildren_culled 8 hpos hsound h0
  have hempty : ∀ i, i ≠ 0 → ((Step.finish k l).procs i).used = false := by
    simp only [Step.finish]
    generalize cleanupChildren 8 (k.procs l).pid (halted k) = k1 at hfam1 hno hcull
    have h01 := hcull.current.trans h0
    have hfam2 := hfam1.reap h01 hl0 fun hu j hj huj => by
      rw [(hcull.fits l hu).pid]
      exact hno j hj huj
    have hcull2 := hcull.trans (procReap_culled h01 hl0)
    refine hfam2.empty fun i hi hu h1 => ?_
    have hf := hcull2.fits i hu
    have he := h.only i hi (hf.used ▸ hu) (hf.ppid ▸ h1)
    cases hlau.symm.trans he
    cases (procReap_unused h01 hl0).symm.trans hu
  exact Tree.empty hempty

theorem Tree.launch (hp : k.phase = .shell) (frames : Nat ↪ Nat) (x : Launch) :
    Tree (launch k frames x) := by
  refine hs.launch_elim hp frames x h (fun i p _ _ _ _ _ _ _ hu => ?_) fun i b m f hi hf => ?_
  · exact .empty (rows_set (i := i) (p := p) (P := fun j q => j ≠ 0 → q.used = false) rfl (fun _ => hu)
      (fun j _ => h.home hp j))
  have hself : (started k i b m f).procs i = starter k b := setProc_self
  have hone : ∀ j, j ≠ 0 → ((started k i b m f).procs j).used = true → j = i := by
    intro j hj hu
    by_contra hji
    have he : (started k i b m f).procs j = k.procs j := setProc_ne hji
    rw [he] at hu
    cases (h.home hp j hj).symm.trans hu
  refine ⟨⟨fun j hj hu => .inl ?_, fun j hj hu => ?_⟩, fun j hj hu _ => ?_, fun hsh => by cases hsh⟩
  · rw [hone j hj hu, hself]
    rfl
  · rw [hone j hj hu, hself]
    exact hs.next
  · rw [hone j hj hu]
    rfl

end

theorem after_place (k : Machine) (fl : Flow) : (after k fl).procs = k.procs ∧
    (after k fl).launched = k.launched := by
  cases fl <;> exact ⟨rfl, rfl⟩

theorem Tree.stepped (hs : Shape k) (h : Tree k) (hok : LeavesNoOrphans k a)
    (ht : step k a = some k') : Tree k' := by
  have hst := step_stepped ht
  rcases Stepped.settled hs hst with ⟨c, rfl⟩ | ⟨l, hp, rfl⟩ | ⟨f, x, rfl⟩ | hset
  · have hno := hok c k' rfl ht
    cases hst with
    | call _ k1 fl hp hc =>
      have hb := busy_at hp
      have hs1 := hs.entered
      have hkin := Parts.kinship hs1 hb (sysCall_parts c)
      have hsh := (hs1.sysCall hb c).1
      rw [hc] at hkin hsh
      obtain ⟨hprocs, hlau⟩ := after_place k1 fl
      rw [hprocs] at hno
      have h1 : Tree k1 :=
        Tree.call (k := inCall k) ⟨⟨h.parent, h.older⟩, h.only, h.home⟩ hs1 hb hkin hno hsh.toSound
      refine h1.place (fun i => by rw [hprocs]) hlau fun hsh' => ?_
      cases fl <;> cases hsh'
  · obtain rfl : k' = Step.finish k l := by
      simp only [step, goOn, hp] at ht
      exact (Option.some.inj ht).symm
    exact h.finish hs hp
  · cases hst with
    | launch _ _ hp ha => exact h.launch hs hp f x
    | refuse _ _ hp ha => exact h
  · exact h.place hset.place hset.launched hset.shell

theorem boot_tree (r : Fs.RamFs.Ram) (mem : UserMem) (cow : Cow) : Tree (boot r mem cow) := by
  have hempty : ∀ i, i ≠ 0 → ((boot r mem cow).procs i).used = false := by
    intro i hi
    simp only [boot, if_neg hi]
    rfl
  exact Tree.empty hempty

/-- Nobody is left in the process table when the launcher has returned. -/
theorem no_process_remains (hm : Meets step LeavesNoOrphans (boot r mem cow) as)
    (h : run step (boot r mem cow) as = some k) (_ : k.nextPid ≤ 4294967296) (hp : k.phase = .shell)
    (i : Fin 8) (hi : i ≠ 0) : (k.procs i).used = false := by
  have hinv := meets_invariant (I := fun k => Shape k ∧ Tree k)
    (fun s a t hi hok ht => ⟨hi.1.stepped (step_stepped ht), hi.2.stepped hi.1 hok ht⟩)
    ⟨boot_shape r mem cow, boot_tree r mem cow⟩ hm h
  exact hinv.2.home hp i hi

def leavesNoOrphans (k : Machine) : Act → Bool
  | .sys c => (step k (.sys c)).all (fun k' => decide (∀ i, (k.procs i).used = true →
      (∀ j, (k'.procs j).used = true → (k'.procs j).pid ≠ (k.procs i).pid) →
      ∀ m, (k'.procs m).used = true → (k'.procs m).ppid ≠ (k.procs i).pid))
  | _ => true

theorem leavesNoOrphans_spec (k : Machine) (a : Act) (h : leavesNoOrphans k a = true) :
    LeavesNoOrphans k a := by
  rintro c k' rfl hs
  simp only [leavesNoOrphans, hs, all_some] at h
  exact of_decide_eq_true h

def inShell : Phase → Bool
  | .shell => true
  | _ => false

theorem inShell_eq {ph : Phase} (h : inShell ph = true) : ph = .shell := by
  cases ph with
  | shell => rfl
  | _ => cases h

def forksAndExits : List Act :=
  [enter, .sys (.fork none), .go, .exit 0#32, .go, .go, .go, .exit 0#32, .go, .go, .go]

theorem no_process_remains_forked :
    ∃ k, run step plain forksAndExits = some k ∧ k.phase = .shell ∧ (k.procs 1).used = false ∧
    (k.procs 2).used = false := by
  have hm : Meets step LeavesNoOrphans plain forksAndExits :=
    checks_meets leavesNoOrphans_spec (by decide +kernel)
  obtain ⟨k, hk, hp, hn⟩ : ∃ k, run step plain forksAndExits = some k ∧ inShell k.phase = true ∧
      k.nextPid ≤ 4294967296 := by
    decide +kernel
  have hph := inShell_eq hp
  exact ⟨k, hk, hph, no_process_remains hm hk hn hph 1 (by decide),
    no_process_remains hm hk hn hph 2 (by decide)⟩

/-- A child forks and exits, the program waits and exits, then the grandchild. -/
def leavesGrandchild : List Act :=
  [enter, .sys (.fork none), .go, .tick, .go, .go, .sys (.fork none), .go, .exit 0#32, .go, .go,
    .go, .sys (.wait4 (-1) 0#32 0#32), .go, .exit 0#32, .go, .go, .go, .exit 0#32, .go, .go, .go]

theorem grandchild_remains :
    ∃ k, run step plain leavesGrandchild = some k ∧ k.phase = .shell ∧ (k.procs 3).used = true ∧
    (k.procs 3).ppid = 3 := by
  obtain ⟨k, hk, hp, hrest⟩ : ∃ k, run step plain leavesGrandchild = some k ∧
      inShell k.phase = true ∧ (k.procs 3).used = true ∧ (k.procs 3).ppid = 3 := by
    decide +kernel
  exact ⟨k, hk, inShell_eq hp, hrest⟩

end MuOS.Kernel.Launcher
