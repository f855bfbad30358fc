import MuOS.Kernel.Launcher
import MuOS.Kernel.Resumes

namespace MuOS.Kernel.Lifetimes

open Lib.Runs State Wake Sched Calls Stir Prims ProcTable Step Phases Layout Launcher Resumes

variable {k k' k1 : Machine} {a : Act} {i j c : Fin 8} {p p' : Proc} {ph : Phase}

def Lasts (p p' : Proc) : Prop := place p' = place p ∧ (p.state = .zombie → p'.state = .zombie)

/-- Who is in the table later was there, or has a number not yet given out. -/
def Lineage (k k' : Machine) : Prop := k.nextPid ≤ k'.nextPid ∧
  ∀ i, (k'.procs i).used = true → Lasts (k.procs i) (k'.procs i) ∨ k.nextPid ≤ (k'.procs i).pid

theorem Lasts.refl (p : Proc) : Lasts p p := ⟨rfl, id⟩

theorem Lasts.trans {p'' : Proc} (h : Lasts p p') (h' : Lasts p' p'') : Lasts p p'' :=
  ⟨h'.1.trans h.1, h'.2 ∘ h.2⟩

theorem Lineage.rows (hn : k'.nextPid = k.nextPid)
    (h : ∀ i, (k'.procs i).used = true → Lasts (k.procs i) (k'.procs i)) : Lineage k k' :=
  ⟨hn.ge, fun i hu => .inl (h i hu)⟩

theorem Lineage.refl (k : Machine) : Lineage k k := .rows rfl fun _ _ => .refl _

theorem Lineage.trans (h : Lineage k k1) (h' : Lineage k1 k') : Lineage k k' := by
  refine ⟨h.1.trans h'.1, fun i hu => ?_⟩
  rcases h'.2 i hu with hl | hn
  · obtain ⟨hu1, hpid, -⟩ := place_eq hl.1
    rw [hpid]
    exact (h.2 i (hu1 ▸ hu)).imp_left fun hl1 => hl1.trans hl
  · exact .inr (h.1.trans hn)

theorem Fit.lasts (h : Fit p p') : Lasts p p' := ⟨Fit.place h, Fit.zombie h⟩

theorem Woke.lineage (h : Woke k k') : Lineage k k' :=
  .rows h.nextPid fun i _ => Fit.lasts (Roused.fit (h.procs i) (h.last i))

theorem Turned.lineage (h : Turned k k') : Lineage k k' := by
  refine ⟨h.nextPid, fun i hu => ?_⟩
  obtain ⟨c, hc, ho⟩ := h.turn
  by_cases hi : i = c
  · subst hi
    cases hc with
    | fit hf => exact .inl (Fit.lasts hf)
    | slipped _ hn => cases hn.symm.trans hu
    | born _ hb => exact .inr hb.pid.ge
    | reaped _ _ _ he =>
      rw [he] at hu
      cases hu
  · exact .inl (Fit.lasts (ho i hi))

theorem set_lasts (hz : (k.procs j).state ≠ .zombie) (hp : place p = place (k.procs j))
    (i : Fin 8) : Lasts (k.procs i) ((setProc k j p).procs i) := by
  obtain ⟨rfl, he⟩ | ⟨-, he⟩ := row_set (b := setProc k j p) rfl i <;> rw [he]
  · exact ⟨hp, fun h => absurd h hz⟩
  · exact .refl _

theorem load_lasts {n : Nat} (hj : pickFrom k n = some j) (i : Fin 8) :
    Lasts (k.procs i) ((setPhase (schedLoad k j) ph).procs i) := by
  refine set_lasts (p := { k.procs j with state := .running }) ?_ rfl i
  rw [(runnable_spec (pickFrom_runnable hj)).2.1]
  rintro ⟨⟩

theorem Stepped.traced (hs : Shape k) (h : Stepped k a k') : Lineage k k' ∧ (busy k.phase = true →
    k'.current = k.current ∨ ∃ p, pickFrom (aside k p) (k.current.val + 1) = some k'.current) := by
  have hown : ∀ p : Proc, busy k.phase = true → place p = place (cur k) →
      ∀ i, Lasts (k.procs i) ((aside k p).procs i) := by
    intro p hb
    refine set_lasts (k := k) (p := p) ?_
    rw [← cur, (hs.cpu hb).2.2]
    rintro ⟨⟩
  cases h with
  | compute | exit | fault | ignored | refuse | shell | shellKey
  | spinDone => exact ⟨.refl k, fun _ => .inl rfl⟩
  | back _ _ hp | lost _ hp => exact ⟨.refl k, fun hb => by cases hb.symm.trans (busy_at hp)⟩
  | call c k1 fl hp hc =>
    have hb := busy_at hp
    have hl : Lineage k (sysCall (inCall k) c).1 ∧ (sysCall (inCall k) c).1.current = k.current := by
      refine parts_invariant (I := fun k1 => Lineage k k1 ∧ k1.current = k.current) hs.entered hb ?_
        ⟨.refl k, rfl⟩ (sysCall_parts c)
      intro k1 k2 hsh hbb hl hd
      have ht := hsh.does hbb hd
      exact ⟨hl.1.trans (Turned.lineage ht), ht.current.trans hl.2⟩
    rw [hc] at hl
    cases fl <;> exact ⟨hl.1, fun _ => .inl hl.2⟩
  | tick | idle =>
    have hl := Woke.lineage (ticked_woke k)
    exact ⟨hl, fun _ => .inl (ticked_woke k).current⟩
  | key c => exact ⟨Woke.lineage (typed_woke k c), fun _ => .inl (typed_woke k c).current⟩
  | sleep r o j hp _ hj =>
    exact ⟨.rows rfl fun i _ => (hown (sleeper k r) (busy_at hp) rfl i).trans (load_lasts hj i),
      fun _ => .inr ⟨_, hj⟩⟩
  | yield j hp hj =>
    exact ⟨.rows rfl fun i _ => (hown (yielder k .ready) (busy_at hp) rfl i).trans
      (load_lasts hj i), fun _ => .inr ⟨_, hj⟩⟩
  | pick sys j hp hj =>
    exact ⟨.rows rfl fun i _ => load_lasts hj i, fun hb => by cases hb.symm.trans (busy_at hp)⟩
  | awake r o hp =>
    cases o <;> exact ⟨.rows rfl fun i _ => hown (sleepless k r) (busy_at hp) rfl i, fun _ => .inl rfl⟩
  | keep hp =>
    exact ⟨.rows rfl fun i _ => hown (yielder k .running) (busy_at hp) rfl i, fun _ => .inl rfl⟩
  | tableless r o => cases o <;> exact ⟨.refl k, fun _ => .inl rfl⟩
  | leave _ _ _ hd | alarm _ _ _ hd =>
    have hfit := Notified.fits (delivered_notified hd)
    obtain ⟨m, eip, sp, eax, sig, rfl⟩ := delivered_notified hd
    exact ⟨.rows rfl fun i _ => Fit.lasts (hfit i), fun _ => .inl rfl⟩
  | die code faulted sys hp =>
    have hst := procWakeParent_stirred (ended k code faulted) (exited k code faulted)
    exact ⟨.rows hst.nextPid fun i _ => (hown (exited k code faulted) (busy_at hp) rfl i).trans
      ⟨Roused.place (hst.procs i), (Traps.Roused.zombie (hst.procs i)).mpr⟩, fun _ => .inl hst.current⟩
  | finish l hp =>
    obtain ⟨k1, hcull, -, he⟩ := hs.finish_culled hp
    rw [he]
    exact ⟨.rows hcull.nextPid fun i hu => Fit.lasts (hcull.fits i hu),
      fun hb => by cases hb.symm.trans (busy_at hp)⟩
  | launch frames l hp =>
    refine ⟨?_, fun hb => by cases hb.symm.trans (busy_at hp)⟩
    refine hs.launch_elim hp frames l (.refl k)
      (fun j q _ _ _ _ _ _ _ hq => ⟨Nat.le_succ _, fun i hu => .inl ?_⟩)
      fun j b m f _ _ => ⟨Nat.le_succ _, fun i _ => ?_⟩
    · obtain ⟨-, he⟩ | ⟨-, he⟩ := row_set (b := setProc k j q) rfl i
      · cases (he ▸ hq).symm.trans hu
      · exact he ▸ .refl _
    · obtain ⟨-, he⟩ | ⟨-, he⟩ := row_set (b := started k j b m f) rfl i <;> rw [he]
      · exact .inr le_rfl
      · exact .inl (.refl _)

/-- Until `next_pid` wraps a number names one process: whoever has it later is in the
same slot, with the same parent, and a zombie if it was one. -/
theorem process_numbers_last {r : Fs.RamFs.Ram} {mem : UserMem} {cow : Cow} {as bs : List Act}
    (h : run step (boot r mem cow) as = some k) (h' : run step k bs = some k')
    (_ : k'.nextPid ≤ 4294967296) : (∀ i, (k.procs i).used = true → (k.procs i).pid < k.nextPid) ∧
      ∀ i, (k'.procs i).used = true → (k'.procs i).pid < k.nextPid → Lasts (k.procs i) (k'.procs i) := by
  have hs := shape_run h
  have hl := run_invariant (I := fun k1 => Shape k1 ∧ Lineage k k1)
    (fun _ _ _ hi ht => ⟨hi.1.stepped (step_stepped ht),
    hi.2.trans (Stepped.traced hi.1 (step_stepped ht)).1⟩) ⟨hs, .refl k⟩ h'
  exact ⟨hs.below, fun i hu hlt => (hl.2.2 i hu).resolve_right (not_le.mpr hlt)⟩

theorem process_numbers_last_forked :
    ∃ k k', run step plain [enter, .sys (.fork none), .go] = some k ∧
    run step k [.exit 7#32, .go, .go] = some k' ∧ (k'.procs 1).pid = 2 ∧
    Lasts (k.procs 1) (k'.procs 1) := by
  obtain ⟨k, hk, k', hk', hu, hp, hn⟩ : ∃ k, run step plain [enter, .sys (.fork none), .go] = some k ∧
      ∃ k', run step k [.exit 7#32, .go, .go] = some k' ∧ (k'.procs 1).used = true ∧
        (k'.procs 1).pid = 2 ∧ 2 < k.nextPid ∧ k'.nextPid ≤ 4294967296 := by
    decide +kernel
  exact ⟨k, k', hk, hk', hp, (process_numbers_last hk hk' hn.2).2 1 hu (hp ▸ hn.1)⟩

/-- The search goes around the table, so it comes nearer to one that can run. -/
theorem pickFrom_nearer (hi : runnable (k.procs i) = true) (hc : i ≠ c) :
    ∃ j, pickFrom k (c.val + 1) = some j ∧ (i - j).val < (i - c).val := by
  have he : ∀ i c : Fin 8, i ≠ c → Fin.ofNat 8 (c.val + 1 + ((i - c).val - 1)) = i := by decide
  have hd : ∀ i c n : Fin 8, i ≠ c → n.val ≤ (i - c).val - 1 →
    (i - Fin.ofNat 8 (c.val + 1 + n)).val < (i - c).val := by
    decide
  rw [pickFrom, List.find?_map]
  cases hn : (List.range 8).find? _ with
  | none =>
    have hno := List.find?_eq_none.mp hn ((i - c).val - 1) (List.mem_range.mpr (by omega))
    simp only [Function.comp, he i c hc, hi, not_true] at hno
  | some n =>
    have hle : n ≤ (i - c).val - 1 := by
      by_contra hlt
      have hno := (List.find?_range_eq_some.mp hn).2.2 _ (not_le.mp hlt)
      simp only [Function.comp, he i c hc, hi] at hno
      cases hno
    exact ⟨_, rfl, hd i c ⟨n, by omega⟩ hc hle⟩

theorem aside_nearer (hi : runnable (k.procs i) = true) (hc : i ≠ k.current) (p : Proc) :
    ∃ j, pickFrom (aside k p) (k.current.val + 1) = some j ∧ (i - j).val < (i - k.current).val := by
  have he : (aside k p).procs i = k.procs i := setProc_ne hc
  exact pickFrom_nearer (he ▸ hi) hc

theorem turn_nearer (hp : k.phase = .switching) (hi : runnable (k.procs i) = true)
    (hc : i ≠ k.current)
    (ht : step k a = some k') : (i - k'.current).val < (i - k.current).val := by
  obtain ⟨j, hj, hlt⟩ := aside_nearer hi hc (yielder k .ready)
  have hjc : j ≠ k.current := by
    rintro rfl
    exact lt_irrefl _ hlt
  cases a with
  | go =>
    simp only [step, goOn, hp, preempt_eq, hj, if_neg hjc] at ht
    cases ht
    exact hlt
  | _ => simp [step, hp, takesIrq] at ht

/-- A process that can run waits for at most six turns of the timer, if none exits meanwhile. -/
theorem runnable_waits {r : Fs.RamFs.Ram} {mem : UserMem} {cow : Cow} {as bs : List Act}
    (h : run step (boot r mem cow) as = some k) (h' : run step k bs = some k')
    (hm : Meets step (fun k _ => busy k.phase = true ∧ runnable (k.procs i) = true) k bs)
    (hi : i ≠ k'.current) : stepCount step (fun k _ => switching k.phase) k bs ≤ 6 := by
  have hsum := stepCount_rank (I := Shape) (p := fun k _ => switching k.phase)
    (m := fun k => (i - k.current).val) (fun s a t hs hok ht => ?_) (shape_run h) hm h'
  · have hpos : ∀ i c : Fin 8, i ≠ c → 0 < (i - c).val := by decide
    have hlt := hpos i k'.current hi
    omega
  have hst := step_stepped ht
  refine ⟨hs.stepped hst, ?_⟩
  have hne : i ≠ s.current := by
    rintro rfl
    cases (runnable_spec hok.2).2.1.symm.trans (hs.cpu hok.1).2.2
  split
  · rename_i hp
    have hlt := turn_nearer (switching_eq hp) hok.2 hne ht
    omega
  rcases (Stepped.traced hs hst).2 hok.1 with he | ⟨p, hp⟩
  · rw [he, Nat.zero_add]
  · obtain ⟨j, hj, hlt⟩ := aside_nearer hok.2 hne p
    cases hj.symm.trans hp
    omega

def twoChildren : List Act := [enter, .sys (.fork none), .go, .sys (.fork none), .go]

theorem runnable_waits_child : ∃ k, run step plain twoChildren = some k ∧
    stepCount step (fun k _ => switching k.phase) k [.tick, .go, .go] ≤ 6 := by
  obtain ⟨k, hk, hm, k', hk', hi⟩ : ∃ k, run step plain twoChildren = some k ∧
      checks step (fun k _ => busy k.phase && runnable (k.procs 3)) k [.tick, .go, .go] = true ∧
      ∃ k', run step k [.tick, .go, .go] = some k' ∧ 3 ≠ k'.current := by
    decide +kernel
  exact ⟨k, hk,
    runnable_waits hk hk' (checks_meets (fun _ _ h => (Bool.and_eq_true _ _).mp h) hm) hi⟩

end MuOS.Kernel.Lifetimes
