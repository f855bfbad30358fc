import MuOS.Kernel.Phases

namespace MuOS.Kernel.Layout

open Lib.Runs User.Descriptors State Wake Sched Calls Stir Tables Prims ProcTable Step
  Phases Nat List

def busy : Phase → Bool
  | .user | .spin | .blocking .. | .leaving | .ticked | .switching | .exiting .. => true
  | _ => false

variable {P : Machine → Prop} {I : Machine → Prop} {c : Call}

theorem busy_at {k : Machine} {ph : Phase} (hp : k.phase = ph) : busy k.phase = busy ph :=
  congrArg busy hp

def Rooted (k : Machine) : Prop :=
  ∀ l, k.launched = some l → l ≠ 0 ∧ (k.procs l).used = true ∧ (k.procs l).ppid = 1

structure Idle (k : Machine) : Prop extends Sound k where
  still : ∀ i, i ≠ 0 → (k.procs i).used = true → (k.procs i).state ≠ .running
  root : Rooted k

/-- The process table as the phases find it. -/
structure Shape (k : Machine) : Prop extends Sound k where
  alone : ∀ i, i ≠ 0 → (k.procs i).used = true → (k.procs i).state = .running → i = k.current
  cpu : busy k.phase = true → k.current ≠ 0 ∧ (cur k).used = true ∧ (cur k).state = .running
  left : ∀ sys, k.phase = .picking sys → k.current ≠ 0 ∧ (cur k).used = true ∧
    (cur k).state = .zombie
  home : k.phase = .shell ∨ (∃ l, k.phase = .returned l) → k.current = 0
  root : Rooted k
  outer : k.phase ≠ .shell → k.launched.isSome = true
  back : ∀ l, k.phase = .returned l → k.launched = some l

variable {k k' k1 : Machine} {i j : Fin 8} {p : Proc} {ph : Phase}

theorem busy_ne (h : busy ph = true) : ph ≠ .shell ∧ (∀ sys, ph ≠ .picking sys) ∧
    ∀ l, ph ≠ .returned l := by
  refine ⟨?_, fun _ => ?_, fun _ => ?_⟩
  all_goals
    rintro rfl
    cases h

theorem Rooted.turned (hr : Rooted k) (ht : Turned k k') (hp : 1 < (cur k).pid) : Rooted k' := by
  intro l hl
  rw [ht.launched] at hl
  obtain ⟨h0, hu, hpp⟩ := hr l hl
  obtain ⟨c, hc, ho⟩ := ht.turn
  have hfit : Fit (k.procs l) (k'.procs l) := by
    by_cases he : l = c
    · subst he
      cases hc with
      | fit hf => exact hf
      | slipped hn | born hn => cases hn.symm.trans hu
      | reaped _ _ hq _ => omega
    · exact ho l he
  exact ⟨h0, hfit.used.trans hu, hfit.ppid.trans hpp⟩

theorem Shape.pid (h : Shape k) (hb : busy k.phase = true) : 1 < (cur k).pid :=
  h.pids _ (h.cpu hb).1 (h.cpu hb).2.1

theorem Fit.zombie {p' : Proc} (h : Fit p p') (hz : p.state = .zombie) : p'.state = .zombie := by
  rcases h.state with hs | ⟨hb, -⟩
  · exact hs.trans hz
  · cases hb.symm.trans hz

theorem Shape.fits (h : Shape k) (hf : ∀ i, Fit (k.procs i) (k'.procs i))
    (hc : k'.current = k.current) (hph : k'.phase = k.phase) (hl : k'.launched = k.launched)
    (hn : k'.nextPid = k.nextPid) : Shape k' where
  toSound := h.toSound.turned (.fits hf hc hph hl hn)
  alone := by
    intro i hi hu hr
    rw [hc]
    exact h.alone i hi ((hf i).used ▸ hu) ((hf i).running.mp hr)
  cpu := by
    intro hb
    obtain ⟨h0, hu, hr⟩ := h.cpu (hph ▸ hb)
    rw [cur, hc]
    exact ⟨h0, (hf _).used.trans hu, (hf _).running.mpr hr⟩
  left := by
    intro sys hp
    obtain ⟨h0, hu, hz⟩ := h.left sys (hph ▸ hp)
    rw [cur, hc]
    exact ⟨h0, (hf _).used.trans hu, Fit.zombie (hf _) hz⟩
  home := by
    intro hp
    rw [hc]
    exact h.home (hph ▸ hp)
  root := by
    intro l hlau
    obtain ⟨h0, hu, hp⟩ := h.root l (hl ▸ hlau)
    exact ⟨h0, (hf l).used.trans hu, (hf l).ppid.trans hp⟩
  outer := fun hp => hl ▸ h.outer (hph ▸ hp)
  back := fun l hp => hl.trans (h.back l (hph ▸ hp))

theorem Shape.same (h : Shape k) (hp : k'.procs = k.procs) (hc : k'.current = k.current)
    (hph : k'.phase = k.phase) (hl : k'.launched = k.launched)
    (hn : k'.nextPid = k.nextPid) : Shape k' :=
  h.fits (fun i => by rw [hp]; exact Fit.refl _) hc hph hl hn

section

variable (h : Shape k) (hb : busy k.phase = true)
include h hb

theorem Shape.turned (ht : Turned k k') : Shape k' := by
  obtain ⟨h0, hu, hr⟩ := h.cpu hb
  have hcur := ht.cur_fit hu hr
  obtain ⟨hsh, hpk, hrt⟩ := busy_ne hb
  refine ⟨h.toSound.turned ht, ?_, ?_, ?_, ?_, h.root.turned ht (h.pid hb), ?_, ?_⟩
  · intro i hi hui hri
    obtain ⟨c, hc, ho⟩ := ht.turn
    have hf : Fit (k.procs i) (k'.procs i) := by
      by_cases he : i = c
      · subst he
        cases hc with
        | fit hf => exact hf
        | slipped _ hn => cases hn.symm.trans hui
        | born _ _ hready _ _ => cases hready.symm.trans hri
        | reaped _ _ _ hempty =>
          rw [hempty] at hui
          cases hui
      · exact ho i he
    rw [ht.current]
    exact h.alone i hi (hf.used ▸ hui) (hf.running.mp hri)
  · intro _
    rw [ht.current]
    exact ⟨h0, hcur.used.trans hu, hcur.running.mpr hr⟩
  · intro sys hp
    exact absurd (ht.phase ▸ hp) (hpk sys)
  · rintro (hp | ⟨l, hp⟩)
    · exact absurd (ht.phase ▸ hp) hsh
    · exact absurd (ht.phase ▸ hp) (hrt l)
  · intro hp
    rw [ht.launched]
    exact h.outer (ht.phase ▸ hp)
  · intro l hp
    exact absurd (ht.phase ▸ hp) (hrt l)

theorem Shape.does (hd : Does c k k') : Turned k k' :=
  Does.turned hd h.toSound (h.cpu hb).1 (h.cpu hb).2.1 (h.cpu hb).2.2

theorem Shape.parts (hp : Parts c k k') : Shape k' ∧ k'.phase = k.phase := by
  induction hp with
  | refl => exact ⟨h, rfl⟩
  | tail _ hd ih =>
    have hb' := ih.2 ▸ hb
    have ht := ih.1.does hb' hd
    exact ⟨ih.1.turned hb' ht, ht.phase.trans ih.2⟩

omit h hb in
theorem parts_invariant (hs : Shape k) (hb : busy k.phase = true)
    (hstep : ∀ k k', Shape k → busy k.phase = true → I k → Does c k k' → I k') (h : I k)
    (hp : Parts c k k') : I k' := by
  suffices hall : I k' ∧ Shape k' ∧ busy k'.phase = true from hall.1
  induction hp with
  | refl => exact ⟨h, hs, hb⟩
  | tail hpre hd ih =>
    obtain ⟨hi, hsh, hbb⟩ := ih
    have hnext := hs.parts hb (hpre.tail hd)
    exact ⟨hstep _ _ hsh hbb hi hd, hnext.1, hnext.2 ▸ hb⟩

theorem Shape.sysCall (c : Call) : Shape (sysCall k c).1 ∧ (Calls.sysCall k c).1.phase = k.phase :=
  h.parts hb (sysCall_parts c)

omit h hb in
theorem Shape.entered (h : Shape k) : Shape (inCall k) :=
  h.same rfl rfl rfl rfl rfl

theorem Shape.onto (hb' : busy ph = true) : Shape (setPhase k ph) := by
  obtain ⟨hsh, hpk, hrt⟩ := busy_ne hb'
  refine ⟨h.toSound.congr rfl rfl, h.alone, fun _ => h.cpu hb, fun sys hp => absurd hp (hpk sys),
    ?_, h.root, fun _ => h.outer (busy_ne hb).1, fun l hp => absurd hp (hrt l)⟩
  rintro (hp | ⟨l, hp⟩)
  · exact absurd hp hsh
  · exact absurd hp (hrt l)

theorem Shape.after (fl : Flow) : Shape (after k fl) := by
  cases fl with
  | ret v => exact Shape.onto (k := setEax k v) (h.same rfl rfl rfl rfl rfl) hb rfl
  | block | spin => exact h.onto hb rfl

end

structure Kin (p p' : Proc) : Prop where
  used : p'.used = p.used
  pid : p'.pid = p.pid
  ppid : p'.ppid = p.ppid
  last : p'.lastWaitPid = p.lastWaitPid

section

variable (h : Shape k) (hb : busy k.phase = true) (hf : Formed p)
include h hb hf

theorem Shape.kin (hk : Kin (cur k) p) : Sound (aside k p) ∧ Rooted (aside k p) := by
  obtain ⟨h0, hu, -⟩ := h.cpu hb
  refine ⟨(h.toSound.update h0 hu (hk.used.trans hu) hk.pid hk.ppid hf hk.last).congr rfl rfl,
    fun l hl => ?_⟩
  obtain ⟨hl0, hlu, hlp⟩ := h.root l hl
  obtain ⟨rfl, he⟩ | ⟨-, he⟩ := row_set (b := aside k p) rfl l <;> rw [he]
  · exact ⟨hl0, hk.used.trans hu, hk.ppid.trans hlp⟩
  · exact ⟨hl0, hlu, hlp⟩

theorem Shape.idle (hk : Kin (cur k) p) (hs : p.state ≠ .running) : Idle (aside k p) := by
  obtain ⟨hsound, hroot⟩ := h.kin hb hf hk
  refine ⟨hsound, fun i hi hu hr => ?_, hroot⟩
  obtain ⟨-, he⟩ | ⟨hne, he⟩ := row_set (b := aside k p) rfl i <;> rw [he] at hu hr
  · exact hs hr
  · exact hne (h.alone i hi hu hr)

theorem Shape.stay (hk : Kin (cur k) p) (hs : p.state = .running) : Shape (aside k p) := by
  obtain ⟨hsound, hroot⟩ := h.kin hb hf hk
  obtain ⟨hsh, hpk, hrt⟩ := busy_ne hb
  obtain ⟨h0, hu, -⟩ := h.cpu hb
  refine ⟨hsound, fun i hi hui hri => ?_, fun _ => ?_, fun sys hp => absurd hp (hpk sys), ?_, hroot,
    h.outer, fun l hp => absurd hp (hrt l)⟩
  · by_cases he : i = k.current
    · exact he
    have hother : (aside k p).procs i = k.procs i := setProc_ne he
    rw [hother] at hui hri
    exact h.alone i hi hui hri
  · rw [aside_cur]
    exact ⟨h0, hk.used.trans hu, hs⟩
  · rintro (hp | ⟨l, hp⟩)
    · exact absurd hp hsh
    · exact absurd hp (hrt l)

end

theorem pickFrom_runnable {n : Nat} (h : pickFrom k n = some i) : runnable (k.procs i) = true := by
  have hp := find?_some h
  exact hp

theorem runnable_spec (h : runnable p = true) : isUser p = true ∧ p.state = .ready ∧
    p.hasCtx = true := by
  simpa [runnable, and_assoc] using h

theorem Sound.user_ne (h : Sound k) (hi : isUser (k.procs i) = true) : i ≠ 0 := by
  rintro rfl
  exact (isUser_spec hi).2 h.kernel.pid

theorem Idle.load (h : Idle k) (hr : runnable (k.procs i) = true) (hl : k.launched.isSome = true)
    (hb : busy ph = true) : Shape (setPhase (schedLoad k i) ph) := by
  obtain ⟨hu, hready, hctx⟩ := runnable_spec hr
  have h0 := Sound.user_ne h.toSound hu
  have hused := (isUser_spec hu).1
  have hf := h.formed i h0 hused
  have hsound := h.toSound.update (p := { k.procs i with state := .running }) h0 hused hused rfl rfl
    ⟨by simp, fun _ => hctx, hf.space, hf.fdState, hf.retained⟩ rfl
  have hself : (setPhase (schedLoad k i) ph).procs i = { k.procs i with state := .running } :=
    setProc_self
  have hother : ∀ j, j ≠ i → (setPhase (schedLoad k i) ph).procs j = k.procs j :=
    fun j hj => setProc_ne hj
  obtain ⟨hsh, hpk, hrt⟩ := busy_ne hb
  refine ⟨hsound.congr rfl rfl, fun j hj huj hrj => ?_, fun _ => ?_, fun sys hp => absurd hp
    (hpk sys), ?_, fun l hla => ?_, fun _ => hl, fun l hp => absurd hp (hrt l)⟩
  · by_contra hne
    rw [hother j hne] at huj hrj
    exact h.still j hj huj hrj
  · have hcur : cur (setPhase (schedLoad k i) ph) = { k.procs i with state := .running } := setProc_self
    rw [hcur]
    exact ⟨h0, hused, rfl⟩
  · rintro (hp | ⟨l, hp⟩)
    · exact absurd hp hsh
    · exact absurd hp (hrt l)
  obtain ⟨hl0, hlu, hlp⟩ := h.root l hla
  by_cases he : l = i
  · subst he
    rw [hself]
    exact ⟨hl0, hlu, hlp⟩
  · rw [hother l he]
    exact ⟨hl0, hlu, hlp⟩

/-- The exit of `c` may wake its parent and tell it. -/
inductive Told (k : Machine) (c : Proc) : Machine → Prop
  | nobody {k' : Machine} (hp : k'.procs = k.procs) : Told k c k'
  | parent {k' : Machine} (i : Fin 8) (p : Proc) (hi : roused k c = some i)
    (hp : k'.procs = (setProc k i p).procs) (hc : core p = core (k.procs i)) (hs : p.state = .ready)
    (hl : p.lastWaitPid = (k.procs i).lastWaitPid ∨ p.lastWaitPid = c.pid) : Told k c k'

theorem procWakeParent_told (k : Machine) (c : Proc) : Told k c (procWakeParent k c) := by
  rw [procWakeParent]
  split
  · exact .nobody rfl
  rename_i i hi
  have hset : ∀ (k1 : Machine) (p : Proc), Pokes k k1 →
    (setProc k1 i p).procs = (setProc k i p).procs := by
    rintro k1 p ⟨m, rfl⟩
    rfl
  simp only [wakeWaiter]
  split
  · refine .parent i _ hi (hset _ _ ?_) rfl rfl (.inr rfl)
    split
    · exact Pokes.refl k
    · exact procWriteUserU32_pokes k ..
  · exact .parent i _ hi
      (hset _ _ (writeWords_pokes k (k.procs i) (k.procs i).waitInfop (siginfo c))) rfl rfl (.inr rfl)
  · exact .parent i _ hi rfl rfl rfl (.inl rfl)

theorem Sound.procFind (h : Sound k) (hu : (k.procs i).used = true) :
    procFind k (k.procs i).pid = some i := by
  cases hf : State.procFind k (k.procs i).pid with
  | none =>
    have hn := find?_eq_none.mp hf i (mem_finRange i)
    simp [hu] at hn
  | some j =>
    obtain ⟨hj, hp⟩ := procFind_some hf
    rw [h.distinct j i hj hu hp]

theorem Sound.kernelSlot (h : Sound k) : kernelSlot k = 0 := by
  have hf := Sound.procFind h h.kernel.used
  rw [h.kernel.pid] at hf
  rw [Sched.kernelSlot, hf]
  rfl

theorem Sound.tell (h : Sound k) {c : Fin 8} (hu : (k.procs c).used = true)
    (ht : Told k (k.procs c) k') (hn : k'.nextPid = k.nextPid) : Sound k' := by
  cases ht with
  | nobody hp => exact h.congr hp hn
  | parent i p hi hp hc hs hl =>
    obtain ⟨hf, hb, -⟩ := roused_spec hi
    obtain ⟨hui, hpid⟩ := procFind_some hf
    have hfield : ∀ {α : Type} (f : Proc → α), (∀ p, f (core p) = f p) → f p = f (k.procs i) :=
      fun f he => by rw [← he p, hc, he]
    have h0 : i ≠ 0 := by
      rintro rfl
      cases hb.symm.trans h.kernel.state
    have hform := h.formed i h0 hui
    have hpidp := hfield Proc.pid fun _ => rfl
    refine (h.replace h0 hui ((hfield Proc.used fun _ => rfl).trans hui)
      hpidp (hfield Proc.ppid fun _ => rfl) ?_ ?_ ?_).congr hp hn
    · refine ⟨by rw [hs]; simp, fun _ => ?_, ?_, ?_, ?_⟩
      · rw [hfield Proc.hasCtx fun _ => rfl]
        exact hform.hasCtx (.inr hb)
      · rw [hfield Proc.space fun _ => rfl]
        exact hform.space
      · rw [hfield Proc.fdState fun _ => rfl]
        exact hform.fdState
      · rw [hfield Proc.fdsRetained fun _ => rfl]
        exact hform.retained
    · intro j huj hj
      rcases hl with hl | hl
      · rw [hpidp]
        exact h.told i j hui huj (hj.trans hl)
      · rw [h.distinct j c huj hu (hj.trans hl), hpidp, hpid]
    · rcases hl with hl | hl
      · rw [hl]
        exact h.last i hui
      · rw [hl]
        exact h.below c hu

theorem exited_formed (h : Shape k) (hb : busy k.phase = true) (code : BitVec 32) (faulted : Bool) :
    Formed (exited k code faulted) := by
  obtain ⟨h0, hu, -⟩ := h.cpu hb
  have hf := h.formed _ h0 hu
  refine ⟨by rintro ⟨⟩, ?_, hf.space, hf.fdState, hf.retained⟩
  rintro (hs | hs)
  · cases hs
  · cases hs

theorem Shape.die (h : Shape k) {code : BitVec 32} {faulted sys : Bool}
    (hp : k.phase = .exiting code faulted sys) :
    Shape (setPhase (procWakeParent (ended k code faulted) (exited k code faulted))
    (.picking sys)) := by
  have hb := busy_at hp
  have hidle := h.idle hb (exited_formed h hb code faulted) ⟨rfl, rfl, rfl, rfl⟩ (by rintro ⟨⟩)
  obtain ⟨h0, hu, -⟩ := h.cpu hb
  have hzero : (aside k (exited k code faulted)).procs k.current = exited k code faulted :=
    setProc_self
  generalize hk0 : (ended k code faulted) = k0
  have hsound : Sound k0 := by
    rw [← hk0]
    exact hidle.toSound.congr rfl rfl
  have hself : k0.procs k.current = exited k code faulted := by
    rw [← hk0]
    exact hzero
  have hprocs : k0.procs = (aside k (exited k code faulted)).procs := by rw [← hk0]
  have hst := procWakeParent_stirred k0 (exited k code faulted)
  have htold := procWakeParent_told k0 (exited k code faulted)
  have hcur0 : k0.current = k.current := by rw [← hk0]; rfl
  have hlau0 : k0.launched = k.launched := by rw [← hk0]; rfl
  rw [← hself] at htold hst ⊢
  have hs1 := Sound.tell hsound (by rw [hself]; exact hu) htold hst.nextPid
  generalize procWakeParent k0 (k0.procs k.current) = k1 at hst hs1
  have hfield : ∀ {α : Type} (f : Proc → α) (i : Fin 8), (∀ p, f (core p) = f p) →
    f (k1.procs i) = f (k0.procs i) :=
    fun f i he => (hst.procs i).field f he
  refine ⟨hs1.congr rfl rfl, fun i hi hui hri => ?_, fun hbad => Bool.noConfusion hbad,
    fun _ _ => ?_, ?_,
    fun l hl => ?_, fun _ => ?_, fun l hl => by cases hl⟩
  · refine absurd ?_ (hidle.still i hi ?_)
    · rw [← hprocs]
      by_cases hbl : (k0.procs i).state = .blocked
      · rcases (hst.procs i).wakes hbl with hs | hs
        · cases hs.symm.trans hri
        · cases hs.symm.trans hri
      · exact ((hst.procs i).calm hbl).1.symm.trans hri
    · rw [← hprocs, ← hfield Proc.used i fun _ => rfl]
      exact hui
  · have hc : (setPhase k1 (.picking sys)).current = k.current := hst.current.trans hcur0
    rw [cur, hc]
    refine ⟨h0, ?_, ?_⟩
    · have hu0 : (k0.procs k.current).used = true := by rw [hself]; exact hu
      exact (hfield Proc.used k.current fun _ => rfl).trans hu0
    · have hz : (k0.procs k.current).state = .zombie := by rw [hself]; rfl
      exact ((hst.procs k.current).calm (by rw [hz]; simp)).1.trans hz
  · rintro (hbad | ⟨l, hbad⟩)
    · cases hbad
    · cases hbad
  · have hl' : (aside k (exited k code faulted)).launched = some l :=
      (hst.launched.trans hlau0).symm.trans hl
    obtain ⟨hl0, hlu, hlp⟩ := hidle.root l hl'
    rw [← hprocs] at hlu hlp
    exact ⟨hl0, (hfield Proc.used l fun _ => rfl).trans hlu, (hfield Proc.ppid l fun _ => rfl).trans hlp⟩
  · have hl' : (setPhase k1 (.picking sys)).launched = k.launched := hst.launched.trans hlau0
    rw [hl']
    exact h.outer (busy_ne hb).1

theorem Shape.picking (h : Shape k) {sys : Bool} (hp : k.phase = .picking sys) : Idle k := by
  refine ⟨h.toSound, fun i hi hu hr => ?_, h.root⟩
  obtain ⟨-, -, hz⟩ := h.left sys hp
  rw [h.alone i hi hu hr] at hr
  cases hz.symm.trans hr

/-- Processes are reaped by the launcher, and no more. -/
structure Culled (k k' : Machine) : Prop where
  fits : ∀ i, (k'.procs i).used = true → Fit (k.procs i) (k'.procs i)
  roused : ∀ i, (k'.procs i).used = true → Roused (k.procs i) (k'.procs i)
  kernel : Fit (k.procs 0) (k'.procs 0)
  current : k'.current = k.current
  nextPid : k'.nextPid = k.nextPid
  phase : k'.phase = k.phase
  launched : k'.launched = k.launched
  nextSpace : k'.nextSpace = k.nextSpace

theorem Culled.refl (k : Machine) : Culled k k :=
  ⟨fun _ _ => Fit.refl _, fun _ _ => Roused.refl _, Fit.refl _, rfl, rfl, rfl, rfl, rfl⟩

theorem Culled.trans (h : Culled k k1) (h' : Culled k1 k') : Culled k k' where
  fits := fun i hu => (h.fits i ((h'.fits i hu).used ▸ hu)).trans (h'.fits i hu)
  roused := fun i hu => (h.roused i ((h'.fits i hu).used ▸ hu)).trans (h'.roused i hu)
  kernel := h.kernel.trans h'.kernel
  current := h'.current.trans h.current
  nextPid := h'.nextPid.trans h.nextPid
  phase := h'.phase.trans h.phase
  launched := h'.launched.trans h.launched
  nextSpace := h'.nextSpace.trans h.nextSpace

theorem Sound.culled (hs : Sound k) (h : Culled k k') : Sound k' :=
  hs.shift (hs.kernel.fit h.kernel) h.nextPid.ge fun i hu => .inl (h.fits i hu)

theorem procReap_culled (h0 : k.current = 0) (hi : i ≠ 0) : Culled k (procReap k i) := by
  by_cases hu : (k.procs i).used = true
  · have hc : k.current ≠ i := by
      rw [h0]
      exact hi.symm
    have hne : ∀ j, ((procReap k i).procs j).used = true → j ≠ i := by
      rintro j huj rfl
      rw [procReap_self hu hc] at huj
      cases huj
    refine ⟨fun j huj => procReap_fit hu hc (hne j huj), fun j huj => procReap_other hu hc
      (hne j huj), procReap_fit hu hc hi.symm, procReap_current hu hc, ?_, ?_, ?_, ?_⟩
    all_goals exact procReap_field _ hu hc fun _ _ => rfl
  · rw [procReap, if_neg hu]
    exact .refl k

/-- One round of the loop of `proc_cleanup_children`. -/
def cullChild (fuel pid : Nat) (k : Machine) (i : Fin 8) : Machine :=
  if (k.procs i).used ∧ (k.procs i).pid ≠ pid ∧ (k.procs i).ppid = pid then
    procReap (cleanupChildren fuel (k.procs i).pid k) i
  else k

theorem cleanupChildren_succ (fuel pid : Nat) (k : Machine) :
    cleanupChildren (fuel + 1) pid k = (List.finRange 8).foldl (cullChild fuel pid) k := rfl

abbrev Reaps : Machine → Machine → Prop :=
  Relation.ReflTransGen (fun k k' => ∃ i, i ≠ 0 ∧ k.current = 0 ∧ k' = procReap k i)

theorem Reaps.keeps (hr : Reaps k k') (h : P k)
    (hone : ∀ b i, Reaps k b → P b → (b.procs i).used = true → i ≠ 0 → b.current ≠ i →
      Culled b (procReap b i) → P (procReap b i)) : P k' := by
  induction hr with
  | refl => exact h
  | @tail b _ hpre hstep ih =>
    obtain ⟨i, hi, h0, rfl⟩ := hstep
    by_cases hu : (b.procs i).used = true
    · exact hone b i hpre ih hu hi (h0 ▸ hi.symm) (procReap_culled h0 hi)
    rw [procReap, if_neg hu]
    exact ih

theorem Reaps.culled (h : Reaps k k') : Culled k k' := by
  induction h with
  | refl => exact .refl k
  | tail _ hr ih =>
    obtain ⟨i, hi, h0, rfl⟩ := hr
    exact ih.trans (procReap_culled h0 hi)

theorem cleanupChildren_reaps (fuel : Nat) {pid : Nat} (hp : 0 < pid) (hs : Sound k)
    (h0 : k.current = 0) : Reaps k (cleanupChildren fuel pid k) := by
  induction fuel generalizing pid k with
  | zero => exact .refl
  | succ fuel ih =>
    rw [cleanupChildren_succ]
    generalize finRange 8 = l
    induction l generalizing k with
    | nil => exact .refl
    | cons i l ihl =>
      have hone : Reaps k (cullChild fuel pid k i) := by
        rw [cullChild]
        split
        · rename_i hc
          have hi : i ≠ 0 := by
            rintro rfl
            rw [hs.kernel.ppid] at hc
            omega
          have hrec := ih (hs.pos hc.1) hs h0
          exact hrec.tail ⟨i, hi, hrec.culled.current.trans h0, rfl⟩
        · exact .refl
      exact hone.trans (ihl (Sound.culled hs hone.culled) (hone.culled.current.trans h0))

theorem cleanupChildren_culled (fuel : Nat) {pid : Nat} (hp : 0 < pid) (hs : Sound k)
    (h0 : k.current = 0) : Culled k (cleanupChildren fuel pid k) :=
  (cleanupChildren_reaps fuel hp hs h0).culled

section

variable (h : Shape k)
include h

theorem Shape.finish_reaps {l : Fin 8} (hp : k.phase = .returned l) : ∃ k1, Reaps (halted k) k1 ∧
    k1.current = 0 ∧
      finish k l = { k1 with
      fds := User.Descriptors.userFdsReset, cwd := [Fs.RamFs.slash], launched := none,
      phase := .shell } := by
  have h0 := h.home (.inr ⟨l, hp⟩)
  obtain ⟨hl0, hlu, -⟩ := h.root l (h.back l hp)
  have hsound : Sound (halted k) := h.toSound.congr rfl rfl
  have hclean := cleanupChildren_reaps 8 (h.toSound.pos hlu) hsound h0
  simp only [Step.finish]
  generalize cleanupChildren 8 (k.procs l).pid (halted k) = k1 at hclean
  have hreap : Reaps (halted k) (procReap k1 l) :=
    hclean.tail ⟨l, hl0, hclean.culled.current.trans h0, rfl⟩
  have hs := Sound.culled hsound hreap.culled
  have hcur : (procReap k1 l).current = 0 := hreap.culled.current.trans h0
  rw [Sound.kernelSlot hs]
  refine ⟨procReap k1 l, hreap, hcur, ?_⟩
  rw [← hcur]

theorem Shape.finish_culled {l : Fin 8} (hp : k.phase = .returned l) : ∃ k1, Culled k k1 ∧
      k1.current = 0 ∧ finish k l = { k1 with
      fds := User.Descriptors.userFdsReset, cwd := [Fs.RamFs.slash], launched := none,
      phase := .shell } := by
  obtain ⟨k1, hreap, hcur, he⟩ := h.finish_reaps hp
  have hcull := hreap.culled
  exact ⟨k1, ⟨hcull.fits, hcull.roused, hcull.kernel, hcull.current, hcull.nextPid, hcull.phase,
    hcull.launched,
    hcull.nextSpace⟩, hcur, he⟩

theorem Shape.finish {l : Fin 8} (hp : k.phase = .returned l) : Shape (finish k l) := by
  have h0 := h.home (.inr ⟨l, hp⟩)
  obtain ⟨k1, hcull, hcur, he⟩ := h.finish_culled hp
  have hs := Sound.culled h.toSound hcull
  rw [he]
  refine ⟨hs.congr rfl rfl, fun i hi hu hr => ?_, fun hb => Bool.noConfusion hb,
    fun _ hb => Phase.noConfusion hb,
    fun _ => hcur, fun l hb => Option.noConfusion rfl (heq_of_eq hb), fun hb => absurd rfl hb,
    fun _ hb => by cases hb⟩
  have hf := hcull.fits i hu
  have hi0 := h.alone i hi (hf.used ▸ hu) (hf.running.mp hr)
  exact absurd (hi0.trans h0) hi

section

variable (hp : k.phase = .shell) (hf : freeSlot k = some i)
include hp hf

theorem Shape.slipped (hu : p.used = false)
    (hprocs : k'.procs = (setProc k i p).procs) (hc : k'.current = k.current)
    (hph : k'.phase = k.phase) (hl : k'.launched = k.launched) (hn : k.nextPid ≤ k'.nextPid) :
    Shape k' := by
  have hfree := freeSlot_unused hf
  have hne : ∀ j, (k.procs j).used = true → j ≠ i := by
    rintro j hj rfl
    cases hfree.symm.trans hj
  have hother : ∀ j, j ≠ i → k'.procs j = k.procs j := by
    intro j hj
    rw [hprocs, setProc_ne hj]
  have hself : (k'.procs i).used = false := by
    rw [hprocs, setProc_self]
    exact hu
  have hkept : ∀ j, (k'.procs j).used = true → k'.procs j = k.procs j := by
    intro j hj
    refine hother j ?_
    rintro rfl
    cases hself.symm.trans hj
  refine ⟨h.toSound.shift ?_ hn fun j hj => .inl ?_, fun j hj huj hrj => ?_, ?_, ?_, fun _ => ?_,
    fun l hla => ?_, fun hs => absurd (hph.trans hp) hs, ?_⟩
  · rw [hother 0 (hne 0 h.kernel.used)]
    exact h.kernel
  · rw [hkept j hj]
    exact Fit.refl _
  · have he := hkept j huj
    rw [he] at huj hrj
    rw [hc]
    exact h.alone j hj huj hrj
  · rw [hph, hp]
    exact fun hb => by cases hb
  · rw [hph, hp]
    exact fun _ hb => by cases hb
  · rw [hc]
    exact h.home (.inl hp)
  · obtain ⟨hl0, hlu, hlp⟩ := h.root l (hl ▸ hla)
    rw [hother l (hne l hlu)]
    exact ⟨hl0, hlu, hlp⟩
  · rw [hph, hp]
    exact fun _ hb => by cases hb

theorem Shape.started (b : User.Window.Brk) (m : UserMem) (f : Regs) :
    Shape (started k i b m f) := by
  have hfree := freeSlot_unused hf
  have hself : (Phases.started k i b m f).procs i = starter k b := setProc_self
  have hother : ∀ j, j ≠ i → (Phases.started k i b m f).procs j = k.procs j :=
    fun j hj => setProc_ne hj
  have h0 : i ≠ 0 := by
    rintro rfl
    cases hfree.symm.trans h.kernel.used
  have hborn : Born k (starter k b) :=
    ⟨⟨by rintro ⟨⟩, by rintro (hs | hs) <;> exact PState.noConfusion hs, rfl, rfl, rfl⟩, rfl, rfl, rfl⟩
  refine ⟨h.toSound.shift ?_ (le_succ _) fun j hj => ?_, fun j hj huj hrj => ?_, fun _ => ?_,
    fun _ hb => Phase.noConfusion hb, ?_, fun l hl => ?_, fun _ => rfl, fun _ hb => by cases hb⟩
  · rw [hother 0 h0.symm]
    exact h.kernel
  · by_cases he : j = i
    · subst he
      refine .inr ⟨hfree, ?_, lt_succ_self _, fun l hl _ => ?_⟩
      · rw [hself]
        exact hborn
      · rw [hother l hl]
        exact Fit.refl _
    · refine .inl ?_
      rw [hother j he]
      exact Fit.refl _
  · by_contra hne
    rw [hother j hne] at huj hrj
    exact hj ((h.alone j hj huj hrj).trans (h.home (.inl hp)))
  · have hcur : cur (Phases.started k i b m f) = starter k b := setProc_self
    rw [hcur]
    exact ⟨h0, rfl, rfl⟩
  · rintro (hb | ⟨l, hb⟩)
    · cases hb
    · cases hb
  · cases hl
    rw [hself]
    exact ⟨h0, rfl, rfl⟩

end

section

variable (hp : k.phase = .shell) (frames : Nat ↪ Nat) (l : Launch)
include hp frames l

theorem Shape.launched : Launched k (launch k frames l) :=
  launch_launched (h.home (.inl hp)) h.kernel.used frames l

/-- A launch does nothing, gives its slot back, or enters the program. -/
@[elab_as_elim]
theorem Shape.launch_elim (same : P k)
    (freed : ∀ i p ns m b fds cwd active, freeSlot k = some i → p.used = false →
    P { setProc k i p with
      nextPid := k.nextPid + 1, nextSpace := ns, mem := m, brk := b, fds := fds,
      cwd := cwd, active := active })
    (entered : ∀ i b m f, freeSlot k = some i → Entry f → P (Phases.started k i b m f)) :
      P (launch k frames l) := by
  have hl := h.launched hp frames l
  generalize Step.launch k frames l = k' at hl
  cases hl with
  | failed hf =>
    cases hf with
    | none => exact same
    | undone i p _ _ _ hi hu | reset i p _ _ _ hi hu => exact freed i p _ _ _ _ _ _ hi hu
  | entered i b m f hi hf => exact entered i b m f hi hf

theorem Shape.launch : Shape (launch k frames l) :=
  h.launch_elim hp frames l h
    (fun _ _ _ _ _ _ _ _ hi hu => h.slipped hp hi hu rfl rfl rfl rfl (le_succ _))
    (fun _ b m f hi _ => h.started hp hi b m f)

end

end

section

theorem Notified.fits (h : Notified k k') : ∀ i, Fit (k.procs i) (k'.procs i) := by
  obtain ⟨m, eip, sp, eax, sig, rfl⟩ := h
  exact rows_set rfl (Fit.outer rfl) fun _ _ => Fit.refl _

theorem Shape.notified (h : Shape k) (hn : Notified k k') : Shape k' := by
  have hf := Notified.fits hn
  obtain ⟨m, eip, sp, eax, sig, rfl⟩ := hn
  exact h.fits hf rfl rfl rfl rfl

theorem Notified.phase (h : Notified k k') : k'.phase = k.phase := by
  obtain ⟨m, eip, sp, eax, sig, rfl⟩ := h
  rfl

theorem Shape.woke (h : Shape k) (hw : Woke k k') : Shape k' :=
  h.fits (fun i => Roused.fit (hw.procs i) (hw.last i)) hw.current hw.phase hw.launched hw.nextPid

theorem ticked_woke (k : Machine) : Woke (counted k) (ticked k) := procTickAll_woke _

theorem typed_woke (k : Machine) (c : BitVec 8) : Woke k (typed k c) := by
  rw [typed]
  split
  · refine Woke.trans ?_ (procNotify_woke _)
    exact Woke.quiet rfl rfl prefix_rfl prefix_rfl
  · exact .refl k

theorem busy_onward (d : Delivery) (hb : busy ph = true) : busy (onward d ph) = true := by
  cases d with
  | nothing | handled => exact hb
  | exit => rfl

theorem busy_tickEnd (k : Machine) (d : Delivery) : busy (tickEnd k d) = true := by
  cases d with
  | nothing | exit => rfl
  | handled =>
    rw [tickEnd]
    split <;> rfl

theorem withState_formed (h : Shape k) (hb : busy k.phase = true) (hk : p.state ≠ .free)
    (hctx : p.hasCtx = true) (hs : p.space = (cur k).space) (hf : p.fdState = (cur k).fdState)
    (hr : p.fdsRetained = (cur k).fdsRetained) : Formed p := by
  obtain ⟨h0, hu, -⟩ := h.cpu hb
  have hform := h.formed _ h0 hu
  exact ⟨hk, fun _ => hctx, hs ▸ hform.space, hf ▸ hform.fdState, hr ▸ hform.retained⟩

theorem Shape.stepped {a : Act} (h : Shape k) (hst : Stepped k a k') : Shape k' := by
  cases hst with
  | compute | shell | shellKey => exact h.same rfl rfl rfl rfl rfl
  | call c k1 fl hp hc =>
    have hb := busy_at hp
    have h1 := h.entered
    obtain ⟨hs, hph⟩ := h1.sysCall hb c
    rw [hc] at hs hph
    exact hs.after (hph ▸ hb) fl
  | exit code hp =>
    have hb := busy_at hp
    have h1 : Shape { k with frameSwitched := false, active := false } := h.same rfl rfl rfl rfl rfl
    exact h1.onto hb rfl
  | fault hp ha =>
    have hb := busy_at hp
    have h1 : Shape { k with active := false } := h.same rfl rfl rfl rfl rfl
    exact h1.onto hb rfl
  | tick hp =>
    have h1 : Shape (counted k) := h.same rfl rfl rfl rfl rfl
    have hw := ticked_woke k
    refine (h1.woke hw).onto ?_ rfl
    rw [hw.phase, hp]
    rfl
  | idle hp hn =>
    have h1 : Shape (counted k) := h.same rfl rfl rfl rfl rfl
    exact h1.woke (ticked_woke k)
  | key c hp => exact h.woke (typed_woke k c)
  | sleep r o i hp hf hi =>
    have hb := busy_at hp
    have hform : Formed (sleeper k r) := withState_formed h hb PState.noConfusion rfl rfl rfl rfl
    refine (h.idle hb hform ⟨rfl, rfl, rfl, rfl⟩ (by rintro ⟨⟩)).load (pickFrom_runnable hi) ?_ rfl
    exact h.outer (busy_ne hb).1
  | awake r o hp hf hn =>
    have hb := busy_at hp
    have hform : Formed (sleepless k r) := withState_formed h hb PState.noConfusion rfl rfl rfl rfl
    have hstay := h.stay hb hform ⟨rfl, rfl, rfl, rfl⟩ rfl
    have h1 : Shape (stayed k r) := hstay.same rfl rfl rfl rfl rfl
    exact h1.after hb _
  | tableless r o hp hf =>
    have hb := busy_at hp
    exact h.after hb _
  | leave k1 d hp hd =>
    have hnote := delivered_notified hd
    refine (h.notified hnote).onto ?_ (busy_onward d rfl)
    rw [Notified.phase hnote, hp]
    rfl
  | ignored hp hn =>
    have hb := busy_at hp
    exact h.onto hb rfl
  | alarm k1 d hp hd =>
    have hnote := delivered_notified hd
    refine (h.notified hnote).onto ?_ (busy_onward d (busy_tickEnd k1 d))
    rw [Notified.phase hnote, hp]
    rfl
  | yield i hp hi hne =>
    have hb := busy_at hp
    have hform : Formed (yielder k .ready) := withState_formed h hb PState.noConfusion rfl rfl rfl rfl
    refine (h.idle hb hform ⟨rfl, rfl, rfl, rfl⟩ (by rintro ⟨⟩)).load (pickFrom_runnable hi) ?_ rfl
    exact h.outer (busy_ne hb).1
  | keep hp =>
    have hb := busy_at hp
    have hform : Formed (yielder k .running) := withState_formed h hb PState.noConfusion rfl rfl rfl rfl
    exact (h.stay hb hform ⟨rfl, rfl, rfl, rfl⟩ rfl).onto hb rfl
  | die code faulted sys hp => exact h.die hp
  | pick sys i hp hi =>
    refine (h.picking hp).load (pickFrom_runnable hi) (h.outer ?_) (by split <;> rfl)
    rw [hp]
    simp
  | back sys l hp hn hl =>
    rw [Sound.kernelSlot h.toSound]
    have hidle := h.picking hp
    refine ⟨h.toSound.congr rfl rfl, fun i hi hu hr => absurd hr (hidle.still i hi hu),
      fun hb => Bool.noConfusion hb, fun _ hb => Phase.noConfusion hb, fun _ =>
      rfl, h.root, fun _ => ?_, ?_⟩
    · exact Option.isSome_iff_exists.mpr ⟨l, hl⟩
    intro l' hl'
    cases hl'
    exact hl
  | lost sys hp hn hl =>
    have ho := h.outer (by rw [hp]; simp)
    rw [hl] at ho
    cases ho
  | finish l hp => exact h.finish hp
  | launch frames l hp ha => exact h.launch hp frames l
  | refuse frames l hp ha => exact h
  | spinDone v takesKey out m hp =>
    have hb := busy_at hp
    exact Shape.after (k := spun k takesKey m) (h.same rfl rfl rfl rfl rfl) hb _

theorem boot_shape (r : Fs.RamFs.Ram) (mem : UserMem) (cow : Cow) : Shape (boot r mem cow) := by
  have hone : ∀ i, ((boot r mem cow).procs i).used = true → i = 0 := by
    intro i hu
    by_contra hi
    simp only [boot, if_neg hi] at hu
    cases hu
  have hzero : (boot r mem cow).procs 0 = kernelProc := rfl
  refine ⟨⟨⟨rfl, rfl, rfl, rfl, rfl⟩, Nat.one_lt_two, fun i hi hu => absurd (hone i hu) hi, ?_, ?_,
    fun i hi hu => absurd (hone i hu) hi, ?_, ?_⟩, fun i hi hu => absurd (hone i hu) hi,
    fun hb => Bool.noConfusion hb, fun _ hb => Phase.noConfusion hb, fun _ => rfl,
    fun l hl => Option.noConfusion rfl (heq_of_eq hl), fun hb => absurd rfl hb, fun _ hb => by cases hb⟩
  · intro i hu
    rw [hone i hu]
    exact Nat.one_lt_two
  · intro i j hi hj _
    rw [hone i hi, hone j hj]
  · intro i j hi hj he
    rw [hone i hi, hone j hj] at he
    cases he
  · intro i hu
    rw [hone i hu]
    exact Nat.two_pos

variable {r : Fs.RamFs.Ram} {mem : UserMem} {cow : Cow} {as : List Act}

theorem shape_run (h : run step (boot r mem cow) as = some k) : Shape k :=
  run_invariant (fun _ _ _ hs ht => hs.stepped (step_stepped ht)) (boot_shape r mem cow) h

theorem holds_run (hb : I (boot r mem cow))
    (hs : ∀ k a k', Shape k → I k → Stepped k a k' → I k')
    (h : run step (boot r mem cow) as = some k) : I k := by
  refine (run_invariant (I := fun k => Shape k ∧ I k) ?_ ⟨boot_shape r mem cow, hb⟩ h).2
  rintro k a k' ⟨hshape, hi⟩ ht
  have hst := step_stepped ht
  exact ⟨hshape.stepped hst, hs k a k' hshape hi hst⟩

end

end MuOS.Kernel.Layout
