import MuOS.Kernel.Rows

namespace MuOS.Kernel.Waiting

open Lib.Runs User.Window Syscall.Vfs State Wake Sched Calls Stir Tables Prims ProcTable Step Phases
  Layout Option List

variable {k k' k1 : Machine} {c : Call} {i j : Fin 8} {want : Int} {v w : BitVec 32} {l : Looking}
  {r : Request}

/-- A matching child that has not been reported. -/
def Unreported (k : Machine) (want : Int) (i : Fin 8) : Prop :=
  isChild k want (k.procs i) = true ∧
    ¬((k.procs i).pid = (cur k).lastWaitPid ∧ (k.procs i).state = .zombie)

theorem isChild_spec {p : Proc} : isChild k want p = true ↔
    p.used = true ∧ p.ppid = (cur k).pid ∧ ¬(0 < want ∧ (p.pid : Int) ≠ want) := by
  simp only [isChild, Bool.and_eq_true, beq_iff_eq, Bool.not_eq_true', Bool.and_eq_false_iff,
    decide_eq_false_iff_not, and_assoc, not_and_or]

theorem isChild_congr {p p' : Proc} (hc : (cur k').pid = (cur k).pid) (hf : Fit p p') :
    isChild k' want p' = isChild k want p := by
  rw [isChild, isChild, hc, hf.used, hf.pid, hf.ppid]

theorem reapReported_children (hs : Sound k) (hr : (cur k).state = .running) (i : Fin 8) :
    isChild (reapReported k) want ((reapReported k).procs i) = true ↔ Unreported k want i := by
  have hset := reapReported_settled k
  generalize reapReported k = k1 at hset
  cases hset with
  | none h0 =>
    refine ⟨fun hc => ⟨hc, fun hn => ?_⟩, And.left⟩
    have hpos := hs.pos (isChild_spec.mp hc).1
    omega
  | kept hk =>
    have hcur : (cur (forget k)).pid = (cur k).pid := by rw [forget, cur_setProc]
    rw [isChild_congr hcur (forget_row k i)]
    refine ⟨fun hc => ⟨hc, fun hn => ?_⟩, And.left⟩
    have hf := Sound.procFind hs (isChild_spec.mp hc).1
    rw [hn.1] at hf
    exact hk i hf hn.2
  | reaped j hj hz =>
    obtain ⟨huj, hpj⟩ := procFind_some hj
    have hc := running_ne hr hz
    have hcur : (cur (forget (procReap k j))).pid = (cur k).pid := by
      rw [forget, cur_setProc]
      exact (procReap_cur huj hc).pid
    by_cases hij : i = j
    · subst hij
      have hgone : (forget (procReap k i)).procs i = emptyProc := by
        rw [forget, procReap_current huj hc, setProc_ne hc.symm, procReap_self huj hc]
      rw [hgone]
      refine ⟨fun hch => ?_, fun hun => absurd ⟨hpj, hz⟩ hun.2⟩
      cases (isChild_spec.mp hch).1
    · rw [isChild_congr hcur ((procReap_fit huj hc hij).trans (forget_row _ i))]
      refine ⟨fun hch => ⟨hch, fun hn => hij ?_⟩, And.left⟩
      exact hs.distinct i j (isChild_spec.mp hch).1 huj (hn.1.trans hpj.symm)

theorem findChild_none : findChild k want = none ↔ ∀ i, isChild k want (k.procs i) = false := by
  rw [findChild, find?_eq_none]
  constructor
  · intro h i
    exact Bool.eq_false_iff.mpr (h i (mem_finRange i))
  · intro h i _
    rw [h i]
    simp

def entered (k : Machine) : Machine := { k with frameSwitched := false }

/-- A wait after its checks: the number asked for, and may it block. -/
structure Looking where
  state : Machine
  want : Int
  nohang : Bool
  told : Proc → BitVec 32

def looking (k : Machine) : Call → Option Looking
  | .wait4 pid status options =>
    if status ≠ 0#32 ∧ !userPtrOk status.toNat 4 then none
    else some ⟨reapReported k, pid.toInt, hasFlag options 1#32, fun p => BitVec.ofNat 32 p.pid⟩
  | .waitid idtype id infop options =>
    if !userPtrOk infop.toNat 128 then none
    else some ⟨reapReported (pokeCur k infop (List.replicate 128 0#8)),
      if idtype = 1#32 then id.toInt else -1, hasFlag options 1#32, fun _ => 0#32⟩
  | _ => none

def asksFor : Call → Option Int
  | .wait4 pid _ _ => some pid.toInt
  | .waitid idtype id _ _ => some (if idtype = 1#32 then id.toInt else -1)
  | _ => none

def Stuck (k : Machine) : Prop := ∀ j, j ≠ k.current → runnable (k.procs j) = false

/-- The call returns, at once or because it could not sleep. -/
def Returns (k : Machine) (c : Call) (v : BitVec 32) : Prop :=
  ∃ k', (step k (.sys c) = some k' ∨ ∃ k1 r o, step k (.sys c) = some k1 ∧
    k1.phase = .blocking r o ∧ step k1 .go = some k') ∧
    k'.phase = .leaving ∧ k'.current = k.current ∧ k'.frame.eax = v

inductive Waits (l : Looking) : Machine × Flow → Prop
  | found (i : Fin 8) (k1 : Machine) (h : findZombieChild l.state l.want = some i)
    (hc : k1.current = l.state.current) : Waits l (k1, .ret (l.told (l.state.procs i)))
  | childless (h : findZombieChild l.state l.want = none) (hn : findChild l.state l.want = none) :
    Waits l (l.state, .ret (errnoOf eCHILD))
  | nohang (h : findZombieChild l.state l.want = none) (hn : findChild l.state l.want ≠ none)
    (hh : l.nohang = true) : Waits l (l.state, .ret 0#32)
  | block (r : Request) (h : findZombieChild l.state l.want = none)
    (hn : findChild l.state l.want ≠ none) (hh : l.nohang = false) :
    Waits l (l.state, .block r (.ret (errnoOf eCHILD)))

theorem waitOr_waits (r : Request) (h : findZombieChild l.state l.want = none) :
    Waits l (waitOr l.state l.want l.nohang r) := by
  rw [waitOr]
  split
  · rename_i hn
    exact .childless h (isNone_iff_eq_none.mp hn)
  rename_i hn
  have hn' : findChild l.state l.want ≠ none := fun he => hn (by rw [he]; rfl)
  split
  · rename_i hh
    exact .nohang h hn' hh
  · rename_i hh
    exact .block r h hn' (Bool.eq_false_iff.mpr hh)

theorem reaped_current (hr : (cur k).state = .running) (hk : Pokes k k1)
    (h : findZombieChild k want = some i) : (procReap k1 i).current = k.current := by
  obtain ⟨hch, hz⟩ := findZombieChild_some h
  obtain ⟨m, rfl⟩ := hk
  exact procReap_current (isChild_spec.mp hch).1 (running_ne hr hz)

theorem sysCall_waits (hl : looking k c = some l) (hr : (cur l.state).state = .running) :
    Waits l (sysCall k c) := by
  cases c with
  | wait4 pid status options =>
    simp only [looking] at hl
    split at hl
    · cases hl
    rename_i hp
    cases hl
    simp only [sysCall, doWait4, if_neg hp]
    split
    · rename_i i hi
      refine .found i _ hi (reaped_current hr ?_ hi)
      split
      · exact .refl _
      · exact poke_pokes ..
    · rename_i hn
      exact waitOr_waits _ hn
  | waitid idtype id infop options =>
    simp only [looking] at hl
    split at hl
    · cases hl
    rename_i hp
    cases hl
    simp only [sysCall, doWaitid, if_neg hp]
    generalize (if idtype = 1#32 then id.toInt else -1) = want
    split
    · rename_i i hi
      exact .found i _ hi (reaped_current hr (poke_pokes ..) hi)
    · rename_i hn
      exact waitOr_waits _ hn
  | _ => exact absurd hl (by simp [looking])

theorem looking_state (h : Shape k) (hb : busy k.phase = true) (hl : looking k c = some l) :
    l.state.current = k.current ∧ (cur l.state).state = .running ∧
      (cur l.state).fdState.isSome = true ∧ asksFor c = some l.want ∧
      ∀ i, isChild l.state l.want (l.state.procs i) = true ↔ Unreported k l.want i := by
  have hstart : ∀ m want, (reapReported { k with mem := m }).current = k.current ∧
      (cur (reapReported { k with mem := m })).state = .running ∧
      (cur (reapReported { k with mem := m })).fdState.isSome = true ∧
      ∀ i, isChild (reapReported { k with mem := m }) want
        ((reapReported { k with mem := m }).procs i) = true ↔ Unreported k want i := by
    intro m want
    have h1 : Shape { k with mem := m } := h.same rfl rfl rfl rfl rfl
    obtain ⟨h0, hu, hr⟩ := h1.cpu hb
    have ht := Does.turned (c := .sleep) Does.settled h1.toSound h0 hu hr
    have h2 := h1.turned hb ht
    obtain ⟨h0', hu', hr'⟩ := h2.cpu (by rw [ht.phase]; exact hb)
    exact ⟨ht.current, hr', (h2.formed _ h0' hu').fdState, fun i => reapReported_children h1.toSound hr i⟩
  cases c with
  | wait4 pid status options =>
    simp only [looking] at hl
    split at hl
    · cases hl
    cases hl
    obtain ⟨hc, hr, hf, hch⟩ := hstart k.mem pid.toInt
    exact ⟨hc, hr, hf, rfl, hch⟩
  | waitid idtype id infop options =>
    simp only [looking] at hl
    split at hl
    · cases hl
    cases hl
    obtain ⟨m, hm⟩ := poke_pokes k infop (replicate 128 0#8)
    obtain ⟨hc, hr, hf, hch⟩ := hstart m (if idtype = 1#32 then id.toInt else -1)
    rw [← hm] at hc hr hf hch
    exact ⟨hc, hr, hf, rfl, hch⟩
  | _ => exact absurd hl (by simp [looking])

theorem asleep_stuck (k : Machine) (r : Request) (n : Nat) :
    pickFrom (aside k (sleeper k r)) n = none ↔ Stuck k := by
  have hself : runnable ((aside k (sleeper k r)).procs k.current) = false := by
    have he : (aside k (sleeper k r)).procs k.current = sleeper k r := setProc_self
    rw [he]
    simp only [runnable, sleeper, asleep]
    rw [Bool.and_eq_false_iff, Bool.and_eq_false_iff]
    exact .inl (.inr rfl)
  have hother : ∀ j, j ≠ k.current → (aside k (sleeper k r)).procs j = k.procs j :=
    fun j hj => setProc_ne hj
  rw [pickFrom, find?_eq_none]
  constructor
  · intro h j hj
    rw [← hother j hj]
    refine Bool.eq_false_iff.mpr (h j ?_)
    rw [List.mem_map]
    refine ⟨(j.val + 8 * n - n) % 8, mem_range.mpr (Nat.mod_lt _ (by decide)), ?_⟩
    apply Fin.ext
    simp only [Fin.ofNat]
    omega
  · intro h j _
    by_cases hj : j = k.current
    · rw [hj, hself]
      simp
    · rw [hother j hj, h j hj]
      simp

/-- A wait ends in -ECHILD with a child: none has exited, it may block, and nothing
else can run; or the child's number reads so. -/
def Misled (l : Looking) : Prop :=
  (findZombieChild l.state l.want = none ∧ findChild l.state l.want ≠ none ∧ l.nohang = false ∧
    Stuck l.state) ∨ ∃ i, findZombieChild l.state l.want = some i ∧
    l.told (l.state.procs i) = errnoOf eCHILD

theorem step_sys (hp : k.phase = .user) {fl : Flow} (hc : sysCall (entered k) c = (k1, fl)) :
    step k (.sys c) = some (after k1 fl) := by
  have he : step k (.sys c) = some (enterCall k c) := by
    simp only [step]
    rw [hp]
    rfl
  have hcall : enterCall k c = after k1 fl := by
    rw [enterCall, ← entered, hc]
    cases fl <;> rfl
  rw [he, hcall]

theorem returns_ret (hp : k.phase = .user) (hc : sysCall (entered k) c = (k1, .ret w))
    (hk : k1.current = k.current) : Returns k c v ↔ v = w := by
  have hstep := step_sys hp hc
  constructor
  · rintro ⟨k', hk' | ⟨k2, r, o, hk2, hph, -⟩, -, -, hv⟩
    · rw [hstep] at hk'
      cases hk'
      exact hv.symm
    · rw [hstep] at hk2
      cases hk2
      cases hph
  · rintro rfl
    exact ⟨_, .inl hstep, rfl, hk, rfl⟩

theorem goBlocking_returns (hf : (cur k).fdState.isSome = true) :
      (goBlocking k r (.ret w)).phase = .leaving ∧ ((goBlocking k r (.ret w)).current = k.current ∧
      (goBlocking k r (.ret w)).frame.eax = v ↔ v = w ∧ Stuck k) := by
  have hstuck := asleep_stuck k r (k.current.val + 1)
  simp only [goBlocking, if_pos hf, blockCurrent_eq]
  cases hi : pickFrom (aside k (sleeper k r)) (k.current.val + 1) with
  | some i =>
    refine ⟨rfl, ⟨fun hc => ?_, fun hs => ?_⟩⟩
    · have he : i = k.current := hc.1
      have hself : (aside k (sleeper k r)).procs k.current = sleeper k r := setProc_self
      have hrun := (runnable_spec (pickFrom_runnable hi)).2.1
      rw [he, hself] at hrun
      cases hrun
    · rw [hi] at hstuck
      cases hstuck.mpr hs.2
  | none =>
    refine ⟨rfl, ⟨fun hc => ⟨hc.2.symm, hstuck.mp hi⟩, fun hs => ⟨rfl, hs.1.symm⟩⟩⟩

theorem returns_block (hp : k.phase = .user)
    (hc : sysCall (entered k) c = (k1, .block r (.ret w))) (hk : k1.current = k.current)
    (hf : (cur k1).fdState.isSome = true) : Returns k c v ↔ v = w ∧ Stuck k1 := by
  have hstep := step_sys hp hc
  obtain ⟨hlv, hret⟩ := goBlocking_returns (k := setPhase k1 (.blocking r (.ret w))) hf
  constructor
  · rintro ⟨k', hk' | ⟨k2, r', o', hk2, -, hgo⟩, hph, hcur, hv⟩
    · rw [hstep] at hk'
      cases hk'
      cases hph
    · rw [hstep] at hk2
      cases hk2
      cases hgo
      exact hret.mp ⟨hcur.trans hk.symm, hv⟩
  · intro hs
    obtain ⟨hcur, hv⟩ := hret.mpr hs
    exact ⟨_, .inr ⟨_, r, .ret w, hstep, rfl, rfl⟩, hlv, hcur.trans hk, hv⟩

theorem sysCall_faults (hc : asksFor c = some want) (hl : looking k c = none) :
    sysCall k c = failWith k eFAULT := by
  cases c with
  | wait4 pid status options =>
    simp only [looking] at hl
    split at hl
    · rename_i hp
      simp only [sysCall, doWait4, if_pos hp]
    · cases hl
  | waitid idtype id infop options =>
    simp only [looking] at hl
    split at hl
    · rename_i hp
      simp only [sysCall, doWaitid, if_pos hp]
    · cases hl
  | _ => exact absurd hc (by simp [asksFor])

/-- A wait returns -ECHILD to a process with no child left to report, unless it is
misled. -/
theorem echild_iff {r : Fs.RamFs.Ram} {mem : UserMem} {cow : Cow} {as : List Act}
    (h : run step (boot r mem cow) as = some k) (hp : k.phase = .user)
    (hc : asksFor c = some want) : (Returns k c (errnoOf eCHILD) → ∀ i, ¬ Unreported k want i) ↔
    ∀ l, looking (entered k) c = some l → ¬ Misled l := by
  have hb : busy (entered k).phase = true := by rw [entered, hp]; rfl
  have hs : Shape (entered k) := (shape_run h).same rfl rfl rfl rfl rfl
  cases hl : looking (entered k) c with
  | none =>
    refine ⟨fun _ l hl' => absurd hl' (by simp), fun _ hr => ?_⟩
    have hcall := sysCall_faults hc hl
    have hv := (returns_ret hp hcall rfl).mp hr
    cases hv
  | some l =>
    obtain ⟨hcur, hrun, hfd, hask, hchild⟩ := looking_state hs hb hl
    cases hask.symm.trans hc
    have hwaits := sysCall_waits hl hrun
    have hall : (∀ i, ¬ Unreported k l.want i) ↔ findChild l.state l.want = none := by
      rw [findChild_none]
      refine forall_congr' fun i => ?_
      rw [← Bool.not_eq_true, not_iff_not]
      exact (hchild i).symm
    have hone : ∀ i, findZombieChild l.state l.want = some i → findChild l.state l.want ≠ none := by
      intro i hi hn
      cases (findZombieChild_some hi).1.symm.trans (findChild_none.mp hn i)
    rw [hall]
    generalize hcall : sysCall (entered k) c = res at hwaits
    have hgoal : (Returns k c (errnoOf eCHILD) → findChild l.state l.want = none) ↔ ¬ Misled l := by
      cases hwaits with
      | found i k1 hi hk1 =>
        have hret := returns_ret (v := errnoOf eCHILD) hp hcall (hk1.trans hcur)
        rw [hret]
        refine ⟨fun hno hm => ?_, fun hm he => absurd (.inr ⟨i, hi, he.symm⟩) hm⟩
        rcases hm with ⟨hz, -⟩ | ⟨j, hj, hv⟩
        · cases hz.symm.trans hi
        cases hi.symm.trans hj
        exact hone i hi (hno hv.symm)
      | childless hz hn =>
        refine ⟨fun _ hm => ?_, fun _ _ => hn⟩
        rcases hm with ⟨-, hn', -⟩ | ⟨j, hj, -⟩
        · exact hn' hn
        · cases hz.symm.trans hj
      | nohang hz hn hh =>
        have hret := returns_ret (v := errnoOf eCHILD) hp hcall hcur
        rw [hret]
        refine ⟨fun _ hm => ?_, fun _ he => absurd he (by decide)⟩
        rcases hm with ⟨-, -, hh', -⟩ | ⟨j, hj, -⟩
        · cases hh.symm.trans hh'
        · cases hz.symm.trans hj
      | block r hz hn hh =>
        have hret := returns_block (v := errnoOf eCHILD) hp hcall hcur hfd
        rw [hret]
        refine ⟨fun hno hm => ?_, fun hm he => absurd (.inl ⟨hz, hn, hh, he.2⟩) hm⟩
        rcases hm with ⟨-, -, -, hstuck⟩ | ⟨j, hj, -⟩
        · exact hn (hno ⟨rfl, hstuck⟩)
        · cases hz.symm.trans hj
    rw [hgoal]
    refine ⟨fun hm l' hl' => ?_, fun hm => hm l rfl⟩
    cases hl'
    exact hm

theorem echild_iff_childless :
    (∃ k, run step plain [enter] = some k ∧ k.phase = .user ∧
      (Returns k (.wait4 (-1#32) 0#32 0#32) (errnoOf eCHILD) → ∀ i, ¬ Unreported k (-1) i)) ∧
    ∃ k, run step plain [enter, .sys (.fork none), .go] = some k ∧ Unreported k (-1) 2 ∧
      ¬ Returns k (.wait4 (-1#32) 0#32 0#32) (errnoOf eCHILD) := by
  refine ⟨?_, ?_⟩
  · obtain ⟨k, hk, hp, hz, hn⟩ : ∃ k, run step plain [enter] = some k ∧ k.phase = .user ∧
        findZombieChild (reapReported (entered k)) (-1) = none ∧
        findChild (reapReported (entered k)) (-1) = none :=
      ⟨_, rfl, rfl, by decide +kernel, by decide +kernel⟩
    refine ⟨k, hk, hp, (echild_iff hk hp rfl).mpr fun l hl hm => ?_⟩
    cases hl
    rcases hm with ⟨-, hn', -⟩ | ⟨j, hj, -⟩
    · exact hn' hn
    · cases hz.symm.trans hj
  · obtain ⟨k, hk, hp, hch, hlive, hz, hr⟩ : ∃ k, run step plain [enter, .sys (.fork none), .go] = some k ∧
        inUser k.phase = true ∧ isChild k (-1) (k.procs 2) = true ∧ (k.procs 2).state = .ready ∧
        findZombieChild (reapReported (entered k)) (-1) = none ∧
        ∃ j, j ≠ (reapReported (entered k)).current ∧
        runnable ((reapReported (entered k)).procs j) = true := by
      decide +kernel
    have hun : Unreported k (-1) 2 := ⟨hch, fun hn => by cases hlive.symm.trans hn.2⟩
    refine ⟨k, hk, hun, fun hret => ?_⟩
    refine (echild_iff hk (inUser_eq hp) rfl).mpr (fun l hl hm => ?_) hret 2 hun
    cases hl
    -- the child can run, so the parent sleeps
    rcases hm with ⟨-, -, -, hstuck⟩ | ⟨j, hj, -⟩
    · obtain ⟨j, hj, hrun⟩ := hr
      cases hrun.symm.trans (hstuck j hj)
    · cases hz.symm.trans hj

def sleepingChild : List Act :=
  [enter, .sys (.fork none), .go, .tick, .go, .go,
    .sys (.read 0#32 0x08049000#32 1#32 ⟨false, 0, fun _ _ => [], fun _ => 0#32, fun _ _ => 0⟩ []),
    .go, .go]

theorem sleeping_child_is_missed : ∃ k, run step plain sleepingChild = some k ∧ k.phase = .user ∧
      Unreported k (-1) 2 ∧ Returns k (.wait4 (-1#32) 0#32 0#32) (errnoOf eCHILD) := by
  obtain ⟨k, hk, hp, hch, hz, k1, h1, hb, k2, h2, hl, hcur, heax⟩ :
      ∃ k, run step plain sleepingChild = some k ∧ inUser k.phase = true ∧
      isChild k (-1) (k.procs 2) = true ∧ (k.procs 2).state = .blocked ∧
      ∃ k1, step k (.sys (.wait4 (-1#32) 0#32 0#32)) = some k1 ∧ isBlocking k1.phase = true ∧
        ∃ k2, step k1 .go = some k2 ∧ isLeaving k2.phase = true ∧ k2.current = k.current ∧
        k2.frame.eax = errnoOf eCHILD := by
    decide +kernel
  obtain ⟨r, o, hph⟩ := isBlocking_eq hb
  refine ⟨k, hk, inUser_eq hp, ⟨hch, fun hn => ?_⟩, k2, .inr ⟨k1, r, o, h1, hph, h2⟩,
    isLeaving_eq hl, hcur, heax⟩
  cases hz.symm.trans hn.2

end MuOS.Kernel.Waiting
