import MuOS.Kernel.ProcTable
import MuOS.Kernel.Step

namespace MuOS.Kernel.Phases

open Function Fs.RamFs User.Descriptors State Wake Sched Calls Stir Tables Prims ProcTable Step Nat

variable {k k' : Machine} {a : Act} {k1 : Machine}

/-- The running process with its table saved, as `p`. -/
def aside (k : Machine) (p : Proc) : Machine :=
  { setProc k k.current p with states := (saveFds k k.current).states }

section

variable (k)

theorem saveFds_eq (i : Fin 8) : saveFds k i = { k with states := (saveFds k i).states } := by
  rw [saveFds]
  split <;> rfl

theorem saveCurrent_eq : saveCurrent k = aside k (withState k (cur k)) := by
  have he := saveFds_eq k k.current
  simp only [saveCurrent]
  rw [he]
  rfl

theorem aside_cur (p : Proc) : cur (aside k p) = p := setProc_self

theorem aside_aside (p q : Proc) : setProc (aside k p) k.current q = aside k q := by
  simp only [aside, setProc, update_idem]

end

def sleeper (k : Machine) (r : Request) : Proc := asleep (withState k (cur k)) r

def sleepless (k : Machine) (r : Request) : Proc :=
  { sleeper k r with state := .running, waitKind := .none, blkHasDeadline := false }

theorem blockCurrent_eq (k : Machine) (r : Request) :
    blockCurrent k r = match pickFrom (aside k (sleeper k r)) (k.current.val + 1) with
      | some i => (schedLoad (aside k (sleeper k r)) i, true)
      | none => ({ aside k (sleepless k r) with active := true }, false) := by
  have hslept : setProc (aside k (withState k (cur k))) (aside k (withState k (cur k))).current
      (asleep (cur (aside k (withState k (cur k)))) r) = aside k (sleeper k r) := by
    rw [aside_cur]
    exact aside_aside k _ _
  have hpick : ∀ n, pickFrom { aside k (sleeper k r) with active := false } n = pickFrom
    (aside k (sleeper k r)) n :=
    fun _ => rfl
  simp only [blockCurrent, saveCurrent_eq, hslept, hpick]
  have hcur : (aside k (sleeper k r)).current = k.current := rfl
  rw [hcur]
  cases pickFrom (aside k (sleeper k r)) (k.current.val + 1) with
  | some i => rfl
  | none =>
    simp only [cur, aside, setProc, update_idem, update_self, sleepless]

def yielder (k : Machine) (st : PState) : Proc := { withState k (cur k) with state := st }

abbrev yields (k : Machine) : Machine := aside k (yielder k .ready)

theorem preempt_eq (k : Machine) : preempt k = match pickFrom (yields k) (k.current.val + 1) with
      | some i => if i = k.current then aside k (yielder k .running) else schedLoad (yields k) i
      | none => aside k (yielder k .running) := by
  have hyield : setProc (aside k (withState k (cur k))) (aside k (withState k (cur k))).current
      { cur (aside k (withState k (cur k))) with state := .ready } = yields k := by
    rw [aside_cur]
    exact aside_aside k _ _
  have hback : setProc (yields k) k.current { cur (yields k) with state := .running } =
      aside k (yielder k .running) := by
    rw [aside_cur]
    exact aside_aside k _ _
  have hcur : (yields k).current = k.current := rfl
  cases hpick : pickFrom (yields k) (k.current.val + 1) with
  | some | none => simp only [preempt, saveCurrent_eq, hyield, hcur, hback, hpick]

def exited (k : Machine) (code : BitVec 32) (faulted : Bool) : Proc :=
  { cur k with
    exitCode := code
    faulted := faulted
    state := .zombie
    hasCtx := false
    blkHasDeadline := false
    waitKind := .none }

/-- In a call, back from an impossible wait, after an exit, a program or a console call. -/
abbrev inCall (k : Machine) : Machine := { k with frameSwitched := false }

abbrev stayed (k : Machine) (r : Request) : Machine :=
  { aside k (sleepless k r) with active := true }

abbrev ended (k : Machine) (code : BitVec 32) (faulted : Bool) : Machine :=
  { aside k (exited k code faulted) with active := false }

abbrev counted (k : Machine) : Machine := { k with ticks := k.ticks + 1#32 }

abbrev halted (k : Machine) : Machine := { k with active := false, cr3 := none }

abbrev spun (k : Machine) (takesKey : Bool) (m : UserMem) : Machine :=
  { k with keys := if takesKey then k.keys.tail else k.keys, mem := m }

theorem exitCurrent_eq (k : Machine) (code : BitVec 32) (faulted : Bool) :
    exitCurrent k code faulted =
      procWakeParent { aside k (exited k code faulted) with active := false } (exited k code faulted) := by
  have he := saveFds_eq k k.current
  simp only [exitCurrent]
  rw [he]
  rfl

def after (k : Machine) : Flow → Machine
  | .ret v => setPhase (setEax k v) .leaving
  | .block r o => setPhase k (.blocking r o)
  | .spin => setPhase k .spin

def instead : Otherwise → Flow
  | .ret v => .ret v
  | .spin => .spin

def onward : Delivery → Phase → Phase
  | .exit code faulted, _ => .exiting code faulted false
  | _, ph => ph

/-- An unfinished launch leaves a free slot and a used number. -/
inductive Unlaunched (k : Machine) : Machine → Prop
  | none : Unlaunched k k
  | undone (i : Fin 8) (p : Proc) (ns : Nat) (m : UserMem) (b : Option User.Window.Brk)
    (h : freeSlot k = some i) (hp : p.used = false) (hn : k.nextSpace ≤ ns) :
    Unlaunched k
    { setProc k i p with nextPid := k.nextPid + 1, nextSpace := ns, mem := m, brk := b }
  | reset (i : Fin 8) (p : Proc) (ns : Nat) (m : UserMem) (b : Option User.Window.Brk)
    (h : freeSlot k = some i) (hp : p.used = false) (hn : k.nextSpace ≤ ns) :
    Unlaunched k { setProc k i p with
      nextPid := k.nextPid + 1, nextSpace := ns, mem := m, brk := b,
      fds := userFdsReset, cwd := [slash], active := true }

def starter (k : Machine) (b : User.Window.Brk) : Proc :=
  { newProc k 1 with
    space := some k.nextSpace
    fdState := some k.nextState
    fdsRetained := true
    cwd := [slash]
    brk := (b.base, b.current)
    state := .running }

def started (k : Machine) (i : Fin 8) (b : User.Window.Brk) (m : UserMem) (f : Regs) : Machine :=
  { setProc k i (starter k b) with
    nextPid := k.nextPid + 1
    nextSpace := k.nextSpace + 1
    states := update k.states k.nextState (some ⟨1, userFdsReset⟩)
    nextState := k.nextState + 1
    cr3 := some k.nextSpace
    mem := m
    fds := userFdsReset
    cwd := [slash]
    active := true
    brk := some b
    tls := ⟨0#32, 0#20, 0#32⟩
    current := i
    frame := f
    launched := some i
    phase := .user }

def Entry (f : Regs) : Prop :=
  f.eflags = 0x202#32 ∧ f.cs = 0x1B#32 ∧ f.ss = 0x23#32 ∧ f.ds = 0x23#32 ∧ f.es = 0x23#32 ∧
    f.fs = 0x23#32 ∧ f.gs = 0x23#32

inductive Launched (k : Machine) : Machine → Prop
  | failed {k' : Machine} (h : Unlaunched k k') : Launched k k'
  | entered (i : Fin 8) (b : User.Window.Brk) (m : UserMem) (f : Regs) (h : freeSlot k = some i)
    (hf : Entry f) : Launched k (started k i b m f)

theorem giveUp_eq {b : Machine} {i : Fin 8} {cr3 : Option Nat} (hu : (b.procs i).used = true)
    (hf : (b.procs i).fdState = none) (hc : b.current ≠ i) :
    giveUp b i cr3 = { setProc b i emptyProc with cr3 := cr3 } :=
  procReap_bare hu hf hc

def entryFrame (entry sp : BitVec 32) (r : Regs) : Regs :=
  { r with
    eip := entry, useresp := sp, eflags := 0x202#32, cs := 0x1B#32, ss := 0x23#32,
    ds := 0x23#32, es := 0x23#32,
    fs := 0x23#32, gs := 0x23#32 }

theorem enterUser_started (k : Machine) (i : Fin 8) (b : User.Window.Brk) (frames : Nat ↪ Nat)
    (entry sp : BitVec 32) (r : Regs) (out : Stores) :
    ∃ m, enterUser (resetFds { giveSpace (procAlloc k i 1) i frames with brk := some b }) i
      entry sp r out =
      started k i b m (entryFrame entry sp r) := by
  simp only [enterUser]
  rw [pokeAll_eq]
  generalize (pokeAll _ out).mem = m
  refine ⟨m, ?_⟩
  simp only [started, starter, fdstateAlloc, resetFds, giveSpace, procAlloc, setProc, update_idem,
    update_self]
  rfl

theorem launch_launched (h0 : k.current = 0) (hk : (k.procs 0).used = true) (frames : Nat ↪ Nat)
    (l : Launch) : Launched k (launch k frames l) := by
  rw [launch]
  split
  · exact .failed .none
  rename_i i hi
  have hne : k.current ≠ i := freeSlot_ne hi (by rw [cur, h0]; exact hk)
  have hb :
    (giveSpace (procAlloc k i 1) i frames).procs i =
    { newProc k 1 with space := some k.nextSpace } := by
    have he : (giveSpace (procAlloc k i 1) i frames).procs i =
      { (procAlloc k i 1).procs i with space := some k.nextSpace } := setProc_self
    rw [he, procAlloc_self]
  have hgive : giveUp (giveSpace (procAlloc k i 1) i frames) i k.cr3 = { setProc k i emptyProc with
        nextPid := k.nextPid + 1
        nextSpace := k.nextSpace + 1
        mem := withSpace k.mem k.nextSpace frames frames.injective } := by
    rw [giveUp_eq (b := giveSpace (procAlloc k i 1) i frames) (by rw [hb]; rfl) (by rw [hb]; rfl) hne]
    simp only [giveSpace, procAlloc, setProc, update_idem]
  have hfail : Launched k (giveUp (giveSpace (procAlloc k i 1) i frames) i k.cr3) := by
    rw [hgive]
    exact .failed (.undone i emptyProc _ _ k.brk hi rfl (le_succ _))
  cases l with
  | noStack =>
    exact .failed (.undone i { newProc k 1 with used := false } k.nextSpace k.mem k.brk hi rfl (le_refl _))
  | noSpace =>
    have ha : (procAlloc k i 1).procs i = newProc k 1 := procAlloc_self k i 1
    have hr := procReap_bare (k := procAlloc k i 1) (by rw [ha]; rfl) (by rw [ha]; rfl) hne
    simp only [hr]
    simp only [procAlloc, setProc, update_idem]
    exact .failed (.undone i emptyProc k.nextSpace k.mem k.brk hi rfl (le_refl _))
  | badImage => exact hfail
  | noRoom imageEnd =>
    simp only [loadImage]
    split
    · exact hfail
    rename_i b _
    rw [giveUp_eq (b := { giveSpace (procAlloc k i 1) i frames with brk := some b })
      (by rw [hb]; rfl) (by rw [hb]; rfl) hne]
    simp only [giveSpace, procAlloc, setProc, update_idem]
    exact .failed (.undone i emptyProc _ _ (some b) hi rfl (le_succ _))
  | noTable imageEnd =>
    simp only [loadImage]
    split
    · exact hfail
    rename_i b _
    rw [giveUp_eq (b := resetFds { giveSpace (procAlloc k i 1) i frames with brk := some b })
      (by simp only [resetFds, hb]; rfl) (by simp only [resetFds, hb]; rfl) hne]
    simp only [resetFds, giveSpace, procAlloc, setProc, update_idem]
    exact .failed (.reset i emptyProc _ _ (some b) hi rfl (le_succ _))
  | entered imageEnd entry sp r out =>
    simp only [loadImage]
    split
    · exact hfail
    rename_i b _
    obtain ⟨m, hm⟩ := enterUser_started k i b frames entry sp r out
    rw [hm]
    exact .entered i b m _ hi ⟨rfl, rfl, rfl, rfl, rfl, rfl, rfl⟩

/-- The signals, frame and memory of the running process change. -/
def Notified (k k' : Machine) : Prop :=
  ∃ m eip sp eax sig, k' =
    { setProc k k.current { cur k with sig := sig } with
      mem := m
      frame := { k.frame with eip := eip, useresp := sp, eax := eax } }

theorem Notified.refl (k : Machine) : Notified k k := by
  refine ⟨k.mem, k.frame.eip, k.frame.useresp, k.frame.eax, (cur k).sig, ?_⟩
  simp only [setProc, cur, update_eq_self]

theorem Notified.trans (h : Notified k k1) (h' : Notified k1 k') : Notified k k' := by
  obtain ⟨m, eip, sp, eax, sig, rfl⟩ := h
  obtain ⟨m', eip', sp', eax', sig', rfl⟩ := h'
  refine ⟨m', eip', sp', eax', sig', ?_⟩
  simp only [setProc, cur, update_idem, update_self]

theorem enterHandler_notified (k : Machine) (sig : Fin 32) (base : BitVec 32) :
    Notified k (enterHandler k sig base) := by
  obtain ⟨m, hm⟩ := poke_pokes k (base - 8#32)
    ((returnTo (cur k) sig :: BitVec.ofNat 32 sig.val :: sigFrame k.frame).flatMap le32)
  simp only [enterHandler, hm]
  exact ⟨m, _, _, _, _, rfl⟩

theorem handleSignal_notified (k : Machine) (sig : Fin 32) : Notified k (handleSignal k sig).1 := by
  simp only [handleSignal]
  split
  · exact .refl _
  split
  · exact .refl _
  · exact enterHandler_notified ..

theorem deliverFrom_notified (sigs : List (Fin 32)) (k : Machine) :
    Notified k (deliverFrom sigs k).1 := by
  have hsig : ∀ k s, Notified k (setProc k k.current { cur k with sig := s }) :=
    fun k s => ⟨k.mem, k.frame.eip, k.frame.useresp, k.frame.eax, s, rfl⟩
  induction sigs generalizing k with
  | nil => exact .refl k
  | cons sig sigs ih =>
    simp only [deliverFrom]
    split
    · exact ih k
    split
    · exact (hsig k _).trans (ih _)
    split
    · split
      · exact hsig k _
      · exact (hsig k _).trans (ih _)
    · exact (hsig k _).trans (handleSignal_notified _ sig)

theorem delivered_notified {d : Delivery} (hd : signalDeliver k = (k1, d)) : Notified k k1 := by
  have hnote : Notified k (signalDeliver k).1 := deliverFrom_notified _ k
  rwa [hd] at hnote

def tickEnd (k : Machine) : Delivery → Phase
  | .handled => if k.frameSwitched then .user else .switching
  | _ => .switching

inductive Stepped (k : Machine) : Act → Machine → Prop
  | compute (r : Regs) (out : Stores) (m : UserMem) (hp : k.phase = .user) :
    Stepped k (.compute r out) { k with frame := { r with cs := 0x1B#32 }, mem := m }
  | call (c : Call) (k1 : Machine) (fl : Flow) (hp : k.phase = .user)
    (hc : sysCall { k with frameSwitched := false } c = (k1, fl)) : Stepped k (.sys c) (after k1 fl)
  | exit (code : BitVec 32) (hp : k.phase = .user) :
    Stepped k (.exit code)
    { k with frameSwitched := false, active := false, phase := .exiting code false true }
  | fault (hp : k.phase = .user) (ha : k.active = true) :
    Stepped k .fault { k with active := false, phase := .exiting 139#32 true false }
  | tick (hp : k.phase = .user) : Stepped k .tick (setPhase (ticked k) .ticked)
  | idle (hp : takesIrq k.phase = true) (hn : k.phase ≠ .user) : Stepped k .tick (ticked k)
  | key (c : BitVec 8) (hp : takesIrq k.phase = true) : Stepped k (.key c) (typed k c)
  | sleep (r : Request) (o : Otherwise) (i : Fin 8) (hp : k.phase = .blocking r o)
    (hf : (cur k).fdState.isSome = true)
    (hi : pickFrom (aside k (sleeper k r)) (k.current.val + 1) = some i) :
    Stepped k .go (setPhase (schedLoad (aside k (sleeper k r)) i) .leaving)
  | awake (r : Request) (o : Otherwise) (hp : k.phase = .blocking r o)
    (hf : (cur k).fdState.isSome = true)
    (hn : pickFrom (aside k (sleeper k r)) (k.current.val + 1) = none) :
    Stepped k .go (after { aside k (sleepless k r) with active := true } (instead o))
  | tableless (r : Request) (o : Otherwise) (hp : k.phase = .blocking r o)
    (hf : (cur k).fdState.isSome = false) : Stepped k .go (after k (instead o))
  | leave (k1 : Machine) (d : Delivery) (hp : k.phase = .leaving) (hd : signalDeliver k = (k1, d)) :
    Stepped k .go (setPhase k1 (onward d .user))
  | ignored (hp : k.phase = .ticked) (hn : (cur k).state ≠ .running ∨
    (cur k).fdState.isNone = true) :
    Stepped k .go (setPhase k .user)
  | alarm (k1 : Machine) (d : Delivery) (hp : k.phase = .ticked) (hd : signalDeliver k = (k1, d)) :
    Stepped k .go (setPhase k1 (onward d (tickEnd k1 d)))
  | yield (i : Fin 8) (hp : k.phase = .switching)
    (hi : pickFrom (aside k (yielder k .ready)) (k.current.val + 1) = some i)
    (hne : i ≠ k.current) :
    Stepped k .go (setPhase (schedLoad (aside k (yielder k .ready)) i) .user)
  | keep (hp : k.phase = .switching) : Stepped k .go (setPhase (aside k (yielder k .running)) .user)
  | die (code : BitVec 32) (faulted sys : Bool) (hp : k.phase = .exiting code faulted sys) :
    Stepped k .go (setPhase
      (procWakeParent { aside k (exited k code faulted) with active := false }
      (exited k code faulted)) (.picking sys))
  | pick (sys : Bool) (i : Fin 8) (hp : k.phase = .picking sys) (hi : pickFrom k 0 = some i) :
    Stepped k .go (setPhase (schedLoad k i) (if sys then .leaving else .user))
  | back (sys : Bool) (l : Fin 8) (hp : k.phase = .picking sys) (hn : pickFrom k 0 = none)
    (hl : k.launched = some l) :
    Stepped k .go { k with cr3 := none, current := kernelSlot k, phase := .returned l }
  | lost (sys : Bool) (hp : k.phase = .picking sys) (hn : pickFrom k 0 = none)
    (hl : k.launched = none) :
    Stepped k .go { k with cr3 := none, current := kernelSlot k, phase := .shell }
  | finish (l : Fin 8) (hp : k.phase = .returned l) : Stepped k .go (Step.finish k l)
  | launch (frames : Nat ↪ Nat) (l : Launch) (hp : k.phase = .shell) (ha : k.active = false) :
    Stepped k (.launch frames l) (Step.launch k frames l)
  | refuse (frames : Nat ↪ Nat) (l : Launch) (hp : k.phase = .shell) (ha : k.active = true) :
    Stepped k (.launch frames l) k
  | shell (o : Op) (hp : k.phase = .shell) (ho : shellMay o = true) :
    Stepped k (.shell o) { k with ram := (Fs.RamFs.call k.ram o).ram }
  | shellKey (hp : k.phase = .shell) : Stepped k .shellKey { k with keys := k.keys.tail }
  | spinDone (v : BitVec 32) (takesKey : Bool) (out : Stores) (m : UserMem) (hp : k.phase = .spin) :
    Stepped k (.spinDone v takesKey out)
      (after { k with keys := if takesKey then k.keys.tail else k.keys, mem := m } (.ret v))

theorem goBlocking_stepped {r : Request} {o : Otherwise} (hp : k.phase = .blocking r o) :
    Stepped k .go (goBlocking k r o) := by
  by_cases hf : (cur k).fdState.isSome = true
  · simp only [goBlocking, if_pos hf, blockCurrent_eq]
    cases hi : pickFrom (aside k (sleeper k r)) (k.current.val + 1) with
    | some i => exact .sleep r o i hp hf hi
    | none =>
      cases o with
      | ret | spin => exact .awake r _ hp hf hi
  · simp only [goBlocking, if_neg hf]
    cases o with
    | ret | spin => exact .tableless r _ hp (Bool.eq_false_iff.mpr hf)

theorem goOn_stepped (h : goOn k = some k') : Stepped k .go k' := by
  simp only [goOn] at h
  split at h
  · rename_i r o hp
    cases h
    exact goBlocking_stepped hp
  · rename_i hp
    cases h
    cases hd : signalDeliver k with
    | mk k1 d =>
      have he : goLeaving k = setPhase k1 (onward d .user) := by
        rw [goLeaving, hd]
        cases d <;> rfl
      rw [he]
      exact .leave k1 d hp hd
  · rename_i hp
    cases h
    rw [goTicked]
    split
    · rename_i hn
      exact .ignored hp hn
    cases hd : signalDeliver k with
    | mk k1 d =>
      cases d with
      | nothing => exact .alarm k1 .nothing hp hd
      | handled => exact .alarm k1 .handled hp hd
      | exit code faulted => exact .alarm k1 (.exit code faulted) hp hd
  · rename_i hp
    cases h
    rw [preempt_eq]
    split
    · rename_i i hi
      split
      · exact .keep hp
      rename_i hne
      exact .yield i hp hi hne
    · exact .keep hp
  · rename_i code faulted sys hp
    cases h
    rw [exitCurrent_eq]
    exact .die code faulted sys hp
  · rename_i sys hp
    cases h
    rw [goPicking]
    split
    · rename_i i hi
      exact .pick sys i hp hi
    rename_i hn
    split
    · rename_i l hl
      exact .back sys l hp hn hl
    · rename_i hl
      exact .lost sys hp hn hl
  · rename_i l hp
    cases h
    exact .finish l hp
  · cases h

theorem step_stepped (h : step k a = some k') : Stepped k a k' := by
  cases a with
  | go => exact goOn_stepped h
  | tick =>
    simp only [step] at h
    split at h
    · cases h
    rename_i hirq
    have hirq' : takesIrq k.phase = true := by simpa using hirq
    split at h
    · rename_i hp
      cases h
      exact .tick hp
    · rename_i hn
      cases h
      exact .idle hirq' hn
  | key c =>
    simp only [step] at h
    split at h
    · rename_i hirq
      cases h
      exact .key c hirq
    · cases h
  | compute r out =>
    simp only [step, userAct, shellAct, spinAct] at h
    split at h
    · rename_i hp
      cases h
      rw [pokeAll_eq]
      exact .compute r out _ hp
    all_goals cases h
  | sys c =>
    simp only [step, userAct, shellAct, spinAct] at h
    split at h
    · rename_i hp
      cases h
      cases hc : sysCall { k with frameSwitched := false } c with
      | mk k1 fl =>
        have he : enterCall k c = after k1 fl := by
          rw [enterCall, hc]
          cases fl <;> rfl
        rw [he]
        exact .call c k1 fl hp hc
    all_goals cases h
  | exit code =>
    simp only [step, userAct, shellAct, spinAct] at h
    split at h
    · rename_i hp
      cases h
      exact .exit code hp
    all_goals cases h
  | fault =>
    simp only [step, userAct, shellAct, spinAct] at h
    split at h
    · rename_i hp
      split at h
      · rename_i ha
        cases h
        exact .fault hp ha
      · cases h
    all_goals cases h
  | spinDone v takesKey out =>
    simp only [step, userAct, shellAct, spinAct] at h
    split at h
    case h_3 hp =>
      cases h
      rw [pokeAll_eq]
      exact .spinDone v takesKey out _ hp
    all_goals cases h
  | launch frames l =>
    simp only [step, userAct, shellAct, spinAct] at h
    split at h
    case h_2 hp =>
      cases h
      split
      · rename_i ha
        exact .refuse frames l hp ha
      · rename_i ha
        exact .launch frames l hp (Bool.eq_false_iff.mpr ha)
    all_goals cases h
  | shell o =>
    simp only [step, userAct, shellAct, spinAct] at h
    split at h
    case h_2 hp =>
      split at h
      · rename_i ho
        cases h
        exact .shell o hp ho
      · cases h
    all_goals cases h
  | shellKey =>
    simp only [step, userAct, shellAct, spinAct] at h
    split at h
    case h_2 hp =>
      cases h
      exact .shellKey hp
    all_goals cases h

end MuOS.Kernel.Phases
