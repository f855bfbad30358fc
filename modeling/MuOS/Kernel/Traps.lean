import MuOS.Kernel.Layout

namespace MuOS.Kernel.Traps

open Lib.Runs User.Window State Wake Sched Calls Stir Tables Prims ProcTable Step Phases Layout

structure Cpu where
  current : Fin 8
  cr3 : Option Nat
  tls : Tls
  active : Bool
  frame : Regs
  launched : Option (Fin 8)
  phase : Phase

def cpu (k : Machine) : Cpu := ⟨k.current, k.cr3, k.tls, k.active, k.frame, k.launched, k.phase⟩

/-- What a part of a call does to the processor's state. -/
inductive Runs (c : Call) (k k' : Machine) : Prop
  | same (h : cpu k' = cpu k)
  | jumped (f : Regs)
    (hf : f = { f with
      eflags := k.frame.eflags, cs := k.frame.cs, ss := k.frame.ss, ds := k.frame.ds,
      es := k.frame.es, fs := k.frame.fs,
      gs := k.frame.gs })
    (h : cpu k' = { cpu k with active := true, frame := f })
  | resumed (hc : c = .sigreturn) (w : Nat → BitVec 32)
    (h : cpu k' = { cpu k with frame :=
      ⟨w 11, w 7, safeFlags (w 8), w 0, w 1, w 2, w 3, w 4, w 5, w 6, 0x1B#32, 0x23#32, 0x23#32,
        0x23#32, selector (w 9), selector (w 10)⟩ })
  | segment (entry base limit flags : BitVec 32) (out : Stores)
    (hc : c = .setThreadArea entry base limit flags out)
    (h : cpu k' = { cpu k with tls := ⟨base, limit.setWidth 20, flags⟩ })

variable {c : Call} {k k' k1 : Machine} {i : Fin 8}

theorem Rang.cpu (h : Rang k k') : cpu k' = cpu k := h.field _ (fun _ => rfl) fun _ _ => rfl

theorem procReap_cpu (hu : (k.procs i).used = true) (hc : k.current ≠ i) :
    cpu (procReap k i) = cpu k :=
  procReap_field _ hu hc fun _ _ => rfl

theorem Does.runs (h : Does c k k') (hu : (cur k).used = true) (hr : (cur k).state = .running) :
    Runs c k k' := by
  cases h with
  | stored | keyed | answered | self | moved | refused | shared => exact .same rfl
  | took j n => exact .same (Rang.cpu (Woke.rang (took_woke k j n _)))
  | wrote j bs => exact .same (Rang.cpu (Woke.rang (wrote_woke k j bs)))
  | filed d _ =>
    have hp := Rang.cpu (addWriters_rang (setFiles k d.sys) d.pipes)
    exact .same (hp.trans rfl)
  | piped d _ =>
    obtain ⟨ps, hps⟩ := createPipe_eq k
    rw [hps]
    have hp := Rang.cpu (addWriters_rang (setFiles { k with pipes := ps } d.sys) d.pipes)
    exact .same (hp.trans rfl)
  | jumped eip sp ebx ecx edx esi edi ebp => exact .jumped _ rfl rfl
  | resumed =>
    simp only [sigreturn]
    split
    · exact .same rfl
    split
    · exact .same rfl
    · exact .resumed rfl (sigWord _ _) rfl
  | segment entry base limit flags out => exact .segment entry base limit flags out rfl rfl
  | signalled pid sig =>
    exact .same ((procSignalSend_stirred k pid sig.toInt).field _ fun _ => rfl)
  | dropped child sp ns m hf =>
    rw [dropped_eq (freeSlot_ne hf hu)]
    exact .same rfl
  | forked child sp ns m x tls thread hf hx =>
    have hp := Rang.cpu (tabled_rang k child sp ns m)
    exact .same (hp.trans rfl)
  | settled =>
    obtain he | he | ⟨i, hi, hz, he⟩ := reapReported_cases k <;> rw [he]
    · exact .same rfl
    · exact .same rfl
    · exact .same (procReap_cpu (procFind_some hi).1 (running_ne hr hz))
  | waited _ i hi =>
    obtain ⟨⟨hused, -⟩, hz⟩ := zombieChild_spec hi
    exact .same (procReap_cpu hused (running_ne hr hz))

/-- The registers that decide where the processor runs. -/
structure Gear (k : Machine) : Prop where
  space : busy k.phase = true → k.cr3 = (cur k).space
  ring : busy k.phase = true → k.frame.cs = 0x1B#32
  live : busy k.phase = true → (∀ code faulted sys, k.phase ≠ .exiting code faulted sys) →
    k.active = true

theorem Gear.move (h : Gear k) (hph : k'.phase = k.phase) (hcr : k'.cr3 = k.cr3)
    (hs : (cur k').space = (cur k).space) (hcs : k'.frame.cs = k.frame.cs ∨ k'.frame.cs = 0x1B#32)
    (ha : k.active = true → k'.active = true) : Gear k' where
  space := fun hb => (hcr.trans (h.space (hph ▸ hb))).trans hs.symm
  ring := fun hb => hcs.elim (fun he => he.trans (h.ring (hph ▸ hb))) id
  live := fun hb hne => ha (h.live (hph ▸ hb) (hph ▸ hne))

theorem Gear.runs (h : Gear k) (hr : Runs c k k') (hs : (cur k').space = (cur k).space) :
    Gear k' := by
  cases hr with
  | same he | segment _ _ _ _ _ _ he =>
    exact h.move (congrArg Cpu.phase he) (congrArg Cpu.cr3 he) hs
      (.inl (congrArg (fun c => c.frame.cs) he)) (fun ha => (congrArg Cpu.active he).trans ha)
  | jumped f hf he =>
    refine h.move (congrArg Cpu.phase he) (congrArg Cpu.cr3 he) hs (.inl ?_) fun _ =>
      congrArg Cpu.active he
    have hfr : k'.frame = f := congrArg Cpu.frame he
    rw [hfr, hf]
  | resumed hc w he =>
    exact h.move (congrArg Cpu.phase he) (congrArg Cpu.cr3 he) hs
      (.inr (congrArg (fun c => c.frame.cs) he)) (fun ha => (congrArg Cpu.active he).trans ha)

theorem Gear.parts (h : Gear k) (hs : Shape k) (hb : busy k.phase = true) (hp : Parts c k k') :
    Gear k' := by
  refine parts_invariant hs hb (fun k1 k2 hsh hbb hg hd => ?_) h hp
  obtain ⟨-, hu, hr⟩ := hsh.cpu hbb
  exact hg.runs (Does.runs hd hu hr) ((hsh.does hbb hd).cur_fit hu hr).space

theorem Gear.onto {ph : Phase} (h : Gear k) (hb : busy k.phase = true)
    (hne : (∀ code faulted sys, k.phase ≠ .exiting code faulted sys) ∨
    ∃ code faulted sys, ph = .exiting code faulted sys) : Gear (setPhase k ph) := by
  refine ⟨fun _ => h.space hb, fun _ => h.ring hb, fun _ hn => ?_⟩
  rcases hne with hne | ⟨code, faulted, sys, he⟩
  · exact h.live hb hne
  · exact absurd he (hn code faulted sys)

theorem Gear.off (hb : busy k.phase = false) : Gear k :=
  ⟨fun h => absurd (hb.symm.trans h) (by simp), fun h => absurd (hb.symm.trans h) (by simp),
    fun h => by cases hb.symm.trans h⟩

theorem Gear.after (h : Gear k) (hb : busy k.phase = true)
    (hne : ∀ code faulted sys, k.phase ≠ .exiting code faulted sys) (fl : Flow) :
    Gear (after k fl) := by
  cases fl with
  | ret v => exact Gear.onto (k := setEax k v) (h.move rfl rfl rfl (.inl rfl) id) hb (.inl hne)
  | block | spin => exact h.onto hb (.inl hne)

theorem Gear.load (k : Machine) (i : Fin 8) (ph : Phase) : Gear (setPhase (schedLoad k i) ph) := by
  refine ⟨fun _ => ?_, fun _ => rfl, fun _ _ => rfl⟩
  have hcur : cur (setPhase (schedLoad k i) ph) = { k.procs i with state := .running } :=
    setProc_self
  rw [hcur]
  rfl

theorem Gear.notified (h : Gear k) (hn : Notified k k') : Gear k' := by
  have hcur : (cur k').space = (cur k).space := by
    have hf := Notified.fits hn k.current
    obtain ⟨m, eip, sp, eax, sig, rfl⟩ := hn
    exact hf.space
  obtain ⟨m, eip, sp, eax, sig, rfl⟩ := hn
  exact h.move rfl rfl hcur (.inl rfl) id

theorem Gear.woke (h : Gear k) (hw : Woke k k') : Gear k' := by
  have he : cpu k' = cpu k := hw.toStirred.field _ fun _ => rfl
  refine h.move (congrArg Cpu.phase he) (congrArg Cpu.cr3 he) ?_
    (.inl (congrArg (fun c => c.frame.cs) he)) (fun ha => (congrArg Cpu.active he).trans ha)
  rw [cur, hw.current]
  exact (hw.procs _).space

theorem Gear.setAside (h : Gear k) {p : Proc} (hp : p.space = (cur k).space) :
    Gear (aside k p) := by
  refine h.move rfl rfl ?_ (.inl rfl) id
  rw [aside_cur]
  exact hp

theorem Gear.stepped {a : Act} (hs : Shape k) (h : Gear k) (hst : Stepped k a k') : Gear k' := by
  cases hst with
  | compute r out m hp => exact h.move rfl rfl rfl (.inr rfl) id
  | call c k1 fl hp hc =>
    have hb := busy_at hp
    have h1 : Gear (inCall k) := h.move rfl rfl rfl (.inl rfl) id
    have hph := (hs.entered.sysCall hb c).2
    have hg := h1.parts hs.entered hb (sysCall_parts c)
    rw [hc] at hph hg
    refine hg.after (hph ▸ hb) (fun _ _ _ => ?_) fl
    rw [hph]
    exact fun he => by cases hp.symm.trans he
  | exit code hp =>
    have hb := busy_at hp
    exact ⟨fun _ => h.space hb, fun _ => h.ring hb, fun _ hn => absurd rfl (hn code false true)⟩
  | fault hp ha =>
    have hb := busy_at hp
    exact ⟨fun _ => h.space hb, fun _ => h.ring hb, fun _ hn => absurd rfl (hn 139#32 true false)⟩
  | tick hp =>
    have h1 : Gear (counted k) := h.move rfl rfl rfl (.inl rfl) id
    have hw := ticked_woke k
    have hph : (ticked k).phase = .user := hw.phase.trans hp
    refine (h1.woke hw).onto (busy_at hph) (.inl fun _ _ _ => ?_)
    rw [hph]
    simp
  | idle hp hn =>
    have h1 : Gear (counted k) := h.move rfl rfl rfl (.inl rfl) id
    exact h1.woke (ticked_woke k)
  | key c hp => exact h.woke (typed_woke k c)
  | sleep _ _ i | yield i | pick _ i => exact .load _ i _
  | awake r o hp hf hn =>
    have hb := busy_at hp
    have h1 : Gear (stayed k r) :=
      (h.setAside (p := sleepless k r) rfl).move rfl rfl rfl (.inl rfl) fun _ => rfl
    refine h1.after hb (fun _ _ _ => ?_) _
    exact fun he => by cases hp.symm.trans he
  | tableless r o hp hf =>
    have hb := busy_at hp
    exact h.after hb (fun _ _ _ he => by cases hp.symm.trans he) _
  | leave k1 d hp hd =>
    have hnote := delivered_notified hd
    have hph : k1.phase = .leaving := (Notified.phase hnote).trans hp
    refine (h.notified hnote).onto (busy_at hph) (.inl fun _ _ _ => ?_)
    rw [hph]
    simp
  | ignored hp hn =>
    have hb := busy_at hp
    exact h.onto hb (.inl fun _ _ _ he => by cases hp.symm.trans he)
  | alarm k1 d hp hd =>
    have hnote := delivered_notified hd
    have hph : k1.phase = .ticked := (Notified.phase hnote).trans hp
    refine (h.notified hnote).onto (busy_at hph) (.inl fun _ _ _ => ?_)
    rw [hph]
    simp
  | keep hp =>
    have hb := busy_at hp
    exact (h.setAside (p := yielder k .running) rfl).onto hb
      (.inl fun _ _ _ he => by cases hp.symm.trans he)
  | die | back | lost | finish => exact .off rfl
  | launch frames l hp ha =>
    have hoff : busy k.phase = false := by rw [hp]; rfl
    refine hs.launch_elim hp frames l h (fun _ _ _ _ _ _ _ _ _ _ => .off hoff) fun i b m f hi hf => ?_
    refine ⟨fun _ => ?_, fun _ => hf.2.1, fun _ _ => rfl⟩
    have hcur : cur (started k i b m f) = starter k b := setProc_self
    rw [hcur]
    rfl
  | refuse frames l hp ha => exact h
  | shell _ hp | shellKey hp => exact .off (by rw [hp]; rfl)
  | spinDone v takesKey out m hp =>
    have hb := busy_at hp
    exact Gear.after (k := spun k takesKey m)
      (h.move rfl rfl rfl (.inl rfl) id) hb (fun _ _ _ he => by cases hp.symm.trans he) _

/-- `isr_handler` retries, ends the process, or stops the kernel. -/
inductive Trap
  | resumes (k : Machine)
  | exits (k : Machine)
  | halts

/-- `user_handle_fault` up to `proc_exit_current`. -/
def userHandleFault (k : Machine) : Machine :=
  { k with active := false, phase := .exiting 139#32 true false }

/-- The part of `isr_handler` behind the copy on write. -/
def fatalOrFault (k : Machine) : Trap :=
  if k.frame.cs &&& 3#32 = 3#32 ∧ k.active then .exits (userHandleFault k) else .halts

theorem fatalOrFault_ne_resumes (k k' : Machine) : fatalOrFault k ≠ .resumes k' := by
  rw [fatalOrFault]
  split <;> simp

/-- `isr_handler`; `free` is what `mm_user_make_writable` returns. -/
def isrHandler (k : Machine) (intNo err cr2 : BitVec 32) (free : Bool) : Trap :=
  match (cur k).space with
  | none => fatalOrFault k
  | some sp =>
    if intNo = 14#32 ∧ k.active ∧ err &&& 2#32 ≠ 0#32 ∧ userBase ≤ cr2.toNat ∧
      cr2.toNat < userSigtramp ∧ free then
      .resumes { k with mem := k.cow.make k.mem sp (cr2.toNat / 4096) }
    else fatalOrFault k

theorem isrHandler_cases (k : Machine) (intNo err cr2 : BitVec 32) (free : Bool) :
      (∃ sp, (cur k).space = some sp ∧ isrHandler k intNo err cr2 free = .resumes
      { k with mem := k.cow.make k.mem sp (cr2.toNat / 4096) }) ∨
    isrHandler k intNo err cr2 free = fatalOrFault k := by
  rw [isrHandler]
  split
  · exact .inr rfl
  rename_i sp hsp
  split
  · exact .inl ⟨sp, hsp, rfl⟩
  · exact .inr rfl

structure EndsOnly (k k' : Machine) : Prop where
  used : (k'.procs k.current).used = true
  state : (k'.procs k.current).state = .zombie
  code : (k'.procs k.current).exitCode = 139#32 ∧ (k'.procs k.current).faulted = true
  others : ∀ j, j ≠ k.current → (k'.procs j).used = (k.procs j).used ∧
    (k'.procs j).pid = (k.procs j).pid ∧
    ((k'.procs j).state = .zombie ↔ (k.procs j).state = .zombie)

theorem Roused.zombie {p p' : Proc} (h : Roused p p') : p'.state = .zombie ↔ p.state = .zombie := by
  by_cases hb : p.state = .blocked
  · rw [hb]
    rcases h.wakes hb with hs | hs
    · rw [hs]
    rw [hs]
    exact ⟨fun h => PState.noConfusion h, fun h => by cases h⟩
  · rw [(h.calm hb).1]

theorem goOn_ends (hu : (cur k).used = true) :
    ∃ k', goOn (userHandleFault k) = some k' ∧ k'.phase = .picking false ∧ EndsOnly k k' := by
  refine ⟨_, rfl, rfl, ?_⟩
  rw [exitCurrent_eq]
  generalize hz : exited (userHandleFault k) 139#32 true = z
  have hst := procWakeParent_stirred { aside (userHandleFault k) z with active := false } z
  generalize procWakeParent { aside (userHandleFault k) z with active := false } z = k1 at hst
  have hself : ({ aside (userHandleFault k) z with active := false } : Machine).procs k.current =
    z := setProc_self
  have hrow := hst.procs k.current
  rw [hself] at hrow
  have hzs : z.state = .zombie := by rw [← hz]; rfl
  refine ⟨?_, (Roused.zombie hrow).mpr hzs, ⟨?_, ?_⟩, fun j hj => ?_⟩
  · exact hrow.used.trans (by rw [← hz]; exact hu)
  · exact hrow.exitCode.trans (by rw [← hz]; rfl)
  · exact (hrow.field Proc.faulted fun _ => rfl).trans (by rw [← hz]; rfl)
  have hother : ({ aside (userHandleFault k) z with active := false } : Machine).procs j = k.procs
    j := setProc_ne hj
  have hrow' := hst.procs j
  rw [hother] at hrow'
  exact ⟨hrow'.used, hrow'.pid, Roused.zombie hrow'⟩

theorem EndsOnly.pick (h : EndsOnly k k1) (hp : k1.phase = .picking false)
    (hg : goOn k1 = some k') : EndsOnly k k' := by
  have hsame : k'.procs = k1.procs → EndsOnly k k' := by
    intro he
    obtain ⟨hu, hs, hc, ho⟩ := h
    rw [← he] at hu hs hc ho
    exact ⟨hu, hs, hc, ho⟩
  have hst := goOn_stepped hg
  cases hst with
  | pick sys i _ hi =>
    have hready := (runnable_spec (pickFrom_runnable hi)).2.1
    have hne : k.current ≠ i := by
      intro he
      rw [← he, h.state] at hready
      cases hready
    have hself : (setPhase (schedLoad k1 i) (if sys then .leaving else .user)).procs i =
        { k1.procs i with state := .running } := setProc_self
    have hother : ∀ j, j ≠ i →
      (setPhase (schedLoad k1 i) (if sys then .leaving else .user)).procs j = k1.procs j :=
      fun j hj => setProc_ne hj
    refine ⟨?_, ?_, ?_, fun j hj => ?_⟩
    · rw [hother _ hne]
      exact h.used
    · rw [hother _ hne]
      exact h.state
    · rw [hother _ hne]
      exact h.code
    by_cases hji : j = i
    · subst hji
      obtain ⟨hu, hpid, hz⟩ := h.others j hj
      rw [hready] at hz
      rw [hself]
      refine ⟨hu, hpid, ?_⟩
      exact ⟨fun hb => PState.noConfusion hb, fun hb => by cases hz.mpr hb⟩
    · rw [hother j hji]
      exact h.others j hj
  | back | lost => exact hsame rfl
  | sleep _ _ _ hp' | awake _ _ hp' | tableless _ _ hp' | leave _ _ hp' | ignored hp'
  | alarm _ _ hp'
  | yield _ hp' | keep hp' | die _ _ _ hp' | finish _ hp' => cases hp.symm.trans hp'

/-- An exception in ring 3 is resolved, or ends the running process and no other. -/
theorem user_exceptions_never_halt {r : Fs.RamFs.Ram} {mem : UserMem} {cow : Cow} {as : List Act}
    (h : run step (boot r mem cow) as = some k) (hp : k.phase = .user) (intNo err cr2 : BitVec 32)
    (free : Bool) : (∃ sp, k.cr3 = some sp ∧
      isrHandler k intNo err cr2 free = .resumes
      { k with mem := k.cow.make k.mem sp (cr2.toNat / 4096) }) ∨
    ∃ k1 k2, isrHandler k intNo err cr2 free = .exits k1 ∧ step k .fault = some k1 ∧
      step k1 .go = some k2 ∧ EndsOnly k k2 ∧ ∀ k3, step k2 .go = some k3 → EndsOnly k k3 := by
  have hb := busy_at hp
  have hg : Gear k := holds_run (.off rfl) (fun _ _ _ hs hg hst => hg.stepped hs hst) h
  have hlive : k.active = true := hg.live hb fun _ _ _ he => by cases hp.symm.trans he
  have hfault : fatalOrFault k = .exits (userHandleFault k) := by
    rw [fatalOrFault, hg.ring hb, hlive]
    rfl
  obtain ⟨k2, hgo, hph, hends⟩ := goOn_ends ((shape_run h).cpu hb).2.1
  have hstep : step k .fault = some (userHandleFault k) := by
    simp only [step, hp, userAct, hlive, if_true]
    rfl
  rcases isrHandler_cases k intNo err cr2 free with ⟨sp, hsp, he⟩ | he
  · exact .inl ⟨sp, (hg.space hb).trans hsp, he⟩
  · exact .inr ⟨_, k2, he.trans hfault, hstep, hgo, hends, fun _ h3 => hends.pick hph h3⟩

theorem user_exceptions_never_halt_forked :
    ∃ k, run step plain [enter, .sys (.fork none), .go, .tick, .go, .go] = some k ∧ k.current = 2 ∧
      (k.procs 1).state = .ready ∧ ∃ k1 k2, isrHandler k 13#32 0#32 0#32 false = .exits k1 ∧
        step k .fault = some k1 ∧ step k1 .go = some k2 ∧ EndsOnly k k2 := by
  obtain ⟨k, hk, hp, hc, hr⟩ :
      ∃ k, run step plain [enter, .sys (.fork none), .go, .tick, .go, .go] = some k ∧
        inUser k.phase = true ∧ k.current = 2 ∧ (k.procs 1).state = .ready := by
    decide +kernel
  refine ⟨k, hk, hc, hr, ?_⟩
  rcases user_exceptions_never_halt hk (inUser_eq hp) 13#32 0#32 0#32 false with
    ⟨sp, -, he⟩ | ⟨k1, k2, he, hf, hg, hends, -⟩
  · -- only a page fault is retried
    rw [isrHandler] at he
    split at he
    · exact absurd he (fatalOrFault_ne_resumes k _)
    · rw [if_neg fun h => absurd h.1 (by decide)] at he
      exact absurd he (fatalOrFault_ne_resumes k _)
  · exact ⟨k1, k2, he, hf, hg, hends⟩

end MuOS.Kernel.Traps
