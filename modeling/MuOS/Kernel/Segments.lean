import MuOS.Kernel.Rows

namespace MuOS.Kernel.Segments

open Lib.Runs State Wake Sched Calls Stir Prims ProcTable Step Phases Layout Traps Rows BitVec

def Present (t : Tls) : Prop := t.flags &&& 0x20#32 = 0#32

/-- Null, data, or the TLS descriptor while present. -/
def Loadable (t : Tls) (sel : BitVec 32) : Prop :=
  (sel &&& 0xFFFF#32).toNat < 4 ∨ sel &&& 0xFFFF#32 = 0x23#32 ∨
    sel &&& 0xFFFF#32 = 0x33#32 ∧ Present t

structure Fine (t : Tls) (f : Regs) : Prop where
  cs : f.cs = 0x1B#32
  data : f.ss = 0x23#32 ∧ f.ds = 0x23#32 ∧ f.es = 0x23#32
  interrupts : f.eflags &&& 0x200#32 = 0x200#32
  iopl : f.eflags &&& 0x3000#32 = 0#32
  vm : f.eflags &&& 0x20000#32 = 0#32
  fs : Loadable t f.fs
  gs : Loadable t f.gs

structure Saved (p : Proc) : Prop where
  vm : p.ctx.eflags &&& 0x20000#32 = 0#32
  fs : Loadable p.tls p.ctx.fsSel
  gs : Loadable p.tls p.ctx.gsSel

structure Segs (k : Machine) : Prop where
  live : busy k.phase = true → Fine k.tls k.frame
  saved : ∀ i, (k.procs i).used = true → (k.procs i).state = .ready ∨ (k.procs i).state = .blocked →
    Saved (k.procs i)

variable {c : Call} {k k' k1 : Machine} {i : Fin 8} {t : Tls} {f f' : Regs} {p p' : Proc}
  {sel : BitVec 32}

theorem Loadable.masked (h : Loadable t sel) : Loadable t (sel &&& 0xFFFF#32) := by
  have he : sel &&& 0xFFFF#32 &&& 0xFFFF#32 = sel &&& 0xFFFF#32 := by
    rw [BitVec.and_assoc, BitVec.and_self]
  rw [Loadable, he]
  exact h

theorem loadable_data (t : Tls) : Loadable t 0x23#32 := .inr (.inl (by decide))

theorem Loadable.default (h : Loadable t sel) : Loadable t (orDefault sel) := by
  rw [orDefault]
  split
  · exact loadable_data t
  · exact h

theorem Loadable.selector (h : Loadable t sel) : Loadable t (Sched.selector sel) := by
  rw [Sched.selector]
  split
  · exact loadable_data t
  · exact h.masked

theorem Fine.congr (h : Fine t f) (he : f' = { f' with
    eflags := f.eflags, cs := f.cs, ss := f.ss, ds := f.ds, es := f.es, fs := f.fs,
    gs := f.gs }) : Fine t f' := by
  rw [he]
  exact ⟨h.cs, h.data, h.interrupts, h.iopl, h.vm, h.fs, h.gs⟩

theorem Saved.congr (h : Saved p) (he : p'.ctx.eflags = p.ctx.eflags ∧ p'.ctx.fsSel = p.ctx.fsSel ∧
    p'.ctx.gsSel = p.ctx.gsSel ∧ p'.tls = p.tls) : Saved p' := by
  obtain ⟨h1, h2, h3, h4⟩ := he
  exact ⟨by rw [h1]; exact h.vm, by rw [h2, h4]; exact h.fs, by rw [h3, h4]; exact h.gs⟩

theorem Saved.roused (h : Saved p) (hr : Roused p p') : Saved p' :=
  h.congr ⟨hr.field (fun p => p.ctx.eflags) fun _ => rfl, hr.field (fun p => p.ctx.fsSel)
    fun _ => rfl,
    hr.field (fun p => p.ctx.gsSel) fun _ => rfl, hr.tls⟩

theorem Fine.saved (h : Fine t f) (hc : p.ctx = Sched.saved f) (ht : p.tls = t) : Saved p := by
  refine ⟨?_, ?_, ?_⟩
  · rw [hc]
    exact h.vm
  · rw [hc, ht]
    exact h.fs.masked
  · rw [hc, ht]
    exact h.gs.masked

theorem safeFlags_and {m : BitVec 32} (v : BitVec 32) (hm : ~~~0x3000#32 &&& m = m) :
    safeFlags v &&& m = v &&& m ||| 0x200#32 &&& m := by
  rw [safeFlags, BitVec.and_assoc, hm, BitVec.and_or_distrib_right]

theorem safeFlags_interrupts (v : BitVec 32) : safeFlags v &&& 0x200#32 = 0x200#32 := by
  rw [safeFlags_and v (by decide)]
  ext j hj
  grind

theorem safeFlags_iopl (v : BitVec 32) : safeFlags v &&& 0x3000#32 = 0#32 := by
  have h : ~~~0x3000#32 &&& 0x3000#32 = 0#32 := by decide
  rw [safeFlags, BitVec.and_assoc, h, BitVec.and_zero]

theorem Saved.fine (h : Saved p) : Fine p.tls (loaded p.ctx) :=
  ⟨rfl, ⟨rfl, rfl, rfl⟩, safeFlags_interrupts _,
    safeFlags_iopl _, by rw [loaded, safeFlags_and _ (by decide), h.vm]; decide,
    h.fs.default, h.gs.default⟩

theorem Segs.moved (h : Segs k) (hm : ∀ i, Moved k k' i)
    (hlive : busy k'.phase = true → Fine k'.tls k'.frame) : Segs k' := by
  refine ⟨hlive, fun i hu hs => ?_⟩
  have hrun : (k'.procs i).state ≠ .running := by
    intro hr
    rw [hr] at hs
    exact hs.elim PState.noConfusion PState.noConfusion
  have hdead : (k'.procs i).state ≠ .zombie := by
    intro hr
    rw [hr] at hs
    exact hs.elim PState.noConfusion PState.noConfusion
  cases hm i with
  | roused hr =>
    refine (h.saved i (hr.used ▸ hu) ?_).roused hr
    by_cases hb : (k.procs i).state = .blocked
    · exact .inr hb
    rw [(hr.calm hb).1] at hs
    exact hs
  | runs hr => exact absurd hr hrun
  | slept _ _ _ hp _ he | yielded _ hp he =>
    rw [he]
    exact (h.live (busy_at hp)).saved rfl rfl
  | died hi hz => exact absurd hz hdead
  | begot x tls hb hn hc =>
    have hfine := h.live hb
    have hx : (k'.procs i).ctx = x := hc.ctx
    have ht : (k'.procs i).tls = tls := hc.tls
    refine ⟨by rw [hx, hc.begets.flags]; exact hfine.vm, ?_, ?_⟩
    · rw [hx, ht]
      rcases hc.begets.sels with ⟨htls, hfs, -⟩ | ⟨-, hfs, -⟩
      · rcases hfs with hfs | hfs
        · rw [hfs]
          exact loadable_data tls
        · rw [hfs, htls]
          exact hfine.fs.default
      · rw [hfs]
        exact loadable_data tls
    · rw [hx, ht]
      rcases hc.begets.sels with ⟨htls, -, hgs⟩ | ⟨⟨base, htls⟩, -, hgs⟩
      · rw [hgs, htls]
        exact hfine.gs.default
      · have hpresent : 0x51#32 &&& 0x20#32 = 0#32 := by decide
        rw [hgs, htls]
        exact .inr (.inr ⟨by decide, hpresent⟩)
  | gone hg => cases hg.symm.trans hu

/-- Only `sigreturn` and `set_thread_area` change what is checked. -/
def plainOf : Call → Bool
  | .sigreturn | .setThreadArea .. => false
  | _ => true

section

variable (h : Segs k) (hs : Shape k) (hb : busy k.phase = true)
include h hs hb

theorem Segs.does (hc : plainOf c = true) (hd : Does c k k') : Segs k' := by
  obtain ⟨-, hu, hr⟩ := hs.cpu hb
  refine h.moved (Does.moved hd hb hu hr) fun _ => ?_
  cases Does.runs hd hu hr with
  | same he =>
    have hf : k'.frame = k.frame := congrArg Cpu.frame he
    have ht : k'.tls = k.tls := congrArg Cpu.tls he
    rw [hf, ht]
    exact h.live hb
  | jumped f hf he =>
    have hf' : k'.frame = f := congrArg Cpu.frame he
    have ht : k'.tls = k.tls := congrArg Cpu.tls he
    rw [hf', ht]
    exact (h.live hb).congr hf
  | resumed hc' | segment _ _ _ _ _ hc' =>
    rw [hc'] at hc
    cases hc

theorem Segs.parts (hc : plainOf c = true) (hp : Parts c k k') : Segs k' := by
  exact parts_invariant hs hb (fun _ _ hsh hbb hg hd => hg.does hsh hbb hc hd) h hp

end

theorem Segs.onto {ph : Phase} (h : Segs k) (hb : busy k.phase = true) : Segs (setPhase k ph) :=
  ⟨fun _ => h.live hb, h.saved⟩

theorem Segs.after (h : Segs k) (hb : busy k.phase = true) (fl : Flow) : Segs (after k fl) := by
  cases fl with
  | ret v =>
    have h1 : Segs (setEax k v) := ⟨fun hb => (h.live hb).congr rfl, h.saved⟩
    exact h1.onto hb
  | block | spin => exact h.onto hb

/-- The words for eflags, fs and gs in the frame of the last handler, as the program left them. -/
def Restores (k : Machine) : Prop :=
  let base := (cur k).sig.frameSp (Fin.ofNat 4 ((cur k).sig.depth - 1))
  sigWord k base 8 &&& 0x20000#32 = 0#32 ∧ Loadable k.tls (sigWord k base 9) ∧
    Loadable k.tls (sigWord k base 10)

/-- Ring 3 has only such selectors; a loaded TLS descriptor stays. -/
def Loads (k : Machine) : Act → Prop
  | .compute r _ => Fine k.tls { r with cs := 0x1B#32 }
  | .sys .sigreturn => (cur k).sig.depth ≠ 0 → Restores k
  | .sys (.setThreadArea _ _ _ flags _) =>
    flags &&& 0x20#32 = 0#32 ∨ k.frame.fs &&& 0xFFFF#32 ≠ 0x33#32 ∧ k.frame.gs &&& 0xFFFF#32 ≠ 0x33#32
  | _ => True

theorem Segs.own (h : Segs k) (hr : p.state = .running)
    (hp : k1.procs = (setProc k k.current p).procs)
    (hlive : busy k1.phase = true → Fine k1.tls k1.frame) : Segs k1 :=
  h.moved (fun _ => .own hp hr) hlive

section

variable (h : Segs k) (hs : Shape k) (hb : busy k.phase = true)
include h hs hb

theorem Segs.sigreturn (hok : (cur k).sig.depth ≠ 0 → Restores k) : Segs (doSigreturn k).1 := by
  have he : (doSigreturn k).1 = (Sched.sigreturn k).1 := by
    simp only [doSigreturn]
    split <;> rfl
  have hfine : Fine k.tls (Sched.sigreturn k).1.frame := by
    simp only [Sched.sigreturn]
    split
    · exact h.live hb
    rename_i hd
    split
    · exact h.live hb
    obtain ⟨hvm, hfs, hgs⟩ := hok hd
    have hword : ∀ sig base n, sigWord (setProc k k.current { cur k with sig := sig }) base n =
      sigWord k base n := by
      intro sig base n
      have hcur : cur (setProc k k.current { cur k with sig := sig }) = { cur k with sig := sig } :=
        setProc_self
      simp only [sigWord, peekCur, hcur]
      rfl
    simp only [hword]
    exact ⟨rfl, ⟨rfl, rfl, rfl⟩, safeFlags_interrupts _, safeFlags_iopl _,
      by rw [safeFlags_and _ (by decide), hvm]; decide, hfs.selector, hgs.selector⟩
  rw [he]
  obtain ⟨sig, f, hk⟩ := sigreturn_eq k
  rw [hk] at hfine ⊢
  exact h.own (p := { cur k with sig := sig }) (hs.cpu hb).2.2 rfl fun _ => hfine

omit h hs hb in
theorem Loadable.retls {t' : Tls} (h : Loadable t sel)
    (hp : Present t' ∨ sel &&& 0xFFFF#32 ≠ 0x33#32) : Loadable t' sel := by
  rcases h with h | h | h
  · exact .inl h
  · exact .inr (.inl h)
  · exact .inr (.inr ⟨h.1, hp.resolve_right fun hn => hn h.1⟩)

theorem Segs.segment (entry base limit flags : BitVec 32)
    (out : Stores) (hok : flags &&& 0x20#32 = 0#32 ∨ k.frame.fs &&& 0xFFFF#32 ≠ 0x33#32 ∧
    k.frame.gs &&& 0xFFFF#32 ≠ 0x33#32) :
    Segs (doSetThreadArea k entry base limit flags out).1 := by
  simp only [doSetThreadArea]
  split
  · exact h
  rw [pokeAll_eq]
  generalize (pokeAll _ out).mem = m
  have hf := h.live hb
  have hfs : Loadable ⟨base, limit.setWidth 20, flags⟩ k.frame.fs :=
    hf.fs.retls (hok.imp id And.left)
  have hgs : Loadable ⟨base, limit.setWidth 20, flags⟩ k.frame.gs :=
    hf.gs.retls (hok.imp id And.right)
  exact h.own (p := withTls k base limit flags) (hs.cpu hb).2.2 rfl
    (fun _ => ⟨hf.cs, hf.data, hf.interrupts, hf.iopl, hf.vm, hfs, hgs⟩)

theorem Segs.call (c : Call) (hok : Loads k (.sys c)) : Segs (sysCall k c).1 := by
  by_cases hc : plainOf c = true
  · exact h.parts hs hb hc (sysCall_parts c)
  cases c with
  | sigreturn => exact h.sigreturn hs hb hok
  | setThreadArea entry base limit flags out => exact h.segment hs hb entry base limit flags out hok
  | _ => exact absurd rfl hc

end

theorem Segs.load (hs : ∀ j, (k1.procs j).used = true → (k1.procs j).state = .ready →
    Saved (k1.procs j)) {n : Nat}
    (hi : pickFrom k1 n = some i) (ph : Phase) :
    Fine (setPhase (schedLoad k1 i) ph).tls (setPhase (schedLoad k1 i) ph).frame := by
  obtain ⟨hu, hr, -⟩ := runnable_spec (pickFrom_runnable hi)
  exact (hs i (isUser_spec hu).1 hr).fine

theorem Segs.aside (h : Segs k) (hp : Saved p) (j : Fin 8) (hu : ((aside k p).procs j).used = true)
    (hr : ((Phases.aside k p).procs j).state = .ready) : Saved ((Phases.aside k p).procs j) := by
  obtain ⟨-, he⟩ | ⟨-, he⟩ := row_set (b := Phases.aside k p) rfl j <;> rw [he] at hu hr ⊢
  · exact hp
  · exact h.saved j hu (.inl hr)

theorem Segs.woke (h : Segs k) (hw : Woke k k') : Segs k' := by
  refine h.moved (fun i => .roused (hw.procs i)) fun hb => ?_
  rw [hw.tls, hw.frame]
  exact h.live (hw.phase ▸ hb)

theorem Segs.notified (h : Segs k) (hb : busy k.phase = true) (hs : Shape k) (hn : Notified k k') :
    Segs k' := by
  obtain ⟨m, eip, sp, eax, sig, rfl⟩ := hn
  exact h.own (p := { cur k with sig := sig }) (hs.cpu hb).2.2 rfl fun hb => (h.live hb).congr rfl

theorem Segs.stepped {a : Act} (hs : Shape k) (h : Segs k) (hok : Loads k a)
    (hst : Stepped k a k') : Segs k' := by
  have hmoved := Stepped.moved hs hst
  have hrest : ∀ hlive : busy k'.phase = true → Fine k'.tls k'.frame, (∀ c, a ≠ .sys c) →
    Segs k' := by
    intro hlive hne
    rcases hmoved with ⟨c, hc⟩ | hm
    · exact absurd hc (hne c)
    · exact h.moved hm hlive
  cases hst with
  | compute r out m hp => exact ⟨fun _ => hok, h.saved⟩
  | call c k1 fl hp hc =>
    have hb := busy_at hp
    have hs1 := hs.entered
    have h1 : Segs (inCall k) := ⟨h.live, h.saved⟩
    have hcall := h1.call hs1 hb c hok
    have hph := (hs1.sysCall hb c).2
    rw [hc] at hcall hph
    exact hcall.after (by rw [hph]; exact hb) fl
  | exit _ hp | fault hp => exact ⟨fun _ => h.live (busy_at hp), h.saved⟩
  | tick hp =>
    have h1 : Segs (counted k) := ⟨h.live, h.saved⟩
    have hw := ticked_woke k
    refine (h1.woke hw).onto ?_
    rw [hw.phase, hp]
    rfl
  | idle hp hn =>
    have h1 : Segs (counted k) := ⟨h.live, h.saved⟩
    exact h1.woke (ticked_woke k)
  | key c hp => exact h.woke (typed_woke k c)
  | sleep r o i hp hf hi =>
    have hsaved : Saved (sleeper k r) := (h.live (busy_at hp)).saved rfl rfl
    exact hrest (fun _ => Segs.load (h.aside hsaved) hi _) fun _ => by simp
  | awake r o hp hf hn =>
    have hb := busy_at hp
    have h1 : Segs (stayed k r) :=
      h.own rfl rfl fun _ => h.live hb
    exact h1.after hb _
  | tableless r o hp hf => exact h.after (busy_at hp) _
  | leave _ _ hp hd | alarm _ _ hp hd =>
    have hb := busy_at hp
    have hnote := delivered_notified hd
    exact (h.notified hb hs hnote).onto (by rw [Notified.phase hnote]; exact hb)
  | ignored hp hn => exact h.onto ((busy_at hp).trans rfl)
  | yield i hp hi hne =>
    have hsaved : Saved (yielder k .ready) := (h.live (busy_at hp)).saved rfl rfl
    exact hrest (fun _ => Segs.load (h.aside hsaved) hi _) fun _ => by simp
  | keep hp => exact hrest (fun _ => h.live (busy_at hp)) fun _ => by simp
  | die | back | lost | finish => exact hrest (fun hb => by cases hb) fun _ => by simp
  | pick sys i hp hi =>
    exact hrest (fun _ => Segs.load (fun j hu hr => h.saved j hu (.inl hr)) hi _) fun _ => by simp
  | launch frames l hp ha =>
    refine hrest ?_ fun _ => by simp
    have hoff : busy k.phase = false := by rw [hp]; rfl
    have hno : ∀ {P : Prop}, busy k.phase = true → P := fun hb => by cases hoff.symm.trans hb
    refine hs.launch_elim hp frames l hno (fun _ _ _ _ _ _ _ _ _ _ => hno) fun i b m f hi hf _ => ?_
    obtain ⟨hfl, hcs, hss, hds, hes, hfs, hgs⟩ := hf
    refine ⟨hcs, ⟨hss, hds, hes⟩, ?_, ?_, ?_, ?_, ?_⟩
    · exact (congrArg (· &&& 0x200#32) hfl).trans (by decide)
    · exact (congrArg (· &&& 0x3000#32) hfl).trans (by decide)
    · exact (congrArg (· &&& 0x20000#32) hfl).trans (by decide)
    · exact hfs ▸ loadable_data _
    · exact hgs ▸ loadable_data _
  | refuse frames l hp ha => exact h
  | shell | shellKey => exact ⟨h.live, h.saved⟩
  | spinDone v takesKey out m hp =>
    have h1 : Segs (spun k takesKey m) := ⟨h.live, h.saved⟩
    exact h1.after (by show busy k.phase = true; rw [hp]; rfl) _

section

variable {r : Fs.RamFs.Ram} {mem : UserMem} {cow : Cow} {as : List Act}

/-- Every return to ring 3 is with a frame that can be loaded. -/
theorem frames_loadable (hm : Meets step Loads (boot r mem cow) as)
    (h : run step (boot r mem cow) as = some k) (hp : k.phase = .user) : Fine k.tls k.frame := by
  have hboot : Segs (boot r mem cow) := by
    refine ⟨fun hb => Bool.noConfusion hb, fun i hu hs => ?_⟩
    have hzero : i = 0 := by
      by_contra hi
      simp only [boot, if_neg hi] at hu
      cases hu
    rw [hzero] at hs
    exact hs.elim PState.noConfusion PState.noConfusion
  have hinv := meets_invariant (I := fun k => Shape k ∧ Segs k)
    (fun s a t hi hok ht => ⟨hi.1.stepped (step_stepped ht),
    hi.2.stepped hi.1 hok (step_stepped ht)⟩)
    ⟨boot_shape r mem cow, hboot⟩ hm h
  exact hinv.2.live (busy_at hp)

/-- A thread area is set, and a handler returns with its frame as it was. -/
def handled : List Act :=
  [enter, .sys (.setThreadArea 6#32 0x08049000#32 0xFFFFF#32 0x51#32 []), .go,
    .sys (.signal 10#32 0x08048100#32), .go, .sys (.kill 0#32 10#32), .go, .sys .sigreturn, .go]

def keepsSelectors (k : Machine) : Act → Bool
  | .compute .. => false
  | .sys .sigreturn =>
    let base := (cur k).sig.frameSp (Fin.ofNat 4 ((cur k).sig.depth - 1))
    sigWord k base 8 &&& 0x20000#32 == 0#32 && sigWord k base 9 &&& 0xFFFF#32 == 0x23#32 &&
      sigWord k base 10 &&& 0xFFFF#32 == 0x23#32
  | .sys (.setThreadArea _ _ _ flags _) => flags &&& 0x20#32 == 0#32
  | _ => true

theorem keepsSelectors_loads (k : Machine) (a : Act) (h : keepsSelectors k a = true) :
    Loads k a := by
  cases a with
  | compute => cases h
  | sys c =>
    cases c with
    | sigreturn =>
      simp only [keepsSelectors, Bool.and_eq_true, beq_iff_eq] at h
      exact fun _ => ⟨h.1.1, .inr (.inl h.1.2), .inr (.inl h.2)⟩
    | setThreadArea => exact .inl (beq_iff_eq.mp h)
    | _ => trivial
  | _ => trivial

theorem frames_loadable_tls : ∃ k, run step plain handled = some k ∧ k.phase = .user ∧
    Fine k.tls k.frame := by
  obtain ⟨k, hk, hp⟩ : ∃ k, run step plain handled = some k ∧ inUser k.phase = true := by decide +kernel
  have hm : Meets step Loads plain handled := checks_meets keepsSelectors_loads (by decide +kernel)
  exact ⟨k, hk, inUser_eq hp, frames_loadable hm hk (inUser_eq hp)⟩

def ringRegs : Regs :=
  { emptyRegs with
    eflags := 0x202#32, ss := 0x23#32, ds := 0x23#32, es := 0x23#32,
    fs := 0x23#32, gs := 0x23#32 }

def tampered : List Act :=
  [enter, .sys (.signal 10#32 0x08048100#32), .go, .sys (.kill 0#32 10#32), .go,
    .compute ringRegs [(0x0883FFF0#32, le32 0x20202#32)], .sys .sigreturn, .go]

theorem tampered_frame_is_virtual :
    ∃ k, run step plain tampered = some k ∧ k.phase = .user ∧
      k.frame.eflags &&& 0x20000#32 = 0x20000#32 ∧ ¬ Fine k.tls k.frame := by
  obtain ⟨k, hk, hp, hv⟩ : ∃ k, run step plain tampered = some k ∧ k.phase = .user ∧
      k.frame.eflags &&& 0x20000#32 = 0x20000#32 := ⟨_, rfl, rfl, by decide +kernel⟩
  refine ⟨k, hk, hp, hv, fun hf => ?_⟩
  cases hv.symm.trans hf.vm

end

end MuOS.Kernel.Segments
