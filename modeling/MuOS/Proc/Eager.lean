import MuOS.Proc.Boot

namespace MuOS.Proc.Eager

open Function Lib Memory Paging Runs Tally Mm Frames Views UserPd TableBuild TableOps Sharing
  SharingOps TableClone Space SpaceOps
open Invariant Cpu ProcSteps Lifecycle Forking ProcRuns Boot User.Window Option List

/-- As users think of it: spaces have their own memory, and fork copies it. -/
structure Plain where
  used : Nat → Bool
  space : Nat → Option Nat
  mem : Nat → Nat → BitVec 8
  next : Nat
  current : Nat
  active : Bool
  roomy : Bool

namespace Plain

def freeSlot (e : Plain) : Option Nat := (List.range procMax).find? (fun i => !e.used i)

def isUser (e : Plain) (i : Nat) : Bool := decide (0 < i) && decide (i < procMax) && e.used i

def spawn (e : Plain) (i id : Nat) : Plain :=
  { e with used := update e.used i true, space := update e.space i (some id) }

def grow (e : Plain) (img : Nat → BitVec 8) : Plain :=
  { e with mem := update e.mem e.next img, next := e.next + 1 }

def launch (e : Plain) (km : Bool) : Plain :=
  if e.active || !e.roomy || !km then e
  else match e.freeSlot with
    | none => e
    | some i => { (e.grow (fun _ => 0#8)).spawn i e.next with current := i, active := true }

def fork (e : Plain) (km fd : Bool) : Plain :=
  if km then
    match e.freeSlot, e.space e.current with
    | some i, some id => if fd then (e.grow (e.mem id)).spawn i e.next else e.grow (e.mem id)
    | _, _ => e
  else e

def thread (e : Plain) (fd : Bool) : Plain :=
  if fd then
    match e.freeSlot, e.space e.current with
    | some i, some id => e.spawn i id
    | _, _ => e
  else e

def store (e : Plain) (va : Nat) (b : BitVec 8) : Plain :=
  match e.space e.current with
  | none => e
  | some id => { e with mem := poke e.mem id va b }

def step (e : Plain) : Act → Option Plain
  | .launch km => some (e.launch km)
  | .fork km fd => if e.isUser e.current then some (e.fork km fd) else none
  | .thread fd => if e.isUser e.current then some (e.thread fd) else none
  | .load va => if e.isUser e.current ∧ userBase ≤ va ∧ va < userSigtramp then some e else none
  | .store va b =>
    if e.isUser e.current ∧ userBase ≤ va ∧ va < userSigtramp then some (e.store va b) else none
  | .wake _ _ _ _ => none
  | .writeProtect i => if e.isUser i then some e else none
  | .makeWritable i va => if userBase ≤ va ∧ va < userEnd ∧ e.isUser i then some e else none
  | .detach i => if e.isUser i then some e else none
  | .resume i =>
    if i = 0 then some { e with current := 0, active := false }
    else if e.isUser i then some { e with current := i, active := true } else none
  | .reap i =>
    if e.isUser i ∧ i ≠ e.current then
      some { e with used := update e.used i false, space := update e.space i none }
    else none

end Plain

structure Agrees (vm : Vm) (e : Plain) : Prop where
  used : ∀ j, j < procMax → e.used j = (vm.procs j).used
  space : ∀ j, j < procMax → e.space j = (vm.procs j).space
  next : e.next = vm.nextSpace
  current : e.current = vm.current
  active : e.active = vm.active
  roomy : e.roomy = !decide (vm.mm.fr.totalPages * 4096 < userEnd)

def Simulates (reserved : Nat → Prop) (kpd : Nat) (base : Nat → Nat) (vm : Vm) (e : Plain) : Prop :=
  ∃ lost live, Inv reserved kpd base vm lost live ∧ Full vm ∧ Agrees vm e ∧
    Shows vm.mm.mem live e.mem

/-- A fork, load, store, detaching, exit or reap in which no allocation fails. -/
def Ordinary (vm : Vm) (a : Act) : Prop :=
  (∀ i va off bytes, a ≠ .wake i va off bytes) ∧ ∀ vm', step vm a = some vm' → vm'.mm.oom = false

def observe (vm : Vm) (i va : Nat) : Option (BitVec 8) :=
  (cpuLoad (if i = vm.current then vm.mm else (procSwitchSpace vm i).mm) va).map Prod.fst

/-- The eager system before there is any address space. -/
def plainBoot (vm : Vm) : Plain :=
  ⟨fun j => (vm.procs j).used, fun j => (vm.procs j).space, fun _ _ => 0#8, vm.nextSpace,
    vm.current, vm.active, !decide (vm.mm.fr.totalPages * 4096 < userEnd)⟩

variable {reserved : Nat → Prop} {kpd : Nat} {base : Nat → Nat} {vm vm' : Vm} {lost : List Nat}
  {live : Nat → Option View} {e : Plain} {i id va : Nat} {v : View} {a : Act}
  {img : Nat → Nat → BitVec 8}

namespace Agrees

section

variable (h : Agrees vm e)
include h

theorem freeSlot_eq : e.freeSlot = freeSlot vm := by
  rw [Plain.freeSlot, freeSlot, ← head?_filter, ← head?_filter]
  congr 1
  apply filter_congr
  intro j hj
  rw [h.used j (mem_range.mp hj)]

theorem isUser_eq (i : Nat) : e.isUser i = isUserProc vm i := by
  by_cases hi : i < procMax
  · rw [Plain.isUser, isUserProc, h.used i hi]
  · simp only [Plain.isUser, isUserProc, hi, decide_false, Bool.and_false, Bool.false_and]

theorem isUser_current : e.isUser e.current = isUserProc vm vm.current := by
  rw [h.isUser_eq, h.current]

theorem same (hs : SameTable vm vm') (hn : vm'.nextSpace = vm.nextSpace) : Agrees vm' e := by
  refine ⟨?_, ?_, h.next.trans hn.symm, h.current.trans hs.current.symm,
    h.active.trans hs.active.symm, ?_⟩
  · intro j hj
    rw [h.used j hj, hs.used j hj]
  · intro j hj
    rw [h.space j hj, hs.space j hj]
  · rw [h.roomy, hs.total]

theorem memory {mm : Machine} (htot : mm.fr.totalPages = vm.mm.fr.totalPages)
    (mem : Nat → Nat → BitVec 8) : Agrees (setMm vm mm) { e with mem := mem } :=
  ⟨h.used, h.space, h.next, h.current, h.active, h.roomy.trans (by rw [setMm, htot])⟩

theorem slots {p : Slot} (hprocs : vm'.procs = update vm.procs i p) :
    (∀ j, j < procMax → update e.used i p.used j = (vm'.procs j).used) ∧
      ∀ j, j < procMax → update e.space i p.space j = (vm'.procs j).space := by
  rw [hprocs]
  constructor
  · intro j hj
    by_cases hji : j = i
    · subst hji
      rw [update_self, update_self]
    · rw [update_of_ne hji, update_of_ne hji, h.used j hj]
  · intro j hj
    by_cases hji : j = i
    · subst hji
      rw [update_self, update_self]
    · rw [update_of_ne hji, update_of_ne hji, h.space j hj]

end

end Agrees

section

variable (h : Inv reserved kpd base vm lost live)
include h

section

variable (hf : Full vm) (ha : Agrees vm e) (hs : Shows vm.mm.mem live e.mem)
include hf ha hs

theorem launch_simulates (km : Bool) (ho : (launch vm km).mm.oom = false) :
    Simulates reserved kpd base (launch vm km) (e.launch km) := by
  obtain ⟨live', hinv, hsame, hnext, hsh, hwhy⟩ | ⟨i, ks, b, t, pd, ts, hkm, hinv, hfull, hst⟩ :=
    launch_spec h hf km
  · have he : e.launch km = e := by
      rw [Plain.launch]
      split
      · rfl
      next hgo =>
      rw [ha.active, ha.roomy, Bool.not_not, Bool.or_assoc, Bool.or_eq_true, Bool.or_eq_true,
        decide_eq_true_eq, Bool.not_eq_true', not_or, not_or] at hgo
      obtain hc | hc | hc | hc | ⟨hc, -⟩ := hwhy
      · exact absurd hc hgo.1
      · exact absurd hc hgo.2.1
      · rw [ha.freeSlot_eq, hc]
      · exact absurd hc hgo.2.2
      · cases ho.symm.trans hc
    rw [he]
    exact ⟨lost, live', hinv, hsame.full hf, ha.same hsame hnext, hsh _ hs⟩
  · have hgo : (e.active || !e.roomy || !km) = false := by
      rw [ha.active, ha.roomy, hst.inactive, hkm]
      simpa using hst.ample
    have he :
      e.launch km = { (e.grow fun _ => 0#8).spawn i e.next with current := i, active := true } := by
      rw [Plain.launch, hgo, ha.freeSlot_eq, hst.slot]
      rfl
    obtain ⟨hused, hspace⟩ := ha.slots hst.procs
    rw [he, ha.next]
    refine ⟨_, _, hinv, hfull, ⟨hused, hspace, ?_, hst.current.symm, hst.active.symm, ?_⟩, ?_⟩
    · exact (congrArg (· + 1) ha.next).trans hst.nextSpace.symm
    · exact ha.roomy.trans (by rw [hst.total])
    have hb := hst.shows _ hs
    rw [← ha.next] at hb ⊢
    exact hb

section

variable (hid : (vm.procs vm.current).space = some id)
include hid

theorem fork_simulates (hv : live id = some v) (km fd : Bool)
    (ho : (doFork vm km fd).mm.oom = false) :
    Simulates reserved kpd base (doFork vm km fd) (e.fork km fd) := by
  have hsp : e.space e.current = some id := by
    rw [ha.current, ha.space _ h.running.current_lt, hid]
  obtain ⟨live', hinv, hsame, hnext, hsh, hwhy⟩ | ⟨i, ks, t, pd, ts, live', hkm, hinv, hfull, hbr⟩ |
      ⟨i, ks, fr₁, t, fs, fr, m, -, -, -, -, he, -⟩ := doFork_spec h hf hid hv km fd
  · have he : e.fork km fd = e := by
      obtain hc | hc | ⟨hc, -⟩ := hwhy
      · simp only [Plain.fork, ha.freeSlot_eq, hc, ite_self]
      · simp only [Plain.fork, hc, Bool.false_eq_true, if_false]
      · cases ho.symm.trans hc
    rw [he]
    exact ⟨lost, live', hinv, hsame.full hf, ha.same hsame hnext, hsh _ hs⟩
  · have hb := hbr.shows _ hs
    rw [← ha.next] at hb
    have hnext : e.next + 1 = (doFork vm km fd).nextSpace :=
      (congrArg (· + 1) ha.next).trans hbr.nextSpace.symm
    have hroomy := ha.roomy
    rw [← hbr.total] at hroomy
    cases fd with
    | true =>
      have he : e.fork km true = (e.grow (e.mem id)).spawn i e.next := by
        simp only [Plain.fork, hkm, ha.freeSlot_eq, hbr.slot, hsp, if_true]
      obtain ⟨hused, hspace⟩ := ha.slots (hbr.child rfl)
      rw [he, ha.next]
      exact ⟨lost, live', hinv, hfull, ⟨hused, hspace, hnext, ha.current.trans hbr.current.symm,
        ha.active.trans hbr.active.symm, hroomy⟩, hb⟩
    | false =>
      have he : e.fork km false = e.grow (e.mem id) := by
        simp only [Plain.fork, hkm, ha.freeSlot_eq, hbr.slot, hsp, if_true, Bool.false_eq_true, if_false]
      have hsame := hbr.dropped rfl
      rw [he]
      refine ⟨lost, live', hinv, hfull, ⟨?_, ?_, hnext, ha.current.trans hbr.current.symm,
        ha.active.trans hbr.active.symm, hroomy⟩, hb⟩
      · exact fun j hj => (ha.used j hj).trans (hsame.used j hj).symm
      · exact fun j hj => (ha.space j hj).trans (hsame.space j hj).symm
  · obtain ⟨-, hoom⟩ :=
      reap_flags (i := i) (setMm (setSlot (setMm vm (setFr vm.mm fr₁)) i (bornSlot ks)) _)
      (by simp only [setMm, setSlot, update_self, bornSlot])
    rw [he, hoom] at ho
    exact absurd ho (by simp [setMm, failedClone])

theorem thread_simulates (fd : Bool)
    (ho : (doThread vm fd).mm.oom = false) :
    Simulates reserved kpd base (doThread vm fd) (e.thread fd) := by
  have hsp : e.space e.current = some id := by
    rw [ha.current, ha.space _ h.running.current_lt, hid]
  obtain ⟨live', hinv, hsame, hnext, hsh, hwhy⟩ | ⟨i, ks, hfd, hinv, hfull, hj⟩ :=
    doThread_spec h hf hid fd
  · have he : e.thread fd = e := by
      obtain hc | hc | ⟨hc, -⟩ := hwhy
      · simp only [Plain.thread, ha.freeSlot_eq, hc, ite_self]
      · simp only [Plain.thread, hc, Bool.false_eq_true, if_false]
      · cases ho.symm.trans hc
    rw [he]
    exact ⟨lost, live', hinv, hsame.full hf, ha.same hsame hnext, hsh _ hs⟩
  · have he : e.thread fd = e.spawn i id := by
      simp only [Plain.thread, hfd, if_true, ha.freeSlot_eq, hj.slot, hsp]
    obtain ⟨q, hprocs, hqu, hqs, -⟩ := hj.child
    obtain ⟨hused, hspace⟩ := ha.slots hprocs
    rw [hqu] at hused
    rw [hqs] at hspace
    rw [he]
    exact ⟨lost, live, hinv, hfull, ⟨hused, hspace, ha.next.trans hj.nextSpace.symm,
      ha.current.trans hj.current.symm, ha.active.trans hj.active.symm,
      ha.roomy.trans (by rw [hj.total])⟩, hj.shows _ hs⟩

end

theorem onPd_simulates {f : Machine → Nat → Machine}
    (hop : ∀ {k : Nat} {w : View}, live k = some w → ∃ live',
      Sound (f vm.mm (w.pd * 4096)) reserved kpd (owned base lost vm.procs) live' vm.nextSpace ∧
      Kept vm.mm (f vm.mm (w.pd * 4096)) live live') (hstep : onPd vm i f = some vm') :
    isUserProc vm i = true ∧ Simulates reserved kpd base vm' e := by
  have hu : isUserProc vm i = true := by
    by_contra hno
    simp only [onPd, hno, if_false, reduceCtorEq] at hstep
  obtain ⟨mm, live', rfl, hinv, hk⟩ := onPd_inv h hf hop hstep
  exact ⟨hu, lost, live', hinv, hf, ha.memory hk.total e.mem, hs.kept hk⟩

end

end

theorem step_simulates [WindowReserved reserved] (hsim : Simulates reserved kpd base vm e)
    (hok : Ordinary vm a) (hstep : step vm a = some vm') : ∃ e', e.step a = some e' ∧
    Simulates reserved kpd base vm' e' := by
  obtain ⟨lost, live, h, hf, ha, hs⟩ := hsim
  have ho := hok.2 vm' hstep
  cases a with
  | launch km =>
    rw [← some.inj hstep] at ho ⊢
    exact ⟨_, rfl, launch_simulates h hf ha hs km ho⟩
  | fork km fd =>
    obtain ⟨hu, hstep⟩ := ite_none_right_eq_some.mp hstep
    obtain ⟨id, v, hid, hv, -⟩ := current_view h hf hu
    rw [← some.inj hstep] at ho ⊢
    exact ⟨_, by rw [Plain.step, ha.isUser_current, if_pos hu], fork_simulates h hf ha hs hid hv km fd ho⟩
  | thread fd =>
    obtain ⟨hu, hstep⟩ := ite_none_right_eq_some.mp hstep
    obtain ⟨id, v, hid, hv, -⟩ := current_view h hf hu
    rw [← some.inj hstep] at ho ⊢
    exact ⟨_, by rw [Plain.step, ha.isUser_current, if_pos hu], thread_simulates h hf ha hs hid fd ho⟩
  | load va =>
    obtain ⟨hu, hstep⟩ := ite_none_right_eq_some.mp hstep
    obtain ⟨id, v, hid, hv, -⟩ := current_view h hf hu.1
    obtain ⟨b, mm, hl, hinv, hmem, -, hfr, -⟩ := load_inv h hid hv hu.2.1 hu.2.2
    rw [hl] at hstep
    rw [← some.inj hstep]
    refine ⟨e, by rw [Plain.step, ha.isUser_current, if_pos hu], lost, live, hinv, hf,
      ha.memory (by rw [hfr]) e.mem, ?_⟩
    exact (congrArg (fun m => Shows m live e.mem) hmem).mpr hs
  | store va b =>
    obtain ⟨hu, hstep⟩ := ite_none_right_eq_some.mp hstep
    obtain ⟨id, v, hid, hv, hcur⟩ := current_view h hf hu.1
    obtain ⟨mm, live', hst, hinv, -, htot, hsh⟩ := userStore_spec h hid hcur hu.2.1 hu.2.2 b
    rw [hst] at hstep
    rw [← some.inj hstep] at ho ⊢
    have hsp : e.space e.current = some id := by
      rw [ha.current, ha.space _ h.running.current_lt, hid]
    refine ⟨{ e with mem := poke e.mem id va b }, ?_, lost, live', hinv, hf, ha.memory htot _, ?_⟩
    · rw [Plain.step, ha.isUser_current, if_pos hu, Plain.store, hsp]
    · exact hsh.elim (fun hoom => by cases ho.symm.trans hoom) fun hsh => hsh _ hs
  | wake i va off bytes => exact absurd rfl (hok.1 i va off bytes)
  | writeProtect i =>
    obtain ⟨hu, hsim⟩ := onPd_simulates h hf ha hs (fun hv => ⟨_, (h.sound.writeProtect hv).1,
      (h.sound.writeProtect hv).2.1⟩) hstep
    exact ⟨e, by rw [Plain.step, ha.isUser_eq, if_pos hu], hsim⟩
  | makeWritable i va =>
    obtain ⟨hr, hstep⟩ := ite_none_right_eq_some.mp hstep
    obtain ⟨hu, hsim⟩ := onPd_simulates h hf ha hs (fun hv => by
      obtain ⟨v', -, hsd, hk, -, -⟩ := h.sound.makeWritable hv hr.1 hr.2
      exact ⟨_, hsd, hk⟩) hstep
    exact ⟨e, by rw [Plain.step, ha.isUser_eq, if_pos ⟨hr.1, hr.2, hu⟩], hsim⟩
  | detach i =>
    simp only [step] at hstep
    obtain ⟨hu, hsim⟩ := onPd_simulates h hf ha hs (fun hv => by
      obtain ⟨v', -, hsd, hk⟩ := h.sound.detach hv
      exact ⟨_, hsd, hk⟩) hstep
    exact ⟨e, by rw [Plain.step, ha.isUser_eq, if_pos hu], hsim⟩
  | resume i =>
    simp only [step] at hstep
    split at hstep
    · next h0 =>
      rw [← some.inj hstep]
      refine ⟨{ e with current := 0, active := false }, by rw [Plain.step, if_pos h0], lost, live,
        inv_switch h (by decide) h.book.shell.1 false (by simp), hf, ?_, hs⟩
      exact ⟨ha.used, ha.space, ha.next, rfl, rfl, ha.roomy⟩
    · next h0 =>
      obtain ⟨hu, hstep⟩ := ite_none_right_eq_some.mp hstep
      obtain ⟨-, hi, hused⟩ := isUserProc_iff.mp hu
      rw [← some.inj hstep]
      refine ⟨{ e with current := i, active := true },
        by rw [Plain.step, if_neg h0, ha.isUser_eq, if_pos hu], lost, live,
        inv_switch h hi hused true fun _ => rfl, hf, ?_, hs⟩
      exact ⟨ha.used, ha.space, ha.next, rfl, rfl, ha.roomy⟩
  | reap i =>
    obtain ⟨hu, hstep⟩ := ite_none_right_eq_some.mp hstep
    obtain ⟨h0, hi, hused⟩ := isUserProc_iff.mp hu.1
    obtain ⟨live', hinv, hr⟩ := procReap_spec h h0 hi hu.2 hused
    obtain ⟨fr, hmm, htot⟩ := hr.mm
    obtain ⟨hused', hspace'⟩ := ha.slots hr.procs
    rw [← some.inj hstep]
    refine ⟨{ e with used := update e.used i false, space := update e.space i none },
      by rw [Plain.step, ha.isUser_eq, if_pos (by rw [ha.current]; exact hu)], lost, live', hinv,
      full_update hf (by simp [emptySlot]) hr.procs, ?_, shows_reaped hr hs⟩
    refine ⟨hused', hspace', ha.next.trans hr.nextSpace.symm, ha.current.trans hr.current.symm,
      ha.active.trans hr.active.symm, ?_⟩
    rw [hmm]
    exact ha.roomy.trans (by rw [← htot]; rfl)

section

variable (h : Inv reserved kpd base vm lost live) (hf : Full vm)
include h hf

theorem observe_current (hu : isUserProc vm vm.current = true) (hs : Shows vm.mm.mem live img)
    (h1 : userBase ≤ va) (h2 : va < userSigtramp) :
    ∃ id, (vm.procs vm.current).space = some id ∧
    (cpuLoad vm.mm va).map Prod.fst = some (img id va) := by
  obtain ⟨id, v, hid, hv, -⟩ := current_view h hf hu
  obtain ⟨b, mm, hl, -, -, -, -, hb⟩ := load_inv h hid hv h1 h2
  exact ⟨id, hid, by rw [hl, map_some, hb img hs]⟩

theorem observe_eq (hu : isUserProc vm i = true) (hs : Shows vm.mm.mem live img)
    (h1 : userBase ≤ va) (h2 : va < userSigtramp) :
    ∃ id, (vm.procs i).space = some id ∧ observe vm i va = some (img id va) := by
  obtain ⟨-, hi, hused⟩ := isUserProc_iff.mp hu
  by_cases hc : i = vm.current
  · subst hc
    rw [observe, if_pos rfl]
    exact observe_current h hf hu hs h1 h2
  · rw [observe, if_neg hc]
    exact observe_current (inv_switch h hi hused true fun _ => rfl) hf hu hs h1 h2

end

/-- Copy-on-write is an eager copy to its users: a system that copies all memory at each fork takes
the same steps, and every process reads the same bytes in both. -/
theorem cow_reads_eager (h : Idle reserved kpd base vm) {acts : List Act}
    (hm : Meets step Ordinary vm acts) (hr : run step vm acts = some vm') :
    ∃ e, run Plain.step (plainBoot vm) acts = some e ∧ ∀ i va, isUserProc vm' i = true → userBase ≤ va →
      va < userSigtramp → ∃ id, e.space i = some id ∧ observe vm' i va = some (e.mem id va) := by
  have := h.window
  have hboot : Simulates reserved kpd base vm (plainBoot vm) :=
    ⟨[], fun _ => none, h.inv, h.full, ⟨fun _ _ => rfl, fun _ _ => rfl, rfl, rfl, rfl, rfl⟩,
      fun k v i o hk => by cases hk⟩
  have hstep : ∀ s a t e, Simulates reserved kpd base s e → Ordinary s a → step s a = some t →
      ∃ e', e.step a = some e' ∧ Simulates reserved kpd base t e' := fun _ _ _ _ => step_simulates
  obtain ⟨e, he, lost, live, hinv, hf, ha, hs⟩ := meets_simulation hstep hboot hm hr
  refine ⟨e, he, ?_⟩
  intro i va hu h1 h2
  obtain ⟨id, hid, hobs⟩ := observe_eq hinv hf hu hs h1 h2
  exact ⟨id, (ha.space i (isUserProc_iff.mp hu).2.1).trans hid, hobs⟩

/-- The parent's byte is what parent and child read after the fork. -/
theorem cow_reads_eager_sample : Meets step Ordinary (bootVm roomy) sampleRun ∧
    ∃ vm', run step (bootVm roomy) sampleRun = some vm' ∧ isUserProc vm' 1 = true ∧
      isUserProc vm' 2 = true ∧ observe vm' 1 userBase = some 7#8 ∧ observe vm' 2 userBase = some 7#8 := by
  obtain ⟨hm, vm', hr, h1, h2⟩ := sampleRun_calm
  have ho : Meets step Ordinary (bootVm roomy) sampleRun := hm.mono fun _ _ hc =>
    ⟨hc.1, fun vm' hs => (hc.2 vm' hs).1⟩
  obtain ⟨e, he, hread⟩ := cow_reads_eager roomy_idle ho hr
  obtain ⟨i1, hs1, hb1⟩ := hread 1 userBase h1 (by decide) (by decide)
  obtain ⟨i2, hs2, hb2⟩ := hread 2 userBase h2 (by decide) (by decide)
  have hplain : (run Plain.step (plainBoot (bootVm roomy)) sampleRun).map
      (fun e => ((e.space 1).map fun id => e.mem id userBase,
      (e.space 2).map fun id => e.mem id userBase)) =
      some (some 7#8, some 7#8) := by decide
  rw [he, map_some, hs1, hs2] at hplain
  have hpair := some.inj hplain
  refine ⟨ho, vm', hr, h1, h2, ?_, ?_⟩
  · rw [hb1]
    exact congrArg Prod.fst hpair
  · rw [hb2]
    exact congrArg Prod.snd hpair

/-- Frames to be had on a machine too small for the kernel to set the window's apart: some below
4200, then none up to the window. -/
def gapped (f : Nat) : Prop := (4096 ≤ f ∧ f < 4200) ∨ (32841 ≤ f ∧ f < 35328)

instance : DecidablePred gapped :=
  fun f => inferInstanceAs (Decidable ((4096 ≤ f ∧ f < 4200) ∨ (32841 ≤ f ∧ f < 35328)))

abbrev gappedVm : Vm := bootVmOf 35328 gapped

/-- Page `i` lies in frame `32841 + i`, where the program has page `i + 1`. -/
def shadowView : View := createdView 4099 [4100, 4101, 4102] 4098 32841

def shadowLive : Nat → Option View := update (fun _ => none) 0 (some shadowView)

def shadowedLive : Nat → Option View :=
  forkLive shadowLive 0 1 shadowView 4105 4106 [4107, 4108, 4109]

theorem gapped_launch : ∃ vm, launch gappedVm true = vm ∧
    Inv (bootReserved gapped) kernelDir bootRefs vm [34888] shadowLive ∧ Full vm ∧
    Started (bootReserved gapped) (heldIn bootRefs [] (fun _ => none) gappedVm) gappedVm vm
      (fun _ => none) 1 4096 32841 4098 4099 [4100, 4101, 4102] ∧
    Taken (heldIn bootRefs [34888] shadowLive vm) (bootReserved gapped)
      (fun f => f < 4103 ∨ 4200 ≤ f ∧ f < 34889 ∨ 35328 ≤ f) := by
  have hlow : ∀ f, gapped f → kernelDir < f := by
    intro f hf
    unfold gapped at hf
    unfold kernelDir
    omega
  have hbare := bootVm_bare 35328 gapped (by decide) (by decide) hlow
  have ht : Taken (heldIn bootRefs [] (fun _ => none) gappedVm) (bootReserved gapped)
      (fun f => f < 4096 ∨ 4200 ≤ f ∧ f < 32841 ∨ 35328 ≤ f) := by
    refine (taken_boot gapped hlow).congr fun f => ?_
    unfold gapped
    omega
  have hblock : ∀ k, k < 32841 → ∃ f, k ≤ f ∧ f < k + 2048 ∧
      ((f < 4096 ∨ 4200 ≤ f ∧ f < 32841 ∨ 35328 ≤ f) ∨ 4096 ≤ f ∧ f < 4096 + 2) := by
    intro k hk
    by_cases hlow : 4098 ≤ k ∧ k < 4200
    · exact ⟨4200, by omega⟩
    · exact ⟨k, by omega⟩
  obtain ⟨hinv, hfull, hst⟩ :=
    launch_lowest 1 4096 32841 4098 4099 [4100, 4101, 4102] hbare.inv hbare.full rfl
    (show ¬ 35328 * 4096 < userEnd by decide) rfl ht ⟨by omega, fun k hk => ⟨k, by omega⟩⟩
    (show 4096 + 2 ≤ 35328 by omega) ⟨by omega, hblock⟩ (show 32841 + 2048 ≤ 35328 by omega) rfl
    ⟨⟨by omega, by omega⟩, ⟨by omega, by omega⟩, ⟨by omega, by omega⟩, ⟨by omega, by omega⟩,
      ⟨by omega, by omega⟩, trivial⟩
    (show ∀ f ∈ [4098, 4099, 4100, 4101, 4102], f < 35328 by decide)
  refine ⟨_, rfl, hinv, hfull, hst, (taken_started hbare.inv hst ht).congr fun f => ?_⟩
  simp only [mem_cons, not_mem_nil, or_false]
  omega

/-- The state after the fork: page 1 is still clear. -/
structure Shadowed (vm : Vm) : Prop where
  meets : ∀ acts, Meets step Calm vm acts → Meets step Calm gappedVm (sampleRun ++ acts)
  run : run step gappedVm sampleRun = some vm
  inv : Inv (bootReserved gapped) kernelDir bootRefs vm [34888] shadowedLive
  current : vm.current = 1
  space : (vm.procs 1).space = some 0
  user : isUserProc vm 1 = true
  total : vm.mm.fr.totalPages = 35328
  calm : vm.mm.oom = false ∧ vm.mm.cloneFailed = false
  taken : Taken (heldIn bootRefs [34888] shadowedLive vm) (bootReserved gapped)
    (fun f => f < 4110 ∨ 4200 ≤ f ∧ f < 34889 ∨ 35328 ≤ f)
  clear : vm.mm.mem (32842 * 4096) = 0#8

theorem gapped_forked : ∃ vm, Shadowed vm := by
  obtain ⟨vm, hvm, hinv, hfull, hst, ht⟩ := gapped_launch
  have hid : (vm.procs vm.current).space = some 0 := by
    rw [hst.current, hst.procs]
    rfl
  have hu : isUserProc vm vm.current = true := by
    rw [hst.current, isUserProc, hst.procs]
    rfl
  have hslot : freeSlot vm = some 2 := by
    unfold freeSlot
    rw [hst.procs]
    rfl
  have hfirst : shadowLive 0 = some shadowView := update_self ..
  obtain ⟨mm, hcpu, hinv₁, hcf, hoom, hfr, hshow⟩ := store_writable hinv hid hfirst (by decide)
    (show userBase / 4096 = 32840 + 0 by decide) rfl 7#8
  have htot : (setMm vm mm).mm.fr.totalPages = 35328 :=
    (congrArg Allocator.totalPages hfr).trans hst.total
  have hnext : (setMm vm mm).nextSpace = 1 := hst.nextSpace
  obtain ⟨live', hinv₂, hfull₂, hbr⟩ :=
    fork_lowest true 2 4103 4105 4106 [4107, 4108, 4109] hinv₁ hfull hid
    hfirst hslot ht ⟨by omega, fun k hk => ⟨k, by omega⟩⟩ (by omega) rfl
    ⟨⟨by omega, by omega⟩, ⟨by omega, by omega⟩, ⟨by omega, by omega⟩, ⟨by omega, by omega⟩,
    ⟨by omega, by omega⟩, trivial⟩ (by rw [htot]; decide)
  have hlive : live' = shadowedLive := by
    rw [hbr.views rfl, hnext]
    rfl
  subst hlive
  have h1 : step gappedVm (.launch true) = some vm := by rw [step, hvm]
  have h2 : step vm (.store userBase 7#8) = some (setMm vm mm) := by
    rw [step, if_pos ⟨hu, by decide, by decide⟩]
    simp only [userStore, hcpu]
  have h3 :
    step (setMm vm mm) (.fork true true) = some (doFork (setMm vm mm) true true) := if_pos hu
  have hone : (doFork (setMm vm mm) true true).procs 1 = vm.procs 1 := by
    rw [hbr.child rfl, update_of_ne (by decide)]
    rfl
  have hcalm : mm.oom = false ∧ mm.cloneFailed = false :=
    ⟨hoom.trans hst.oom, hcf.trans hst.cloneFailed⟩
  have hcalm' := And.intro (hbr.oom.trans hcalm.1) (hbr.cloneFailed.trans hcalm.2)
  refine ⟨_, fun acts hm => ?_, run_cons step h1 (run_cons step h2 (run_cons step h3 rfl)), hinv₂,
    hbr.current.trans hst.current, ?_, ?_, hbr.total.trans htot, hcalm', ?_, ?_⟩
  · exact meets_cons (by simp) h1 ⟨hst.oom, hst.cloneFailed⟩ (meets_cons (by simp) h2 hcalm
      (meets_cons (by simp) h3 hcalm' hm))
  · rw [hone, ← hst.current]
    exact hid
  · rw [isUserProc, hone, ← hst.current]
    exact hu
  · refine (taken_forked hinv₁ hfirst hbr ht).congr fun f => ?_
    simp only [mem_cons, not_mem_nil, or_false]
    omega
  · have hs := hbr.shows _ (hshow _ (hst.shows (fun _ _ => 0#8) fun k v i o hk => by cases hk)) 0
      (protect shadowView dataPages) 1 0 rfl (by decide) (by decide)
    rw [hnext] at hs
    exact hs

theorem kernelSees_page {s : Machine} {a : Nat} (hm : Mapped s.mem kpd v)
    (hcr : mmGetCurrentPd s = v.pd * 4096) (hk : v.pd * 4096 ≠ s.pageDirPhys) (hi : i < dataPages)
    (ha : a / 4096 = 32840 + i) : kernelSees s false a = v.page i * 4096 + a % 4096 := by
  obtain ⟨h1, h2⟩ := page_covered hi
  have hw : a / 4194304 ∈ windowPdes := by
    simp only [windowPdes, mem_cons, not_mem_nil, or_false]
    omega
  rw [kernelSees, hcr, if_pos ⟨hk, hw⟩]
  simp only [hm.userPte_eq ha h1 h2, hm.rdPte_eq h1 h2, pte_page hi, present_perm, Bool.not_false,
    Bool.or_true, Bool.and_self, if_true, addrOf_entry (hm.page_lt i hi)]

/-- The copy of page 0 is made from page 1. -/
theorem shadowed_writable {vm : Vm} (h : Shadowed vm) :
    ∃ fr, mmUserMakeWritable vm.mm (4099 * 4096) (userBase + 1) =
    (true, refresh (setFr (setMem vm.mm (wr32 (copyPage vm.mm.mem (4110 * 4096) (32842 * 4096))
      ((protect shadowView dataPages).pteAddr 32840) (entry 4110 (perm true)))) fr) (4099 * 4096)) := by
  have hv : shadowedLive 0 = some (protect shadowView dataPages) := rfl
  have hm := h.inv.sound.shared.mapped 0 _ hv
  have hled := h.inv.sound.ledger
  have hcr : vm.mm.cr3 = 4099 * 4096 := by
    obtain ⟨w, hw, -, hcr⟩ := h.inv.loaded_view (h.current.symm ▸ h.space)
    cases hw
    exact hcr
  have hrefs : 1 < vm.mm.fr.frameRefs 32841 := by
    have hd := h.inv.sound.shared.one_lt_dataUse hv
      (show shadowedLive 1 = some (childView shadowView 4106 [4107, 4108, 4109] 4105) from rfl) (by decide)
      (page_mem (show 0 < dataPages by decide)) (page_mem (show 0 < dataPages by decide))
    rw [show (protect shadowView dataPages).page 0 = 32841 from rfl] at hd
    rw [hled.refs_eq _ (by rw [h.total]; omega), heldBy]
    omega
  obtain ⟨-, hall⟩ | ⟨g, fr, he, hg, -, -⟩ := alloc_cases hled
  · exact absurd ((h.taken 4110).mp (hall 4110 (by rw [h.total]; omega))) (by omega)
  obtain rfl : g = 4110 := h.taken.fresh hg ⟨by omega, fun k hk => by omega⟩
  have hpd : mmGetCurrentPd (setFr vm.mm fr) = 4099 * 4096 := by
    rw [mmGetCurrentPd, setFr_cr3, hcr]
  have hsrc : kernelSees (setFr vm.mm fr) false (32841 * 4096) = 32842 * 4096 :=
    kernelSees_page (i := 1) hm hpd
      (by rw [h.inv.sound.dir]; decide) (by decide) (by decide)
  have hdst : kernelSees (setFr vm.mm fr) true (4110 * 4096) = 4110 * 4096 :=
    if_neg fun hc => absurd hc.2 (by decide)
  refine ⟨pageUnref fr 32841, ?_⟩
  rw [show 4099 * 4096 = (protect shadowView dataPages).pd * 4096 from rfl, makeWritable_eq hm
    (show (userBase + 1) / 4096 = 32840 by decide) (by omega) (by omega) (pte_page (i := 0) (by decide))
    (show 32841 < 1048576 by decide)]
  rw [show (protect shadowView dataPages).rw 0 = false from rfl, if_neg Bool.false_ne_true,
    show (protect shadowView dataPages).page 0 = 32841 from rfl, if_pos hrefs]
  simp only [he, hsrc, hdst]
  rw [if_neg (by omega), entry_retarget (by omega), entry_unprotect]
  rfl

theorem store_refreshed {s : Machine} {va' : Nat} (hm : Mapped s.mem kpd v)
    (hcr : s.cr3 = v.pd * 4096) (hi : i < dataPages) (hva : va / 4096 = 32840 + i)
    (hrw : v.rw i = true)
    (hpage : va' / 4096 = va / 4096) (hne : va' % 4096 ≠ va % 4096) (b : BitVec 8) : ∃ mm, cpuStore
      (refresh s (v.pd * 4096)) va b = some mm ∧ mm.oom = s.oom ∧ mm.cloneFailed = s.cloneFailed ∧
      (cpuLoad mm va').map Prod.fst = some (s.mem (v.page i * 4096 + va' % 4096)) := by
  have hmul : s.cr3 % 4096 = 0 := hcr ▸ Nat.mul_mod_left v.pd 4096
  have hlook : Space.lookup (refresh s (v.pd * 4096)) va = some (entry (v.page i) (perm true)) := by
    cases ht : (refresh s (v.pd * 4096)).tlb (va / 4096) with
    | some e => exact absurd hcr (refresh_tlb hmul _ _ e ht).1
    | none =>
      have hpos : 0 < v.pd * 4096 := Nat.pos_of_ne_zero (frame_ne_zero hm.pd_pos)
      simp only [Space.lookup, ht, refresh_cr3 hmul hpos, refresh_mem, hcr, walk_page hm hi hva, hrw]
  have hlt := hm.page_lt i hi
  have hst : cpuStore (refresh s (v.pd * 4096)) va b = some (setMem (fill (refresh s (v.pd * 4096)) va
      (entry (v.page i) (perm true))) (store s.mem (v.page i * 4096 + va % 4096) b)) := by
    simp only [cpuStore, hlook, user_perm, writable_perm, Bool.and_self, if_true, addrOf_entry hlt,
      refresh_mem]
  refine ⟨_, hst, refresh_oom .., refresh_cloneFailed .., ?_⟩
  have haddr : v.page i * 4096 + va' % 4096 ≠ v.page i * 4096 + va % 4096 := by omega
  simp only [cpuLoad, Space.lookup, fill, setMem, hpage, update_self, user_perm, if_true,
    addrOf_entry hlt, map_some, store_of_ne _ _ haddr]

/-- Where the window's frames are in use, a store to a shared page loses the rest of the page: the
parent reads 0 where the eager system reads 7. -/
theorem shadowed_copy_lost :
    ∃ vm, Meets step Ordinary gappedVm (sampleRun ++ [.store (userBase + 1) 9#8]) ∧
    run step gappedVm (sampleRun ++ [.store (userBase + 1) 9#8]) = some vm ∧
    isUserProc vm 1 = true ∧ observe vm 1 userBase = some 0#8 ∧
    (run Plain.step (plainBoot gappedVm) (sampleRun ++ [.store (userBase + 1) 9#8])).map
      (fun e => (e.space 1).map fun id => e.mem id userBase) = some (some 7#8) := by
  obtain ⟨vm, h⟩ := gapped_forked
  have hv : shadowedLive 0 = some (protect shadowView dataPages) := rfl
  have hid : (vm.procs vm.current).space = some 0 := h.current.symm ▸ h.space
  have hva : (userBase + 1) / 4096 = 32840 + 0 := by decide
  have hm := h.inv.sound.shared.mapped 0 _ hv
  obtain ⟨w, hw, -, hcr⟩ := h.inv.loaded_view hid
  cases hw
  have hnone : cpuStore vm.mm (userBase + 1) 9#8 = none :=
    (cpuStore_page h.inv hid hv (by decide) hva 9#8).trans (if_neg Bool.false_ne_true)
  obtain ⟨fr, hmw⟩ := shadowed_writable h
  have hisr :=
    isrHandler_eq h.inv hid hv (h.current.symm ▸ by decide) (show userBase ≤ userBase + 1 by decide)
    (show userBase + 1 < userSigtramp by decide)
  rw [show (protect shadowView dataPages).pd = 4099 from rfl, hmw] at hisr
  obtain ⟨m', hm'⟩ : ∃ m', wr32 (copyPage vm.mm.mem (4110 * 4096) (32842 * 4096))
      ((protect shadowView dataPages).pteAddr 32840) (entry 4110 (perm true)) = m' := ⟨_, rfl⟩
  have hmap := Sound.mapped_copied hm (i := 0) (g := 4110) (by decide) (by decide) (by decide)
    (32842 * 4096)
  have hbyte := Sound.copied_byte (v := protect shadowView dataPages) (i := 0) (g := 4110) vm.mm.mem
    (by decide) (by decide) (32842 * 4096) (show 0 < 4096 by decide) (entry 4110 (perm true))
  rw [hm'] at hisr hmap hbyte
  obtain ⟨mm, hst, ho, hc, hload⟩ := store_refreshed (s := setFr (setMem vm.mm m') fr) hmap hcr
    (by decide) hva (by decide) (show userBase / 4096 = (userBase + 1) / 4096 by decide)
    (by decide) 9#8
  have hst' : cpuStore (setMm vm (refresh (setFr (setMem vm.mm m') fr) (4099 * 4096))).mm
      (userBase + 1) 9#8 = some mm := hst
  have hstep : step vm (.store (userBase + 1) 9#8) = some (setMm vm mm) := by
    rw [step, if_pos ⟨h.current.symm ▸ h.user, by decide, by decide⟩, userStore, hnone]
    simp only [hisr, if_true]
    rw [hst']
    rfl
  have hcalm := h.meets [.store (userBase + 1) 9#8]
    (meets_cons (by simp) hstep ⟨ho.trans h.calm.1, hc.trans h.calm.2⟩ trivial)
  refine ⟨setMm vm mm, hcalm.mono fun _ _ hc => ⟨hc.1, fun vm' hs => (hc.2 vm' hs).1⟩, ?_, h.user,
    ?_, by decide⟩
  · rw [run_append, h.run]
    exact run_cons step hstep rfl
  · rw [observe, if_pos (show 1 = (setMm vm mm).current from h.current.symm)]
    exact hload.trans (congrArg some (hbyte.trans h.clear))

end MuOS.Proc.Eager
