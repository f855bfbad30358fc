import MuOS.Kernel.Traps

namespace MuOS.Kernel.Rows

open State Wake Sched Calls Stir Tables Prims ProcTable Step Phases Layout

structure Child (k : Machine) (p : Proc) (x : Context) (tls : Tls) : Prop where
  begets : Begets k x tls
  ctx : p.ctx = x
  tls : p.tls = tls
  state : p.state = .ready
  waitKind : p.waitKind = .none
  waitPid : p.waitPid = 0
  cwd : p.cwd = k.cwd.take 63
  brk : p.brk = brkState k.brk

inductive Moved (k k' : Machine) (i : Fin 8) : Prop
  | roused (h : Roused (k.procs i) (k'.procs i))
  | runs (h : (k'.procs i).state = .running)
  | slept (r : Request) (o : Otherwise) (hi : i = k.current) (hp : k.phase = .blocking r o)
    (hf : (cur k).fdState.isSome = true) (h : k'.procs i = sleeper k r)
  | yielded (hi : i = k.current) (hp : k.phase = .switching) (h : k'.procs i = yielder k .ready)
  | died (hi : i = k.current) (h : (k'.procs i).state = .zombie)
  | begot (x : Context) (tls : Tls) (hb : busy k.phase = true) (hu : (k.procs i).used = false)
    (h : Child k (k'.procs i) x tls)
  | gone (h : (k'.procs i).used = false)

variable {c : Call} {k k' k1 : Machine} {i : Fin 8} {p : Proc} {j : Fin 8}

theorem Moved.same (h : k'.procs i = k.procs i) : Moved k k' i := by
  refine .roused ?_
  rw [h]
  exact Roused.refl _

theorem Moved.own (h : k'.procs = (setProc k k.current p).procs) (hr : p.state = .running) :
    Moved k k' i := by
  obtain ⟨-, he⟩ | ⟨-, he⟩ := row_set h i
  · exact .runs (he ▸ hr)
  · exact .same he

theorem Moved.freed (h : k'.procs = (setProc k j p).procs) (hu : p.used = false) :
    Moved k k' i := by
  obtain ⟨-, he⟩ | ⟨-, he⟩ := row_set h i
  · exact .gone (he ▸ hu)
  · exact .same he

def mark (p : Proc) : Bool × Nat × Signals := (p.used, p.pid, p.sig)

inductive Row (c : Call) (k k' : Machine) (i : Fin 8) : Prop
  | roused (h : Roused (k.procs i) (k'.procs i))
  | own (p : Proc) (hi : i = k.current) (hs : (k'.procs i).state = .running) (hp : Roused (cur k) p)
    (hm : isSignal c = true ∨ mark (k'.procs i) = mark p)
  | begot (p : Proc) (x : Context) (tls : Tls) (hu : (k.procs i).used = false)
    (h : Child k (k'.procs i) x tls) (hn : (k'.procs i).pid = k.nextPid) (hp : Roused (cur k) p)
    (hs : (k'.procs i).sig = inherited p.sig)
  | gone (h : (k'.procs i).used = false)

theorem Row.same (h : k'.procs i = k.procs i) : Row c k k' i := by
  refine .roused ?_
  rw [h]
  exact Roused.refl _

theorem Row.set (h : k'.procs = (setProc k k.current p).procs) (hr : p.state = .running)
    (hm : isSignal c = true ∨ mark p = mark (cur k)) : Row c k k' i := by
  obtain ⟨hi, he⟩ | ⟨-, he⟩ := row_set h i
  · exact .own (cur k) hi (he ▸ hr) (Roused.refl _) (he ▸ hm)
  · exact .same he

theorem Row.freed (h : k'.procs = (setProc k j p).procs) (hu : p.used = false) : Row c k k' i := by
  obtain ⟨-, he⟩ | ⟨-, he⟩ := row_set h i
  · exact .gone (he ▸ hu)
  · exact .same he

theorem Row.reaped (hp : k1.procs = k.procs) (hu : (k1.procs j).used = true) (hc : k1.current ≠ j) :
    Row c k (procReap k1 j) i := by
  by_cases hi : i = j
  · refine .gone ?_
    rw [hi, procReap_self hu hc]
    rfl
  · refine .roused ?_
    rw [← hp]
    exact procReap_other hu hc hi

theorem finishChild_row {b : Machine} {child : Fin 8} {x : Context} {tls : Tls} (thread : Bool)
    (hf : freeSlot k = some child) (hb : b.procs child = p) (hx : Begets k x tls)
    (hp : p.state = .ready ∧ p.waitKind = .none ∧ p.waitPid = 0 ∧ p.pid = k.nextPid)
    (hcur : b.current = k.current) (hcwd : b.cwd = k.cwd) (hbrk : b.brk = k.brk)
    (hu : (cur k).used = true) (ho : ∀ j, j ≠ child → Roused (k.procs j) (b.procs j)) (i : Fin 8) :
    Row c k (finishChild b child x tls thread).1 i := by
  by_cases hi : i = child
  · subst hi
    have he : (finishChild b i x tls thread).1.procs i = childOf b p (cur b) x tls thread := by
      rw [← hb]
      exact setProc_self
    obtain ⟨hst, hkind, hwait, hpid⟩ := hp
    have hb : Roused (cur k) (cur b) := by
      rw [cur, cur, hcur]
      exact ho _ (freeSlot_ne hf hu)
    refine .begot (cur b) x tls (freeSlot_unused hf) ?_ ?_ hb ?_
    · rw [he]
      exact ⟨hx, rfl, rfl, hst, hkind, hwait, by rw [childOf, hcwd], by rw [childOf, hbrk]⟩
    · rw [he]
      exact hpid
    · rw [he]
      rfl
  · refine .roused ?_
    rw [finishChild_other hi]
    exact ho i hi

theorem Does.row (h : Does c k k') (hu : (cur k).used = true) (hr : (cur k).state = .running)
    (i : Fin 8) : Row c k k' i := by
  cases h with
  | stored | keyed | answered | moved | jumped => exact .same rfl
  | took j n => exact .roused ((took_woke k j n _).procs i)
  | wrote j bs => exact .roused ((wrote_woke k j bs).procs i)
  | filed d _ => exact .roused (Rang.procs (addWriters_rang (setFiles k d.sys) d.pipes) i)
  | piped d _ =>
    obtain ⟨ps, hps⟩ := createPipe_eq k
    rw [hps]
    exact .roused (Rang.procs (addWriters_rang (setFiles { k with pipes := ps } d.sys) d.pipes) i)
  | self p ho hs =>
    have hst : (outer p).state = (outer (cur k)).state := congrArg Proc.state ho
    have hfit := Fit.outer ho
    refine .set rfl (hst.trans hr) (hs.symm.imp id fun hsig => ?_)
    rw [mark, hfit.used, hfit.pid, hsig]
    rfl
  | resumed =>
    obtain ⟨s, f, he⟩ := sigreturn_eq k
    rw [he]
    exact .set rfl hr (.inl rfl)
  | segment entry base limit flags out => exact .set rfl hr (.inr rfl)
  | signalled pid sig => exact .roused ((procSignalSend_stirred k pid sig.toInt).procs i)
  | refused child hf => exact .freed rfl rfl
  | dropped child sp ns m hf =>
    rw [dropped_eq (freeSlot_ne hf hu)]
    exact .freed rfl rfl
  | forked child sp ns m x tls thread hf hx =>
    obtain ⟨p, hp, hrow, -⟩ := ownTable_child (begun k child sp ns m) child
    rw [begun_self] at hrow
    have hrang := tabled_rang k child sp ns m
    have hcalm := hrow.calm (by rintro ⟨⟩)
    exact finishChild_row thread hf hp hx ⟨hcalm.1, hcalm.2.2, hrow.field Proc.waitPid fun _ => rfl,
      hrow.pid⟩ hrang.current hrang.cwd hrang.brk hu (fun j hj => (forked_row hj sp ns m).1) i
  | shared child sp ns t m x tls thread hf ht hx =>
    refine finishChild_row thread hf (shared_self child sp ns t m k.current) hx ⟨rfl, rfl, rfl, rfl⟩
      rfl rfl rfl hu (fun j hj => ?_) i
    rw [shared_row hj]
    exact Roused.refl _
  | settled =>
    obtain he | he | ⟨j, hj, hz, he⟩ := reapReported_cases k <;> rw [he]
    · exact .same rfl
    · exact .set rfl hr (.inr rfl)
    have hused := (procFind_some hj).1
    have hc := running_ne hr hz
    have hcur := procReap_current hused hc
    have hrow := procReap_cur hused hc
    by_cases hi : i = k.current
    · have he : (forget (procReap k j)).procs i = { cur (procReap k j) with lastWaitPid := 0 } := by
        rw [hi, ← hcur]
        exact setProc_self
      refine .own (cur (procReap k j)) hi ?_ hrow (.inr ?_)
      · rw [he]
        exact (hrow.calm (by rw [hr]; simp)).1.trans hr
      · rw [he]
        rfl
    · have he : (forget (procReap k j)).procs i = (procReap k j).procs i := setProc_ne (hcur ▸ hi)
      have hreap : Row c k (procReap k j) i := .reaped rfl hused hc
      cases hreap with
      | roused h => exact .roused (he ▸ h)
      | own p hi' => exact absurd hi' hi
      | begot p x tls hu' h hn hp hs => exact .begot p x tls hu' (he ▸ h) (he ▸ hn) hp (he ▸ hs)
      | gone h => exact .gone (he ▸ h)
  | waited _ j hj =>
    obtain ⟨⟨hused, -⟩, hz⟩ := zombieChild_spec hj
    exact .reaped rfl hused (running_ne hr hz)

theorem Does.moved (h : Does c k k') (hb : busy k.phase = true) (hu : (cur k).used = true)
    (hr : (cur k).state = .running) (i : Fin 8) : Moved k k' i := by
  cases Does.row h hu hr i with
  | roused h => exact .roused h
  | own _ _ hs => exact .runs hs
  | begot _ x tls hu h => exact .begot x tls hb hu h
  | gone h => exact .gone h

theorem Stepped.moved {a : Act} (hs : Shape k) (h : Stepped k a k') : (∃ c, a = .sys c) ∨
    ∀ i, Moved k k' i := by
  have hload : ∀ (p : Proc) (j i : Fin 8) (ph : Phase), (i = k.current → Moved k (aside k p) i) →
      Moved k (setPhase (schedLoad (aside k p) j) ph) i := by
    intro p j i ph hown
    obtain ⟨-, he⟩ | ⟨-, he⟩ := row_set (b := setPhase (schedLoad (aside k p) j) ph) rfl i
    · exact .runs (by rw [he])
    by_cases hi : i = k.current
    · cases hown hi with
      | roused h => exact .roused (he ▸ h)
      | runs h => exact .runs (he ▸ h)
      | slept r o hi hp hf h => exact .slept r o hi hp hf (he ▸ h)
      | yielded hi hp h => exact .yielded hi hp (he ▸ h)
      | died hi h => exact .died hi (he ▸ h)
      | begot x tls hb hu h => exact .begot x tls hb hu (he ▸ h)
      | gone h => exact .gone (he ▸ h)
    · refine .same (he.trans ?_)
      exact setProc_ne hi
  have hself : ∀ p : Proc, (aside k p).procs k.current = p := fun p => setProc_self
  have hwoke : ∀ {k1 k2 : Machine}, Woke k1 k2 → k1.procs = k.procs → k'.procs = k2.procs →
    ∀ i, Moved k k' i := by
    intro k1 k2 hw hp he i
    refine .roused ?_
    rw [he, ← hp]
    exact hw.procs i
  have hrun : busy k.phase = true → (cur k).state = .running := fun hb => (hs.cpu hb).2.2
  have hstill : k'.procs = k.procs → ∀ i, Moved k k' i := fun he i => .same (congrFun he i)
  cases h with
  | compute | exit | fault | ignored | back | lost | refuse | shell | shellKey
  | spinDone => exact .inr (hstill rfl)
  | call c k1 fl hp hc => exact .inl ⟨c, rfl⟩
  | tick | idle => exact .inr (hwoke (ticked_woke k) rfl rfl)
  | key c hp => exact .inr (hwoke (typed_woke k c) rfl rfl)
  | sleep r o j hp hf hj =>
    refine .inr fun i => hload _ j i _ fun hi => .slept r o hi hp hf ?_
    rw [hi]
    exact hself _
  | awake r o hp hf hn =>
    have he : (after (stayed k r) (instead o)).procs = (setProc k k.current (sleepless k r)).procs := by
      cases o <;> rfl
    exact .inr fun i => .own he rfl
  | tableless r o hp hf =>
    have he : (after k (instead o)).procs = k.procs := by cases o <;> rfl
    exact .inr (hstill he)
  | leave _ _ hp hd | alarm _ _ hp hd =>
    obtain ⟨m, eip, sp, eax, sig, rfl⟩ := delivered_notified hd
    exact .inr fun i => .own rfl (hrun (by rw [hp]; rfl))
  | yield j hp hj hne =>
    refine .inr fun i => hload _ j i _ fun hi => .yielded hi hp ?_
    rw [hi]
    exact hself _
  | keep hp => exact .inr fun i => .own rfl rfl
  | die code faulted sys hp =>
    refine .inr fun i => ?_
    have hst := procWakeParent_stirred (ended k code faulted) (exited k code faulted)
    have hrow := hst.procs i
    obtain ⟨rfl, he⟩ | ⟨-, he⟩ := row_set (b := (ended k code faulted)) rfl i
    · rw [he] at hrow
      exact .died rfl (hrow.calm (by rintro ⟨⟩)).1
    · exact .roused (he ▸ hrow)
  | pick sys j hp hj =>
    refine .inr fun i => ?_
    obtain ⟨-, he⟩ | ⟨-, he⟩ :=
      row_set (b := setPhase (schedLoad k j) (if sys then .leaving else .user)) rfl i
    · exact .runs (by rw [he])
    · exact .same he
  | finish l hp =>
    obtain ⟨k1, hcull, -, he⟩ := hs.finish_culled hp
    rw [he]
    refine .inr fun i => ?_
    by_cases hu : (k1.procs i).used = true
    · exact .roused (hcull.roused i hu)
    · exact .gone (Bool.eq_false_iff.mpr hu)
  | launch frames l hp ha =>
    refine .inr fun i => ?_
    refine hs.launch_elim hp frames l (.same rfl) (fun _ _ _ _ _ _ _ _ _ hu => .freed rfl hu)
      fun j b m f hj hf => ?_
    obtain ⟨-, he⟩ | ⟨-, he⟩ := row_set (b := started k j b m f) rfl i
    · exact .runs (by rw [he]; rfl)
    · exact .same he

end MuOS.Kernel.Rows
