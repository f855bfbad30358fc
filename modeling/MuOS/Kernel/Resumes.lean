import MuOS.Kernel.Answers

namespace MuOS.Kernel.Resumes

open User.Window Lib.Runs Syscall Vfs References State Wake Sched Calls Stir Tables
open Prims ProcTable Step Phases Layout Holdings Traps Bystanders Sleepers Answers Option

structure Housed (k : Machine) : Prop where
  cwd : Absolute k.cwd
  brk : k.brk.isSome = true

/-- A process has the globals and the registers that it had. -/
structure Resumed (k k' : Machine) : Prop where
  eip : k'.frame.eip = k.frame.eip
  esp : k'.frame.useresp = k.frame.useresp
  flags : k'.frame.eflags = safeFlags k.frame.eflags
  eax : k'.frame.eax = k.frame.eax
  ebx : k'.frame.ebx = k.frame.ebx
  ecx : k'.frame.ecx = k.frame.ecx
  edx : k'.frame.edx = k.frame.edx
  esi : k'.frame.esi = k.frame.esi
  edi : k'.frame.edi = k.frame.edi
  ebp : k'.frame.ebp = k.frame.ebp
  fs : k'.frame.fs = orDefault (k.frame.fs &&& 0xFFFF#32)
  gs : k'.frame.gs = orDefault (k.frame.gs &&& 0xFFFF#32)
  space : k'.cr3 = k.cr3
  fds : k'.fds = k.fds
  cwd : k'.cwd = k.cwd
  brk : k'.brk = k.brk
  tls : k'.tls = k.tls

/-- A preempted process as others leave it. -/
structure Waiting (k0 k : Machine) : Prop where
  used : (k.procs k0.current).used = true
  row : Roused (yielder k0 .ready) (k.procs k0.current)
  table : savedTable k (k.procs k0.current) = some k0.fds
  unshared : Unshared k k0.current

variable {D : Fin 16 → Prop} {k k' k0 k1 : Machine} {i : Fin 8} {c : Call} {a : Act} {ph : Phase}

section

variable (h : Housed k)
include h

theorem Housed.same (hc : k'.cwd = k.cwd) (hb : k'.brk = k.brk) : Housed k' := by
  refine ⟨?_, ?_⟩
  · rw [hc]
    exact h.cwd
  · rw [hb]
    exact h.brk

theorem Housed.rang (hr : Rang k k') : Housed k' := h.same hr.cwd hr.brk

theorem Housed.files {d : Done} (hc : d.sys.cwd = k.cwd ∨ Absolute d.sys.cwd) :
    Housed (addWriters (setFiles k d.sys) d.pipes) := by
  have hset : Housed (setFiles k d.sys) := by
    refine ⟨?_, h.brk⟩
    rcases hc with he | habs
    · show Absolute d.sys.cwd
      rw [he]
      exact h.cwd
    · exact habs
  exact hset.rang (addWriters_rang _ _)

omit h in
theorem doPipe_cwd (s : Sys) (ctx : Ctx) (ok : Bool) :
    (Syscall.FileCalls.doPipe s ctx ok).sys.cwd = s.cwd := by
  rw [Syscall.FileCalls.doPipe]
  repeat' split
  all_goals rfl

theorem Housed.reap (hu : (k.procs i).used = true) (hc : k.current ≠ i) : Housed (procReap k i) :=
  h.same (procReap_field _ hu hc fun _ _ => rfl) (procReap_field _ hu hc fun _ _ => rfl)

theorem Housed.does (hu : (cur k).used = true) (hr : (cur k).state = .running) (hd : Does c k k') :
    Housed k' := by
  cases hd with
  | took j n _ => exact h.rang (Woke.rang (took_woke k j n _))
  | wrote j bs _ => exact h.rang (Woke.rang (wrote_woke k j bs))
  | filed d he =>
    refine h.files ?_
    cases he (fun _ => False) with
    | kept hk _ => exact hk.cwd
    | opened _ _ _ _ _ _ _ _ hc | closed _ _ _ hc | replaced _ _ _ _ _ hc => exact .inl hc
  | piped d he _ =>
    obtain ⟨w, rfl⟩ := he
    have hmade : Housed (createPipe k) := by
      rw [createPipe]
      split
      · exact h
      · exact h.same rfl rfl
    refine hmade.files (.inl ?_)
    rw [doPipe_cwd, createPipe]
    split <;> rfl
  | moved b => exact ⟨h.cwd, rfl⟩
  | resumed =>
    obtain ⟨s, f, he⟩ := sigreturn_eq k
    rw [he]
    exact h.same rfl rfl
  | signalled pid sig =>
    have hs := procSignalSend_stirred k pid sig.toInt
    exact h.same hs.cwd hs.brk
  | dropped child sp ns m hf =>
    rw [dropped_eq (freeSlot_ne hf hu)]
    exact h.same rfl rfl
  | forked child sp ns m x tls thread hf hx =>
    have hrang := tabled_rang k child sp ns m
    exact h.same hrang.cwd hrang.brk
  | settled =>
    obtain he | he | ⟨j, hj, hz, he⟩ := reapReported_cases k <;> rw [he]
    · exact h
    · exact h.same rfl rfl
    · have hreap := h.reap (procFind_some hj).1 (running_ne hr hz)
      exact hreap.same rfl rfl
  | waited _ j hj =>
    obtain ⟨⟨hused, -⟩, hz⟩ := zombieChild_spec hj
    exact h.reap hused (running_ne hr hz)
  | _ => exact h.same rfl rfl

theorem Housed.load (j : Fin 8) (ph : Phase) : Housed (setPhase (schedLoad k j) ph) := by
  refine ⟨?_, ?_⟩
  · show Absolute (if cwdFits (k.procs j).cwd then (k.procs j).cwd else k.cwd)
    split
    · rename_i hf
      simp only [cwdFits, Bool.and_eq_true, decide_eq_true_eq] at hf
      exact hf
    · exact h.cwd
  · show (restoredBrk k (k.procs j)).isSome = true
    rw [restoredBrk]
    split
    · exact h.brk
    · rw [isSome_or, h.brk, Bool.or_true]

theorem Housed.after (fl : Flow) : Housed (after k fl) := by
  cases fl <;> exact h.same rfl rfl

end

theorem Housed.stepped (h : k.phase ≠ .shell → Housed k) (hs : Shape k) (hst : Stepped k a k') :
    k'.phase ≠ .shell → Housed k' := by
  intro hout
  have hin : ∀ {ph : Phase}, k.phase = ph → ph ≠ .shell → Housed k := fun he hne => h (he ▸ hne)
  have haside : ∀ (q : Proc), Housed k → Housed (aside k q) := fun _ hh => hh.same rfl rfl
  have htick : Housed k → Housed (ticked k) := by
    intro hh
    have hcounted : Housed (counted k) := hh.same rfl rfl
    exact hcounted.same (ticked_woke k).cwd (ticked_woke k).brk
  have hdeliver : ∀ {k2 : Machine} {d : Delivery} ph, Housed k → signalDeliver k = (k2, d) →
    Housed (setPhase k2 ph) := by
    intro k2 d ph hh hd
    obtain ⟨m, eip, sp, eax, sig, rfl⟩ := delivered_notified hd
    exact hh.same rfl rfl
  cases hst with
  | compute _ _ _ hp | exit _ hp | fault hp | ignored hp | keep hp
  | back _ _ hp => exact (hin hp (by simp)).same rfl rfl
  | call c k1 fl hp hc =>
    have hb := busy_at hp
    have h1 : Housed (inCall k) := (hin hp (by simp)).same rfl rfl
    have hparts := sysCall_parts (k := inCall k) c
    rw [hc] at hparts
    refine Housed.after ?_ fl
    exact parts_invariant hs.entered hb
      (fun _ _ hsh hbb hh hd => hh.does (hsh.cpu hbb).2.1 (hsh.cpu hbb).2.2 hd) h1 hparts
  | tick hp => exact (htick (hin hp (by simp))).same rfl rfl
  | idle hp hn =>
    have hphase : (ticked k).phase = k.phase := (ticked_woke k).phase
    exact htick (h (hphase ▸ hout))
  | key c hp =>
    have hphase : (typed k c).phase = k.phase := (typed_woke k c).phase
    exact (h (hphase ▸ hout)).same (typed_woke k c).cwd (typed_woke k c).brk
  | sleep _ _ j hp | yield j hp => exact (haside _ (hin hp (by simp))).load j _
  | awake r o hp hf hn =>
    have hact : Housed (stayed k r) := (hin hp (by simp)).same rfl rfl
    exact hact.after _
  | tableless r o hp hf => exact (hin hp (by simp)).after _
  | leave _ _ hp hd | alarm _ _ hp hd => exact hdeliver _ (hin hp (by simp)) hd
  | die code faulted sys hp =>
    have hwake := procWakeParent_stirred (ended k code faulted) (exited k code faulted)
    exact (hin hp (by simp)).same hwake.cwd hwake.brk
  | pick sys j hp hj => exact (hin hp (by simp)).load j _
  | lost | finish => exact absurd rfl hout
  | launch frames l hp ha =>
    revert hout
    exact hs.launch_elim hp frames l (absurd hp) (fun _ _ _ _ _ _ _ _ _ _ => absurd hp)
      (fun _ _ _ _ _ _ _ => ⟨⟨rfl, Nat.lt_of_sub_eq_succ rfl⟩, rfl⟩)
  | refuse frames l hp ha => exact h hout
  | shell _ hp | shellKey hp => exact absurd hp hout
  | spinDone v takesKey out m hp =>
    have hkeys : Housed (spun k takesKey m) :=
      (hin hp (by simp)).same rfl rfl
    exact hkeys.after _

theorem Waiting.start {j : Fin 8} (h : InBooks D k) (hs : Shape k) (hp : k.phase = .switching)
    (hj : j ≠ k.current) (hun : Unshared k k.current) :
    Waiting k (setPhase (schedLoad (yields k) j) ph) := by
  have hb := busy_at hp
  have hu := (hs.cpu hb).2.1
  have hself : (yields k).procs k.current = yielder k .ready := setProc_self
  have hrow : (setPhase (schedLoad (yields k) j) ph).procs k.current = yielder k .ready :=
    (setProc_ne hj.symm).trans hself
  refine ⟨?_, ?_, ?_, ?_⟩
  · rw [hrow]
    exact hu
  · rw [hrow]
    exact Roused.refl _
  · rw [hrow]
    exact savedTable_own h hs hb rfl j ph
  refine unshared_rows hun (by rw [hrow]; rfl) fun l hl hul => .inl ?_
  have hother : (yields k).procs l = k.procs l := setProc_ne hl
  by_cases hlj : l = j
  · have hload : (setPhase (schedLoad (yields k) j) ph).procs j =
        { (yields k).procs j with state := .running } := setProc_self
    subst hlj
    rw [hload, hother] at hul ⊢
    exact ⟨hul, rfl⟩
  · have hsame : (setPhase (schedLoad (yields k) j) ph).procs l = k.procs l :=
      (setProc_ne hlj).trans hother
    rw [hsame] at hul ⊢
    exact ⟨hul, rfl⟩

theorem Waiting.heeds (h : Waiting k0 k) (hh : Heeds k0.current k k') : Waiting k0 k' := by
  refine ⟨?_, h.row.trans hh.row, (hh.table h.unshared).trans h.table, hh.unshared h.unshared⟩
  exact hh.row.used.trans h.used

theorem procWakeParent_heeds (hb : (k.procs i).state ≠ .blocked) (q : Proc) :
    Heeds i k (procWakeParent k q) := by
  rw [procWakeParent]
  cases hr : roused k q with
  | none => exact .refl i k
  | some j =>
    have hij : i ≠ j := by
      rintro rfl
      exact hb (roused_spec hr).2.1
    have hset : ∀ {b : Machine} {v : BitVec 32} {n : Nat}, Pokes k b →
        Heeds i k (setProc b j { finished (k.procs j) v with lastWaitPid := n }) := by
      intro b v n hpk
      refine (Woke.heeds hpk.woke).trans (.set hij rfl (fun hu => ?_) rfl rfl rfl rfl)
      rw [congrFun hpk.procs j]
      exact ⟨hu, rfl⟩
    simp only [wakeWaiter]
    split
    · refine hset ?_
      split
      · exact Pokes.refl k
      · exact procWriteUserU32_pokes k ..
    · exact hset (writeWords_pokes k (k.procs j) (k.procs j).waitInfop (siginfo q))
    · exact .set hij rfl (fun hu => ⟨hu, rfl⟩) rfl rfl rfl rfl

section

variable (h : Waiting k0 k)
include h

theorem Waiting.ready : (k.procs k0.current).state = .ready ∧
    (k.procs k0.current).ctx = saved k0.frame := by
  obtain ⟨hs, hc, -⟩ := h.row.calm (by rintro ⟨⟩)
  exact ⟨hs, hc⟩

theorem Waiting.stays : Stays k k0.current :=
  ⟨h.used, by rw [h.ready.1]; simp⟩

theorem Waiting.apart (hs : Shape k) (hb : busy k.phase = true) : k0.current ≠ k.current := by
  intro he
  have hrun := (hs.cpu hb).2.2
  rw [cur, ← he, h.ready.1] at hrun
  cases hrun

theorem Waiting.stepped (hb : InBooks D k) (hs : Shape k) (hst : Stepped k a k') :
    Waiting k0 k' ∨ (k'.procs k0.current).state = .free ∨
      ∃ b ph, Waiting k0 b ∧ k' = setPhase (schedLoad b k0.current) ph := by
  have hturn := stepped_turn hb hs hst h.stays (h.apart hs) fun hbl => by cases h.ready.1.symm.trans hbl
  cases hturn with
  | heeds n hh =>
    have hclock : Waiting k0 { k with ticks := n } := ⟨h.used, h.row, h.table, h.unshared⟩
    exact .inl (hclock.heeds hh)
  | loads b j n ph hh hi hj =>
    by_cases hij : k0.current = j
    · subst hij
      exact .inr (.inr ⟨b, ph, h.heeds hh, rfl⟩)
    · exact .inl ((h.heeds hh).heeds (.set hij rfl (fun hu => ⟨hu, rfl⟩) rfl rfl rfl rfl))
  | ends l hp => exact (finish_heeds hs hp).symm.imp h.heeds .inl
  | exits code faulted sys hp _ =>
    have hbusy := busy_at hp
    have haside := aside_heeds hb hs hbusy (h.apart hs hbusy) (q := exited k code faulted) rfl
    have hact : ∀ b : Machine, Heeds k0.current b { b with active := false } :=
      fun b => .quiet rfl rfl rfl rfl rfl
    have hphase : ∀ (b : Machine) ph, Heeds k0.current b (setPhase b ph) :=
      fun b ph => .quiet rfl rfl rfl rfl rfl
    have hnow := h.heeds (haside.trans (hact _))
    refine .inl (hnow.heeds (Heeds.trans (procWakeParent_heeds ?_ (exited k code faulted)) (hphase _ _)))
    rw [hnow.ready.1]
    simp

end

theorem restore_brk (b : Brk) : userRestoreBrkState b.base b.current = some b := by
  have hge := b.base_ge
  have hle := b.base_le
  have hend := b.current_le
  rw [userRestoreBrkState, dif_neg (by omega)]

theorem Waiting.resumed (h : Waiting k0 k) (hg : Gear k0) (hb : busy k0.phase = true)
    (hh : Housed k0) (ht : (cur k0).isThread = false) (ph : Phase) :
    Resumed k0 (setPhase (schedLoad k k0.current) ph) := by
  have hframe : (setPhase (schedLoad k k0.current) ph).frame = loaded (saved k0.frame) :=
    congrArg loaded h.ready.2
  have hspace := h.row.space
  have hcwd : (k.procs k0.current).cwd = k0.cwd := by
    have htake : (yielder k0 .ready).cwd = k0.cwd.take 63 := rfl
    rw [h.row.field Proc.cwd fun _ => rfl, htake, List.take_of_length_le]
    exact Nat.le_of_lt_succ hh.cwd.2
  have hfits : cwdFits k0.cwd = true := by
    rw [cwdFits, hh.cwd.1]
    simpa using hh.cwd.2
  have hthread : (k.procs k0.current).isThread = false :=
    (h.row.field Proc.isThread fun _ => rfl).trans ht
  obtain ⟨b, hbrk⟩ := isSome_iff_exists.mp hh.brk
  have hsaved : (k.procs k0.current).brk = (b.base, b.current) := by
    have hstate : (yielder k0 .ready).brk = if (cur k0).isThread then (cur k0).brk
      else brkState k0.brk := rfl
    rw [h.row.brk, hstate, ht, hbrk]
    rfl
  refine ⟨by rw [hframe]; rfl, by rw [hframe]; rfl, by rw [hframe]; rfl, by rw [hframe]; rfl,
    by rw [hframe]; rfl, by rw [hframe]; rfl, by rw [hframe]; rfl, by rw [hframe]; rfl,
    by rw [hframe]; rfl, by rw [hframe]; rfl, by rw [hframe]; rfl, by rw [hframe]; rfl,
    ?_, ?_, ?_, ?_, ?_⟩
  · exact hspace.trans (hg.space hb).symm
  · show (savedTable k (k.procs k0.current)).getD k.fds = k0.fds
    rw [h.table]
    rfl
  · show (if cwdFits (k.procs k0.current).cwd then (k.procs k0.current).cwd else k.cwd) = k0.cwd
    rw [hcwd, if_pos hfits]
  · show restoredBrk k (k.procs k0.current) = k0.brk
    rw [restoredBrk, hthread, hsaved, hbrk]
    exact congrArg (fun o => o.or k.brk) (restore_brk b)
  · exact h.row.tls

theorem stepped_loaded (hs : Shape k) (hs' : Shape k') (hst : Stepped k a k')
    (hu : isUser (k'.procs i) = true) (hr : (k'.procs i).state = .running)
      (hn : (k.procs i).state ≠ .running) : (∃ frames l, a = .launch frames l) ∨
      (k.procs i).used = true ∧ (k.procs i).state = .ready ∧ (k.procs i).hasCtx = true := by
  obtain ⟨hused, hpid⟩ := isUser_spec hu
  have h0 : i ≠ 0 := by
    rintro rfl
    exact hpid hs'.kernel.pid
  have hcur : i = k'.current := hs'.alone i h0 hused hr
  -- the process that ran goes on
  have hstay : busy k.phase = true → k'.current = k.current → False := by
    intro hb he
    rw [hcur, he] at hn
    exact hn (hs.cpu hb).2.2
  have hkernel : k'.current = 0 → False := fun he => h0 (hcur.trans he)
  have hpick : ∀ {b : Machine} {n : Nat}, pickFrom b n = some i → b.procs i = k.procs i →
      (k.procs i).used = true ∧ (k.procs i).state = .ready ∧ (k.procs i).hasCtx = true := by
    intro b n hj hrow
    obtain ⟨huser, hready, hctx⟩ := runnable_spec (pickFrom_runnable hj)
    rw [hrow] at huser hready hctx
    exact ⟨(isUser_spec huser).1, hready, hctx⟩
  have hstill : ∀ {ph : Phase}, k.phase = ph → busy ph = true → k'.current = k.current → False :=
    fun he hb =>
    hstay (he ▸ hb)
  have hirq : takesIrq k.phase = true → k'.current = k.current → False := by
    intro hi he
    by_cases hb : busy k.phase = true
    · exact hstay hb he
    refine hkernel (he.trans (hs.home ?_))
    cases hph : k.phase <;> simp_all [takesIrq, busy]
  have hdeliver : ∀ {k1 : Machine} {d : Delivery}, signalDeliver k = (k1, d) →
    ∀ ph, (setPhase k1 ph).current = k.current := by
    intro k1 d hd ph
    obtain ⟨m, eip, sp, eax, sig, rfl⟩ := delivered_notified hd
    rfl
  cases hst with
  | compute _ _ _ hp | exit _ hp | fault hp | ignored hp | keep hp
  | spinDone _ _ _ _ hp => exact (hstill hp rfl rfl).elim
  | call c k1 fl hp hc =>
    have hb := busy_at hp
    have hparts := sysCall_parts (k := inCall k) c
    rw [hc] at hparts
    have hsame : k1.current = k.current :=
      parts_invariant (I := fun k1 => k1.current = k.current) hs.entered hb
      (fun k1 k2 hsh hbb he hd => ?_) rfl hparts
    · have hafter : (after k1 fl).current = k1.current := by cases fl <;> rfl
      exact (hstay hb (hafter.trans hsame)).elim
    · exact (hsh.does hbb hd).current.trans he
  | tick hp => exact (hstill hp rfl (ticked_woke k).current).elim
  | idle hp hne => exact (hirq hp (ticked_woke k).current).elim
  | key c hp => exact (hirq hp (typed_woke k c).current).elim
  | sleep r o j hp hf hj =>
    obtain rfl : i = j := hcur
    refine .inr (hpick hj (setProc_ne ?_))
    rintro rfl
    have hready := (runnable_spec (pickFrom_runnable hj)).2.1
    have hself : (aside k (sleeper k r)).procs k.current = sleeper k r := setProc_self
    rw [hself] at hready
    cases hready
  | awake _ o hp | tableless _ o hp =>
    refine (hstill hp rfl ?_).elim
    cases o <;> rfl
  | leave _ _ hp hd | alarm _ _ hp hd => exact (hstill hp rfl (hdeliver hd _)).elim
  | yield j hp hj hne =>
    subst hcur
    exact .inr (hpick hj (setProc_ne hne))
  | die code faulted sys hp => exact (hstill hp rfl (procWakeParent_stirred _ _).current).elim
  | pick sys j hp hj =>
    subst hcur
    exact .inr (hpick hj rfl)
  | back sys l hp hne hl => exact (hkernel (hs'.home (.inr ⟨l, rfl⟩))).elim
  | lost | finish => exact (hkernel (hs'.home (.inl rfl))).elim
  | launch frames l | refuse frames l => exact .inl ⟨frames, l, rfl⟩
  | shell _ hp | shellKey hp => exact (hkernel (hs.home (.inl hp))).elim

section

variable {ram : Fs.RamFs.Ram} {mem : UserMem} {cow : Cow} {as : List Act}

structure Settled (k : Machine) : Prop extends Kept k where
  gear : Gear k
  housed : k.phase ≠ .shell → Housed k

theorem settled_run (h : run step (boot ram mem cow) as = some k) : Settled k := by
  refine run_invariant ?_ ⟨boot_kept, .off rfl, fun hp => absurd rfl hp⟩ h
  intro k a k' hk ht
  have hst := step_stepped ht
  exact ⟨hk.toKept.step hst, hk.gear.stepped hk.shape hst, Housed.stepped hk.housed hk.shape hst⟩

theorem Waiting.run {bs : List Act} (hk : Kept k) (h : Waiting k0 k)
    (hm : Meets step (fun k _ => (k.procs k0.current).state = .ready) k bs)
    (hr : run step k bs = some k') (hready : (k'.procs k0.current).state = .ready) : Kept k' ∧
    Waiting k0 k' := by
  have hinv : Kept k' ∧ ((k'.procs k0.current).state = .ready → Waiting k0 k') := by
    refine meets_invariant (I := fun k => Kept k ∧ ((k.procs k0.current).state = .ready → Waiting k0 k)) ?_
      ⟨hk, fun _ => h⟩ hm hr
    rintro k a k' ⟨hk, hw⟩ hok ht
    have hst := step_stepped ht
    refine ⟨hk.step hst, fun hready' => ?_⟩
    rcases (hw hok).stepped hk.books hk.shape hst with hgo | hfree | ⟨b, ph, -, rfl⟩
    · exact hgo
    · cases hfree.symm.trans hready'
    have hrun : ((setPhase (schedLoad b k0.current) ph).procs k0.current).state = .running :=
      congrArg Proc.state setProc_self
    cases hrun.symm.trans hready'
  exact ⟨hinv.1, hinv.2 hready⟩

/-- Only the current process runs, only a ready one is loaded, and a process preempted by a tick
that stays ready has what it had when it is loaded. -/
theorem switches_transparent (h : run step (boot ram mem cow) as = some k) :
    (∀ i, isUser (k.procs i) = true → (k.procs i).state = .running → i = k.current) ∧
    (∀ a k' i, step k a = some k' → isUser (k'.procs i) = true → (k'.procs i).state = .running →
      (k.procs i).state ≠ .running → (∃ frames l, a = .launch frames l) ∨
        (k.procs i).used = true ∧ (k.procs i).state = .ready ∧ (k.procs i).hasCtx = true) ∧
    ∀ k1 k2 k3 bs a, k.phase = .switching → (cur k).isThread = false → Unshared k k.current →
      step k .go = some k1 → k1.current ≠ k.current → run step k1 bs = some k2 →
      Meets step (fun k' _ => (k'.procs k.current).state = .ready) k1 bs →
      (k2.procs k.current).state = .ready → step k2 a = some k3 →
      (k3.procs k.current).state = .running → Resumed k k3 := by
  have hk := settled_run h
  refine ⟨fun i hu hr => ?_, fun a k' i ht hu hr hn => ?_, ?_⟩
  · exact hk.shape.alone i (Sound.user_ne hk.shape.toSound hu) (isUser_spec hu).1 hr
  · have hst := step_stepped ht
    exact stepped_loaded hk.shape (hk.toKept.step hst).shape hst hu hr hn
  intro k1 k2 k3 bs a hp hthread hun h1 hne h2 hm hready h3 hr
  have hst := step_stepped h1
  have hwait : Waiting k k1 := by
    cases hst with
    | yield j _ hj hj' => exact Waiting.start hk.books hk.shape hp hj' hun
    | keep _ => exact absurd rfl hne
    | _ => simp_all
  obtain ⟨hk2, hw2⟩ := hwait.run (hk.toKept.step hst) hm h2 hready
  have hbusy := busy_at hp
  rcases hw2.stepped hk2.books hk2.shape (step_stepped h3) with hgo | hfree | ⟨b, ph, hb, rfl⟩
  · cases hgo.ready.1.symm.trans hr
  · cases hfree.symm.trans hr
  · exact hb.resumed hk.gear hbusy (hk.housed (by rw [hp]; simp)) hthread ph

def switching : Phase → Bool
  | .switching => true
  | _ => false

theorem switching_eq (h : switching ph = true) : ph = .switching := by
  cases ph with
  | switching => rfl
  | _ => cases h

def preempted : List Act :=
  [enter, .sys (.fork none), .go,
    .compute { emptyRegs with eip := 0x08049000#32, eax := 7#32, eflags := 0x3046#32 } [],
    .tick, .go]

theorem switches_transparent_parent : ∃ k k3, run step plain preempted = some k ∧
    run step plain (preempted ++ [.go, .tick, .go, .go]) = some k3 ∧ k3.current = k.current ∧
    Resumed k k3 := by
  obtain ⟨k, hk, hph, hthread, hun, k1, hk1, hne, hm, k2, hk2, hready, k3, hk3, hrunning, hcur⟩ :
      ∃ k, run step plain preempted = some k ∧ switching k.phase = true ∧ (cur k).isThread = false ∧
        Unshared k k.current ∧ ∃ k1, step k .go = some k1 ∧ k1.current ≠ k.current ∧
        checks step (fun k' _ => decide ((k'.procs k.current).state = .ready)) k1 [.tick, .go] = true ∧
        ∃ k2, run step k1 [.tick, .go] = some k2 ∧ (k2.procs k.current).state = .ready ∧
          ∃ k3, step k2 .go = some k3 ∧ (k3.procs k.current).state = .running ∧
          k3.current = k.current := by
    decide +kernel
  refine ⟨k, k3, hk, ?_, hcur, (switches_transparent hk).2.2 k1 k2 k3 _ _
    (switching_eq hph) hthread hun hk1 hne hk2 (checks_meets (fun _ _ h => of_decide_eq_true h) hm)
    hready hk3 hrunning⟩
  rw [run_append, hk]
  refine run_cons step hk1 ?_
  have hrest : run step k1 ([.tick, .go] ++ [.go]) = some k3 := by
    rw [run_append, hk2]
    exact run_cons step hk3 rfl
  exact hrest

end

end MuOS.Kernel.Resumes
