import MuOS.Kernel.Nesting

namespace MuOS.Kernel.Images

open Lib.Runs User.Window State Sched Calls Stir Step Phases Layout Handlers Masks Nesting
  List Option Bool

def execs (i : Fin 8) (k : Machine) : Act → Bool
  | .sys (.execve (.entered ..)) => decide (k.current = i) && inUser k.phase
  | _ => false

def installs : Act → List (BitVec 32)
  | .sys (.signal _ handler) | .sys (.sigaction _ handler ..) => [handler]
  | _ => []

/-- The kernel, the handlers since `execve`, and contexts interrupted. -/
structure Watched where
  k : Machine
  installed : List (BitVec 32)
  ctxs : List Regs

def watched (i : Fin 8) (s : Watched) (a : Act) : Option Watched :=
  (step s.k a).map (fun k' =>
    { k := k'
      installed := if decide (s.k.current = i) && inUser s.k.phase then installs a ++ s.installed
        else s.installed
      ctxs := nest i s.k a s.ctxs })

/-- Handlers entered were installed, and frames returned to saved, since. -/
structure Fresh (i : Fin 8) (s : Watched) (a : Act) : Prop where
  handler : enters i s.k a = true → ∀ k', step s.k a = some k' → k'.frame.eip ∈ s.installed
  frame : returns i s.k a = true → (sigreturn s.k).2 = true → s.ctxs ≠ []

def Stays (i : Fin 8) (s : Watched) (a : Act) : Prop :=
  ∀ k', step s.k a = some k' → (k'.procs i).used = true ∧ (k'.procs i).pid = (s.k.procs i).pid

def Handlerless (s : Signals) : Prop := s.depth = 0 ∧ ∀ n, s.handler n = 0#32 ∨ s.handler n = 1#32

section

structure Own (i : Fin 8) (s : Watched) : Prop where
  shape : Shape s.k
  used : (s.k.procs i).used = true
  handlers : ∀ n, (s.k.procs i).sig.handler n = 0#32 ∨ (s.k.procs i).sig.handler n = 1#32 ∨
    (s.k.procs i).sig.handler n ∈ s.installed
  depth : (s.k.procs i).sig.depth = s.ctxs.length

variable {a : Act} {k k' : Machine} {i : Fin 8} {s s' : Watched}

theorem acted_handler (s : Signals) (sig handler flags restorer : BitVec 32) (n : Fin 32) :
    (acted s sig handler flags restorer).handler n = s.handler n ∨
      (acted s sig handler flags restorer).handler n = handler := by
  rw [acted]
  split
  · exact .inl rfl
  by_cases hn : n = Fin.ofNat 32 sig.toNat
  · right
    rw [hn]
    exact Function.update_self ..
  · exact .inl (Function.update_of_ne hn ..)

theorem setBy_handler (c : Call) (s : Signals) (n : Fin 32) :
    (setBy c s).handler n = s.handler n ∨ (setBy c s).handler n ∈ installs (.sys c) := by
  cases c with
  | signal sig handler =>
    exact (acted_handler s sig handler 0#32 0#32 n).imp_right mem_singleton.mpr
  | sigaction sig handler flags restorer out =>
    exact (acted_handler s sig handler flags restorer n).imp_right mem_singleton.mpr
  | sigprocmask how set out =>
    left
    simp only [setBy, masked]
    repeat' split
    all_goals rfl
  | sigsuspend mask => cases mask <;> exact .inl rfl
  | _ => exact .inl rfl

theorem handlers_kept (hs : Shape k) (ht : step k a = some k') (hu : (k'.procs i).used = true)
    (hp : (k'.procs i).pid < k.nextPid) (n : Fin 32) :
      (k'.procs i).sig.handler n = (k.procs i).sig.handler n ∨
      k.current = i ∧ k.phase = .user ∧ (k'.procs i).sig.handler n ∈ installs a := by
  cases stepped_shifts hs (step_stepped ht) i with
  | carried hc => exact .inl (congrFun ((hc.raised hu hp).field Signals.handler fun _ => rfl) n)
  | set c ha hc hph hi hrow =>
    rw [hrow, ha]
    exact (setBy_handler c _ n).imp_right fun h => ⟨hi.symm, hph, h⟩
  | delivered ha hph hi hrow =>
    obtain ⟨s, hp, -, -, hh⟩ := delivered_signals k
    have hown : k'.procs i = { cur k with sig := s } := by
      rw [hrow, hp, hi]
      exact setProc_self
    left
    rw [hown, hi]
    exact congrFun hh n

theorem depth_step (hs : Shape k) (hu : (k.procs i).used = true) {ctxs : List Regs}
    (hd : (k.procs i).sig.depth = ctxs.length) (ht : step k a = some k')
    (hu' : (k'.procs i).used = true) (hp' : (k'.procs i).pid = (k.procs i).pid) :
    (k'.procs i).sig.depth = (nest i k a ctxs).length := by
  rw [nest]
  by_cases he : enters i k a = true
  · rw [if_pos he]
    obtain ⟨hi, -, v, sig, base, ph, rfl, -⟩ := enters_step hs he ht
    subst hi
    rw [entered_row, length_cons, ← hd]
    rfl
  · rw [if_neg he]
    by_cases hr : returns i k a = true
    · rw [if_pos hr]
      obtain ⟨hi, -, rfl, rfl⟩ := returns_step hr ht
      subst hi
      rw [popped_row, length_tail, ← hd]
      rfl
    · rw [if_neg hr, ← hd]
      exact (frames_kept hs ht hu' (hp'.symm ▸ hs.below i hu) (eq_false_iff.mpr he)
        (eq_false_iff.mpr hr)).1

theorem Own.step (h : Own i s) (hst : Stays i s a) (ht : watched i s a = some s') : Own i s' := by
  obtain ⟨k', hk, rfl⟩ := map_eq_some_iff.mp ht
  obtain ⟨hu', hp'⟩ := hst k' hk
  refine ⟨h.shape.stepped (step_stepped hk), hu', fun n => ?_,
    depth_step h.shape h.used h.depth hk hu' hp'⟩
  have hgrow : ∀ v, v ∈ s.installed →
      v ∈ if decide (s.k.current = i) && inUser s.k.phase then installs a ++ s.installed
      else s.installed := by
    intro v hv
    split
    · exact mem_append_right _ hv
    · exact hv
  obtain hkept | ⟨hi, hph, hnew⟩ :=
    handlers_kept h.shape hk hu' (hp'.symm ▸ h.shape.below i h.used) n
  · rw [hkept]
    exact (h.handlers n).imp_right (Or.imp_right (hgrow _))
  · refine .inr (.inr ?_)
    rw [decide_eq_true hi, hph]
    exact mem_append_left _ hnew

theorem Own.fresh (h : Own i s) (a : Act) : Fresh i s a := by
  constructor
  · intro he k' ht
    obtain ⟨hi, -, v, sig, base, ph, rfl, -, -, -, -, h0, h1⟩ := enters_step h.shape he ht
    subst hi
    have heip : (setPhase (enterHandler (pendingLeft s.k v) sig base) ph).frame.eip =
      (cur s.k).sig.handler sig := by
      have hsig := pendingLeft_sig s.k v
      exact congrFun (congrArg Signals.handler hsig) sig
    rw [heip]
    exact ((h.handlers sig).resolve_left h0).resolve_left h1
  · intro hr hok hn
    have hi : s.k.current = i := by
      simp only [returns, and_eq_true, decide_eq_true_eq] at hr
      exact hr.1.1
    subst hi
    have hd : (cur s.k).sig.depth = 0 := by
      rw [cur, h.depth, hn]
      rfl
    rw [sigreturn, if_pos hd] at hok
    cases hok

variable {r : Fs.RamFs.Ram} {mem : UserMem} {cow : Cow} {as bs : List Act} {k0 k1 : Machine}

theorem execs_signals (he : execs i k0 a = true) (ht : step k0 a = some k1) :
    k1.procs = k0.procs := by
  cases a with
  | sys c =>
    cases c with
    | execve e =>
      cases e with
      | entered imageEnd entry sp out =>
        simp only [execs, and_eq_true] at he
        simp only [step, inUser_eq he.2, userAct, Option.some.injEq] at ht
        obtain ⟨m, hm⟩ := pokeAll_pokes { k0 with
          frameSwitched := false, brk := (imageBrk imageEnd).or k0.brk, active := true } out
        rw [← ht]
        simp only [enterCall, sysCall, doExecve, hm]
        rfl
      | _ => cases he
    | _ => cases he
  | _ => cases he

/-- After an `execve` of a process that has no handlers and is in none, only
handlers installed since are entered, and only frames saved since are returned to. -/
theorem execve_forgets_handlers (h : run step (boot r mem cow) as = some k0)
    (hu : (k0.procs i).used = true) (he : execs i k0 a = true) (ht : step k0 a = some k1)
    (hc : Handlerless (k0.procs i).sig) (hm : Meets (watched i) (Stays i) ⟨k1, [], []⟩ bs)
    (hrun : run (watched i) ⟨k1, [], []⟩ bs = some s) (b : Act) : Fresh i s b := by
  -- the signals are those of the old image, which had nothing to leave behind
  have hsame := execs_signals he ht
  have hstart : Own i ⟨k1, [], []⟩ := by
    refine ⟨(shape_run h).stepped (step_stepped ht), ?_, fun n => ?_, ?_⟩
    · rw [hsame]
      exact hu
    · rw [hsame]
      exact (hc.2 n).imp_right Or.inl
    · rw [hsame]
      exact hc.1
  exact (meets_invariant (fun _ _ _ h hst ht => h.step hst ht) hstart hm hrun).fresh b

def replaceImage : Act :=
  .sys (.execve (.entered (userBase + 4096) (BitVec.ofNat 32 userBase) 0x08840000#32 []))

def handlesOwn : List Act := [.go, .sys (.signal 10#32 0x08048300#32), .go, .sys (.kill 0#32 10#32)]

def staysNow (i : Fin 8) (s : Watched) (a : Act) : Bool :=
  (step s.k a).all (fun k' => (k'.procs i).used && decide ((k'.procs i).pid = (s.k.procs i).pid))

theorem staysNow_stays (h : staysNow i s a = true) : Stays i s a := by
  intro k' ht
  rw [staysNow, ht, all_some, and_eq_true] at h
  exact ⟨h.1, of_decide_eq_true h.2⟩

theorem execve_forgets_handlers_own : ∃ k0 k1 s k', run step plain [enter] = some k0 ∧
      step k0 replaceImage = some k1 ∧ run (watched 1) ⟨k1, [], []⟩ handlesOwn = some s ∧
      step s.k .go = some k' ∧ k'.frame.eip ∈ s.installed := by
  obtain ⟨k0, hk0, hu, he, hd, hh, k1, hk1, hc, s, hs, hent, hgo⟩ :
      ∃ k0, run step plain [enter] = some k0 ∧ (k0.procs 1).used = true ∧
      execs 1 k0 replaceImage = true ∧ (k0.procs 1).sig.depth = 0 ∧
      (∀ n, (k0.procs 1).sig.handler n = 0#32 ∨ (k0.procs 1).sig.handler n = 1#32) ∧
      ∃ k1, step k0 replaceImage = some k1 ∧ checks (watched 1) (staysNow 1)
        ⟨k1, [], []⟩ handlesOwn = true ∧ ∃ s, run (watched 1) ⟨k1, [], []⟩ handlesOwn = some s ∧
        enters 1 s.k .go = true ∧ (step s.k .go).isSome = true := by
    decide +kernel
  obtain ⟨k', hk'⟩ := isSome_iff_exists.mp hgo
  have hfresh :=
    execve_forgets_handlers hk0 hu he hk1 ⟨hd, hh⟩ (checks_meets (fun _ _ => staysNow_stays) hc) hs .go
  exact ⟨k0, k1, s, k', hk0, hk1, hs, hk', hfresh.handler hent k' hk'⟩

/-- A handler of the old image is entered in the new one. -/
theorem execve_keeps_handlers :
    ∃ k0 k1 s, run step plain [enter, .sys (.signal 10#32 0x08048100#32), .go] = some k0 ∧
      execs 1 k0 replaceImage = true ∧ step k0 replaceImage = some k1 ∧
      run (watched 1) ⟨k1, [], []⟩ [.go, .sys (.kill 0#32 10#32)] = some s ∧ ¬ Fresh 1 s .go := by
  obtain ⟨k0, hk0, he, k1, hk1, s, hs, hent, hnone, hgo⟩ :
      ∃ k0, run step plain [enter, .sys (.signal 10#32 0x08048100#32), .go] = some k0 ∧
        execs 1 k0 replaceImage = true ∧ ∃ k1, step k0 replaceImage = some k1 ∧
          ∃ s, run (watched 1) ⟨k1, [], []⟩ [.go, .sys (.kill 0#32 10#32)] = some s ∧
          enters 1 s.k .go = true ∧ s.installed = [] ∧ (step s.k .go).isSome = true := by
    decide +kernel
  obtain ⟨k', hk'⟩ := isSome_iff_exists.mp hgo
  refine ⟨k0, k1, s, hk0, he, hk1, hs, fun hfresh => ?_⟩
  have hmem := hfresh.handler hent k' hk'
  rw [hnone] at hmem
  exact absurd hmem not_mem_nil

end

end MuOS.Kernel.Images
