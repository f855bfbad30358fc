import MuOS.Kernel.Masks
import MuOS.Kernel.Stores

namespace MuOS.Kernel.Nesting

open Lib.Runs User.Window State Sched Calls Stores Step Phases Layout Handlers Masks List
  Option BitVec
open Bool Nat

def isGo : Act → Bool
  | .go => true
  | _ => false

def isSigreturn : Act → Bool
  | .sys .sigreturn => true
  | _ => false

def delivers : Phase → Bool
  | .leaving | .ticked => true
  | _ => false

variable {sp : Nat} {d : Nat}

theorem delivers_eq {ph : Phase} (h : delivers ph = true) : ph = .leaving ∨ ph = .ticked := by
  cases ph with
  | leaving => exact .inl rfl
  | ticked => exact .inr rfl
  | _ => cases h

def isHandled : Delivery → Bool
  | .handled => true
  | _ => false

def enters (i : Fin 8) (k : Machine) (a : Act) : Bool :=
  decide (k.current = i) && isGo a && delivers k.phase && isHandled (signalDeliver k).2

def returns (i : Fin 8) (k : Machine) (a : Act) : Bool :=
  decide (k.current = i) && isSigreturn a && inUser k.phase

/-- The contexts handlers have interrupted, the last first. -/
def nest (i : Fin 8) (k : Machine) (a : Act) (ctxs : List Regs) : List Regs :=
  if enters i k a then k.frame :: ctxs else if returns i k a then ctxs.tail else ctxs

section

def savedAt (p : Proc) (n : Nat) : BitVec 32 := p.sig.frameSp (Fin.ofNat 4 n)

structure Held (k : Machine) (p : Proc) (base : BitVec 32) (r : Regs) : Prop where
  bytes : peekFor k p base 48 = (sigFrame r).flatMap le32
  low : userBase ≤ base.toNat
  high : base.toNat < userSigtramp

def Stacked (k : Machine) (p : Proc) : Nat → List Regs → Prop
  | _, [] => True
  | 0, _ :: _ => False
  | d + 1, r :: rs => Held k p (savedAt p d) r ∧ Stacked k p d rs

/-- Only a delivery changes saved frames; handlers are entered clear of them. -/
structure Intact (i : Fin 8) (s : Machine × List Regs) (a : Act) : Prop where
  stays : ∀ k', step s.1 a = some k' → (k'.procs i).used = true ∧
    (k'.procs i).pid = (s.1.procs i).pid
  bytes : enters i s.1 a = false → ∀ k', step s.1 a = some k' → ∀ n, n < (s.1.procs i).sig.depth →
    peekFor k' (k'.procs i) (savedAt (s.1.procs i) n) 48 = peekFor s.1 (s.1.procs i)
    (savedAt (s.1.procs i) n) 48
  clear : enters i s.1 a = true → ∀ n, n < (s.1.procs i).sig.depth →
    s.1.frame.useresp.toNat ≤ (savedAt (s.1.procs i) n).toNat ∨
      (savedAt (s.1.procs i) n).toNat + 104 ≤ s.1.frame.useresp.toNat

variable {a : Act} {k k' : Machine} {i : Fin 8} {p p' : Proc} {r : Regs} {ctxs : List Regs}

theorem Stacked.congr (h : Stacked k p d ctxs) (hs : ∀ n, n < d → savedAt p' n = savedAt p n)
    (hm : ∀ n, n < d → peekFor k' p' (savedAt p n) 48 = peekFor k p (savedAt p n) 48) :
    Stacked k' p' d ctxs := by
  induction ctxs generalizing d with
  | nil => cases d <;> trivial
  | cons r rs ih =>
    cases d with
    | zero => exact h
    | succ d =>
      obtain ⟨hheld, hrest⟩ := h
      refine ⟨?_, ih hrest (fun n hn => hs n (hn.trans (lt_succ_self d)))
        fun n hn => hm n (hn.trans (lt_succ_self d))⟩
      rw [hs d (lt_succ_self d)]
      exact ⟨(hm d (lt_succ_self d)).trans hheld.bytes, hheld.low, hheld.high⟩

theorem Held.space {base : BitVec 32} (h : Held k p base r) : ∃ sp, p.space = some sp := by
  cases hs : p.space with
  | some sp => exact ⟨sp, rfl⟩
  | none =>
    have hb := h.bytes
    simp only [peekFor, hs] at hb
    exact absurd (congrArg length hb) (zero_ne_add_one 47)

variable {v base : BitVec 32} {sig : Fin 32}

/-- The bytes that a handler finds on its stack. -/
abbrev handed (k : Machine) (v : BitVec 32) (sig : Fin 32) : List (BitVec 8) :=
  (returnTo (cur (pendingLeft k v)) sig :: BitVec.ofNat 32 sig.val :: sigFrame k.frame).flatMap le32

theorem setBy_frames {c : Call} (hc : isSigreturn (.sys c) = false) (s : Signals) :
    (setBy c s).depth = s.depth ∧ (setBy c s).frameSp = s.frameSp := by
  have hact : ∀ sig handler flags restorer, (acted s sig handler flags restorer).depth = s.depth ∧
      (acted s sig handler flags restorer).frameSp = s.frameSp := by
    intro sig handler flags restorer
    rw [acted]
    split
    · exact ⟨rfl, rfl⟩
    · exact ⟨rfl, rfl⟩
  cases c with
  | signal sig handler => exact hact sig handler 0#32 0#32
  | sigaction sig handler flags restorer out => exact hact sig handler flags restorer
  | sigprocmask how set out =>
    simp only [setBy, masked]
    repeat' split
    all_goals exact ⟨rfl, rfl⟩
  | sigsuspend mask => cases mask <;> exact ⟨rfl, rfl⟩
  | sigreturn => cases hc
  | _ => exact ⟨rfl, rfl⟩

theorem frames_kept (hs : Shape k) (ht : step k a = some k') (hu : (k'.procs i).used = true)
    (hp : (k'.procs i).pid < k.nextPid) (he : enters i k a = false) (hr : returns i k a = false) :
    (k'.procs i).sig.depth = (k.procs i).sig.depth ∧
    (k'.procs i).sig.frameSp = (k.procs i).sig.frameSp := by
  cases stepped_shifts hs (step_stepped ht) i with
  | carried hc =>
    have hraised := hc.raised hu hp
    exact ⟨hraised.field _ fun _ => rfl, hraised.field _ fun _ => rfl⟩
  | set c ha hc hph hi hrow =>
    rw [hrow]
    refine setBy_frames ?_ _
    rw [ha, returns, decide_eq_true hi.symm, hph] at hr
    simpa [inUser] using hr
  | delivered ha hph hi hrow =>
    have hdeliver : delivers k.phase = true := by
      obtain hph | hph := hph <;> rw [hph] <;> rfl
    have hquiet : isHandled (signalDeliver k).2 = false := by
      rw [ha, enters, decide_eq_true hi.symm, hdeliver] at he
      simpa [isGo] using he
    have hd := signalDeliver_delivers k
    generalize signalDeliver k = d at hd hrow hquiet
    cases hd with
    | entered v sig base hv hh hd hb hlo hhi => cases hquiet
    | left v d hv hd =>
      have hown : k'.procs i = { cur k with sig := { (cur k).sig with pending := v } } := by
        rw [hrow, hi]
        exact setProc_self
      rw [hown, hi]
      exact ⟨rfl, rfl⟩

theorem enters_step (hs : Shape k) (h : enters i k a = true) (ht : step k a = some k') :
    k.current = i ∧ (cur k).space.isSome = true ∧
      ∃ v sig base ph, k' = setPhase (enterHandler (pendingLeft k v) sig base) ph ∧ (cur k).sig.depth < 4 ∧
        base = k.frame.useresp - 48#32 ∧ userBase ≤ base.toNat ∧ base.toNat < userSigtramp ∧
        (cur k).sig.handler sig ≠ 0#32 ∧ (cur k).sig.handler sig ≠ 1#32 := by
  simp only [enters, and_eq_true, decide_eq_true_eq] at h
  obtain ⟨⟨⟨hi, ha⟩, hp⟩, hh⟩ := h
  have hb : busy k.phase = true := by
    obtain hp | hp := delivers_eq hp <;> rw [hp] <;> rfl
  obtain ⟨h0, hu, hr⟩ := hs.cpu hb
  have hformed := hs.formed _ h0 hu
  refine ⟨hi, hformed.space, ?_⟩
  have hgo : a = .go := by
    cases a with
    | go => rfl
    | _ => cases ha
  subst hgo
  have hgo : ∃ ph, k' = setPhase (signalDeliver k).1 ph := by
    obtain hp | hp := delivers_eq hp
    · simp only [step, goOn, hp, some.injEq] at ht
      rw [← ht, goLeaving]
      split
      · rename_i hd
        exact ⟨_, by rw [hd]⟩
      · rename_i hd
        exact ⟨_, by rw [hd]⟩
    have hf := hformed.fdState
    have hruns : ¬ ((cur k).state ≠ .running ∨ (cur k).fdState.isNone) := by
      rintro (hn | hn)
      · exact hn hr
      rw [isNone_iff_eq_none] at hn
      rw [cur] at hn
      rw [hn] at hf
      cases hf
    simp only [step, goOn, hp, some.injEq] at ht
    rw [← ht, goTicked, if_neg hruns]
    split
    · rename_i hd
      exact ⟨_, by rw [hd]⟩
    · rename_i hd
      exact ⟨_, by rw [hd]⟩
    · rename_i hd
      exact ⟨_, by rw [hd]⟩
  obtain ⟨ph, rfl⟩ := hgo
  have hd := signalDeliver_delivers k
  generalize signalDeliver k = d at hd hh
  cases hd with
  | left v d hv hd =>
    cases d with
    | handled => exact absurd rfl hd
    | _ => cases hh
  | entered v sig base hv hn hd hb hlo hhi => exact ⟨v, sig, base, ph, rfl, hd, hb, hlo, hhi, hn⟩

theorem returns_step (h : returns i k a = true) (ht : step k a = some k') :
    k.current = i ∧ k.phase = .user ∧ a = .sys .sigreturn ∧ k' = enterCall k .sigreturn := by
  simp only [returns, and_eq_true, decide_eq_true_eq] at h
  obtain ⟨⟨hi, ha⟩, hp⟩ := h
  have hu := inUser_eq hp
  have hsys : a = .sys .sigreturn := by
    cases a with
    | sys c =>
      cases c with
      | sigreturn => rfl
      | _ => cases ha
    | _ => cases ha
  subst hsys
  simp only [step, hu, userAct, some.injEq] at ht
  exact ⟨hi, hu, rfl, ht.symm⟩

section

variable (k)

theorem enterCall_sigreturn :
    ∃ v, enterCall k .sigreturn = setPhase (setEax (sigreturn (inCall k)).1 v) .leaving ∧
      ((sigreturn (inCall k)).2 = true → v = (sigreturn (inCall k)).1.frame.eax) := by
  simp only [enterCall, sysCall, doSigreturn]
  by_cases h : (sigreturn (inCall k)).2 = true
  · simp only [h, if_true]
    exact ⟨_, rfl, fun _ => rfl⟩
  · simp only [h]
    exact ⟨_, rfl, fun hn => absurd hn (by simp)⟩

theorem popped_procs :
    (enterCall k .sigreturn).procs =
    (setSignals k { (cur k).sig with depth := (cur k).sig.depth - 1 }).procs := by
  have hset := sysCall_set (c := .sigreturn) rfl (inCall k)
  have hcall : (sysCall (inCall k) .sigreturn).1 = (sigreturn (inCall k)).1 := by
    simp only [sysCall, doSigreturn]
    split <;> rfl
  obtain ⟨v, he, -⟩ := enterCall_sigreturn k
  rw [he]
  rw [hcall] at hset
  exact hset

theorem entered_row (v : BitVec 32) (sig : Fin 32) (base : BitVec 32) (ph : Phase) :
    (setPhase (enterHandler (pendingLeft k v) sig base) ph).procs k.current =
      { cur k with sig := interruptedAt (cur k).sig v base } :=
  (congrFun (enterHandler_procs k v sig base) _).trans setProc_self

theorem popped_row : (enterCall k .sigreturn).procs k.current =
    { cur k with sig := { (cur k).sig with depth := (cur k).sig.depth - 1 } } :=
  (congrFun (popped_procs k) _).trans setProc_self

end

end

section

variable {r : Fs.RamFs.Ram} {mem : UserMem} {cow : Cow} {as bs : List Act} {k k0 : Machine}
  {i : Fin 8} {ctx : Regs}
variable {ctxs : List Regs}

end

end MuOS.Kernel.Nesting
