import MuOS.Kernel.Handlers
import MuOS.Kernel.Rows

namespace MuOS.Kernel.Masks

open Function Lib.Runs State Wake Sched Calls Stir Tables Prims ProcTable Step Phases Layout
  Handlers Rows Nat Option

variable {n : Fin 32}

structure Raised (s s' : Signals) : Prop where
  rest : { s' with pending := 0#32 } = { s with pending := 0#32 }
  grows : s.pending &&& s'.pending = s.pending

/-- The signals of a process without calls or deliveries of them. -/
inductive Carried (k k' : Machine) (i : Fin 8) : Prop
  | kept (hu : (k'.procs i).used = (k.procs i).used) (hp : (k'.procs i).pid = (k.procs i).pid)
    (h : Raised (k.procs i).sig (k'.procs i).sig)
  | born (hu : (cur k).used = true) (hp : k.nextPid ≤ (k'.procs i).pid)
    (h : Raised (inherited (cur k).sig) (k'.procs i).sig ∨ Raised noSignals (k'.procs i).sig)
  | gone (h : (k'.procs i).used = false)

variable {a : Act} {c : Call} {k k' k1 : Machine} {i j : Fin 8} {p : Proc} {s s' s'' : Signals}

theorem Raised.refl (s : Signals) : Raised s s := ⟨rfl, BitVec.and_self⟩

section

variable (h : Raised s s')
include h

theorem Raised.trans (h' : Raised s' s'') : Raised s s'' :=
  ⟨h'.rest.trans h.rest, pends_trans h.grows h'.grows⟩

theorem Raised.field {α : Type} (f : Signals → α) (hf : ∀ s, f { s with pending := 0#32 } = f s) :
    f s' = f s := by
  rw [← hf s', h.rest, hf]

theorem Raised.inherited : inherited s' = inherited s :=
  h.field _ fun _ => rfl

theorem Raised.pending {n : Nat} (hn : s.pending.getLsbD n = true) :
    s'.pending.getLsbD n = true := by
  rw [← h.grows, BitVec.getLsbD_and, Bool.and_eq_true] at hn
  exact hn.2

end

theorem Roused.raised {p' : Proc} (h : Roused p p') : Raised p.sig p'.sig :=
  ⟨congrArg Proc.sig h.keeps, h.pends⟩

theorem Carried.then_roused (hm : mark p = mark (k.procs i)) (h : Roused p (k'.procs i)) :
    Carried k k' i := by
  obtain ⟨hu, hp, hs⟩ := Prod.mk.inj hm |>.imp id Prod.mk.inj
  refine .kept (h.used.trans hu) (h.pid.trans hp) ?_
  rw [← hs]
  exact Roused.raised h

theorem Carried.roused (h : Roused (k.procs i) (k'.procs i)) : Carried k k' i := .then_roused rfl h

theorem Carried.marked (h : mark (k'.procs i) = mark (k.procs i)) : Carried k k' i :=
  .then_roused h (Roused.refl _)

theorem Carried.same (h : k'.procs i = k.procs i) : Carried k k' i := .marked (congrArg mark h)

theorem Carried.congr (h : Carried k k1 i) (he : k'.procs = k1.procs) : Carried k k' i := by
  cases h with
  | kept hu hp h => exact .kept (he ▸ hu) (he ▸ hp) (he ▸ h)
  | born hu hp h => exact .born hu (he ▸ hp) (he ▸ h)
  | gone h => exact .gone (he ▸ h)

theorem mark_setProc (h : mark p = mark (k.procs j)) (i : Fin 8) :
    mark ((setProc k j p).procs i) = mark (k.procs i) := by
  obtain ⟨rfl, he⟩ | ⟨-, he⟩ := row_set (b := setProc k j p) rfl i <;> rw [he]
  exact h

theorem Carried.freed (h : k'.procs = (setProc k j p).procs) (hu : p.used = false) :
    Carried k k' i := by
  obtain ⟨-, he⟩ | ⟨-, he⟩ := row_set h i
  · exact .gone (he ▸ hu)
  · exact .same he

theorem Carried.trans (h : Carried k k1 i) (h' : Carried k1 k' i) (hn : k.nextPid ≤ k1.nextPid)
    (hu : (cur k).used = true) (hr : Raised (cur k).sig (cur k1).sig) : Carried k k' i := by
  cases h' with
  | gone h' => exact .gone h'
  | born _ hp h' =>
    rw [hr.inherited] at h'
    exact .born hu (hn.trans hp) h'
  | kept hk hp h' =>
    cases h with
    | gone h => exact .gone (hk.trans h)
    | kept hk0 hp0 h => exact .kept (hk.trans hk0) (hp.trans hp0) (h.trans h')
    | born _ hp0 h => exact .born hu (hp.symm ▸ hp0) (h.imp (fun h => h.trans h') fun h => h.trans h')

theorem Does.carried (h : Does c k k') (hc : isSignal c = false) (hu : (cur k).used = true)
    (hr : (cur k).state = .running) (i : Fin 8) : Carried k k' i := by
  cases Does.row h hu hr i with
  | roused h => exact .roused h
  | own p hi _ hp hm =>
    obtain ⟨hu', hm'⟩ := Prod.mk.inj (hm.resolve_left (by simp [hc]))
    obtain ⟨hpid, hsig⟩ := Prod.mk.inj hm'
    subst hi
    refine .kept (hu'.trans (hp.used)) (hpid.trans (hp.pid)) ?_
    rw [hsig]
    exact Roused.raised hp
  | begot p _ _ _ _ hn hp hs =>
    refine .born hu hn.ge (.inl ?_)
    rw [hs, (Roused.raised hp).inherited]
    exact .refl _
  | gone h => exact .gone h

theorem Carried.raised (h : Carried k k' i) (hu : (k'.procs i).used = true)
    (hp : (k'.procs i).pid < k.nextPid) : Raised (k.procs i).sig (k'.procs i).sig := by
  cases h with
  | kept _ _ h => exact h
  | born _ hn _ => exact absurd hp (not_lt.mpr hn)
  | gone hg => cases hg.symm.trans hu

theorem sysCall_carried (hs : Shape k) (hb : busy k.phase = true) (hc : isSignal c = false)
    (i : Fin 8) : Carried k (sysCall k c).1 i := by
  refine (parts_invariant (I := fun k1 => (∀ i, Carried k k1 i) ∧ k.nextPid ≤ k1.nextPid ∧
    Raised (cur k).sig (cur k1).sig)
    hs hb ?_ ⟨fun i => .same rfl, le_rfl, .refl _⟩ (sysCall_parts c)).1 i
  rintro k1 k2 hs1 hb1 ⟨hall, hn, hcur⟩ hd
  obtain ⟨h01, hu1, hr1⟩ := hs1.cpu hb1
  have ht := hs1.does hb1 hd
  have hfit := ht.cur_fit hu1 hr1
  have hnext := Does.carried hd hc hu1 hr1
  have hraised : Raised (cur k1).sig (cur k2).sig := by
    have hc2 := hnext k1.current
    rw [cur, cur, ht.current] at hfit ⊢
    exact hc2.raised (hfit.used.trans hu1) (hfit.pid.symm ▸ hs1.below _ hu1)
  exact ⟨fun i => (hall i).trans (hnext i) hn (hs.cpu hb).2.1 hcur, hn.trans ht.nextPid,
    hcur.trans hraised⟩

def acted (s : Signals) (sig handler flags restorer : BitVec 32) : Signals :=
  if sig.toInt ≤ 0 ∨ 32 ≤ sig.toNat ∨ sig = 9#32 ∨ sig = 19#32 then s
  else
    let n := Fin.ofNat 32 sig.toNat
    { s with
      handler := update s.handler n handler
      flags := update s.flags n flags
      restorer := update s.restorer n restorer
      pending := if handler = 0#32 ∨ handler = 1#32 then s.pending &&& ~~~sigBit n.val else s.pending }

def masked (s : Signals) (how set : BitVec 32) : Signals :=
  let v := set &&& ~~~unblockable
  if how = 0#32 then { s with blocked := s.blocked ||| v }
  else if how = 1#32 then { s with blocked := s.blocked &&& ~~~v }
  else if how = 2#32 then { s with blocked := v }
  else s

def setBy : Call → Signals → Signals
  | .signal sig handler, s => acted s sig handler 0#32 0#32
  | .sigaction sig handler flags restorer _, s => acted s sig handler flags restorer
  | .sigprocmask how set _, s => masked s how set
  | .sigsuspend (some v), s => { s with blocked := v &&& ~~~unblockable }
  | .sigreturn, s => { s with depth := s.depth - 1 }
  | _, s => s

theorem setSignals_self (k : Machine) : (setSignals k (cur k).sig).procs = k.procs :=
  update_eq_self _ _

theorem setAction_procs (k : Machine) (sig handler flags restorer : BitVec 32) :
    ((setAction k sig handler flags restorer).elim k Prod.fst).procs =
      (setSignals k (acted (cur k).sig sig handler flags restorer)).procs := by
  rw [setAction, acted]
  split
  · exact (setSignals_self k).symm
  · rfl

theorem Pokes.setSignals (h : Pokes k k1) (s : Signals) :
    (setSignals k1 s).procs = (Calls.setSignals k s).procs := by
  obtain ⟨m, rfl⟩ := h
  rfl

theorem sysCall_set (hc : isSignal c = true) (k : Machine) :
    (sysCall k c).1.procs = (setSignals k (setBy c (cur k).sig)).procs := by
  have hcur : ∀ {k1}, Pokes k k1 → cur k1 = cur k := by
    rintro k1 ⟨m, rfl⟩
    rfl
  cases c with
  | signal sig handler =>
    simp only [sysCall, doSignal, setBy, ← setAction_procs]
    cases setAction k sig handler 0#32 0#32 <;> rfl
  | sigaction sig handler flags restorer out =>
    have hp := pokeAll_pokes k out
    simp only [sysCall, doSigaction, setBy]
    rw [← hcur hp, ← Pokes.setSignals hp, ← setAction_procs]
    cases setAction (pokeAll k out) sig handler flags restorer <;> rfl
  | sigprocmask how set out =>
    have hp := pokeAll_pokes k out
    simp only [sysCall, doSigprocmask, setBy, masked]
    rw [← hcur hp, ← Pokes.setSignals hp]
    repeat' split
    · rfl
    · rfl
    · rfl
    · exact (setSignals_self _).symm
  | sigsuspend mask =>
    cases mask with
    | none =>
      simp only [sysCall, doSigsuspend, setBy]
      split
      · exact (setSignals_self k).symm
      · exact (setSignals_self k).symm
    | some v =>
      simp only [sysCall, doSigsuspend, setBy]
      split <;> rfl
  | sigreturn =>
    have hprocs : (sysCall k .sigreturn).1.procs = (sigreturn k).1.procs := by
      simp only [sysCall, doSigreturn]
      split <;> rfl
    rw [hprocs, setBy, sigreturn]
    split
    · rename_i h0
      rw [h0, Nat.zero_sub, ← h0]
      exact (setSignals_self k).symm
    · simp only
      split <;> rfl
  | _ => cases hc

inductive Shifts (k : Machine) (a : Act) (k' : Machine) (i : Fin 8) : Prop
  | carried (h : Carried k k' i)
  | set (c : Call) (ha : a = .sys c) (hc : isSignal c = true) (hp : k.phase = .user)
    (hi : i = k.current) (h : k'.procs i = { k.procs i with sig := setBy c (k.procs i).sig })
  | delivered (ha : a = .go) (hp : k.phase = .leaving ∨ k.phase = .ticked) (hi : i = k.current)
    (h : k'.procs = (signalDeliver k).1.procs)

theorem after_procs (k : Machine) (fl : Flow) : (after k fl).procs = k.procs := by
  cases fl <;> rfl

theorem mark_load (k : Machine) (j i : Fin 8) : mark ((schedLoad k j).procs i) = mark (k.procs i) :=
  mark_setProc (p := { k.procs j with state := .running }) rfl i

theorem stepped_shifts (hs : Shape k) (h : Stepped k a k') (i : Fin 8) : Shifts k a k' i := by
  have hwoke : ∀ {k1 k2 : Machine}, Woke k1 k2 → k1.procs = k.procs → k'.procs = k2.procs →
    Carried k k' i := by
    intro k1 k2 hw hp he
    refine .roused ?_
    rw [he, ← hp]
    exact hw.procs i
  have hstill : k'.procs = k.procs → Carried k k' i := fun he => .same (congrFun he i)
  have haside : ∀ {q : Proc}, mark q = mark (cur k) →
    mark ((aside k q).procs i) = mark (k.procs i) :=
    fun hq => mark_setProc hq i
  cases h with
  | compute | exit | fault | ignored | back | lost | refuse | shell | shellKey
  | spinDone => exact .carried (hstill rfl)
  | call c k1 fl hp hc =>
    by_cases hsig : isSignal c = true
    · have hset := sysCall_set hsig (inCall k)
      rw [hc] at hset
      obtain ⟨rfl, he⟩ | ⟨-, he⟩ := row_set hset i
      · exact .set c rfl hsig hp rfl ((congrFun (after_procs ..) _).trans he)
      · exact .carried (.same ((congrFun (after_procs ..) _).trans he))
    have hb := busy_at hp
    have hcall := sysCall_carried hs.entered hb (Bool.eq_false_iff.mpr hsig) i
    rw [hc] at hcall
    have hpre : Carried k k1 i := by
      cases hcall with
      | kept hu hq h => exact .kept hu hq h
      | born hu hq h => exact .born hu hq h
      | gone h => exact .gone h
    exact .carried (hpre.congr (after_procs k1 fl))
  | tick | idle => exact .carried (hwoke (ticked_woke k) rfl rfl)
  | key c hp => exact .carried (hwoke (typed_woke k c) rfl rfl)
  | sleep _ _ j | yield j => exact .carried (.marked ((mark_load _ j i).trans (haside rfl)))
  | awake r o hp hf hn =>
    refine .carried (.marked ?_)
    rw [after_procs]
    exact haside rfl
  | tableless r o hp hf => exact .carried (hstill (after_procs k _))
  | leave k1 d hp hd | alarm k1 d hp hd =>
    by_cases hi : i = k.current
    · refine .delivered rfl (by simp [hp]) hi ?_
      rw [hd]
      rfl
    · obtain ⟨m, eip, sp, eax, sig, rfl⟩ := delivered_notified hd
      exact .carried (.same (setProc_ne hi))
  | keep hp => exact .carried (.marked (haside rfl))
  | die code faulted sys hp =>
    have hst := procWakeParent_stirred (ended k code faulted) (exited k code faulted)
    exact .carried (.then_roused (haside (q := exited k code faulted) rfl) (hst.procs i))
  | pick sys j hp hj => exact .carried (.marked (mark_load k j i))
  | finish l hp =>
    obtain ⟨k1, hcull, -, he⟩ := hs.finish_culled hp
    rw [he]
    by_cases hu : (k1.procs i).used = true
    · exact .carried (.roused (hcull.roused i hu))
    · exact .carried (.gone (Bool.eq_false_iff.mpr hu))
  | launch frames l hp ha =>
    refine .carried ?_
    refine hs.launch_elim hp frames l (.same rfl) (fun _ _ _ _ _ _ _ _ _ hu => .freed rfl hu)
      fun j b m f hj hf => ?_
    obtain ⟨-, he⟩ | ⟨-, he⟩ := row_set (b := started k j b m f) rfl i
    · refine .born (by rw [cur, hs.home (.inl hp)]; exact hs.kernel.used) ?_ (.inr ?_)
      · rw [he]
        exact le_rfl
      · rw [he]
        exact .refl _
    · exact .same he

def Unmasked (s : Signals) : Prop :=
  ∀ n : Fin 32, n = 9 ∨ n = 19 → s.blocked.getLsbD n.val = false ∧ s.handler n = 0#32

theorem Unmasked.congr (h : Unmasked s) (hb : s'.blocked = s.blocked)
    (hh : s'.handler = s.handler) : Unmasked s' := by
  rw [Unmasked, hb, hh]
  exact h

theorem Raised.unmasked (h : Raised s s') (hs : Unmasked s) : Unmasked s' :=
  hs.congr (h.field _ fun _ => rfl) (h.field _ fun _ => rfl)

theorem noSignals_unmasked : Unmasked noSignals := by
  rintro n -
  exact ⟨BitVec.getLsbD_zero, rfl⟩

theorem maskable (v : BitVec 32) (hn : n = 9 ∨ n = 19) :
    (v &&& ~~~unblockable).getLsbD n.val = false := by
  rw [BitVec.getLsbD_and]
  obtain rfl | rfl := hn
  · exact Bool.and_false _
  · exact Bool.and_false _

theorem Unmasked.acted (h : Unmasked s) (sig handler flags restorer : BitVec 32) :
    Unmasked (acted s sig handler flags restorer) := by
  rw [Masks.acted]
  split
  · exact h
  rename_i hsig
  rw [not_or, not_or, not_or] at hsig
  obtain ⟨-, hlt, h9, h19⟩ := hsig
  intro n hn
  refine ⟨(h n hn).1, ?_⟩
  have hne : n ≠ Fin.ofNat 32 sig.toNat := by
    intro he
    have hv : n.val = sig.toNat := by
      rw [he]
      exact Nat.mod_eq_of_lt (Nat.lt_of_not_le hlt)
    obtain rfl | rfl := hn
    · exact h9 (BitVec.eq_of_toNat_eq hv.symm)
    · exact h19 (BitVec.eq_of_toNat_eq hv.symm)
  exact (update_of_ne hne ..).trans (h n hn).2

theorem Unmasked.masked (h : Unmasked s) (how set : BitVec 32) : Unmasked (masked s how set) := by
  simp only [Masks.masked]
  split
  · intro n hn
    refine ⟨?_, (h n hn).2⟩
    rw [BitVec.getLsbD_or, (h n hn).1, maskable set hn, Bool.or_self]
  split
  · intro n hn
    refine ⟨?_, (h n hn).2⟩
    rw [BitVec.getLsbD_and, (h n hn).1, Bool.false_and]
  · split
    · exact fun n hn => ⟨maskable set hn, (h n hn).2⟩
    · exact h

theorem Unmasked.setBy (h : Unmasked s) (c : Call) : Unmasked (setBy c s) := by
  cases c with
  | signal sig handler => exact h.acted sig handler 0#32 0#32
  | sigaction sig handler flags restorer out => exact h.acted sig handler flags restorer
  | sigprocmask how set out => exact h.masked how set
  | sigsuspend mask =>
    cases mask with
    | none => exact h
    | some v => exact fun n hn => ⟨maskable v hn, (h n hn).2⟩
  | sigreturn => exact h.congr rfl rfl
  | _ => exact h

theorem delivered_signals (k : Machine) :
    ∃ s, (signalDeliver k).1.procs = (setSignals k s).procs ∧ HeldBack (cur k).sig s.pending ∧
      s.blocked = (cur k).sig.blocked ∧ s.handler = (cur k).sig.handler := by
  have hd := signalDeliver_delivers k
  generalize signalDeliver k = d at hd
  cases hd with
  | left v d hv hd => exact ⟨_, rfl, hv, rfl, rfl⟩
  | entered v sig base hv hh hd hb hlo hhi =>
    exact ⟨_, enterHandler_procs k v sig base, hv, rfl, rfl⟩

def AllUnmasked (k : Machine) : Prop := ∀ i, (k.procs i).used = true → Unmasked (k.procs i).sig

theorem unmasked_stepped (hs : Shape k) (h : AllUnmasked k) (hst : Stepped k a k') :
    AllUnmasked k' := by
  intro i hu
  cases stepped_shifts hs hst i with
  | carried hc =>
    cases hc with
    | kept hk _ hr => exact hr.unmasked (h i (hk.symm.trans hu))
    | born hc _ hr =>
      obtain hr | hr := hr
      · have hpar : Unmasked (cur k).sig := h _ hc
        exact hr.unmasked (hpar.congr rfl rfl)
      · exact hr.unmasked noSignals_unmasked
    | gone hg => cases hg.symm.trans hu
  | set c ha hc hp hi he =>
    rw [he] at hu ⊢
    exact (h i hu).setBy c
  | delivered ha hp hi he =>
    subst hi
    obtain ⟨s, hp, -, hb, hh⟩ := delivered_signals k
    have hrow : k'.procs k.current = { cur k with sig := s } := by
      rw [he, hp]
      exact setProc_self
    rw [hrow] at hu ⊢
    exact Unmasked.congr (h _ hu) hb hh

def dismisses (n : Fin 32) : Act → Bool
  | .sys (.signal sig handler) | .sys (.sigaction sig handler ..) =>
    decide (sig.toNat = n.val) && (decide (handler = 0#32) || decide (handler = 1#32))
  | _ => false

def heldFor (p : Proc) (n : Fin 32) : Bool :=
  p.sig.pending.getLsbD n.val && p.sig.blocked.getLsbD n.val

/-- The signal stays blocked and is not dismissed. -/
def Leaves (i : Fin 8) (n : Fin 32) (k : Machine) (a : Act) : Prop :=
  ¬ (k.current = i ∧ dismisses n a = true) ∧ ∀ k', step k a = some k' →
    (k'.procs i).used = true ∧ (k'.procs i).pid = (k.procs i).pid ∧
    (k'.procs i).sig.blocked.getLsbD n.val = true

theorem acted_pending {sig handler flags restorer : BitVec 32}
    (hd : ¬ (sig.toNat = n.val ∧ (handler = 0#32 ∨ handler = 1#32)))
    (hn : s.pending.getLsbD n.val = true) :
    (acted s sig handler flags restorer).pending.getLsbD n.val = true := by
  rw [acted]
  split
  · exact hn
  rename_i hsig
  split
  · rename_i hh
    have hlt : sig.toNat < 32 := Nat.lt_of_not_le fun hle => hsig (.inr (.inl hle))
    have hne : (Fin.ofNat 32 sig.toNat).val ≠ n.val := by
      rw [Fin.val_ofNat, mod_eq_of_lt hlt]
      exact fun he => hd ⟨he, hh⟩
    rw [BitVec.getLsbD_and, hn, BitVec.getLsbD_not, sigBit, BitVec.getLsbD_twoPow, decide_eq_false hne]
    simp
  · exact hn

theorem setBy_pending (hd : dismisses n (.sys c) = false) (hn : s.pending.getLsbD n.val = true) :
    (setBy c s).pending.getLsbD n.val = true := by
  have hact : ∀ {sig handler : BitVec 32},
      (decide (sig.toNat = n.val) && (decide (handler = 0#32) || decide (handler = 1#32))) = false →
      ¬ (sig.toNat = n.val ∧ (handler = 0#32 ∨ handler = 1#32)) := by
    intro sig handler hf ht
    rw [decide_eq_true ht.1, ← Bool.decide_or, decide_eq_true ht.2] at hf
    cases hf
  cases c with
  | signal | sigaction => exact acted_pending (hact hd) hn
  | sigprocmask how set out =>
    simp only [setBy, masked]
    repeat' split
    all_goals exact hn
  | sigsuspend mask => cases mask <;> exact hn
  | _ => exact hn

theorem held_stepped (hs : Shape k) (hu : (k.procs i).used = true)
    (hh : heldFor (k.procs i) n = true) (hl : Leaves i n k a) (ht : step k a = some k') :
    (k'.procs i).used = true ∧ heldFor (k'.procs i) n = true := by
  obtain ⟨hact, hkeep⟩ := hl
  obtain ⟨hu', hp', hb'⟩ := hkeep k' ht
  rw [heldFor, Bool.and_eq_true] at hh ⊢
  refine ⟨hu', ?_, hb'⟩
  cases stepped_shifts hs (step_stepped ht) i with
  | carried hc => exact (hc.raised hu' (hp'.symm ▸ hs.below i hu)).pending hh.1
  | set c ha hc hp hi he =>
    subst ha
    rw [he]
    refine setBy_pending (Bool.eq_false_iff.mpr fun hd => hact ⟨hi.symm, hd⟩) hh.1
  | delivered ha hp hi he =>
    subst hi
    obtain ⟨s, hp, hheld, -, -⟩ := delivered_signals k
    have hrow : k'.procs k.current = { cur k with sig := s } := by
      rw [he, hp]
      exact setProc_self
    rw [hrow]
    exact (hheld _ hh.2).trans hh.1

section

variable {r : Fs.RamFs.Ram} {mem : UserMem} {cow : Cow} {as : List Act}

theorem boot_unmasked (r : Fs.RamFs.Ram) (mem : UserMem) (cow : Cow) :
    AllUnmasked (boot r mem cow) := by
  intro i _
  have hsig : ((boot r mem cow).procs i).sig = noSignals := by
    simp only [boot]
    split <;> rfl
  rw [hsig]
  exact noSignals_unmasked

/-- In every run kill and stop are neither blocked nor handled nor ignored, and a
signal that is pending and blocked stays pending until it is unblocked or
dismissed. -/
theorem signals_stay_pending (h : run step (boot r mem cow) as = some k) :
    (∀ i, (k.procs i).used = true → Unmasked (k.procs i).sig) ∧
      ∀ i n, (k.procs i).used = true → heldFor (k.procs i) n = true →
        ∀ bs k', Meets step (Leaves i n) k bs → run step k bs = some k' →
        (k'.procs i).sig.pending.getLsbD n.val = true := by
  refine ⟨holds_run (boot_unmasked r mem cow) (fun _ _ _ => unmasked_stepped) h,
    fun i n hu hh bs k' hm hrun => ?_⟩
  have hinv := meets_invariant
    (I := fun k => Shape k ∧ (k.procs i).used = true ∧ heldFor (k.procs i) n = true) ?_
    ⟨shape_run h, hu, hh⟩ hm hrun
  · have hheld := hinv.2.2
    rw [heldFor, Bool.and_eq_true] at hheld
    exact hheld.1
  · rintro k a k' ⟨hs, hu, hh⟩ hl ht
    exact ⟨hs.stepped (step_stepped ht), held_stepped hs hu hh hl ht⟩

def blocksOwn : List Act :=
  [enter, .sys (.signal 10#32 0x08048100#32), .go, .sys (.sigprocmask 0#32 0x400#32 []), .go,
    .sys (.kill 0#32 10#32)]

def leavesNow (i : Fin 8) (n : Fin 32) (k : Machine) (a : Act) : Bool :=
  !(decide (k.current = i) && dismisses n a) && (step k a).all (fun k' =>
    (k'.procs i).used && decide ((k'.procs i).pid = (k.procs i).pid) &&
      (k'.procs i).sig.blocked.getLsbD n.val)

theorem leavesNow_leaves (h : leavesNow i n k a = true) : Leaves i n k a := by
  rw [leavesNow, Bool.and_eq_true] at h
  refine ⟨fun hd => ?_, fun k' ht => ?_⟩
  · simp [hd.1, hd.2] at h
  have hall := h.2
  rw [ht, all_some, Bool.and_eq_true, Bool.and_eq_true] at hall
  exact ⟨hall.1.1, of_decide_eq_true hall.1.2, hall.2⟩

theorem signals_stay_pending_blocked :
    ∃ k k', run step plain blocksOwn = some k ∧
      run step k [.go, .sys (.signal 11#32 0#32), .go, .tick, .go] = some k' ∧
      Unmasked (k.procs 1).sig ∧ (k'.procs 1).sig.pending.getLsbD 10 = true := by
  obtain ⟨k, hk, hu, hh, hc, hr⟩ : ∃ k, run step plain blocksOwn = some k ∧
      (k.procs 1).used = true ∧ heldFor (k.procs 1) 10 = true ∧
      checks step (leavesNow 1 10) k [.go, .sys (.signal 11#32 0#32), .go, .tick, .go] = true ∧
      (run step k [.go, .sys (.signal 11#32 0#32), .go, .tick, .go]).isSome = true := by
    decide +kernel
  obtain ⟨k', hk'⟩ := isSome_iff_exists.mp hr
  obtain ⟨hmask, hpend⟩ := signals_stay_pending hk
  exact ⟨k, k', hk, hk', hmask 1 hu,
    hpend 1 10 hu hh _ k' (checks_meets (fun _ _ => leavesNow_leaves) hc) hk'⟩

end

end MuOS.Kernel.Masks
