import MuOS.Kernel.Traps

namespace MuOS.Kernel.Handlers

open Function Lib.Runs User.Window State Wake Sched Calls Stir Step Option List

variable {k : Machine} {sig : Fin 32} {v : BitVec 32}

/-- The signal whose handler `proc_signal_deliver` comes to. -/
def reached : List (Fin 32) → Signals → Option (Fin 32)
  | [], _ => none
  | sig :: sigs, s =>
    if s.pending &&& ~~~s.blocked &&& sigBit sig.val = 0#32 then reached sigs s
    else
      let s' := { s with pending := s.pending &&& ~~~sigBit sig.val }
      if s.handler sig = 1#32 then reached sigs s'
      else if s.handler sig = 0#32 then if terminates sig.val then none else reached sigs s'
      else some sig

def nextHandled (k : Machine) : Option (Fin 32) := reached ((List.finRange 32).drop 1) (cur k).sig

def frameBytes (k : Machine) (sig : Fin 32) : List (BitVec 8) :=
  (returnTo (cur k) sig :: BitVec.ofNat 32 sig.val :: sigFrame k.frame).flatMap le32

/-- What `proc_signal_deliver` stores, and where it starts. -/
def deliveryStore (k : Machine) : Option (BitVec 32 × List (BitVec 8)) :=
  let base := k.frame.useresp - 48#32
  match nextHandled k with
  | none => none
  | some sig =>
    if 4 ≤ (cur k).sig.depth ∨ base.toNat < userBase ∨ userSigtramp ≤ base.toNat then none
    else some (base - 8#32, frameBytes k sig)

def pendingLeft (k : Machine) (v : BitVec 32) : Machine :=
  setSignals k { (cur k).sig with pending := v }

theorem pendingLeft_left (k : Machine) (v w : BitVec 32) :
    pendingLeft (pendingLeft k v) w = pendingLeft k w := by
  simp only [pendingLeft, setSignals, cur, setProc, update_idem, update_self]

theorem pendingLeft_self (k : Machine) : pendingLeft k (cur k).sig.pending = k := by
  simp only [pendingLeft, setSignals, cur, setProc, update_eq_self]

theorem pendingLeft_sig (k : Machine) (v : BitVec 32) :
    (cur (pendingLeft k v)).sig = { (cur k).sig with pending := v } := by
  rw [pendingLeft, setSignals, cur_setProc]

inductive Looped (k : Machine) (r : Option (Fin 32)) (d : Machine × Delivery) : Prop
  | entered (sig : Fin 32) (v : BitVec 32) (hr : r = some sig)
    (hd : d = handleSignal (pendingLeft k v) sig)
  | quiet (hr : r = none) (hm : d.1.mem = k.mem)

theorem deliverFrom_looped (sigs : List (Fin 32)) (k : Machine) :
    Looped k (reached sigs (cur k).sig) (deliverFrom sigs k) := by
  induction sigs generalizing k with
  | nil => exact .quiet rfl rfl
  | cons sig sigs ih =>
    have hnext : ∀ v, Looped k (reached sigs { (cur k).sig with pending := v })
      (deliverFrom sigs (pendingLeft k v)) := by
      intro v
      have h := ih (pendingLeft k v)
      rw [pendingLeft_sig] at h
      cases h with
      | entered sig w hr hd =>
        rw [pendingLeft_left] at hd
        exact .entered sig w hr hd
      | quiet hr hm => exact .quiet hr hm
    simp only [reached, deliverFrom]
    by_cases hp : (cur k).sig.pending &&& ~~~(cur k).sig.blocked &&& sigBit sig.val = 0#32
    · rw [if_pos hp, if_pos hp]
      exact ih k
    rw [if_neg hp, if_neg hp]
    by_cases h1 : (cur k).sig.handler sig = 1#32
    · rw [if_pos h1, if_pos h1]
      exact hnext _
    rw [if_neg h1, if_neg h1]
    by_cases h0 : (cur k).sig.handler sig = 0#32
    · rw [if_pos h0, if_pos h0]
      by_cases ht : terminates sig.val = true
      · rw [if_pos ht, if_pos ht]
        exact .quiet rfl rfl
      · rw [if_neg ht, if_neg ht]
        exact hnext _
    · rw [if_neg h0, if_neg h0]
      exact .entered sig _ rfl rfl

theorem pokeCur_pending (k : Machine) (v : BitVec 32) (a : BitVec 32) (bs : List (BitVec 8)) :
    (pokeCur (pendingLeft k v) a bs).mem = (pokeCur k a bs).mem := by
  have hs : (cur (pendingLeft k v)).space = (cur k).space := by rw [pendingLeft, setSignals, cur_setProc]
  have hp : ∀ sp m n bs, poke (pendingLeft k v) sp m n bs = poke k sp m n bs := by
    intro sp m n bs
    induction bs generalizing m n with
    | nil => rfl
    | cons b bs ih => exact ih _ _
  simp only [pokeCur, hs]
  split
  · rfl
  · exact hp ..

theorem signalDeliver_store (k : Machine) : match deliveryStore k with
    | some (a, bs) => (signalDeliver k).2 = .handled ∧ (signalDeliver k).1.mem = (pokeCur k a bs).mem
    | none => (signalDeliver k).1.mem = k.mem ∧
      ((nextHandled k).isSome = true → ∃ code, (signalDeliver k).2 = .exit code true) := by
  have h := deliverFrom_looped ((finRange 32).drop 1) k
  simp only [deliveryStore, nextHandled, signalDeliver]
  cases h with
  | quiet hr hm =>
    rw [hr]
    exact ⟨hm, fun hs => by cases hs⟩
  | entered sig v hr hv =>
    rw [hr]
    have hdepth : (cur (pendingLeft k v)).sig.depth = (cur k).sig.depth := by rw [pendingLeft_sig]
    have hframe : (pendingLeft k v).frame = k.frame := rfl
    simp only [hv, handleSignal, hdepth, hframe]
    by_cases hd : 4 ≤ (cur k).sig.depth
    · rw [if_pos (.inl hd), if_pos hd]
      exact ⟨rfl, fun _ => ⟨_, rfl⟩⟩
    by_cases hb : (k.frame.useresp - 48#32).toNat < userBase ∨
      userSigtramp ≤ (k.frame.useresp - 48#32).toNat
    · rw [if_pos (.inr hb), if_neg hd, if_pos hb]
      exact ⟨rfl, fun _ => ⟨_, rfl⟩⟩
    rw [if_neg (not_or.mpr ⟨hd, hb⟩), if_neg hd, if_neg hb]
    refine ⟨rfl, ?_⟩
    have hret : returnTo (cur (pendingLeft k v)) sig = returnTo (cur k) sig := by
      simp only [returnTo, pendingLeft_sig]
    have hbytes : frameBytes (pendingLeft k v) sig = frameBytes k sig := by
      rw [frameBytes, hret]
      rfl
    exact (congrArg (fun bs => (pokeCur (pendingLeft k v) _ bs).mem) hbytes).trans
      (pokeCur_pending k v _ _)

/-- The delivery stores between `USER_BASE` and the trampoline, or ends the process. -/
def Confined (k : Machine) : Prop :=
  match deliveryStore k with
  | some (a, bs) => (signalDeliver k).1.mem = (pokeCur k a bs).mem ∧
    ∀ j, j < bs.length → userBase ≤ a.toNat + j ∧ a.toNat + j < userSigtramp
  | none => (signalDeliver k).1.mem = k.mem ∧
    ((nextHandled k).isSome = true → ∃ code, (signalDeliver k).2 = .exit code true)

theorem frameBytes_length (k : Machine) (sig : Fin 32) : (frameBytes k sig).length = 56 := rfl

/-- The stores reach eight bytes below the address that is checked and forty-eight
above it. -/
theorem delivery_confined_iff (k : Machine) : Confined k ↔
    ((nextHandled k).isSome = true → (cur k).sig.depth < 4 →
      ∀ base, base = (k.frame.useresp - 48#32).toNat → userBase ≤ base → base < userSigtramp →
        userBase + 8 ≤ base ∧ base + 48 ≤ userSigtramp) := by
  have hstore := signalDeliver_store k
  have hlo : 8 < userBase := by decide
  have hhi : userSigtramp < 2 ^ 32 := by decide
  simp only [Confined]
  cases hd : deliveryStore k with
  | none =>
    rw [hd] at hstore
    refine ⟨fun _ hs hdepth base hb hge hlt => ?_, fun _ => hstore⟩
    obtain ⟨sig, hsig⟩ := isSome_iff_exists.mp hs
    simp only [deliveryStore, hsig] at hd
    rw [if_neg (by omega)] at hd
    cases hd
  | some w =>
    obtain ⟨a, bs⟩ := w
    rw [hd] at hstore
    simp only [deliveryStore] at hd
    cases hsig : nextHandled k with
    | none =>
      rw [hsig] at hd
      cases hd
    | some sig =>
      rw [hsig] at hd
      simp only at hd
      split at hd
      · cases hd
      cases some.inj hd
      have ha : (k.frame.useresp - 48#32 - 8#32).toNat = (k.frame.useresp - 48#32).toNat - 8 := by
        rw [BitVec.toNat_sub]
        simp only [BitVec.toNat_ofNat]
        omega
      dsimp only at hstore ⊢
      rw [frameBytes_length]
      constructor
      · rintro ⟨-, hall⟩ - - base rfl hge hlt
        have hfirst := hall 0 (by omega)
        have hlast := hall 55 (by omega)
        omega
      · intro hcond
        obtain ⟨h8, h48⟩ := hcond rfl (by omega) _ rfl (by omega) (by omega)
        exact ⟨hstore.2, fun j hj => by omega⟩

def lowStack : List Act :=
  [enter, .sys (.signal 10#32 0x08048100#32), .go,
    .compute { emptyRegs with useresp := BitVec.ofNat 32 (userBase + 48) } [],
    .sys (.kill 0#32 10#32)]

theorem low_stack_stores_below : ∃ k, run step plain lowStack = some k ∧ k.phase = .leaving ∧
    ¬ Confined k := by
  obtain ⟨k, hk, hp, hd⟩ : ∃ k, run step plain lowStack = some k ∧ k.phase = .leaving ∧
      (deliveryStore k).map (fun w => (w.1.toNat, w.2.length)) = some (userBase - 8, 56) :=
    ⟨_, rfl, rfl, by decide +kernel⟩
  refine ⟨k, hk, hp, fun hc => ?_⟩
  obtain ⟨⟨a, bs⟩, hw, he⟩ := map_eq_some_iff.mp hd
  obtain ⟨ha, hlen⟩ := Prod.mk.inj he
  simp only at ha hlen
  simp only [Confined, hw] at hc
  have hfirst := hc.2 0 (by omega)
  have hpos : 8 < userBase := by decide
  omega

def HeldBack (s : Signals) (v : BitVec 32) : Prop :=
  ∀ n, s.blocked.getLsbD n = true → v.getLsbD n = s.pending.getLsbD n

inductive Delivers (k : Machine) : Machine × Delivery → Prop
  | left (v : BitVec 32) (d : Delivery) (hv : HeldBack (cur k).sig v) (hd : d ≠ .handled) :
    Delivers k (pendingLeft k v, d)
  | entered (v : BitVec 32) (sig : Fin 32) (base : BitVec 32) (hv : HeldBack (cur k).sig v)
    (hh : (cur k).sig.handler sig ≠ 0#32 ∧ (cur k).sig.handler sig ≠ 1#32)
    (hd : (cur k).sig.depth < 4) (hb : base = k.frame.useresp - 48#32) (hlo : userBase ≤ base.toNat)
    (hhi : base.toNat < userSigtramp) :
    Delivers k (enterHandler (pendingLeft k v) sig base, .handled)

theorem HeldBack.take {s : Signals} {n : Nat} (h : HeldBack s v)
    (ht : v &&& ~~~s.blocked &&& sigBit n ≠ 0#32) : HeldBack s (v &&& ~~~sigBit n) := by
  intro j hj
  rw [← h j hj, BitVec.getLsbD_and, BitVec.getLsbD_not, sigBit, BitVec.getLsbD_twoPow]
  have hj32 : j < 32 := BitVec.lt_of_getLsbD hj
  by_cases hn : j = n
  · subst hn
    refine absurd ?_ ht
    apply BitVec.eq_of_getLsbD_eq
    intro m hm
    rw [BitVec.getLsbD_and, BitVec.getLsbD_and, sigBit]
    by_cases hmj : m = j
    · subst hmj
      simp [hj]
    · simp [Ne.symm hmj]
  · simp [hj32, Ne.symm hn]

theorem handleSignal_delivers (hv : HeldBack (cur k).sig v)
    (hh : (cur k).sig.handler sig ≠ 0#32 ∧ (cur k).sig.handler sig ≠ 1#32) :
    Delivers k (handleSignal (pendingLeft k v) sig) := by
  have hdepth : (cur (pendingLeft k v)).sig.depth = (cur k).sig.depth := by rw [pendingLeft_sig]
  simp only [handleSignal, hdepth]
  split
  · exact .left v _ hv (by simp)
  rename_i hd
  split
  · exact .left v _ hv (by simp)
  rename_i hb
  rw [not_or, Nat.not_lt, Nat.not_le] at hb
  exact .entered v sig _ hv hh (Nat.lt_of_not_le hd) rfl hb.1 hb.2

theorem deliverFrom_delivers (sigs : List (Fin 32)) (hv : HeldBack (cur k).sig v) :
    Delivers k (deliverFrom sigs (pendingLeft k v)) := by
  induction sigs generalizing v with
  | nil => exact .left v _ hv (by simp)
  | cons sig sigs ih =>
    simp only [deliverFrom, pendingLeft_sig]
    split
    · exact ih hv
    rename_i ht
    have htake := hv.take ht
    have hnext : setProc (pendingLeft k v) (pendingLeft k v).current { cur (pendingLeft k v) with
        sig := { (cur k).sig with pending := v &&& ~~~sigBit sig.val } } = pendingLeft k
          (v &&& ~~~sigBit sig.val) := by
      refine Eq.trans ?_ (pendingLeft_left k v _)
      have hsig := pendingLeft_sig k v
      generalize pendingLeft k v = q at hsig ⊢
      rw [pendingLeft, setSignals, hsig]
    rw [hnext]
    split
    · exact ih htake
    rename_i h1
    split
    · split
      · exact .left _ _ htake (by simp)
      · exact ih htake
    · rename_i h0
      exact handleSignal_delivers htake ⟨h0, h1⟩

def interruptedAt (s : Signals) (v base : BitVec 32) : Signals :=
  { s with
    pending := v
    frameSp := update s.frameSp (Fin.ofNat 4 s.depth) base
    depth := s.depth + 1 }

theorem enterHandler_procs (k : Machine) (v : BitVec 32) (sig : Fin 32) (base : BitVec 32) :
    (enterHandler (pendingLeft k v) sig base).procs =
    (setSignals k (interruptedAt (cur k).sig v base)).procs := by
  have hcur : cur (pendingLeft k v) = { cur k with sig := { (cur k).sig with pending := v } } :=
    cur_setProc _ _
  obtain ⟨m, hm⟩ := poke_pokes (pendingLeft k v) (base - 8#32)
    ((returnTo (cur (pendingLeft k v)) sig :: BitVec.ofNat 32 sig.val :: sigFrame
    (pendingLeft k v).frame).flatMap le32)
  simp only [enterHandler]
  rw [hm, hcur]
  simp only [pendingLeft, setSignals, setProc, update_idem]
  rfl

theorem signalDeliver_delivers (k : Machine) : Delivers k (signalDeliver k) := by
  have h := deliverFrom_delivers ((finRange 32).drop 1) (v := (cur k).sig.pending) fun _ _ => rfl
  rwa [pendingLeft_self] at h

end MuOS.Kernel.Handlers
