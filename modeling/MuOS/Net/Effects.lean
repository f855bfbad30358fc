import MuOS.Net.Calls

namespace MuOS.Net.Effects

open Function Lib Programs Runs Wire Sockets Stack Calls List Nat

/-- What a segment acknowledges; a `SYN` sent again acknowledges 0. -/
def AckFits (first : Bool) (ack : BitVec 32) (flags : Byte) (rcv : BitVec 32) : Prop :=
  flagged flags fACK = true → ack = if first || !flagged flags fSYN then rcv else 0#32

/-- After `k` entries a segment was sent, with all `n` numbers if they fit. -/
def Carried (n k : Nat) (h : List Event) : Prop := ∃ d u seq ack flags data rcv,
  h = d ++ .emit true seq ack flags data rcv :: u ∧ u.length = k ∧ (n ≤ 512 → spanOf flags data = n)

/-- What an event does to its socket, with `h` recorded before. -/
inductive Step (h : List Event) (s : Sock) : Event → Sock → Prop
  | cleared (u : Bool) (t : SockType) (p : BitVec 32) (q : Option (Fin 8)) :
      Step h s .cleared { blank with used := u, stype := t, proto := p, parent := q }
  | other (u v w : Bool) (rport : BitVec 16) (rip : BitVec 32) (st : TcpState)
      (q : Option (Fin 8)) : Step h s .other { s with
        used := u, bound := v, connected := w, rip := rip, rport := rport, tcpState := st, parent := q }
  | named (v : Bool) (port rport : BitVec 16) (rip : BitVec 32) (q : Option (Fin 8)) :
    Step h s (.named port) { s with
      lport := port, bound := v, rip := rip, rport := rport, parent := q }
  | drew (port : BitVec 16) (others : List (BitVec 16)) :
      Step h s (.drew port others) { s with lport := port, bound := true }
  | echo : Step h s .echo { s with echoMode := true }
  | opened (iss rcv : BitVec 32) (st : TcpState) : Step h s (.opened iss rcv) (opened iss rcv st s)
  | sync (v : BitVec 32) : Step h s (.sync v) { s with rcvNxt := v, tcpState := .estab }
  | emit (seq : BitVec 32) (data : List Byte) {first : Bool} {ack : BitVec 32} {flags : Byte}
      (ha : AckFits first ack flags s.rcvNxt) : Step h s (.emit first seq ack flags data s.rcvNxt) s
  | queue (now seq : BitVec 32) (flags : Byte) (len : Nat) (kept : List Byte) :
      Step h s .queue (queued now seq flags len kept s)
  | advance {n k : Nat} (hc : Carried n k h) :
    Step h s (.advance n k) { s with sndNxt := s.sndNxt + BitVec.ofNat 32 n }
  | heard (now a : BitVec 32) :
    Step h s (.heard a) (if (a - s.sndUna).toInt ≤ 0 then s else acked now a s)
  | flight : Step h s (.flight (s.sndNxt - s.sndUna)) s
  | took (src : BitVec 32) (sport : BitVec 16) {all bytes : List Byte} {n : Nat}
      (hn : all.length = n) (h0 : 0 < n) (hb : bytes = if s.has then [] else all.take 512) :
      Step h s (.took all) (taken src sport bytes n s)
  | echoed {all : List Byte} {n : Nat} (hn : all.length = n) :
      Step h s (.echoed all) { s with rcvNxt := s.rcvNxt + BitVec.ofNat 32 n }
  | fin : Step h s .fin { s with rcvNxt := s.rcvNxt + 1#32, tcpState := .closeWait }
  | gave (n : Nat) (hs : s.has = true) : Step h s (.gave (s.data.take n) n)
      { s with has := false, data := [], data_fits := Nat.zero_le 512 }
  | datagram (bytes : List Byte) (sip : BitVec 32) (sport : BitVec 16) (hs : s.stype ≠ .stream) :
      Step h s .datagram { s with
        data := bytes.take 512, sip := sip, sport := sport, has := true,
        data_fits := List.length_take_le 512 bytes }
  | fired (now : BitVec 32) : Step h s .fired (collapsed now s)
  | aborted : Step h s .aborted { s with qCount := 0, tcpState := .closed, used := false }

/-- The access stays inside the frame or array. -/
def Inside : Access → Prop
  | .read off n lim => off + n ≤ lim
  | .write r off n => off + n ≤ r.size

instance (a : Access) : Decidable (Inside a) :=
  match a with
  | .read off n lim => inferInstanceAs (Decidable (off + n ≤ lim))
  | .write r off n => inferInstanceAs (Decidable (off + n ≤ r.size))

/-- Ports named are `q`, an echo's, none, or taken over; ports drawn come from `next_port`. -/
def PortRule (q : BitVec 16 → Prop) (m m' : Host) (i : Fin 8) : Event → Prop
  | .named port => m'.ports = m.ports ∧
    (q port ∨ port = 0#16 ∨ port = 7#16 ∨ ∃ j, (m.socks j).lport = port)
  | .drew port others => m'.ports = ⟨m.ports.next + 1#16, m.ports.draws + 1⟩ ∧ port = m.ports.next ∧
      others = otherPorts m i
  | _ => m'.ports = m.ports

/-- Socket by socket, events happen; if `b`, every access is inside. -/
inductive Does (b : Prop) (q : BitVec 16 → Prop) : Host → Host → Prop
  | same {m m' : Host} (hs : m'.socks = m.socks) (hh : m'.hist = m.hist) (hp : m'.ports = m.ports)
      (ha : b → ∀ a ∈ m'.accesses, a ∈ m.accesses ∨ Inside a) : Does b q m m'
  | trans {m m1 m2 : Host} (h1 : Does b q m m1) (h2 : Does b q m1 m2) : Does b q m m2
  | event {m m' : Host} {i : Fin 8} {e : Event} {t : Sock} (h : Step (m.hist i) (m.socks i) e t)
      (hs : m'.socks = update m.socks i t) (hh : m'.hist = update m.hist i (e :: m.hist i))
      (ha : m'.accesses = m.accesses) (hp : PortRule q m m' i e) : Does b q m m'

variable {b : Prop} {q : BitVec 16 → Prop} {m m' : Host} {i : Fin 8} {I : List Event → Sock → Prop}
  {g : Segment} {e : Event}

theorem Does.quiet
    (h : (m'.socks, m'.hist, m'.ports, m'.accesses) = (m.socks, m.hist, m.ports, m.accesses)) :
    Does b q m m' := by
  simp only [Prod.mk.injEq] at h
  exact .same h.1 h.2.1 h.2.2.1 fun _ _ hx => .inl (h.2.2.2 ▸ hx)

theorem Does.refl (m : Host) : Does b q m m := .quiet rfl

instance : Std.Refl (Does b q) := ⟨.refl⟩

instance : IsTrans Host (Does b q) := ⟨fun _ _ _ => .trans⟩

/-- What every event keeps for a socket holds for all of them. -/
theorem Does.invariant (hI : ∀ {h e s s'}, Step h s e s' → I h s → I (e :: h) s')
    (h : Does b q m m') (hm : ∀ i, I (m.hist i) (m.socks i)) (i : Fin 8) :
    I (m'.hist i) (m'.socks i) := by
  induction h generalizing i with
  | same hs hh _ _ => exact hs ▸ hh ▸ hm i
  | trans _ _ ih1 ih2 => exact ih2 (fun j => ih1 hm j) i
  | @event m m' j e t h hs hh _ _ =>
    rw [hs, hh]
    by_cases hij : i = j
    · subst hij
      rw [update_self, update_self]
      exact hI h (hm i)
    · rw [update_of_ne hij, update_of_ne hij]
      exact hm i

/-- `n` bytes are recorded as sent, and then more happens. -/
def Sends (b : Prop) (q : BitVec 16 → Prop) (i : Fin 8) (n : Nat) (e : List Byte → Event)
    (m m' : Host) : Prop :=
  ∃ m1 bytes, bytes.length = n ∧ m1.hist i = e bytes :: m.hist i ∧ Does b q m m1 ∧ Does b q m1 m'

theorem Sends.does {n : Nat} {e : List Byte → Event} (h : Sends b q i n e m m') :
    Does b q m m' := by
  obtain ⟨m1, bytes, -, -, h1, h2⟩ := h
  exact h1.trans h2

theorem Does.inside (hb : b) (h : Does b q m m') : ∀ a ∈ m'.accesses, a ∈ m.accesses ∨
    Inside a := by
  induction h with
  | same _ _ _ ha => exact ha hb
  | trans _ _ ih1 ih2 =>
    intro a h
    rcases ih2 a h with h | h
    · exact ih1 a h
    · exact .inr h
  | event _ _ _ ha _ => exact fun a h => .inl (ha ▸ h)

/-- Nothing that was recorded is forgotten. -/
theorem Does.recorded (h : Does b q m m') (i : Fin 8) : ∃ d, m'.hist i = d ++ m.hist i := by
  induction h with
  | same _ hh _ _ => exact ⟨[], congrFun hh i⟩
  | trans _ _ ih1 ih2 =>
    obtain ⟨d1, h1⟩ := ih1
    obtain ⟨d2, h2⟩ := ih2
    exact ⟨d2 ++ d1, by rw [h2, h1, append_assoc]⟩
  | @event m m' j e t _ _ hh _ _ =>
    rw [hh]
    by_cases hij : i = j
    · subst hij
      exact ⟨[e], update_self i _ _⟩
    · exact ⟨[], update_of_ne hij _ _⟩

section

variable {α β : Type} {p : Prog Host α} {f : α → Prog Host β}

theorem keeps_note {a : Access} (h : b → Inside a) : Keeps (Does b q) (note a) := .put fun _ =>
  .same rfl rfl rfl fun hb _ hx => (List.mem_cons.mp hx).elim (fun he => .inr (he ▸ h hb)) .inl

theorem keeps_peek {p : Ptr} {j n : Nat} (h : b → p.off + j + n ≤ p.lim) :
    Keeps (Does b q) (peek p j n) :=
  .bind (keeps_note h) fun _ => .look _

theorem keeps_hlt : Keeps (Does b q) hlt := .put fun _ => .quiet rfl

theorem does_alter {g : Sock → Sock} (h : Step (m.hist i) (m.socks i) e (g (m.socks i)))
    (hp : PortRule q m (alter i e g m).2 i e) : Does b q m (alter i e g m).2 :=
  .event h rfl rfl rfl hp

theorem keeps_alter {g : Sock → Sock} (h : ∀ h s, Step h s e (g s))
    (hp : ∀ m, PortRule q m (alter i e g m).2 i e) :
    Keeps (Does b q) (alter i e g) := fun m => does_alter (h _ _) (hp m)

theorem alter_sock {g : Sock → Sock} {u : Unit} (h : alter i e g m = (some u, m')) :
    m'.socks i = g (m.socks i) := by
  obtain ⟨_, rfl⟩ := h
  exact update_self i _ m.socks

theorem does_record (h : Step (m.hist i) (m.socks i) e (m.socks i))
    (hp : PortRule q m (record i e m).2 i e) : Does b q m (record i e m).2 :=
  .event h (update_eq_self i m.socks).symm rfl rfl hp

end

theorem netSendFrame_keeps (frame : List Byte) : Keeps (Does b q) (netSendFrame frame) := by
  refine .bind (.look _) fun present => ?_
  split
  · exact .pure _
  rename_i h
  simp only [Bool.or_eq_true, decide_eq_true_eq, not_or, not_lt] at h
  exact .bind (keeps_note fun _ => (Nat.zero_add _).trans_le h.2) fun _ => .put fun _ => .quiet rfl

theorem arpSend_keeps (op : BitVec 16) (ip : BitVec 32) (mac : List Byte) :
    Keeps (Does b q) (arpSend op ip mac) :=
  .bind (keeps_note fun _ => by decide) fun _ => .bind (.look _) netSendFrame_keeps

theorem arpHandle_keeps {a : Ptr} {len : Nat} (h : b → a.off + len ≤ a.lim) :
    Keeps (Does b q) (arpHandle a len) := by
  rw [arpHandle]
  split
  · exact .pure _
  have hr : ∀ j n, j + n ≤ 28 → Keeps (Does b q) (peek a j n) :=
    fun j n hj => keeps_peek fun hb => by grind
  refine .bind (hr 14 4 (by decide)) fun _ => .bind (hr 8 6 (by decide)) fun _ =>
    .bind (.put fun m => by rw [arpStore]; split <;> exact .quiet rfl) fun _ =>
      .bind (hr 6 2 (by decide)) fun _ =>
    .bind (.look _) fun myIp => ?_
  split
  · exact .bind (hr 24 4 (by decide)) fun _ => .onlyIf fun _ => arpSend_keeps _ _ _
  · exact .pure _

section

variable {p : Ptr} {len : Nat}

theorem deliver_does (sip : BitVec 32) (sport : BitVec 16) (hp : b → p.off + len ≤ p.lim)
    (h : (m.socks i).stype ≠ .stream) : Does b q m (deliver i sip sport p len m).2 := by
  refine bind_keeps (keeps_peek (fun hb => ?_) m) fun bytes m1 h1 =>
    bind_keeps (keeps_note (fun _ => ?_) m1) fun _ m2 h2 => ?_
  · have := hp hb
    omega
  · exact (Nat.zero_add _).trans_le (Nat.min_le_right _ _)
  · obtain ⟨_, rfl⟩ := h1
    obtain ⟨_, rfl⟩ := h2
    exact does_alter (.datagram _ _ _ h) rfl

theorem udpDeliver_keeps (dport sport : BitVec 16) (sip : BitVec 32)
    (hp : b → p.off + len ≤ p.lim) : Keeps (Does b q) (udpDeliver dport sport sip p len) := by
  refine .each fun i _ m => look_keeps (onlyIf_keeps fun h => deliver_does sip sport hp ?_)
  simp only [Bool.and_eq_true, beq_iff_eq] at h
  rw [h.1.1.1.1.2]
  decide

theorem rawDeliver_keeps (proto sip : BitVec 32) (hp : b → p.off + len ≤ p.lim) :
    Keeps (Does b q) (rawDeliver proto sip p len) := by
  refine .each fun i _ m => look_keeps (onlyIf_keeps fun h => deliver_does sip 0#16 hp ?_)
  simp only [Bool.and_eq_true, beq_iff_eq] at h
  rw [h.1.1.2]
  decide

theorem optionRead_le (code : Byte) (k : Nat) : optionRead code k ≤ k := by
  rw [optionRead]
  split
  · omega
  split
  · omega
  · exact zero_le k

theorem dhcpOptions_keeps (hp : b → p.off + len ≤ p.lim) (n j : Nat) :
    Keeps (Does b q) (dhcpOptions p len n j) := by
  induction n generalizing j with
  | zero => exact .pure _
  | succ n ih =>
    rw [dhcpOptions]
    split
    · rename_i hj
      have hr : ∀ l k, l + k ≤ len → Keeps (Does b q) (peek p l k) :=
        fun l k hl => keeps_peek fun hb => by grind
      refine .bind (hr j 1 (by omega)) fun code => ?_
      split
      · exact ih _
      split
      · exact .pure _
      refine .bind (hr (j + 1) 1 hj) fun olen => ?_
      dsimp only
      split
      · exact .pure _
      have hk := optionRead_le (byteAt code 0) (byteAt olen 0).toNat
      exact .bind (hr _ _ (by omega)) fun v => .bind (.put fun _ => .quiet rfl) fun _ => ih _
    · exact .pure _

theorem dhcpInput_keeps (hp : b → p.off + len ≤ p.lim) : Keeps (Does b q) (dhcpInput p len) := by
  rw [dhcpInput]
  split
  · exact .pure _
  have hr : ∀ l k, l + k ≤ 240 → Keeps (Does b q) (peek p l k) :=
    fun l k hl => keeps_peek fun hb => by grind
  refine .bind (hr 236 4 (by decide)) fun magic => ?_
  split
  · exact .pure _
  exact .bind (hr 16 4 (by decide)) fun _ => .bind (.put fun _ => .quiet rfl) fun _ =>
    .bind (dhcpOptions_keeps hp _ _) fun _ => .put fun _ => .quiet rfl

theorem icmpReply_keeps (src : BitVec 32) (hp : b → p.off + len ≤ p.lim ∧ len ≤ 1562) :
    Keeps (Does b q) (icmpReply p len src) := by
  refine .bind (.look _) fun known => .bind (.onlyIf fun _ => ?_) fun _ =>
    .bind (keeps_note fun hb => ?_) fun _ =>
    .bind (keeps_peek fun hb => (hp hb).1) fun bytes => .bind (.look _) netSendFrame_keeps
  · exact .bind (arpSend_keeps _ _ _) fun _ => .put fun _ => .quiet rfl
  have := (hp hb).2
  simp only [Inside, Region.size]
  omega

end

theorem tcpAck_keeps (i : Fin 8) (a : BitVec 32) : Keeps (Does b q) (tcpAck i a) := by
  intro m
  refine look_keeps ?_
  have hs := Step.heard (h := m.hist i) (s := m.socks i) m.ticks a
  split
  · rename_i hle
    rw [if_pos hle] at hs
    exact does_record hs rfl
  · rename_i hle
    rw [if_neg hle] at hs
    exact look_keeps (does_alter hs rfl)

/-- What is called again from below does nothing else. -/
structure Sound (b : Prop) (q : BitVec 16 → Prop) (lo : Lower) : Prop where
  handle : ∀ {p : Ptr} {n : Nat}, (b → p.off + n ≤ p.lim ∧ n ≤ 1582) →
    Keeps (Does b q) (lo.ipHandle p n)
  poll : Keeps (Does b q) lo.netPoll

section

variable {lo : Lower} (hlo : Sound b q lo)

include hlo

theorem awaitArp_keeps (ip deadline : BitVec 32) (n : Nat) :
    Keeps (Does b q) (awaitArp lo ip deadline n) := by
  induction n with
  | zero => exact .giveUp
  | succ n ih =>
    refine .bind (.look _) fun now => ?_
    split
    · refine .bind keeps_hlt (fun _ => .bind hlo.poll fun _ => .bind (.look _) fun found => ?_)
      split
      · exact .pure _
      · exact ih
    · exact .pure _

theorem arpResolve_keeps (ip : BitVec 32) : Keeps (Does b q) (arpResolve lo ip) := by
  refine .bind (.look _) fun found => ?_
  split
  · exact .pure _
  · exact .bind (arpSend_keeps _ _ _) fun _ => .bind (.look _) fun now => awaitArp_keeps hlo _ _ _

variable {p : Ptr} {len : Nat}

omit hlo in
theorem sendOut_keeps (proto : Byte) (dst : BitVec 32) (mac : List Byte)
    (hp : b → p.off + len ≤ p.lim ∧ len ≤ 1562) :
    Keeps (Does b q) (sendOut proto dst p len mac) := by
  refine .bind (keeps_peek fun hb => (hp hb).1) fun bytes =>
    .bind (keeps_note fun hb => ?_) fun _ => .bind (.look _) fun frame =>
    .bind (netSendFrame_keeps _) fun _ => .pure _
  have := (hp hb).2
  simp only [Inside, Region.size]
  omega

theorem sendLoop_keeps (proto : Byte) (dst : BitVec 32)
    (hp : b → p.off + len ≤ p.lim ∧ len ≤ 1562) :
    Keeps (Does b q) (Stack.sendLoop lo proto dst p len) := by
  refine .bind (keeps_peek fun hb => (hp hb).1) fun bytes =>
    .bind (keeps_note fun hb => ?_) fun _ => .bind (.put fun _ => .quiet rfl) fun _ =>
    .bind (hlo.handle fun hb => ⟨?_, ?_⟩) fun _ => .pure _
  · have := (hp hb).2
    simp only [Inside, Region.size]
    omega
  · exact (Nat.zero_add _).le
  · have := (hp hb).2
    omega

theorem netSendIpRaw_keeps (proto : Byte) (dst : BitVec 32)
    (hp : b → p.off + len ≤ p.lim ∧ len ≤ 1562) :
    Keeps (Does b q) (netSendIpRaw lo proto dst p len) := by
  refine .bind (.look _) fun m => ?_
  split
  · exact .pure _
  split
  · exact sendOut_keeps _ _ _ hp
  split
  · exact sendLoop_keeps hlo _ _ hp
  · exact .bind (arpResolve_keeps hlo _) fun mac => sendOut_keeps _ _ _ hp

theorem tcpEmit_sends {first : Bool} {ack : BitVec 32} {flags : Byte}
    (ha : AckFits first ack flags (m.socks i).rcvNxt)
    (seq : BitVec 32) (hp : b → p.off + len ≤ p.lim) :
    Sends b q i (min len 512) (fun bytes => .emit first seq ack flags bytes (m.socks i).rcvNxt) m
      (tcpEmit lo i first seq ack flags p len m).2 := by
  have hle := min_le_right len 512
  let m1 := ((note (.write .tcpSeg 0 (20 + min len 512))) ((peek p 0 (min len 512)) m).2).2
  have h1 : Does b q m m1 := by
    refine .trans (keeps_peek (fun hb => ?_) m) (keeps_note (fun _ => ?_) _)
    · have := hp hb
      omega
    · simp only [Inside, Region.size]
      omega
  refine ⟨_, _, bytesAt_length m (p.add 0) (min len 512), update_self i _ m.hist, h1.trans ?_,
    Keeps.bind (netSendIpRaw_keeps hlo _ _ fun _ => ⟨(Nat.zero_add _).le, by omega⟩)
    (fun _ => .pure _) _⟩
  exact .event (.emit _ _ ha) (update_eq_self i _).symm rfl rfl rfl

omit hlo in
theorem enqueue_keeps (i : Fin 8) (seq : BitVec 32) (flags : Byte) (hp : b → p.off + len ≤ p.lim) :
    Keeps (Does b q) (enqueue i seq flags p len) := by
  refine .bind (.look _) fun s => ?_
  split
  · exact .pure _
  refine .bind (keeps_peek fun hb => ?_) fun kept => .bind (keeps_note fun _ => ?_) fun _ =>
    .bind (.look _) fun now => keeps_alter (fun _ _ => .queue _ _ _ _ _) fun _ => rfl
  · have := hp hb
    omega
  · exact (Nat.zero_add _).trans_le (Nat.min_le_right _ _)

theorem tcpSendSeg_sends {ack : BitVec 32} {flags : Byte}
    (ha : flagged flags fACK = true → ack = (m.socks i).rcvNxt)
    (seq : BitVec 32) (hp : b → p.off + len ≤ p.lim) :
    Sends b q i (min len 512) (fun bytes => .emit true seq ack flags bytes (m.socks i).rcvNxt) m
      (tcpSendSeg lo i seq ack flags p len m).2 := by
  have ha' : AckFits true ack flags (m.socks i).rcvNxt := fun h => ha h
  obtain ⟨m1, bytes, hl, hh, h1, h2⟩ := tcpEmit_sends hlo ha' seq hp
  refine ⟨m1, bytes, hl, hh, h1, ?_⟩
  rw [tcpSendSeg, bind_apply]
  generalize tcpEmit lo i true seq ack flags p len m = r at h2
  obtain ⟨o, m2⟩ := r
  cases o with
  | none => exact h2
  | some u =>
    dsimp only
    split
    · exact h2
    · exact h2.trans (enqueue_keeps _ _ _ hp m2)

theorem sendAck_keeps (i : Fin 8) : Keeps (Does b q) (sendAck lo i) :=
  fun _ => look_keeps (tcpSendSeg_sends hlo (fun _ => rfl) _ fun _ => le_refl 0).does

theorem sendNext_keeps (i : Fin 8) {flags : Byte} {n : Nat} (hp : b → p.off + len ≤ p.lim)
    (hn : n ≤ 512 → min len 512 + (if flagged flags fFIN then 1 else 0) = n) :
    Keeps (Does b q) (sendNext lo i flags p len n) := by
  intro m
  have ha : flagged flags fACK = true → (m.socks i).rcvNxt = (m.socks i).rcvNxt := fun _ => rfl
  obtain ⟨m1, bytes, hl, hh, h1, h2⟩ := tcpSendSeg_sends hlo ha (m.socks i).sndNxt hp
  refine look_keeps
    (look_keeps (bind_keeps (h1.trans h2) fun _ m2 hm => does_alter (.advance ?_) rfl))
  rw [hm] at h2
  obtain ⟨d, hd⟩ := h2.recorded i
  rw [hh] at hd
  exact ⟨d, m.hist i, _, _, flags, bytes, _, hd, rfl, fun h => (congrArg (· + _) hl).trans (hn h)⟩

theorem tcpTimer_keeps (now : BitVec 32) (i : Fin 8) : Keeps (Does b q) (tcpTimer lo now i) := by
  intro m
  refine look_keeps ?_
  split
  · exact .refl m
  split
  · exact does_alter .aborted rfl
  refine bind_keeps (does_alter (.fired now) rfl) fun _ m1 h1 =>
    (tcpEmit_sends hlo (fun _ => ?_) _ fun _ => (Nat.zero_add _).le).does
  rw [alter_sock h1]
  cases flagged _ fSYN <;> rfl

end

section

variable {lo : Lower} (hlo : Sound b q lo)

include hlo

theorem openWith_keeps (i : Fin 8) (iss rcv : BitVec 32) (st : TcpState) (flags : Byte) :
    Keeps (Does b q) (openWith lo i iss rcv rcv st flags) := by
  refine fun m => bind_keeps (does_alter (.opened _ _ _) rfl) fun _ m1 h1 =>
    (tcpSendSeg_sends hlo (fun _ => ?_) _ fun _ => le_refl 0).does
  rw [alter_sock h1]
  rfl

/-- A new connection takes over its listener's port, or the echo port. -/
theorem tcpAccept_does (g : Segment) : Does b q m (tcpAccept lo g (listenerFor m g.dport) m).2 := by
  refine look_keeps ?_
  split
  · rename_i hc
    cases hi : freeSock m with
    | none => exact .refl m
    | some i =>
    refine bind_keeps (does_alter (.cleared _ _ _ _) rfl) fun _ m1 h1 => bind_keeps
      (does_alter (.named (m1.socks i).bound _ _ _ _) ⟨rfl, .inr (.inr ?_)⟩) fun _ m2 _ =>
      Keeps.bind (.onlyIf fun _ => keeps_alter (fun _ _ => .echo) fun _ => rfl)
        (fun _ => openWith_keeps hlo _ _ _ _ _) m2
    simp only [Bool.and_eq_true, Bool.or_eq_true, beq_iff_eq] at hc
    refine hc.1.1.symm.imp_right fun hl => ?_
    obtain ⟨j, hj⟩ := Option.isSome_iff_exists.mp hl
    have hj := find?_some hj
    have hi := find?_some hi
    simp only [listens, Bool.and_eq_true, beq_iff_eq, Bool.not_eq_true'] at hj hi
    have hji : j ≠ i := by
      rintro rfl
      exact absurd hj.1.1.1 (hi ▸ Bool.false_ne_true)
    obtain ⟨_, rfl⟩ := h1
    exact ⟨j, (congrArg Sock.lport (update_of_ne hji _ m.socks)).trans hj.1.2⟩
  · exact .refl m

omit hlo in
theorem bytesAt_take (m : Host) (p : Ptr) (n : Nat) :
    m.bytesAt (p.add 0) (min n 512) = (m.bytesAt p n).take 512 := by
  rw [Host.bytesAt, Host.bytesAt, ← map_take, take_range, min_comm]
  rfl

theorem tcpTake_keeps (i : Fin 8) (hg : b → g.data.off + g.dlen ≤ g.data.lim) (h0 : 0 < g.dlen) :
    Keeps (Does b q) (tcpTake lo i g) := by
  intro m
  refine look_keeps (look_keeps ?_)
  have hlen := bytesAt_length m g.data g.dlen
  split
  · exact Keeps.bind (sendNext_keeps hlo _ hg fun hle => min_eq_left hle)
      (fun _ => keeps_alter (fun _ _ => .echoed hlen) fun _ => rfl) m
  refine bind_keeps (keeps_peek (fun hb => ?_) m) fun bytes m1 h1 =>
    bind_keeps (keeps_note (fun _ => ?_) m1) fun _ m2 h2 => ?_
  · have := hg hb
    split <;> omega
  · split
    · exact zero_le _
    · exact (Nat.zero_add _).trans_le (Nat.min_le_right _ _)
  · obtain ⟨_, rfl⟩ := h1
    obtain ⟨_, rfl⟩ := h2
    refine does_alter (.took _ _ hlen h0 ?_) rfl
    split
    · rfl
    · exact bytesAt_take m g.data g.dlen

theorem tcpData_keeps (i : Fin 8) (hg : b → g.data.off + g.dlen ≤ g.data.lim) :
    Keeps (Does b q) (tcpData lo i g) := by
  refine .bind (.look _) fun _ => .onlyIf fun hc =>
    .bind (.onlyIf fun _ => tcpTake_keeps hlo i hg ?_) fun _ =>
    sendAck_keeps hlo i
  exact of_decide_eq_true (Bool.and_eq_true_iff.mp hc).2

theorem tcpFinish_keeps (i : Fin 8) (g : Segment) : Keeps (Does b q) (tcpFinish lo i g) :=
  .bind (.look _) fun _ => .onlyIf fun _ => .bind (keeps_alter (fun _ _ => .fin) fun _ => rfl)
    fun _ => sendAck_keeps hlo i

theorem tcpReceive_keeps (i : Fin 8) (hg : b → g.data.off + g.dlen ≤ g.data.lim) :
    Keeps (Does b q) (tcpReceive lo i g) := by
  rw [tcpReceive]
  split
  · exact keeps_alter (fun _ s => .other _ s.bound s.connected s.rport s.rip s.tcpState s.parent)
      fun _ => rfl
  refine .bind (.onlyIf fun _ => tcpAck_keeps i _) fun _ => .bind (.look _) fun s => ?_
  split
  · exact .onlyIf fun _ => .bind (keeps_alter (fun _ _ => .sync _) fun _ => rfl) fun _ =>
      sendAck_keeps hlo i
  refine .bind (.onlyIf fun _ => keeps_alter (fun _ s =>
    .other s.used s.bound s.connected s.rport s.rip _ s.parent) fun _ => rfl) fun _ => ?_
  exact .bind (tcpData_keeps hlo i hg) fun _ => tcpFinish_keeps hlo i g

variable {p : Ptr} {len : Nat}

theorem tcpInput_keeps (src : BitVec 32) (hp : b → p.off + len ≤ p.lim) :
    Keeps (Does b q) (tcpInput lo src p len) := by
  rw [tcpInput]
  split
  · exact .pure _
  have hr : ∀ j n, j + n ≤ 20 → Keeps (Does b q) (peek p j n) :=
    fun j n hj => keeps_peek fun hb => by grind
  refine .bind (hr 0 2 (by decide)) fun sport => .bind (hr 2 2 (by decide)) fun dport =>
    .bind (hr 4 4 (by decide)) fun seq => .bind (hr 8 4 (by decide)) fun ack =>
    .bind (hr 12 1 (by decide)) fun word => ?_
  dsimp only
  split
  · exact .pure _
  refine .bind (hr 13 1 (by decide)) fun flags m => look_keeps (look_keeps ?_)
  generalize tcpFind m src _ _ = found
  cases found with
  | some i =>
    refine tcpReceive_keeps hlo i (fun hb => ?_) m
    have := hp hb
    simp only [Ptr.add]
    omega
  | none => exact tcpAccept_does hlo _

theorem ipPayload_keeps (proto : Byte) (src : BitVec 32)
    (hp : b → p.off + len ≤ p.lim ∧ len ≤ 1562) :
    Keeps (Does b q) (ipPayload lo proto src p len) := by
  have hr : 8 ≤ len → ∀ j n, j + n ≤ 8 → Keeps (Does b q) (peek p j n) :=
    fun _ j n hj => keeps_peek fun hb => by grind
  have hp1 := fun hb => (hp hb).1
  rw [ipPayload]
  split
  · split
    · exact .pure _
    refine .bind (hr (by omega) 0 1 (by decide)) fun kind => ?_
    split
    · exact icmpReply_keeps src hp
    · exact rawDeliver_keeps _ src hp1
  split
  · split
    · exact .pure _
    refine .bind (hr (by omega) 0 2 (by decide)) fun sport =>
      .bind (hr (by omega) 2 2 (by decide)) fun dport =>
      .bind (hr (by omega) 4 2 (by decide)) fun word => ?_
    split
    · exact .pure _
    have hu : b → (p.add 8).off + (min (be16 word).toNat len - 8) ≤ (p.add 8).lim := by
      intro hb
      have := hp1 hb
      simp only [Ptr.add]
      omega
    split
    · exact dhcpInput_keeps hu
    · exact udpDeliver_keeps _ _ src hu
  · split
    · exact tcpInput_keeps hlo src hp1
    · exact rawDeliver_keeps _ src hp1

theorem ipHandle_keeps (hp : b → p.off + len ≤ p.lim ∧ len ≤ 1582) :
    Keeps (Does b q) (ipHandle lo p len) := by
  rw [ipHandle]
  split
  · exact .pure _
  have hr : ∀ j n, j + n ≤ 20 → Keeps (Does b q) (peek p j n) :=
    fun j n hj => keeps_peek fun hb => by grind
  refine .bind (hr 0 1 (by decide)) fun first => ?_
  dsimp only
  split
  · exact .pure _
  refine .bind (hr 2 2 (by decide)) fun word => .bind (hr 16 4 (by decide)) fun dst =>
    .bind (.look _) fun myIp => ?_
  split
  · exact .pure _
  refine .bind (hr 9 1 (by decide)) fun proto => .bind (hr 12 4 (by decide)) fun src => ?_
  refine ipPayload_keeps hlo _ _ fun hb => ?_
  have := hp hb
  simp only [Ptr.add]
  omega

theorem receiveFrame_keeps (f : Frame) : Keeps (Does b q) (receiveFrame lo f) := by
  have hf := f.short
  refine .bind (keeps_note fun _ => ?_) fun _ => .bind (.put fun _ => .quiet rfl) fun _ => ?_
  · simp only [Inside, Region.size]
    omega
  rw [netHandleFrame]
  split
  · exact .pure _
  refine .bind (keeps_peek fun _ => ?_) fun kind => ?_
  · dsimp only
    omega
  split
  · refine arpHandle_keeps (fun _ => ?_)
    simp only [Ptr.add]
    omega
  · split
    · refine ipHandle_keeps hlo (fun _ => ?_)
      simp only [Ptr.add]
      omega
    · exact .pure _

theorem netPoll_keeps : Keeps (Does b q) (netPoll lo) :=
  .bind (.look _) fun _ => .onlyIf fun _ => .bind (.look _) fun _ => .bind
    (.put fun _ => .quiet rfl) (fun _ => .bind (.each fun f _ => receiveFrame_keeps hlo f) fun _ =>
    .bind (.look _) fun now => .each fun i _ => tcpTimer_keeps hlo now i)

end

theorem lower_sound (n : Nat) : Sound b q (lower n) := by
  induction n with
  | zero => exact ⟨fun _ => .giveUp, .giveUp⟩
  | succ n ih => exact ⟨fun hp => ipHandle_keeps ih hp, netPoll_keeps ih⟩

/-- Whatever frames come in, and however deep the calls of the network code nest,
a poll reads inside the frames and writes inside its arrays. -/
theorem poll_accesses_inside (n : Nat) (m : Host) :
    ∀ a ∈ (netPoll (lower n) { m with accesses := [] }).2.accesses, Inside a := by
  intro a ha
  have h : Does True (fun _ => False) { m with accesses := [] } _ := netPoll_keeps (lower_sound n) _
  rcases h.inside trivial a ha with ha | ha
  · cases ha
  · exact ha

section

variable {lo : Lower} (hlo : Sound False q lo)

theorem onSocket_keeps {id : Nat} {f : Fin 8 → Prog Host Reply} (hf : ∀ i, Keeps (Does b q) (f i)) :
    Keeps (Does b q) (onSocket id f) := by
  refine .bind (.look _) fun found => ?_
  split
  · exact .pure _
  · exact hf _

theorem netSocket_keeps (t : SockType) (proto : BitVec 32) :
    Keeps (Does b q) (netSocket t proto) := by
  refine .bind (.look _) fun m => ?_
  split
  · exact .pure _
  split
  · exact .pure _
  split
  · exact .pure _
  split
  · exact .pure _
  · exact .bind (keeps_alter (fun _ _ => .cleared _ _ _ _) fun _ => rfl) fun _ => .pure _

theorem drawPort_keeps (i : Fin 8) : Keeps (Does b q) (drawPort i) :=
  fun _ => .event (.drew _ _) rfl rfl rfl ⟨rfl, rfl, rfl⟩

theorem bindTo_keeps (i : Fin 8) {port : BitVec 16} (hq : q port ∨ port = 0#16) :
    Keeps (Does b q) (bindTo i port) :=
  keeps_alter (fun _ s => .named true port s.rport s.rip s.parent) fun _ => ⟨rfl, hq.imp_right .inl⟩

theorem netBind_keeps (id : Nat) {port : BitVec 16} (hq : q port) :
    Keeps (Does b q) (netBind id port) := by
  refine onSocket_keeps fun i => ?_
  split
  · exact .bind (drawPort_keeps i) fun _ => .pure _
  · exact .bind (bindTo_keeps i (.inl hq)) fun _ => .pure _

theorem autoBind_keeps (i : Fin 8) (raw : Bool) : Keeps (Does b q) (autoBind i raw) := by
  refine .bind (.look _) fun s => .onlyIf fun _ => ?_
  split
  · exact bindTo_keeps i (.inr rfl)
  · exact drawPort_keeps i

theorem netListen_keeps (id : Nat) : Keeps (Does b q) (netListen id) := by
  refine onSocket_keeps fun i => .bind (.look _) fun s => ?_
  split
  · exact .pure _
  exact .bind (autoBind_keeps i false) fun _ => .bind (keeps_alter (fun _ s =>
    .other s.used s.bound s.connected s.rport s.rip _ s.parent) fun _ => rfl) fun _ => .pure _

include hlo

theorem awaitOpen_keeps (i : Fin 8) (n : Nat) : Keeps (Does False q) (awaitOpen lo i n) := by
  induction n with
  | zero => exact .bind (.look _) fun _ => .pure _
  | succ n ih =>
    refine .bind (.look _) fun s => ?_
    split
    · exact .pure _
    split
    · exact .pure _
    · exact .bind (netPoll_keeps hlo) fun _ => .bind keeps_hlt fun _ => ih

theorem netConnect_keeps (id : Nat) (ip : BitVec 32) (port : BitVec 16) :
    Keeps (Does False q) (netConnect lo id ip port) := by
  refine onSocket_keeps fun i => .bind (keeps_alter (fun _ s =>
    .other s.used s.bound true port ip s.tcpState s.parent) fun _ => rfl) fun _ =>
    .bind (autoBind_keeps i false) fun _ => .bind (.look _) fun s => ?_
  split
  · exact .pure _
  · exact .bind (openWith_keeps hlo i _ _ _ _) fun _ => awaitOpen_keeps hlo i 1000

theorem sendLoop_calls_keeps (i : Fin 8) (data : List Byte) (n sent guard : Nat) :
    Keeps (Does False q) (Calls.sendLoop lo i data n sent guard) := by
  induction n generalizing sent guard with
  | zero => exact .giveUp
  | succ n ih =>
    rw [Calls.sendLoop]
    split
    · refine fun m => look_keeps (bind_keeps ?_ fun _ m1 _ => ?_)
      · exact does_record .flight rfl
      generalize (if (m.socks i).cwnd = 0 then tcpMss else (m.socks i).cwnd) = window
      split
      · refine Keeps.bind (netPoll_keeps hlo) (fun _ => .bind (.look _) fun t => ?_) m1
        split
        · exact .pure _
        split
        · exact .pure _
        · exact .bind keeps_hlt fun _ => ih _ _
      · exact Keeps.bind (sendNext_keeps hlo i False.elim fun hle => min_eq_left hle) (fun _ => ih _ _) m1
    · exact .pure _

theorem netSendto_keeps (id : Nat) (data : List Byte) (ip : BitVec 32) (port : BitVec 16) :
    Keeps (Does False q) (netSendto lo id data ip port) := by
  refine onSocket_keeps fun i => .bind (.look _) fun present => ?_
  split
  · exact .pure _
  refine .bind (autoBind_keeps i true) fun _ => .bind (.look _) fun s => ?_
  split
  · refine .bind (.look _) (fun t => ?_)
    split
    · exact .pure _
    · exact sendLoop_calls_keeps hlo i data _ _ _
  · refine .bind ?_ (fun ok => .pure _)
    rw [netSendIp]
    split
    · exact netSendIpRaw_keeps hlo _ _ False.elim
    · exact netSendIpRaw_keeps hlo _ _ False.elim

theorem awaitData_keeps (i : Fin 8) (maxlen n : Nat) :
    Keeps (Does False q) (awaitData lo i maxlen n) := by
  induction n with
  | zero => exact .pure _
  | succ n ih =>
    refine .bind (netPoll_keeps hlo) fun _ m => look_keeps ?_
    split
    · rename_i hs
      exact bind_keeps (does_alter (.gave maxlen hs) rfl) fun _ _ _ => .refl _
    · split
      · exact .refl m
      · exact Keeps.bind keeps_hlt (fun _ => ih) m

theorem netRecvfrom_keeps (id maxlen : Nat) : Keeps (Does False q) (netRecvfrom lo id maxlen) := by
  refine onSocket_keeps fun i => .bind (.look _) fun present => ?_
  split
  · exact .pure _
  · exact awaitData_keeps hlo i maxlen 300

theorem netClose_keeps (id : Nat) : Keeps (Does False q) (netClose lo id) :=
  onSocket_keeps fun i => .bind (.look _) fun _ =>
    .bind (.onlyIf fun _ => sendNext_keeps hlo i False.elim fun _ => rfl)
    (fun _ => .bind (keeps_alter (fun _ _ => .cleared false .none 0#32 (some 0)) fun _ => rfl)
      fun _ => .pure _)

theorem awaitChild_keeps (id : Fin 8) (n : Nat) : Keeps (Does False q) (awaitChild lo id n) := by
  induction n with
  | zero => exact .pure _
  | succ n ih =>
    refine .bind (netPoll_keeps hlo) fun _ => .bind (.look _) fun child => ?_
    split
    · exact .bind (keeps_alter (fun _ s =>
        .other s.used s.bound s.connected s.rport s.rip s.tcpState none) fun _ => rfl) fun _ => .pure _
    · exact .bind keeps_hlt fun _ => ih

theorem exec_keeps {c : Call} (hq : ∀ id port, c = .bind id port → q port) :
    Keeps (Does False q) (exec lo c) := by
  cases c with
  | socket t proto => exact netSocket_keeps t proto
  | bind id port => exact netBind_keeps id (hq id port rfl)
  | connect id ip port => exact netConnect_keeps hlo id ip port
  | sendto id data ip port => exact netSendto_keeps hlo id data ip port
  | recvfrom id maxlen => exact netRecvfrom_keeps hlo id maxlen
  | close id => exact netClose_keeps hlo id
  | listen id => exact netListen_keeps id
  | accept id =>
    refine onSocket_keeps fun i => .bind (.look _) fun s => ?_
    split
    · exact .pure _
    · exact awaitChild_keeps hlo i 300

end

theorem perform_does (m : Host) {a : Act} (hq : ∀ id port, a.call = .bind id port → q port) :
    Does False q m (perform m a).2 :=
  have h : Does False q m { m with rx := a.rx, naps := a.naps } := .quiet rfl
  h.trans (exec_keeps (lower_sound a.depth) hq _)

/-- What every event keeps for a socket holds in every run. -/
theorem history_invariant (h0 : I [] blank)
    (hI : ∀ {h e s s'}, Step h s e s' → I h s → I (e :: h) s') {acts : List Act} (hm : Started m)
    (h : run step m acts = some m') (i : Fin 8) : I (m'.hist i) (m'.socks i) := by
  refine run_invariant (I := fun m => ∀ i, I (m.hist i) (m.socks i)) ?_ ?_ h i
  · intro m a m1 hm h
    obtain ⟨r, -, rfl⟩ := Option.map_eq_some_iff.mp h
    exact (perform_does (q := fun _ => True) m fun _ _ _ => trivial).invariant hI hm
  · intro i
    rw [hm.hist i, hm.socks i]
    exact h0

end MuOS.Net.Effects
