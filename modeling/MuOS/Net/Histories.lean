import MuOS.Net.Effects

namespace MuOS.Net.Histories

open Function Lib.Programs Lib.Runs Wire Sockets Stack Calls Effects List Bool Nat

variable {m m' : Host} {acts : List Act} {i : Fin 8} {h : List Event} {s s' : Sock} {e : Event}
  {d : List Event}

theorem retire_eq (a : BitVec 32) (n : Nat) (s : Sock) :
    ∃ qh qc qr, retire a n s = { s with qHead := qh, qCount := qc, qRetries := qr } := by
  induction n generalizing s with
  | zero => exact ⟨_, _, _, rfl⟩
  | succ n ih =>
    rw [retire]
    split
    · obtain ⟨qh, qc, qr, he⟩ :=
        ih { s with qHead := (s.qHead + 1) % txqMax, qCount := s.qCount - 1, qRetries := 0 }
      exact ⟨qh, qc, qr, he⟩
    · exact ⟨_, _, _, rfl⟩

theorem acked_eq (now a : BitVec 32) (s : Sock) : ∃ qh qc qr rto dl cw, acked now a s = { s with
    sndUna := a, qHead := qh, qCount := qc, qRetries := qr, rto := rto, qDeadline := dl, cwnd := cw } := by
  obtain ⟨qh, qc, qr, he⟩ := retire_eq a s.qCount { s with sndUna := a }
  rw [acked, he, rearmed]
  split
  · exact ⟨qh, qc, qr, _, _, _, rfl⟩
  · exact ⟨qh, qc, qr, _, _, _, rfl⟩

theorem queued_eq (now seq : BitVec 32) (flags : Byte) (len : Nat) (kept : List Byte) (s : Sock) :
    ∃ q qr rto dl, queued now seq flags len kept s =
      { s with txq := q, qCount := s.qCount + 1, qRetries := qr, rto := rto, qDeadline := dl } := by
  rw [queued]
  split
  · exact ⟨_, _, _, _, rfl⟩
  · exact ⟨_, _, _, _, rfl⟩

def peerIp : BitVec 32 := 0x0202000A#32

def peerMac : List Byte := List.replicate 6 0x52#8

/-- A machine with one neighbour, after `net_init`. -/
def host : Host where
  present := true
  mac := List.replicate 6 0x54#8
  myIp := 0x0F02000A#32
  myMask := 0x00FFFFFF#32
  gateway := peerIp
  arp := fun _ => ⟨peerIp, peerMac, true⟩
  socks := fun _ => blank
  ports := ⟨40000#16, 0⟩
  dhcp := ⟨false, 0#8, 0#32, 0#32, 0#32, 0#32, 0#32⟩
  ticks := 0#32
  rxFrame := fun _ => 0#8
  loopFrame := fun _ => 0#8
  tcpSeg := fun _ => 0#8
  rx := []
  naps := []
  hist := fun _ => []
  accesses := []
  sent := []

theorem host_started : Started host := ⟨fun _ => rfl, fun _ => rfl⟩

def arrives (seq ack : BitVec 32) (flags : Byte) (data : List Byte) : Frame :=
  ⟨(ethHeader host.mac peerMac 0x0800#16 ++ ipHeader 0#16 6#8 peerIp host.myIp (40 + data.length) ++
    tcpSegment peerIp host.myIp 80#16 40000#16 seq ack flags data).take 1596,
    List.length_take_le _ _⟩

def incoming : Host := { host with rx := [[arrives 0#32 0#32 0#8 []]] }

theorem poll_accesses_sample :
    ∃ a ∈ (netPoll (lower 0) { incoming with accesses := [] }).2.accesses, Inside a := by
  obtain ⟨a, ha⟩ :=
    exists_mem_of_ne_nil (netPoll (lower 0) { incoming with accesses := [] }).2.accesses
      (by decide +kernel)
  exact ⟨a, ha, poll_accesses_inside 0 incoming a ha⟩

def reads (frames : List Frame) : List Act :=
  [⟨.socket .stream 0#32, [], [], 0⟩,
    ⟨.connect 0 peerIp 80#16, [[arrives 999#32 0x10000001#32 (fSYN ||| fACK) []]], [], 0⟩,
    ⟨.recvfrom 0 512, [frames], [], 0⟩]

/-- What `net_recvfrom` returned since the socket was made. -/
def returned : List Event → List Byte
  | [] => []
  | .cleared :: _ => []
  | .gave data _ :: h => returned h ++ data
  | _ :: h => returned h

/-- The bytes that wait for a reader: at most 512 of the first segment since the last read. -/
def held : List Event → Nat
  | [] => 0
  | .cleared :: _ => 0
  | .took data :: h => if held h = 0 then min data.length 512 else held h
  | .gave _ _ :: _ => 0
  | _ :: h => held h

def nxtOf : List Event → BitVec 32
  | [] => 0#32
  | .cleared :: _ => 0#32
  | .opened iss _ :: _ => iss + 1#32
  | .advance n _ :: h => nxtOf h + BitVec.ofNat 32 n
  | _ :: h => nxtOf h

/-- The latest number acknowledged, of all acknowledgements that came. -/
def unaOf : List Event → BitVec 32
  | [] => 0#32
  | .cleared :: _ => 0#32
  | .opened iss _ :: _ => iss
  | .heard a :: h => if (a - unaOf h).toInt ≤ 0 then unaOf h else a
  | _ :: h => unaOf h

/-- The connection's first sequence number. -/
def issOf : List Event → BitVec 32
  | [] => 0#32
  | .cleared :: _ => 0#32
  | .opened iss _ :: _ => iss
  | _ :: h => issOf h

/-- Sequence numbers sent for a first time, `SYN` apart. -/
def sentOf : List Event → Nat
  | [] => 0
  | .cleared :: _ => 0
  | .opened _ _ :: _ => 1
  | .emit true _ _ flags data _ :: h => sentOf h + spanOf flags data
  | _ :: h => sentOf h

/-- The sequence numbers acknowledged on this connection. -/
def ackedOf (h : List Event) : Nat := (unaOf h - issOf h).toNat

/-- How far `snd_nxt` moved on this connection. -/
def movedOf : List Event → Nat
  | [] => 0
  | .cleared :: _ => 0
  | .opened _ _ :: _ => 1
  | .advance n _ :: h => movedOf h + n
  | _ :: h => movedOf h

/-- The socket is opened, cleared, or moves `snd_nxt`. -/
def turns : Event → Bool
  | .cleared => true
  | .opened _ _ => true
  | .advance _ _ => true
  | _ => false

def calmSince (k : Nat) (h : List Event) : Bool := (h.take (h.length - k)).all (fun e => !turns e)

/-- No number past those sent is acknowledged, no other segment moves `snd_nxt` before one that was
sent has, and those have at most 512 numbers each and less than half the numbers together. -/
def fair : List Event → Bool
  | [] => true
  | .heard a :: h => (a - issOf h).toNat ≤ movedOf h && fair h
  | .advance n k :: h => n ≤ 512 && calmSince k h && movedOf h + n < 2147483648 && fair h
  | _ :: h => fair h

def Told : List Event → Prop
  | [] => True
  | .advance n k :: h => Carried n k h ∧ Told h
  | .flight n :: h => n = nxtOf h - unaOf h ∧ Told h
  | _ :: h => Told h

theorem told_step (hs : Step h s e s') (h0 : s.sndNxt = nxtOf h ∧ s.sndUna = unaOf h ∧ Told h) :
    s'.sndNxt = nxtOf (e :: h) ∧ s'.sndUna = unaOf (e :: h) ∧ Told (e :: h) := by
  obtain ⟨hn, hu, ht⟩ := h0
  cases hs with
  | cleared | opened => exact ⟨rfl, rfl, ht⟩
  | queue now seq flags len kept =>
    obtain ⟨q, qr, rto, dl, hq⟩ := queued_eq now seq flags len kept s
    rw [hq]
    exact ⟨hn, hu, ht⟩
  | advance hc => exact ⟨congrArg (· + _) hn, hu, hc, ht⟩
  | heard now a =>
    obtain ⟨qh, qc, qr, rto, dl, cw, ha⟩ := acked_eq now a s
    rw [ha, unaOf, ← hu]
    split
    · exact ⟨hn, rfl, ht⟩
    · exact ⟨hn, rfl, ht⟩
  | flight => exact ⟨hn, hu, by rw [hn, hu], ht⟩
  | took src sport hn hpos hb =>
    rw [taken]
    split
    · exact ⟨‹_›, hu, ht⟩
    · exact ⟨‹_›, hu, ht⟩
  | _ => exact ⟨hn, hu, ht⟩

theorem still_of_no_turns (hd : ∀ e ∈ d, turns e = false) : movedOf (d ++ h) = movedOf h ∧
    sentOf h ≤ sentOf (d ++ h) := by
  induction d with
  | nil => exact ⟨rfl, le_refl _⟩
  | cons e d ih =>
    have he := hd e mem_cons_self
    obtain ⟨h1, h2⟩ := ih fun x hx => hd x (mem_cons_of_mem _ hx)
    cases e with
    | emit first seq ack flags data rcv =>
      cases first with
      | false => exact ⟨h1, h2⟩
      | true => exact ⟨h1, le_add_right_of_le h2⟩
    | cleared | opened | advance => cases he
    | _ => exact ⟨h1, h2⟩

theorem Told.tail (ht : Told (e :: h)) : Told h := by
  cases e with
  | advance | flight => exact ht.2
  | _ => exact ht

theorem Told.suffix (ht : Told (d ++ h)) : Told h := by
  induction d with
  | nil => exact ht
  | cons e d ih => exact ih ht.tail

theorem fair_suffix (hf : fair (d ++ h) = true) : fair h = true := by
  induction d with
  | nil => exact hf
  | cons e d ih =>
    refine ih ?_
    cases e with
    | heard | advance => exact (and_eq_true_iff.mp hf).2
    | _ => exact hf

theorem moved_le_sent (ht : Told h) (hf : fair h = true) : movedOf h ≤ sentOf h := by
  induction hn : h.length using Nat.strong_induction_on generalizing h with
  | _ n ih =>
    subst hn
    cases h with
    | nil => exact le_refl 0
    | cons e t =>
      have hrest : movedOf t ≤ sentOf t := ih _ (lt_succ_self _) ht.tail (fair_suffix (d := [e]) hf) rfl
      cases e with
      | cleared => exact le_refl 0
      | opened iss rcv => exact le_refl 1
      | emit first seq ack flags data rcv =>
        cases first with
        | false => exact hrest
        | true => exact le_add_right_of_le hrest
      | advance n k =>
        -- the numbers moved over were sent since a moment at which no more had been moved over than
        -- sent
        obtain ⟨⟨d, u, seq, ack, flags, data, rcv, rfl, rfl, hspan⟩, htt⟩ := ht
        simp only [fair, and_eq_true, decide_eq_true_eq] at hf
        have hd : ∀ e ∈ d, turns e = false := by
          intro e he
          have hall := all_eq_true.mp hf.1.1.2 e
          rw [not_eq_true'] at hall
          refine hall ?_
          rw [length_append, length_cons, take_append]
          exact mem_append_left _ (by rwa [take_of_length_le (by omega)])
        obtain ⟨hm, hs⟩ := still_of_no_turns (h := .emit true seq ack flags data rcv :: u) hd
        have hu : movedOf u ≤ sentOf u := by
          refine ih _ ?_ htt.suffix.tail (fair_suffix (d := d ++ [_]) (by simpa using hf.2)) rfl
          simp only [length_cons, length_append]
          omega
        have hspan := hspan hf.1.1.1
        simp only [movedOf, sentOf] at hm hs ⊢
        omega
      | _ => exact hrest

/-- `snd_una` lies between the first number and `snd_nxt`. -/
theorem window_of_fair (hf : fair h = true) : movedOf h < 2147483648 ∧
    nxtOf h = issOf h + BitVec.ofNat 32 (movedOf h) ∧ ackedOf h ≤ movedOf h := by
  induction h with
  | nil => decide
  | cons e t ih =>
    obtain ⟨hlt, hn, ha⟩ := ih (fair_suffix (d := [e]) hf)
    cases e with
    | cleared | opened => simp [movedOf, nxtOf, ackedOf, unaOf, issOf]
    | heard a =>
      simp only [fair, and_eq_true, decide_eq_true_eq] at hf
      refine ⟨hlt, hn, ?_⟩
      rw [ackedOf, unaOf]
      split
      · exact ha
      · exact hf.1
    | advance n k =>
      simp only [fair, and_eq_true, decide_eq_true_eq] at hf
      refine ⟨hf.1.2, ?_, le_add_right_of_le ha⟩
      rw [nxtOf, hn, movedOf, BitVec.ofNat_add, BitVec.add_assoc]
      rfl
    | _ => exact ⟨hlt, hn, ha⟩

theorem flight_of_fair (hf : fair h = true) :
    (nxtOf h - unaOf h).toNat + ackedOf h = movedOf h := by
  obtain ⟨hlt, hn, ha⟩ := window_of_fair hf
  rw [hn]
  rw [ackedOf] at ha ⊢
  bv_omega

/-- While the events of a socket are fair, `snd_una` never passes `snd_nxt`, and the bytes in flight
it computes are no more than those sent and not acknowledged. -/
theorem window_kept (hm : Started m) (hr : run step m acts = some m') (i : Fin 8)
    (hf : fair (m'.hist i) = true) : (m'.socks i).sndNxt = nxtOf (m'.hist i) ∧
      (m'.socks i).sndUna = unaOf (m'.hist i) ∧ ∀ d h, m'.hist i = d ++ h → 0 ≤ (nxtOf h - unaOf h).toInt ∧
        ∀ n u, h = .flight n :: u → n.toNat + ackedOf u ≤ sentOf u := by
  obtain ⟨hn, hu, ht⟩ := history_invariant ⟨rfl, rfl, trivial⟩ told_step hm hr i
  refine ⟨hn, hu, fun d h hd => ?_⟩
  rw [hd] at ht hf
  have hf := fair_suffix hf
  refine ⟨?_, fun n u hh => ?_⟩
  · have hlt := (window_of_fair hf).1
    have hsum := flight_of_fair hf
    rw [BitVec.toInt_eq_toNat_of_lt (by omega)]
    exact Int.natCast_nonneg _
  subst hh
  obtain ⟨hflight, htu⟩ := ht.suffix
  have hfu : fair u = true := fair_suffix (d := [.flight n]) hf
  have h1 := flight_of_fair hfu
  have h2 := moved_le_sent htu hfu
  rw [hflight]
  omega

/-- A byte is sent, and acknowledged while another comes. -/
def sends : List Act :=
  [⟨.socket .stream 0#32, [], [], 0⟩,
    ⟨.connect 0 peerIp 80#16, [[arrives 999#32 0x10000001#32 (fSYN ||| fACK) []]], [], 0⟩,
    ⟨.sendto 0 [5#8] peerIp 80#16, [], [], 0⟩,
    ⟨.recvfrom 0 512, [[arrives 1000#32 0x10000002#32 fACK [7#8]]], [], 0⟩]

theorem window_kept_sending : ∃ m, run step host sends = some m ∧ fair (m.hist 0) = true ∧
    ackedOf (m.hist 0) = 2 ∧ 0 ≤ (nxtOf (m.hist 0) - unaOf (m.hist 0)).toInt := by
  obtain ⟨m, hm, hf, ha⟩ : ∃ m, run step host sends = some m ∧ fair (m.hist 0) = true ∧
    ackedOf (m.hist 0) = 2 := by
    decide +kernel
  exact ⟨m, hm, hf, ha, ((window_kept host_started hm 0 hf).2.2 [] _ rfl).1⟩

/-- An acknowledgement of numbers that were never sent is taken. -/
theorem una_passes_nxt : Started host ∧
    ∃ m, run step host (reads [arrives 1000#32 0x10000006#32 fACK [7#8]]) = some m ∧
    ((m.socks 0).sndNxt - (m.socks 0).sndUna).toInt = -5 := ⟨host_started, by decide +kernel⟩

end MuOS.Net.Histories
