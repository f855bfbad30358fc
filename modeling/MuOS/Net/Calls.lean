import MuOS.Lib.Runs
import MuOS.Net.Stack

namespace MuOS.Net.Calls

open Function Lib.Programs Wire Sockets Stack

def eAGAIN : Int := -11

structure Reply where
  rc : Int
  bytes : List Byte
deriving DecidableEq

def answer (rc : Int) : Reply := ⟨rc, []⟩

/-- `net_socket_ok`. -/
def sockOk (m : Host) (id : Nat) : Option (Fin 8) :=
  if h : id < 8 then if (m.socks ⟨id, h⟩).used then some ⟨id, h⟩ else none else none

def onSocket (id : Nat) (f : Fin 8 → Prog Host Reply) : Prog Host Reply := do
  let found ← look (fun m => sockOk m id)
  match found with
  | none => pure (answer (-1))
  | some i => f i

/-- The local ports of the other sockets in use. -/
def otherPorts (m : Host) (i : Fin 8) : List (BitVec 16) :=
  ((List.finRange 8).filter (fun j => j ≠ i && (m.socks j).used)).map (fun j => (m.socks j).lport)

/-- Take `next_port` for the socket and move it on. -/
def drawPort (i : Fin 8) : Prog Host Unit := put (fun m => { m with
  ports := ⟨m.ports.next + 1#16, m.ports.draws + 1⟩
  socks := update m.socks i { m.socks i with lport := m.ports.next, bound := true }
  hist := update m.hist i (.drew m.ports.next (otherPorts m i) :: m.hist i) })

def bindTo (i : Fin 8) (port : BitVec 16) : Prog Host Unit :=
  alter i (.named port) (fun s => { s with lport := port, bound := true })

def netSocket (t : SockType) (proto : BitVec 32) : Prog Host Reply := do
  let m ← look id
  if !m.present then pure (answer (-1))
  else if t = .none then pure (answer (-2))
  else if t = .raw ∧ proto = 0#32 then pure (answer (-2))
  else
    match freeSock m with
    | none => pure (answer (-1))
    | some i => do
      let chosen := if proto ≠ 0#32 then proto
        else if t = .dgram then 17#32 else if t = .stream then 6#32 else 1#32
      alter i .cleared (fun _ => { blank with used := true, stype := t, proto := chosen, parent := none })
      pure (answer i.val)

def netBind (id : Nat) (port : BitVec 16) : Prog Host Reply := onSocket id (fun i => do
  if port = 0#16 then drawPort i else bindTo i port
  pure (answer 0))

def autoBind (i : Fin 8) (raw : Bool) : Prog Host Unit := do
  let s ← sock i
  onlyIf (!s.bound) (if raw && s.stype == .raw then bindTo i 0#16 else drawPort i)

variable (lo : Lower)

def awaitOpen (i : Fin 8) : Nat → Prog Host Reply
  | 0 => do
    let s ← sock i
    pure (answer (if s.tcpState = .estab then 0 else -1))
  | n + 1 => do
    let s ← sock i
    if s.tcpState = .estab ∧ s.used = true then pure (answer 0)
    else if s.used = false then pure (answer (-1))
    else do
      netPoll lo
      hlt
      awaitOpen i n

def netConnect (id : Nat) (ip : BitVec 32) (port : BitVec 16) : Prog Host Reply :=
  onSocket id (fun i => do
  alter i .other (fun s => { s with rip := ip, rport := port, connected := true })
  autoBind i false
  let s ← sock i
  if s.stype ≠ .stream then pure (answer 0)
  else do
    openWith lo i (0x10000000#32 + BitVec.ofNat 32 i.val * 0x1000#32) 0#32 0#32 .synSent fSYN
    awaitOpen lo i 1000)

/-- The loop of `tcp_send_data`; a round sends or is one of 2000 waits. -/
def sendLoop (i : Fin 8) (data : List Byte) : Nat → Nat → Nat → Prog Host Reply
  | 0, _, _ => giveUp
  | n + 1, sent, guard =>
    if sent < data.length then do
      let s ← sock i
      let window := if s.cwnd = 0 then tcpMss else s.cwnd
      record i (.flight (s.sndNxt - s.sndUna))
      if window ≤ (s.sndNxt - s.sndUna).toNat then do
        netPoll lo
        let t ← sock i
        if t.tcpState = .closed then pure (answer (if sent = 0 then -1 else sent))
        else if 2000 < guard + 1 then pure (answer (-1))
        else do
          hlt
          sendLoop i data n sent (guard + 1)
      else do
        let chunk := min (min (data.length - sent) tcpMss) (window - (s.sndNxt - s.sndUna).toNat)
        sendNext lo i (fPSH ||| fACK) ((givenPtr data).add sent) chunk chunk
        sendLoop i data n (sent + chunk) guard
    else pure (answer sent)

def tcpSendData (i : Fin 8) (data : List Byte) : Prog Host Reply := do
  let s ← sock i
  if s.tcpState ≠ .estab ∧ s.tcpState ≠ .closeWait then pure (answer (-1))
  else sendLoop lo i data (data.length + 2002) 0 0

def netSendIp (proto : Byte) (dst : BitVec 32) (payload : List Byte) (srcPort dstPort : BitVec 16) :
    Prog Host Bool :=
  if proto ≠ 17#8 then netSendIpRaw lo proto dst (givenPtr payload) payload.length
  else
    let cut := payload.take 512
    let packet := put16be srcPort ++ put16be dstPort ++
      put16be (BitVec.ofNat 16 (8 + cut.length)) ++ [0#8, 0#8] ++ cut
    netSendIpRaw lo proto dst (givenPtr packet) packet.length

def netSendto (id : Nat) (data : List Byte) (ip : BitVec 32) (port : BitVec 16) : Prog Host Reply :=
  onSocket id (fun i => do
    let present ← look Host.present
    if !present then pure (answer (-1))
    else do
      autoBind i true
      let s ← sock i
      let connected := ip == 0#32 && s.connected
      if s.stype = .stream then tcpSendData lo i data
      else do
        let ok ← netSendIp lo (s.proto.setWidth 8) (if connected then s.rip else ip) data s.lport
          (if connected then s.rport else port)
        pure (answer (if ok then data.length else -1)))

def awaitData (i : Fin 8) (maxlen : Nat) : Nat → Prog Host Reply
  | 0 => pure (answer eAGAIN)
  | n + 1 => do
    netPoll lo
    let s ← sock i
    if s.has then do
      alter i (.gave (s.data.take maxlen) maxlen) (fun s => { s with
        has := false, data := [], data_fits := Nat.zero_le 512 })
      pure ⟨(s.data.take maxlen).length, s.data.take maxlen⟩
    else if s.stype = .stream ∧ s.tcpState = .closeWait then pure (answer 0)
    else do
      hlt
      awaitData i maxlen n

def netRecvfrom (id maxlen : Nat) : Prog Host Reply := onSocket id (fun i => do
  let present ← look Host.present
  if !present then pure (answer (-1)) else awaitData lo i maxlen 300)

def netClose (id : Nat) : Prog Host Reply := onSocket id (fun i => do
  let s ← sock i
  onlyIf (s.stype == .stream && (s.tcpState == .estab || s.tcpState == .closeWait))
    (sendNext lo i (fFIN ||| fACK) noData 0 1)
  alter i .cleared (fun _ => blank)
  pure (answer 0))

def netListen (id : Nat) : Prog Host Reply := onSocket id (fun i => do
  let s ← sock i
  if s.stype ≠ .stream then pure (answer (-1))
  else do
    autoBind i false
    alter i .other (fun s => { s with tcpState := .listen })
    pure (answer 0))

def pendingFor (m : Host) (id : Fin 8) (i : Fin 8) : Bool :=
  (m.socks i).used && (m.socks i).parent == some id && (m.socks i).tcpState == .estab

def awaitChild (id : Fin 8) : Nat → Prog Host Reply
  | 0 => pure (answer eAGAIN)
  | n + 1 => do
    netPoll lo
    let child ← look (fun m => (List.finRange 8).find? (pendingFor m id))
    match child with
    | some i => do
      alter i .other (fun s => { s with parent := none })
      pure (answer i.val)
    | none => do
      hlt
      awaitChild id n

def netAccept (id : Nat) : Prog Host Reply := onSocket id (fun i => do
  let s ← sock i
  if s.stype ≠ .stream ∨ s.tcpState ≠ .listen then pure (answer (-1)) else awaitChild lo i 300)

inductive Call
  | socket (t : SockType) (proto : BitVec 32)
  | bind (id : Nat) (port : BitVec 16)
  | connect (id : Nat) (ip : BitVec 32) (port : BitVec 16)
  | sendto (id : Nat) (data : List Byte) (ip : BitVec 32) (port : BitVec 16)
  | recvfrom (id maxlen : Nat)
  | close (id : Nat)
  | listen (id : Nat)
  | accept (id : Nat)

def exec : Call → Prog Host Reply
  | .socket t proto => netSocket t proto
  | .bind id port => netBind id port
  | .connect id ip port => netConnect lo id ip port
  | .sendto id data ip port => netSendto lo id data ip port
  | .recvfrom id maxlen => netRecvfrom lo id maxlen
  | .close id => netClose lo id
  | .listen id => netListen id
  | .accept id => netAccept lo id

/-- A call, what arrives and ticks during it, and a nesting bound. -/
structure Act where
  call : Call
  rx : List (List Frame)
  naps : List Nat
  depth : Nat

def perform (m : Host) (a : Act) : Option Reply × Host :=
  exec (lower a.depth) a.call { m with rx := a.rx, naps := a.naps }

/-- One call of the network code; none follows if it does not return. -/
def step (m : Host) (a : Act) : Option Host := (perform m a).1.map (fun _ => (perform m a).2)

structure Started (m : Host) : Prop where
  socks : ∀ i, m.socks i = blank
  hist : ∀ i, m.hist i = []

end MuOS.Net.Calls
