import MuOS.Net.Sockets

namespace MuOS.Net.Stack

open Function Lib.Programs Wire Sockets

def loopback : BitVec 32 := 0x0100007F#32

def broadcast : BitVec 32 := 0xFFFFFFFF#32

def tcpMss : Nat := 480

def txqMax : Nat := 8

def tcpRtoMin : BitVec 32 := 100#32

def tcpRtoMax : BitVec 32 := 800#32

def tcpRetries : Nat := 5

def tcpCwndMax : Nat := 65535

def netSendFrame (frame : List Byte) : Prog Host Unit := do
  let present ← look Host.present
  if !present || frame.length < 14 || 1792 < frame.length then pure ()
  else do
    note (.write .txBuffer 0 frame.length)
    put (fun m => { m with sent := frame :: m.sent })

def arpLookup (m : Host) (ip : BitVec 32) : Option (List Byte) :=
  ((List.finRange 4).find? (fun i => (m.arp i).used && (m.arp i).ip == ip)).map
    (fun i => (m.arp i).mac)

def arpStore (m : Host) (ip : BitVec 32) (mac : List Byte) : Host :=
  match (List.finRange 4).find? (fun i => (m.arp i).used && (m.arp i).ip == ip) with
  | some i => { m with arp := update m.arp i { m.arp i with mac := mac } }
  | none =>
    let free := ((List.finRange 4).reverse.find? (fun i => !(m.arp i).used)).getD 0
    { m with arp := update m.arp free ⟨ip, mac, true⟩ }

def arpFrame (m : Host) (op : BitVec 16) (targetIp : BitVec 32) (targetMac : List Byte) :
    List Byte :=
  ethHeader targetMac m.mac 0x0806#16 ++ put16be 1#16 ++ put16be 0x0800#16 ++ [6#8, 4#8] ++
    put16be op ++ m.mac ++ addrBytes m.myIp ++ targetMac ++ addrBytes targetIp

def arpSend (op : BitVec 16) (targetIp : BitVec 32) (targetMac : List Byte) : Prog Host Unit := do
  note (.write .outFrame 0 42)
  let frame ← look (fun m => arpFrame m op targetIp targetMac)
  netSendFrame frame

def arpHandle (a : Ptr) (len : Nat) : Prog Host Unit :=
  if len < 28 then pure ()
  else do
    let sender ← peek a 14 4
    let senderMac ← peek a 8 6
    put (fun m => arpStore m (addrOf sender) senderMac)
    let op ← peek a 6 2
    let myIp ← look Host.myIp
    if be16 op = 1#16 ∧ addrOf sender ≠ myIp then do
      let target ← peek a 24 4
      onlyIf (addrOf target == myIp) (arpSend 2#16 (addrOf sender) senderMac)
    else pure ()

def deliver (i : Fin 8) (sip : BitVec 32) (sport : BitVec 16) (payload : Ptr) (len : Nat) :
    Prog Host Unit := do
  let bytes ← peek payload 0 (min len 512)
  note (.write .sockData 0 (min len 512))
  alter i .datagram (fun s => { s with
    data := bytes.take 512, sip := sip, sport := sport, has := true,
    data_fits := List.length_take_le 512 bytes })

def udpDeliver (dport sport : BitVec 16) (sip : BitVec 32) (payload : Ptr) (len : Nat) :
    Prog Host Unit :=
  each (fun i => do
    let s ← sock i
    onlyIf (s.used && s.stype == .dgram && s.bound && s.lport == dport &&
      !(s.connected && (s.rip != sip || s.rport != sport)) &&
      !s.has) (deliver i sip sport payload len)) (List.finRange 8)

def rawDeliver (proto : BitVec 32) (sip : BitVec 32) (payload : Ptr) (len : Nat) : Prog Host Unit :=
  each (fun i => do
    let s ← sock i
    onlyIf (s.used && s.stype == .raw && s.proto == proto && !s.has)
      (deliver i sip 0#16 payload len)) (List.finRange 8)

def dhcpOption (code : Byte) (v : List Byte) (d : Dhcp) : Dhcp :=
  if code = 53#8 ∧ 1 ≤ v.length then { d with msgType := byteAt v 0 }
  else if code = 1#8 ∧ 4 ≤ v.length then { d with mask := addrOf v }
  else if code = 3#8 ∧ 4 ≤ v.length then { d with gw := addrOf v }
  else if code = 6#8 ∧ 4 ≤ v.length then { d with dns := addrOf v }
  else if code = 54#8 ∧ 4 ≤ v.length then { d with server := addrOf v }
  else d

/-- The bytes of an option that `dhcp_input` looks at. -/
def optionRead (code : Byte) (olen : Nat) : Nat :=
  if code = 53#8 ∧ 1 ≤ olen then 1
  else if (code = 1#8 ∨ code = 3#8 ∨ code = 6#8 ∨ code = 54#8) ∧ 4 ≤ olen then 4
  else 0

-- every round moves on by at least one byte, so `len` rounds are enough
def dhcpOptions (b : Ptr) (len : Nat) : Nat → Nat → Prog Host Unit
  | 0, _ => pure ()
  | n + 1, i =>
    if i + 2 ≤ len then do
      let code ← peek b i 1
      if byteAt code 0 = 0#8 then dhcpOptions b len n (i + 1)
      else if byteAt code 0 = 255#8 then pure ()
      else do
        let olen ← peek b (i + 1) 1
        let k := (byteAt olen 0).toNat
        if len < i + 2 + k then pure ()
        else do
          let v ← peek b (i + 2) (optionRead (byteAt code 0) k)
          put (fun m => { m with dhcp := dhcpOption (byteAt code 0) v m.dhcp })
          dhcpOptions b len n (i + 2 + k)
    else pure ()

def dhcpInput (b : Ptr) (len : Nat) : Prog Host Unit :=
  if len < 240 then pure ()
  else do
    let magic ← peek b 236 4
    if magic ≠ [0x63#8, 0x82#8, 0x53#8, 0x63#8] then pure ()
    else do
      let yiaddr ← peek b 16 4
      put (fun m => { m with dhcp := { m.dhcp with
        yiaddr := addrOf yiaddr, msgType := 0#8, server := 0#32, mask := 0#32, gw := 0#32, dns := 0#32 } })
      dhcpOptions b len len 240
      put (fun m => { m with dhcp := { m.dhcp with seen := true } })

def icmpReply (payload : Ptr) (plen : Nat) (src : BitVec 32) : Prog Host Unit := do
  let known ← look (fun m => (arpLookup m src).isSome)
  onlyIf (!known) (do
    arpSend 1#16 src broadcastMac
    -- nothing is received while it waits, so it waits until the deadline
    put (fun m => { m with ticks := if m.ticks < m.ticks + 50#32 then m.ticks + 50#32 else m.ticks }))
  note (.write .outFrame 0 (34 + plen))
  let bytes ← peek payload 0 plen
  let body := [0#8, byteAt bytes 1, 0#8, 0#8] ++ bytes.drop 4
  let icmp := [0#8, byteAt bytes 1] ++ put16be (netCksum body 0#32) ++ bytes.drop 4
  let frame ← look
    (fun m => ethHeader ((arpLookup m src).getD (List.replicate 6 0#8)) m.mac 0x0800#16 ++
    ipHeader 0#16 1#8 m.myIp src (20 + plen) ++ icmp)
  netSendFrame frame

/-- The sequence numbers a segment takes, `SYN` apart. -/
def spanOf (flags : Byte) (data : List Byte) : Nat :=
  data.length + if flagged flags fFIN then 1 else 0

def retire (ack : BitVec 32) : Nat → Sock → Sock
  | 0, s => s
  | n + 1, s =>
    if 0 < s.qCount ∧ 0 ≤ (ack - (s.txq s.qHead).last).toInt then
      retire ack n { s with qHead := (s.qHead + 1) % txqMax, qCount := s.qCount - 1, qRetries := 0 }
    else s

def grown (s : Sock) : Nat :=
  min tcpCwndMax
    (if s.ssthresh ≤ s.cwnd then s.cwnd + tcpMss * tcpMss / (if s.cwnd = 0 then tcpMss else s.cwnd)
      else s.cwnd + tcpMss)

def rearmed (now : BitVec 32) (s : Sock) : Sock :=
  if 0 < s.qCount then { s with rto := tcpRtoMin, qDeadline := now + tcpRtoMin } else s

def acked (now ack : BitVec 32) (s : Sock) : Sock :=
  let s := rearmed now (retire ack s.qCount { s with sndUna := ack })
  { s with cwnd := grown s }

def tcpAck (i : Fin 8) (ack : BitVec 32) : Prog Host Unit := do
  let s ← sock i
  if (ack - s.sndUna).toInt ≤ 0 then record i (.heard ack)
  else do
    let now ← look Host.ticks
    alter i (.heard ack) (acked now ack)

def matches4 (m : Host) (dst : BitVec 32) (sport dport : BitVec 16) (i : Fin 8) : Bool :=
  let s := m.socks i
  s.used && s.stype == .stream && s.lport == dport && s.tcpState != .listen && s.rport == sport &&
    s.rip == dst

def listens (m : Host) (dport : BitVec 16) (i : Fin 8) : Bool :=
  let s := m.socks i
  s.used && s.stype == .stream && s.lport == dport && s.tcpState == .listen

/-- `tcp_find`: the last socket that matches. -/
def tcpFind (m : Host) (dst : BitVec 32) (sport dport : BitVec 16) : Option (Fin 8) :=
  (List.finRange 8).reverse.find? (matches4 m dst sport dport)

/-- The listener that `tcp_find` also looks for. -/
def listenerFor (m : Host) (dport : BitVec 16) : Option (Fin 8) :=
  (List.finRange 8).reverse.find? (listens m dport)

def freeSock (m : Host) : Option (Fin 8) := (List.finRange 8).find? (fun i => !(m.socks i).used)

/-- What is called again from below, `rounds` polls at most. -/
structure Lower where
  ipHandle : Ptr → Nat → Prog Host Unit
  netPoll : Prog Host Unit
  rounds : Nat

variable (lo : Lower)

def awaitArp (ip deadline : BitVec 32) : Nat → Prog Host (Option (List Byte))
  | 0 => giveUp
  | n + 1 => do
    let now ← look Host.ticks
    if now < deadline then do
      hlt
      lo.netPoll
      let found ← look (fun m => arpLookup m ip)
      if found.isSome then pure found else awaitArp ip deadline n
    else pure none

def arpResolve (ip : BitVec 32) : Prog Host (Option (List Byte)) := do
  let found ← look (fun m => arpLookup m ip)
  if found.isSome then pure found
  else do
    arpSend 1#16 ip broadcastMac
    let now ← look Host.ticks
    awaitArp lo ip (now + 100#32) lo.rounds

def localIpFor (m : Host) (dst : BitVec 32) : BitVec 32 :=
  if dst = loopback then dst else if dst = broadcast then 0#32 else m.myIp

def sendOut (proto : Byte) (dst : BitVec 32) (payload : Ptr) (plen : Nat) (mac : List Byte) :
    Prog Host Bool := do
  let bytes ← peek payload 0 plen
  note (.write .outFrame 0 (34 + plen))
  let frame ← look (fun m => ethHeader mac m.mac 0x0800#16 ++
    ipHeader 0x1234#16 proto (localIpFor m dst) dst (20 + plen) ++ bytes)
  netSendFrame frame
  pure true

/-- The packet is put into `loop_frame` and handled there. -/
def sendLoop (proto : Byte) (dst : BitVec 32) (payload : Ptr) (plen : Nat) : Prog Host Bool := do
  let bytes ← peek payload 0 plen
  note (.write .loopFrame 0 (20 + plen))
  put (fun m => { m with
    loopFrame :=
      overlay m.loopFrame (ipHeader 0x1234#16 proto (localIpFor m dst) dst (20 + plen) ++ bytes) })
  lo.ipHandle ⟨.loop, 0, 20 + plen⟩ (20 + plen)
  pure true

def netSendIpRaw (proto : Byte) (dst : BitVec 32) (payload : Ptr) (plen : Nat) :
    Prog Host Bool := do
  let m ← look id
  if !m.present then pure false
  else if dst = broadcast then sendOut proto dst payload plen broadcastMac
  else if dst = m.myIp ∨ dst = loopback then sendLoop lo proto dst payload plen
  else do
    let mac ← arpResolve lo (if dst &&& m.myMask = m.myIp &&& m.myMask then dst else m.gateway)
    sendOut proto dst payload plen (mac.getD broadcastMac)

def tcpEmit (i : Fin 8) (first : Bool) (seq ack : BitVec 32) (flags : Byte) (data : Ptr)
    (len : Nat) : Prog Host Unit := do
  let s ← sock i
  let bytes ← peek data 0 (min len 512)
  let seg ← look
    (fun m => tcpSegment (localIpFor m s.rip) s.rip s.lport s.rport seq ack flags bytes)
  note (.write .tcpSeg 0 (20 + min len 512))
  put (fun m => { m with tcpSeg := overlay m.tcpSeg seg })
  record i (.emit first seq ack flags bytes s.rcvNxt)
  let _ ← netSendIpRaw lo 6#8 s.rip ⟨.seg, 0, 20 + min len 512⟩ (20 + min len 512)

def entryEnd (seq : BitVec 32) (flags : Byte) (len : Nat) : BitVec 32 :=
  seq + BitVec.ofNat 32 len + (if flagged flags fSYN then 1#32 else 0#32) +
    (if flagged flags fFIN then 1#32 else 0#32)

def queued (now seq : BitVec 32) (flags : Byte) (len : Nat) (kept : List Byte) (s : Sock) : Sock :=
  let e : Entry := ⟨seq, entryEnd seq flags len, flags, kept.take 480, List.length_take_le 480 kept⟩
  let s' := { s with txq := update s.txq ((s.qHead + s.qCount) % txqMax) e, qCount := s.qCount + 1 }
  if s.qCount = 0 then
    { s' with rto := tcpRtoMin, qRetries := 0, qDeadline := now + tcpRtoMin } else s'

/-- The second half of `tcp_send_seg`. -/
def enqueue (i : Fin 8) (seq : BitVec 32) (flags : Byte) (data : Ptr) (len : Nat) :
    Prog Host Unit := do
  let s ← sock i
  if txqMax ≤ s.qCount then pure ()
  else do
    let kept ← peek data 0 (min len tcpMss)
    note (.write .queueData 0 (min len tcpMss))
    let now ← look Host.ticks
    alter i .queue (queued now seq flags len kept)

def tcpSendSeg (i : Fin 8) (seq ack : BitVec 32) (flags : Byte) (data : Ptr) (len : Nat) :
    Prog Host Unit := do
  tcpEmit lo i true seq ack flags data len
  if len = 0 ∧ flagged flags (fSYN ||| fFIN) = false then pure () else enqueue i seq flags data len

def noData : Ptr := givenPtr []

/-- `tcp_send_seg(s, s->snd_nxt, s->rcv_nxt, TCP_F_ACK, NULL, 0)`. -/
def sendAck (i : Fin 8) : Prog Host Unit := do
  let s ← sock i
  tcpSendSeg lo i s.sndNxt s.rcvNxt fACK noData 0

/-- Send what comes next and move `snd_nxt` on; recorded is how long the history was before. -/
def sendNext (i : Fin 8) (flags : Byte) (data : Ptr) (len n : Nat) : Prog Host Unit := do
  let k ← look (fun m => (m.hist i).length)
  let s ← sock i
  tcpSendSeg lo i s.sndNxt s.rcvNxt flags data len
  alter i (.advance n k) (fun t => { t with sndNxt := t.sndNxt + BitVec.ofNat 32 n })

def collapsed (now : BitVec 32) (s : Sock) : Sock :=
  let rto := if s.rto < tcpRtoMax / 2#32 then s.rto * 2#32 else tcpRtoMax
  { s with
    qRetries := s.qRetries + 1
    ssthresh := if tcpMss * 2 < s.cwnd then s.cwnd / 2 else tcpMss * 2
    cwnd := tcpMss
    rto := rto
    qDeadline := now + rto }

def tcpTimer (now : BitVec 32) (i : Fin 8) : Prog Host Unit := do
  let s ← sock i
  if !s.used || s.stype != .stream || s.qCount == 0 || (now - s.qDeadline).toInt < 0 then pure ()
  else if tcpRetries ≤ s.qRetries then
    alter i .aborted (fun s => { s with qCount := 0, tcpState := .closed, used := false })
  else do
    alter i .fired (collapsed now)
    let e := s.txq s.qHead
    tcpEmit lo i false e.seq (if flagged e.flags fSYN then 0#32 else s.rcvNxt) e.flags
      (givenPtr e.data) e.data.length

def tcpTimers : Prog Host Unit := do
  let now ← look Host.ticks
  each (tcpTimer lo now) (List.finRange 8)

/-- The header of a segment, and where its data are. -/
structure Segment where
  src : BitVec 32
  sport : BitVec 16
  dport : BitVec 16
  seq : BitVec 32
  ack : BitVec 32
  flags : Byte
  data : Ptr
  dlen : Nat

def tcpNewSock (i : Fin 8) : Prog Host Unit :=
  alter i .cleared
    (fun _ => { blank with used := true, stype := .stream, proto := 6#32, parent := none })

def opened (iss rcv : BitVec 32) (st : TcpState) (s : Sock) : Sock :=
  { s with
    sndUna := iss, sndNxt := iss + 1#32, rcvNxt := rcv, cwnd := tcpMss,
    ssthresh := tcpCwndMax, tcpState := st,
    connected := true, bound := true, qHead := 0, qCount := 0 }

/-- Open the socket, and send the segment with `SYN`. -/
def openWith (i : Fin 8) (iss rcv ack : BitVec 32) (st : TcpState) (flags : Byte) :
    Prog Host Unit := do
  alter i (.opened iss rcv) (opened iss rcv st)
  tcpSendSeg lo i iss ack flags noData 0

def tcpAccept (g : Segment) (listener : Option (Fin 8)) : Prog Host Unit := do
  let free ← look freeSock
  if (listener.isSome || g.dport == 7#16) && flagged g.flags fSYN && !flagged g.flags fACK then
    match free with
    | none => pure ()
    | some i => do
      tcpNewSock i
      alter i (.named g.dport) (fun s =>
        { s with lport := g.dport, rip := g.src, rport := g.sport, parent := listener })
      onlyIf (listener.isNone) (alter i .echo (fun s => { s with echoMode := true }))
      let base := if listener.isSome then 0x20000000#32 else 0x30000000#32
      openWith lo i (base + BitVec.ofNat 32 i.val * 0x1000#32) (g.seq + 1#32)
        (g.seq + 1#32) .synRcvd (fSYN ||| fACK)
  else pure ()

def taken (src : BitVec 32) (sport : BitVec 16) (bytes : List Byte) (dlen : Nat)
    (s : Sock) : Sock :=
  let s' := { s with rcvNxt := s.rcvNxt + BitVec.ofNat 32 dlen }
  if s.has then s'
  else { s' with
    data := bytes.take 512, sip := src, sport := sport, has := true,
    data_fits := List.length_take_le 512 bytes }

def tcpTake (i : Fin 8) (g : Segment) : Prog Host Unit := do
  let s ← sock i
  let all ← look (fun m => m.bytesAt g.data g.dlen)
  if s.echoMode then do
    sendNext lo i (fPSH ||| fACK) g.data g.dlen g.dlen
    alter i (.echoed all) (fun s => { s with rcvNxt := s.rcvNxt + BitVec.ofNat 32 g.dlen })
  else do
    let bytes ← peek g.data 0 (if s.has then 0 else min g.dlen 512)
    note (.write .sockData 0 (if s.has then 0 else min g.dlen 512))
    alter i (.took all) (taken g.src g.sport bytes g.dlen)

def tcpData (i : Fin 8) (g : Segment) : Prog Host Unit := do
  let s ← sock i
  onlyIf ((s.tcpState == .estab || s.tcpState == .closeWait) && 0 < g.dlen) (do
    onlyIf (g.seq == s.rcvNxt) (tcpTake lo i g)
    sendAck lo i)

def tcpFinish (i : Fin 8) (g : Segment) : Prog Host Unit := do
  let s ← sock i
  onlyIf (flagged g.flags fFIN && g.seq + BitVec.ofNat 32 g.dlen == s.rcvNxt) (do
    alter i .fin (fun s => { s with rcvNxt := s.rcvNxt + 1#32, tcpState := .closeWait })
    sendAck lo i)

def tcpReceive (i : Fin 8) (g : Segment) : Prog Host Unit :=
  if flagged g.flags fRST then alter i .other (fun s => { s with used := false })
  else do
    onlyIf (flagged g.flags fACK) (tcpAck i g.ack)
    let s ← sock i
    if s.tcpState = .synSent ∧ flagged g.flags fSYN = true ∧ flagged g.flags fACK = true then
      onlyIf (g.ack == s.sndNxt) (do
        alter i (.sync (g.seq + 1#32)) (fun s => { s with rcvNxt := g.seq + 1#32, tcpState := .estab })
        sendAck lo i)
    else do
      onlyIf (s.tcpState == .synRcvd && flagged g.flags fACK && g.ack == s.sndNxt)
        (alter i .other (fun s => { s with tcpState := .estab }))
      tcpData lo i g
      tcpFinish lo i g

def tcpInput (src : BitVec 32) (seg : Ptr) (len : Nat) : Prog Host Unit :=
  if len < 20 then pure ()
  else do
    let sport ← peek seg 0 2
    let dport ← peek seg 2 2
    let seq ← peek seg 4 4
    let ack ← peek seg 8 4
    let word ← peek seg 12 1
    let off := (byteAt word 0 >>> 4).toNat * 4
    if off < 20 ∨ len < off then pure ()
    else do
      let flags ← peek seg 13 1
      let g : Segment :=
        ⟨src, be16 sport, be16 dport, be32 seq, be32 ack, byteAt flags 0, seg.add off, len - off⟩
      let found ← look (fun m => tcpFind m src g.sport g.dport)
      let listener ← look (fun m => listenerFor m g.dport)
      match found with
      | some i => tcpReceive lo i g
      | none => tcpAccept lo g listener

def ipPayload (proto : Byte) (src : BitVec 32) (payload : Ptr) (plen : Nat) : Prog Host Unit :=
  if proto = 1#8 then
    if plen < 8 then pure ()
    else do
      let kind ← peek payload 0 1
      if byteAt kind 0 = 8#8 then icmpReply payload plen src else rawDeliver 1#32 src payload plen
  else if proto = 17#8 then
    if plen < 8 then pure ()
    else do
      let sport ← peek payload 0 2
      let dport ← peek payload 2 2
      let word ← peek payload 4 2
      let ulen := min (be16 word).toNat plen
      if (be16 word).toNat < 8 then pure ()
      else if be16 dport = 68#16 then dhcpInput (payload.add 8) (ulen - 8)
      else udpDeliver (be16 dport) (be16 sport) src (payload.add 8) (ulen - 8)
  else if proto = 6#8 then tcpInput lo src payload plen
  else rawDeliver (proto.setWidth 32) src payload plen

def ipHandle (ip : Ptr) (len : Nat) : Prog Host Unit :=
  if len < 20 then pure ()
  else do
    let first ← peek ip 0 1
    let ihl := (byteAt first 0 &&& 0x0F#8).toNat * 4
    if ihl < 20 ∨ len < ihl then pure ()
    else do
      let word ← peek ip 2 2
      let total := min (be16 word).toNat len
      let dst ← peek ip 16 4
      let myIp ← look Host.myIp
      if addrOf dst ≠ myIp ∧ addrOf dst ≠ broadcast ∧ addrOf dst ≠ loopback then pure ()
      else do
        let proto ← peek ip 9 1
        let src ← peek ip 12 4
        ipPayload lo (byteAt proto 0) (addrOf src) (ip.add ihl) (total - ihl)

def netHandleFrame (f : Ptr) (len : Nat) : Prog Host Unit :=
  if len < 14 then pure ()
  else do
    let kind ← peek f 12 2
    if be16 kind = 0x0806#16 then arpHandle (f.add 14) (len - 14)
    else if be16 kind = 0x0800#16 then ipHandle lo (f.add 14) (len - 14)
    else pure ()

def receiveFrame (f : Frame) : Prog Host Unit := do
  note (.write .rxFrame 0 f.bytes.length)
  put (fun m => { m with rxFrame := overlay m.rxFrame f.bytes })
  netHandleFrame lo ⟨.rx, 0, f.bytes.length⟩ f.bytes.length

def netPoll : Prog Host Unit := do
  let present ← look Host.present
  onlyIf present (do
    let frames ← look (fun m => m.rx.headD [])
    put (fun m => { m with rx := m.rx.tail })
    each (receiveFrame lo) (frames.take 64)
    tcpTimers lo)

/-- The network code with at most `n` calls of itself nested. -/
def lower : Nat → Lower
  | 0 => ⟨fun _ _ => giveUp, giveUp, 0⟩
  | n + 1 => ⟨ipHandle (lower n), netPoll (lower n), n⟩

end MuOS.Net.Stack
