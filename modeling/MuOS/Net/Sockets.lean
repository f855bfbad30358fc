import MuOS.Lib.Memory
import MuOS.Lib.Programs
import MuOS.Net.Wire
import Mathlib.Data.List.FinRange

namespace MuOS.Net.Sockets

open Function Lib Memory Programs Wire List

inductive SockType
  | none | stream | dgram | raw
deriving DecidableEq

inductive TcpState
  | closed | listen | synSent | synRcvd | estab | finWait | closeWait
deriving DecidableEq

/-- An entry of `txq`; `last` is its `end`. -/
structure Entry where
  seq : BitVec 32
  last : BitVec 32
  flags : Byte
  data : List Byte
  fits : data.length ≤ 480
deriving DecidableEq

/-- `net_sock_t`; `plen` is the length of `data`. -/
structure Sock where
  used : Bool
  stype : SockType
  proto : BitVec 32
  lport : BitVec 16
  bound : Bool
  connected : Bool
  rip : BitVec 32
  rport : BitVec 16
  has : Bool
  sip : BitVec 32
  sport : BitVec 16
  data : List Byte
  tcpState : TcpState
  parent : Option (Fin 8)
  echoMode : Bool
  sndNxt : BitVec 32
  rcvNxt : BitVec 32
  sndUna : BitVec 32
  cwnd : Nat
  ssthresh : Nat
  txq : Nat → Entry
  qHead : Nat
  qCount : Nat
  qDeadline : BitVec 32
  rto : BitVec 32
  qRetries : Nat
  data_fits : data.length ≤ 512

def emptyEntry : Entry := ⟨0#32, 0#32, 0#8, [], Nat.zero_le _⟩

def blank : Sock where
  used := false
  stype := .none
  proto := 0#32
  lport := 0#16
  bound := false
  connected := false
  rip := 0#32
  rport := 0#16
  has := false
  sip := 0#32
  sport := 0#16
  data := []
  tcpState := .closed
  parent := some 0
  echoMode := false
  sndNxt := 0#32
  rcvNxt := 0#32
  sndUna := 0#32
  cwnd := 0
  ssthresh := 0
  txq := fun _ => emptyEntry
  qHead := 0
  qCount := 0
  qDeadline := 0#32
  rto := 0#32
  qRetries := 0
  data_fits := Nat.zero_le _

inductive Event
  | cleared
  | opened (iss rcv : BitVec 32)
  | sync (rcv : BitVec 32)
  | emit (first : Bool) (seq ack : BitVec 32) (flags : Byte) (data : List Byte) (rcv : BitVec 32)
  | queue
  | advance (n since : Nat)
  | heard (ack : BitVec 32)
  | flight (n : BitVec 32)
  | took (data : List Byte)
  | echoed (data : List Byte)
  | fin
  | gave (data : List Byte) (room : Nat)
  | datagram
  | echo
  | fired
  | aborted
  | named (port : BitVec 16)
  | drew (port : BitVec 16) (others : List (BitVec 16))
  | other
deriving DecidableEq

inductive Region
  | rxFrame | loopFrame | outFrame | txBuffer | tcpSeg | sockData | queueData
deriving DecidableEq

def Region.size : Region → Nat
  | .rxFrame => 1600
  | .loopFrame => 1600
  | .outFrame => 1600
  | .txBuffer => 1792
  | .tcpSeg => 560
  | .sockData => 512
  | .queueData => 480

/-- `n` bytes from `off` on, of a frame ending at `lim` or of an array. -/
inductive Access
  | read (off n lim : Nat)
  | write (r : Region) (off n : Nat)
deriving DecidableEq

structure ArpEntry where
  ip : BitVec 32
  mac : List Byte
  used : Bool
deriving DecidableEq

structure Dhcp where
  seen : Bool
  msgType : Byte
  yiaddr : BitVec 32
  server : BitVec 32
  mask : BitVec 32
  gw : BitVec 32
  dns : BitVec 32

/-- A frame of a length that `net_poll` passes on. -/
structure Frame where
  bytes : List Byte
  short : bytes.length ≤ 1596

/-- `next_port`, and how often it was drawn from. -/
structure PortCounter where
  next : BitVec 16
  draws : Nat

/-- The network code's variables; `rx` comes at polls, `naps` are the halts; the rest records. -/
structure Host where
  present : Bool
  mac : List Byte
  myIp : BitVec 32
  myMask : BitVec 32
  gateway : BitVec 32
  arp : Fin 4 → ArpEntry
  socks : Fin 8 → Sock
  ports : PortCounter
  dhcp : Dhcp
  ticks : BitVec 32
  rxFrame : Mem
  loopFrame : Mem
  tcpSeg : Mem
  rx : List (List Frame)
  naps : List Nat
  hist : Fin 8 → List Event
  accesses : List Access
  sent : List (List Byte)

inductive Buf
  | rx | loop | seg | given (bytes : List Byte)

/-- A pointer into a frame that ends at `lim`. -/
structure Ptr where
  buf : Buf
  off : Nat
  lim : Nat

def Ptr.add (p : Ptr) (n : Nat) : Ptr := { p with off := p.off + n }

def givenPtr (bytes : List Byte) : Ptr := ⟨.given bytes, 0, bytes.length⟩

def Host.buffer (m : Host) : Buf → Mem
  | .rx => m.rxFrame
  | .loop => m.loopFrame
  | .seg => m.tcpSeg
  | .given bytes => fun i => bytes.getD i 0#8

def Host.bytesAt (m : Host) (p : Ptr) (n : Nat) : List Byte :=
  (List.range n).map (fun k => m.buffer p.buf (p.off + k))

def overlay (old : Mem) (bytes : List Byte) : Mem := fun i => bytes.getD i (old i)

def note (a : Access) : Prog Host Unit := put (fun m => { m with accesses := a :: m.accesses })

def peek (p : Ptr) (i n : Nat) : Prog Host (List Byte) := do
  note (.read (p.off + i) n p.lim)
  look (fun m => m.bytesAt (p.add i) n)

def sock (i : Fin 8) : Prog Host Sock := look (fun m => m.socks i)

def alter (i : Fin 8) (e : Event) (f : Sock → Sock) : Prog Host Unit := put (fun m => { m with
  socks := update m.socks i (f (m.socks i))
  hist := update m.hist i (e :: m.hist i) })

def record (i : Fin 8) (e : Event) : Prog Host Unit := put (fun m => { m with
  hist := update m.hist i (e :: m.hist i) })

/-- `hlt` with interrupts on. -/
def hlt : Prog Host Unit := put (fun m => { m with
  ticks := m.ticks + BitVec.ofNat 32 (m.naps.headD 1)
  naps := m.naps.tail })

theorem bytesAt_length (m : Host) (p : Ptr) (n : Nat) : (m.bytesAt p n).length = n := by
  rw [Host.bytesAt, length_map, length_range]

end MuOS.Net.Sockets
