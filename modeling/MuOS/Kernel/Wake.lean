import MuOS.Kernel.State

namespace MuOS.Kernel.Wake

open Lib.Memory User Descriptors Window State

variable (k : Machine)

def errnoOf (code : Nat) : BitVec 32 := BitVec.ofInt 32 (-code)

def eINTR : Nat := 4

/-- `proc_user_ptr`: the memory with the page writable, and the address. -/
def procUserPtr (p : Proc) (a : BitVec 32) : Option (UserMem × Nat) :=
  if a.toNat < userBase ∨ userEnd ≤ a.toNat then none
  else match p.space with
    | none => none
    | some sp =>
      let m := k.cow.make k.mem sp (a.toNat / 4096)
      some (m, translate m sp a.toNat)

/-- `memcpy` to what `proc_user_ptr` gives. -/
def storeFor (p : Proc) (a : BitVec 32) (bs : List (BitVec 8)) : Machine :=
  match procUserPtr k p a with
  | none => k
  | some (m, phys) => { k with mem := storeBytes m phys bs }

def procWriteUserU32 (p : Proc) (a : BitVec 32) (v : BitVec 32) : Machine :=
  if a.toNat < userBase ∨ userEnd - 4 < a.toNat then k else storeFor k p a (le32 v)

def pollIn : BitVec 16 := 1#16
def pollOut : BitVec 16 := 4#16
def pollErr : BitVec 16 := 8#16
def pollHup : BitVec 16 := 16#16
def pollNval : BitVec 16 := 32#16

def pipeValid (id : Nat) : Option (Fin 8) :=
  if h : id < 8 then if (k.pipes ⟨id, h⟩).used then some ⟨id, h⟩ else none else none

def wants (events bit : BitVec 16) : Bool := events &&& bit != 0#16

/-- The answer `bit` under a condition. -/
def flag (c : Bool) (bit : BitVec 16) : BitVec 16 := if c then bit else 0#16

def pipeReadEvents (p : Pipe) (events : BitVec 16) : BitVec 16 :=
  flag (wants events pollIn && (decide (0 < p.ring.count) || p.writers == 0)) pollIn |||
    flag (p.writers == 0) pollHup

def pipeWriteEvents (p : Pipe) (events : BitVec 16) : BitVec 16 :=
  flag (wants events pollOut && decide (p.ring.count < pipeSize)) pollOut |||
    flag (p.writers == 0) pollErr

def descEvents (d : Desc) (events : BitVec 16) : BitVec 16 :=
  match d.kind with
  | .free => pollNval
  | .stdin | .devConsole => flag (wants events pollIn && !k.keys.isEmpty) pollIn
  | .file | .vfile | .dir | .devNull | .devZero | .devAta =>
    flag (wants events pollIn) pollIn ||| flag (wants events pollOut) pollOut
  | .stdout | .stderr => flag (wants events pollOut) pollOut
  | .pipeRead =>
    ((pipeValid k d.pipeId).map (fun j => pipeReadEvents (k.pipes j) events)).getD pollErr
  | .pipeWrite =>
    ((pipeValid k d.pipeId).map (fun j => pipeWriteEvents (k.pipes j) events)).getD pollErr

/-- `user_fd_state_events`: readiness by a saved table. -/
def userFdStateEvents (t : Table) (fd : Int) (events : BitVec 16) : BitVec 16 :=
  match descIndex fd with
  | none => pollNval
  | some i => descEvents k (t i) events

def savedTable (p : Proc) : Option Table := (p.fdState.bind k.states).map FdState.table

def pollEntry (p : Proc) (t : Table) (a : BitVec 32) : Machine × PollFd :=
  match procUserPtr k p a with
  | none => (k, ⟨-1#32, 0#16, 0#16⟩)
  | some (m, e) =>
    let fd := rd32 m.bytes e
    let events := rd16 m.bytes (e + 4)
    let rev := if 0 ≤ fd.toInt then userFdStateEvents k t fd.toInt events else 0#16
    ({ k with mem := storeBytes m (e + 6) (le16 rev) }, ⟨fd, events, rev⟩)

def pollLoop (p : Proc) (t : Table) : List Nat → Machine → Machine × List PollFd
  | [], k => (k, [])
  | n :: ns, k =>
    let r := pollEntry k p t (p.blkPtr + BitVec.ofNat 32 (8 * n))
    let rest := pollLoop p t ns r.1
    (rest.1, r.2 :: rest.2)

/-- `proc_poll_scan`, with the entries in place of their number. -/
def procPollScan (p : Proc) : Machine × List PollFd :=
  match savedTable k p with
  | none => (k, [])
  | some t =>
    if p.blkLen ≤ 0 ∨ 64 < p.blkLen then (k, []) else pollLoop p t (List.range p.blkLen.toNat) k

def readyCount (es : List PollFd) : Nat := es.countP (fun e => e.revents != 0#16)

def finished (p : Proc) (v : BitVec 32) : Proc :=
  { p with ctx := { p.ctx with eax := v }, waitKind := .none, state := .ready }

def procPollFinish (i : Fin 8) (ready : Nat) : Machine :=
  setProc k i { finished (k.procs i) (BitVec.ofNat 32 ready) with blkHasDeadline := false }

def expireEntry (p : Proc) (n : Nat) : Machine :=
  match procUserPtr k p (p.blkPtr + BitVec.ofNat 32 (8 * n)) with
  | none => k
  | some (m, e) => { k with mem := storeBytes m (e + 6) (le16 0#16) }

def procPollExpire (i : Fin 8) : Machine :=
  let p := k.procs i
  procPollFinish ((List.range (min p.blkLen.toNat 64)).foldl (fun k n => expireEntry k p n) k) i 0

def sleeps (p : Proc) (w : Wait) : Bool := isUser p && p.state == .blocked && p.waitKind == w

def logPoll (e : PollDone) : Machine :=
  { k with trace := { k.trace with polls := k.trace.polls ++ [e] } }

def wakePoller (i : Fin 8) : Machine :=
  if sleeps (k.procs i) .poll then
    let r := procPollScan k (k.procs i)
    if 0 < readyCount r.2 then procPollFinish (logPoll r.1 ⟨i, r.2⟩) i (readyCount r.2) else r.1
  else k

def procWakePollers : Machine := overProcs k wakePoller

section

def logRead (e : ReadDone) : Machine :=
  { k with trace := { k.trace with reads := k.trace.reads ++ [e] } }

def logHanded (j : Fin 8) (bs : List (BitVec 8)) : Machine :=
  { k with trace := { k.trace with
    handed := Function.update k.trace.handed j (k.trace.handed j ++ bs) } }

def front (j : Fin 8) (len : Nat) : List (BitVec 8) := ((k.pipes j).ring.contents pipeSize).take len

def dropFront (j : Fin 8) (len : Nat) : Machine :=
  setPipe k j
    { k.pipes j with ring := (k.pipes j).ring.drop pipeSize (min len (k.pipes j).ring.count) }

def storedInPlace (p : Proc) (a : BitVec 32) (n : Nat) : Bool :=
  match p.space, procUserPtr k p a with
  | some sp, some (m, phys) =>
    (List.range n).all (fun j => translate m sp (a.toNat + j) == phys + j)
  | _, _ => false

/-- How far the loop of `proc_read_check` has come. -/
structure Progress where
  done : Nat
  stored : List (BitVec 8)
  inPlace : Bool

def storeChunk (i j : Fin 8) (s : Progress) (chunk : List (BitVec 8)) : Machine × Progress :=
  let p := k.procs i
  let a := p.blkPtr + BitVec.ofNat 32 s.done
  if (procUserPtr k p a).isSome then
    (logHanded (storeFor k p a chunk) j chunk,
      ⟨s.done + chunk.length, s.stored ++ chunk, s.inPlace && storedInPlace k p a chunk.length⟩)
  else (k, { s with done := s.done + chunk.length })

variable (notify : Machine → Machine)

/-- The loop of `proc_read_check`: notify, then store at most 128 bytes. -/
def readLoop (i j : Fin 8) (fill : Nat) : Nat → Machine → Progress → Machine × Progress
  | 0, k, s => (k, s)
  | fuel + 1, k, s =>
    if s.done < fill then
      let chunk := front k j (min (fill - s.done) 128)
      let k' := notify (dropFront k j (min (fill - s.done) 128))
      if chunk = [] then (k', s)
      else
        let r := storeChunk k' i j s chunk
        readLoop i j fill fuel r.1 r.2
    else (k, s)

def finishRead (i : Fin 8) (pipe : Option (Fin 8)) (s : Progress) : Machine :=
  setProc (logRead k ⟨i, pipe, s.stored, BitVec.ofNat 32 s.done, s.inPlace⟩) i
    (finished (k.procs i) (BitVec.ofNat 32 s.done))

/-- A blocked pipe read takes what there is, or reports the end. -/
def readPipeFor (i j : Fin 8) : Machine :=
  let q := k.pipes j
  if q.ring.count = 0 ∧ 0 < q.writers then k
  else
    let fill := min q.ring.count (k.procs i).blkLen.toNat
    let r := readLoop notify i j fill fill k ⟨0, [], true⟩
    finishRead r.1 i (some j) r.2

def readKeyFor (i : Fin 8) : Machine :=
  match k.keys with
  | [] => k
  | c :: rest =>
    let k' := { k with keys := rest }
    let p := k.procs i
    if (procUserPtr k' p p.blkPtr).isSome then
      finishRead (storeFor k' p p.blkPtr [c]) i none ⟨1, [c], storedInPlace k' p p.blkPtr 1⟩
    else finishRead k' i none ⟨1, [], false⟩

def procReadCheck (i : Fin 8) : Machine :=
  let p := k.procs i
  match savedTable k p, descIndex p.blkFd with
  | some t, some fd =>
    if p.blkPtr = 0#32 ∨ p.blkLen ≤ 0 then k
    else match (t fd).kind with
      | .pipeRead =>
        match pipeValid k (t fd).pipeId with
        | none => setProc k i (finished p (errnoOf 9))
        | some j => readPipeFor k notify i j
      | .stdin | .devConsole => readKeyFor k i
      | _ => k
  | _, _ => k

def wakeReader (i : Fin 8) : Machine :=
  if sleeps (k.procs i) .read then procReadCheck k notify i else k

def procWakeReaders : Machine := overProcs k (fun k i => wakeReader k notify i)

end

def notifyWith : Nat → Machine → Machine
  | 0, k => k
  | fuel + 1, k => procWakeReaders (procWakePollers k) (notifyWith fuel)

/-- The bytes in all pipes bound the depth of notifications. -/
def queued : Nat := ((List.finRange 8).map (fun j => (k.pipes j).ring.count)).sum

def awaited (i : Fin 8) : Option (Fin 8) :=
  if sleeps (k.procs i) .read then
    match savedTable k (k.procs i), descIndex (k.procs i).blkFd with
    | some t, some fd => if (t fd).kind = .pipeRead then pipeValid k (t fd).pipeId else none
    | _, _ => none
  else none

def takesWhole (i j : Fin 8) : Bool :=
  let p := k.procs i
  let n := (k.pipes j).ring.count
  decide (n ≤ p.blkLen.toNat) && decide (n ≤ 128) && decide (p.blkPtr.toNat % 4096 + n ≤ 4096) &&
    p.space.isSome

def isCrowded : Bool :=
  (List.finRange 8).any (fun i => match awaited k i with
    | none => false
    | some j => decide (0 < (k.pipes j).ring.count) && !takesWhole k i j)

/-- `proc_notify_pipe` and `proc_notify_console`. -/
def procNotify : Machine :=
  notifyWith (queued k + 1)
    { k with trace := { k.trace with crowded := k.trace.crowded || isCrowded k } }

/-- `pipe_create`: the slot it takes. -/
def pipeCreate : Option (Fin 8) := (List.finRange 8).find? (fun j => !(k.pipes j).used)

def freshPipe : Pipe := ⟨true, 0, ⟨0, 0, 0, fun _ => 0#8⟩⟩

def pipeWriterAdd (id : Nat) (delta : Int) : Machine :=
  match pipeValid k id with
  | none => k
  | some j =>
    procNotify (setPipe k j { k.pipes j with writers := max 0 ((k.pipes j).writers + delta) })

/-- `pipe_read`: the bytes; `procNotify` follows. -/
def pipeRead (j : Fin 8) (len : Nat) : Machine × List (BitVec 8) :=
  (procNotify (dropFront k j len), front k j len)

/-- `pipe_write` appends what fits. -/
def appendTo (j : Fin 8) (bs : List (BitVec 8)) : Machine :=
  { setPipe k j { k.pipes j with ring := (k.pipes j).ring.put pipeSize bs } with
    trace := { k.trace with accepted := Function.update k.trace.accepted j (k.trace.accepted j ++ bs) } }

def fitting (j : Fin 8) (bs : List (BitVec 8)) : List (BitVec 8) :=
  bs.take (pipeSize - (k.pipes j).ring.count)

def pipeWrite (j : Fin 8) (bs : List (BitVec 8)) : Machine × Nat :=
  (procNotify (appendTo k j (fitting k j bs)), (fitting k j bs).length)

def sigBit (sig : Nat) : BitVec 32 := BitVec.twoPow 32 sig

def pend (p : Proc) (sig : Nat) : Proc :=
  { p with sig := { p.sig with pending := p.sig.pending ||| sigBit sig } }

/-- A signal ends a blocked call with -EINTR. -/
def interrupted (p : Proc) : Proc := { finished p (errnoOf eINTR) with blkHasDeadline := false }

/-- `kill` of one; if blocked in no call it is made ready. -/
def signalOne (p : Proc) (sig : Nat) : Proc :=
  let p := pend p sig
  if p.state = .blocked then
    if p.waitKind = .none then { p with state := .ready } else interrupted p
  else p

/-- `kill` of all: calls blocked in are left as they are. -/
def signalAny (p : Proc) (sig : Nat) : Proc :=
  if isUser p && p.state != .zombie then
    let p := pend p sig
    if p.state = .blocked then { p with state := .ready } else p
  else p

def procSignalSend (pid : BitVec 32) (sig : Int) : Machine × Int :=
  if sig < 0 ∨ 32 ≤ sig then (k, -22)
  else if sig = 0 then
    if pid = 0#32 ∨ pid = -1#32 then (k, 0) else (k, if (procFind k pid.toNat).isSome then 0 else -3)
  else if pid = 0#32 then
    if (cur k).pid = 1 then (k, -3) else (setProc k k.current (pend (cur k) sig.toNat), 0)
  else if pid = -1#32 then
    ({ k with procs := fun i => signalAny (k.procs i) sig.toNat },
      if (List.finRange 8).any (fun i => isUser (k.procs i) && (k.procs i).state != .zombie) then 0
      else -3)
  else match procFind k pid.toNat with
    | none => (k, -3)
    | some i =>
      if (k.procs i).pid = 1 then (k, -1)
      else if (k.procs i).state = .zombie then (k, 0)
      else (setProc k i (signalOne (k.procs i) sig.toNat), 0)

/-- A time that has come, by wrapping tick counts. -/
def passed (now t : BitVec 32) : Bool := decide (0 ≤ (now - t).toInt)

def alarmed (p : Proc) : Proc :=
  let p := { pend p 14 with alarmTick := 0#32 }
  if p.state = .blocked ∧ p.waitKind ≠ .none then interrupted p else p

def ringAlarm (i : Fin 8) : Machine :=
  let p := k.procs i
  if p.alarmTick ≠ 0#32 ∧ passed k.ticks p.alarmTick then setProc k i (alarmed p) else k

def expirePoll (i : Fin 8) : Machine :=
  let p := k.procs i
  if p.state = .blocked ∧ p.waitKind = .poll ∧ p.blkHasDeadline ∧
    passed k.ticks p.blkDeadline then procPollExpire k i
  else k

def tickOne (i : Fin 8) : Machine := if isUser (k.procs i) then expirePoll (ringAlarm k i) i else k

def procTickAll : Machine := overProcs k tickOne

/-- What `waitid` reports of an exited child. -/
def siginfo (c : Proc) : List (BitVec 32) :=
  [17#32, 0#32, 1#32, BitVec.ofNat 32 c.pid, 0#32, c.exitCode &&& 0xFF#32]

def writeWords (p : Proc) (a : BitVec 32) : List (BitVec 32) → Machine → Machine
  | [], k => k
  | v :: vs, k => writeWords p (a + 4#32) vs (procWriteUserU32 k p a v)

def waitStatus (c : Proc) : BitVec 32 := (c.exitCode &&& 0xFF#32) <<< 8

/-- `proc_wake_parent`; one blocked in another call is made ready too. -/
def wakeWaiter (c : Proc) (i : Fin 8) : Machine :=
  let p := k.procs i
  match p.waitKind with
  | .wait4 =>
    let k' := if p.waitStatusPtr = 0#32 then k else procWriteUserU32 k p p.waitStatusPtr (waitStatus c)
    setProc k' i { finished p (BitVec.ofNat 32 c.pid) with lastWaitPid := c.pid }
  | .waitid =>
    setProc (writeWords p p.waitInfop (siginfo c) k) i { finished p 0#32 with lastWaitPid := c.pid }
  | _ => setProc k i (finished p p.ctx.eax)

/-- The parent an exit reports to, if it waits for this child or any. -/
def roused (c : Proc) : Option (Fin 8) :=
  (procFind k c.ppid).filter (fun i => (k.procs i).state == .blocked &&
    !(decide (0 < (k.procs i).waitPid) && decide ((k.procs i).waitPid ≠ (c.pid : Int))))

def procWakeParent (c : Proc) : Machine :=
  match roused k c with
  | none => k
  | some i => wakeWaiter k c i

end MuOS.Kernel.Wake
