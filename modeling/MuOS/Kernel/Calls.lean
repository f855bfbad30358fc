import MuOS.Kernel.Sched

namespace MuOS.Kernel.Calls

open Function Fs.RamFs User Fds Descriptors Window Syscall Vfs Syscall FileCalls State Wake Sched

structure World where
  ataPresent : Bool
  modulesCount : Nat
  vtext : VFile → BitVec 32 → Path
  clock : Nat → BitVec 32
  io : FdKind → Nat → Int

abbrev Stores := List (BitVec 32 × List (BitVec 8))

/-- A call ends with a value, asleep, or waiting in place. -/
inductive Flow
  | ret (v : BitVec 32)
  | block (r : Request) (o : Otherwise)
  | spin

def eAGAIN : Nat := 11
def eCHILD : Nat := 10
def eNOMEM : Nat := 12
def eNOEXEC : Nat := 8
def eNOSYS : Nat := 38

variable (k : Machine) (w : World)

def failWith (code : Nat) : Machine × Flow := (k, .ret (errnoOf code))

def fsCtx : Ctx :=
  ⟨(cur k).uid, (cur k).gid, BitVec.ofNat 32 (cur k).pid, fun v => (procFind k v.toNat).isSome,
    w.ataPresent, w.modulesCount, w.vtext, w.clock, (pipeCreate k).map Fin.val, w.io⟩

def files : Sys := ⟨k.ram, k.fds, k.cwd⟩

def setFiles (s : Sys) : Machine := { k with ram := s.ram, fds := s.fds, cwd := s.cwd }

def addWriters (ds : List (Nat × Int)) : Machine := ds.foldl (fun k d => pipeWriterAdd k d.1 d.2) k

def fsStep (c : FsCall) : Machine × BitVec 32 :=
  let d := fsCall (fsCtx k w) (files k) c
  (addWriters (setFiles k d.sys) d.pipes, BitVec.ofInt 32 d.rc)

/-- No bytes transferred, no pipe created. -/
def isPlain : FsCall → Bool
  | .pipe _ | .read .. | .write .. | .writev .. | .sendfile .. => false
  | _ => true

def createPipe : Machine :=
  match pipeCreate k with
  | none => k
  | some j => setPipe k j freshPipe

/-- `pipe_create` marks its slot in any case. -/
def doPipe (ptr : BitVec 32) (out : Stores) : Machine × Flow :=
  if !userPtrOk ptr.toNat 8 then failWith k eFAULT
  else
    let d := FileCalls.doPipe (files k) (fsCtx k w) true
    (pokeAll (addWriters (setFiles (createPipe k) d.sys) d.pipes) out, .ret (BitVec.ofInt 32 d.rc))

def readConsole (fd : Int) (buf count : BitVec 32) : Machine × Flow :=
  match k.keys with
  | [] => (k, .block ⟨.read, buf, count.toInt, 0#32, false, fd⟩ .spin)
  | c :: rest => (pokeCur { k with keys := rest } buf [c], .ret 1#32)

/-- The pipe case of `do_read`: bytes are stored, then notified. -/
def readPipe (j : Fin 8) (fd : Int) (buf count : BitVec 32) : Machine × Flow :=
  let bs := front k j count.toNat
  let k' := (pipeRead (logHanded (pokeCur k buf bs) j bs) j count.toNat).1
  if bs = [] ∧ 0 < (k'.pipes j).writers then
    (k', .block ⟨.read, buf, count.toInt, 0#32, false, fd⟩ (.ret 0#32))
  else (logRead k' ⟨k.current, some j, bs, BitVec.ofNat 32 bs.length, true⟩,
    .ret (BitVec.ofNat 32 bs.length))

def doRead (fd : Int) (buf count : BitVec 32) (out : Stores) : Machine × Flow :=
  if count = 0#32 then (k, .ret 0#32)
  else if !userPtrOk buf.toNat count.toNat then failWith k eFAULT
  else match descIndex fd with
    | none => failWith k eBADF
    | some i =>
      match (k.fds i).kind with
      | .free => failWith k eBADF
      | .stdin | .devConsole => readConsole k fd buf count
      | .pipeRead =>
        match pipeValid k (k.fds i).pipeId with
        | none => failWith k eBADF
        | some j => readPipe k j fd buf count
      | _ =>
        let r := fsStep k w (.read fd count.toNat true)
        (pokeAll r.1 out, .ret r.2)

def doReadv (fd : Int) (out : Stores) : List (BitVec 32 × BitVec 32) → BitVec 32 → Machine →
    Machine × Flow
  | [], total, k => (k, .ret total)
  | (buf, len) :: parts, total, k =>
    match doRead k w fd buf len out with
    | (k', .ret v) =>
      if v.toInt < 0 then (k', .ret (if total = 0#32 then v else total))
      else if v.toNat < len.toNat then (k', .ret (total + v))
      else doReadv fd out parts (total + v) k'
    | (k', .block r (.ret _)) => (k', .block r (.ret total))
    | (k', .block r .spin) => (k', .block r .spin)
    | (k', .spin) => (k', .spin)

def writePipe (id : Nat) (bs : List (BitVec 8)) : Option (Machine × Nat) :=
  (pipeValid k id).map (fun j => pipeWrite k j bs)

def doWrite (fd : Int) (buf count : BitVec 32) : Machine × BitVec 32 :=
  if count = 0#32 then (k, 0#32)
  else if !userPtrOk buf.toNat count.toNat then (k, errnoOf eFAULT)
  else match descIndex fd with
    | none => (k, errnoOf eBADF)
    | some i =>
      if (k.fds i).kind = .pipeWrite then
        match writePipe k (k.fds i).pipeId (peekCur k buf count.toNat) with
        | none => (k, errnoOf eBADF)
        | some (k', n) => (k', BitVec.ofNat 32 n)
      else fsStep k w (.write fd (some (peekCur k buf count.toNat)))

def doWritev (fd : Int) : List (BitVec 32 × BitVec 32) → BitVec 32 → Machine → Machine × BitVec 32
  | [], total, k => (k, total)
  | (buf, len) :: parts, total, k =>
    let r := doWrite k w fd buf len
    if r.2.toInt < 0 then (r.1, if total = 0#32 then r.2 else total)
      else doWritev fd parts (total + r.2) r.1

/-- The loop of `do_sendfile` into a pipe; `none`: no such pipe. -/
def sendPipe (id : Nat) (slot : Int) : Nat → Nat → Machine → BitVec 32 → Nat →
    Machine × Option Nat × BitVec 32
  | 0, total, k, off, _ => (k, some total, off)
  | fuel + 1, total, k, off, count =>
    if count ≤ total then (k, some total, off)
    else
      let r := fsReadAt k.ram slot off.toNat (min (count - total) 4096)
      let k := { k with ram := fsReadAtTouch k.ram slot off.toNat (w.clock fuel) }
      if r.1 ≤ 0 then (k, some total, off)
      else match writePipe k id r.2 with
        | none => (k, if total = 0 then none else some total, off)
        | some (k', n) =>
          if n < r.2.length then (k', some (total + n), off + BitVec.ofNat 32 n)
          else sendPipe id slot fuel (total + n) k' (off + BitVec.ofNat 32 n) count

/-- The offset is absent, unreadable or a number with its address. -/
def doSendfile (out inp : Int) (offset : Option (Option (BitVec 32 × BitVec 32))) (count : Nat) :
    Machine × BitVec 32 :=
  match descIndex out with
  | none => fsStep k w (.sendfile out inp (offset.map (Option.map Prod.snd)) count)
  | some i =>
    if (k.fds i).kind = .pipeWrite then
      let slot := userFdSlot (entries k.fds) inp
      if slot < 0 then (k, errnoOf eBADF)
      else match offset with
        | some none => (k, errnoOf eFAULT)
        | some (some (a, off)) =>
          match sendPipe w (k.fds i).pipeId slot count 0 k off count with
          | (k', none, _) => (k', errnoOf eBADF)
          | (k', some n, off') => (pokeCur k' a (le32 off'), BitVec.ofNat 32 n)
        | none =>
          match sendPipe w (k.fds i).pipeId slot count 0 k (userFdOffset k.fds inp) count with
          | (k', none, _) => (k', errnoOf eBADF)
          | (k', some n, off') => ({ k' with fds := userFdSetOffset k'.fds inp off' }, BitVec.ofNat 32 n)
    else fsStep k w (.sendfile out inp (offset.map (Option.map Prod.snd)) count)

/-- `fd_read_ready` and `fd_write_ready`, on the live table. -/
def liveReady (d : Desc) (write : Bool) : Bool :=
  match d.kind with
  | .stdin => !write && !k.keys.isEmpty
  | .devConsole => write || !k.keys.isEmpty
  | .file | .devNull | .devZero | .devAta => true
  | .vfile | .dir => !write
  | .stdout | .stderr => write
  | .pipeRead => !write && ((pipeValid k d.pipeId).map (fun j =>
      decide (0 < (k.pipes j).ring.count) || (k.pipes j).writers == 0)).getD true
  | .pipeWrite => write &&
    ((pipeValid k d.pipeId).map (fun j => decide ((k.pipes j).ring.count < pipeSize))).getD true
  | .free => false

def hangup (d : Desc) : Bool :=
  d.kind == .pipeRead && ((pipeValid k d.pipeId).map (fun j => (k.pipes j).writers == 0)).getD true

def liveEvents (fd : Int) (events : BitVec 16) : BitVec 16 :=
  match descIndex fd with
  | none => if fd < 0 then 0#16 else pollNval
  | some i =>
    let d := k.fds i
    if d.kind = .free then pollNval
    else flag (wants events pollIn && liveReady k d false) pollIn |||
      flag (wants events pollOut && liveReady k d true) pollOut ||| flag (hangup k d) pollHup

/-- One `pollfd` of `poll_scan`. -/
def scanEntry (a : BitVec 32) : Machine × PollFd :=
  let bs := peekCur k a 8
  let fd := (bs.getD 3 0#8 ++ bs.getD 2 0#8 ++ bs.getD 1 0#8 ++ bs.getD 0 0#8 : BitVec 32)
  let events := (bs.getD 5 0#8 ++ bs.getD 4 0#8 : BitVec 16)
  let rev := liveEvents k fd.toInt events
  (pokeCur k a (bs.take 6 ++ le16 rev), ⟨fd, events, rev⟩)

def pollScan (ptr : BitVec 32) : List Nat → Machine → Machine × List PollFd
  | [], k => (k, [])
  | n :: ns, k =>
    let r := scanEntry k (ptr + BitVec.ofNat 32 (8 * n))
    let rest := pollScan ptr ns r.1
    (rest.1, r.2 :: rest.2)

/-- Milliseconds to ticks of the timer, at least one. -/
def pollTicks (timeout : BitVec 32) : BitVec 32 :=
  if 0 < timeout.toInt then BitVec.ofNat 32 (max 1 ((timeout.toNat + 9) / 10)) else 0#32

def doPoll (ptr nfds timeout : BitVec 32) : Machine × Flow :=
  if 1024 < nfds.toNat then failWith k eINVAL
  else if nfds ≠ 0#32 ∧ !userPtrOk ptr.toNat (nfds.toNat * 8) then failWith k eFAULT
  else
    let r := pollScan ptr (List.range nfds.toNat) k
    if readyCount r.2 ≠ 0 ∨ timeout = 0#32 then (r.1, .ret (BitVec.ofNat 32 (readyCount r.2)))
    else (r.1, .block ⟨.poll, ptr, nfds.toInt, k.ticks + pollTicks timeout,
      decide (0 < timeout.toInt), -1⟩ .spin)

inductive Shortage
  | stack | space | table
deriving DecidableEq

/-- `proc_space_cow`: a new space with the old one's frames. -/
def cowSpace (child : Fin 8) (sp : Nat) : Machine :=
  { setProc k child { k.procs child with space := some k.nextSpace } with
    nextSpace := k.nextSpace + 1
    mem := withSpace k.mem k.nextSpace (k.mem.frame sp) (k.mem.apart sp) }

/-- The child's own table, a counted copy of the live one. -/
def ownTable (child : Fin 8) : Machine :=
  let k := retain (fdstateAlloc k child) k.fds
  setProc k child { k.procs child with fdsRetained := true }

/-- `proc_signal_inherit`. -/
def inherited (s : Signals) : Signals :=
  { s with pending := 0#32, frameSp := noSignals.frameSp, depth := 0 }

/-- What a child takes from its parent; `c` has its first registers. -/
def childOf (p parent : Proc) (c : Context) (tls : Tls) (thread : Bool) : Proc :=
  { p with
    cwd := k.cwd.take 63
    brk := brkState k.brk
    tls := tls
    ctx := c
    hasCtx := true
    isThread := thread
    uid := parent.uid
    gid := parent.gid
    sig := inherited parent.sig }

def forkCtx : Context :=
  { saved k.frame with eax := 0#32, fsSel := orDefault k.frame.fs, gsSel := orDefault k.frame.gs }

def finishChild (child : Fin 8) (c : Context) (tls : Tls) (thread : Bool) : Machine × Flow :=
  (setProc k child (childOf k (k.procs child) (cur k) c tls thread),
    .ret (BitVec.ofNat 32 (k.procs child).pid))

def doFork (short : Option Shortage) : Machine × Flow :=
  match freeSlot k with
  | none => failWith k eAGAIN
  | some child =>
    if short = some .stack then failWith (allocFailed k child (cur k).pid) eAGAIN
    else match (cur k).space with
      | none => failWith (procReap (procAlloc k child (cur k).pid) child) eNOMEM
      | some sp =>
        let a := procAlloc k child (cur k).pid
        if short = some .space then failWith (procReap a child) eNOMEM
        else if short = some .table then failWith (procReap (cowSpace a child sp) child) eNOMEM
        else
          let c := ownTable (cowSpace a child sp) child
          finishChild c child (forkCtx c) c.tls false

def cloneVm : BitVec 32 := 0x100#32
def cloneFiles : BitVec 32 := 0x400#32
def cloneSettls : BitVec 32 := 0x80000#32

def cloneTls (flags base : BitVec 32) : Tls :=
  if hasFlag flags cloneSettls then ⟨base, 0xFFFFF#20, 0x51#32⟩ else k.tls

def cloneCtx (flags stack : BitVec 32) : Context :=
  { saved k.frame with
    eax := 0#32
    esp := if stack = 0#32 then k.frame.useresp else stack
    fsSel := 0x23#32
    gsSel := if hasFlag flags cloneSettls then 0x33#32 else orDefault k.frame.gs }

def cloneSpace (flags : BitVec 32) (child : Fin 8) (sp : Nat) : Machine :=
  if hasFlag flags cloneVm then setProc k child { k.procs child with space := some sp }
    else cowSpace k child sp

def cloneTable (flags : BitVec 32) (child : Fin 8) : Option Machine :=
  if hasFlag flags cloneFiles then (cur k).fdState.map (fun t => fdstateShare k child k.current t)
  else some (ownTable k child)

def tellTids (flags ptid ctid : BitVec 32) (child : Fin 8) : Machine :=
  let pid := BitVec.ofNat 32 (k.procs child).pid
  let k := if ptid ≠ 0#32 ∧ userPtrOk ptid.toNat 4 then pokeCur k ptid (le32 pid) else k
  if ctid ≠ 0#32 ∧ userPtrOk ctid.toNat 4 then
    if hasFlag flags cloneVm then pokeCur k ctid (le32 pid) else storeFor k (k.procs child) ctid (le32 pid)
  else k

def doClone (flags stack ptid tls ctid : BitVec 32) (short : Option Shortage) : Machine × Flow :=
  match freeSlot k with
  | none => failWith k eAGAIN
  | some child =>
    if short = some .stack then failWith (allocFailed k child (cur k).pid) eAGAIN
    else match (cur k).space with
      | none => failWith (procReap (procAlloc k child (cur k).pid) child) eNOMEM
      | some sp =>
        let a := procAlloc k child (cur k).pid
        if short = some .space then failWith (procReap a child) eNOMEM
        else
          let b := cloneSpace a flags child sp
          if short = some .table then failWith (procReap b child) eNOMEM
          else match cloneTable b flags child with
            | none => failWith (procReap b child) eNOMEM
            | some c =>
              let r := finishChild c child (cloneCtx c flags stack) (cloneTls c flags tls)
                (hasFlag flags cloneVm)
              (tellTids r.1 flags ptid ctid child, r.2)

def isChild (want : Int) (p : Proc) : Bool :=
  p.used && p.ppid == (cur k).pid && !(decide (0 < want) && decide ((p.pid : Int) ≠ want))

def findChild (want : Int) : Option (Fin 8) :=
  (List.finRange 8).find? (fun i => isChild k want (k.procs i))

def findZombieChild (want : Int) : Option (Fin 8) :=
  (List.finRange 8).find? (fun i => isChild k want (k.procs i) && (k.procs i).state == .zombie)

/-- The child reported by a wake-up goes at the next wait. -/
def reapReported : Machine :=
  if (cur k).lastWaitPid = 0 then k
  else
    let k := match procFind k (cur k).lastWaitPid with
      | none => k
      | some i => if (k.procs i).state = .zombie then procReap k i else k
    setProc k k.current { cur k with lastWaitPid := 0 }

/-- The end of `do_wait4` and `do_waitid` when nothing has exited. -/
def waitOr (want : Int) (nohang : Bool) (r : Request) : Machine × Flow :=
  if (findChild k want).isNone then failWith k eCHILD
  else if nohang then (k, .ret 0#32)
  else (k, .block r (.ret (errnoOf eCHILD)))

def doWait4 (pid status options : BitVec 32) : Machine × Flow :=
  if status ≠ 0#32 ∧ !userPtrOk status.toNat 4 then failWith k eFAULT
  else
    let k := reapReported k
    match findZombieChild k pid.toInt with
    | some i =>
      let c := k.procs i
      let k := if status = 0#32 then k else pokeCur k status (le32 (waitStatus c))
      (procReap k i, .ret (BitVec.ofNat 32 c.pid))
    | none => waitOr k pid.toInt (hasFlag options 1#32) ⟨.wait4, status, pid.toInt, 0#32, false, -1⟩

def doWaitid (idtype id infop options : BitVec 32) : Machine × Flow :=
  if !userPtrOk infop.toNat 128 then failWith k eFAULT
  else
    let k := reapReported (pokeCur k infop (List.replicate 128 0#8))
    let want := if idtype = 1#32 then id.toInt else -1
    match findZombieChild k want with
    | some i =>
      (procReap (pokeCur k infop ((siginfo (k.procs i)).flatMap le32)) i, .ret 0#32)
    | none => waitOr k want (hasFlag options 1#32) ⟨.waitid, infop, want, 0#32, false, -1⟩

def setSignals (s : Signals) : Machine := setProc k k.current { cur k with sig := s }

/-- `proc_signal_set_action`: the old handler; `none` if refused. -/
def setAction (sig handler flags restorer : BitVec 32) : Option (Machine × BitVec 32) :=
  if sig.toInt ≤ 0 ∨ 32 ≤ sig.toNat ∨ sig = 9#32 ∨ sig = 19#32 then none
  else
    let n := Fin.ofNat 32 sig.toNat
    let s := (cur k).sig
    some (setSignals k { s with
      handler := update s.handler n handler
      flags := update s.flags n flags
      restorer := update s.restorer n restorer
      pending := if handler = 0#32 ∨ handler = 1#32 then s.pending &&& ~~~sigBit n.val
        else s.pending }, s.handler n)

/-- `do_signal`; an old handler of 22 is taken for an error. -/
def doSignal (sig handler : BitVec 32) : Machine × Flow :=
  match setAction k sig handler 0#32 0#32 with
  | none => failWith k eINVAL
  | some (k', old) => (k', .ret (if old = 22#32 then errnoOf eINVAL else old))

/-- `do_sigaction` with a new action. -/
def doSigaction (sig handler flags restorer : BitVec 32) (out : Stores) : Machine × Flow :=
  match setAction (pokeAll k out) sig handler flags restorer with
  | none => failWith (pokeAll k out) eINVAL
  | some (k', old) => (k', .ret (if old = 22#32 then errnoOf eINVAL else 0#32))

def unblockable : BitVec 32 := sigBit 9 ||| sigBit 19

def doSigprocmask (how set : BitVec 32) (out : Stores) : Machine × Flow :=
  let k := pokeAll k out
  let s := (cur k).sig
  let v := set &&& ~~~unblockable
  if how = 0#32 then (setSignals k { s with blocked := s.blocked ||| v }, .ret 0#32)
  else if how = 1#32 then (setSignals k { s with blocked := s.blocked &&& ~~~v }, .ret 0#32)
  else if how = 2#32 then (setSignals k { s with blocked := v }, .ret 0#32)
  else failWith k eINVAL

def signalPending : Bool := (cur k).sig.pending &&& ~~~(cur k).sig.blocked != 0#32

def doSigsuspend (mask : Option (BitVec 32)) : Machine × Flow :=
  let k := match mask with
    | none => k
    | some v => setSignals k { (cur k).sig with blocked := v &&& ~~~unblockable }
  if signalPending k then failWith k eINTR
  else (k, .block ⟨.sigsusp, 0#32, 0, 0#32, false, -1⟩ .spin)

def doSigreturn : Machine × Flow :=
  let r := sigreturn k
  if r.2 then (r.1, .ret r.1.frame.eax) else failWith r.1 eINVAL

def doAlarm (sec : BitVec 32) : Machine × Flow :=
  let p := cur k
  if p.pid = 1 then (k, .ret 0#32)
  else
    let left := (p.alarmTick - k.ticks).toInt
    let remain := if p.alarmTick ≠ 0#32 ∧ 0 < left then (left.toNat + 99) / 100 else 0
    (setProc k k.current { p with alarmTick := if sec = 0#32 then 0#32 else k.ticks + sec * 100#32 },
      .ret (BitVec.ofNat 32 remain))

def doSetuid (uid : BitVec 32) : Machine × Flow :=
  if (cur k).uid ≠ 0#32 ∧ uid ≠ (cur k).uid then failWith k ePERM
  else (setProc k k.current { cur k with uid := uid }, .ret 0#32)

def doSetgid (gid : BitVec 32) : Machine × Flow :=
  if (cur k).uid ≠ 0#32 ∧ gid ≠ (cur k).gid then failWith k ePERM
  else (setProc k k.current { cur k with gid := gid }, .ret 0#32)

def doBrk (addr : BitVec 32) : Machine × Flow :=
  let old := BitVec.ofNat 32 (brkState k.brk).2
  match k.brk.bind (fun b => userSetBrk b addr.toNat) with
  | none => (k, .ret old)
  | some b => if addr = 0#32 then (k, .ret old) else ({ k with brk := some b }, .ret addr)

/-- `mmap` without `MAP_FIXED`; `bad` is an error found too late. -/
def doMmapAnon (len : BitVec 32) (bad : Option Nat) (out : Stores) : Machine × Flow :=
  match k.brk.bind (fun b => userMmapAnon b len.toNat) with
  | none => failWith k eNOMEM
  | some (start, b) =>
    let k := pokeAll { k with brk := some b } out
    match bad with
    | none => (k, .ret (BitVec.ofNat 32 start))
    | some code => failWith k code

/-- `do_set_thread_area` also records the descriptor in the process. -/
def doSetThreadArea (entry base limit flags : BitVec 32) (out : Stores) : Machine × Flow :=
  if entry ≠ -1#32 ∧ entry ≠ 6#32 then failWith k eINVAL
  else
    let t : Tls := ⟨base, limit.setWidth 20, flags⟩
    (pokeAll (setProc { k with tls := t } k.current { cur k with tls := t }) out, .ret 0#32)

/-- The break behind an image; `none` if beyond the window. -/
def imageBrk (imageEnd : Nat) : Option Brk :=
  let base := max (alignUpPage imageEnd) (userBase + 4096)
  if arenaEnd < imageEnd then none else userRestoreBrkState base base

/-- `execve` ends with the old image, without room for the stack, or at the entry. -/
inductive Exec
  | refused (code : Nat) (out : Stores)
  | noRoom (imageEnd : Nat) (out : Stores)
  | entered (imageEnd : Nat) (entry sp : BitVec 32) (out : Stores)

def doExecve : Exec → Machine × Flow
  | .refused code out => failWith (pokeAll k out) code
  | .noRoom imageEnd out =>
    failWith (pokeAll { k with brk := (imageBrk imageEnd).or k.brk } out) eNOEXEC
  | .entered imageEnd entry sp out =>
    let k := pokeAll { k with brk := (imageBrk imageEnd).or k.brk, active := true } out
    ({ k with frame := { k.frame with
        eip := entry, useresp := sp, ebx := 0#32, ecx := 0#32, edx := 0#32, esi := 0#32,
        edi := 0#32, ebp := 0#32 } },
      .ret 0#32)

/-- The system calls; those that only look, and the sockets, are `other`. -/
inductive Call
  | fs (c : FsCall) (w : World) (out : Stores)
  | pipe (ptr : BitVec 32) (w : World) (out : Stores)
  | read (fd buf count : BitVec 32) (w : World) (out : Stores)
  | readv (fd : BitVec 32) (parts : List (BitVec 32 × BitVec 32)) (w : World) (out : Stores)
  | write (fd buf count : BitVec 32) (w : World)
  | writev (fd : BitVec 32) (parts : List (BitVec 32 × BitVec 32)) (w : World)
  | sendfile (out inp : BitVec 32) (offset : Option (Option (BitVec 32 × BitVec 32)))
    (count : BitVec 32) (w : World)
  | poll (ptr nfds timeout : BitVec 32)
  | fork (short : Option Shortage)
  | clone (flags stack ptid tls ctid : BitVec 32) (short : Option Shortage)
  | wait4 (pid status options : BitVec 32)
  | waitid (idtype id infop options : BitVec 32)
  | kill (pid sig : BitVec 32)
  | signal (sig handler : BitVec 32)
  | sigaction (sig handler flags restorer : BitVec 32) (out : Stores)
  | sigprocmask (how set : BitVec 32) (out : Stores)
  | sigsuspend (mask : Option (BitVec 32))
  | sigreturn
  | alarm (sec : BitVec 32)
  | setuid (uid : BitVec 32)
  | setgid (gid : BitVec 32)
  | brk (addr : BitVec 32)
  | mmap (len : BitVec 32) (bad : Option Nat) (out : Stores)
  | setThreadArea (entry base limit flags : BitVec 32) (out : Stores)
  | execve (e : Exec)
  | getdents (fd offset v : BitVec 32) (out : Stores)
  | sleep
  | other (v : BitVec 32) (out : Stores)

/-- A transfer is not of this form; answered as an unknown number. -/
def plainCall (c : FsCall) (out : Stores) : Machine × Flow :=
  if isPlain c then
    let r := fsStep k w c
    (pokeAll r.1 out, .ret r.2)
  else failWith k eNOSYS

def sysCall (k : Machine) : Call → Machine × Flow
  | .fs c w out => plainCall k w c out
  | .pipe ptr w out => doPipe k w ptr out
  | .read fd buf count w out => doRead k w fd.toInt buf count out
  | .readv fd parts w out => doReadv w fd.toInt out parts 0#32 k
  | .write fd buf count w =>
    ((doWrite k w fd.toInt buf count).1, .ret (doWrite k w fd.toInt buf count).2)
  | .writev fd parts w =>
    ((doWritev w fd.toInt parts 0#32 k).1, .ret (doWritev w fd.toInt parts 0#32 k).2)
  | .sendfile out inp offset count w =>
    ((doSendfile k w out.toInt inp.toInt offset count.toNat).1,
      .ret (doSendfile k w out.toInt inp.toInt offset count.toNat).2)
  | .poll ptr nfds timeout => doPoll k ptr nfds timeout
  | .fork short => doFork k short
  | .clone flags stack ptid tls ctid short => doClone k flags stack ptid tls ctid short
  | .wait4 pid status options => doWait4 k pid status options
  | .waitid idtype id infop options => doWaitid k idtype id infop options
  | .kill pid sig =>
    ((procSignalSend k pid sig.toInt).1, .ret (BitVec.ofInt 32 (procSignalSend k pid sig.toInt).2))
  | .signal sig handler => doSignal k sig handler
  | .sigaction sig handler flags restorer out => doSigaction k sig handler flags restorer out
  | .sigprocmask how set out => doSigprocmask k how set out
  | .sigsuspend mask => doSigsuspend k mask
  | .sigreturn => doSigreturn k
  | .alarm sec => doAlarm k sec
  | .setuid uid => doSetuid k uid
  | .setgid gid => doSetgid k gid
  | .brk addr => doBrk k addr
  | .mmap len bad out => doMmapAnon k len bad out
  | .setThreadArea entry base limit flags out => doSetThreadArea k entry base limit flags out
  | .execve e => doExecve k e
  | .getdents fd offset v out =>
    (pokeAll { k with fds := userFdSetOffset k.fds fd.toInt offset } out, .ret v)
  | .sleep => (k, .spin)
  | .other v out => (pokeAll k out, .ret v)

end MuOS.Kernel.Calls
