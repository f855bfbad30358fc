import MuOS.Kernel.Wake

namespace MuOS.Kernel.Sched

open Function Fs.RamFs User Descriptors Window Syscall.FileCalls State Wake

variable (k : Machine)

/-- `fd_entry_ref` with +1. -/
def entryRef (d : Desc) : Machine :=
  let k := { k with ram := refFile k.ram d }
  if d.kind = .pipeWrite then pipeWriterAdd k d.pipeId 1 else k

/-- `fd_entry_ref` with -1. -/
def entryUnref (d : Desc) : Machine :=
  let k := { k with ram := unrefFile k.ram d }
  if d.kind = .pipeWrite then pipeWriterAdd k d.pipeId (-1) else k

/-- `user_fd_state_retain`. -/
def retain (t : Table) : Machine := (List.finRange 11).foldl (fun k i => entryRef k (t i)) k

/-- `user_fd_state_release`. -/
def release (t : Table) : Machine := (List.finRange 11).foldl (fun k i => entryUnref k (t i)) k

/-- `user_fd_state_save` into the table of a process. -/
def saveFds (i : Fin 8) : Machine :=
  match (k.procs i).fdState with
  | none => k
  | some t =>
    { k with states := update k.states t ((k.states t).map (fun f => { f with table := k.fds })) }

/-- `proc_fdstate_alloc`, filled with the live table. -/
def fdstateAlloc (i : Fin 8) : Machine :=
  { setProc k i { k.procs i with fdState := some k.nextState } with
    states := update k.states k.nextState (some ⟨1, k.fds⟩)
    nextState := k.nextState + 1 }

def fdstateShare (child parent : Fin 8) (t : Nat) : Machine :=
  { setProc k child
    { k.procs child with fdState := some t, fdsRetained := (k.procs parent).fdsRetained } with
    states := update k.states t ((k.states t).map (fun f => { f with refs := f.refs + 1 })) }

def fdstateFree (i : Fin 8) : Machine :=
  match (k.procs i).fdState with
  | none => k
  | some t =>
    match k.states t with
    | none => k
    | some f =>
      if 1 < f.refs then setState k t (some { f with refs := f.refs - 1 })
      else setState (if (k.procs i).fdsRetained then release k f.table else k) t none

def freeSlot : Option (Fin 8) := (List.finRange 8).find? (fun i => !(k.procs i).used)

/-- A process as `proc_alloc` leaves it. -/
def newProc (ppid : Nat) : Proc :=
  { emptyProc with
    used := true
    pid := k.nextPid
    ppid := ppid
    state := .ready
    ctx := { emptyProc.ctx with fsSel := 0x23#32, gsSel := 0x23#32 } }

/-- `proc_alloc` in a free slot. -/
def procAlloc (i : Fin 8) (ppid : Nat) : Machine :=
  { setProc k i (newProc k ppid) with nextPid := k.nextPid + 1 }

/-- `proc_alloc` with no memory for the kernel stack. -/
def allocFailed (i : Fin 8) (ppid : Nat) : Machine :=
  { setProc k i { newProc k ppid with used := false } with nextPid := k.nextPid + 1 }

def kernelSlot : Fin 8 := (procFind k 1).getD 0

def procReap (i : Fin 8) : Machine :=
  if (k.procs i).used then
    let k := fdstateFree (setProc k i { k.procs i with space := none }) i
    setProc (if k.current = i then { k with current := kernelSlot k } else k) i emptyProc
  else k

/-- `proc_cleanup_children`; at most seven generations. -/
def cleanupChildren : Nat → Nat → Machine → Machine
  | 0, _, k => k
  | fuel + 1, pid, k =>
    overProcs k fun k i =>
      if (k.procs i).used ∧ (k.procs i).pid ≠ pid ∧ (k.procs i).ppid = pid then
        procReap (cleanupChildren fuel (k.procs i).pid k) i
      else k

def runnable (p : Proc) : Bool := isUser p && p.state == .ready && p.hasCtx

/-- `sched_pick_next` from slot `start` on, around the end. -/
def pickFrom (start : Nat) : Option (Fin 8) :=
  ((List.range 8).map (fun n => Fin.ofNat 8 (start + n))).find? (fun i => runnable (k.procs i))

def saved (r : Regs) : Context :=
  ⟨r.eip, r.useresp, r.eflags, r.eax, r.ebx, r.ecx, r.edx, r.esi, r.edi, r.ebp, r.fs &&& 0xFFFF#32,
    r.gs &&& 0xFFFF#32⟩

def brkState (b : Option Brk) : Nat × Nat := (b.map (fun b => (b.base, b.current))).getD (0, 0)

/-- `proc_save_ctx` and `proc_save_state` without the descriptors. -/
def withState (p : Proc) : Proc :=
  { p with
    ctx := saved k.frame
    hasCtx := true
    cwd := k.cwd.take 63
    brk := if p.isThread then p.brk else brkState k.brk
    tls := k.tls }

def saveCurrent : Machine :=
  let k := saveFds k k.current
  setProc k k.current (withState k (cur k))

def orDefault (sel : BitVec 32) : BitVec 32 := if sel = 0#32 then 0x23#32 else sel

def safeFlags (v : BitVec 32) : BitVec 32 := (v ||| 0x200#32) &&& ~~~0x3000#32

def loaded (c : Context) : Regs :=
  ⟨c.eip, c.esp, safeFlags c.eflags, c.eax, c.ebx, c.ecx, c.edx, c.esi, c.edi, c.ebp, 0x1B#32,
    0x23#32, 0x23#32, 0x23#32, orDefault c.fsSel, orDefault c.gsSel⟩

/-- `user_cwd_set` takes an absolute path that fits. -/
def cwdFits (p : Syscall.Vfs.Path) : Bool := decide (p.head? = some slash) && decide (p.length < 64)

/-- `user_restore_brk_state` ignores a break out of order. -/
def restoredBrk (p : Proc) : Option Brk :=
  if p.isThread then k.brk else (userRestoreBrkState p.brk.1 p.brk.2).or k.brk

def schedLoad (i : Fin 8) : Machine :=
  let p := k.procs i
  { setProc k i { p with state := .running } with
    cr3 := p.space
    fds := (savedTable k p).getD k.fds
    cwd := if cwdFits p.cwd then p.cwd else k.cwd
    brk := restoredBrk k p
    tls := p.tls
    current := i
    active := true
    frame := loaded p.ctx
    frameSwitched := true }

def waitsForChild (w : Wait) : Bool := w == .wait4 || w == .waitid

/-- The process as `proc_block_current_ext` marks it. -/
def asleep (p : Proc) (r : Request) : Proc :=
  { p with
    waitKind := r.kind
    waitPid := if waitsForChild r.kind then r.len else 0
    waitStatusPtr := if r.kind = .wait4 then r.ptr else 0#32
    waitInfop := if r.kind = .waitid then r.ptr else 0#32
    blkPtr := r.ptr
    blkLen := r.len
    blkFd := r.fd
    blkDeadline := r.deadline
    blkHasDeadline := r.hasDeadline
    state := .blocked }

/-- `proc_block_current_ext`: whether another process was loaded. -/
def blockCurrent (r : Request) : Machine × Bool :=
  let k := saveCurrent k
  let k := { setProc k k.current (asleep (cur k) r) with active := false }
  match pickFrom k (k.current.val + 1) with
  | some i => (schedLoad k i, true)
  | none =>
    ({ setProc k k.current
      { cur k with state := .running, waitKind := .none, blkHasDeadline := false } with
      active := true }, false)

/-- The end of `proc_sched_tick`: making way if another can run. -/
def preempt : Machine :=
  let k := saveCurrent k
  let k := setProc k k.current { cur k with state := .ready }
  match pickFrom k (k.current.val + 1) with
  | some i =>
    if i = k.current then setProc k k.current { cur k with state := .running } else schedLoad k i
  | none => setProc k k.current { cur k with state := .running }

/-- The first part of `proc_exit_current`, up to `proc_wake_parent`. -/
def exitCurrent (code : BitVec 32) (faulted : Bool) : Machine :=
  let k := saveFds k k.current
  let p :=
    { cur k with
      exitCode := code
      faulted := faulted
      state := .zombie
      hasCtx := false
      blkHasDeadline := false
      waitKind := .none }
  procWakeParent { setProc k k.current p with active := false } p

def userSigtramp : Nat := 0x08847000

/-- `proc_sig_default_terminates`. -/
def terminates (sig : Nat) : Bool :=
  (decide (1 ≤ sig) && decide (sig ≤ 16)) || (decide (24 ≤ sig) && decide (sig ≤ 27)) ||
    (decide (29 ≤ sig) && decide (sig ≤ 31))

inductive Delivery
  | nothing
  | handled
  | exit (code : BitVec 32) (faulted : Bool)

def sigFrame (r : Regs) : List (BitVec 32) :=
  [r.eax, r.ebx, r.ecx, r.edx, r.esi, r.edi, r.ebp, r.useresp, r.eflags, r.fs, r.gs, r.eip]

def returnTo (p : Proc) (sig : Fin 32) : BitVec 32 :=
  if p.sig.flags sig &&& 0x04000000#32 ≠ 0#32 ∧ p.sig.restorer sig ≠ 0#32 then p.sig.restorer sig
  else BitVec.ofNat 32 userSigtramp

def enterHandler (sig : Fin 32) (base : BitVec 32) : Machine :=
  let p := cur k
  let words := returnTo p sig :: BitVec.ofNat 32 sig.val :: sigFrame k.frame
  let k := pokeCur k (base - 8#32) (words.flatMap le32)
  { setProc k k.current { p with
      sig := { p.sig with
        frameSp := update p.sig.frameSp (Fin.ofNat 4 p.sig.depth) base
        depth := p.sig.depth + 1 } } with
    frame :=
      { k.frame with eip := p.sig.handler sig, useresp := base - 8#32, eax := BitVec.ofNat 32 sig.val } }

def handleSignal (sig : Fin 32) : Machine × Delivery :=
  let base := k.frame.useresp - 48#32
  if 4 ≤ (cur k).sig.depth then (k, .exit (BitVec.ofNat 32 (128 + sig.val)) true)
  else if base.toNat < userBase ∨ userSigtramp ≤ base.toNat then (k, .exit 139#32 true)
  else (enterHandler k sig base, .handled)

/-- The loop of `proc_signal_deliver`: the lowest pending signal not blocked. -/
def deliverFrom : List (Fin 32) → Machine → Machine × Delivery
  | [], k => (k, .nothing)
  | sig :: sigs, k =>
    let p := cur k
    if p.sig.pending &&& ~~~p.sig.blocked &&& sigBit sig.val = 0#32 then deliverFrom sigs k
    else
      let k :=
        setProc k k.current { p with sig := { p.sig with pending := p.sig.pending &&& ~~~sigBit sig.val } }
      if p.sig.handler sig = 1#32 then deliverFrom sigs k
      else if p.sig.handler sig = 0#32 then
        if terminates sig.val then (k, .exit (BitVec.ofNat 32 (128 + sig.val)) false)
          else deliverFrom sigs k
      else handleSignal k sig

def signalDeliver : Machine × Delivery := deliverFrom ((List.finRange 32).drop 1) k

def sigWord (base : BitVec 32) (n : Nat) : BitVec 32 :=
  let bs := peekCur k (base + BitVec.ofNat 32 (4 * n)) 4
  bs.getD 3 0#8 ++ bs.getD 2 0#8 ++ bs.getD 1 0#8 ++ bs.getD 0 0#8

def selector (v : BitVec 32) : BitVec 32 := if v = 0#32 then 0x23#32 else v &&& 0xFFFF#32

/-- `proc_sigreturn`: the registers saved by the last handler, if any. -/
def sigreturn : Machine × Bool :=
  let p := cur k
  if p.sig.depth = 0 then (k, false)
  else
    let base := p.sig.frameSp (Fin.ofNat 4 (p.sig.depth - 1))
    let k := setProc k k.current { p with sig := { p.sig with depth := p.sig.depth - 1 } }
    if base.toNat < userBase ∨ userSigtramp ≤ base.toNat then (k, false)
    else
      let w := sigWord k base
      ({ k with frame :=
          ⟨w 11, w 7, safeFlags (w 8), w 0, w 1, w 2, w 3, w 4, w 5, w 6, 0x1B#32, 0x23#32, 0x23#32,
            0x23#32, selector (w 9), selector (w 10)⟩ }, true)

end MuOS.Kernel.Sched
