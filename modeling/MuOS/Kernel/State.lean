import MuOS.Lib.Rings
import MuOS.Syscall.FileCalls
import MuOS.User.Window

namespace MuOS.Kernel.State

open Function Lib Memory Patches Rings Fs.RamFs User Descriptors Window Syscall.Vfs

/-- `proc_state_t`. -/
inductive PState
  | free | running | ready | blocked | zombie
deriving DecidableEq

/-- `proc_wait_t`. -/
inductive Wait
  | none | wait4 | waitid | poll | sigsusp | read
deriving DecidableEq

/-- `registers_t`: what an interrupt saves of ring 3. -/
structure Regs where
  eip : BitVec 32
  useresp : BitVec 32
  eflags : BitVec 32
  eax : BitVec 32
  ebx : BitVec 32
  ecx : BitVec 32
  edx : BitVec 32
  esi : BitVec 32
  edi : BitVec 32
  ebp : BitVec 32
  cs : BitVec 32
  ss : BitVec 32
  ds : BitVec 32
  es : BitVec 32
  fs : BitVec 32
  gs : BitVec 32
deriving DecidableEq

/-- The registers that `proc_t` keeps. -/
structure Context where
  eip : BitVec 32
  esp : BitVec 32
  eflags : BitVec 32
  eax : BitVec 32
  ebx : BitVec 32
  ecx : BitVec 32
  edx : BitVec 32
  esi : BitVec 32
  edi : BitVec 32
  ebp : BitVec 32
  fsSel : BitVec 32
  gsSel : BitVec 32
deriving DecidableEq

/-- The TLS descriptor of the GDT, whose limit has 20 bits. -/
structure Tls where
  base : BitVec 32
  limit : BitVec 20
  flags : BitVec 32
deriving DecidableEq

structure Signals where
  pending : BitVec 32
  blocked : BitVec 32
  handler : Fin 32 → BitVec 32
  flags : Fin 32 → BitVec 32
  restorer : Fin 32 → BitVec 32
  frameSp : Fin 4 → BitVec 32
  depth : Nat

/-- `proc_t`; spaces and tables are numbers, `none` is NULL. -/
structure Proc where
  used : Bool
  pid : Nat
  ppid : Nat
  state : PState
  exitCode : BitVec 32
  faulted : Bool
  isThread : Bool
  space : Option Nat
  fdState : Option Nat
  fdsRetained : Bool
  cwd : Path
  brk : Nat × Nat
  tls : Tls
  uid : BitVec 32
  gid : BitVec 32
  ctx : Context
  hasCtx : Bool
  waitKind : Wait
  waitPid : Int
  waitStatusPtr : BitVec 32
  waitInfop : BitVec 32
  lastWaitPid : Nat
  blkPtr : BitVec 32
  blkLen : Int
  blkFd : Int
  blkDeadline : BitVec 32
  blkHasDeadline : Bool
  sig : Signals
  alarmTick : BitVec 32

def noSignals : Signals :=
  ⟨0#32, 0#32, fun _ => 0#32, fun _ => 0#32, fun _ => 0#32, fun _ => 0#32, 0⟩

/-- A `proc_t` after `memset`. -/
def emptyProc : Proc where
  used := false
  pid := 0
  ppid := 0
  state := .free
  exitCode := 0#32
  faulted := false
  isThread := false
  space := none
  fdState := none
  fdsRetained := false
  cwd := []
  brk := (0, 0)
  tls := ⟨0#32, 0#20, 0#32⟩
  uid := 0#32
  gid := 0#32
  ctx := ⟨0#32, 0#32, 0#32, 0#32, 0#32, 0#32, 0#32, 0#32, 0#32, 0#32, 0#32, 0#32⟩
  hasCtx := false
  waitKind := .none
  waitPid := 0
  waitStatusPtr := 0#32
  waitInfop := 0#32
  lastWaitPid := 0
  blkPtr := 0#32
  blkLen := 0
  blkFd := 0
  blkDeadline := 0#32
  blkHasDeadline := false
  sig := noSignals
  alarmTick := 0#32

/-- `proc_fdstate_t` and the table behind it. -/
structure FdState where
  refs : Nat
  table : Table

/-- The frame of each page of each space, and physical memory. -/
structure UserMem where
  frame : Nat → Nat → Nat
  bytes : Mem
  apart : ∀ space, Injective (frame space)

def translate (m : UserMem) (space a : Nat) : Nat := m.frame space (a / 4096) * 4096 + a % 4096

def peek (m : UserMem) (space a : Nat) : BitVec 8 := m.bytes (translate m space a)

/-- `mm_user_make_writable`: a page may get its own frame, copied. -/
structure Cow where
  make : UserMem → Nat → Nat → UserMem
  reads : ∀ m space page a, peek (make m space page) space a = peek m space a

structure Pipe where
  used : Bool
  writers : Int
  ring : RingBuf (BitVec 8)

/-- `PIPE_BUF_SIZE`. -/
def pipeSize : Nat := 4096

/-- What `proc_block_current_ext` is asked to wait for. -/
structure Request where
  kind : Wait
  ptr : BitVec 32
  len : Int
  deadline : BitVec 32
  hasDeadline : Bool
  fd : Int

/-- With nothing to switch to, a call returns or waits in place. -/
inductive Otherwise
  | ret (v : BitVec 32)
  | spin

/-- Calls, ticks and exits pass through several phases. -/
inductive Phase
  | shell
  | user
  | spin
  | blocking (r : Request) (o : Otherwise)
  | leaving
  | ticked
  | switching
  | exiting (code : BitVec 32) (faulted sys : Bool)
  | picking (sys : Bool)
  | returned (self : Fin 8)

/-- The bytes stored, the count reported, and whether each arrived. -/
structure ReadDone where
  reader : Fin 8
  pipe : Option (Fin 8)
  bytes : List (BitVec 8)
  told : BitVec 32
  inPlace : Bool

structure PollFd where
  fd : BitVec 32
  events : BitVec 16
  revents : BitVec 16

structure PollDone where
  poller : Fin 8
  fds : List PollFd

/-- What went through pipes, finished calls, polls and faults, for proofs only. -/
structure Trace where
  accepted : Fin 8 → List (BitVec 8)
  handed : Fin 8 → List (BitVec 8)
  reads : List ReadDone
  polls : List PollDone
  crowded : Bool

/-- The kernel with its globals. -/
structure Machine where
  procs : Fin 8 → Proc
  current : Fin 8
  nextPid : Nat
  states : Nat → Option FdState
  nextState : Nat
  nextSpace : Nat
  cr3 : Option Nat
  fds : Table
  cwd : Path
  brk : Option Brk
  tls : Tls
  active : Bool
  frame : Regs
  frameSwitched : Bool
  pipes : Fin 8 → Pipe
  keys : List (BitVec 8)
  ticks : BitVec 32
  ram : Ram
  mem : UserMem
  cow : Cow
  launched : Option (Fin 8)
  phase : Phase
  trace : Trace

variable (k : Machine)

def cur : Proc := k.procs k.current

def setProc (i : Fin 8) (p : Proc) : Machine := { k with procs := update k.procs i p }

def setState (t : Nat) (f : Option FdState) : Machine := { k with states := update k.states t f }

def setPipe (i : Fin 8) (p : Pipe) : Machine := { k with pipes := update k.pipes i p }

def procFind (pid : Nat) : Option (Fin 8) :=
  (List.finRange 8).find? (fun i => (k.procs i).used && (k.procs i).pid == pid)

def isUser (p : Proc) : Bool := p.used && p.pid != 1

def overProcs (f : Machine → Fin 8 → Machine) : Machine := (List.finRange 8).foldl f k

def storeBytes (m : UserMem) (phys : Nat) (bs : List (BitVec 8)) : UserMem :=
  { m with bytes := patch m.bytes phys bs.length (fun j => bs.getD j 0#8) }

def withSpace (m : UserMem) (space : Nat) (frames : Nat → Nat) (h : Injective frames) :
    UserMem where
  frame := update m.frame space frames
  bytes := m.bytes
  apart := fun sp => by
    by_cases hs : sp = space
    · rw [hs, update_self]
      exact h
    · rw [update_of_ne hs]
      exact m.apart sp

def le32 (v : BitVec 32) : List (BitVec 8) :=
  [v.extractLsb' 0 8, v.extractLsb' 8 8, v.extractLsb' 16 8, v.extractLsb' 24 8]

def le16 (v : BitVec 16) : List (BitVec 8) := [v.extractLsb' 0 8, v.extractLsb' 8 8]

/-- A store through a directory makes the page its own first. -/
def poke (space : Nat) : UserMem → Nat → List (BitVec 8) → UserMem
  | m, _, [] => m
  | m, a, b :: bs =>
    let m := k.cow.make m space (a / 4096)
    poke space (storeBytes m (translate m space a) [b]) (a + 1) bs

def pokeCur (a : BitVec 32) (bs : List (BitVec 8)) : Machine :=
  match (cur k).space with
  | none => k
  | some sp => { k with mem := poke k sp k.mem a.toNat bs }

def pokeAll (out : List (BitVec 32 × List (BitVec 8))) : Machine :=
  out.foldl (fun k w => pokeCur k w.1 w.2) k

def peekFor (p : Proc) (a : BitVec 32) (n : Nat) : List (BitVec 8) :=
  match p.space with
  | none => []
  | some sp => (List.range n).map (fun j => peek k.mem sp (a.toNat + j))

def peekCur (a : BitVec 32) (n : Nat) : List (BitVec 8) := peekFor k (cur k) a n

section

variable {k} {i j : Fin 8} {p : Proc}

@[simp] theorem setProc_self : (setProc k i p).procs i = p := update_self ..

theorem setProc_ne (h : j ≠ i) : (setProc k i p).procs j = k.procs j := update_of_ne h ..

theorem row_set {b : Machine} (hp : b.procs = (setProc k i p).procs) (j : Fin 8) :
    j = i ∧ b.procs j = p ∨ j ≠ i ∧ b.procs j = k.procs j := by
  rw [hp]
  by_cases hj : j = i
  · exact .inl ⟨hj, hj ▸ setProc_self⟩
  · exact .inr ⟨hj, setProc_ne hj⟩

theorem rows_set {k' : Machine} {P : Fin 8 → Proc → Prop} (hp : k'.procs = (setProc k i p).procs)
    (hi : P i p) (ho : ∀ j, j ≠ i → P j (k.procs j)) (j : Fin 8) : P j (k'.procs j) := by
  obtain ⟨rfl, he⟩ | ⟨hj, he⟩ := row_set hp j
  · exact he ▸ hi
  · exact he ▸ ho j hj

theorem cur_setProc (k : Machine) (p : Proc) : cur (setProc k k.current p) = p := setProc_self

theorem procFind_some {pid : Nat} (h : procFind k pid = some i) : (k.procs i).used = true ∧
    (k.procs i).pid = pid := by
  have hp := List.find?_some h
  simpa using hp

theorem isUser_spec (h : isUser p = true) : p.used = true ∧ p.pid ≠ 1 := by
  simpa [isUser] using h

end

end MuOS.Kernel.State
