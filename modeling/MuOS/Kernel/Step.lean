import MuOS.Kernel.Calls

namespace MuOS.Kernel.Step

open Fs.RamFs User Descriptors Window State Wake Sched Calls

variable (k : Machine) {ph : Phase}

/-- How far `user_run_image_argv` gets. -/
inductive Launch
  | noStack
  | noSpace
  | badImage
  | noRoom (imageEnd : Nat)
  | noTable (imageEnd : Nat)
  | entered (imageEnd : Nat) (entry sp : BitVec 32) (r : Regs) (out : Stores)

def giveSpace (i : Fin 8) (frames : Nat ↪ Nat) : Machine :=
  { setProc k i { k.procs i with space := some k.nextSpace } with
    nextSpace := k.nextSpace + 1
    mem := withSpace k.mem k.nextSpace frames frames.injective
    cr3 := some k.nextSpace }

def giveUp (i : Fin 8) (cr3 : Option Nat) : Machine := procReap { k with cr3 := cr3 } i

def resetFds : Machine := { k with fds := userFdsReset, cwd := [slash], active := true }

/-- The state on entry to ring 3. -/
def enterUser (i : Fin 8) (entry sp : BitVec 32) (r : Regs) (out : Stores) : Machine :=
  let k := fdstateAlloc k i
  let p := k.procs i
  let k := setProc k i { p with
    fdsRetained := true
    cwd := k.cwd.take 63
    brk := brkState k.brk
    tls := ⟨0#32, 0#20, 0#32⟩
    state := .running }
  pokeAll { k with
    tls := ⟨0#32, 0#20, 0#32⟩
    current := i
    frame := { r with
      eip := entry, useresp := sp, eflags := 0x202#32, cs := 0x1B#32, ss := 0x23#32,
      ds := 0x23#32, es := 0x23#32,
      fs := 0x23#32, gs := 0x23#32 }
    launched := some i
    phase := .user } out

def loadImage (i : Fin 8) (cr3 : Option Nat) (imageEnd : Nat)
    (next : Machine → Machine) : Machine :=
  match imageBrk imageEnd with
  | none => giveUp k i cr3
  | some b => next { k with brk := some b }

def launch (frames : Nat ↪ Nat) (l : Launch) : Machine :=
  match freeSlot k with
  | none => k
  | some i =>
    let a := procAlloc k i 1
    let b := giveSpace a i frames
    match l with
    | .noStack => allocFailed k i 1
    | .noSpace => procReap a i
    | .badImage => giveUp b i k.cr3
    | .noRoom imageEnd => loadImage b i k.cr3 imageEnd (fun c => giveUp c i k.cr3)
    -- `active` stays set
    | .noTable imageEnd => loadImage b i k.cr3 imageEnd (fun c => giveUp (resetFds c) i k.cr3)
    | .entered imageEnd entry sp r out =>
      loadImage b i k.cr3 imageEnd (fun c => enterUser (resetFds c) i entry sp r out)

/-- The end of `user_run_image_argv`. -/
def finish (self : Fin 8) : Machine :=
  let k := cleanupChildren 8 (k.procs self).pid { k with active := false, cr3 := none }
  let k := procReap k self
  { k with
    current := kernelSlot k
    fds := userFdsReset
    cwd := [slash]
    launched := none
    phase := .shell }

inductive Act
  | compute (r : Regs) (out : Stores)
  | sys (c : Call)
  | exit (code : BitVec 32)
  | fault
  | tick
  | key (c : BitVec 8)
  | go
  | spinDone (v : BitVec 32) (takesKey : Bool) (out : Stores)
  | launch (frames : Nat ↪ Nat) (l : Launch)
  | shell (o : Op)
  | shellKey

def setPhase (ph : Phase) : Machine := { k with phase := ph }

def setEax (v : BitVec 32) : Machine := { k with frame := { k.frame with eax := v } }

/-- `syscall_handler` up to the delivery of signals. -/
def enterCall (c : Call) : Machine :=
  match sysCall { k with frameSwitched := false } c with
  | (k', .ret v) => setPhase (setEax k' v) .leaving
  | (k', .block r o) => setPhase k' (.blocking r o)
  | (k', .spin) => setPhase k' .spin

/-- A call goes on after `proc_block_current_ext`. -/
def goBlocking (r : Request) (o : Otherwise) : Machine :=
  let b := if (cur k).fdState.isSome then blockCurrent k r else (k, false)
  if b.2 then setPhase b.1 .leaving
  else match o with
    | .ret v => setPhase (setEax b.1 v) .leaving
    | .spin => setPhase b.1 .spin

def goLeaving : Machine :=
  match signalDeliver k with
  | (k', .exit code faulted) => setPhase k' (.exiting code faulted false)
  | (k', _) => setPhase k' .user

/-- `proc_sched_tick` up to the switch; `frame_switched` may stop it. -/
def goTicked : Machine :=
  if (cur k).state ≠ .running ∨ (cur k).fdState.isNone then setPhase k .user
  else match signalDeliver k with
    | (k', .exit code faulted) => setPhase k' (.exiting code faulted false)
    | (k', .handled) => setPhase k' (if k'.frameSwitched then .user else .switching)
    | (k', .nothing) => setPhase k' .switching

/-- The second part of `proc_exit_current`. -/
def goPicking (sys : Bool) : Machine :=
  match pickFrom k 0 with
  | some i => setPhase (schedLoad k i) (if sys then .leaving else .user)
  | none =>
    { k with
      cr3 := none
      current := kernelSlot k
      phase := match k.launched with
        | some l => .returned l
        | none => .shell }

def ticked : Machine := procTickAll { k with ticks := k.ticks + 1#32 }

/-- `kbd_buf_put`: a full buffer drops the character. -/
def typed (c : BitVec 8) : Machine :=
  if k.keys.length < 255 then procNotify { k with keys := k.keys ++ [c] } else k

def inUser : Phase → Bool
  | .user => true
  | _ => false

theorem inUser_eq (h : inUser ph = true) : ph = .user := by
  cases ph with
  | user => rfl
  | _ => cases h

def isLeaving : Phase → Bool
  | .leaving => true
  | _ => false

theorem isLeaving_eq (h : isLeaving ph = true) : ph = .leaving := by
  cases ph with
  | leaving => rfl
  | _ => cases h

def isBlocking : Phase → Bool
  | .blocking .. => true
  | _ => false

theorem isBlocking_eq (h : isBlocking ph = true) : ∃ r o, ph = .blocking r o := by
  cases ph with
  | blocking r o => exact ⟨r, o, rfl⟩
  | _ => cases h

def returnedTo : Phase → Option (Fin 8)
  | .returned l => some l
  | _ => none

theorem returnedTo_eq {l : Fin 8} (h : returnedTo ph = some l) : ph = .returned l := by
  cases ph with
  | returned l' => exact congrArg Phase.returned (Option.some.inj h)
  | _ => exact absurd h (by simp [returnedTo])

def takesIrq : Phase → Bool
  | .shell | .user | .spin | .returned _ => true
  | _ => false

/-- The references of the file system belong to descriptors. -/
def shellMay : Op → Bool
  | .ref _ | .unref _ => false
  | _ => true

def goOn : Option Machine :=
  match k.phase with
  | .blocking r o => some (goBlocking k r o)
  | .leaving => some (goLeaving k)
  | .ticked => some (goTicked k)
  | .switching => some (setPhase (preempt k) .user)
  | .exiting code faulted sys => some (setPhase (exitCurrent k code faulted) (.picking sys))
  | .picking sys => some (goPicking k sys)
  | .returned self => some (finish k self)
  | _ => none

def userAct : Act → Option Machine
  | .compute r out => some (pokeAll { k with frame := { r with cs := 0x1B#32 } } out)
  | .sys c => some (enterCall k c)
  | .exit code =>
    some { k with frameSwitched := false, active := false, phase := .exiting code false true }
  | .fault =>
    if k.active then some { k with active := false, phase := .exiting 139#32 true false } else none
  | _ => none

def shellAct : Act → Option Machine
  | .launch frames l => some (if k.active then k else launch k frames l)
  | .shell o => if shellMay o then some { k with ram := (call k.ram o).ram } else none
  | .shellKey => some { k with keys := k.keys.tail }
  | _ => none

def spinAct : Act → Option Machine
  | .spinDone v takesKey out =>
    some (setPhase
      (setEax (pokeAll { k with keys := if takesKey then k.keys.tail else k.keys } out) v) .leaving)
  | _ => none

def step (k : Machine) (a : Act) : Option Machine :=
  match a with
  | .go => goOn k
  | .tick =>
    if !takesIrq k.phase then none
    else match k.phase with
      | .user => some (setPhase (ticked k) .ticked)
      | _ => some (ticked k)
  | .key c => if takesIrq k.phase then some (typed k c) else none
  | a =>
    match k.phase with
    | .user => userAct k a
    | .shell => shellAct k a
    | .spin => spinAct k a
    | _ => none

def kernelProc : Proc := { emptyProc with used := true, pid := 1, state := .running }

def emptyRegs : Regs :=
  ⟨0#32, 0#32, 0#32, 0#32, 0#32, 0#32, 0#32, 0#32, 0#32, 0#32, 0#32, 0#32, 0#32, 0#32, 0#32, 0#32⟩

/-- The kernel after `proc_init` and `pipe_init`, with the files of a mounted
disk. -/
def boot (r : Ram) (mem : UserMem) (cow : Cow) : Machine where
  procs := fun i => if i = 0 then kernelProc else emptyProc
  current := 0
  nextPid := 2
  states := fun _ => none
  nextState := 0
  nextSpace := 0
  cr3 := none
  fds := fun _ => emptyDesc
  cwd := []
  brk := none
  tls := ⟨0#32, 0#20, 0#32⟩
  active := false
  frame := emptyRegs
  frameSwitched := false
  pipes := fun _ => ⟨false, 0, ⟨0, 0, 0, fun _ => 0#8⟩⟩
  keys := []
  ticks := 0#32
  ram := { r with refs := fun _ => 0#32 }
  mem := mem
  cow := cow
  launched := none
  phase := .shell
  trace := ⟨fun _ => [], fun _ => [], [], [], false⟩

def plainMem : UserMem := ⟨fun _ page => page, fun _ => 0#8, fun _ _ _ h => h⟩

def plainCow : Cow := ⟨fun m _ _ => m, fun _ _ _ _ => rfl⟩

def plain : Machine := boot bootRam plainMem plainCow

def enter : Act :=
  .launch (Function.Embedding.refl Nat)
    (.entered (userBase + 4096) (BitVec.ofNat 32 userBase) 0x08840000#32 emptyRegs [])

end MuOS.Kernel.Step
