import MuOS.Lib.Runs
import MuOS.Mm.UserPd

namespace MuOS.Proc.Space

open Function Lib Memory Paging Patches Mm Frames UserPd User.Window

/-- `proc_space_t`: a reference-counted address space. -/
structure ProcSpace where
  mem : Nat
  memPages : Nat
  pdPhys : Nat
  trampPhys : Nat
  refs : Nat

/-- The fields of `proc_t` that concern memory. -/
structure Slot where
  used : Bool
  space : Option Nat
  mem : Nat
  memPages : Nat
  pdPhys : Nat
  kstack : Nat

/-- The process table over the machine; slot 0 is the kernel. -/
structure Vm where
  mm : Machine
  procs : Nat → Slot
  spaces : Nat → Option ProcSpace
  nextSpace : Nat
  current : Nat
  active : Bool

def procMax : Nat := 8

def kernelStackPages : Nat := 2

def emptySlot : Slot := ⟨false, none, 0, 0, 0, 0⟩

def setMm (vm : Vm) (mm : Machine) : Vm := { vm with mm := mm }

def setSlot (vm : Vm) (i : Nat) (p : Slot) : Vm := { vm with procs := update vm.procs i p }

def setSpace (vm : Vm) (id : Nat) (o : Option ProcSpace) : Vm :=
  { vm with spaces := update vm.spaces id o }

/-- `mov eax, 173; int 0x80` on a cleared page. -/
def writeSigTrampoline (m : Mem) (phys : Nat) : Mem :=
  patch m phys 4096 (fun i =>
    if i = 0 then 0xB8#8 else if i = 1 then 173#8 else if i = 5 then 0xCD#8
      else if i = 6 then 0x80#8 else 0#8)

/-- `USER_SIZE / PAGE_SIZE`. -/
def blockPages : Nat := 2048

/-- `proc_space_alloc` from the directory on; given back on failure. -/
def newTables (s : Machine) (block tramp : Nat) : Option ProcSpace × Machine :=
  let c := mmCreateUserPd (setMem s (writeSigTrampoline s.mem tramp)) block tramp
  if c.1 = 0 then (none, freePages (freePage c.2 tramp) block blockPages)
  else (some ⟨block, blockPages, c.1, tramp, 1⟩, c.2)

def newTramp (s : Machine) (block : Nat) : Option ProcSpace × Machine :=
  let t := allocPage s
  if t.1 = 0 then (none, freePages t.2 block blockPages) else newTables t.2 block t.1

/-- The frames of `proc_space_alloc`: block, trampoline, page directory. -/
def newSpace (s : Machine) : Option ProcSpace × Machine :=
  let b := allocPages s blockPages
  if b.1 = 0 then (none, b.2) else newTramp b.2 b.1

/-- One more reference to each page `pd` maps below the trampoline. -/
def refPages (s : Machine) (pd : Nat) : Machine :=
  setFr s ((List.range dataPages).foldl (fun fr i =>
    let phys := mmUserTranslate s.mem pd (pageVa i)
    if phys = 0 then fr else mmPageRefInc fr phys) s.fr)

/-- Both directories become read-only, the shared pages counted. -/
def shareWith (s : Machine) (parentPd pd : Nat) : Machine :=
  let s := mmUserWriteProtect s pd
  let s := if parentPd = 0 then s else mmUserWriteProtect s parentPd
  refPages s pd

def cowTables (s : Machine) (parent : Slot) (tramp : Nat) : Option ProcSpace × Machine :=
  let c := mmCloneUserPd (setMem s (writeSigTrampoline s.mem tramp)) parent.pdPhys tramp
  if c.1 = 0 then (none, freePage c.2 tramp)
  else (some ⟨parent.mem, parent.memPages, c.1, tramp, 1⟩, shareWith c.2 parent.pdPhys c.1)

/-- The frames of `proc_space_cow`. -/
def cowSpace (s : Machine) (parent : Slot) : Option ProcSpace × Machine :=
  let t := allocPage s
  if t.1 = 0 then (none, t.2) else cowTables t.2 parent t.1

def dropSpace (s : Machine) (sp : ProcSpace) : Machine :=
  let s := if sp.pdPhys = 0 then s else mmUserReleasePages s sp.pdPhys
  let s := if sp.pdPhys = 0 then s else mmFreeUserPd s sp.pdPhys
  if sp.trampPhys = 0 then s else freePage s sp.trampPhys

/-- A new space becomes that of process `i`. -/
def attach (vm : Vm) (i : Nat) (sp : ProcSpace) : Vm :=
  { vm with
    spaces := update vm.spaces vm.nextSpace (some sp)
    nextSpace := vm.nextSpace + 1
    procs := update vm.procs i { vm.procs i with
      space := some vm.nextSpace, mem := sp.mem, memPages := sp.memPages, pdPhys := sp.pdPhys } }

def adopt (vm : Vm) (i : Nat) (r : Option ProcSpace × Machine) : Bool × Vm :=
  match r.1 with
  | none => (false, setMm vm r.2)
  | some sp => (true, attach (setMm vm r.2) i sp)

/-- `km` is the outcome of `kmalloc`. -/
def procSpaceAlloc (vm : Vm) (i : Nat) (km : Bool) : Bool × Vm :=
  if (vm.procs i).space.isSome then (true, vm)
  else if km = false then (false, vm)
  else adopt vm i (newSpace vm.mm)

def procSpaceCow (vm : Vm) (child parent : Nat) (km : Bool) : Bool × Vm :=
  if (vm.procs parent).space.isNone then (false, vm)
  else if km = false then (false, vm)
  else adopt vm child (cowSpace vm.mm (vm.procs parent))

def procSpaceShare (vm : Vm) (child parent : Nat) : Bool × Vm :=
  match (vm.procs parent).space with
  | none => (false, vm)
  | some id =>
    let vm' := setSpace vm id ((vm.spaces id).map (fun sp => { sp with refs := sp.refs + 1 }))
    let p := vm.procs parent
    (true, setSlot vm' child { vm.procs child with
      space := p.space, mem := p.mem, memPages := p.memPages, pdPhys := p.pdPhys })

def procSpaceUnref (vm : Vm) (id : Nat) : Vm :=
  match vm.spaces id with
  | none => vm
  | some sp =>
    if 1 < sp.refs then setSpace vm id (some { sp with refs := sp.refs - 1 })
    else setSpace (setMm vm (dropSpace vm.mm sp)) id none

def freeSlot (vm : Vm) : Option Nat := (List.range procMax).find? (fun i => !(vm.procs i).used)

def procAlloc (vm : Vm) : Option Nat × Vm :=
  match freeSlot vm with
  | none => (none, vm)
  | some i =>
    let ks := allocPages vm.mm kernelStackPages
    if ks.1 = 0 then (none, setSlot (setMm vm ks.2) i { emptySlot with memPages := blockPages })
    else (some i, setSlot (setMm vm ks.2) i ⟨true, none, 0, blockPages, 0, ks.1⟩)

def leaveSpace (vm : Vm) : Option Nat → Vm
  | none => vm
  | some id => procSpaceUnref vm id

def freeStack (s : Machine) (kstack : Nat) : Machine :=
  if kstack = 0 then s else freePages s kstack kernelStackPages

def procReap (vm : Vm) (i : Nat) : Vm :=
  if (vm.procs i).used = false then vm
  else
    let vm' := leaveSpace vm (vm.procs i).space
    let vm' := setMm vm' (freeStack vm'.mm (vm.procs i).kstack)
    setSlot { vm' with current := if vm'.current = i then 0 else vm'.current } i emptySlot

def procSwitchSpace (vm : Vm) (i : Nat) : Vm := setMm vm (mmSwitchPd vm.mm (vm.procs i).pdPhys)

/-- `memset` of the window below the trampoline, by the tables. -/
def zeroWindow (m : Mem) (pd : Nat) : Mem :=
  (List.range dataPages).foldl
    (fun m i => patch m (mmUserTranslate m pd (pageVa i)) 4096 (fun _ => 0#8)) m

def enter (vm : Vm) (i : Nat) : Vm := { vm with current := i, active := true }

/-- A program's start in a new process, up to its cleared window. -/
def startProgram (vm : Vm) (i : Nat) (km : Bool) : Vm :=
  let r := procSpaceAlloc vm i km
  if r.1 then
    let vm := procSwitchSpace r.2 i
    enter (setMm vm (setMem vm.mm (zeroWindow vm.mm.mem (vm.procs i).pdPhys))) i
  else procReap r.2 i

def launch (vm : Vm) (km : Bool) : Vm :=
  if vm.active then vm
  else if vm.mm.fr.totalPages * 4096 < userEnd then vm
  else
    let r := procAlloc vm
    match r.1 with
    | none => r.2
    | some i => startProgram r.2 i km

def forkInto (vm : Vm) (child parent : Nat) (km fd : Bool) : Vm :=
  let r := procSpaceCow vm child parent km
  if r.1 && fd then r.2 else procReap r.2 child

/-- `do_fork`; `fd` is the outcome of `proc_fdstate_alloc`. -/
def doFork (vm : Vm) (km fd : Bool) : Vm :=
  let r := procAlloc vm
  match r.1 with
  | none => r.2
  | some child => forkInto r.2 child vm.current km fd

def threadInto (vm : Vm) (child parent : Nat) (fd : Bool) : Vm :=
  let r := procSpaceShare vm child parent
  if r.1 && fd then r.2 else procReap r.2 child

/-- `do_clone` with `CLONE_VM`. -/
def doThread (vm : Vm) (fd : Bool) : Vm :=
  let r := procAlloc vm
  match r.1 with
  | none => r.2
  | some child => threadInto r.2 child vm.current fd

/-- The processor's walk: the entry of `va` with what both levels grant. -/
def walk (m : Mem) (pd va : Nat) : Option (BitVec 32) :=
  let pde := rdEntry m pd (va / 4194304)
  if isPresent pde then
    let pte := rd32 m (addrOf pde + 4 * (va / 4096 % 1024))
    if isPresent pte then some (pte &&& (pde ||| 0xFFFFFFF8#32)) else none
  else none

def lookup (s : Machine) (va : Nat) : Option (BitVec 32) :=
  match s.tlb (va / 4096) with
  | some e => some e
  | none => walk s.mem s.cr3 va

def fill (s : Machine) (va : Nat) (e : BitVec 32) : Machine :=
  { s with tlb := update s.tlb (va / 4096) (some e) }

def cpuLoad (s : Machine) (va : Nat) : Option (BitVec 8 × Machine) :=
  match lookup s va with
  | none => none
  | some e => if isUser e then some (s.mem (addrOf e + va % 4096), fill s va e) else none

def cpuStore (s : Machine) (va : Nat) (b : BitVec 8) : Option Machine :=
  match lookup s va with
  | none => none
  | some e =>
    if isUser e && isWritable e then some (setMem (fill s va e) (store s.mem (addrOf e + va % 4096) b))
    else none

/-- The copy-on-write branch of `isr_handler` at `va`. -/
def isrHandler (vm : Vm) (va : Nat) : Bool × Vm :=
  let pd := (vm.procs vm.current).pdPhys
  if vm.active ∧ pd ≠ 0 ∧ userBase ≤ va ∧ va < userSigtramp then
    let r := mmUserMakeWritable vm.mm pd va
    (r.1, setMm vm r.2)
  else (false, vm)

/-- A store, tried again when the fault is resolved, else fatal. -/
def userStore (vm : Vm) (va : Nat) (b : BitVec 8) : Vm :=
  match cpuStore vm.mm va b with
  | some mm => setMm vm mm
  | none =>
    let r := isrHandler vm va
    if r.1 then
      match cpuStore r.2.mm va b with
      | some mm => setMm r.2 mm
      | none => r.2
    else r.2

/-- `proc_user_ptr`: the physical address, made writable first; 0 is NULL. -/
def procUserPtr (vm : Vm) (i va : Nat) : Nat × Vm :=
  let p := vm.procs i
  if va < userBase ∨ userEnd ≤ va then (0, vm)
  else if p.pdPhys ≠ 0 then
    let s := (mmUserMakeWritable vm.mm p.pdPhys va).2
    (mmUserTranslate s.mem p.pdPhys va, setMm vm s)
  else if p.mem = 0 then (0, vm)
  else (p.mem + (va - userBase), vm)

/-- The kernel stores `bytes` at `off` from such a pointer. -/
def wakeWrite (vm : Vm) (i va off : Nat) (bytes : List (BitVec 8)) : Vm :=
  let r := procUserPtr vm i va
  if r.1 = 0 then r.2
  else setMm r.2
    (setMem r.2.mm (patch r.2.mm.mem (r.1 + off) bytes.length (fun k => bytes.getD k 0#8)))

/-- Read bytes, a status word, or a poll's `revents`. -/
def isWakeStore (off len : Nat) : Bool := (off == 0 && decide (len ≤ 128)) || (off == 6 && len == 2)

inductive Act
  | launch (km : Bool)
  | fork (km fd : Bool)
  | thread (fd : Bool)
  | load (va : Nat)
  | store (va : Nat) (b : BitVec 8)
  | wake (i va off : Nat) (bytes : List (BitVec 8))
  | writeProtect (i : Nat)
  | makeWritable (i va : Nat)
  | detach (i : Nat)
  | resume (i : Nat)
  | reap (i : Nat)

def isUserProc (vm : Vm) (i : Nat) : Bool :=
  decide (0 < i) && decide (i < procMax) && (vm.procs i).used

def onPd (vm : Vm) (i : Nat) (f : Machine → Nat → Machine) : Option Vm :=
  if isUserProc vm i then some (setMm vm (f vm.mm (vm.procs i).pdPhys)) else none

/-- What shell, process and kernel may do; an exiting process is never resumed. -/
def step (vm : Vm) : Act → Option Vm
  | .launch km => some (launch vm km)
  | .fork km fd => if isUserProc vm vm.current then some (doFork vm km fd) else none
  | .thread fd => if isUserProc vm vm.current then some (doThread vm fd) else none
  | .load va =>
    if isUserProc vm vm.current ∧ userBase ≤ va ∧ va < userSigtramp then
      (cpuLoad vm.mm va).map (fun r => setMm vm r.2) else none
  | .store va b =>
    if isUserProc vm vm.current ∧ userBase ≤ va ∧ va < userSigtramp then some (userStore vm va b) else none
  | .wake i va off bytes =>
    if isUserProc vm i ∧ isWakeStore off bytes.length then some (wakeWrite vm i va off bytes) else none
  | .writeProtect i => onPd vm i mmUserWriteProtect
  | .makeWritable i va =>
    if userBase ≤ va ∧ va < userEnd then onPd vm i (fun s pd => (mmUserMakeWritable s pd va).2) else none
  | .detach i => onPd vm i (fun s pd => (mmUserDetachPages s pd).2)
  | .resume i =>
    if i = 0 then some { procSwitchSpace vm 0 with current := 0, active := false }
    else if isUserProc vm i then some (enter (procSwitchSpace vm i) i) else none
  | .reap i => if isUserProc vm i ∧ i ≠ vm.current then some (procReap vm i) else none

end MuOS.Proc.Space
