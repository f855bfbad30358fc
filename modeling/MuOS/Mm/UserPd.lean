import MuOS.Lib.Paging
import MuOS.Mm.Frames
import MuOS.User.Window

namespace MuOS.Mm.UserPd

open Lib Memory Paging Frames User.Window

/-- Memory, frames and paging state. `oom` and `cloneFailed` record failures. Tables are reached by
physical address. -/
structure Machine where
  fr : Allocator
  mem : Mem
  pageDirPhys : Nat
  cr3 : Nat
  tlb : Nat → Option (BitVec 32)
  oom : Bool
  cloneFailed : Bool

def userSigtramp : Nat := 0x08847000

def dataPages : Nat := 2047

def pageVa (i : Nat) : Nat := userBase + i * 4096

/-- The window's directory entries `first_pde .. last_pde`. -/
def windowPdes : List Nat := [32, 33, 34]

@[simps -fullyApplied] def setFr (s : Machine) (fr : Allocator) : Machine := { s with fr := fr }

@[simps -fullyApplied] def setMem (s : Machine) (m : Mem) : Machine := { s with mem := m }

@[simps -fullyApplied] def setOom (s : Machine) : Machine := { s with oom := true }

def granted (s : Machine) (r : Nat × Allocator) : Nat × Machine :=
  (r.1, if r.1 = 0 then setOom (setFr s r.2) else setFr s r.2)

def allocPage (s : Machine) : Nat × Machine := granted s (mmAllocPage s.fr)

def allocPages (s : Machine) (count : Nat) : Nat × Machine := granted s (mmAllocPages s.fr count)

def freePage (s : Machine) (addr : Nat) : Machine := setFr s (mmFreePage s.fr addr)

def freePages (s : Machine) (addr count : Nat) : Machine := setFr s (mmFreePages s.fr addr count)

/-- Loading CR3 drops every cached translation. -/
def mmSwitchPd (s : Machine) (pd : Nat) : Machine :=
  { s with cr3 := if pd = 0 then s.pageDirPhys else pd, tlb := fun _ => none }

def mmGetCurrentPd (s : Machine) : Nat := s.cr3 / 4096 * 4096

def refresh (s : Machine) (pd : Nat) : Machine :=
  if mmGetCurrentPd s = pd then mmSwitchPd s pd else s

def freeTable (pd : Nat) (s : Machine) (d : Nat) : Machine :=
  if isPresent (rdEntry s.mem pd d) then freePage s (addrOf (rdEntry s.mem pd d)) else s

def mmFreeUserPd (s : Machine) (pd : Nat) : Machine :=
  if pd = 0 ∨ pd = s.pageDirPhys then s else freePage (windowPdes.foldl (freeTable pd) s) pd

/-- The page table of a directory entry, allocated if absent. -/
def ensureTable (s : Machine) (pd pde : Nat) : Bool × Machine :=
  if isPresent (rdEntry s.mem pd pde) then (true, s)
  else
    let r := allocPage s
    if r.1 = 0 then (false, r.2)
    else
      let m := clearTable r.2.mem r.1
      (true, setMem r.2 (wrEntry m pd pde (BitVec.ofNat 32 r.1 ||| 3#32 ||| 4#32)))

def mapBlock (pd block : Nat) : List Nat → Machine → Bool × Machine
  | [], s => (true, s)
  | i :: is, s =>
    let va := pageVa i
    let r := ensureTable s pd (va / 4194304)
    if r.1 then
      let pt := addrOf (rdEntry r.2.mem pd (va / 4194304))
      mapBlock pd block is (setMem r.2 (wrEntry r.2.mem pt (va / 4096 % 1024)
        (BitVec.ofNat 32 (block + i * 4096) ||| 3#32 ||| 4#32)))
    else (false, r.2)

def mapTramp (pd tramp : Nat) (s : Machine) : Bool × Machine :=
  let r := ensureTable s pd (userSigtramp / 4194304)
  if r.1 then
    let pt := addrOf (rdEntry r.2.mem pd (userSigtramp / 4194304))
    (true, setMem r.2
      (wrEntry r.2.mem pt (userSigtramp / 4096 % 1024) (BitVec.ofNat 32 tramp ||| 1#32 ||| 4#32)))
  else (false, r.2)

def clearWindow (m : Mem) (pd : Nat) : Mem := windowPdes.foldl (fun m d => wrEntry m pd d 0#32) m

def mmCreateUserPd (s : Machine) (block tramp : Nat) : Nat × Machine :=
  if block = 0 ∨ block % 4096 ≠ 0 then (0, s)
  else if tramp = 0 ∨ tramp % 4096 ≠ 0 then (0, s)
  else
    let r := allocPage s
    let pd := r.1
    if pd = 0 then (0, r.2)
    else
      let s := setMem r.2 (clearWindow (copyTable r.2.mem pd r.2.pageDirPhys) pd)
      let r := mapBlock pd block (List.range dataPages) s
      if r.1 then
        let r := mapTramp pd tramp r.2
        if r.1 then (pd, r.2) else (0, mmFreeUserPd r.2 pd)
      else (0, mmFreeUserPd r.2 pd)

def cloneTables (src pd : Nat) : List Nat → Machine → Bool × Machine
  | [], s => (true, s)
  | d :: ds, s =>
    let e := rdEntry s.mem src d
    if isPresent e then
      let r := allocPage s
      if r.1 = 0 then (false, r.2)
      else
        let m := copyTable r.2.mem r.1 (addrOf e)
        cloneTables src pd ds (setMem r.2 (wrEntry m pd d (BitVec.ofNat 32 r.1 ||| flagsOf e)))
    else cloneTables src pd ds (setMem s (wrEntry s.mem pd d 0#32))

def cloneFail (s : Machine) : Nat × Machine := (0, { s with cloneFailed := true })

/-- On failure the half-built directory, naming the source's tables, is freed. -/
def mmCloneUserPd (s : Machine) (src tramp : Nat) : Nat × Machine :=
  if src = 0 ∨ tramp = 0 then (0, s)
  else
    let r := allocPage s
    let pd := r.1
    if pd = 0 then cloneFail r.2
    else
      let r := cloneTables src pd windowPdes (setMem r.2 (copyTable r.2.mem pd src))
      if r.1 then
        let pt := addrOf (rdEntry r.2.mem pd (userSigtramp / 4194304))
        (pd, setMem r.2
          (wrEntry r.2.mem pt (userSigtramp / 4096 % 1024) (BitVec.ofNat 32 tramp ||| 1#32 ||| 4#32)))
      else cloneFail (mmFreeUserPd r.2 pd)

/-- The address of the page-table entry of `va`. -/
def userPte (m : Mem) (pd va : Nat) : Option Nat :=
  if pd = 0 then none
  else
    let pde := rdEntry m pd (va / 4194304)
    if isPresent pde then some (addrOf pde + 4 * (va / 4096 % 1024)) else none

def mmUserTranslate (m : Mem) (pd va : Nat) : Nat :=
  match userPte m pd va with
  | none => 0
  | some pte =>
    let e := rd32 m pte
    if isPresent e then addrOf e + va % 4096 else 0

/-- Where the kernel's access to physical address `a` goes, a write if `w`: a loaded program
directory has the window in its place. 0 stands for a page fault. -/
def kernelSees (s : Machine) (w : Bool) (a : Nat) : Nat :=
  if mmGetCurrentPd s ≠ s.pageDirPhys ∧ a / 4194304 ∈ windowPdes then
    match userPte s.mem (mmGetCurrentPd s) a with
    | none => 0
    | some pte =>
      let e := rd32 s.mem pte
      if isPresent e && (isWritable e || !w) then addrOf e + a % 4096 else 0
  else a

def mmUserMakeWritable (s : Machine) (pd va : Nat) : Bool × Machine :=
  match userPte s.mem pd va with
  | none => (false, s)
  | some pte =>
    let e := rd32 s.mem pte
    if isPresent e = false then (false, s)
    else if isWritable e then (true, s)
    else
      let old := addrOf e
      if 1 < s.fr.frameRefs (old / 4096) then
        let r := allocPage s
        if r.1 = 0 ∨ kernelSees r.2 true r.1 = 0 ∨ kernelSees r.2 false old = 0 then (false, r.2)
        else
          let m := copyPage r.2.mem (kernelSees r.2 true r.1) (kernelSees r.2 false old)
          let s := setMem r.2 (wr32 m pte (BitVec.ofNat 32 r.1 ||| flagsOf e ||| 2#32))
          (true, refresh (setFr s (pageUnref s.fr (old / 4096))) pd)
      else (true, refresh (setMem s (wr32 s.mem pte (e ||| 2#32))) pd)

def protectPage (m : Mem) (pd va : Nat) : Mem :=
  match userPte m pd va with
  | none => m
  | some pte =>
    let e := rd32 m pte
    if isPresent e then wr32 m pte (e &&& ~~~2#32) else m

def mmUserWriteProtect (s : Machine) (pd : Nat) : Machine :=
  if pd = 0 then s
  else
    let m := (List.range dataPages).foldl (fun m i => protectPage m pd (pageVa i)) s.mem
    refresh (setMem s m) pd

def releasePage (m : Mem) (pd : Nat) (fr : Allocator) (va : Nat) : Allocator :=
  match userPte m pd va with
  | none => fr
  | some pte =>
    let e := rd32 m pte
    if isPresent e then pageUnref fr (addrOf e / 4096) else fr

def mmUserReleasePages (s : Machine) (pd : Nat) : Machine :=
  if pd = 0 then s
  else setFr s ((List.range dataPages).foldl (fun fr i => releasePage s.mem pd fr (pageVa i)) s.fr)

/-- Whether `va` is mapped read-only. -/
def isProtected (m : Mem) (pd va : Nat) : Bool :=
  match userPte m pd va with
  | none => false
  | some pte => isPresent (rd32 m pte) && !isWritable (rd32 m pte)

def detachLoop (pd : Nat) : List Nat → Machine → Bool × Machine
  | [], s => (true, refresh s pd)
  | i :: is, s =>
    if isProtected s.mem pd (pageVa i) then
      let r := mmUserMakeWritable s pd (pageVa i)
      if r.1 then detachLoop pd is r.2 else (false, r.2)
    else detachLoop pd is s

def mmUserDetachPages (s : Machine) (pd : Nat) : Bool × Machine :=
  if pd = 0 then (false, s) else detachLoop pd (List.range dataPages) s

end MuOS.Mm.UserPd
