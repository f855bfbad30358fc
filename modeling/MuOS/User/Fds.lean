import Mathlib.Logic.Function.Basic

namespace MuOS.User.Fds

/-- `user_fd_kind_t`. -/
inductive FdKind
  | free
  | stdin
  | stdout
  | stderr
  | file
  | dir
  | devNull
  | devZero
  | devConsole
  | devAta
  | vfile
  | pipeRead
  | pipeWrite
deriving DecidableEq

structure FdEntry where
  kind : FdKind
  fsSlot : Int
  pipeId : Nat
  vbuf : Nat → BitVec 8
  vlen : Nat

def userFdMax : Nat := 11

abbrev FdTable := Nat → FdEntry

def fdIndex (fd : Int) : Option Nat :=
  if fd < 0 ∨ (userFdMax : Int) ≤ fd then none else some fd.toNat

/-- `none` is the source's -1. -/
def userFdKind (t : FdTable) (fd : Int) : Option FdKind :=
  match fdIndex fd with
  | none => none
  | some i => if (t i).kind = .free then none else some (t i).kind

def userFdSlot (t : FdTable) (fd : Int) : Int :=
  match fdIndex fd with
  | none => -1
  | some i => if (t i).kind = .file then (t i).fsSlot else -1

def userFdVfile (t : FdTable) (fd : Int) : Nat × Option (Nat → BitVec 8) :=
  match fdIndex fd with
  | none => (0, none)
  | some i => if (t i).kind = .vfile then ((t i).vlen, some (t i).vbuf) else (0, none)

structure RamFile where
  used : Bool
  size : Nat
  data : Nat → BitVec 8

def fsMaxFiles : Nat := 16

def fsFile (files : Nat → RamFile) (fd : Int) : Option RamFile :=
  if fd < 0 ∨ (fsMaxFiles : Int) ≤ fd then none
  else if (files fd.toNat).used then some (files fd.toNat) else none

def fsFdData (files : Nat → RamFile) (fd : Int) : Option (Nat → BitVec 8) :=
  (fsFile files fd).map RamFile.data

def fsFdSize (files : Nat → RamFile) (fd : Int) : Nat := ((fsFile files fd).map RamFile.size).getD 0

end MuOS.User.Fds
