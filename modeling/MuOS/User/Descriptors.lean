import Mathlib.Data.List.FinRange
import MuOS.User.Fds

namespace MuOS.User.Descriptors

open Function Fds Option

/-- `user_fd_t`: an entry, its offset and a directory's path. -/
structure Desc extends FdEntry where
  offset : BitVec 32
  path : List (BitVec 8)

abbrev Table := Fin 11 → Desc

variable (t : Table)

/-- The table as seen by calls on kinds and slots alone. -/
def entries : FdTable := fun n => (t (Fin.ofNat 11 n)).toFdEntry

/-- An entry after `memset`, with no file slot. -/
def emptyDesc : Desc := ⟨⟨.free, -1, 0, fun _ => 0#8, 0⟩, 0#32, []⟩

def descIndex (fd : Int) : Option (Fin 11) := (fdIndex fd).map (Fin.ofNat 11)

/-- `fd_alloc_raw`: the first free entry from 3 on. -/
def fdAllocRaw : Option (Fin 11) :=
  (List.finRange 11).find? (fun i => decide (3 ≤ i.val) && decide ((t i).kind = .free))

def setDesc (i : Fin 11) (d : Desc) : Table := update t i d

/-- `fd_alloc_kind` with its callers' fields; `none` is -1. -/
def fdAllocWith (d : Desc) : Option (Fin 11 × Table) :=
  (fdAllocRaw t).map (fun i => (i, setDesc t i d))

def fileDesc (slot : Fin 16) : Desc := { emptyDesc with kind := .file, fsSlot := slot.val }

def dirDesc (path : List (BitVec 8)) : Desc := { emptyDesc with kind := .dir, path := path }

def devDesc (kind : FdKind) : Desc := { emptyDesc with kind := kind }

def vfileDesc (text : List (BitVec 8)) : Desc :=
  { emptyDesc with
    kind := .vfile, vbuf := fun k => (text.take 512).getD k 0#8,
    vlen := (text.take 512).length }

def pipeDesc (id : Nat) (writeEnd : Bool) : Desc :=
  { emptyDesc with kind := if writeEnd then .pipeWrite else .pipeRead, pipeId := id }

def userFdsReset : Table := fun i =>
  if i = 0 then devDesc .stdin else if i = 1 then devDesc .stdout else if i = 2 then devDesc .stderr
    else emptyDesc

def userFdIsDir (fd : Int) : Bool := decide (userFdKind (entries t) fd = some .dir)

def userFdDirPath (fd : Int) : List (BitVec 8) :=
  if userFdIsDir t fd then ((descIndex fd).map (fun i => (t i).path)).getD [] else []

def userFdOffset (fd : Int) : BitVec 32 := ((descIndex fd).map (fun i => (t i).offset)).getD 0#32

def userFdSetOffset (fd : Int) (offset : BitVec 32) : Table :=
  match descIndex fd with
  | none => t
  | some i => if (t i).kind = .free then t else setDesc t i { t i with offset := offset }

variable {t} {fd : Int} {i j : Fin 11} {d : Desc}

@[simp] theorem setDesc_self : setDesc t i d i = d := update_self ..

theorem setDesc_ne (h : j ≠ i) : setDesc t i d j = t j := update_of_ne h ..

theorem descIndex_some (h : descIndex fd = some i) : fdIndex fd = some i.val := by
  obtain ⟨n, hn, rfl⟩ := map_eq_some_iff.mp h
  rw [hn]
  have hlt : n < 11 := by
    rw [fdIndex] at hn
    split at hn
    · cases hn
    rename_i hb
    unfold userFdMax at hb
    have := some.inj hn
    omega
  rw [Fin.val_ofNat, Nat.mod_eq_of_lt hlt]

theorem descIndex_none (h : descIndex fd = none) : fdIndex fd = none := Option.map_eq_none_iff.mp h

theorem entries_val (i : Fin 11) : entries t i.val = (t i).toFdEntry := by
  rw [entries, Fin.ofNat_val_eq_self]

theorem userFdSlot_entries (h : descIndex fd = some i) :
    userFdSlot (entries t) fd = if (t i).kind = .file then (t i).fsSlot else -1 := by
  simp only [userFdSlot, descIndex_some h, entries_val]

theorem fdAllocRaw_some (h : fdAllocRaw t = some i) : 3 ≤ i.val ∧ (t i).kind = .free := by
  have hp := List.find?_some h
  simpa using hp

theorem setOffset_entry (t : Table) (fd : Int) (offset : BitVec 32) (i : Fin 11) :
    ∃ o, userFdSetOffset t fd offset i = { t i with offset := o } := by
  cases hk : descIndex fd with
  | none =>
    simp only [userFdSetOffset, hk]
    exact ⟨(t i).offset, rfl⟩
  | some k =>
    simp only [userFdSetOffset, hk]
    split
    · exact ⟨(t i).offset, rfl⟩
    by_cases hi : i = k
    · rw [hi, setDesc_self]
      exact ⟨offset, rfl⟩
    · rw [setDesc_ne hi]
      exact ⟨(t i).offset, rfl⟩

end MuOS.User.Descriptors
