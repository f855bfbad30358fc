import MuOS.Syscall.Failures

namespace MuOS.Syscall.Attributes

open Lib.CStrings Fs RamFs Names Vfs FileCalls OpenPerms Failures Option

inductive Change
  | mode (mode : BitVec 16)
  | owner (uid gid : BitVec 32)

/-- What lookup finds, if it has a mode and an owner. -/
def aimed (ctx : Ctx) (s : Sys) (buf : Path) : Option Entry :=
  match vfsLookup ctx s buf with
  | .ok (_, .ok (.file i)) => some (.inl i)
  | .ok (p, .ok .realDir) => (dirSlotOf s.ram (p.drop 1)).map .inr
  | _ => none

def ownerOf (r : Ram) : Entry → Owner
  | .inl i => fileOwner (r.tables.files i)
  | .inr j => dirOwner (r.tables.dirs j)

/-- A mode is changed by the owner, an owner by the superuser. -/
def refuses (ctx : Ctx) (r : Ram) (x : Change) (e : Entry) : Bool :=
  match x with
  | .mode _ => foreign ctx (some (ownerOf r e))
  | .owner _ _ => ctx.uid != 0#32

def changed (ctx : Ctx) (r : Ram) : Change → Entry → Ram
  | .mode mode, .inl i => setFile r i { r.tables.files i with mode := mode, ctime := ctx.clock 0 }
  | .mode mode, .inr j => setDir r j { r.tables.dirs j with mode := mode }
  | .owner uid gid, .inl i =>
    setFile r i { r.tables.files i with uid := uid, gid := gid, ctime := ctx.clock 0 }
  | .owner uid gid, .inr j => setDir r j { r.tables.dirs j with uid := uid, gid := gid }

/-- The files after the change, if there is an entry and its rule allows. -/
def granted (ctx : Ctx) (r : Ram) (x : Change) (e : Option Entry) : Ram :=
  (e.filter (fun e => !refuses ctx r x e)).elim r (changed ctx r x)

/-- What the spelling, slashes stripped, names; files first. -/
def named (r : Ram) (buf : Path) : Option Entry :=
  match fileSlotOf r (stripSlashes buf) with
  | some i => some (.inl i)
  | none => if stripSlashes buf = [] then none else (dirSlotOf r (stripSlashes buf)).map .inr

/-- `do_fchownat` alone does without a lookup. -/
def looksUp : FsCall → Bool
  | .fchownat .. => false
  | _ => true

section

variable {ctx : Ctx} {s : Sys} {c : FsCall} {x : Change} {buf : Path} {n : Entry} {i : Fin 16}

def attempt (ctx : Ctx) (s : Sys) (x : Change) (buf : Path) : Done :=
  ((named s.ram buf).filter (fun n => !refuses ctx s.ram x n)).elim (errno s ePERM)
    (fun n => answer { s with ram := changed ctx s.ram x n } 0)

def Tries (ctx : Ctx) (s : Sys) (c : FsCall) (x : Change) (buf : Path) : Prop :=
  (¬ (looksUp c = true ∧ aimed ctx s buf = none) ∧ fsCall ctx s c = attempt ctx s x buf) ∨
    ((looksUp c = true ∧ aimed ctx s buf = none) ∧ ∃ e, fsCall ctx s c = errno s e)

theorem Tries.found {d : Done} (hd : d = attempt ctx s x buf) (hc : looksUp c = true)
    (h : ((aimed ctx s buf).isSome = true ∧ fsCall ctx s c = d) ∨
      (aimed ctx s buf = none ∧ ∃ e, fsCall ctx s c = errno s e)) : Tries ctx s c x buf := by
  obtain ⟨ha, he⟩ | ⟨ha, he⟩ := h
  · refine .inl ⟨fun hn => ?_, he.trans hd⟩
    rw [hn.2] at ha
    cases ha
  · exact .inr ⟨⟨hc, ha⟩, he⟩

end

def nameB : CString := ⟨ascii ['b'], by decide⟩

/-- A file "b", a file "b" in "a", and "/a" as the working directory. -/
def twoFiles : Sys :=
  { fullSys with
    ram := (fsCreate (fsCreate (fsMkdir fullSys.ram nameA.chars).ram nameB.chars 0#32).ram
      (ascii ['a', '/', 'b']) 0#32).ram
    cwd := ascii ['/', 'a'] }

end MuOS.Syscall.Attributes
