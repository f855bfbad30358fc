import MuOS.Fs.MuFs
import MuOS.Lib.CStrings

namespace MuOS.Fs.RamFs

open Function Lib Memory Patches CStrings Metadata List

/-- The tables, and each file slot's 64 KB buffer and open count. -/
structure Ram where
  tables : Tables
  data : Fin 16 → Mem
  refs : Fin 16 → BitVec 32

/-- What a call asks of the disk: `persist_meta`, `persist_slot`, `persist_slot_range`. -/
inductive Persist
  | tables
  | slot (i : Fin 16)
  | range (i : Fin 16) (offset len : Nat)

structure Outcome where
  rc : Int
  ram : Ram
  writes : List Persist

variable (r : Ram) {a : Fin 64 → BitVec 8}

def failed : Outcome := ⟨-1, r, []⟩

def setFile (i : Fin 16) (f : FileMeta) : Ram :=
  { r with tables := ⟨update r.tables.files i f, r.tables.dirs⟩ }

def setDir (i : Fin 16) (d : DirMeta) : Ram :=
  { r with tables := ⟨r.tables.files, update r.tables.dirs i d⟩ }

def setData (i : Fin 16) (m : Mem) : Ram := { r with data := update r.data i m }

def setRefs (i : Fin 16) (n : BitVec 32) : Ram := { r with refs := update r.refs i n }

section

variable {r} {i j : Fin 16} {f : FileMeta} {d : DirMeta} {m : Mem} {n : BitVec 32}

@[simp] theorem setFile_self : (setFile r i f).tables.files i = f := update_self ..

theorem setFile_ne (h : j ≠ i) : (setFile r i f).tables.files j = r.tables.files j :=
  update_of_ne h ..

@[simp] theorem setFile_data : (setFile r i f).data = r.data := rfl

@[simp] theorem setFile_refs : (setFile r i f).refs = r.refs := rfl

@[simp] theorem setDir_self : (setDir r i d).tables.dirs i = d := update_self ..

theorem setDir_ne (h : j ≠ i) : (setDir r i d).tables.dirs j = r.tables.dirs j := update_of_ne h ..

@[simp] theorem setData_self : (setData r i m).data i = m := update_self ..

theorem setData_ne (h : j ≠ i) : (setData r i m).data j = r.data j := update_of_ne h ..

@[simp] theorem setRefs_self : (setRefs r i n).refs i = n := update_self ..

theorem setRefs_ne (h : j ≠ i) : (setRefs r i n).refs j = r.refs j := update_of_ne h ..

end

def bootRam : Ram := ⟨MuFs.emptyTables, fun _ _ => 0#8, fun _ => 0#32⟩

def slash : BitVec 8 := 47#8

/-- `strncpy` of at most 63 characters, terminated. -/
def nameOf (path : List (BitVec 8)) : Fin 64 → BitVec 8 := putStr (fun _ => 0#8) (path.take 63)

theorem nameOf_last (path : List (BitVec 8)) : nameOf path 63 = 0#8 := by
  have hl : ¬ (63 : Fin 64).val < (path.take 63).length := by
    rw [length_take]
    omega
  simp only [nameOf, putStr, if_neg hl, ite_self]

def cleared (a : Fin 64 → BitVec 8) : Fin 64 → BitVec 8 := update a 0 0#8

theorem cleared_last (h : a 63 = 0#8) : cleared a 63 = 0#8 := by
  rw [cleared, update_of_ne (by decide), h]

def isUsed (f : FileMeta) : Bool := f.used != 0#32

def isLive (f : FileMeta) : Bool := isUsed f && f.deleted == 0#32

def dirUsed (d : DirMeta) : Bool := d.used != 0#32

/-- `file_slot_of` and `fs_open`; `none` is -1. -/
def fileSlotOf (path : List (BitVec 8)) : Option (Fin 16) :=
  (List.finRange 16).find? (fun i => isLive (r.tables.files i) &&
    decide (strAt (r.tables.files i).name = path))

/-- `dir_slot_of`, with its own value for the root. -/
def dirSlotOf (path : List (BitVec 8)) : Option (Fin 16) :=
  (List.finRange 16).find? (fun i => dirUsed (r.tables.dirs i) &&
    decide (strAt (r.tables.dirs i).name = path))

def fileExists (path : List (BitVec 8)) : Bool := !path.isEmpty && (fileSlotOf r path).isSome

def dirExists (path : List (BitVec 8)) : Bool := path.isEmpty || (dirSlotOf r path).isSome

/-- The loop of `split_parent`: the last slash, if well placed. -/
def scanSlashes : Nat → List (BitVec 8) → Option Nat → Option (Option Nat)
  | _, [], last => some last
  | i, c :: rest, last =>
    if c = slash then
      if i = 0 ∨ rest = [] ∨ rest.head? = some slash then none else scanSlashes (i + 1) rest (some i)
    else scanSlashes (i + 1) rest last

def splitParent (path : List (BitVec 8)) : Option (List (BitVec 8) × List (BitVec 8)) :=
  if path = [] ∨ path.head? = some slash ∨ 64 ≤ path.length then none
  else match scanSlashes 0 path none with
    | none => none
    | some none => some ([], path)
    | some (some n) => some (path.take n, path.drop (n + 1))

def emptied (f : FileMeta) : FileMeta :=
  { f with
    used := 0#32, size := 0#32, deleted := 0#32, name := cleared f.name, atime := 0#32,
    mtime := 0#32, ctime := 0#32,
    name_last := cleared_last f.name_last, size_le := zero_size_le }

def removedDir (d : DirMeta) : DirMeta :=
  { d with used := 0#32, name := cleared d.name, name_last := cleared_last d.name_last }

/-- `fs_init`; the buffers, owners and modes keep what they held. -/
def fsInit : Ram :=
  ⟨⟨fun i => emptied (r.tables.files i), fun i => removedDir (r.tables.dirs i)⟩, r.data,
    fun _ => 0#32⟩

def fsParentIsDir (path : List (BitVec 8)) : Bool :=
  match splitParent path with
  | none => false
  | some (parent, _) => dirExists r parent

def newFile (path : List (BitVec 8)) (now : BitVec 32) : FileMeta :=
  ⟨nameOf path, 0#32, 1#32, 0#32, now, now, now, 0#32, 0#32, 0o644#16, nameOf_last path,
    zero_size_le⟩

def newDir (path : List (BitVec 8)) : DirMeta :=
  ⟨nameOf path, 1#32, 0#32, 0#32, 0o755#16, nameOf_last path⟩

/-- The checks that `fs_create` and `fs_mkdir` share. -/
def mayAdd (path : List (BitVec 8)) : Bool :=
  match splitParent path with
  | none => false
  | some (parent, _) => dirExists r parent && !(fileExists r path || dirExists r path)

def fsCreate (path : List (BitVec 8)) (now : BitVec 32) : Outcome :=
  if mayAdd r path then
    match (List.finRange 16).find? (fun i => !isUsed (r.tables.files i)) with
    | some i => ⟨i.val, setRefs (setFile r i (newFile path now)) i 0#32, [.tables, .slot i]⟩
    | none => failed r
  else failed r

def fsMkdir (path : List (BitVec 8)) : Outcome :=
  if mayAdd r path then
    match (List.finRange 16).find? (fun i => !dirUsed (r.tables.dirs i)) with
    | some i => ⟨0, setDir r i (newDir path), [.tables]⟩
    | none => failed r
  else failed r

/-- `strncmp` with the prefix, and a slash behind it. -/
def inside (name path : List (BitVec 8)) : Bool :=
  path.isPrefixOf name && decide ((name.drop path.length).head? = some slash)

def fsDirIsEmpty (path : List (BitVec 8)) : Bool :=
  dirExists r path &&
    (List.finRange 16).all
    (fun i => !(isLive (r.tables.files i) && inside (strAt (r.tables.files i).name) path)) &&
    (List.finRange 16).all
    (fun i => !(dirUsed (r.tables.dirs i) && inside (strAt (r.tables.dirs i).name) path))

def fsRmdir (path : List (BitVec 8)) : Outcome :=
  if path = [] ∨ !dirExists r path ∨ !fsDirIsEmpty r path then failed r
  else match dirSlotOf r path with
    | some i => ⟨0, setDir r i (removedDir (r.tables.dirs i)), [.tables]⟩
    | none => failed r

def openSlot (fd : Int) : Option (Fin 16) :=
  if h : 0 ≤ fd ∧ fd < 16 then
    let i : Fin 16 := ⟨fd.toNat, by omega⟩
    if isUsed (r.tables.files i) then some i else none
  else none

def resized (f : FileMeta) (n : Nat) (h : n ≤ 65536) : FileMeta :=
  { f with size := BitVec.ofNat 32 n, size_le := by rw [BitVec.toNat_ofNat]; omega }

theorem resized_size (f : FileMeta) {n : Nat} (h : n ≤ 65536) : (resized f n h).size.toNat = n := by
  rw [resized, BitVec.toNat_ofNat, Nat.mod_eq_of_lt (by omega)]

def stamped (f : FileMeta) (now : BitVec 32) : FileMeta := { f with mtime := now, ctime := now }

def fsWrite (fd : Int) (src : Mem) (len : Nat) (now : BitVec 32) : Outcome :=
  match openSlot r fd with
  | none => failed r
  | some i =>
    let n := min len 65536
    let f := stamped (resized (r.tables.files i) n (Nat.min_le_right _ _)) now
    ⟨n, setFile (setData r i (patch (r.data i) 0 n src)) i f, [.tables, .slot i]⟩

def copied (m : Mem) (offset n : Nat) : List (BitVec 8) :=
  (List.range n).map (fun k => m (offset + k))

/-- What `fs_read` returns, and the bytes. -/
def fsRead (fd : Int) (maxlen : Nat) : Int × List (BitVec 8) :=
  match openSlot r fd with
  | none => (-1, [])
  | some i =>
    let n := min (r.tables.files i).size.toNat maxlen
    (n, copied (r.data i) 0 n)

def fsReadAt (fd : Int) (offset len : Nat) : Int × List (BitVec 8) :=
  match openSlot r fd with
  | none => (-1, [])
  | some i =>
    let size := (r.tables.files i).size.toNat
    if size ≤ offset then (0, [])
    else
      let n := min (size - offset) len
      (n, copied (r.data i) offset n)

def accessed (i : Fin 16) (now : BitVec 32) : Ram :=
  setFile r i { r.tables.files i with atime := now }

def fsReadTouch (fd : Int) (now : BitVec 32) : Ram :=
  match openSlot r fd with
  | none => r
  | some i => accessed r i now

def fsReadAtTouch (fd : Int) (offset : Nat) (now : BitVec 32) : Ram :=
  match openSlot r fd with
  | none => r
  | some i => if (r.tables.files i).size.toNat ≤ offset then r else accessed r i now

def unlinked (f : FileMeta) (now : BitVec 32) : FileMeta :=
  { f with
    name := cleared f.name, deleted := 1#32, ctime := now,
    name_last := cleared_last f.name_last }

def released (f : FileMeta) : FileMeta :=
  { f with
    used := 0#32, size := 0#32, deleted := 0#32, atime := 0#32, mtime := 0#32,
    ctime := 0#32, size_le := zero_size_le }

def fsDelete (name : List (BitVec 8)) (now : BitVec 32) : Outcome :=
  match fileSlotOf r name with
  | none => failed r
  | some i =>
    let f := unlinked (r.tables.files i) now
    ⟨0, setFile r i (if r.refs i = 0#32 then released f else f), [.tables]⟩

def fsRef (slot : Int) : Outcome :=
  match openSlot r slot with
  | none => failed r
  | some i => ⟨0, setRefs r i (r.refs i + 1#32), []⟩

def oneLess (n : BitVec 32) : BitVec 32 := if n = 0#32 then 0#32 else n - 1#32

def fsUnref (slot : Int) : Outcome :=
  match openSlot r slot with
  | none => failed r
  | some i =>
    let n := oneLess (r.refs i)
    let r' := setRefs r i n
    if n = 0#32 ∧ (r.tables.files i).deleted ≠ 0#32 then
      ⟨0, setFile r' i (released (r.tables.files i)), [.tables]⟩
    else ⟨0, r', []⟩

def renamedFile (f : FileMeta) (path : List (BitVec 8)) (now : BitVec 32) : FileMeta :=
  { f with name := nameOf path, ctime := now, name_last := nameOf_last path }

def fsRename (slot : Int) (path : List (BitVec 8)) (now : BitVec 32) : Outcome :=
  match openSlot r slot with
  | none => failed r
  | some i =>
    if (r.tables.files i).deleted ≠ 0#32 then failed r
    else match splitParent path with
      | none => failed r
      | some (parent, _) =>
        if !dirExists r parent || dirExists r path then failed r
        else if (List.finRange 16).any (fun j => decide (j ≠ i) && isLive (r.tables.files j) &&
            decide (strAt (r.tables.files j).name = path)) then failed r
        else ⟨0, setFile r i (renamedFile (r.tables.files i) path now), [.tables]⟩

/-- `name_under`: the path itself or one below it. -/
def nameUnder (name path : List (BitVec 8)) : Bool :=
  path.isPrefixOf name &&
    (decide (name.drop path.length = []) || decide ((name.drop path.length).head? = some slash))

/-- The new name is copied with its terminator. -/
def moveName (a : Fin 64 → BitVec 8) (old new : List (BitVec 8)) : Fin 64 → BitVec 8 :=
  if nameUnder (strAt a) old then putStr a (new ++ (strAt a).drop old.length) else a

def tooLong (a : Fin 64 → BitVec 8) (old new : List (BitVec 8)) : Bool :=
  nameUnder (strAt a) old && decide (64 ≤ new.length + ((strAt a).drop old.length).length)

theorem moveName_last (h : a 63 = 0#8) {old new : List (BitVec 8)}
    (hl : tooLong a old new = false) : moveName a old new 63 = 0#8 := by
  rw [moveName]
  split
  · rename_i hu
    have hlen : (new ++ (strAt a).drop old.length).length ≤ 63 := by
      simp only [tooLong, hu, Bool.true_and, decide_eq_false_iff_not] at hl
      rw [length_append]
      omega
    simp only [putStr, h, ite_self]
    rw [if_neg (by show ¬ 63 < _; omega)]
  · exact h

def movedFile (f : FileMeta) (old new : List (BitVec 8)) (now : BitVec 32) : FileMeta :=
  if hl : tooLong f.name old new = false then
    if isLive f && nameUnder (strAt f.name) old then
      { f with name := moveName f.name old new, ctime := now, name_last := moveName_last f.name_last hl }
    else f
  else f

theorem movedFile_keeps (f : FileMeta) (old new : List (BitVec 8)) (now : BitVec 32) :
    (movedFile f old new now).used = f.used ∧ (movedFile f old new now).size = f.size := by
  rw [movedFile]
  split
  · split <;> exact ⟨rfl, rfl⟩
  · exact ⟨rfl, rfl⟩

def movedDir (d : DirMeta) (old new : List (BitVec 8)) : DirMeta :=
  if hl : tooLong d.name old new = false then
    if dirUsed d then
      { d with name := moveName d.name old new, name_last := moveName_last d.name_last hl }
    else d
  else d

/-- Some name would exceed 63 characters. -/
def overflows (old new : List (BitVec 8)) : Bool :=
  (List.finRange 16).any (fun i => dirUsed (r.tables.dirs i) &&
    tooLong (r.tables.dirs i).name old new) ||
    (List.finRange 16).any (fun i => isLive (r.tables.files i) &&
    tooLong (r.tables.files i).name old new)

/-- `fs_rename_dir`; the clock is read for each file. -/
def fsRenameDir (old new : List (BitVec 8)) (now : Fin 16 → BitVec 32) : Outcome :=
  if old = [] ∨ new = [] ∨ !dirExists r old ∨ 64 ≤ old.length ∨ 64 ≤ new.length then failed r
  else match splitParent new with
    | none => failed r
    | some (parent, _) =>
      if !dirExists r parent || fileExists r new || dirExists r new || nameUnder new old ||
        overflows r old new then
        failed r
      else
        ⟨0, { r with tables := ⟨fun i => movedFile (r.tables.files i) old new (now i),
          fun i => movedDir (r.tables.dirs i) old new⟩ }, [.tables]⟩

def fsFdTruncate (fd : Int) (now : BitVec 32) : Outcome :=
  match openSlot r fd with
  | none => failed r
  | some i =>
    ⟨0, setFile r i (stamped (resized (r.tables.files i) 0 (by omega)) now), [.tables, .slot i]⟩

/-- `fs_truncate`; growing clears the new tail. -/
def fsTruncate (fd : Int) (len : Nat) (now : BitVec 32) : Outcome :=
  match openSlot r fd with
  | none => failed r
  | some i =>
    if h : len ≤ 65536 then
      let size := (r.tables.files i).size.toNat
      let r' := if size < len then setData r i (patch (r.data i) size (len - size) (fun _ => 0#8)) else r
      ⟨0, setFile r' i (stamped (resized (r.tables.files i) len h) now), [.tables, .slot i]⟩
    else failed r

def fsSetTimes (fd : Int) (atime mtime now : BitVec 32) : Outcome :=
  match openSlot r fd with
  | none => failed r
  | some i =>
    ⟨0, setFile r i { r.tables.files i with atime := atime, mtime := mtime, ctime := now }, [.tables]⟩

/-- `fs_write_at`: what the write reaches past is not cleared. -/
def fsWriteAt (fd : Int) (offset : Nat) (src : Mem) (len : Nat) (now : BitVec 32) : Outcome :=
  match openSlot r fd with
  | none => failed r
  | some i =>
    if h : offset < 65536 then
      let n := min len (65536 - offset)
      let f := r.tables.files i
      let f := if f.size.toNat < offset + n then resized f (offset + n) (by omega) else f
      ⟨n, setFile (setData r i (patch (r.data i) offset n src)) i
        (stamped f now), [.tables, .range i offset n]⟩
    else failed r

theorem grown_size (f : FileMeta) (offset n : Nat) (h : offset + n ≤ 65536) (now : BitVec 32) :
    (stamped (if f.size.toNat < offset + n then resized f (offset + n) h else f) now).size.toNat =
      max f.size.toNat (offset + n) := by
  rw [stamped]
  split
  · rw [resized_size]
    omega
  · show f.size.toNat = _
    omega

def fsChmodSlot (slot : Int) (mode : BitVec 16) (now : BitVec 32) : Outcome :=
  match openSlot r slot with
  | none => failed r
  | some i => ⟨0, setFile r i { r.tables.files i with mode := mode, ctime := now }, [.tables]⟩

def fsChmodPath (path : List (BitVec 8)) (mode : BitVec 16) (now : BitVec 32) : Outcome :=
  match fileSlotOf r path with
  | some i => fsChmodSlot r i.val mode now
  | none =>
    if path = [] then failed r
    else match dirSlotOf r path with
      | some i => ⟨0, setDir r i { r.tables.dirs i with mode := mode }, [.tables]⟩
      | none => failed r

def fsChownSlot (slot : Int) (uid gid now : BitVec 32) : Outcome :=
  match openSlot r slot with
  | none => failed r
  | some i =>
    ⟨0, setFile r i { r.tables.files i with uid := uid, gid := gid, ctime := now }, [.tables]⟩

def fsChownPath (path : List (BitVec 8)) (uid gid now : BitVec 32) : Outcome :=
  match fileSlotOf r path with
  | some i => fsChownSlot r i.val uid gid now
  | none =>
    if path = [] then failed r
    else match dirSlotOf r path with
      | some i => ⟨0, setDir r i { r.tables.dirs i with uid := uid, gid := gid }, [.tables]⟩
      | none => failed r

inductive Op
  | create (path : CString) (now : BitVec 32)
  | mkdir (path : CString)
  | rmdir (path : CString)
  | write (fd : Int) (src : Mem) (len : Nat) (now : BitVec 32)
  | read (fd : Int) (maxlen : Nat) (now : BitVec 32)
  | delete (name : CString) (now : BitVec 32)
  | ref (slot : Int)
  | unref (slot : Int)
  | rename (slot : Int) (path : CString) (now : BitVec 32)
  | renameDir (old new : CString) (now : Fin 16 → BitVec 32)
  | fdTruncate (fd : Int) (now : BitVec 32)
  | truncate (fd : Int) (len : Nat) (now : BitVec 32)
  | setTimes (fd : Int) (atime mtime now : BitVec 32)
  | readAt (fd : Int) (offset len : Nat) (now : BitVec 32)
  | writeAt (fd : Int) (offset : Nat) (src : Mem) (len : Nat) (now : BitVec 32)
  | chmodSlot (slot : Int) (mode : BitVec 16) (now : BitVec 32)
  | chmodPath (path : CString) (mode : BitVec 16) (now : BitVec 32)
  | chownSlot (slot : Int) (uid gid now : BitVec 32)
  | chownPath (path : CString) (uid gid now : BitVec 32)

def call : Op → Outcome
  | .create path now => fsCreate r path.chars now
  | .mkdir path => fsMkdir r path.chars
  | .rmdir path => fsRmdir r path.chars
  | .write fd src len now => fsWrite r fd src len now
  | .read fd maxlen now => ⟨(fsRead r fd maxlen).1, fsReadTouch r fd now, []⟩
  | .delete name now => fsDelete r name.chars now
  | .ref slot => fsRef r slot
  | .unref slot => fsUnref r slot
  | .rename slot path now => fsRename r slot path.chars now
  | .renameDir old new now => fsRenameDir r old.chars new.chars now
  | .fdTruncate fd now => fsFdTruncate r fd now
  | .truncate fd len now => fsTruncate r fd len now
  | .setTimes fd atime mtime now => fsSetTimes r fd atime mtime now
  | .readAt fd offset len now => ⟨(fsReadAt r fd offset len).1, fsReadAtTouch r fd offset now, []⟩
  | .writeAt fd offset src len now => fsWriteAt r fd offset src len now
  | .chmodSlot slot mode now => fsChmodSlot r slot mode now
  | .chmodPath path mode now => fsChmodPath r path.chars mode now
  | .chownSlot slot uid gid now => fsChownSlot r slot uid gid now
  | .chownPath path uid gid now => fsChownPath r path.chars uid gid now

end MuOS.Fs.RamFs
