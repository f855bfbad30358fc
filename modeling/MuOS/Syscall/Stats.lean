import MuOS.Syscall.Attributes

namespace MuOS.Syscall.Stats

open Fs RamFs Names User Fds Descriptors Vfs FileCalls Failures Attributes

/-- The fields of a `stat`, `stat64` or `statx` record. -/
structure Stat where
  ino : BitVec 32
  mode : BitVec 32
  nlink : BitVec 32
  uid : BitVec 32
  gid : BitVec 32
  size : BitVec 32
  atime : BitVec 32
  mtime : BitVec 32
  ctime : BitVec 32

section

variable (ctx : Ctx) (s : Sys)

/-- `vfs_ent_fields` and `vfs_fd_fields` for RAM files; callers put the owners. -/
def fields : Entry → Stat
  | .inl i =>
    let f := s.ram.tables.files i
    ⟨BitVec.ofNat 32 (i.val + 3), 0o100644#32, 1#32, 0#32, 0#32, f.size, f.atime, f.mtime, f.ctime⟩
  | .inr _ => ⟨1000#32, 0o40755#32, 2#32, 0#32, 0#32, 0#32, ctx.clock 0, ctx.clock 0, ctx.clock 0⟩

inductive Query
  | stat (path : UserString)
  | fstat (fd : Int)
  | fstatat (dirfd : Int) (path : UserString) (flags : BitVec 32)
  | statx (dirfd : Int) (path : UserString)

def atEMPTYPATH : BitVec 32 := 0x1000#32

def opened (fd : Int) : Option Entry :=
  match userFdKind (entries s.fds) fd with
  | some .file => (openSlot s.ram (userFdSlot (entries s.fds) fd)).map .inl
  | some .dir =>
    match resolve ctx s.ram (userFdDirPath s.fds fd) with
    | .ok .realDir => (dirSlotOf s.ram ((userFdDirPath s.fds fd).drop 1)).map .inr
    | _ => none
  | _ => none

/-- What a call reports on, in the RAM file system. -/
def queried : Query → Option Entry
  | .stat path => (copyUserString path 128).bind (aimed ctx s)
  | .fstat fd => opened ctx s fd
  | .fstatat dirfd path flags =>
    match copyUserString path 64 with
    | none => none
    | some [] => if hasFlag flags atEMPTYPATH then opened ctx s dirfd else none
    | some raw => (atResolveRaw s dirfd raw 128).toOption.bind (aimed ctx s)
  | .statx dirfd path =>
    match copyUserString path 128 with
    | none => none
    | some [] => opened ctx s dirfd
    | some buf => aimed ctx s buf

def doStat (q : Query) : Option Stat := (queried ctx s q).map (fields ctx s)

/-- The record has the bits, owner and group `open` checks. -/
def Tells (st : Stat) (o : Owner) : Prop :=
  st.mode &&& 0o7777#32 = o.mode.setWidth 32 ∧ st.uid = o.uid ∧ st.gid = o.gid

def initial : Entry → Owner
  | .inl _ => ⟨0#32, 0#32, 0o644#16, false⟩
  | .inr _ => ⟨0#32, 0#32, 0o755#16, true⟩

end

theorem tells_zero {st : Stat} {o : Owner} {c : BitVec 16}
    (hm : st.mode &&& 0o7777#32 = c.setWidth 32) (hu : st.uid = 0#32)
    (hg : st.gid = 0#32) : Tells st o ↔ o.uid = 0#32 ∧ o.gid = 0#32 ∧ o.mode = c := by
  have hmode : c.setWidth 32 = o.mode.setWidth 32 ↔ o.mode = c := by
    rw [← BitVec.toNat_inj, ← BitVec.toNat_inj, BitVec.toNat_setWidth_of_le (by decide),
      BitVec.toNat_setWidth_of_le (by decide), eq_comm]
  rw [Tells, hm, hu, hg, hmode, eq_comm (a := 0#32), eq_comm (a := 0#32), and_comm, and_assoc]

theorem tells_iff (ctx : Ctx) (s : Sys) (e : Entry) :
    Tells (fields ctx s e) (ownerOf s.ram e) ↔ ownerOf s.ram e = initial e := by
  cases e with
  | inl i =>
    rw [tells_zero (c := 0o644#16) (by simp [fields]) rfl rfl]
    simp [ownerOf, initial, fileOwner]
  | inr j =>
    rw [tells_zero (c := 0o755#16) (by simp [fields]) rfl rfl]
    simp [ownerOf, initial, dirOwner]

/-- What is reported of a file or directory is what is stored if and only if that
is still what it was created with. -/
theorem stat_tells_iff (ctx : Ctx) (s : Sys) (q : Query) (e : Entry)
    (h : queried ctx s q = some e) : (∃ st, doStat ctx s q = some st ∧ Tells st (ownerOf s.ram e)) ↔
    ownerOf s.ram e = initial e := by
  rw [← tells_iff ctx, doStat, h]
  constructor
  · rintro ⟨st, hst, ht⟩
    cases hst
    exact ht
  · exact fun ht => ⟨_, rfl, ht⟩

def private600 : Sys :=
  (fsCall superUser { twoFiles with cwd := [slash] } (.chmod (some nameB) 0o600#16)).sys

theorem stat_tells_sample : queried superUser private600 (.stat (some nameB)) = some (.inl 0) ∧
    ((∃ st, doStat superUser private600 (.stat (some nameB)) = some st ∧ Tells st
      (ownerOf private600.ram (.inl 0))) ↔ ownerOf private600.ram (.inl 0) = initial (.inl 0)) :=
  ⟨by decide +kernel, stat_tells_iff superUser private600 _ _ (by decide +kernel)⟩

/-- The mode 0600 is reported as 0644. -/
theorem stat_hides_mode :
    (doStat superUser private600 (.stat (some nameB))).map Stat.mode = some 0o100644#32 ∧
    (ownerOf private600.ram (.inl 0)).mode = 0o600#16 := by
  decide +kernel

end MuOS.Syscall.Stats
