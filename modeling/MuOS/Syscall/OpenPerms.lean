import MuOS.Syscall.Vfs

namespace MuOS.Syscall.OpenPerms

open Lib.CStrings Fs.RamFs User.Descriptors Vfs Bool

/-- `open` and `openat`; the mode argument is not looked at. -/
inductive OpenCall
  | plain (path : UserString) (flags : BitVec 32)
  | relative (dirfd : Int) (path : UserString) (flags : BitVec 32)

def OpenCall.flags : OpenCall → BitVec 32
  | .plain _ flags => flags
  | .relative _ _ flags => flags

variable (ctx : Ctx) (s : Sys) {q : Path}

def openCall : OpenCall → Done
  | .plain path flags => doOpen ctx s path flags
  | .relative dirfd path flags => doOpenat ctx s dirfd path flags

def spelling : OpenCall → Except Nat Path
  | .plain path _ => plainPath path
  | .relative dirfd path _ => atPath s dirfd path 128

def granted (i : Fin 16) (flags : BitVec 32) : Bool :=
  permOk ctx (s.ram.tables.files i).uid (s.ram.tables.files i).gid (s.ram.tables.files i).mode
    (needOf flags)

/-- Opening an existing file needs its bits. -/
def Respects (c : OpenCall) : Prop :=
  ∀ buf p i, spelling s c = .ok buf → vfsLookup ctx s buf = .ok (p, .ok (.file i)) →
    0 ≤ (openCall ctx s c).rc → granted ctx s i c.flags = true

/-- The spelling hides the file from the check: it names something else that permits. -/
structure Evades (c : OpenCall) (buf p : Path) (i : Fin 16) : Prop where
  spelled : spelling s c = .ok buf
  found : vfsLookup ctx s buf = .ok (p, .ok (.file i))
  other : stripSlashes buf ≠ p.drop 1
  unchecked : ∀ o, fsPermPath s.ram (stripSlashes buf) = some o →
    ownerAllows ctx o (needOf c.flags) = true
  denied : granted ctx s i c.flags = false
  plainFile : hasFlag c.flags oDIRECTORY = false
  room : ∃ k, fdAllocRaw s.fds = some k

variable {ctx s} {c : OpenCall} {buf p : Path} {i : Fin 16} {r : Ram} {flags : BitVec 32}

theorem openCall_eq (c : OpenCall) :
    openCall ctx s c = onPath s (spelling s c) (fun buf => doOpenBuf ctx s buf c.flags) := by
  cases c <;> rfl

def inRam : Node → Bool
  | .file _ | .realDir => true
  | _ => false

variable {n : Node}

theorem lookupDev_foreign (h : lookupDev ctx q = .ok n) : inRam n = false := by
  simp only [lookupDev] at h
  repeat' split at h
  all_goals cases h
  all_goals rfl

theorem lookupProc_foreign (h : lookupProc ctx q = .ok n) : inRam n = false := by
  simp only [lookupProc] at h
  repeat' split at h
  all_goals cases h
  all_goals rfl

def virtualDirs : List Path := [dirDev, dirProc, dirEtc, dirBin, dirUsrBin, dirSbin]

/-- No virtual directory is at the path or above it. -/
def Unshadowed (p : Path) : Prop := ∀ d ∈ virtualDirs, p ≠ d ∧ below d p = none

theorem resolve_ram (h : resolve ctx r p = .ok n) (hn : inRam n = true) :
    (p ≠ [slash] ∧ Unshadowed p) ∧ lookupRam r (p.drop 1) = .ok n := by
  simp only [resolve] at h
  iterate 7
    split at h
    · cases h
      cases hn
  split at h
  · cases (lookupDev_foreign h).symm.trans hn
  split at h
  · cases (lookupProc_foreign h).symm.trans hn
  split at h
  · rw [lookupEtc] at h
    split at h
    · cases h
      cases hn
    · cases h
  split at h
  · rw [lookupProg] at h
    split at h
    · cases h
    cases h
    cases hn
  rename_i hor
  refine ⟨⟨‹_›, ?_⟩, h⟩
  simp_all [Unshadowed, virtualDirs]

theorem resolve_file (h : resolve ctx r p = .ok (.file i)) :
    dirExists r (p.drop 1) = false ∧ fileSlotOf r (p.drop 1) = some i := by
  have hram := (resolve_ram h rfl).2
  rw [lookupRam] at hram
  split at hram
  · cases hram
  rename_i hd
  refine ⟨by simpa using hd, ?_⟩
  split at hram
  · rename_i j hj
    simp only [Except.ok.injEq, Node.file.injEq] at hram
    rw [hj, hram]
  · cases hram

theorem vfsLookup_ok {n : Except Nat Node} (h : vfsLookup ctx s buf = .ok (p, n)) :
    resolve ctx s.ram p = n := by
  rw [vfsLookup] at h
  split at h
  · cases h
  simp only [Except.ok.injEq, Prod.mk.injEq] at h
  rw [← h.1, h.2]

theorem pathPermOk_own (hf : fileSlotOf s.ram (p.drop 1) = some i)
    (hb : stripSlashes buf = p.drop 1) :
    pathPermOk ctx s.ram buf (needOf flags) = granted ctx s i flags := by
  simp only [pathPermOk, fsPermPath, hb, hf, ownerAllows, fileOwner, Bool.false_and,
    Bool.false_eq_true, if_false]
  rfl

theorem openSlotDesc_rc (s : Sys) (i : Fin 16) : 0 ≤ (openSlotDesc s i).rc ↔
    ∃ k, fdAllocRaw s.fds = some k := by
  simp only [openSlotDesc, fdAllocWith]
  cases h : fdAllocRaw s.fds with
  | none => simp [errno, eMFILE]
  | some k => simp [answer]

theorem openFile_rc : 0 ≤ (openFile ctx s buf flags i).rc ↔
    hasFlag flags oDIRECTORY = false ∧ pathPermOk ctx s.ram buf (needOf flags) = true ∧
      ∃ k, fdAllocRaw s.fds = some k := by
  simp only [openFile]
  split
  · rename_i h
    simp [h, errno, eNOTDIR]
  rename_i h
  split
  · rename_i hp
    simp only [not_eq_true'] at hp
    simp [hp, errno, eACCES]
  · rename_i hp
    simp only [not_eq_true', not_eq_false] at hp
    rw [openSlotDesc_rc]
    simp [h, hp]

theorem openCall_rc (hs : spelling s c = .ok buf)
    (hl : vfsLookup ctx s buf = .ok (p, .ok (.file i))) :
    0 ≤ (openCall ctx s c).rc ↔ hasFlag c.flags oDIRECTORY = false ∧
      pathPermOk ctx s.ram buf (needOf c.flags) = true ∧ ∃ k, fdAllocRaw s.fds = some k := by
  rw [openCall_eq, hs, onPath, doOpenBuf, hl]
  exact openFile_rc

/-- Opening respects the bits of every file except where the spelling evades the check. -/
theorem open_respects_iff (ctx : Ctx) (s : Sys) (c : OpenCall) : Respects ctx s c ↔
    ∀ buf p i, ¬ Evades ctx s c buf p i := by
  constructor
  · intro h buf p i he
    have hrc : 0 ≤ (openCall ctx s c).rc := by
      refine (openCall_rc he.spelled he.found).mpr ⟨he.plainFile, ?_, he.room⟩
      rw [pathPermOk]
      split
      · rfl
      rename_i o ho
      exact he.unchecked o ho
    have hg := h buf p i he.spelled he.found hrc
    rw [he.denied] at hg
    cases hg
  · intro h buf p i hs hl hrc
    obtain ⟨hdir, hperm, hroom⟩ := (openCall_rc hs hl).mp hrc
    by_contra hg
    refine h buf p i ⟨hs, hl, ?_, ?_, by simpa using hg, hdir, hroom⟩
    · intro hb
      rw [pathPermOk_own (resolve_file (vfsLookup_ok hl)).2 hb] at hperm
      exact hg hperm
    · intro o ho
      simp only [pathPermOk, ho] at hperm
      exact hperm

def someUser : Ctx :=
  ⟨1000#32, 1000#32, 2#32, fun _ => false, false, 0, fun _ _ => [], fun _ => 0#32, none,
  fun _ _ => 0⟩

/-- One file, "secret", of root and closed to others. -/
def secretRam : Ram :=
  (fsChmodSlot (fsCreate (fsInit bootRam) (ascii ['s', 'e', 'c', 'r', 'e', 't']) 0#32).ram 0
    0o600#16 0#32).ram

def secretSys : Sys := ⟨secretRam, userFdsReset, [slash]⟩

def dotSecret : CString := ⟨ascii ['.', '/', 's', 'e', 'c', 'r', 'e', 't'], by decide⟩

/-- Spelled "./secret" the file is opened for reading and writing. -/
theorem dot_slash_evades : (openCall someUser secretSys (.plain (some dotSecret) oRDWR)).rc = 3 ∧
    vfsLookup someUser secretSys dotSecret.chars = .ok
    (ascii ['/', 's', 'e', 'c', 'r', 'e', 't'], .ok (.file 0)) ∧
    granted someUser secretSys 0 oRDWR = false ∧
    ¬ Respects someUser secretSys (.plain (some dotSecret) oRDWR) := by
  have hl : vfsLookup someUser secretSys dotSecret.chars =
      .ok (ascii ['/', 's', 'e', 'c', 'r', 'e', 't'], .ok (.file 0)) := by rfl
  have hg : granted someUser secretSys 0 oRDWR = false := by decide +kernel
  have hrc : (openCall someUser secretSys (.plain (some dotSecret) oRDWR)).rc = 3 := by decide +kernel
  refine ⟨hrc, hl, hg, fun h => ?_⟩
  have := h dotSecret.chars _ 0 rfl hl (by rw [hrc]; decide)
  cases this

end MuOS.Syscall.OpenPerms
