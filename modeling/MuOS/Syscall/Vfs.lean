import MuOS.Fs.Names
import MuOS.User.Descriptors

namespace MuOS.Syscall.Vfs

open Lib.CStrings Fs Metadata RamFs User Fds Descriptors

abbrev Path := List (BitVec 8)

def ascii (cs : List Char) : Path := cs.map (fun c => BitVec.ofNat 8 c.toNat)

/-- The generated files of `/proc` and `/etc`. -/
inductive VFile
  | meminfo | uptime | version | cpuinfo | mounts | mtab | loadavg | stat | maps
  | pidStat | pidStatus | pidCmdline | pidComm | pidMaps
deriving DecidableEq

/-- What a name resolves to: a `vfs_ent_t` without its path. -/
inductive Node
  | root | devDir | procDir | etcDir | binDir | usrBinDir | sbinDir
  | pidDir (pid : BitVec 32)
  | realDir
  | dev (kind : FdKind)
  | vfile (id : VFile) (pid : BitVec 32)
  | module
  | file (slot : Fin 16)
deriving DecidableEq

/-- Who makes a call, and what it finds in the system. -/
structure Ctx where
  uid : BitVec 32
  gid : BitVec 32
  self : BitVec 32
  hasPid : BitVec 32 → Bool
  ataPresent : Bool
  modulesCount : Nat
  vtext : VFile → BitVec 32 → Path
  clock : Nat → BitVec 32
  pipeCreate : Option Nat
  io : FdKind → Nat → Int

/-- What the file system calls of one process work on. -/
structure Sys where
  ram : Ram
  fds : Table
  cwd : Path

def ePERM : Nat := 1
def eNOENT : Nat := 2
def eBADF : Nat := 9
def eACCES : Nat := 13
def eFAULT : Nat := 14
def eBUSY : Nat := 16
def eEXIST : Nat := 17
def eNODEV : Nat := 19
def eNOTDIR : Nat := 20
def eISDIR : Nat := 21
def eINVAL : Nat := 22
def eMFILE : Nat := 24
def eFBIG : Nat := 27
def eNOSPC : Nat := 28
def eNAMETOOLONG : Nat := 36
def eNOTEMPTY : Nat := 39

def dot : BitVec 8 := 46#8

/-- The pieces between slashes that `vfs_normalize` looks at. -/
def components (p : Path) : List Path := (p.splitOn slash).filter (fun c => !c.isEmpty)

/-- `..`: cut at the last slash. -/
def cutLast (t : Path) : Path := ((t.reverse.dropWhile (fun c => c != slash)).drop 1).reverse

def walkParts : Path → List Path → Except Nat Path
  | t, [] => .ok t
  | t, c :: cs =>
    if c = [dot] then walkParts t cs
    else if c = [dot, dot] then walkParts (cutLast t) cs
    else if 64 ≤ t.length + c.length + 2 then .error eNAMETOOLONG
    else walkParts (t ++ slash :: c) cs

/-- A relative path starts in the working directory; the root is empty. -/
def startAt (cwd p : Path) : Except Nat Path :=
  if p.head? ≠ some slash ∧ cwd.head? = some slash ∧ 1 < cwd.length then
    if 64 ≤ cwd.length then .error eNAMETOOLONG else .ok cwd
  else .ok []

def vfsNormalize (cwd p : Path) : Except Nat Path :=
  match startAt cwd p with
  | .error e => .error e
  | .ok t =>
    match walkParts t (components p) with
    | .error e => .error e
    | .ok t => if t = [] then .ok [slash] else if 64 < t.length + 1 then .error eNAMETOOLONG else .ok t

def vfsProcFileId (name : Path) : Option VFile :=
  if name = ascii ['m', 'e', 'm', 'i', 'n', 'f', 'o'] then some .meminfo
  else if name = ascii ['u', 'p', 't', 'i', 'm', 'e'] then some .uptime
  else if name = ascii ['v', 'e', 'r', 's', 'i', 'o', 'n'] then some .version
  else if name = ascii ['c', 'p', 'u', 'i', 'n', 'f', 'o'] then some .cpuinfo
  else if name = ascii ['m', 'o', 'u', 'n', 't', 's'] then some .mounts
  else if name = ascii ['l', 'o', 'a', 'd', 'a', 'v', 'g'] then some .loadavg
  else if name = ascii ['s', 't', 'a', 't'] then some .stat
  else if name = ascii ['m', 'a', 'p', 's'] then some .maps
  else none

def vfsProcPidFileId (name : Path) : Option VFile :=
  if name = ascii ['s', 't', 'a', 't'] then some .pidStat
  else if name = ascii ['s', 't', 'a', 't', 'u', 's'] then some .pidStatus
  else if name = ascii ['c', 'm', 'd', 'l', 'i', 'n', 'e'] then some .pidCmdline
  else if name = ascii ['c', 'o', 'm', 'm'] then some .pidComm
  else if name = ascii ['m', 'a', 'p', 's'] then some .pidMaps
  else none

def decimal : BitVec 32 → Path → Option (BitVec 32)
  | v, [] => some v
  | v, c :: cs =>
    if c.toNat < 48 ∨ 57 < c.toNat then none else decimal (v * 10#32 + BitVec.ofNat 32 (c.toNat - 48)) cs

def vfsParsePidToken (ctx : Ctx) (tok : Path) : Option (BitVec 32) :=
  if tok = ascii ['s', 'e', 'l', 'f'] then some ctx.self
  else if tok = [] then none
  else match decimal 0#32 tok with
    | none => none
    | some v => if v = 0#32 then none else some v

/-- The process a name under `/proc` stands for, if any. -/
def procPid (ctx : Ctx) (tok : Path) : Option (BitVec 32) :=
  (vfsParsePidToken ctx tok).filter ctx.hasPid

def lookupDev (ctx : Ctx) (n : Path) : Except Nat Node :=
  if slash ∈ n then .error eNOENT
  else if n = ascii ['n', 'u', 'l', 'l'] then .ok (.dev .devNull)
  else if n = ascii ['z', 'e', 'r', 'o'] then .ok (.dev .devZero)
  else if n = ascii ['c', 'o', 'n', 's', 'o', 'l', 'e'] then .ok (.dev .devConsole)
  else if n = ascii ['h', 'd', 'a'] then
    if ctx.ataPresent then .ok (.dev .devAta) else .error eNODEV
  else .error eNOENT

def lookupProc (ctx : Ctx) (n : Path) : Except Nat Node :=
  if slash ∈ n then
    let tok := n.takeWhile (fun c => c != slash)
    let fname := n.drop (tok.length + 1)
    if tok.length = 0 ∨ 16 ≤ tok.length then .error eNOENT
    else match procPid ctx tok with
      | none => .error eNOENT
      | some pid =>
        if slash ∈ fname then .error eNOENT
        else match vfsProcPidFileId fname with
          | none => .error eNOENT
          | some id => .ok (.vfile id pid)
  else match vfsProcFileId n with
    | some id => .ok (.vfile id 0#32)
    | none =>
      match procPid ctx n with
      | some pid => .ok (.pidDir pid)
      | none => .error eNOENT

def lookupEtc (n : Path) : Except Nat Node :=
  if n = ascii ['m', 't', 'a', 'b'] then .ok (.vfile .mtab 0#32) else .error eNOENT

def lookupProg (ctx : Ctx) (prog : Path) : Except Nat Node :=
  if prog = [] ∨ slash ∈ prog ∨ ctx.modulesCount = 0 then .error eNOENT else .ok .module

def lookupRam (r : Ram) (name : Path) : Except Nat Node :=
  if dirExists r name then .ok .realDir
  else match fileSlotOf r name with
    | some i => .ok (.file i)
    | none => .error eNOENT

def dirDev : Path := ascii ['/', 'd', 'e', 'v']
def dirProc : Path := ascii ['/', 'p', 'r', 'o', 'c']
def dirEtc : Path := ascii ['/', 'e', 't', 'c']
def dirBin : Path := ascii ['/', 'b', 'i', 'n']
def dirUsrBin : Path := ascii ['/', 'u', 's', 'r', '/', 'b', 'i', 'n']
def dirSbin : Path := ascii ['/', 's', 'b', 'i', 'n']

def below (dir p : Path) : Option Path :=
  if (dir ++ [slash]).isPrefixOf p then some (p.drop (dir.length + 1)) else none

/-- `vfs_lookup` on a normalized path. -/
def resolve (ctx : Ctx) (r : Ram) (p : Path) : Except Nat Node :=
  if p = [slash] then .ok .root
  else if p = dirDev then .ok .devDir
  else if p = dirProc then .ok .procDir
  else if p = dirEtc then .ok .etcDir
  else if p = dirBin then .ok .binDir
  else if p = dirUsrBin then .ok .usrBinDir
  else if p = dirSbin then .ok .sbinDir
  else match below dirDev p with
    | some n => lookupDev ctx n
    | none =>
      match below dirProc p with
      | some n => lookupProc ctx n
      | none =>
        match below dirEtc p with
        | some n => lookupEtc n
        | none =>
          match (below dirBin p).or ((below dirUsrBin p).or (below dirSbin p)) with
          | some prog => lookupProg ctx prog
          | none => lookupRam r (p.drop 1)

/-- `vfs_lookup`: the path is there once normalized. -/
def vfsLookup (ctx : Ctx) (s : Sys) (buf : Path) : Except Nat (Path × Except Nat Node) :=
  match vfsNormalize s.cwd buf with
  | .error e => .error e
  | .ok p => .ok (p, resolve ctx s.ram p)

/-- Read is 4, write 2, search 1. -/
def permOk (ctx : Ctx) (fuid fgid : BitVec 32) (mode need : BitVec 16) : Bool :=
  if ctx.uid = 0#32 then
    if need &&& 1#16 ≠ 0#16 then decide (mode &&& 0o111#16 ≠ 0#16) else true
  else
    let bits :=
      if ctx.uid = fuid then (mode >>> 6) &&& 7#16
      else if ctx.gid = fgid then (mode >>> 3) &&& 7#16
      else mode &&& 7#16
    decide (bits &&& need = need)

structure Owner where
  uid : BitVec 32
  gid : BitVec 32
  mode : BitVec 16
  isDir : Bool

def fileOwner (f : FileMeta) : Owner := ⟨f.uid, f.gid, f.mode, false⟩

def dirOwner (d : DirMeta) : Owner := ⟨d.uid, d.gid, d.mode, true⟩

def rootOwner : Owner := ⟨0#32, 0#32, 0o755#16, true⟩

def fsPermPath (r : Ram) (path : Path) : Option Owner :=
  match fileSlotOf r path with
  | some i => some (fileOwner (r.tables.files i))
  | none =>
    if path = [] then some rootOwner
    else (dirSlotOf r path).map (fun i => dirOwner (r.tables.dirs i))

def ownerAllows (ctx : Ctx) (o : Owner) (need : BitVec 16) : Bool :=
  permOk ctx o.uid o.gid o.mode (if o.isDir && need &&& 3#16 != 0#16 then need ||| 1#16 else need)

def stripSlashes (p : Path) : Path := p.dropWhile (fun c => c == slash)

/-- A name the RAM file system does not know passes. -/
def pathPermOk (ctx : Ctx) (r : Ram) (path : Path) (need : BitVec 16) : Bool :=
  match fsPermPath r (stripSlashes path) with
  | none => true
  | some o => ownerAllows ctx o need

def parentPermOk (ctx : Ctx) (r : Ram) (rel : Path) (need : BitVec 16) : Bool :=
  let par := ((rel.reverse.dropWhile (fun c => c != slash)).drop 1).reverse
  if slash ∈ rel then if 64 ≤ par.length then false else pathPermOk ctx r par need
  else pathPermOk ctx r [] need

/-- The outcome; `pipes` lists changes to writer counts. -/
structure Done where
  rc : Int
  sys : Sys
  pipes : List (Nat × Int)

def errno (s : Sys) (code : Nat) : Done := ⟨-code, s, []⟩

def answer (s : Sys) (rc : Int) : Done := ⟨rc, s, []⟩

section

variable (ctx : Ctx) (s : Sys)

def oWRONLY : BitVec 32 := 1#32
def oRDWR : BitVec 32 := 2#32
def oACCMODE : BitVec 32 := 3#32
def oCREAT : BitVec 32 := 0x40#32
def oTRUNC : BitVec 32 := 0x200#32
def oDIRECTORY : BitVec 32 := 0x10000#32

def hasFlag (flags bit : BitVec 32) : Bool := flags &&& bit != 0#32

def openDesc (d : Desc) : Done :=
  match fdAllocWith s.fds d with
  | none => errno s eMFILE
  | some (k, t) => answer { s with fds := t } k.val

/-- `user_fd_alloc`: a file's new descriptor counts in the slot. -/
def openSlotDesc (i : Fin 16) : Done :=
  match fdAllocWith s.fds (fileDesc i) with
  | none => errno s eMFILE
  | some (k, t) => answer { s with ram := (fsRef s.ram i.val).ram, fds := t } k.val

def createAndOpen (name : Path) : Done :=
  if name = [] then errno s eNOTDIR
  else if 64 ≤ name.length then errno s eNAMETOOLONG
  else if !fsParentIsDir s.ram name then errno s eNOTDIR
  else if !parentPermOk ctx s.ram name 3#16 then errno s eACCES
  else
    let out := fsCreate s.ram name (ctx.clock 0)
    if out.rc < 0 then errno s eNOSPC
    else openSlotDesc { s with ram := out.ram } (Fin.ofNat 16 out.rc.toNat)

/-- The access that the flags of `open` ask for. -/
def needOf (flags : BitVec 32) : BitVec 16 :=
  if flags &&& oACCMODE = oRDWR then 6#16 else if flags &&& oACCMODE = oWRONLY then 2#16 else 4#16

def openFile (buf : Path) (flags : BitVec 32) (i : Fin 16) : Done :=
  if hasFlag flags oDIRECTORY then errno s eNOTDIR
  else if !pathPermOk ctx s.ram buf (needOf flags) then errno s eACCES
  else
    let ram := if hasFlag flags oTRUNC then (fsFdTruncate s.ram i.val (ctx.clock 0)).ram else s.ram
    openSlotDesc { s with ram := ram } i

def openDir (path : Path) (flags : BitVec 32) : Done :=
  if hasFlag flags oCREAT || hasFlag flags oTRUNC then errno s eISDIR else openDesc s (dirDesc path)

def doOpenBuf (buf : Path) (flags : BitVec 32) : Done :=
  match vfsLookup ctx s buf with
  | .error e => errno s e
  | .ok (path, .error e) =>
    if e ≠ eNOENT then errno s e
    else if !hasFlag flags oCREAT || hasFlag flags oDIRECTORY then errno s e
    else createAndOpen ctx s (path.drop 1)
  | .ok (path, .ok node) =>
    match node with
    | .file i => openFile ctx s buf flags i
    | .dev kind => openDesc s (devDesc kind)
    | .vfile id pid =>
      if flags &&& oACCMODE ≠ 0#32 then errno s eACCES else openDesc s (vfileDesc (ctx.vtext id pid))
    | .module => errno s eNOENT
    | _ => openDir s path flags

/-- A string argument; `none` is one the process cannot read. -/
abbrev UserString := Option CString

/-- `copy_user_string` cuts what does not fit. -/
def copyUserString (u : UserString) (max : Nat) : Option Path :=
  u.map (fun c => c.chars.take (max - 1))

def atResolveRaw (dirfd : Int) (raw : Path) (max : Nat) : Except Nat Path :=
  if raw.head? = some slash ∨ dirfd = -100 then
    if max < raw.length + 1 then .error eNAMETOOLONG else .ok raw
  else if userFdKind (entries s.fds) dirfd = none then .error eBADF
  else if !userFdIsDir s.fds dirfd then .error eNOTDIR
  else
    let base := userFdDirPath s.fds dirfd
    if max < base.length + 1 + raw.length + 1 then .error eNAMETOOLONG else .ok (base ++ slash :: raw)

def atPath (dirfd : Int) (u : UserString) (max : Nat) : Except Nat Path :=
  match copyUserString u 64 with
  | none => .error eFAULT
  | some [] => .error eNOENT
  | some raw => atResolveRaw s dirfd raw max

def plainPath (u : UserString) : Except Nat Path :=
  match copyUserString u 128 with
  | none => .error eFAULT
  | some buf => .ok buf

def onPath (p : Except Nat Path) (f : Path → Done) : Done :=
  match p with
  | .error e => errno s e
  | .ok buf => f buf

def doOpen (path : UserString) (flags : BitVec 32) : Done :=
  onPath s (plainPath path) (fun buf => doOpenBuf ctx s buf flags)

def doOpenat (dirfd : Int) (path : UserString) (flags : BitVec 32) : Done :=
  onPath s (atPath s dirfd path 128) (fun buf => doOpenBuf ctx s buf flags)

end

end MuOS.Syscall.Vfs
