import MuOS.Syscall.Vfs

namespace MuOS.Syscall.FileCalls

open Fs Metadata RamFs Names User Fds Descriptors Vfs

/-- A buffer of the process; `none` is one outside its window. -/
abbrev UserBytes := Option (List (BitVec 8))

section

variable (s : Sys)

/-- `fd_entry_ref` for a file: one reference more or less. -/
def refFile (r : Ram) (d : Desc) : Ram :=
  if d.kind = .file ∧ 0 ≤ d.fsSlot then (fsRef r d.fsSlot).ram else r

def unrefFile (r : Ram) (d : Desc) : Ram :=
  if d.kind = .file ∧ 0 ≤ d.fsSlot then (fsUnref r d.fsSlot).ram else r

/-- `fd_entry_ref` for a pipe. -/
def pipeDelta (delta : Int) (d : Desc) : List (Nat × Int) :=
  if d.kind = .pipeWrite then [(d.pipeId, delta)] else []

def userFdClose (fd : Int) : Done :=
  match descIndex fd with
  | none => answer s 0
  | some i => ⟨0, { s with ram := unrefFile s.ram (s.fds i), fds := setDesc s.fds i emptyDesc },
    pipeDelta (-1) (s.fds i)⟩

/-- `do_close`; descriptors from 16 on are sockets. -/
def doClose (fd : Int) : Done :=
  if userFdKind (entries s.fds) fd = none then errno s eBADF else userFdClose s fd

def userFdDup (old : Int) : Option Done :=
  match descIndex old with
  | none => none
  | some i =>
    if (s.fds i).kind = .free then none
    else match fdAllocRaw s.fds with
      | none => none
      | some k =>
        some ⟨k.val, { s with ram := refFile s.ram (s.fds i), fds := setDesc s.fds k (s.fds i) },
          pipeDelta 1 (s.fds i)⟩

def doDup (fd : Int) : Done :=
  if userFdKind (entries s.fds) fd = none then errno s eBADF
    else (userFdDup s fd).getD (errno s eMFILE)

/-- `user_fd_dup2`: the old entry is released before the copy counts. -/
def userFdDup2 (old new : Int) : Done :=
  match descIndex old, descIndex new with
  | some i, some j =>
    if (s.fds i).kind = .free then errno s eBADF
    else if i = j then answer s new
    else ⟨new,
      { s with ram := refFile (unrefFile s.ram (s.fds j)) (s.fds i), fds := setDesc s.fds j (s.fds i) },
      pipeDelta (-1) (s.fds j) ++ pipeDelta 1 (s.fds i)⟩
  | _, _ => errno s eBADF

/-- `do_pipe`; `ok`: the process can store the two numbers. -/
def doPipe (ctx : Ctx) (ok : Bool) : Done :=
  if !ok then errno s eFAULT
  else match ctx.pipeCreate with
    | none => errno s eMFILE
    | some id =>
      match fdAllocWith s.fds (pipeDesc id false) with
      | none => errno s eMFILE
      | some (rfd, t) =>
        match fdAllocWith t (pipeDesc id true) with
        | none => errno { s with fds := setDesc t rfd emptyDesc } eMFILE
        | some (_, t') => ⟨0, { s with fds := t' }, [(id, 1)]⟩

end

section

variable (ctx : Ctx) (s : Sys)

def bytesMem (bs : List (BitVec 8)) : Nat → BitVec 8 := fun k => bs.getD k 0#8

/-- The file case of `do_write` and `kbuf_write`; `none` failed. -/
def writeFile (fd : Int) (bs : List (BitVec 8)) (now : BitVec 32) : Option (Int × Sys) :=
  let slot := userFdSlot (entries s.fds) fd
  if slot < 0 then none
  else
    let off := userFdOffset s.fds fd
    let out := fsWriteAt s.ram slot off.toNat (bytesMem bs) bs.length now
    if out.rc < 0 then none
    else some (out.rc,
      { s with ram := out.ram, fds := userFdSetOffset s.fds fd (off + BitVec.ofInt 32 out.rc) })

def diskIo (fd : Int) (count : Nat) : Done :=
  let n := ctx.io .devAta count
  if n < 0 then ⟨n, s, []⟩
  else answer
    { s with fds := userFdSetOffset s.fds fd (userFdOffset s.fds fd + BitVec.ofInt 32 n) } n

def doWriteAs (kind : FdKind) (fd : Int) (bs : List (BitVec 8)) : Done :=
  match kind with
  | .file =>
    match writeFile s fd bs (ctx.clock 0) with
    | none => errno s eBADF
    | some (n, s') => answer s' n
  | .devNull | .devZero | .stdout | .stderr | .devConsole => answer s bs.length
  | .vfile => errno s eACCES
  | .pipeWrite => answer s (ctx.io .pipeWrite bs.length)
  | .devAta => diskIo ctx s fd bs.length
  | .dir => errno s eISDIR
  | .free | .stdin | .pipeRead => errno s eBADF

def doWrite (fd : Int) (buf : UserBytes) : Done :=
  match buf with
  | none => errno s eFAULT
  | some [] => answer s 0
  | some bs =>
    match userFdKind (entries s.fds) fd with
    | none => errno s eBADF
    | some kind => doWriteAs ctx s kind fd bs

/-- The vector is written until a part fails; the total counts. -/
def doWritev (fd : Int) : Sys → Int → List UserBytes → Done
  | s, total, [] => answer s total
  | s, total, b :: bs =>
    let d := doWrite ctx s fd b
    if d.rc < 0 then answer d.sys (if total = 0 then d.rc else total)
      else doWritev fd d.sys (total + d.rc) bs

/-- `do_read` of files; `ok` says whether the buffer lies in the window. -/
def doRead (fd : Int) (count : Nat) (ok : Bool) : Done :=
  if count = 0 then answer s 0
  else if !ok then errno s eFAULT
  else
    let off := userFdOffset s.fds fd
    match userFdKind (entries s.fds) fd with
    | some .file =>
      let slot := userFdSlot (entries s.fds) fd
      let n := (fsReadAt s.ram slot off.toNat count).1
      if n < 0 then errno s eBADF
      else answer { s with
        ram := fsReadAtTouch s.ram slot off.toNat (ctx.clock 0)
        fds := userFdSetOffset s.fds fd (off + BitVec.ofInt 32 n) } n
    | some .vfile =>
      let n := min ((userFdVfile (entries s.fds) fd).1 - off.toNat) count
      answer { s with fds := userFdSetOffset s.fds fd (off + BitVec.ofNat 32 n) } n
    | some .devNull => answer s 0
    | some .devZero => answer s count
    | some .devAta => diskIo ctx s fd count
    | some .dir => errno s eISDIR
    | some .pipeRead => answer s (ctx.io .pipeRead count)
    | some .stdin => answer s (ctx.io .stdin count)
    | some .devConsole => answer s (ctx.io .devConsole count)
    | _ => errno s eBADF

def fdRegularSize (fd : Int) : Option (BitVec 32) :=
  match userFdKind (entries s.fds) fd with
  | some .file =>
    let slot := userFdSlot (entries s.fds) fd
    if slot < 0 then none
    else some (match openSlot s.ram slot with
      | some i => (s.ram.tables.files i).size
      | none => 0#32)
  | some .vfile => some (BitVec.ofNat 32 (userFdVfile (entries s.fds) fd).1)
  | some .devAta => some (BitVec.ofInt 32 (ctx.io .devAta 0))
  | _ => none

def seekTo (fd : Int) (pos : Int) (rc : Int) : Done :=
  if pos < 0 ∨ 0x7FFFFFFF < pos then errno s eINVAL
  else answer { s with fds := userFdSetOffset s.fds fd (BitVec.ofInt 32 pos) } rc

def doLseek (fd : Int) (offset : BitVec 32) (whence : Nat) : Done :=
  match fdRegularSize ctx s fd with
  | none => errno s eBADF
  | some size =>
    if 2 < whence then errno s eINVAL
    else
      let base := if whence = 0 then 0#32 else if whence = 1 then userFdOffset s.fds fd else size
      seekTo s fd (base.toInt + offset.toInt) (base.toInt + offset.toInt)

/-- `do_llseek`; `ok`: the process can store the result. -/
def doLlseek (fd : Int) (lo hi : BitVec 32) (ok : Bool) (whence : Nat) : Done :=
  match fdRegularSize ctx s fd with
  | none => errno s eBADF
  | some size =>
    if !ok then errno s eFAULT
    else if 2 < whence then errno s eINVAL
    else
      let base := if whence = 0 then 0#32 else if whence = 1 then userFdOffset s.fds fd else size
      seekTo s fd ((base.toNat : Int) + (hi ++ lo).toInt) 0

/-- `kbuf_write`: the count, or a negative errno. -/
def kbufWrite (fd : Int) (bs : List (BitVec 8)) (now : BitVec 32) : Int × Sys :=
  match userFdKind (entries s.fds) fd with
  | some .file =>
    match writeFile s fd bs now with
    | none => (-eBADF, s)
    | some r => r
  | some .devNull | some .devZero | some .stdout | some .stderr | some .devConsole => (bs.length, s)
  | some .vfile => (-eACCES, s)
  | some .pipeWrite => (ctx.io .pipeWrite bs.length, s)
  | some .dir => (-eISDIR, s)
  | _ => (-eBADF, s)

/-- The loop of `do_sendfile`; `count` rounds are enough. -/
def sendLoop (out : Int) (slot : Int) : Nat → Nat → Sys → BitVec 32 → Nat → Int × Sys × BitVec 32
  | 0, total, s, off, _ => (total, s, off)
  | fuel + 1, total, s, off, count =>
    if count ≤ total then (total, s, off)
    else
      let r := fsReadAt s.ram slot off.toNat (min (count - total) 4096)
      let s' := { s with ram := fsReadAtTouch s.ram slot off.toNat (ctx.clock (2 * fuel)) }
      if r.1 ≤ 0 then (total, s', off)
      else
        let w := kbufWrite ctx s' out r.2 (ctx.clock (2 * fuel + 1))
        if w.1 < 0 then (if total = 0 then w.1 else total, w.2, off)
        else if w.1 < r.1 then (total + w.1, w.2, off + BitVec.ofInt 32 w.1)
        else sendLoop out slot fuel (total + w.1.toNat) w.2 (off + BitVec.ofInt 32 w.1) count

/-- `do_sendfile`; the offset is absent, unreadable or a number. -/
def doSendfile (out inp : Int) (offset : Option (Option (BitVec 32))) (count : Nat) : Done :=
  let slot := userFdSlot (entries s.fds) inp
  if slot < 0 then errno s eBADF
  else match offset with
    | some none => errno s eFAULT
    | some (some off) =>
      let r := sendLoop ctx out slot count 0 s off count
      answer r.2.1 r.1
    | none =>
      let r := sendLoop ctx out slot count 0 s (userFdOffset s.fds inp) count
      if r.1 < 0 then answer r.2.1 r.1
      else answer { r.2.1 with fds := userFdSetOffset r.2.1.fds inp r.2.2 } r.1

def doFtruncate (fd : Int) (len : Nat) : Done :=
  match userFdKind (entries s.fds) fd with
  | none => errno s eBADF
  | some .file =>
    let slot := userFdSlot (entries s.fds) fd
    if slot < 0 then errno s eBADF
    else
      let out := fsTruncate s.ram slot len (ctx.clock 0)
      if out.rc = 0 then answer { s with ram := out.ram } 0 else errno s eINVAL
  | some _ => errno s eINVAL

def doFtruncate64 (fd : Int) (lo hi : Nat) : Done :=
  if hi ≠ 0 then errno s eFBIG else doFtruncate ctx s fd lo

end

section

variable (ctx : Ctx) (s : Sys)

def onNode (buf : Path) (f : Path → Node → Done) : Done :=
  match vfsLookup ctx s buf with
  | .error e => errno s e
  | .ok (_, .error e) => errno s e
  | .ok (path, .ok node) => f path node

def Node.isDir : Node → Bool
  | .file _ | .dev _ | .vfile _ _ | .module => false
  | _ => true

def fromRam (out : Outcome) (code : Nat) : Done :=
  if out.rc = 0 then answer { s with ram := out.ram } 0 else errno s code

def doTruncate (path : UserString) (len : Nat) : Done :=
  onPath s (plainPath path) fun buf => onNode ctx s buf fun _ node =>
    match node with
    | .file i => fromRam s (fsTruncate s.ram i.val len (ctx.clock 0)) eINVAL
    | node => if Node.isDir node then errno s eISDIR else errno s eINVAL

def doTruncate64 (path : UserString) (lo hi : Nat) : Done :=
  if hi ≠ 0 then errno s eFBIG else doTruncate ctx s path lo

def doMkdirBuf (buf : Path) : Done :=
  match vfsLookup ctx s buf with
  | .error e => errno s e
  | .ok (_, .ok _) => errno s eEXIST
  | .ok (path, .error e) =>
    let name := path.drop 1
    if e ≠ eNOENT then errno s e
    else if name = [] then errno s eEXIST
    else if 64 ≤ name.length then errno s eNAMETOOLONG
    else if !fsParentIsDir s.ram name then errno s eNOTDIR
    else fromRam s (fsMkdir s.ram name) eNOSPC

def doRmdirBuf (buf : Path) : Done :=
  onNode ctx s buf fun path node =>
    if node ≠ .realDir then errno s ePERM
    else if !fsDirIsEmpty s.ram (path.drop 1) then errno s eNOTEMPTY
    else fromRam s (fsRmdir s.ram (path.drop 1)) eNOENT

def doUnlinkBuf (buf : Path) : Done :=
  onNode ctx s buf fun path node =>
    match node with
    | .file _ => fromRam s (fsDelete s.ram (path.drop 1) (ctx.clock 0)) eNOENT
    | node => if Node.isDir node then errno s eISDIR else errno s ePERM

/-- A directory gets a new name; an empty one of that name goes. -/
def renameDirTo (old : Path) (new : Path × Except Nat Node) : Done :=
  match new.2 with
  | .error _ => fromRam s (fsRenameDir s.ram old (new.1.drop 1) (fun i => ctx.clock i.val)) eINVAL
  | .ok node =>
    if node ≠ .realDir then errno s eNOTDIR
    else if !fsDirIsEmpty s.ram (new.1.drop 1) then errno s eNOTEMPTY
    else
      let out := fsRmdir s.ram (new.1.drop 1)
      if out.rc ≠ 0 then errno s eINVAL
      else
        let s' := { s with ram := out.ram }
        fromRam s' (fsRenameDir s'.ram old (new.1.drop 1) (fun i => ctx.clock i.val)) eINVAL

/-- The end of renaming a file, the new name out of the way. -/
def renameFileTo (slot : Fin 16) (name : Path) : Done :=
  if 64 ≤ name.length then errno s eNAMETOOLONG
  else if !fsParentIsDir s.ram name then errno s eNOTDIR
  else if dirExists s.ram name then errno s eISDIR
  else fromRam s (fsRename s.ram slot.val name (ctx.clock 0)) eINVAL

def renameFile (slot : Fin 16) (new : Path × Except Nat Node) : Done :=
  match new.2 with
  | .error _ => renameFileTo ctx s slot (new.1.drop 1)
  | .ok (.file j) =>
    if j = slot then answer s 0
    else renameFileTo ctx { s with ram := (fsDelete s.ram (new.1.drop 1) (ctx.clock 1)).ram } slot
      (new.1.drop 1)
  | .ok node => if Node.isDir node then errno s eISDIR else errno s ePERM

def renameNode (old : Path) (node : Node) (new : Path × Except Nat Node) : Done :=
  if new.1.drop 1 = [] then errno s eBUSY
  else match node with
    | .file i => renameFile ctx s i new
    | _ => renameDirTo ctx s (old.drop 1) new

def doRenameBufs (obuf nbuf : Path) : Done :=
  onNode ctx s obuf fun old node =>
    if node ≠ .realDir ∧ (∀ i, node ≠ .file i) then errno s ePERM
    else match vfsLookup ctx s nbuf with
      | .error e => errno s e
      | .ok new => if new.2 = .error eNODEV then errno s eNODEV else renameNode ctx s old node new

def doMkdir (path : UserString) : Done := onPath s (plainPath path) (doMkdirBuf ctx s)

def doMkdirat (dirfd : Int) (path : UserString) : Done :=
  onPath s (atPath s dirfd path 128) (doMkdirBuf ctx s)

def doRmdir (path : UserString) : Done := onPath s (plainPath path) (doRmdirBuf ctx s)

def doUnlink (path : UserString) : Done := onPath s (plainPath path) (doUnlinkBuf ctx s)

def doUnlinkat (dirfd : Int) (path : UserString) (flags : BitVec 32) : Done :=
  onPath s (atPath s dirfd path 128) fun buf =>
    if hasFlag flags 0x200#32 then doRmdirBuf ctx s buf else doUnlinkBuf ctx s buf

def doRename (old new : UserString) : Done :=
  onPath s (plainPath old) fun obuf => onPath s (plainPath new) fun nbuf =>
    doRenameBufs ctx s obuf nbuf

def doRenameat (olddirfd : Int) (old : UserString) (newdirfd : Int) (new : UserString) : Done :=
  onPath s (atPath s olddirfd old 128) fun obuf =>
    onPath s (atPath s newdirfd new 128) fun nbuf => doRenameBufs ctx s obuf nbuf

end

section

variable (ctx : Ctx) (s : Sys)

def foreign (o : Option Owner) : Bool :=
  match o with
  | none => false
  | some o => ctx.uid != 0#32 && ctx.uid != o.uid

/-- `do_chmod_buf` changes what the spelling, slashes stripped, names. -/
def doChmodBuf (buf : Path) (mode : BitVec 16) : Done :=
  onNode ctx s buf fun _ node =>
    if node ≠ .realDir ∧ (∀ i, node ≠ .file i) then errno s ePERM
    else if foreign ctx (fsPermPath s.ram (stripSlashes buf)) then errno s ePERM
    else fromRam s (fsChmodPath s.ram (stripSlashes buf) (mode &&& 0o7777#16) (ctx.clock 0)) ePERM

def doChmod (path : UserString) (mode : BitVec 16) : Done :=
  onPath s (plainPath path) fun buf => doChmodBuf ctx s buf mode

def doFchmodat (dirfd : Int) (path : UserString) (mode : BitVec 16) : Done :=
  onPath s (atPath s dirfd path 128) fun buf => doChmodBuf ctx s buf mode

def doFchmod (fd : Int) (mode : BitVec 16) : Done :=
  match userFdKind (entries s.fds) fd with
  | none => errno s eBADF
  | some .file =>
    let slot := userFdSlot (entries s.fds) fd
    if foreign ctx ((openSlot s.ram slot).map (fun i => fileOwner (s.ram.tables.files i))) then
      errno s ePERM
    else fromRam s (fsChmodSlot s.ram slot (mode &&& 0o7777#16) (ctx.clock 0)) ePERM
  | some .dir => answer s 0
  | some _ => errno s ePERM

def chownName (buf : Path) (uid gid : BitVec 32) : Done :=
  fromRam s (fsChownPath s.ram (stripSlashes buf) uid gid (ctx.clock 0)) ePERM

def doChown (path : UserString) (uid gid : BitVec 32) : Done :=
  onPath s (plainPath path) fun buf =>
    if ctx.uid ≠ 0#32 then errno s ePERM
    else onNode ctx s buf fun _ node =>
      if node ≠ .realDir ∧ (∀ i, node ≠ .file i) then errno s ePERM else chownName ctx s buf uid gid

def doFchown (fd : Int) (uid gid : BitVec 32) : Done :=
  match userFdKind (entries s.fds) fd with
  | none => errno s eBADF
  | some kind =>
    if ctx.uid ≠ 0#32 then errno s ePERM
    else match kind with
      | .file => fromRam s (fsChownSlot s.ram (userFdSlot (entries s.fds) fd) uid gid (ctx.clock 0)) ePERM
      | .dir => answer s 0
      | _ => errno s ePERM

def doFchownat (dirfd : Int) (path : UserString) (uid gid flags : BitVec 32) : Done :=
  match copyUserString path 64 with
  | none => errno s eFAULT
  | some [] => if hasFlag flags 0x1000#32 then doFchown ctx s dirfd uid gid else errno s eNOENT
  | some raw => onPath s (atResolveRaw s dirfd raw 128) fun buf =>
      if ctx.uid ≠ 0#32 then errno s ePERM else chownName ctx s buf uid gid

/-- The times of `utimes`: absent, unreadable, or seconds and nanoseconds. -/
abbrev UserTimes := Option (Option (BitVec 32 × BitVec 32 × BitVec 32 × BitVec 32))

/-- `UTIME_NOW` and `UTIME_OMIT`. -/
def pickTime (ns : Bool) (now old sec nsec : BitVec 32) : BitVec 32 :=
  if ns && nsec == 0x3FFFFFFF#32 then now else if ns && nsec == 0x3FFFFFFE#32 then old else sec

def setTimes (slot : Option Int) (times : UserTimes) (ns : Bool) : Done :=
  let now := ctx.clock 0
  match times, slot with
  | none, none => answer s 0
  | none, some i => answer { s with ram := (fsSetTimes s.ram i now now (ctx.clock 1)).ram } 0
  | some none, _ => errno s eFAULT
  | some (some _), none => answer s 0
  | some (some (asec, ans, msec, mns)), some i =>
    let old (field : FileMeta → BitVec 32) :=
      ((openSlot s.ram i).map (fun k => field (s.ram.tables.files k))).getD 0#32
    answer { s with ram := (fsSetTimes s.ram i (pickTime ns now (old (·.atime)) asec ans)
      (pickTime ns now (old (·.mtime)) msec mns) (ctx.clock 1)).ram } 0

/-- `do_utime_path`: an empty path stands for the descriptor. -/
def doUtimePath (path : UserString) (fd : Int) (times : UserTimes) (ns : Bool) : Done :=
  onPath s (plainPath path) fun buf =>
    if buf = [] then
      if fd < 0 then errno s eNOENT
      else if userFdKind (entries s.fds) fd = none then errno s eBADF
      else
        let slot := userFdSlot (entries s.fds) fd
        setTimes ctx s (if slot < 0 then none else some slot) times ns
    else onNode ctx s buf fun _ node =>
      match node with
      | .file i => setTimes ctx s (some i.val) times ns
      | _ => setTimes ctx s none times ns

def doChdir (path : UserString) : Done :=
  onPath s (plainPath path) fun buf => onNode ctx s buf fun p node =>
    if !Node.isDir node then errno s eNOTDIR
    else if p.head? ≠ some slash ∨ 64 ≤ p.length then errno s eNAMETOOLONG
    else answer { s with cwd := p } 0

end

/-- The calls on files, names and descriptors that do more than look. -/
inductive FsCall
  | open (path : UserString) (flags : BitVec 32)
  | openat (dirfd : Int) (path : UserString) (flags : BitVec 32)
  | close (fd : Int)
  | dup (fd : Int)
  | dup2 (old new : Int)
  | pipe (ok : Bool)
  | read (fd : Int) (count : Nat) (ok : Bool)
  | write (fd : Int) (buf : UserBytes)
  | writev (fd : Int) (bufs : List UserBytes)
  | lseek (fd : Int) (offset : BitVec 32) (whence : Nat)
  | llseek (fd : Int) (lo hi : BitVec 32) (ok : Bool) (whence : Nat)
  | sendfile (out inp : Int) (offset : Option (Option (BitVec 32))) (count : Nat)
  | truncate (path : UserString) (len : Nat)
  | truncate64 (path : UserString) (lo hi : Nat)
  | ftruncate (fd : Int) (len : Nat)
  | ftruncate64 (fd : Int) (lo hi : Nat)
  | mkdir (path : UserString)
  | mkdirat (dirfd : Int) (path : UserString)
  | rmdir (path : UserString)
  | unlink (path : UserString)
  | unlinkat (dirfd : Int) (path : UserString) (flags : BitVec 32)
  | rename (old new : UserString)
  | renameat (olddirfd : Int) (old : UserString) (newdirfd : Int) (new : UserString)
  | chmod (path : UserString) (mode : BitVec 16)
  | fchmod (fd : Int) (mode : BitVec 16)
  | fchmodat (dirfd : Int) (path : UserString) (mode : BitVec 16)
  | chown (path : UserString) (uid gid : BitVec 32)
  | fchown (fd : Int) (uid gid : BitVec 32)
  | fchownat (dirfd : Int) (path : UserString) (uid gid flags : BitVec 32)
  | utime (path : UserString) (fd : Int) (times : UserTimes) (ns : Bool)
  | chdir (path : UserString)

def fsCall (ctx : Ctx) (s : Sys) : FsCall → Done
  | .open path flags => doOpen ctx s path flags
  | .openat dirfd path flags => doOpenat ctx s dirfd path flags
  | .close fd => doClose s fd
  | .dup fd => doDup s fd
  | .dup2 old new => userFdDup2 s old new
  | .pipe ok => doPipe s ctx ok
  | .read fd count ok => doRead ctx s fd count ok
  | .write fd buf => doWrite ctx s fd buf
  | .writev fd bufs => doWritev ctx fd s 0 bufs
  | .lseek fd offset whence => doLseek ctx s fd offset whence
  | .llseek fd lo hi ok whence => doLlseek ctx s fd lo hi ok whence
  | .sendfile out inp offset count => doSendfile ctx s out inp offset count
  | .truncate path len => doTruncate ctx s path len
  | .truncate64 path lo hi => doTruncate64 ctx s path lo hi
  | .ftruncate fd len => doFtruncate ctx s fd len
  | .ftruncate64 fd lo hi => doFtruncate64 ctx s fd lo hi
  | .mkdir path => doMkdir ctx s path
  | .mkdirat dirfd path => doMkdirat ctx s dirfd path
  | .rmdir path => doRmdir ctx s path
  | .unlink path => doUnlink ctx s path
  | .unlinkat dirfd path flags => doUnlinkat ctx s dirfd path flags
  | .rename old new => doRename ctx s old new
  | .renameat olddirfd old newdirfd new => doRenameat ctx s olddirfd old newdirfd new
  | .chmod path mode => doChmod ctx s path mode
  | .fchmod fd mode => doFchmod ctx s fd mode
  | .fchmodat dirfd path mode => doFchmodat ctx s dirfd path mode
  | .chown path uid gid => doChown ctx s path uid gid
  | .fchown fd uid gid => doFchown ctx s fd uid gid
  | .fchownat dirfd path uid gid flags => doFchownat ctx s dirfd path uid gid flags
  | .utime path fd times ns => doUtimePath ctx s path fd times ns
  | .chdir path => doChdir ctx s path

section

variable {ctx : Ctx} {s : Sys}

def Adjusts (s : Sys) (d : Done) : Prop :=
  d.pipes = [] ∧ ∃ r, Adjusted s.ram r ∧ d.sys = { s with ram := r }

theorem Adjusts.errno (s : Sys) (code : Nat) : Adjusts s (errno s code) :=
  ⟨rfl, s.ram, .refl _, rfl⟩

theorem Adjusts.answer {r : Ram} (h : Adjusted s.ram r) (rc : Int) :
    Adjusts s (answer { s with ram := r } rc) :=
  ⟨rfl, r, h, rfl⟩

theorem Adjusts.fromRam {out : Outcome} (h : Adjusted s.ram out.ram) (code : Nat) :
    Adjusts s (fromRam s out code) := by
  rw [FileCalls.fromRam]
  split
  · exact .answer h 0
  · exact .errno s code

theorem Adjusts.onPath {p : Except Nat Path} {f : Path → Done} (h : ∀ buf, Adjusts s (f buf)) :
    Adjusts s (onPath s p f) := by
  rw [Vfs.onPath.eq_def]
  split
  · exact .errno s _
  · exact h _

theorem Adjusts.onNode {buf : Path} {f : Path → Node → Done}
    (h : ∀ path node, Adjusts s (f path node)) : Adjusts s (onNode ctx s buf f) := by
  rw [FileCalls.onNode]
  split
  · exact .errno s _
  · exact .errno s _
  · exact h _ _

theorem doChmodBuf_adjusts (buf : Path) (mode : BitVec 16) :
    Adjusts s (doChmodBuf ctx s buf mode) := by
  refine .onNode fun p node => ?_
  split
  · exact .errno s _
  split
  · exact .errno s _
  · exact .fromRam (chmodPath_adjusted ..) _

theorem chownName_adjusts (buf : Path) (uid gid : BitVec 32) :
    Adjusts s (chownName ctx s buf uid gid) :=
  .fromRam (chownPath_adjusted ..) _

theorem doFchown_adjusts (fd : Int) (uid gid : BitVec 32) :
    Adjusts s (doFchown ctx s fd uid gid) := by
  rw [doFchown]
  split
  · exact .errno s _
  split
  · exact .errno s _
  split
  · exact .fromRam (chownSlot_adjusted ..) _
  · exact .answer (.refl _) 0
  · exact .errno s _

theorem setTimes_adjusts (slot : Option Int) (times : UserTimes) (ns : Bool) :
    Adjusts s (setTimes ctx s slot times ns) := by
  rw [setTimes.eq_def]
  split
  · exact .answer (.refl _) 0
  · exact .answer (setTimes_adjusted ..) 0
  · exact .errno s _
  · exact .answer (.refl _) 0
  · exact .answer (setTimes_adjusted ..) 0

def adjusting : FsCall → Bool
  | .chmod .. | .fchmod .. | .fchmodat .. | .chown .. | .fchown .. | .fchownat ..
  | .utime .. => true
  | _ => false

theorem fsCall_adjusts {c : FsCall} (h : adjusting c = true) : Adjusts s (fsCall ctx s c) := by
  cases c with
  | chmod _ mode | fchmodat _ _ mode => exact .onPath fun buf => doChmodBuf_adjusts buf mode
  | fchmod fd mode =>
    rw [fsCall, doFchmod]
    split
    · exact .errno s _
    · simp only
      split
      · exact .errno s _
      · exact .fromRam (chmodSlot_adjusted ..) _
    · exact .answer (.refl _) 0
    · exact .errno s _
  | chown path uid gid =>
    refine .onPath fun buf => ?_
    split
    · exact .errno s _
    refine .onNode fun p node => ?_
    split
    · exact .errno s _
    · exact chownName_adjusts buf uid gid
  | fchown fd uid gid => exact doFchown_adjusts fd uid gid
  | fchownat dirfd path uid gid flags =>
    rw [fsCall, doFchownat]
    split
    · exact .errno s _
    · split
      · exact doFchown_adjusts dirfd uid gid
      · exact .errno s _
    · refine .onPath (fun buf => ?_)
      split
      · exact .errno s _
      · exact chownName_adjusts buf uid gid
  | utime path fd times ns =>
    refine .onPath fun buf => ?_
    split
    · split
      · exact .errno s _
      split
      · exact .errno s _
      · exact setTimes_adjusts _ times ns
    · refine .onNode (fun p node => ?_)
      split
      · exact setTimes_adjusts _ times ns
      · exact setTimes_adjusts _ times ns
  | _ => cases h

end

end MuOS.Syscall.FileCalls
