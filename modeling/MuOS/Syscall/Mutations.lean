import Mathlib.Data.Fintype.Option
import MuOS.Syscall.Frames

namespace MuOS.Syscall.Mutations

open Function Lib CStrings Runs Trees Fs RamFs Names Remount User Fds Descriptors Vfs
open FileCalls OpenPerms Frames List Option

variable {new : Path × Except Nat Node} {clock : Fin 16 → BitVec 32} {names : List (Option Path)}
  {path : Path} {old : Path}

section

variable (ctx : Ctx) (r : Ram)

def ownerOf : Option (Fin 16) → Owner
  | none => rootOwner
  | some j => dirOwner (r.tables.dirs j)

def mayWrite (i : Fin 16) : Bool := ownerAllows ctx (fileOwner (r.tables.files i)) 2#16

def mayChange (D : Option (Fin 16)) : Bool := ownerAllows ctx (ownerOf r D) 3#16

end

/-- A call changes no file it may not write, nor a directory it may not write and search. -/
structure Respects (ctx : Ctx) (s : Sys) (c : FsCall) : Prop where
  files : ∀ i, isUsed (s.ram.tables.files i) = true → mayWrite ctx s.ram i = false →
    FileKept s.ram (fsCall ctx s c).sys.ram i
  dirs : ∀ D, dirPath s.ram D ≠ none → mayChange ctx s.ram D = false →
    DirKept s.ram (fsCall ctx s c).sys.ram D

section

variable (ctx : Ctx) (s : Sys)

def foundFile (p : Except Nat Path) : Int :=
  match p with
  | .error _ => -1
  | .ok buf =>
    match vfsLookup ctx s buf with
    | .ok (_, .ok (.file i)) => i.val
    | _ => -1

/-- The file `open` empties; the check is on the spelling. -/
def emptiedFile (p : Except Nat Path) (flags : BitVec 32) : Int :=
  match p with
  | .error _ => -1
  | .ok buf => if hasFlag flags oTRUNC && pathPermOk ctx s.ram buf (needOf flags) then
    foundFile ctx s p else -1

def aimedAt : FsCall → Int
  | .write fd _ | .writev fd _ | .ftruncate fd _
  | .ftruncate64 fd _ _ => userFdSlot (entries s.fds) fd
  | .sendfile out _ _ _ => userFdSlot (entries s.fds) out
  | .truncate path _ | .truncate64 path _ _ => foundFile ctx s (plainPath path)
  | .open path flags => emptiedFile ctx s (plainPath path) flags
  | .openat dirfd path flags => emptiedFile ctx s (atPath s dirfd path 128) flags
  | _ => -1

def nameAt (p : Except Nat Path) : Option Path :=
  match p with
  | .error _ => none
  | .ok buf =>
    match vfsNormalize s.cwd buf with
    | .error _ => none
    | .ok q => some (q.drop 1)

/-- The names a call adds or removes whatever the modes. -/
def namesOf : FsCall → List (Option Path)
  | .mkdir path | .rmdir path | .unlink path => [nameAt s (plainPath path)]
  | .mkdirat dirfd path | .unlinkat dirfd path _ => [nameAt s (atPath s dirfd path 128)]
  | .rename old new => [nameAt s (plainPath old), nameAt s (plainPath new)]
  | .renameat olddirfd old newdirfd new => [nameAt s (atPath s olddirfd old 128),
    nameAt s (atPath s newdirfd new 128)]
  | _ => []

/-- The call is aimed at nothing the modes deny; creating by `open` is free. -/
structure Allowed (c : FsCall) : Prop where
  files : ∀ i : Fin 16, aimedAt ctx s c = i.val → mayWrite ctx s.ram i = true
  dirs : ∀ name, some name ∈ namesOf s c → ∀ D, dirPath s.ram D = some (parts slash name).dropLast →
    mayChange ctx s.ram D = true

end

variable {W : Fin 16 → Prop} {N : List (List Path)} {r r' : Ram} {D : Option (Fin 16)}
  {d : List Path} {s s' : Sys} {ctx : Ctx} {buf p name : Path} {i j : Fin 16} {flags : BitVec 32}

def Within (s : Sys) (N : List (List Path)) (p : Except Nat Path) : Prop :=
  ∀ name, nameAt s p = some name → (parts slash name).dropLast ∈ N

theorem Within.lookup {n : Except Nat Node} (h : Within s N (.ok buf))
    (hl : vfsLookup ctx s buf = .ok (p, n)) : (parts slash (p.drop 1)).dropLast ∈ N := by
  refine h (p.drop 1) ?_
  simp only [nameAt, vfsLookup_path hl]

theorem named_spares (op : Op) (ht : target r op = none) (hcr : ∀ path now, op ≠ .create path now)
    (hN : touchedDirs r op ⊆ N) : Spares W N r (call r op).ram :=
  call_spares op (fun i hi => by cases ht.symm.trans hi)
    (fun path now h => absurd h (hcr path now)) hN

theorem mkdir_frame (hc : Clean s) (hb : 0#8 ∉ buf) (hN : Within s N (.ok buf)) :
    Frame W N s (doMkdirBuf ctx s buf).sys := by
  rw [doMkdirBuf]
  split
  · exact .refl hc
  · exact .refl hc
  rename_i path e hl
  simp only
  split
  · exact .refl hc
  split
  · exact .refl hc
  split
  · exact .refl hc
  split
  · exact .refl hc
  refine fromRam_frame hc ?_
  exact named_spares (.mkdir ⟨path.drop 1, vfsLookup_clean hc hb hl⟩) rfl (by simp)
    (cons_subset.mpr ⟨(hN.lookup hl), nil_subset N⟩)

theorem rmdir_spares (hp : 0#8 ∉ path) (hN : (parts slash path).dropLast ∈ N) :
    Spares W N r (fsRmdir r path).ram :=
  named_spares (.rmdir ⟨path, hp⟩) rfl (by simp) (cons_subset.mpr ⟨hN, nil_subset N⟩)

theorem delete_spares (now : BitVec 32) (hp : 0#8 ∉ path) (hN : (parts slash path).dropLast ∈ N) :
    Spares W N r (fsDelete r path now).ram :=
  named_spares (.delete ⟨path, hp⟩ now) rfl (by simp) (cons_subset.mpr ⟨hN, nil_subset N⟩)

theorem renameDir_spares {new : Path} (ho : 0#8 ∉ old) (hn : 0#8 ∉ new)
    (hold : (parts slash old).dropLast ∈ N) (hnew : (parts slash new).dropLast ∈ N) :
    Spares W N r (fsRenameDir r old new clock).ram :=
  named_spares (.renameDir ⟨old, ho⟩ ⟨new, hn⟩ clock) rfl (by simp)
    (cons_subset.mpr ⟨hold, cons_subset.mpr ⟨hnew, nil_subset N⟩⟩)

section

variable (hc : Clean s) (hb : 0#8 ∉ buf) (hN : Within s N (.ok buf))
include hc hb hN

theorem rmdir_frame : Frame W N s (doRmdirBuf ctx s buf).sys := by
  refine onNode_frame hc fun path node hl => ?_
  split
  · exact .refl hc
  split
  · exact .refl hc
  · exact fromRam_frame hc (rmdir_spares (vfsLookup_clean hc hb hl) (hN.lookup hl))

theorem unlink_frame : Frame W N s (doUnlinkBuf ctx s buf).sys := by
  refine onNode_frame hc fun path node hl => ?_
  split
  · exact fromRam_frame hc (delete_spares _ (vfsLookup_clean hc hb hl) (hN.lookup hl))
  · split <;> exact .refl hc

end

theorem rmdir_dirPath (h : dirPath (fsRmdir r path).ram D = some d) : dirPath r D = some d := by
  cases D with
  | none => exact h
  | some k =>
    rw [fsRmdir] at h
    split at h
    · exact h
    split at h
    · rename_i j hj
      have he : entryName (setDir r j (removedDir (r.tables.dirs j))) = update (entryName r)
        (.inr j) none :=
        entryName_setDir r j _
      rw [dirPath, entryParts_update he] at h
      by_cases hk : k = j
      · rw [hk, update_self] at h
        cases h
      · rwa [update_of_ne (by simpa using hk)] at h
    · exact h

theorem renameDir_live {new : Path} (h : dirPath (fsRenameDir r old new clock).ram D ≠ none) :
    dirPath r D ≠ none := by
  cases D with
  | none => exact h
  | some k =>
    rw [fsRenameDir] at h
    split at h
    · exact h
    split at h
    · exact h
    split at h
    · exact h
    intro hnone
    refine h ?_
    have hu : dirUsed (r.tables.dirs k) = false := by
      by_contra hu
      simp only [Bool.not_eq_false] at hu
      simp only [dirPath, entryParts, entryName, hu, if_true, map_some] at hnone
      cases hnone
    simp only [dirPath, entryParts, entryName, movedDir_used, hu]
    rfl

theorem renameDirTo_frame (hc : Clean s) (ho : 0#8 ∉ old)
    (hn : 0#8 ∉ new.1.drop 1) (hold : (parts slash old).dropLast ∈ N)
    (hnew : (parts slash (new.1.drop 1)).dropLast ∈ N) :
    Frame W N s (renameDirTo ctx s old new).sys := by
  rw [renameDirTo]
  split
  · exact fromRam_frame hc (renameDir_spares ho hn hold hnew)
  split
  · exact .refl hc
  split
  · exact .refl hc
  simp only
  split
  · exact .refl hc
  have hfirst : Spares W N s.ram (fsRmdir s.ram (new.1.drop 1)).ram := rmdir_spares hn hnew
  rw [fromRam]
  split
  · exact .ram hc (hfirst.trans (renameDir_spares ho hn hold hnew) (fun D d h => rmdir_dirPath h)
      (fun D h => renameDir_live h))
  · exact .ram hc hfirst

theorem delete_dirs (r : Ram) (path : Path) (now : BitVec 32) :
    (fsDelete r path now).ram.tables.dirs = r.tables.dirs := by
  rw [fsDelete]
  split <;> rfl

theorem rename_dirs (r : Ram) (slot : Int) (path : Path) (now : BitVec 32) :
    (fsRename r slot path now).ram.tables.dirs = r.tables.dirs := by
  rw [fsRename]
  repeat' split
  all_goals rfl

theorem renameFileTo_dirs (s : Sys) (slot : Fin 16) (name : Path) :
    (renameFileTo ctx s slot name).sys.ram.tables.dirs = s.ram.tables.dirs := by
  simp only [renameFileTo, fromRam]
  repeat' split
  all_goals first | rfl | exact rename_dirs ..

theorem placeOf_file (h : entryName r (.inl i) = some name) :
    placeOf r i.val = (parts slash name).dropLast := by
  rw [placeOf, openSlot_used (isLive_used (entryName_file h).1), bind_some, entryParts, h]
  rfl

theorem renameFileTo_spares (ctx : Ctx) (hf : entryName s.ram (.inl i) = some old) (hn : 0#8 ∉ name)
    (hold : (parts slash old).dropLast ∈ N) (hnew : (parts slash name).dropLast ∈ N) :
    Spares W N s.ram (renameFileTo ctx s i name).sys.ram := by
  have hs : Spares W N s.ram (fsRename s.ram i.val name (ctx.clock 0)).ram :=
    named_spares (.rename i.val ⟨name, hn⟩ (ctx.clock 0)) rfl (by simp)
      (cons_subset.mpr ⟨placeOf_file hf ▸ hold, cons_subset.mpr ⟨hnew, nil_subset N⟩⟩)
  simp only [renameFileTo, fromRam]
  repeat' split
  all_goals first | exact .refl _ _ _ | exact hs

theorem renameFileTo_clean (hc : Clean s) : Clean (renameFileTo ctx s i name).sys := by
  simp only [renameFileTo, fromRam]
  repeat' split
  all_goals exact hc

theorem delete_other {now : BitVec 32} (hj : fileSlotOf r name = some j) (hne : j ≠ i) :
    entryName (fsDelete r name now).ram (.inl i) = entryName r (.inl i) := by
  rw [delete_entries hj, update_of_ne (by simpa using Ne.symm hne)]

section

variable (hc : Clean s)
include hc

theorem renameFile_frame (hf : entryName s.ram (.inl i) = some old) (hn : 0#8 ∉ new.1.drop 1)
    (hl : ∀ j, new.2 = .ok (.file j) → fileSlotOf s.ram (new.1.drop 1) = some j)
    (hold : (parts slash old).dropLast ∈ N) (hnew : (parts slash (new.1.drop 1)).dropLast ∈ N) :
    Frame W N s (renameFile ctx s i new).sys := by
  rw [renameFile]
  split
  · exact ⟨renameFileTo_clean hc, renameFileTo_spares ctx hf hn hold hnew⟩
  · rename_i j hj
    split
    · exact .refl hc
    rename_i hne
    have hgone := delete_spares (r := s.ram) (W := W) (ctx.clock 1) hn hnew
    have hstill : entryName (fsDelete s.ram (new.1.drop 1) (ctx.clock 1)).ram (.inl i) = some old := by
      rw [delete_other (hl j hj) hne, hf]
    have hmoved := renameFileTo_spares ctx (W := W)
      (s := { s with ram := (fsDelete s.ram (new.1.drop 1) (ctx.clock 1)).ram }) hstill hn hold hnew
    refine ⟨renameFileTo_clean hc, hgone.trans hmoved ?_ ?_⟩
    · intro D d h
      rwa [dirPath_dirs (delete_dirs s.ram _ _)] at h
    · intro D h
      rwa [dirPath_dirs (renameFileTo_dirs ..)] at h
  · split <;> exact .refl hc

theorem rename_frame {obuf nbuf : Path} (ho : 0#8 ∉ obuf) (hn : 0#8 ∉ nbuf)
    (hold : Within s N (.ok obuf)) (hnew : Within s N (.ok nbuf)) :
    Frame W N s (doRenameBufs ctx s obuf nbuf).sys := by
  refine onNode_frame hc fun old node hlo => ?_
  split
  · exact .refl hc
  split
  · exact .refl hc
  rename_i new hln
  split
  · exact .refl hc
  have hplace := hold.lookup hlo
  have hplace' := hnew.lookup hln
  have hclean := vfsLookup_clean hc hn hln
  rw [renameNode.eq_def]
  split
  · exact .refl hc
  cases node with
  | file i =>
    refine renameFile_frame hc (fileSlotOf_some (resolve_file (vfsLookup_ok hlo)).2) hclean ?_
      hplace hplace'
    intro j hj
    have hres : resolve ctx s.ram new.1 = .ok (.file j) := by rw [vfsLookup_ok hln, hj]
    exact (resolve_file hres).2
  | _ => exact renameDirTo_frame hc (vfsLookup_clean hc ho hlo) hclean hplace hplace'

theorem createAndOpen_frame (hn : 0#8 ∉ name)
    (hW : ∀ i, isUsed (s.ram.tables.files i) = false → W i)
    (hN : parentPermOk ctx s.ram name 3#16 = true → (parts slash name).dropLast ∈ N) :
    Frame W N s (createAndOpen ctx s name).sys := by
  rw [createAndOpen]
  split
  · exact .refl hc
  split
  · exact .refl hc
  split
  · exact .refl hc
  split
  · exact .refl hc
  rename_i hperm
  simp only [Bool.not_eq_true', Bool.not_eq_false] at hperm
  simp only
  split
  · exact .refl hc
  refine openSlotDesc_frame (.ram hc ?_) _
  exact call_spares (.create ⟨name, hn⟩ (ctx.clock 0)) (fun i h => absurd h (by simp [target]))
    (fun _ _ _ => hW) (cons_subset.mpr ⟨hN hperm, nil_subset N⟩)

theorem openFile_frame (hW : hasFlag flags oTRUNC = true →
    pathPermOk ctx s.ram buf (needOf flags) = true → W i) :
    Frame W N s (openFile ctx s buf flags i).sys := by
  rw [openFile]
  split
  · exact .refl hc
  split
  · exact .refl hc
  rename_i hperm
  simp only [Bool.not_eq_true', Bool.not_eq_false] at hperm
  refine openSlotDesc_frame (.ram hc ?_) i
  split
  · rename_i htrunc
    refine Leaves.spares (call_leaves (.fdTruncate i.val (ctx.clock 0)) ?_ rfl) N
    intro j hj
    have he : i = j := Fin.ext (by exact_mod_cast openSlot_val hj)
    exact he ▸ hW htrunc hperm
  · exact .refl W N s.ram

theorem doOpenBuf_frame (hb : 0#8 ∉ buf) (hnew : ∀ i, isUsed (s.ram.tables.files i) = false → W i)
    (hW : ∀ i, emptiedFile ctx s (.ok buf) flags = i.val → W i)
    (hN : ∀ name, nameAt s (.ok buf) = some name → parentPermOk ctx s.ram name 3#16 = true →
      (parts slash name).dropLast ∈ N) : Frame W N s (doOpenBuf ctx s buf flags).sys := by
  rw [doOpenBuf]
  split
  · exact .refl hc
  · rename_i path e hl
    split
    · exact .refl hc
    split
    · exact .refl hc
    refine createAndOpen_frame hc (vfsLookup_clean hc hb hl) hnew (hN _ ?_)
    simp only [nameAt, vfsLookup_path hl]
  · rename_i path node hl
    cases node with
    | file i =>
      refine openFile_frame hc fun ht hp => hW i ?_
      simp only [emptiedFile, ht, hp, Bool.and_self, if_true, foundFile, hl]
    | dev kind => exact openDesc_frame hc not_mem_nil
    | vfile id pid =>
      simp only
      split
      · exact .refl hc
      · exact openDesc_frame hc not_mem_nil
    | module => exact .refl hc
    | _ =>
      simp only [openDir]
      split
      · exact .refl hc
      · exact openDesc_frame hc (vfsNormalize_clean hc.1 hb (vfsLookup_path hl))

theorem truncate_frame {path : UserString} {len : Nat}
    (hW : ∀ i, foundFile ctx s (plainPath path) = i.val → W i) :
    Frame W N s (doTruncate ctx s path len).sys := by
  refine onPath_frame hc fun buf hbuf => onNode_frame hc fun p node hl => ?_
  cases node with
  | file i =>
    refine fromRam_frame hc (Leaves.spares (call_leaves (.truncate i.val len (ctx.clock 0)) ?_ rfl) N)
    intro j hj
    refine hW j ?_
    simp only [hbuf, foundFile, hl]
    exact openSlot_val hj
  | _ =>
    simp only
    split <;> exact .refl hc

end

theorem Adjusts.frame {d : Done} (h : Adjusts s d) (hc : Clean s) : Frame W N s d.sys := by
  obtain ⟨-, r, hr, hs⟩ := h
  rw [hs]
  refine .ram hc (Leaves.spares ⟨hr.entryName, fun i _ hu => ⟨?_, hr.size i, by rw [hr.data]⟩⟩ N)
  rw [isUsed, ← (hr.file i).2.1]
  exact hu

theorem chdir_frame (hc : Clean s) (path : UserString) : Frame W N s (doChdir ctx s path).sys := by
  refine onPath_frame hc fun buf hbuf => onNode_frame hc fun p node hl => ?_
  split
  · exact .refl hc
  split
  · exact .refl hc
  · exact ⟨⟨vfsNormalize_clean hc.1 (plainPath_clean hbuf) (vfsLookup_path hl), hc.2⟩, .refl W N s.ram⟩

def places (names : List (Option Path)) : List (List Path) :=
  names.filterMap (fun n => n.map (fun n => (parts slash n).dropLast))

/-- The directory `open` adds a file to, if its check passes. -/
def createdIn (ctx : Ctx) (s : Sys) (p : Except Nat Path) : List (List Path) :=
  places [(nameAt s p).filter (fun name => parentPermOk ctx s.ram name 3#16)]

def dirsOf (ctx : Ctx) (s : Sys) : FsCall → List (List Path)
  | .open path _ => createdIn ctx s (plainPath path)
  | .openat dirfd path _ => createdIn ctx s (atPath s dirfd path 128)
  | c => places (namesOf s c)

/-- The files a call may change; an unused slot may be taken. -/
def filesOf (ctx : Ctx) (s : Sys) (c : FsCall) (i : Fin 16) : Prop :=
  aimedAt ctx s c = i.val ∨ isUsed (s.ram.tables.files i) = false

theorem mem_places : d ∈ places names ↔ ∃ name, some name ∈ names ∧
    (parts slash name).dropLast = d := by
  simp only [places, mem_filterMap, map_eq_some_iff]
  constructor
  · rintro ⟨_, hn, name, rfl, hd⟩
    exact ⟨name, hn, hd⟩
  · rintro ⟨name, hn, hd⟩
    exact ⟨_, hn, name, rfl, hd⟩

theorem within_places {p : Except Nat Path} (h : nameAt s p ∈ names) :
    Within s (places names) p := fun name hn => mem_places.mpr ⟨name, hn ▸ h, rfl⟩

theorem mem_createdIn {p : Except Nat Path} : d ∈ createdIn ctx s p ↔
    ∃ name, nameAt s p = some name ∧ parentPermOk ctx s.ram name 3#16 = true ∧
    (parts slash name).dropLast = d := by
  rw [createdIn, mem_places]
  refine exists_congr fun name => ?_
  rw [mem_singleton, eq_comm, filter_eq_some_iff, and_assoc]

theorem open_frame {p : Except Nat Path} (hc : Clean s) (hb : ∀ buf, p = .ok buf → 0#8 ∉ buf)
    (hnew : ∀ i, isUsed (s.ram.tables.files i) = false → W i)
    (hW : ∀ i : Fin 16, emptiedFile ctx s p flags = i.val → W i) :
    Frame W (createdIn ctx s p) s (onPath s p (fun buf => doOpenBuf ctx s buf flags)).sys := by
  refine onPath_frame hc ?_
  rintro buf rfl
  exact doOpenBuf_frame hc (hb buf rfl) hnew hW fun name hn hp => mem_createdIn.mpr ⟨name, hn, hp, rfl⟩

theorem fsCall_frame (ctx : Ctx) (hc : Clean s) (c : FsCall) :
    Frame (filesOf ctx s c) (dirsOf ctx s c) s (fsCall ctx s c).sys := by
  have hplain : ∀ {u : UserString}, ∀ buf, plainPath u = .ok buf → 0#8 ∉ buf :=
    fun buf h => plainPath_clean h
  have hat : ∀ {dirfd : Int} {u : UserString}, ∀ buf, atPath s dirfd u 128 = .ok buf → 0#8 ∉ buf :=
    fun buf h => atPath_clean hc h
  cases c with
  | «open» path flags => exact open_frame hc hplain (fun _ => .inr) fun _ => .inl
  | openat dirfd path flags => exact open_frame hc hat (fun _ => .inr) fun _ => .inl
  | close fd => exact close_frame hc
  | dup fd => exact dup_frame hc
  | dup2 old new => exact dup2_frame hc old new
  | pipe ok => exact pipe_frame hc ok
  | read fd count ok => exact read_frame hc count ok
  | write fd buf => exact (write_moves ctx hc fd buf).frame fun _ => .inl
  | writev fd bufs => exact (writev_moves ctx hc fd 0 bufs).frame fun _ => .inl
  | lseek fd offset whence => exact lseek_frame hc offset whence
  | llseek fd lo hi ok whence => exact llseek_frame hc lo hi ok whence
  | sendfile out inp offset count => exact (sendfile_moves hc out inp offset count).frame fun _ => .inl
  | truncate path len => exact truncate_frame hc fun _ => .inl
  | truncate64 path lo hi =>
    simp only [fsCall, doTruncate64]
    split
    · exact .refl hc
    · exact truncate_frame hc fun _ => .inl
  | ftruncate fd len => exact (ftruncate_moves hc len).frame fun _ => .inl
  | ftruncate64 fd lo hi =>
    simp only [fsCall, doFtruncate64]
    split
    · exact .refl hc
    · exact (ftruncate_moves hc lo).frame fun _ => .inl
  | mkdir path =>
    refine onPath_frame hc fun buf h => mkdir_frame hc (hplain buf h) ?_
    exact h ▸ within_places (mem_cons_self ..)
  | mkdirat dirfd path =>
    refine onPath_frame hc fun buf h => mkdir_frame hc (hat buf h) ?_
    exact h ▸ within_places (mem_cons_self ..)
  | rmdir path =>
    refine onPath_frame hc fun buf h => rmdir_frame hc (hplain buf h) ?_
    exact h ▸ within_places (mem_cons_self ..)
  | unlink path =>
    refine onPath_frame hc fun buf h => unlink_frame hc (hplain buf h) ?_
    exact h ▸ within_places (mem_cons_self ..)
  | unlinkat dirfd path opts =>
    refine onPath_frame hc fun buf h => ?_
    have hN : Within s (places [nameAt s (atPath s dirfd path 128)]) (.ok buf) :=
      h ▸ within_places (mem_cons_self ..)
    split
    · exact rmdir_frame hc (hat buf h) hN
    · exact unlink_frame hc (hat buf h) hN
  | rename old new =>
    refine onPath_frame hc fun obuf ho => onPath_frame hc fun nbuf hn => ?_
    exact rename_frame hc (hplain obuf ho) (hplain nbuf hn) (ho ▸ within_places (mem_cons_self ..))
      (hn ▸ within_places (mem_cons_of_mem _ (mem_cons_self ..)))
  | renameat olddirfd old newdirfd new =>
    refine onPath_frame hc fun obuf ho => onPath_frame hc fun nbuf hn => ?_
    exact rename_frame hc (hat obuf ho) (hat nbuf hn) (ho ▸ within_places (mem_cons_self ..))
      (hn ▸ within_places (mem_cons_of_mem _ (mem_cons_self ..)))
  | chmod | fchmod | fchmodat | chown | fchown | fchownat
  | utime => exact Adjusts.frame (fsCall_adjusts rfl) hc
  | chdir path => exact chdir_frame hc path

theorem cutLast_spec (h : slash ∈ name) :
    parts slash (cutLast name) = (parts slash name).dropLast := by
  obtain ⟨v, u, hr, hv⟩ := eq_append_cons_of_mem (mem_reverse.mpr h)
  have hskip : ∀ c ∈ v, (c != slash) = true := by
    intro c hc
    rw [bne_iff_ne]
    exact fun he => hv (he ▸ hc)
  have hcut : cutLast name = u.reverse := by
    rw [cutLast, hr, dropWhile_append_of_pos hskip]
    rfl
  have hname : name = u.reverse ++ slash :: v.reverse := by
    rw [← reverse_reverse name, hr]
    simp
  rw [hcut, hname, parts_last (by simpa using hv)]

theorem stripSlashes_formed (h : WellFormed name) : stripSlashes name = name := by
  cases name with
  | nil => rfl
  | cons c rest =>
    have hc : c ≠ slash := by
      rintro rfl
      refine h.2.2 ?_
      have hp : parts slash ([] ++ slash :: rest) = parts slash [] ++ parts slash rest :=
        parts_append [] rest
      rw [nil_append] at hp
      exact mem_cons_self ..
    rw [stripSlashes, dropWhile_cons_of_neg (by simpa using hc)]

section

variable (hn : Named r) (hj : entryName r (.inr j) = some name)
include hn hj

theorem dirSlotOf_eq : dirSlotOf r name = some j := by
  cases h : dirSlotOf r name with
  | none => exact absurd hj (dirSlotOf_none h j)
  | some k =>
    have he := hn.distinct (dirSlotOf_some h) hj
    rw [Sum.inr.injEq] at he
    rw [he]

theorem fileSlotOf_dir : fileSlotOf r name = none := by
  cases h : fileSlotOf r name with
  | none => rfl
  | some i =>
    cases hn.distinct (fileSlotOf_some h) hj

end

theorem fileSlotOf_nil (hn : Named r) : fileSlotOf r [] = none := by
  cases h : fileSlotOf r [] with
  | none => rfl
  | some i => exact absurd rfl (hn.formed _ _ (fileSlotOf_some h)).ne_nil

theorem parentPermOk_spec (hn : Named r) (h : parentPermOk ctx r name 3#16 = true)
    (hD : dirPath r D = some (parts slash name).dropLast) : mayChange ctx r D = true := by
  cases D with
  | none =>
    have hroot : slash ∉ name := by
      intro hs
      rw [← cutLast_spec hs] at hD
      exact parts_ne_nil slash _ (Option.some.inj hD).symm
    simp only [parentPermOk, if_neg hroot, pathPermOk, stripSlashes, dropWhile_nil, fsPermPath,
      fileSlotOf_nil hn, if_true] at h
    exact h
  | some j =>
    obtain ⟨q, hq, hp⟩ := map_eq_some_iff.mp hD
    have hs : slash ∈ name := by
      by_contra hs
      rw [parts_single hs] at hp
      exact parts_ne_nil slash q hp
    have hpar : cutLast name = q := parts_injective ((cutLast_spec hs).trans hp.symm)
    have hform := hn.formed _ _ hq
    simp only [parentPermOk, if_pos hs] at h
    split at h
    · cases h
    change pathPermOk ctx r (cutLast name) 3#16 = true at h
    rw [hpar] at h
    simp only [pathPermOk, stripSlashes_formed hform, fsPermPath, fileSlotOf_dir hn hq,
      if_neg hform.ne_nil, dirSlotOf_eq hn hq, map_some] at h
    exact h

theorem respects_of_allowed (hn : Named s.ram) (hc : Clean s) {c : FsCall} (h : Allowed ctx s c) :
    Respects ctx s c := by
  have hf := (fsCall_frame ctx hc c).spares
  have hgranted : ∀ D, dirPath s.ram D ≠ none → mayChange ctx s.ram D = false →
      ∃ d, dirPath s.ram D = some d ∧ d ∉ dirsOf ctx s c := by
    intro D hlive hden
    obtain ⟨d, hd⟩ := ne_none_iff_exists'.mp hlive
    refine ⟨d, hd, fun hm => ?_⟩
    suffices hyes : mayChange ctx s.ram D = true by
      rw [hden] at hyes
      cases hyes
    cases c with
    | «open» path flags | openat dirfd path flags =>
      obtain ⟨name, -, hp, rfl⟩ := mem_createdIn.mp hm
      exact parentPermOk_spec hn hp hd
    | _ =>
      obtain ⟨name, hname, rfl⟩ := mem_places.mp hm
      exact h.dirs name hname D hd
  refine ⟨fun i hu hden => hf.files i ?_, fun D hlive hden => ?_⟩
  · rintro (haim | hfree)
    · have hyes := h.files i haim
      rw [hden] at hyes
      cases hyes
    · rw [hu] at hfree
      cases hfree
  · obtain ⟨d, hd, hnot⟩ := hgranted D hlive hden
    exact hf.dirs hn D d hd hnot

def step (s : Sys) (a : Ctx × FsCall) : Option Sys := some (fsCall a.1 s a.2).sys

def entering (r : Ram) (cwd : CString) : Sys := ⟨r, userFdsReset, cwd.chars⟩

theorem entering_clean (r : Ram) (cwd : CString) : Clean (entering r cwd) := by
  refine ⟨cwd.no_nul, fun i => ?_⟩
  show 0#8 ∉ (userFdsReset i).path
  simp only [userFdsReset]
  split
  · exact not_mem_nil
  split
  · exact not_mem_nil
  · split <;> exact not_mem_nil

theorem tracked_named {ops : List Op} {t : Tracked}
    (ht : run Fs.Names.step (start r) ops = some t) : Named t.ram := by
  refine run_invariant (I := fun t => Named t.ram) ?_ (start_named r) ht
  intro t op t' h hs
  cases hs
  exact call_named h op

theorem meets_respects (hn : Named s.ram) (hc : Clean s) {acts : List (Ctx × FsCall)}
    (h : Meets step (fun s a => Allowed a.1 s a.2) s acts) :
    Meets step (fun s a => Respects a.1 s a.2) s acts := by
  induction acts generalizing s with
  | nil => trivial
  | cons a acts ih =>
    refine ⟨respects_of_allowed hn hc h.1, ?_⟩
    intro t ht
    cases ht
    have hf := fsCall_frame a.1 hc a.2
    exact ih (hf.spares.named hn) hf.clean (h.2 _ rfl)

/-- From any state that the file system can get into, every run of calls that are
each aimed at nothing denied respects the modes throughout. -/
theorem allowed_calls_respect_modes {r : Ram} {ops : List Op} {t : Tracked}
    (ht : run Fs.Names.step (start r) ops = some t) (cwd : CString) {acts : List (Ctx × FsCall)}
    (h : Meets step (fun s a => Allowed a.1 s a.2) (entering t.ram cwd) acts) :
    Meets step (fun s a => Respects a.1 s a.2) (entering t.ram cwd) acts :=
  meets_respects (tracked_named ht) (entering_clean t.ram cwd) h

instance (ctx : Ctx) (s : Sys) (c : FsCall) : Decidable (Allowed ctx s c) :=
  decidable_of_iff ((∀ i : Fin 16, aimedAt ctx s c = i.val → mayWrite ctx s.ram i = true) ∧
      ∀ d ∈ places (namesOf s c), ∀ D, dirPath s.ram D = some d → mayChange ctx s.ram D = true)
    ⟨fun h => ⟨h.1, fun name hn D hD => h.2 _ (mem_places.mpr ⟨name, hn, rfl⟩) D hD⟩,
      fun h => ⟨h.files, fun d hd D hD => by
        obtain ⟨name, hn, rfl⟩ := mem_places.mp hd
        exact h.dirs name hn D hD⟩⟩

def rootDir : CString := ⟨[slash], by decide⟩

def homeName : CString := ⟨ascii ['h'], by decide⟩

def homeFile : CString := ⟨ascii ['h', '/', 'f'], by decide⟩

def homeSub : CString := ⟨ascii ['h', '/', 's'], by decide⟩

/-- A directory with a file in it, both of the user `uid` alone. -/
def homeOps (uid : BitVec 32) : List Op :=
  [.mkdir homeName, .create homeFile 0#32, .writeAt 0 0 (fun _ => 7#8) 3 0#32,
    .chownPath homeName uid uid 0#32, .chownPath homeFile uid uid 0#32,
    .chmodPath homeName 0o700#16 0#32, .chmodPath homeFile 0o600#16 0#32]

def homeState (uid : BitVec 32) : Tracked :=
  ((run Fs.Names.step (start bootRam) (homeOps uid))).getD (start bootRam)

def homeCalls : List (Ctx × FsCall) :=
  [(someUser, .truncate (some homeFile) 0), (someUser, .mkdir (some homeSub)),
    (someUser, .open (some homeFile) oWRONLY), (someUser, .write 3 (some [1#8, 2#8]))]

theorem home_calls_respect_modes :
    Meets step (fun s a => Respects a.1 s a.2) (entering (homeState 1000#32).ram rootDir)
    homeCalls := by
  have ht : run Fs.Names.step (start bootRam) (homeOps 1000#32) = some (homeState 1000#32) := rfl
  refine allowed_calls_respect_modes ht rootDir ?_
  refine ⟨by decide +kernel, fun t h1 => ?_⟩
  cases h1
  refine ⟨by decide +kernel, fun t h2 => ?_⟩
  cases h2
  refine ⟨by decide +kernel, fun t h3 => ?_⟩
  cases h3
  exact ⟨by decide +kernel, fun _ _ => trivial⟩

/-- The same file and directory closed by user 0: `truncate` empties the file, and
`mkdir` adds an entry to the directory. -/
theorem closed_home_changes : run Fs.Names.step (start bootRam)
    (homeOps 0#32) = some (homeState 0#32) ∧ mayWrite someUser (homeState 0#32).ram 0 = false ∧
    mayChange someUser (homeState 0#32).ram (some 0) = false ∧
    ((homeState 0#32).ram.tables.files 0).size = 3#32 ∧
    ((fsCall someUser (entering (homeState 0#32).ram rootDir)
      (.truncate (some homeFile) 0)).sys.ram.tables.files 0).size = 0#32 ∧
    ¬ Respects someUser (entering (homeState 0#32).ram rootDir) (.truncate (some homeFile) 0) ∧
    ¬ Respects someUser (entering (homeState 0#32).ram rootDir) (.mkdir (some homeSub)) := by
  have hw : mayWrite someUser (homeState 0#32).ram 0 = false := by decide +kernel
  have hd : mayChange someUser (homeState 0#32).ram (some 0) = false := by decide +kernel
  refine ⟨rfl, hw, hd, by decide +kernel, by decide +kernel, fun h => ?_, fun h => ?_⟩
  · have hs := (h.files 0 (by decide +kernel) hw (by decide +kernel)).2.1
    exact absurd hs (by decide +kernel)
  · have hl := congrFun (h.dirs (some 0) (by decide +kernel) hd (by decide +kernel)) (.inr 1)
    exact absurd hl (by decide +kernel)

end MuOS.Syscall.Mutations
