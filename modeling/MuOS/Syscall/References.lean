import MuOS.Syscall.FileCalls
import MuOS.Syscall.OpenPerms

namespace MuOS.Syscall.References

open Fs Metadata RamFs Names User Fds Descriptors Vfs FileCalls OpenPerms

variable {x : Desc}

section

/-- Used files alone are referred to; in `D` orphans are gone. -/
structure Tended (D : Fin 16 → Prop) (r : Ram) : Prop where
  held : ∀ i, r.refs i ≠ 0#32 → isUsed (r.tables.files i) = true
  gone : ∀ i, D i → isUsed (r.tables.files i) = true → (r.tables.files i).deleted ≠ 0#32 →
    r.refs i ≠ 0#32

def Keeps (D : Fin 16 → Prop) (r r' : Ram) : Prop := Tended D r → r'.refs = r.refs ∧ Tended D r'

variable {D : Fin 16 → Prop} {r r' r'' : Ram} {i : Fin 16} {fd : Int} {path : List (BitVec 8)}
  {now : BitVec 32}

theorem Keeps.refl (D : Fin 16 → Prop) (r : Ram) : Keeps D r r := fun h => ⟨rfl, h⟩

theorem Keeps.trans (h : Keeps D r r') (h' : Keeps D r' r'') : Keeps D r r'' := by
  intro ht
  obtain ⟨he, ht'⟩ := h ht
  obtain ⟨he', ht''⟩ := h' ht'
  exact ⟨he'.trans he, ht''⟩

theorem Keeps.of_marks (hr : r'.refs = r.refs)
    (hu : ∀ j, (r'.tables.files j).used = (r.tables.files j).used)
    (hd : ∀ j, (r'.tables.files j).deleted = (r.tables.files j).deleted) : Keeps D r r' := by
  intro ht
  have hu' : ∀ j, isUsed (r'.tables.files j) = isUsed (r.tables.files j) :=
    fun j => by rw [isUsed, isUsed, hu]
  refine ⟨hr, fun j hj => ?_, fun j hD hj hdel => ?_⟩
  · rw [hu']
    exact ht.held j (hr ▸ hj)
  · rw [hu'] at hj
    rw [hr]
    exact ht.gone j hD hj (hd j ▸ hdel)

theorem setFile_keeps {f : FileMeta} (hr : r'.refs = r.refs) (ht : r'.tables = r.tables)
    (hu : f.used = (r.tables.files i).used) (hd : f.deleted = (r.tables.files i).deleted) :
    Keeps D r (setFile r' i f) := by
  have hfiles : ∀ j, j ≠ i → (setFile r' i f).tables.files j = r.tables.files j := by
    intro j hj
    rw [setFile_ne hj, ht]
  apply Keeps.of_marks
  · exact hr
  · intro j
    by_cases hj : j = i
    · rw [hj, setFile_self, hu]
    · rw [hfiles j hj]
  · intro j
    by_cases hj : j = i
    · rw [hj, setFile_self, hd]
    · rw [hfiles j hj]

theorem fileSlotOf_live (h : fileSlotOf r path = some i) :
    isUsed (r.tables.files i) = true ∧ (r.tables.files i).deleted = 0#32 := by
  have hp := List.find?_some h
  simp only [isLive, Bool.and_eq_true, beq_iff_eq] at hp
  exact hp.1

section

variable (path)

theorem fsCreate_keeps (now : BitVec 32) : Keeps D r (fsCreate r path now).ram := by
  rw [fsCreate]
  split
  · split
    · rename_i i hi
      intro ht
      have hun : isUsed (r.tables.files i) = false := by
        have hp := List.find?_some hi
        simpa using hp
      have hz : r.refs i = 0#32 := by
        by_contra hne
        rw [ht.held i hne] at hun
        cases hun
      have hrefs : (setRefs (setFile r i (newFile path now)) i 0#32).refs = r.refs := by
        rw [setRefs, setFile_refs, ← hz, Function.update_eq_self]
      refine ⟨hrefs, fun j hj => ?_, fun j hD hj hdel => ?_⟩
      · rw [hrefs] at hj
        by_cases he : j = i
        · exact absurd (he ▸ hz) hj
        · exact (congrArg isUsed (setFile_ne he)).trans (ht.held j hj)
      · rw [hrefs]
        by_cases he : j = i
        · subst he
          exact absurd (congrArg FileMeta.deleted (setFile_self)) hdel
        have hfile : (setRefs (setFile r i (newFile path now)) i 0#32).tables.files j = r.tables.files j :=
          setFile_ne he
        rw [hfile] at hj hdel
        exact ht.gone j hD hj hdel
    · exact .refl D r
  · exact .refl D r

theorem fsDelete_keeps (now : BitVec 32) : Keeps D r (fsDelete r path now).ram := by
  simp only [fsDelete]
  split
  · exact .refl D r
  rename_i i hi
  intro ht
  refine ⟨rfl, fun j (hj : r.refs j ≠ 0#32) => ?_, fun j hD hj hdel => ?_⟩
  · by_cases he : j = i
    · subst he
      rw [setFile_self, if_neg hj]
      exact (fileSlotOf_live hi).1
    · rw [setFile_ne he]
      exact ht.held j hj
  · by_cases he : j = i
    · subst he
      intro (hz : r.refs j = 0#32)
      rw [setFile_self, if_pos hz] at hj
      cases hj
    · rw [setFile_ne he] at hj hdel
      exact ht.gone j hD hj hdel

theorem fsMkdir_keeps : Keeps D r (fsMkdir r path).ram := by
  rw [fsMkdir]
  split
  · split
    · exact .of_marks rfl (fun _ => rfl) fun _ => rfl
    · exact .refl D r
  · exact .refl D r

theorem fsRmdir_keeps : Keeps D r (fsRmdir r path).ram := by
  rw [fsRmdir]
  split
  · exact .refl D r
  split
  · exact .of_marks rfl (fun _ => rfl) fun _ => rfl
  · exact .refl D r

end

theorem fsRename_keeps (slot : Int) (path : List (BitVec 8)) (now : BitVec 32) :
    Keeps D r (fsRename r slot path now).ram := by
  rw [fsRename]
  split
  · exact .refl D r
  split
  · exact .refl D r
  split
  · exact .refl D r
  split
  · exact .refl D r
  split
  · exact .refl D r
  · exact setFile_keeps rfl rfl rfl rfl

theorem movedFile_marks (f : FileMeta) (old new : List (BitVec 8)) (now : BitVec 32) :
    (movedFile f old new now).used = f.used ∧ (movedFile f old new now).deleted = f.deleted := by
  rw [movedFile]
  split
  · split <;> exact ⟨rfl, rfl⟩
  · exact ⟨rfl, rfl⟩

theorem fsRenameDir_keeps (old new : List (BitVec 8)) (now : Fin 16 → BitVec 32) :
    Keeps D r (fsRenameDir r old new now).ram := by
  rw [fsRenameDir]
  split
  · exact .refl D r
  split
  · exact .refl D r
  split
  · exact .refl D r
  exact .of_marks rfl (fun j => (movedFile_marks _ old new (now j)).1) fun j =>
    (movedFile_marks _ old new (now j)).2

theorem SameNames.keeps (h : SameNames r r') : Keeps D r r' :=
  .of_marks h.refs (fun j => (h.file j).2.1) fun j => (h.file j).2.2

theorem quiet_keeps (op : Op) (hq : quiet op = true) : Keeps D r (call r op).ram :=
  SameNames.keeps (call_quiet hq)

theorem call_keeps (o : Op) (ho : ∀ slot, o ≠ .ref slot ∧ o ≠ .unref slot) :
    Keeps D r (call r o).ram := by
  by_cases hq : quiet o = true
  · exact quiet_keeps o hq
  cases o with
  | create path now => exact fsCreate_keeps path.chars now
  | mkdir path => exact fsMkdir_keeps path.chars
  | rmdir path => exact fsRmdir_keeps path.chars
  | delete name now => exact fsDelete_keeps name.chars now
  | ref slot => exact absurd rfl (ho slot).1
  | unref slot => exact absurd rfl (ho slot).2
  | rename slot path now => exact fsRename_keeps slot path.chars now
  | renameDir old new now => exact fsRenameDir_keeps old.chars new.chars now
  | _ => exact absurd rfl hq

def Alike (d d' : Desc) : Prop :=
  (d'.kind = d.kind ∧ d'.fsSlot = d.fsSlot ∧ d'.pipeId = d.pipeId) ∨ d.kind = .free ∧
    d'.kind = .free

def Absolute (p : Path) : Prop := p.head? = some slash ∧ p.length < 64

/-- A call that opens and closes nothing. -/
structure Kept (D : Fin 16 → Prop) (s s' : Sys) : Prop where
  ram : Keeps D s.ram s'.ram
  fds : ∀ i, Alike (s.fds i) (s'.fds i)
  cwd : s'.cwd = s.cwd ∨ Absolute s'.cwd

def refers : FdKind → Bool
  | .file | .pipeRead | .pipeWrite => true
  | _ => false

/-- A file in use, something not counted, or a copy. -/
inductive Entry (s : Sys) (r : Ram) (x : Desc) : Prop
  | file (i : Fin 16) (hk : x = fileDesc i) (hu : isUsed (r.tables.files i) = true)
  | plain (hk : refers x.kind = false)
  | copy (i : Fin 11) (hx : x = s.fds i)

/-- What a call does to the descriptors and what they refer to. -/
inductive Effect (D : Fin 16 → Prop) (s : Sys) (d : Done) : Prop
  | kept (h : Kept D s d.sys) (hp : d.pipes = [])
  | opened (i : Fin 11) (x : Desc) (r : Ram) (hr : Keeps D s.ram r) (hfree : (s.fds i).kind = .free)
    (hx : Entry s r x) (hram : d.sys.ram = refFile r x) (hfds : d.sys.fds = setDesc s.fds i x)
    (hcwd : d.sys.cwd = s.cwd) (hp : d.pipes = pipeDelta 1 x)
  | closed (i : Fin 11) (hram : d.sys.ram = unrefFile s.ram (s.fds i))
    (hfds : d.sys.fds = setDesc s.fds i emptyDesc)
    (hcwd : d.sys.cwd = s.cwd) (hp : d.pipes = pipeDelta (-1) (s.fds i))
  | replaced (i j : Fin 11) (hne : i ≠ j)
    (hram : d.sys.ram = refFile (unrefFile s.ram (s.fds j)) (s.fds i))
    (hfds : d.sys.fds = setDesc s.fds j (s.fds i)) (hcwd : d.sys.cwd = s.cwd)
    (hp : d.pipes = pipeDelta (-1) (s.fds j) ++ pipeDelta 1 (s.fds i))

variable {ctx : Ctx} {s s' s'' : Sys} {buf : Path}

theorem Alike.refl (d : Desc) : Alike d d := .inl ⟨rfl, rfl, rfl⟩

theorem Alike.trans {a b c : Desc} (h : Alike a b) (h' : Alike b c) : Alike a c := by
  rcases h with ⟨hk, hs, hp⟩ | ⟨ha, hb⟩
  · rcases h' with ⟨hk', hs', hp'⟩ | ⟨hb, hc⟩
    · exact .inl ⟨hk'.trans hk, hs'.trans hs, hp'.trans hp⟩
    · exact .inr ⟨hk ▸ hb, hc⟩
  · rcases h' with ⟨hk', -, -⟩ | ⟨-, hc⟩
    · exact .inr ⟨ha, hk'.trans hb⟩
    · exact .inr ⟨ha, hc⟩

theorem Kept.refl (D : Fin 16 → Prop) (s : Sys) : Kept D s s :=
  ⟨.refl D s.ram, fun i => .refl (s.fds i), .inl rfl⟩

theorem Kept.trans (h : Kept D s s') (h' : Kept D s' s'') : Kept D s s'' := by
  refine ⟨h.ram.trans h'.ram, fun i => (h.fds i).trans (h'.fds i), ?_⟩
  cases h'.cwd with
  | inl he => exact he ▸ h.cwd
  | inr hf => exact .inr hf

theorem Kept.of_ram (h : Keeps D s.ram r) : Kept D s { s with ram := r } :=
  ⟨h, fun i => .refl (s.fds i), .inl rfl⟩

theorem Kept.offset (D : Fin 16 → Prop) (s : Sys) (fd : Int) (off : BitVec 32) :
    Kept D s { s with fds := userFdSetOffset s.fds fd off } :=
  ⟨.refl D s.ram, fun i => by
    obtain ⟨o, ho⟩ := setOffset_entry s.fds fd off i
    dsimp only
    rw [ho]
    exact .inl ⟨rfl, rfl, rfl⟩, .inl rfl⟩

theorem Effect.errno (h : Kept D s s') (code : Nat) : Effect D s (errno s' code) := .kept h rfl

theorem Effect.answer (h : Kept D s s') (rc : Int) : Effect D s (answer s' rc) := .kept h rfl

theorem Effect.failed (D : Fin 16 → Prop) (s : Sys) (code : Nat) : Effect D s (Vfs.errno s code) :=
  .errno (.refl D s) code

theorem onPath_effect {p : Except Nat Path} {f : Path → Done} (h : ∀ buf, Effect D s (f buf)) :
    Effect D s (onPath s p f) := by
  rw [onPath.eq_def]
  split
  · exact .failed D s _
  · exact h _

theorem onNode_effect {f : Path → Node → Done}
    (h : ∀ path node, vfsLookup ctx s buf = .ok (path, .ok node) → Effect D s (f path node)) :
    Effect D s (onNode ctx s buf f) := by
  rw [onNode]
  split
  · exact .failed D s _
  · exact .failed D s _
  · rename_i path node hl
    exact h path node hl

theorem fromRam_effect {out : Outcome} (h : Kept D s s') (hr : Keeps D s'.ram out.ram)
    (code : Nat) : Effect D s (fromRam s' out code) := by
  rw [fromRam]
  split
  · exact .answer (h.trans (.of_ram hr)) 0
  · exact .errno h code

theorem fdAllocWith_some {t t' : Table} {i : Fin 11} (h : fdAllocWith t x = some (i, t')) :
    (t i).kind = .free ∧ t' = setDesc t i x := by
  obtain ⟨j, hj, he⟩ := Option.map_eq_some_iff.mp h
  cases he
  exact ⟨(fdAllocRaw_some hj).2, rfl⟩

section

variable (hk : refers x.kind = false)
include hk

theorem refFile_plain (r : Ram) : refFile r x = r := by
  rw [refFile, if_neg]
  rintro ⟨hf, -⟩
  rw [hf] at hk
  cases hk

theorem pipeDelta_plain (delta : Int) : pipeDelta delta x = [] := by
  rw [pipeDelta, if_neg]
  intro hf
  rw [hf] at hk
  cases hk

theorem openDesc_effect : Effect D s (openDesc s x) := by
  rw [openDesc]
  split
  · exact .failed D s _
  rename_i i t ht
  obtain ⟨hfree, rfl⟩ := fdAllocWith_some ht
  exact .opened i x s.ram (.refl D s.ram) hfree (.plain hk)
    (refFile_plain hk s.ram).symm rfl rfl (pipeDelta_plain hk 1).symm

end

theorem openSlotDesc_effect (hr : Keeps D s.ram r) (hu : isUsed (r.tables.files i) = true) :
    Effect D s (openSlotDesc { s with ram := r } i) := by
  rw [openSlotDesc]
  split
  · exact .errno (.of_ram hr) _
  rename_i k t ht
  obtain ⟨hfree, rfl⟩ := fdAllocWith_some ht
  refine .opened k (fileDesc i) r hr hfree (.file i rfl hu) ?_ rfl rfl rfl
  rfl

theorem createAndOpen_effect (name : Path) : Effect D s (createAndOpen ctx s name) := by
  rw [createAndOpen]
  split
  · exact .failed D s _
  split
  · exact .failed D s _
  split
  · exact .failed D s _
  split
  · exact .failed D s _
  simp only
  split
  · exact .failed D s _
  rename_i hrc
  refine openSlotDesc_effect (fsCreate_keeps name _) ?_
  rw [fsCreate] at hrc ⊢
  split at hrc
  · rename_i hadd
    rw [if_pos hadd]
    split at hrc
    · rename_i i hi
      have hslot : Fin.ofNat 16 (Int.toNat (i.val : Int)) = i := by
        rw [Int.toNat_natCast, Fin.ofNat_val_eq_self]
      simp only [hslot]
      exact congrArg isUsed setFile_self
    · exact absurd (show (-1 : Int) < 0 by decide) hrc
  · exact absurd (show (-1 : Int) < 0 by decide) hrc

def Uncounted (e : Except Nat Node) : Prop := ∀ kind, e = .ok (.dev kind) → refers kind = false

theorem Uncounted.error (e : Nat) : Uncounted (.error e) := by
  intro kind h
  cases h

theorem Uncounted.ok {node : Node} (h : ∀ kind, node = .dev kind → refers kind = false) :
    Uncounted (.ok node) :=
  fun kind hk => h kind (Except.ok.inj hk)

theorem lookupDev_uncounted (ctx : Ctx) (n : Path) : Uncounted (lookupDev ctx n) := by
  have hdev : ∀ kind, refers kind = false → Uncounted (.ok (.dev kind)) := by
    intro kind hk
    exact .ok fun kind' he => Node.dev.inj he ▸ hk
  rw [lookupDev]
  repeat' split
  all_goals first | exact .error _ | exact hdev _ rfl

theorem resolve_dev {p : Path} {kind : FdKind} (h : resolve ctx s.ram p = .ok (.dev kind)) :
    refers kind = false := by
  refine (show Uncounted (resolve ctx s.ram p) from ?_) kind h
  have hother : ∀ node, (∀ kind, node ≠ .dev kind) → Uncounted (.ok node) :=
    fun node hn => .ok fun kind he => absurd he (hn kind)
  rw [resolve]
  iterate 7
    split
    · exact hother _ fun _ => by simp
  split
  · exact lookupDev_uncounted ctx _
  split
  · simp only [lookupProc]
    repeat' split
    all_goals first | exact .error _ | exact hother _ fun _ => by simp
  split
  · rw [lookupEtc]
    split
    · exact hother _ fun _ => by simp
    · exact .error _
  split
  · rw [lookupProg]
    split
    · exact .error _
    · exact hother _ fun _ => by simp
  · rw [lookupRam]
    repeat' split
    all_goals first | exact .error _ | exact hother _ fun _ => by simp

theorem openFile_effect {path : Path} (hl : vfsLookup ctx s buf = .ok (path, .ok (.file i)))
    (b : Path) (flags : BitVec 32) : Effect D s (openFile ctx s b flags i) := by
  have hu := (fileSlotOf_live (resolve_file (vfsLookup_ok hl)).2).1
  rw [openFile]
  split
  · exact .failed D s _
  split
  · exact .failed D s _
  split
  · refine openSlotDesc_effect (quiet_keeps (.fdTruncate _ _) rfl) ?_
    rw [fsFdTruncate]
    split
    · exact hu
    rename_i j hj
    by_cases he : i = j
    · subst he
      exact (congrArg isUsed setFile_self).trans hu
    · exact (congrArg isUsed (setFile_ne he)).trans hu
  · exact openSlotDesc_effect (.refl D s.ram) hu

theorem doOpenBuf_effect (buf : Path) (flags : BitVec 32) :
    Effect D s (doOpenBuf ctx s buf flags) := by
  rw [doOpenBuf]
  split
  · exact .failed D s _
  · split
    · exact .failed D s _
    split
    · exact .failed D s _
    · exact createAndOpen_effect _
  · rename_i path node hl
    cases node with
    | file i => exact openFile_effect hl buf flags
    | dev kind =>
      exact openDesc_effect (resolve_dev (vfsLookup_ok hl))
    | vfile id pid =>
      simp only
      split
      · exact .failed D s _
      · exact openDesc_effect rfl
    | module => exact .failed D s _
    | _ =>
      simp only [openDir]
      split
      · exact .failed D s _
      · exact openDesc_effect rfl

theorem close_effect (fd : Int) : Effect D s (doClose s fd) := by
  rw [doClose]
  split
  · exact .failed D s _
  rw [userFdClose]
  split
  · exact .answer (.refl D s) 0
  rename_i i hi
  exact .closed i rfl rfl rfl rfl

theorem dup_effect (fd : Int) : Effect D s (doDup s fd) := by
  rw [doDup]
  split
  · exact .failed D s _
  cases h : userFdDup s fd with
  | none => exact .failed D s _
  | some out =>
    simp only [userFdDup] at h
    split at h
    · cases h
    rename_i i hi
    split at h
    · cases h
    split at h
    · cases h
    rename_i k hk
    cases h
    exact .opened k (s.fds i) s.ram (.refl D s.ram) (fdAllocRaw_some hk).2 (.copy i rfl) rfl rfl rfl rfl

theorem dup2_effect (old new : Int) : Effect D s (userFdDup2 s old new) := by
  rw [userFdDup2]
  split
  · rename_i i j _ _
    split
    · exact .failed D s _
    split
    · exact .answer (.refl D s) new
    rename_i hne
    exact .replaced i j hne rfl rfl rfl rfl
  · exact .failed D s _

theorem writeFile_kept {n : Int} {bs : List (BitVec 8)} (h : writeFile s fd bs now = some (n, s')) :
    Kept D s s' := by
  simp only [writeFile] at h
  split at h
  · cases h
  split at h
  · cases h
  cases Option.some.inj h
  exact (Kept.of_ram (quiet_keeps (.writeAt _ _ _ _ _) rfl)).trans (.offset D _ fd _)

section

variable (fd)

theorem diskIo_kept (count : Nat) : Kept D s (diskIo ctx s fd count).sys := by
  simp only [diskIo]
  split
  · exact .refl D s
  · exact .offset D s fd _

theorem diskIo_pipes (count : Nat) : (diskIo ctx s fd count).pipes = [] := by
  simp only [diskIo]
  split <;> rfl

theorem doWrite_effect (buf : UserBytes) : Effect D s (doWrite ctx s fd buf) := by
  rw [doWrite.eq_def]
  split
  · exact .failed D s _
  · exact .answer (.refl D s) 0
  split
  · exact .failed D s _
  rename_i kind _
  cases kind with
  | file =>
    simp only [doWriteAs]
    split
    · exact .failed D s _
    rename_i hw
    exact .answer (writeFile_kept hw) _
  | devAta => exact .kept (diskIo_kept fd _) (diskIo_pipes fd _)
  | _ => exact .kept (.refl D s) rfl

theorem doRead_effect (count : Nat) (ok : Bool) : Effect D s (doRead ctx s fd count ok) := by
  rw [doRead]
  split
  · exact .answer (.refl D s) 0
  split
  · exact .failed D s _
  simp only
  split
  case h_1 =>
    split
    · exact .failed D s _
    · exact .answer ((Kept.of_ram (quiet_keeps (.readAt _ _ 0 _) rfl)).trans (.offset D _ fd _)) _
  case h_2 => exact .answer (.offset D s fd _) _
  case h_5 => exact .kept (diskIo_kept fd _) (diskIo_pipes fd _)
  all_goals exact .kept (.refl D s) rfl

theorem kbufWrite_kept (bs : List (BitVec 8)) (now : BitVec 32) :
    Kept D s (kbufWrite ctx s fd bs now).2 := by
  rw [kbufWrite]
  split
  case h_1 =>
    split
    · exact .refl D s
    rename_i hw
    exact writeFile_kept hw
  all_goals exact .refl D s

end

theorem sendLoop_kept (out slot : Int) (fuel total : Nat) (off : BitVec 32) (count : Nat) :
    Kept D s (sendLoop ctx out slot fuel total s off count).2.1 := by
  induction fuel generalizing s total off with
  | zero => exact .refl D s
  | succ fuel ih =>
    rw [sendLoop]
    split
    · exact .refl D s
    have htouch : Kept D s { s with ram := fsReadAtTouch s.ram slot off.toNat (ctx.clock (2 * fuel)) } :=
      .of_ram (quiet_keeps (.readAt _ _ 0 _) rfl)
    simp only
    split
    · exact htouch
    have hw : Kept D s
        (kbufWrite ctx { s with ram := fsReadAtTouch s.ram slot off.toNat (ctx.clock (2 * fuel)) } out
        (fsReadAt s.ram slot off.toNat (min (count - total) 4096)).2 (ctx.clock (2 * fuel + 1))).2 :=
      htouch.trans (kbufWrite_kept _ _ _)
    split
    · exact hw
    split
    · exact hw
    · exact hw.trans (ih _ _)

theorem doSendfile_effect (out inp : Int) (offset : Option (Option (BitVec 32))) (count : Nat) :
    Effect D s (doSendfile ctx s out inp offset count) := by
  simp only [doSendfile.eq_def]
  split
  · exact .failed D s _
  split
  · exact .failed D s _
  · exact .answer (sendLoop_kept _ _ _ _ _ _) _
  have hl :
    Kept D s (sendLoop ctx out (userFdSlot (entries s.fds) inp) count 0 s
    (userFdOffset s.fds inp) count).2.1 :=
    sendLoop_kept _ _ _ _ _ _
  split
  · exact .answer hl _
  · exact .answer (hl.trans (.offset D _ inp _)) _

theorem seekTo_effect (fd pos rc : Int) : Effect D s (seekTo s fd pos rc) := by
  rw [seekTo]
  split
  · exact .failed D s _
  · exact .answer (.offset D s fd _) rc

theorem doLseek_effect (fd : Int) (offset : BitVec 32) (whence : Nat) :
    Effect D s (doLseek ctx s fd offset whence) := by
  rw [doLseek]
  split
  · exact .failed D s _
  split
  · exact .failed D s _
  · exact seekTo_effect fd _ _

theorem doLlseek_effect (fd : Int) (lo hi : BitVec 32) (ok : Bool) (whence : Nat) :
    Effect D s (doLlseek ctx s fd lo hi ok whence) := by
  rw [doLlseek]
  split
  · exact .failed D s _
  split
  · exact .failed D s _
  split
  · exact .failed D s _
  · exact seekTo_effect fd _ _

theorem doFtruncate_effect (fd : Int) (len : Nat) : Effect D s (doFtruncate ctx s fd len) := by
  rw [doFtruncate]
  split
  · exact .failed D s _
  · simp only
    split
    · exact .failed D s _
    split
    · exact .answer (.of_ram (quiet_keeps (.truncate _ _ _) rfl)) 0
    · exact .failed D s _
  · exact .failed D s _

theorem doTruncate_effect (path : UserString) (len : Nat) :
    Effect D s (doTruncate ctx s path len) := by
  refine onPath_effect fun buf => onNode_effect fun p node _ => ?_
  cases node with
  | file i => exact fromRam_effect (.refl D s) (quiet_keeps (.truncate _ _ _) rfl) _
  | _ =>
    simp only
    split <;> exact .failed D s _

theorem doMkdirBuf_effect (buf : Path) : Effect D s (doMkdirBuf ctx s buf) := by
  rw [doMkdirBuf]
  split
  · exact .failed D s _
  · exact .failed D s _
  simp only
  repeat' split
  all_goals first | exact .failed D s _ | exact fromRam_effect (.refl D s) (fsMkdir_keeps _) _

theorem doRmdirBuf_effect (buf : Path) : Effect D s (doRmdirBuf ctx s buf) := by
  refine onNode_effect fun p node _ => ?_
  split
  · exact .failed D s _
  split
  · exact .failed D s _
  · exact fromRam_effect (.refl D s) (fsRmdir_keeps _) _

theorem doUnlinkBuf_effect (buf : Path) : Effect D s (doUnlinkBuf ctx s buf) := by
  refine onNode_effect fun p node _ => ?_
  cases node with
  | file i => exact fromRam_effect (.refl D s) (fsDelete_keeps _ _) _
  | _ =>
    simp only
    split <;> exact .failed D s _

theorem renameDirTo_effect (old : Path) (new : Path × Except Nat Node) :
    Effect D s (renameDirTo ctx s old new) := by
  rw [renameDirTo]
  split
  · exact fromRam_effect (.refl D s) (fsRenameDir_keeps _ _ _) _
  split
  · exact .failed D s _
  split
  · exact .failed D s _
  simp only
  split
  · exact .failed D s _
  · exact fromRam_effect (.of_ram (fsRmdir_keeps _)) (fsRenameDir_keeps _ _ _) _

theorem renameFileTo_effect (h : Kept D s s') (slot : Fin 16) (name : Path) :
    Effect D s (renameFileTo ctx s' slot name) := by
  rw [renameFileTo]
  split
  · exact .errno h _
  split
  · exact .errno h _
  split
  · exact .errno h _
  · exact fromRam_effect h (fsRename_keeps _ _ _) _

theorem renameFile_effect (slot : Fin 16) (new : Path × Except Nat Node) :
    Effect D s (renameFile ctx s slot new) := by
  rw [renameFile]
  split
  · exact renameFileTo_effect (.refl D s) slot _
  · split
    · exact .answer (.refl D s) 0
    · exact renameFileTo_effect (.of_ram (fsDelete_keeps _ _)) slot _
  · split <;> exact .failed D s _

theorem doRenameBufs_effect (obuf nbuf : Path) : Effect D s (doRenameBufs ctx s obuf nbuf) := by
  refine onNode_effect fun old node _ => ?_
  split
  · exact .failed D s _
  split
  · exact .failed D s _
  split
  · exact .failed D s _
  rw [renameNode.eq_def]
  split
  · exact .failed D s _
  split
  · exact renameFile_effect _ _
  · exact renameDirTo_effect _ _

theorem Adjusts.effect {d : Done} (h : Adjusts s d) : Effect D s d := by
  obtain ⟨hp, r, hr, hs⟩ := h
  exact .kept (hs ▸ .of_ram (SameNames.keeps hr.toSameNames)) hp

theorem doChdir_effect (path : UserString) : Effect D s (doChdir ctx s path) := by
  refine onPath_effect fun buf => onNode_effect fun p node _ => ?_
  split
  · exact .failed D s _
  split
  · exact .failed D s _
  rename_i hp
  rw [not_or, not_not, Nat.not_le] at hp
  have hkept : Kept D s { s with cwd := p } := ⟨.refl D s.ram, fun i => .refl (s.fds i), .inr hp⟩
  exact .answer hkept 0

theorem fsCall_effect (c : FsCall) (hp : ∀ ok, c ≠ .pipe ok) (hw : ∀ fd bufs, c ≠ .writev fd bufs) :
    Effect D s (fsCall ctx s c) := by
  cases c with
  | «open» path flags => exact onPath_effect fun buf => doOpenBuf_effect buf flags
  | openat dirfd path flags => exact onPath_effect fun buf => doOpenBuf_effect buf flags
  | close fd => exact close_effect fd
  | dup fd => exact dup_effect fd
  | dup2 old new => exact dup2_effect old new
  | pipe ok => exact absurd rfl (hp ok)
  | read fd count ok => exact doRead_effect fd count ok
  | write fd buf => exact doWrite_effect fd buf
  | writev fd bufs => exact absurd rfl (hw fd bufs)
  | lseek fd offset whence => exact doLseek_effect fd offset whence
  | llseek fd lo hi ok whence => exact doLlseek_effect fd lo hi ok whence
  | sendfile out inp offset count => exact doSendfile_effect out inp offset count
  | truncate path len => exact doTruncate_effect path len
  | truncate64 path lo hi =>
    simp only [fsCall, doTruncate64]
    split
    · exact .failed D s _
    · exact doTruncate_effect path lo
  | ftruncate fd len => exact doFtruncate_effect fd len
  | ftruncate64 fd lo hi =>
    simp only [fsCall, doFtruncate64]
    split
    · exact .failed D s _
    · exact doFtruncate_effect fd lo
  | mkdir | mkdirat => exact onPath_effect doMkdirBuf_effect
  | rmdir path => exact onPath_effect doRmdirBuf_effect
  | unlink path => exact onPath_effect doUnlinkBuf_effect
  | unlinkat dirfd path flags =>
    refine onPath_effect fun buf => ?_
    split
    · exact doRmdirBuf_effect buf
    · exact doUnlinkBuf_effect buf
  | rename | renameat => exact onPath_effect fun obuf => onPath_effect (doRenameBufs_effect obuf)
  | chmod | fchmod | fchmodat | chown | fchown | fchownat
  | utime => exact Adjusts.effect (fsCall_adjusts rfl)
  | chdir path => exact doChdir_effect path

end

end MuOS.Syscall.References
