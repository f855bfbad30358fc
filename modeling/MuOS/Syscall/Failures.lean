import MuOS.Syscall.Mutations

namespace MuOS.Syscall.Failures

open Function Lib CStrings Trees Fs RamFs Names User.Descriptors Vfs FileCalls Frames OpenPerms
  Mutations List

def Harmless (s : Sys) (d : Done) : Prop := d.rc < 0 → d.sys.ram = s.ram

section

variable {ctx : Ctx} {s : Sys} {c : OpenCall} {buf p name : Path} {i : Fin 16} {flags : BitVec 32}

structure Creates (ctx : Ctx) (s : Sys) (name : Path) : Prop where
  perm : parentPermOk ctx s.ram name 3#16 = true
  may : mayAdd s.ram name = true
  slot : ∃ i, isUsed (s.ram.tables.files i) = false

structure Empties (ctx : Ctx) (s : Sys) (buf : Path) (flags : BitVec 32) (i : Fin 16) : Prop where
  perm : pathPermOk ctx s.ram buf (needOf flags) = true
  trunc : hasFlag flags oTRUNC = true
  changes : (fsFdTruncate s.ram i.val (ctx.clock 0)).ram ≠ s.ram

/-- The file has been created or emptied when every descriptor is taken. -/
structure Spills (ctx : Ctx) (s : Sys) (buf : Path) (flags : BitVec 32) : Prop where
  full : fdAllocRaw s.fds = none
  plainFile : hasFlag flags oDIRECTORY = false
  changed : (∃ p, vfsLookup ctx s buf = .ok (p, .error eNOENT) ∧ hasFlag flags oCREAT = true ∧
    Creates ctx s (p.drop 1)) ∨
    ∃ p i, vfsLookup ctx s buf = .ok (p, .ok (.file i)) ∧ Empties ctx s buf flags i

theorem Harmless.errno (s : Sys) (code : Nat) : Harmless s (errno s code) := fun _ => rfl

theorem openDesc_harmless (s : Sys) (d : Desc) : Harmless s (openDesc s d) := by
  rw [openDesc]
  split <;> exact fun _ => rfl

theorem openDir_harmless (s : Sys) (path : Path) (flags : BitVec 32) :
    Harmless s (openDir s path flags) := by
  rw [openDir]
  split
  · exact .errno _ _
  · exact openDesc_harmless _ _

theorem openSlotDesc_harmless (s s' : Sys) (i : Fin 16) :
    Harmless s (openSlotDesc s' i) ↔ (fdAllocRaw s'.fds = none → s'.ram = s.ram) := by
  simp only [openSlotDesc, fdAllocWith]
  cases h : fdAllocRaw s'.fds with
  | none => simp [Harmless, Vfs.errno, eMFILE]
  | some k => simp [Harmless, answer]

section

variable (ctx) (s)

theorem createAndOpen_harmless (name : Path) :
    Harmless s (createAndOpen ctx s name) ↔ ¬ (fdAllocRaw s.fds = none ∧ Creates ctx s name) := by
  cases hm : mayAdd s.ram name with
  | false =>
    have hfail : fsCreate s.ram name (ctx.clock 0) = failed s.ram := by
      rw [fsCreate, hm, if_neg Bool.false_ne_true]
    have hsame : (createAndOpen ctx s name).sys = s := by
      simp only [createAndOpen, hfail]
      repeat' split
      all_goals first | rfl | exact absurd (Int.negSucc_lt_zero 0) ‹_›
    exact iff_of_true (fun _ => by rw [hsame]) fun h => by cases hm.symm.trans h.2.may
  | true =>
    obtain ⟨par, base, hs, hd, -⟩ := mayAdd_spec hm
    have hw := (splitParent_spec hs).1
    have hparent : fsParentIsDir s.ram name = true := by
      rw [fsParentIsDir, hs]
      exact hd
    rw [createAndOpen, if_neg hw.ne_nil, if_neg (by have := hw.2.1; omega), hparent, Bool.not_true,
      if_neg Bool.false_ne_true]
    cases hp : parentPermOk ctx s.ram name 3#16 with
    | false => exact iff_of_true (.errno _ _) fun h => by cases hp.symm.trans h.2.perm
    | true =>
      rw [Bool.not_true, if_neg Bool.false_ne_true, fsCreate, hm, if_pos rfl]
      cases hfind : (finRange 16).find? (fun i => !isUsed (s.ram.tables.files i)) with
      | none =>
        refine iff_of_true (.errno _ _) fun h => ?_
        obtain ⟨i, hi⟩ := h.2.slot
        exact absurd hi (by simpa using find?_eq_none.mp hfind i (mem_finRange i))
      | some i =>
        have hfree : isUsed (s.ram.tables.files i) = false := by simpa using find?_some hfind
        have hne : setRefs (setFile s.ram i (newFile name (ctx.clock 0))) i 0#32 ≠ s.ram := by
          intro he
          have hu := congrArg (fun r => isUsed (r.tables.files i)) he
          simp only [setRefs, setFile_self, hfree] at hu
          cases hu
        have hrc : ¬ (i.val : Int) < 0 := by omega
        simp only [if_neg hrc]
        rw [openSlotDesc_harmless]
        exact ⟨fun h hc => hne (h hc.1), fun h hn => absurd ⟨hn, hp, hm, i, hfree⟩ h⟩

theorem openFile_harmless (buf : Path) (flags : BitVec 32) (i : Fin 16) :
    Harmless s (openFile ctx s buf flags i) ↔
      ¬ (fdAllocRaw s.fds = none ∧ hasFlag flags oDIRECTORY = false ∧ Empties ctx s buf flags i) := by
  rw [openFile]
  split
  · rename_i hdir
    exact iff_of_true (.errno _ _) fun h => by cases hdir.symm.trans h.2.1
  rename_i hdir
  split
  · rename_i hp
    refine iff_of_true (.errno _ _) fun h => ?_
    rw [h.2.2.perm] at hp
    cases hp
  rename_i hp
  simp only [Bool.not_eq_true', Bool.not_eq_false, Bool.not_eq_true] at hp hdir
  simp only [openSlotDesc_harmless]
  split
  · rename_i ht
    exact ⟨fun h hc => hc.2.2.changes (h hc.1), fun h hn => by_contra fun hne => h ⟨hn, hdir, hp, ht, hne⟩⟩
  · rename_i ht
    exact iff_of_true (fun _ => rfl) fun h => ht h.2.2.trunc

theorem doOpenBuf_harmless (buf : Path) (flags : BitVec 32) :
    Harmless s (doOpenBuf ctx s buf flags) ↔ ¬ Spills ctx s buf flags := by
  have hcases : ∀ {x}, vfsLookup ctx s buf = x → Spills ctx s buf flags →
      (∃ p, x = .ok (p, .error eNOENT) ∧ hasFlag flags oCREAT = true ∧ Creates ctx s (p.drop 1)) ∨
        ∃ p i, x = .ok (p, .ok (.file i)) ∧ Empties ctx s buf flags i := fun hx h => hx ▸ h.changed
  rw [doOpenBuf]
  split
  · rename_i hl
    exact iff_of_true (.errno _ _) fun h => by simpa using hcases hl h
  · rename_i p e hl
    split
    · rename_i he
      exact iff_of_true (.errno _ _) fun h => by simpa [he] using hcases hl h
    rename_i he
    obtain rfl : e = eNOENT := not_not.mp he
    split
    · rename_i hf
      refine iff_of_true (.errno _ _) fun h => ?_
      obtain ⟨_, -, hcreat, -⟩ | ⟨_, _, hfound, -⟩ := hcases hl h
      · rw [hcreat, h.plainFile] at hf
        cases hf
      · cases hfound
    rename_i hf
    simp only [Bool.or_eq_true, Bool.not_eq_true', not_or, Bool.not_eq_false, Bool.not_eq_true] at hf
    rw [createAndOpen_harmless]
    refine not_congr ⟨fun h => ⟨h.1, hf.2, .inl ⟨p, hl, hf.1, h.2⟩⟩, fun h => ⟨h.full, ?_⟩⟩
    obtain ⟨q, hq, -, hc⟩ | ⟨_, _, hfound, -⟩ := hcases hl h
    · rw [(Prod.mk.inj (Except.ok.inj hq)).1]
      exact hc
    · cases hfound
  · rename_i p node hl
    have hno : (∀ i, node ≠ .file i) → ¬ Spills ctx s buf flags := by
      intro hn h
      obtain ⟨_, hfound, -⟩ | ⟨_, i, hfound, -⟩ := hcases hl h
      · cases hfound
      · exact hn i (Except.ok.inj (Prod.mk.inj (Except.ok.inj hfound)).2)
    cases node with
    | file i =>
      rw [openFile_harmless]
      refine not_congr ⟨fun h => ⟨h.1, h.2.1, .inr ⟨p, i, hl, h.2.2⟩⟩, fun h => ⟨h.full, h.plainFile, ?_⟩⟩
      obtain ⟨_, hfound, -⟩ | ⟨_, j, hj, hc⟩ := hcases hl h
      · cases hfound
      · cases hj
        exact hc
    | dev kind => exact iff_of_true (openDesc_harmless _ _) (hno (by simp))
    | vfile id pid =>
      refine iff_of_true ?_ (hno (by simp))
      dsimp only
      split
      · exact .errno _ _
      · exact openDesc_harmless _ _
    | module => exact iff_of_true (.errno _ _) (hno (by simp))
    | _ => exact iff_of_true (openDir_harmless s p flags) (hno (by simp))

end

/-- Opening that fails has no effect except where a descriptor is missing for a
file just created or emptied. -/
theorem open_harmless_iff (ctx : Ctx) (s : Sys) (c : OpenCall) :
    Harmless s (openCall ctx s c) ↔ ∀ buf, spelling s c = .ok buf → ¬ Spills ctx s buf c.flags := by
  rw [openCall_eq]
  cases hs : spelling s c with
  | error e => exact iff_of_true (.errno _ _) fun buf h => by cases h
  | ok buf =>
    rw [onPath, doOpenBuf_harmless]
    exact ⟨fun h b hb => Except.ok.inj hb ▸ h, fun h => h buf rfl⟩

def superUser : Ctx := { someUser with uid := 0#32, gid := 0#32 }

def fullSys : Sys :=
  ⟨fsInit bootRam, fun i => if i.val < 3 then userFdsReset i else devDesc .devNull, [slash]⟩

/-- The file "a" is there after an `open` that fails for want of a descriptor. -/
theorem full_table_creates :
    (openCall superUser fullSys (.plain (some nameA) oCREAT)).rc = -eMFILE ∧
    fileSlotOf fullSys.ram nameA.chars = none ∧
    fileSlotOf (openCall superUser fullSys (.plain (some nameA) oCREAT)).sys.ram
    nameA.chars = some 0 ∧
    ¬ Harmless fullSys (openCall superUser fullSys (.plain (some nameA) oCREAT)) := by
  have hrc : (openCall superUser fullSys (.plain (some nameA) oCREAT)).rc = -eMFILE := by decide +kernel
  have hnone : fileSlotOf fullSys.ram nameA.chars = none := by decide +kernel
  have hsome : fileSlotOf (openCall superUser fullSys (.plain (some nameA) oCREAT)).sys.ram
    nameA.chars = some 0 := by
    decide +kernel
  refine ⟨hrc, hnone, hsome, fun h => ?_⟩
  rw [h (by rw [hrc]; decide)] at hsome
  cases hsome

end

section

variable {ctx : Ctx} {s : Sys} {r r' : Ram} {e : Entry} {path old : Path} {i j : Fin 16}
  {new : Path × Except Nat Node}

inductive RenameCall
  | plain (old new : UserString)
  | relative (olddirfd : Int) (old : UserString) (newdirfd : Int) (new : UserString)

def renameCall (ctx : Ctx) (s : Sys) : RenameCall → Done
  | .plain old new => doRename ctx s old new
  | .relative olddirfd old newdirfd new => doRenameat ctx s olddirfd old newdirfd new

def spellings (s : Sys) : RenameCall → Except Nat Path × Except Nat Path
  | .plain old new => (plainPath old, plainPath new)
  | .relative olddirfd old newdirfd new => (atPath s olddirfd old 128, atPath s newdirfd new 128)

structure Names (ctx : Ctx) (s : Sys) (c : RenameCall) (old : Path) (node : Node)
    (new : Path × Except Nat Node) : Prop where
  source : ∃ buf, (spellings s c).1 = .ok buf ∧ vfsLookup ctx s buf = .ok (old, .ok node)
  target : ∃ buf, (spellings s c).2 = .ok buf ∧ vfsLookup ctx s buf = .ok new

structure Preserves (ctx : Ctx) (s : Sys) (c : RenameCall) : Prop where
  failed : Harmless s (renameCall ctx s c)
  itself : ∀ old node, Names ctx s c old node (old, .ok node) → (renameCall ctx s c).sys.ram = s.ram

/-- An empty directory gives way to one that cannot take its place. -/
structure Evicts (r : Ram) (old new : Path) : Prop where
  empty : fsDirIsEmpty r new = true
  refused : nameUnder new old = true ∨ overflows r old new = true

theorem overflows_iff {new : Path} : overflows r old new = true ↔
    ∃ e q, entryName r e = some q ∧ nameUnder q old = true ∧
    64 ≤ new.length + (q.drop old.length).length := by
  simp only [overflows, tooLong, Bool.or_eq_true, any_eq_true, mem_finRange, true_and,
    Bool.and_eq_true, decide_eq_true_eq]
  constructor
  · rintro (⟨i, hu, hlong⟩ | ⟨i, hu, hlong⟩)
    · exact ⟨.inr i, _, if_pos hu, hlong⟩
    · exact ⟨.inl i, _, if_pos hu, hlong⟩
  rintro ⟨e, q, he, hlong⟩
  cases e with
  | inl i =>
    obtain ⟨hu, rfl⟩ := entryName_file he
    exact .inr ⟨i, hu, hlong⟩
  | inr i =>
    obtain ⟨hu, rfl⟩ := entryName_dir he
    exact .inl ⟨i, hu, hlong⟩

theorem scanSlashes_some {k : Nat} {rest : Path} {l : Option Nat}
    (h : ∀ u v, rest = u ++ slash :: v → k + u.length ≠ 0 ∧ v ≠ [] ∧ v.head? ≠ some slash) :
    ∃ res, scanSlashes k rest l = some res := by
  induction rest generalizing k l with
  | nil => exact ⟨l, rfl⟩
  | cons c rest ih =>
    have hrest : ∀ u v, rest = u ++ slash :: v → k + 1 + u.length ≠ 0 ∧ v ≠ [] ∧ v.head? ≠ some slash :=
      fun u v hu => ⟨by omega, (h (c :: u) v (by rw [hu]; rfl)).2⟩
    rw [scanSlashes]
    split
    · rename_i hc
      obtain ⟨h0, hne, hhead⟩ := h [] rest (by rw [hc]; rfl)
      rw [if_neg (by simpa [hne, hhead] using h0)]
      exact ih hrest
    · exact ih hrest

theorem splitParent_some (h : WellFormed path) :
    ∃ par base, splitParent path = some (par, base) := by
  obtain ⟨hpos, hlen, hparts⟩ := h
  have haround : ∀ u v, path = u ++ slash :: v → u ≠ [] ∧ v ≠ [] ∧ v.head? ≠ some slash :=
    fun u v => around_sep hparts
  obtain ⟨res, hres⟩ := scanSlashes_some (k := 0) (l := none) fun u v hu => by
    have hne := length_pos_iff.mpr (haround u v hu).1
    exact ⟨by omega, (haround u v hu).2⟩
  have hok : ¬ (path = [] ∨ path.head? = some slash ∨ 64 ≤ path.length) := by
    rintro (rfl | hh | hl)
    · cases hpos
    · obtain ⟨t, rfl⟩ := head?_eq_some_iff.mp hh
      exact (haround [] t rfl).1 rfl
    · omega
  rw [splitParent, if_neg hok, hres]
  cases res with
  | none => exact ⟨_, _, rfl⟩
  | some n => exact ⟨_, _, rfl⟩

/-- The place of an entry that has been removed can be taken. -/
theorem vacated (h : Named r) (he : entryName r e = some path)
    (hr : entryName r' = update (entryName r) e none) :
    (∃ par base, splitParent path = some (par, base) ∧ dirExists r' par = true) ∧
    ∀ e', entryName r' e' ≠ some path := by
  refine ⟨?_, fun e' he' => ?_⟩
  · obtain ⟨par, base, hs⟩ := splitParent_some (h.formed e path he)
    refine ⟨par, base, hs, dirExists_iff.mpr ?_⟩
    obtain ⟨-, ⟨hroot, -⟩ | ⟨hpar, hparts⟩⟩ := splitParent_spec hs
    · exact .inl hroot
    obtain hroot | ⟨k, hdir, hk⟩ := h.rooted.parent e (parts slash path) (by rw [entryParts, he]; rfl)
    · exact absurd (hparts.trans hroot) (parts_ne_nil _ _)
    obtain ⟨q, hq, hqs⟩ := Option.map_eq_some_iff.mp hk
    obtain rfl := parts_injective (hqs.trans hparts.symm)
    cases k with
    | inl k => cases hdir
    | inr k =>
      refine .inr ⟨k, ?_⟩
      rw [hr, update_of_ne, hq]
      rintro rfl
      obtain rfl := Option.some.inj (hq.symm.trans he)
      have hlen := congrArg length hparts
      have hpos := length_pos_iff.mpr (parts_ne_nil slash q)
      rw [length_dropLast] at hlen
      omega
  · rw [hr] at he'
    by_cases hee : e' = e
    · rw [hee, update_self] at he'
      cases he'
    · rw [update_of_ne hee] at he'
      exact hee (h.distinct he' he)

theorem vfsNormalize_absolute {cwd buf : Path} (h : vfsNormalize cwd buf = .ok path) :
    ∃ rest, path = slash :: rest := by
  have hcut : ∀ t : Path, cutLast t <+: t := fun t => by
    have hsuf := (drop_suffix 1 _).trans (dropWhile_suffix (l := t.reverse) fun c => c != slash)
    simpa only [cutLast, reverse_reverse] using reverse_prefix.mpr hsuf
  have hkept := vfsNormalize_keeps (P := fun t => t = [] ∨ t.head? = some slash) (.inl rfl)
    (.inr rfl) .inr (fun t ht => ?_) (fun t c _ ht => ?_) h
  · exact head?_eq_some_iff.mp (hkept.1.resolve_left hkept.2)
  · obtain ⟨u, hu⟩ := hcut t
    cases hx : cutLast t with
    | nil => exact .inl rfl
    | cons x xs =>
      rw [hx] at hu
      rw [← hu] at ht
      exact .inr (ht.resolve_left (cons_ne_nil _ _))
  · obtain rfl | ht := ht
    · exact .inr rfl
    · obtain ⟨rest, rfl⟩ := head?_eq_some_iff.mp ht
      exact .inr rfl

theorem realDir_entry {buf : Path} (h : vfsLookup ctx s buf = .ok (path, .ok .realDir)) :
    path.drop 1 ≠ [] ∧ ∃ j, entryName s.ram (.inr j) = some (path.drop 1) := by
  obtain ⟨hroot, hl⟩ := resolve_ram (vfsLookup_ok h) rfl
  obtain ⟨rest, rfl⟩ := vfsNormalize_absolute (vfsLookup_path h)
  have hrest : rest ≠ [] := by
    rintro rfl
    exact hroot.1 rfl
  refine ⟨hrest, ?_⟩
  rw [lookupRam] at hl
  split at hl
  · exact (dirExists_iff.mp ‹_›).resolve_left hrest
  · split at hl <;> cases hl

theorem rmdir_entries (he : entryName r (.inr j) = some path) (hempty : fsDirIsEmpty r path = true)
    (hne : path ≠ []) : (fsRmdir r path).rc = 0 ∧ ∃ j, entryName r (.inr j) = some path ∧
      entryName (fsRmdir r path).ram = update (entryName r) (.inr j) none := by
  have hdir : dirExists r path = true := dirExists_iff.mpr (.inr ⟨j, he⟩)
  rw [fsRmdir, if_neg (by simp [hne, hdir, hempty])]
  cases hj : dirSlotOf r path with
  | none => exact absurd he (dirSlotOf_none hj j)
  | some j =>
    refine ⟨rfl, j, dirSlotOf_some hj, ?_⟩
    exact entryName_setDir r j _

theorem renameFileTo_moves {par base : Path} (hf : entryName s.ram (.inl i) = some old)
    (hs : splitParent path = some (par, base)) (hpar : dirExists s.ram par = true)
    (hfree : ∀ e, entryName s.ram e ≠ some path) : (renameFileTo ctx s i path).rc = 0 := by
  have hwf := (splitParent_spec hs).1
  have hdir : dirExists s.ram path = false := by
    rw [Bool.eq_false_iff, Ne, dirExists_iff, not_or]
    exact ⟨hwf.ne_nil, fun ⟨j, hj⟩ => hfree _ hj⟩
  obtain ⟨hlive, -⟩ := entryName_file hf
  have hused : isUsed (s.ram.tables.files i) = true ∧ (s.ram.tables.files i).deleted = 0#32 := by
    simpa [isLive] using hlive
  have hother : (finRange 16).any (fun j => decide (j ≠ i) && isLive (s.ram.tables.files j) &&
      decide (strAt (s.ram.tables.files j).name = path)) = false := by
    rw [any_eq_false]
    intro j _ hj
    simp only [Bool.and_eq_true, decide_eq_true_eq] at hj
    exact hfree (.inl j) (by rw [entryName, if_pos hj.1.2, hj.2])
  have hrc : (fsRename s.ram i.val path (ctx.clock 0)).rc = 0 := by
    simp only [fsRename, openSlot_used hused.1, hused.2, hs, hpar, hdir, hother]
    rfl
  have hp : fsParentIsDir s.ram path = true := by
    simp only [fsParentIsDir, hs, hpar]
  rw [renameFileTo, if_neg (Nat.not_le.mpr (Nat.lt_succ_of_le hwf.2.1)), hp, hdir,
    fromRam, if_pos hrc]
  rfl

theorem fsRenameDir_iff {par base new : Path}
    (hold : old = new ∨ ∃ j, entryName r' (.inr j) = some old) (hw : WellFormed old)
    (hs : splitParent new = some (par, base)) (hpar : dirExists r' par = true)
    (hfree : ∀ e, entryName r' e ≠ some new) (now : Fin 16 → BitVec 32) :
    (fsRenameDir r' old new now).rc = 0 ↔
    ¬ (nameUnder new old = true ∨ overflows r' old new = true) := by
  have hwn := (splitParent_spec hs).1
  have hdir : dirExists r' new = false := by
    rw [Bool.eq_false_iff, Ne, dirExists_iff, not_or]
    exact ⟨hwn.ne_nil, fun ⟨j, hj⟩ => hfree _ hj⟩
  have hfile : fileExists r' new = false := by
    cases hx : fileSlotOf r' new with
    | none => rw [fileExists, hx, Option.isSome_none, Bool.and_false]
    | some i => exact absurd (fileSlotOf_some hx) (hfree _)
  obtain rfl | ⟨j, hold⟩ := hold
  · rw [fsRenameDir, if_pos (by simp [hdir])]
    simp [failed, nameUnder_iff]
  have hok :
    ¬ (old = [] ∨ new = [] ∨ (!dirExists r' old) = true ∨ 64 ≤ old.length ∨ 64 ≤ new.length) := by
    have hd : dirExists r' old = true := dirExists_iff.mpr (.inr ⟨j, hold⟩)
    have h1 := hw.2.1
    have h2 := hwn.2.1
    simp only [hw.ne_nil, hwn.ne_nil, hd, Bool.not_true, Bool.false_eq_true, false_or]
    omega
  simp only [fsRenameDir, if_neg hok, hs, hpar, hfile, hdir]
  cases hu : nameUnder new old <;> cases ho : overflows r' old new <;> simp [failed]

theorem fromRam_harmless (s : Sys) (out : Outcome) (code : Nat) :
    Harmless s (fromRam s out code) := by
  rw [fromRam]
  split
  · exact fun hrc => by cases hrc
  · exact .errno s code

theorem overflows_removed {new : Path} (he : entryName r e = some new)
    (hr : entryName r' = update (entryName r) e none) :
    (nameUnder new old = true ∨ overflows r' old new = true) ↔
    (nameUnder new old = true ∨ overflows r old new = true) := by
  rw [overflows_iff, overflows_iff, hr]
  refine ⟨Or.imp_right ?_, ?_⟩
  · rintro ⟨e', q, hq, hlong⟩
    by_cases hee : e' = e
    · rw [hee, update_self] at hq
      cases hq
    · exact ⟨e', q, (update_of_ne hee _ _).symm.trans hq, hlong⟩
  · rintro (hu | ⟨e', q, hq, hlong⟩)
    · exact .inl hu
    by_cases hee : e' = e
    · cases he.symm.trans (hee ▸ hq)
      exact .inl hlong.1
    · exact .inr ⟨e', q, (update_of_ne hee _ _).trans hq, hlong⟩

/-- A directory onto a directory: unchanged after an error unless the target was removed. -/
theorem renameDirTo_harmless {new : Path} (h : Named s.ram)
    (hold : entryName s.ram (.inr i) = some old)
    (hnew : entryName s.ram (.inr j) = some (new.drop 1)) :
    Harmless s (renameDirTo ctx s old (new, .ok .realDir)) ↔ ¬ Evicts s.ram old (new.drop 1) := by
  have hne := (h.formed _ _ hnew).ne_nil
  simp only [renameDirTo, ne_eq, not_true_eq_false, if_false]
  cases hempty : fsDirIsEmpty s.ram (new.drop 1) with
  | false => exact ⟨fun _ hev => (by cases hempty.symm.trans hev.empty), fun _ _ => rfl⟩
  | true =>
    obtain ⟨hrc, j, hj, hgone⟩ := rmdir_entries hnew hempty hne
    obtain ⟨⟨par, base, hs, hpar⟩, hfree⟩ := vacated h hj hgone
    have hchanged : (fsRmdir s.ram (new.drop 1)).ram ≠ s.ram :=
      fun he => hfree (.inr j) (by rw [he]; exact hj)
    have hev : Evicts s.ram old (new.drop 1) ↔
        nameUnder (new.drop 1) old = true ∨
        overflows (fsRmdir s.ram (new.drop 1)).ram old (new.drop 1) = true :=
      ⟨fun hev => (overflows_removed hj hgone).mpr hev.refused,
        fun hr => ⟨hempty, (overflows_removed hj hgone).mp hr⟩⟩
    simp only [Bool.not_true, Bool.false_eq_true, if_false, hrc, not_true_eq_false]
    rw [hev]
    have hrow : old = new.drop 1 ∨
      ∃ i, entryName (fsRmdir s.ram (new.drop 1)).ram (.inr i) = some old := by
      by_cases hi : i = j
      · exact .inl (Option.some.inj (hold.symm.trans (hi ▸ hj)))
      · exact .inr ⟨i, by rw [hgone, update_of_ne (by simpa using hi), hold]⟩
    rw [← fsRenameDir_iff hrow (h.formed _ _ hold) hs hpar hfree fun i => ctx.clock i.val, fromRam]
    split
    · rename_i h0
      exact ⟨fun _ => h0, fun _ hlt => by cases hlt⟩
    · rename_i h0
      exact ⟨fun hh => absurd (hh (Int.negSucc_lt_zero _)) hchanged, fun hz => absurd hz h0⟩

theorem renameFile_harmless (h : Named s.ram) (hf : entryName s.ram (.inl i) = some old)
    (hnew : ∀ j, new.2 = .ok (.file j) → fileSlotOf s.ram (new.1.drop 1) = some j) :
    Harmless s (renameFile ctx s i new) := by
  obtain ⟨name, found⟩ := new
  have hto : Harmless s (renameFileTo ctx s i (name.drop 1)) := by
    rw [renameFileTo]
    repeat' split
    all_goals first | exact .errno s _ | exact fromRam_harmless s _ _
  cases found with
  | error => exact hto
  | ok node =>
    cases node with
    | file j =>
      simp only [renameFile]
      split
      · exact fun _ => rfl
      rename_i hne
      have hj := hnew j rfl
      have hgone := delete_entries hj (ctx.clock 1)
      obtain ⟨⟨par, base, hs, hpar⟩, hfree⟩ := vacated h (fileSlotOf_some hj) hgone
      intro hlt
      refine absurd ?_ (Int.ne_of_lt hlt)
      exact renameFileTo_moves ((delete_other hj hne).trans hf) hs hpar hfree
    | _ =>
      simp only [renameFile]
      split <;> exact .errno s _

theorem renameCall_eq {node : Node} (h : Names ctx s c old node new) : renameCall ctx s c =
    if node ≠ .realDir ∧ (∀ i, node ≠ .file i) then errno s ePERM
    else if new.2 = .error eNODEV then errno s eNODEV else renameNode ctx s old node new := by
  obtain ⟨⟨obuf, ho, hlo⟩, nbuf, hn, hln⟩ := h
  cases c with
  | plain | relative =>
    simp only [spellings] at ho hn
    simp only [renameCall, doRename, doRenameat, ho, hn, onPath, doRenameBufs, onNode, hlo, hln]

theorem renameCall_fails (h : ∀ old node new, ¬ Names ctx s c old node new) :
    Harmless s (renameCall ctx s c) := by
  have hall : ∀ obuf nbuf, (spellings s c).1 = .ok obuf → (spellings s c).2 = .ok nbuf →
      Harmless s (doRenameBufs ctx s obuf nbuf) := by
    intro obuf nbuf ho hn
    simp only [doRenameBufs, onNode]
    split
    · exact .errno s _
    · exact .errno s _
    split
    · exact .errno s _
    split
    · exact .errno s _
    · exact absurd ⟨⟨obuf, ho, ‹_›⟩, nbuf, hn, ‹_›⟩ (h _ _ _)
  cases c with
  | plain | relative =>
    simp only [renameCall, doRename, doRenameat, onPath]
    split
    · exact .errno s _
    split
    · exact .errno s _
    · exact hall _ _ ‹_› ‹_›

theorem rename_preserves_iff (ctx : Ctx) (s : Sys) (c : RenameCall) (h : Named s.ram) :
    Preserves ctx s c ↔ ∀ old new, Names ctx s c old .realDir (new, .ok .realDir) →
      ¬ Evicts s.ram (old.drop 1) (new.drop 1) := by
  have hdirs : ∀ old new, Names ctx s c old .realDir (new, .ok .realDir) →
      (Harmless s (renameDirTo ctx s (old.drop 1) (new, .ok .realDir)) ↔
      ¬ Evicts s.ram (old.drop 1) (new.drop 1)) := by
    rintro old new ⟨⟨obuf, -, ho⟩, nbuf, -, hn⟩
    obtain ⟨-, i, hi⟩ := realDir_entry ho
    obtain ⟨-, j, hj⟩ := realDir_entry hn
    exact renameDirTo_harmless h hi hj
  constructor
  · intro hp old new hn
    obtain ⟨nbuf, -, hl⟩ := hn.target
    have heq : renameCall ctx s c = renameDirTo ctx s (old.drop 1) (new, .ok .realDir) := by
      rw [renameCall_eq hn]
      exact if_neg (realDir_entry hl).1
    exact (hdirs old new hn).mp (heq ▸ hp.failed)
  · intro hno
    refine ⟨?_, fun old node hn => ?_⟩
    · by_cases hex : ∃ old node new, Names ctx s c old node new
      · obtain ⟨old, node, new, hn⟩ := hex
        rw [renameCall_eq hn]
        split
        · exact .errno s _
        rename_i hkind
        split
        · exact .errno s _
        cases node with
        | file i =>
          obtain ⟨⟨obuf, -, ho⟩, nbuf, -, hl⟩ := hn
          simp only [renameNode]
          split
          · exact .errno s _
          · exact renameFile_harmless h (fileSlotOf_some (resolve_file (vfsLookup_ok ho)).2)
              (fun j hj => (resolve_file ((vfsLookup_ok hl).trans hj)).2)
        | realDir =>
          simp only [renameNode]
          split
          · exact .errno s _
          obtain ⟨new, _ | node⟩ := new
          · exact fromRam_harmless s _ _
          by_cases hf : node = .realDir
          · subst hf
            exact (hdirs old new hn).mpr (hno old new hn)
          · simp only [renameDirTo, ne_eq, hf, not_false_eq_true, if_true]
            exact .errno s _
        | _ => exact absurd (by simp) hkind
      · exact renameCall_fails fun old node new hn => hex ⟨old, node, new, hn⟩
    · rw [renameCall_eq hn]
      split
      · rfl
      rename_i hkind
      rw [if_neg (by simp)]
      cases node with
      | file i =>
        simp only [renameNode, renameFile, if_true]
        split <;> rfl
      | realDir =>
        have hfull : fsDirIsEmpty s.ram (old.drop 1) = false := by
          rw [Bool.eq_false_iff]
          exact fun he => hno old old hn ⟨he, .inl (nameUnder_iff.mpr prefix_rfl)⟩
        simp only [renameNode, renameDirTo, hfull]
        split <;> rfl
      | _ => exact absurd (by simp) hkind

def holdsA : Sys := { fullSys with ram := (fsMkdir fullSys.ram nameA.chars).ram }

def nameC : CString := ⟨[99#8], by decide⟩

/-- "a" holds a file and "c" is another empty directory. -/
def holdsTwo : Sys :=
  { holdsA with ram := (fsMkdir (fsCreate holdsA.ram [97#8, 47#8, 98#8] 5#32).ram nameC.chars).ram }

theorem rename_preserves_full :
    (renameCall superUser holdsTwo (.plain (some nameC) (some nameA))).rc = -eNOTEMPTY ∧
    Preserves superUser holdsTwo (.plain (some nameC) (some nameA)) := by
  have hn : Named holdsTwo.ram :=
    call_named (call_named (call_named (start_named bootRam) (.mkdir nameA))
      (.create ⟨_, by decide⟩ 5#32)) (.mkdir nameC)
  refine ⟨by decide +kernel, (rename_preserves_iff superUser holdsTwo _ hn).mpr
    fun old new h hev => ?_⟩
  obtain ⟨buf, hb, hl⟩ := h.target
  cases hb
  cases hl.symm.trans (show vfsLookup superUser holdsTwo nameA.chars = .ok
    (slash :: nameA.chars, .ok .realDir) from rfl)
  exact absurd hev.empty (by decide +kernel)

/-- The empty directory "a" is gone after it has been renamed to "a". -/
theorem rename_itself_removes :
    (renameCall superUser holdsA (.plain (some nameA) (some nameA))).rc = -eINVAL ∧
    dirExists holdsA.ram nameA.chars = true ∧
    dirExists (renameCall superUser holdsA (.plain (some nameA) (some nameA))).sys.ram
    nameA.chars = false ∧
    ¬ Preserves superUser holdsA (.plain (some nameA) (some nameA)) := by
  have hrc : (renameCall superUser holdsA (.plain (some nameA) (some nameA))).rc = -eINVAL := by
    decide +kernel
  have hthere : dirExists holdsA.ram nameA.chars = true := by decide +kernel
  have hgone : dirExists (renameCall superUser holdsA (.plain (some nameA) (some nameA))).sys.ram
    nameA.chars = false := by
    decide +kernel
  refine ⟨hrc, hthere, hgone, fun h => ?_⟩
  rw [h.failed (by rw [hrc]; decide)] at hgone
  cases hgone

end

end MuOS.Syscall.Failures
