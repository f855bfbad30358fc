import MuOS.Fs.MuFs

namespace MuOS.Fs.Crash

open Function Lib Memory Patches Ata Metadata MuFs List

/-- The drive is there and holds the metadata area. -/
structure Fits (dev : Drive) : Prop where
  present : dev.present = true
  large : 7936 ≤ dev.sectors * 512 % 4294967296

/-- The disk holds a valid image and no commit is under way. -/
structure Committed (d : Mem) (t : Tables) : Prop where
  super : validSuper d = true
  idle : rd32 d (9 * 512) ≠ jMagic
  files : loadFiles (fun a => d (2 * 512 + a)) = t.files
  dirs : loadDirs (fun a => d (6 * 512 + a)) = t.dirs

def crash (dev : Drive) (s : State) (pads : Pads) (k : Nat) (d : Mem) : Mem :=
  applyAll ((persistMeta dev s pads).take k) d

/-- Wherever the commit stops, mounting finds old or new tables. -/
def commitAtomic (dev : Drive) (d : Mem) (old : Tables) (s : State) (pads : Pads) : Prop :=
  ∀ k partitioned s',
    (fsPersistMount dev partitioned s' (crash dev s pads k d)).1.persistActive = true ∧
    ((fsPersistMount dev partitioned s' (crash dev s pads k d)).1.tables = old ∨
      (fsPersistMount dev partitioned s' (crash dev s pads k d)).1.tables = s.tables)

/-- The last file record in the journal: the directory table starts 36 bytes in. -/
def overlaid (f : FileMeta) (d : DirMeta) : FileMeta :=
  loadFile (fun k => if k < 36 then fileRecord f 0#16 k else nameBytes d.name (k - 36))

def replayed (t : Tables) : Tables := ⟨update t.files 15 (overlaid (t.files 15) (t.dirs 0)), t.dirs⟩

variable {dev : Drive} {d : Mem} {old : Tables} {s : State} {pads : Pads} {a j : Nat}
  {F D : Mem} {x : Nat}

theorem Fits.inRange (h : Fits dev) {offset count : Nat} (hle : offset + count ≤ 7936) :
    inRange dev offset count = true := by
  have hl := h.large
  simp only [Ata.inRange, h.present, Bool.true_and, Bool.and_eq_true, decide_eq_true_eq]
  omega

theorem journal_word (d : Mem) :
    rd32 (patch blank 0 32 (fun i => d (9 * 512 + i))) 0 = rd32 d (9 * 512) :=
  rd32_patch (q := 0) (by omega)

theorem replayJournal_idle (hf : Fits dev) (hi : rd32 d (9 * 512) ≠ jMagic) :
    replayJournal dev d = d := by
  rw [replayJournal, ataReadBytes_eq (hf.inRange (by omega))]
  simp only [journal_word, hi, if_false]

theorem validSuper_congr {b b' : Mem} (h : ∀ x, x < 20 → b' x = b x) :
    validSuper b' = validSuper b := by
  have hw : ∀ p, p + 4 ≤ 20 → rd32 b' p = rd32 b p :=
    fun p hp => rd32_congr fun x _ _ => h x (by omega)
  simp only [validSuper, hw 0 (by omega), hw 4 (by omega), hw 8 (by omega), hw 12 (by omega),
    hw 16 (by omega)]

section

variable (hf : Fits dev)
include hf

theorem load_idle (hs : validSuper d = true) (hi : rd32 d (9 * 512) ≠ jMagic) (partitioned : Bool)
    (s' : State) : fsPersistMount dev partitioned s' d =
      (⟨⟨loadFiles (fun a => d (2 * 512 + a)), loadDirs (fun a => d (6 * 512 + a))⟩, true,
      rd32 d 20⟩, d) := by
  have hr := replayJournal_idle hf hi
  have hv : validSuper (patch blank 0 52 fun i => d (0 + i)) = true := by
    rw [← hs]
    apply validSuper_congr
    intro x hx
    rw [patch_inside (by omega), Nat.zero_add, Nat.sub_zero]
  have hg : rd32 (patch blank 0 52 fun i => d (0 + i)) 20 = rd32 d 20 := by
    have hp := rd32_patch (m := blank) (p := 0) (n := 52) (b := fun i => d (0 + i)) (q := 20) (by omega)
    rw [hp]
    exact rd32_congr fun x _ _ => by rw [Nat.zero_add]
  have hfile : loadFiles (patch blank 0 1600 fun i => d (2 * 512 + i)) = loadFiles
    (fun a => d (2 * 512 + a)) :=
    loadFiles_congr fun k hk => patch_inside (by omega)
  have hdir : loadDirs (patch blank 0 1280 fun i => d (6 * 512 + i)) = loadDirs
    (fun a => d (6 * 512 + a)) :=
    loadDirs_congr fun k hk => patch_inside (by omega)
  simp only [fsPersistMount, hf.present, if_true, hr,
    ataReadBytes_eq (hf.inRange (show 0 + 52 ≤ 7936 by omega)), hv, loadTables,
    ataReadBytes_eq (hf.inRange (show 2 * 512 + 1600 ≤ 7936 by omega)),
    ataReadBytes_eq (hf.inRange (show 6 * 512 + 1280 ≤ 7936 by omega)), hg, hfile, hdir]

theorem replayCopies_eq (d : Mem) :
    replayCopies dev d = patch (patch d (2 * 512) 1600 (patch blank 0 1600 (fun i => d (10 * 512 + i))))
      (6 * 512) 1280 (patch blank 0 1280 (fun i => d (13 * 512 + i))) := by
  simp only [replayCopies, ataReadBytes_eq (hf.inRange (show 10 * 512 + 1600 ≤ 7936 by omega)),
    ataReadBytes_eq (hf.inRange (show 13 * 512 + 1280 ≤ 7936 by omega)), tableWrites,
    applyAll_append]
  rw [ataWriteBytes_all (hf.inRange (by omega)), ataWriteBytes_all (hf.inRange (by omega))]

theorem replayJournal_hit (hi : rd32 d (9 * 512) = jMagic) :
    replayJournal dev d = patch (replayCopies dev d) (9 * 512) 32
      (wr32 (patch blank 0 32 (fun i => d (9 * 512 + i))) 0 0#32) := by
  rw [replayJournal, ataReadBytes_eq (hf.inRange (by omega))]
  simp only [journal_word, hi, if_true]
  rw [ataWriteBytes_all (hf.inRange (by omega))]

theorem replay_idle (d : Mem) : rd32 (replayJournal dev d) (9 * 512) ≠ jMagic := by
  by_cases hi : rd32 d (9 * 512) = jMagic
  · rw [replayJournal_hit hf hi]
    have hp := rd32_patch (m := replayCopies dev d) (p := 9 * 512) (n := 32)
      (b := wr32 (patch blank 0 32 fun i => d (9 * 512 + i)) 0 0#32) (q := 0) (by omega)
    rw [hp, rd32_wr32_self]
    decide
  · rwa [replayJournal_idle hf hi]

theorem mount_replayed (partitioned : Bool) (s' : State) (d : Mem) :
    fsPersistMount dev partitioned s' d = fsPersistMount dev partitioned s'
    (replayJournal dev d) := by
  have hsame := replayJournal_idle hf (replay_idle hf d)
  simp only [fsPersistMount, hf.present, if_true, hsame]

theorem load_replay (hs : validSuper d = true) (hi : rd32 d (9 * 512) = jMagic) (partitioned : Bool)
    (s' : State) : (fsPersistMount dev partitioned s' d).1 =
      ⟨⟨loadFiles (fun a => d (10 * 512 + a)), loadDirs (fun a => d (13 * 512 + a))⟩, true,
      rd32 d 20⟩ := by
  have hr := replayCopies_eq hf d
  have hrep := replayJournal_hit hf hi
  have hword := replay_idle hf d
  generalize wr32 (patch blank 0 32 fun i => d (9 * 512 + i)) 0 0#32 = jh at hrep
  generalize hd' : patch (replayCopies dev d) (9 * 512) 32 jh = d' at hrep
  rw [hrep] at hword
  have hlow : ∀ x, x < 1024 → d' x = d x := by
    intro x hx
    rw [← hd', patch_outside (by omega), hr, patch_outside (by omega), patch_outside (by omega)]
  have hsuper : validSuper d' = true := by
    rw [← hs]
    exact validSuper_congr fun x hx => hlow x (by omega)
  have hfile : loadFiles (fun a => d' (2 * 512 + a)) = loadFiles (fun a => d (10 * 512 + a)) := by
    apply loadFiles_congr
    intro k hk
    rw [← hd', patch_outside (by omega), hr, patch_outside (by omega), patch_inside (by omega),
      Nat.add_sub_cancel_left, patch_inside (by omega), Nat.sub_zero]
  have hdir : loadDirs (fun a => d' (6 * 512 + a)) = loadDirs (fun a => d (13 * 512 + a)) := by
    apply loadDirs_congr
    intro k hk
    rw [← hd', patch_outside (by omega), hr, patch_inside (by omega),
      Nat.add_sub_cancel_left, patch_inside (by omega), Nat.sub_zero]
  have hgen : rd32 d' 20 = rd32 d 20 := rd32_congr fun x _ _ => hlow x (by omega)
  rw [mount_replayed hf, hrep, load_idle hf hsuper hword partitioned s', hfile, hdir, hgen]

end

theorem loadFiles_journal (t : Tables) (pads : Pads) :
    loadFiles (fun a => if a < 1536 then fileTable t pads.file a
      else dirTable t pads.dir (a - 1536)) = (replayed t).files := by
  funext i
  by_cases hi : i = 15
  · subst hi
    apply loadFile_congr
    intro k hk
    by_cases h36 : k < 36
    · have ha : 100 * (15 : Fin 16).val + k < 1536 := by
        omega
      simp only [ha, if_true, h36]
      rw [fileTable_at t pads.file 15 (by omega), fileRecord_name _ _ (by omega),
        fileRecord_name _ _ (by omega)]
    · have ha : ¬ 100 * (15 : Fin 16).val + k < 1536 := by
        omega
      have hk' : 100 * (15 : Fin 16).val + k - 1536 = 80 * (0 : Fin 16).val + (k - 36) := by
        omega
      simp only [ha, if_false, h36, hk']
      rw [dirTable_at t pads.dir 0 (by omega), dirRecord_name _ _ (by omega)]
  · have hlt : i.val < 15 := by
      have h1 := i.isLt
      have h2 : i.val ≠ 15 := fun h => hi (Fin.ext h)
      omega
    simp only [replayed, update_of_ne hi, loadFiles]
    rw [← loadFile_fileRecord (t.files i) (pads.file i)]
    apply loadFile_congr
    intro k hk
    have ha : 100 * i.val + k < 1536 := by omega
    simp only [ha, if_true]
    exact fileTable_at t pads.file i (by omega)

theorem headerWrite_length (hf : Fits dev) (buf : Mem) :
    (ataWriteBytes dev (9 * 512) buf 32).length = 1 := by
  rw [ataWriteBytes, if_pos (hf.inRange (by omega)), length_map]
  decide

theorem take_single {α : Type} {l : List α} (hl : l.length = 1) (r : List α) (k : Nat) :
    (l ++ r).take (k + 1) = l ++ r.take k := by
  obtain ⟨x, rfl⟩ := length_eq_one_iff.mp hl
  rfl

theorem crash_cases (hf : Fits dev) (ha : s.persistActive = true) (pads : Pads) (k : Nat)
    (d : Mem) :
    crash dev s pads k d = applyAll
        ((journalCopies dev (fileTable s.tables pads.file) (dirTable s.tables pads.dir)).take k) d ∨
      (∃ j, crash dev s pads k d =
        applyAll ((tableWrites dev (fileTable s.tables pads.file) (dirTable s.tables pads.dir)).take j)
          (patch (applyAll
            (journalCopies dev (fileTable s.tables pads.file) (dirTable s.tables pads.dir)) d)
            (9 * 512) 32 (journalHeader jMagic s.persistGen))) ∨
      crash dev s pads k d = applyAll (persistMeta dev s pads) d := by
  have hH := headerWrite_length hf (journalHeader jMagic s.persistGen)
  have hC := headerWrite_length hf (journalHeader 0#32 s.persistGen)
  simp only [crash, persistMeta, ha, if_true]
  generalize journalCopies dev (fileTable s.tables pads.file) (dirTable s.tables pads.dir) = A
  generalize tableWrites dev (fileTable s.tables pads.file) (dirTable s.tables pads.dir) = B
  by_cases hk : k ≤ A.length
  · exact .inl (by rw [take_append_of_le_length hk])
  obtain ⟨j, rfl⟩ : ∃ j, k = A.length + (j + 1) := ⟨k - A.length - 1, by omega⟩
  rw [take_length_add_append, take_single hH]
  by_cases hj : j ≤ B.length
  · refine .inr (.inl ⟨j, ?_⟩)
    rw [take_append_of_le_length hj, applyAll_append, applyAll_append,
      ataWriteBytes_all (hf.inRange (by omega))]
  have hlen : j - B.length = (j - B.length - 1) + 1 := by omega
  refine .inr (.inr ?_)
  rw [take_of_length_le]
  simp only [length_append, hC]
  omega

theorem journal_keeps (ha : a < 10 * 512) : ∀ w ∈ (journalCopies dev F D).take j, Keeps w a := by
  intro w hw
  cases mem_append.mp (mem_of_mem_take hw) with
  | inl h => exact ataWriteBytes_keeps (.inl ha) w h
  | inr h => exact ataWriteBytes_keeps (.inl (by omega)) w h

theorem tables_keep (ha : a < 2 * 512 ∨ 9 * 512 ≤ a) :
    ∀ w ∈ (tableWrites dev F D).take j, Keeps w a := by
  intro w hw
  cases mem_append.mp (mem_of_mem_take hw) with
  | inl h | inr h => exact ataWriteBytes_keeps (by omega) w h

theorem journalCopies_all (hf : Fits dev) (F D d : Mem) :
    applyAll (journalCopies dev F D) d = patch (patch d (10 * 512) 1600 F) (13 * 512) 1280 D := by
  rw [journalCopies, applyAll_append, ataWriteBytes_all (hf.inRange (by omega)),
    ataWriteBytes_all (hf.inRange (by omega))]

theorem tableWrites_all (hf : Fits dev) (F D d : Mem) :
    applyAll (tableWrites dev F D) d = patch (patch d (2 * 512) 1600 F) (6 * 512) 1280 D := by
  rw [tableWrites, applyAll_append, ataWriteBytes_all (hf.inRange (by omega)),
    ataWriteBytes_all (hf.inRange (by omega))]

theorem mount_before (hf : Fits dev) (hc : Committed d old) (F D : Mem) (k : Nat)
    (partitioned : Bool) (s' : State) :
    (fsPersistMount dev partitioned s' (applyAll ((journalCopies dev F D).take k) d)).1 = ⟨old,
    true, rd32 d 20⟩ := by
  have hkeep : ∀ x, x < 10 * 512 → applyAll ((journalCopies dev F D).take k) d x = d x :=
    fun x hx => applyAll_keeps (journal_keeps hx) d
  generalize applyAll ((journalCopies dev F D).take k) d = d' at hkeep
  have hsuper : validSuper d' = true := by
    rw [← hc.super]
    exact validSuper_congr fun x hx => hkeep x (by omega)
  have hword : rd32 d' (9 * 512) = rd32 d (9 * 512) := rd32_congr fun x _ _ => hkeep x (by omega)
  rw [load_idle hf hsuper (by rw [hword]; exact hc.idle)]
  have hfile : loadFiles (fun a => d' (2 * 512 + a)) = old.files := by
    rw [← hc.files]
    exact loadFiles_congr fun x hx => hkeep _ (by omega)
  have hdir : loadDirs (fun a => d' (6 * 512 + a)) = old.dirs := by
    rw [← hc.dirs]
    exact loadDirs_congr fun x hx => hkeep _ (by omega)
  have hgen : rd32 d' 20 = rd32 d 20 := rd32_congr fun x _ _ => hkeep x (by omega)
  rw [hfile, hdir, hgen]

theorem journalHeader_word (mark gen : BitVec 32) : rd32 (journalHeader mark gen) 0 = mark := by
  rw [journalHeader, rd32_wr32_of_apart _ _ (by omega), rd32_wr32_self]

theorem mount_during (hf : Fits dev) (hc : Committed d old) (t : Tables) (pads : Pads)
    (gen : BitVec 32)
    (j : Nat) (partitioned : Bool) (s' : State) : (fsPersistMount dev partitioned s'
      (applyAll ((tableWrites dev (fileTable t pads.file) (dirTable t pads.dir)).take j)
        (patch (applyAll (journalCopies dev (fileTable t pads.file) (dirTable t pads.dir)) d)
          (9 * 512) 32 (journalHeader jMagic gen)))).1 = ⟨replayed t, true, rd32 d 20⟩ := by
  rw [journalCopies_all hf]
  generalize hd' : patch (patch (patch d (10 * 512) 1600 (fileTable t pads.file)) (13 * 512) 1280
    (dirTable t pads.dir)) (9 * 512) 32 (journalHeader jMagic gen) = d'
  have hkeep : ∀ x, x < 2 * 512 ∨ 9 * 512 ≤ x →
      applyAll ((tableWrites dev (fileTable t pads.file) (dirTable t pads.dir)).take j) d' x = d' x :=
    fun x hx => applyAll_keeps (tables_keep hx) d'
  generalize applyAll ((tableWrites dev (fileTable t pads.file) (dirTable t pads.dir)).take j) d' =
    d'' at hkeep
  have hlow : ∀ x, x < 1024 → d'' x = d x := by
    intro x hx
    rw [hkeep x (by omega), ← hd', patch_outside (by omega), patch_outside (by omega),
      patch_outside (by omega)]
  have hsuper : validSuper d'' = true := by
    rw [← hc.super]
    exact validSuper_congr fun x hx => hlow x (by omega)
  have hword : rd32 d'' (9 * 512) = jMagic := by
    rw [rd32_congr fun x _ _ => hkeep x (by omega), ← hd', ← Nat.add_zero (9 * 512),
      rd32_patch (by omega), journalHeader_word]
  rw [load_replay hf hsuper hword]
  have hfile : loadFiles (fun a => d'' (10 * 512 + a)) = (replayed t).files := by
    rw [← loadFiles_journal t pads]
    apply loadFiles_congr
    intro a ha
    rw [hkeep _ (by omega), ← hd', patch_outside (by omega)]
    by_cases hlt : a < 1536
    · rw [patch_outside (by omega), patch_inside (by omega), if_pos hlt, Nat.add_sub_cancel_left]
    have he : 10 * 512 + a - 13 * 512 = a - 1536 := by omega
    rw [patch_inside (by omega), if_neg hlt, he]
  have hdir : loadDirs (fun a => d'' (13 * 512 + a)) = (replayed t).dirs := by
    rw [replayed, ← loadDirs_dirTable t pads.dir]
    apply loadDirs_congr
    intro a ha
    rw [hkeep _ (by omega), ← hd', patch_outside (by omega), patch_inside (by omega),
      Nat.add_sub_cancel_left]
  have hgen : rd32 d'' 20 = rd32 d 20 := rd32_congr fun x _ _ => hlow x (by omega)
  rw [hfile, hdir, hgen]

theorem Committed.congr {d' : Mem} (hc : Committed d old) (h : ∀ a, a < 7936 → d' a = d a) :
    Committed d' old where
  super := by
    rw [← hc.super]
    exact validSuper_congr fun x hx => h x (by omega)
  idle := by
    rw [rd32_congr fun x _ _ => h x (by omega)]
    exact hc.idle
  files := by
    rw [← hc.files]
    exact loadFiles_congr fun k hk => h _ (by omega)
  dirs := by
    rw [← hc.dirs]
    exact loadDirs_congr fun k hk => h _ (by omega)

theorem Committed.mount (hf : Fits dev) (hc : Committed d old) (partitioned : Bool) (s' : State) :
    fsPersistMount dev partitioned s' d = (⟨old, true, rd32 d 20⟩, d) := by
  rw [load_idle hf hc.super hc.idle, hc.files, hc.dirs]

theorem persistMeta_all (hf : Fits dev) (ha : s.persistActive = true) :
    applyAll (persistMeta dev s pads) d = patch (patch (patch (patch (patch (patch d
      (10 * 512) 1600 (fileTable s.tables pads.file)) (13 * 512) 1280 (dirTable s.tables pads.dir))
      (9 * 512) 32 (journalHeader jMagic s.persistGen)) (2 * 512) 1600 (fileTable s.tables pads.file))
      (6 * 512) 1280 (dirTable s.tables pads.dir)) (9 * 512) 32 (journalHeader 0#32 s.persistGen) := by
  simp only [persistMeta, ha, if_true, applyAll_append]
  rw [journalCopies_all hf, ataWriteBytes_all (hf.inRange (by omega)), tableWrites_all hf,
    ataWriteBytes_all (hf.inRange (by omega))]

theorem persistMeta_keeps (hf : Fits dev) (ha : s.persistActive = true) (hx : x < 1024 ∨ 7936 ≤ x) :
    applyAll (persistMeta dev s pads) d x = d x := by
  rw [persistMeta_all hf ha, patch_outside (by omega), patch_outside (by omega), patch_outside
    (by omega), patch_outside (by omega), patch_outside (by omega), patch_outside (by omega)]

theorem committed_after (s : State) (pads : Pads) (hf : Fits dev) (hs : validSuper d = true)
    (ha : s.persistActive = true) : Committed (applyAll (persistMeta dev s pads) d) s.tables where
  super := by
    rw [← hs]
    exact validSuper_congr fun x hx => persistMeta_keeps hf ha (by omega)
  idle := by
    rw [persistMeta_all hf ha, ← Nat.add_zero (9 * 512), rd32_patch (by omega), journalHeader_word]
    decide
  files := by
    rw [← loadFiles_fileTable s.tables pads.file]
    apply loadFiles_congr
    intro a hk
    rw [persistMeta_all hf ha, patch_outside (by omega), patch_outside (by omega),
      patch_inside (by omega), Nat.add_sub_cancel_left]
  dirs := by
    rw [← loadDirs_dirTable s.tables pads.dir]
    apply loadDirs_congr
    intro a hk
    rw [persistMeta_all hf ha, patch_outside (by omega), patch_inside (by omega), Nat.add_sub_cancel_left]

section

variable (hf : Fits dev) (hc : Committed d old) (ha : s.persistActive = true)
include hf hc ha

theorem mount_after (partitioned : Bool)
    (s' : State) : (fsPersistMount dev partitioned s' (applyAll (persistMeta dev s pads) d)).1 =
      ⟨s.tables, true, rd32 d 20⟩ := by
  rw [(committed_after s pads hf hc.super ha).mount hf]
  have hgen : rd32 (applyAll (persistMeta dev s pads) d) 20 = rd32 d 20 :=
    rd32_congr fun x _ _ => persistMeta_keeps hf ha (by omega)
  rw [hgen]

theorem mount_at_header (pads : Pads) (partitioned : Bool) (s' : State) :
    ∃ k, (fsPersistMount dev partitioned s' (crash dev s pads k d)).1 = ⟨replayed s.tables, true,
    rd32 d 20⟩ := by
  refine ⟨(journalCopies dev (fileTable s.tables pads.file)
    (dirTable s.tables pads.dir)).length + 1, ?_⟩
  have hm := mount_during hf hc s.tables pads s.persistGen 0 partitioned s'
  simp only [crash, persistMeta, ha, if_true]
  rw [take_length_add_append, take_single (headerWrite_length hf _), applyAll_append, take_zero,
    append_nil, ataWriteBytes_all (hf.inRange (by omega))]
  exact hm

end

/-- Commits are atomic exactly when the overlap of the journal copies does no
harm: the replayed tables are the new ones, or happen to be the old ones. -/
theorem commit_atomic_iff (hf : Fits dev) (hc : Committed d old) (ha : s.persistActive = true)
    (pads : Pads) :
    commitAtomic dev d old s pads ↔ (replayed s.tables = old ∨ replayed s.tables = s.tables) := by
  constructor
  · intro hat
    obtain ⟨k, hk⟩ := mount_at_header hf hc ha pads false s
    have hr := (hat k false s).2
    rwa [hk] at hr
  · intro hr k partitioned s'
    obtain he | ⟨j, he⟩ | he := crash_cases hf ha pads k d
    · rw [he, mount_before hf hc]
      exact ⟨rfl, .inl rfl⟩
    · rw [he, mount_during hf hc]
      exact ⟨rfl, hr⟩
    · rw [he, mount_after hf hc ha]
      exact ⟨rfl, .inr rfl⟩

def smallDrive : Drive := ⟨true, 4096⟩

theorem smallDrive_fits : Fits smallDrive := ⟨rfl, by decide⟩

def freshDisk : Mem := superblock 1#32

theorem superblock_blank (hx : 24 ≤ x) : superblock 1#32 x = 0#8 := by
  simp (disch := omega) only [superblock, wr32_of_apart]
  rfl

theorem loadFile_blank : loadFile blank = emptyFile := by
  ext1
  · funext i
    exact ite_self _
  all_goals decide

theorem loadDir_blank : loadDir blank = emptyDir := by
  ext1
  · funext i
    exact ite_self _
  all_goals decide

theorem freshDisk_committed : Committed freshDisk emptyTables := by
  refine ⟨by decide, by decide, ?_, ?_⟩
  · funext i
    have hb : loadFile (fun k => freshDisk (2 * 512 + (100 * i.val + k))) = loadFile blank :=
      loadFile_congr fun k hk => superblock_blank (by omega)
    exact hb.trans loadFile_blank
  · funext i
    have hb : loadDir (fun k => freshDisk (6 * 512 + (80 * i.val + k))) = loadDir blank :=
      loadDir_congr fun k hk => superblock_blank (by omega)
    exact hb.trans loadDir_blank

def fileA : FileMeta :=
  ⟨fun i => if i = 0 then 0x61#8 else 0#8, 0#32, 1#32, 0#32, 0#32, 0#32, 0#32, 0#32, 0#32,
    0x1A4#16, by decide,
    by decide⟩

def withFile (slot : Fin 16) : State :=
  ⟨⟨update emptyTables.files slot fileA, emptyTables.dirs⟩, true, 1#32⟩

def zeroPads : Pads := ⟨fun _ => 0#16, fun _ => 0#16⟩

theorem overlaid_empty : overlaid emptyFile emptyDir = emptyFile := by
  have hb : ∀ k, k < 98 →
      (if k < 36 then fileRecord emptyFile 0#16 k else nameBytes emptyDir.name (k - 36)) = blank k := by
    decide
  exact (loadFile_congr hb).trans loadFile_blank

theorem commit_atomic_first_slot :
    commitAtomic smallDrive freshDisk emptyTables (withFile 0) zeroPads := by
  apply (commit_atomic_iff smallDrive_fits freshDisk_committed rfl zeroPads).mpr
  refine .inr (Tables.ext ?_ rfl)
  funext i
  by_cases hi : i = 15
  · subst hi
    exact overlaid_empty
  · simp only [replayed, update_of_ne hi]

theorem overlaid_fileA_used : (overlaid fileA emptyDir).used = 0#32 ∧
    (overlaid fileA emptyDir).name 0 = 0x61#8 := by
  decide

/-- Creating a file in the last slot: a crash after the header is written
mounts a table in which the file is unused but still named. -/
theorem commit_last_slot_torn : ¬ commitAtomic smallDrive freshDisk emptyTables
    (withFile 15) zeroPads := by
  intro hat
  obtain ⟨k, hk⟩ := mount_at_header smallDrive_fits freshDisk_committed
    (s := withFile 15) rfl zeroPads false (withFile 15)
  have hr := (hat k false (withFile 15)).2
  rw [hk] at hr
  have hrec : (replayed (withFile 15).tables).files 15 = overlaid fileA emptyDir := by
    rfl
  obtain ⟨hused, hname⟩ := overlaid_fileA_used
  cases hr with
  | inl h =>
    have hn := congrArg (fun t => (t.files 15).name 0) h
    cases hn
  | inr h =>
    have hu := congrArg (fun t => (t.files 15).used) h
    cases hu

end MuOS.Fs.Crash
