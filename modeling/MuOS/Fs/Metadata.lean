import MuOS.Lib.Memory

namespace MuOS.Fs.Metadata

open Lib.Memory

variable {b b' : Mem} {k : Nat}

/-- A file slot's metadata, name terminated, size within `FS_MAX_SIZE`. -/
@[ext] structure FileMeta where
  name : Fin 64 → BitVec 8
  size : BitVec 32
  used : BitVec 32
  deleted : BitVec 32
  atime : BitVec 32
  mtime : BitVec 32
  ctime : BitVec 32
  uid : BitVec 32
  gid : BitVec 32
  mode : BitVec 16
  name_last : name 63 = 0#8
  size_le : size.toNat ≤ 65536

theorem zero_size_le : (0#32).toNat ≤ 65536 := by decide

@[ext] structure DirMeta where
  name : Fin 64 → BitVec 8
  used : BitVec 32
  uid : BitVec 32
  gid : BitVec 32
  mode : BitVec 16
  name_last : name 63 = 0#8

@[ext] structure Tables where
  files : Fin 16 → FileMeta
  dirs : Fin 16 → DirMeta

def nameBytes (n : Fin 64 → BitVec 8) : Mem := fun k => if h : k < 64 then n ⟨k, h⟩ else 0#8

/-- The 100 bytes of a `mufs_file_meta_t`. -/
def fileRecord (f : FileMeta) (pad : BitVec 16) : Mem :=
  wr16 (wr16 (wr32 (wr32 (wr32 (wr32 (wr32 (wr32 (wr32 (wr32 (nameBytes f.name) 64 f.size) 68 f.used)
    72 f.deleted) 76 f.atime) 80 f.mtime) 84 f.ctime) 88 f.uid) 92 f.gid) 96 f.mode) 98 pad

/-- The 80 bytes of a `mufs_dir_meta_t`. -/
def dirRecord (d : DirMeta) (pad : BitVec 16) : Mem :=
  wr16 (wr16 (wr32 (wr32 (wr32 (nameBytes d.name) 64 d.used) 68 d.uid) 72 d.gid) 76 d.mode) 78 pad

def clampSize (s : BitVec 32) : BitVec 32 := if 65536 < s.toNat then 65536#32 else s

theorem clampSize_le (s : BitVec 32) : (clampSize s).toNat ≤ 65536 := by
  rw [clampSize]
  split
  · decide
  · omega

def loadName (b : Mem) : Fin 64 → BitVec 8 := fun i => if i = 63 then 0#8 else b i

def loadFile (b : Mem) : FileMeta :=
  ⟨loadName b, clampSize (rd32 b 64), rd32 b 68, rd32 b 72, rd32 b 76, rd32 b 80, rd32 b 84,
    rd32 b 88, rd32 b 92, rd16 b 96, if_pos rfl, clampSize_le _⟩

def loadDir (b : Mem) : DirMeta :=
  ⟨loadName b, rd32 b 64, rd32 b 68, rd32 b 72, rd16 b 76, if_pos rfl⟩

/-- `meta_buf`: the file table as it is written to disk. -/
def fileTable (t : Tables) (pads : Nat → BitVec 16) : Mem :=
  fun a => fileRecord (t.files (Fin.ofNat 16 (a / 100))) (pads (a / 100)) (a % 100)

/-- `dmeta_buf`. -/
def dirTable (t : Tables) (pads : Nat → BitVec 16) : Mem :=
  fun a => dirRecord (t.dirs (Fin.ofNat 16 (a / 80))) (pads (a / 80)) (a % 80)

def loadFiles (b : Mem) : Fin 16 → FileMeta := fun i => loadFile (fun k => b (100 * i + k))

def loadDirs (b : Mem) : Fin 16 → DirMeta := fun i => loadDir (fun k => b (80 * i + k))

theorem loadName_congr (h : ∀ k, k < 64 → b' k = b k) : loadName b' = loadName b := by
  funext i
  simp only [loadName]
  split
  · rfl
  · exact h i i.isLt

theorem loadFile_congr (h : ∀ k, k < 98 → b' k = b k) : loadFile b' = loadFile b := by
  have hw : ∀ p, p + 4 ≤ 98 → rd32 b' p = rd32 b p :=
    fun p hp => rd32_congr fun x _ _ => h x (by omega)
  have hh : rd16 b' 96 = rd16 b 96 := rd16_congr fun x _ _ => h x (by omega)
  have hn := loadName_congr fun k hk => h k (by omega)
  ext1
  · exact hn
  · simp only [loadFile, hw 64 (by omega)]
  · exact hw 68 (by omega)
  · exact hw 72 (by omega)
  · exact hw 76 (by omega)
  · exact hw 80 (by omega)
  · exact hw 84 (by omega)
  · exact hw 88 (by omega)
  · exact hw 92 (by omega)
  · exact hh

theorem loadDir_congr (h : ∀ k, k < 78 → b' k = b k) : loadDir b' = loadDir b := by
  have hw : ∀ p, p + 4 ≤ 78 → rd32 b' p = rd32 b p :=
    fun p hp => rd32_congr fun x _ _ => h x (by omega)
  have hh : rd16 b' 76 = rd16 b 76 := rd16_congr fun x _ _ => h x (by omega)
  have hn := loadName_congr fun k hk => h k (by omega)
  ext1
  · exact hn
  · exact hw 64 (by omega)
  · exact hw 68 (by omega)
  · exact hw 72 (by omega)
  · exact hh

theorem loadName_nameBytes {n : Fin 64 → BitVec 8} (hn : n 63 = 0#8) :
    loadName (nameBytes n) = n := by
  funext i
  simp only [loadName, nameBytes]
  split
  · rename_i h
    rw [h, hn]
  · rw [dif_pos i.isLt]

theorem fileRecord_name (f : FileMeta) (pad : BitVec 16) (hk : k < 64) :
    fileRecord f pad k = nameBytes f.name k := by
  simp (disch := omega) only [fileRecord, wr16_of_apart, wr32_of_apart]

theorem dirRecord_name (d : DirMeta) (pad : BitVec 16) (hk : k < 64) :
    dirRecord d pad k = nameBytes d.name k := by
  simp (disch := omega) only [dirRecord, wr16_of_apart, wr32_of_apart]

theorem loadFile_fileRecord (f : FileMeta) (pad : BitVec 16) : loadFile (fileRecord f pad) = f := by
  have hn : loadName (fileRecord f pad) = f.name := by
    rw [loadName_congr fun k hk => fileRecord_name f pad hk, loadName_nameBytes f.name_last]
  have hs := f.size_le
  ext1
  · exact hn
  · simp (disch := omega) only [loadFile, fileRecord, rd32_wr16_of_apart, rd32_wr32_of_apart,
      rd32_wr32_self]
    rw [clampSize, if_neg (by omega)]
  all_goals simp (disch := omega) only [loadFile, fileRecord, rd32_wr16_of_apart,
      rd32_wr32_of_apart, rd32_wr32_self, rd16_wr16_of_apart, rd16_wr16_self]

theorem loadDir_dirRecord (d : DirMeta) (pad : BitVec 16) : loadDir (dirRecord d pad) = d := by
  have hn : loadName (dirRecord d pad) = d.name := by
    rw [loadName_congr fun k hk => dirRecord_name d pad hk, loadName_nameBytes d.name_last]
  ext1
  · exact hn
  all_goals simp (disch := omega) only [loadDir, dirRecord, rd32_wr16_of_apart, rd32_wr32_of_apart,
      rd32_wr32_self, rd16_wr16_of_apart, rd16_wr16_self]

section

variable (t : Tables) (pads : Nat → BitVec 16) (i : Fin 16)
include t pads i

theorem fileTable_at (hk : k < 100) :
    fileTable t pads (100 * i + k) = fileRecord (t.files i) (pads i) k := by
  have hd : (100 * i.val + k) / 100 = i.val := by omega
  have hm : (100 * i.val + k) % 100 = k := by omega
  rw [fileTable, hd, hm, Fin.ofNat_val_eq_self]

theorem dirTable_at (hk : k < 80) :
    dirTable t pads (80 * i + k) = dirRecord (t.dirs i) (pads i) k := by
  have hd : (80 * i.val + k) / 80 = i.val := by omega
  have hm : (80 * i.val + k) % 80 = k := by omega
  rw [dirTable, hd, hm, Fin.ofNat_val_eq_self]

end

theorem loadFiles_congr (h : ∀ k, k < 1600 → b' k = b k) : loadFiles b' = loadFiles b := by
  funext i
  exact loadFile_congr fun k hk => h _ (by omega)

theorem loadDirs_congr (h : ∀ k, k < 1280 → b' k = b k) : loadDirs b' = loadDirs b := by
  funext i
  exact loadDir_congr fun k hk => h _ (by omega)

theorem loadFiles_fileTable (t : Tables) (pads : Nat → BitVec 16) :
    loadFiles (fileTable t pads) = t.files := by
  funext i
  rw [loadFiles, loadFile_congr fun k hk => fileTable_at t pads i (by omega), loadFile_fileRecord]

theorem loadDirs_dirTable (t : Tables) (pads : Nat → BitVec 16) :
    loadDirs (dirTable t pads) = t.dirs := by
  funext i
  rw [loadDirs, loadDir_congr fun k hk => dirTable_at t pads i (by omega), loadDir_dirRecord]

end MuOS.Fs.Metadata
