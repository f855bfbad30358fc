import MuOS.Fs.Remount

namespace MuOS.Fs.Probes

open Lib Memory Patches Ata MuFs Crash Remount Bool

variable {dev : Drive} {d : Mem} {off n : Nat} {a : Nat}

/-- What `part_init` tells `part_is_partitioned`. -/
def partInit (dev : Drive) (d : Mem) : Bool :=
  match ataReadBytes dev d 0 blank 512 with
  | some mbr => mbr 510 == 0x55#8 && mbr 511 == 0xAA#8
  | none => false

/-- `rd` of both file systems. -/
def rd (dev : Drive) (d : Mem) (off n : Nat) : Option Mem :=
  if 4294967295 < off ∨ 4294967295 - off < n then none else ataReadBytes dev d off blank n

/-- `try_volume` of FAT32. -/
def fatTryVolume (dev : Drive) (d : Mem) (base : Nat) : Bool :=
  match rd dev d base 512 with
  | none => false
  | some bs =>
    let spc := (bs 13).toNat
    let used := ((rd16 bs 14).toNat + (bs 16).toNat * (rd32 bs 36).toNat) % 4294967296
    let total := if rd16 bs 19 = 0#16 then (rd32 bs 32).toNat else (rd16 bs 19).toNat
    (bs 0 == 0xEB#8 || bs 0 == 0xE9#8) && rd16 bs 11 == 512#16 && rd16 bs 22 == 0#16 &&
      rd16 bs 17 == 0#16 && spc != 0 && decide (spc ≤ 32) && (spc &&& (spc - 1)) == 0 &&
      rd16 bs 14 != 0#16 && bs 16 != 0#8 &&
      decide (bs 16 ≤ 2#8) && rd32 bs 36 != 0#32 && decide (2#32 ≤ rd32 bs 44) && decide (used < total)

/-- The rest of `try_volume` of ext2 after the superblock. -/
def ext2Super (dev : Drive) (d : Mem) (base : Nat) (sb : Mem) : Bool :=
  let bs := 1024 <<< (rd32 sb 24).toNat
  let isz := if rd32 sb 76 = 0#32 then 128 else (rd32 sb 88).toNat
  let isz := if isz < 128 ∨ 256 < isz then 128 else isz
  if rd16 sb 56 ≠ 0xEF53#16 ∨ 2 < (rd32 sb 24).toNat ∨ rd32 sb 0 = 0#32 ∨ rd32 sb 4 = 0#32 ∨
    rd32 sb 32 = 0#32 ∨ rd32 sb 40 = 0#32 then false
  else
    match rd dev d (base + (rd32 sb 20 + 1#32).toNat * bs) bs with
    | none => false
    | some gd => rd32 gd 8 != 0#32 && (rd dev d (base + (rd32 gd 8).toNat * bs + isz) isz).isSome

def ext2TryVolume (dev : Drive) (d : Mem) (base : Nat) : Bool :=
  (rd dev d (base + 1024) 1024).any (ext2Super dev d base)

/-- The partitions at these sectors are tried, or else the disk. -/
def initWith (tryVolume : Drive → Mem → Nat → Bool) (dev : Drive) (d : Mem)
    (starts : List Nat) : Bool :=
  if partInit dev d then starts.any (fun lba => tryVolume dev d (lba * 512)) else tryVolume dev d 0

def fatInit : Drive → Mem → List Nat → Bool := initWith fatTryVolume

/-- Of an MBR's partitions, only those of type 0x83 are tried. -/
def ext2Init : Drive → Mem → List Nat → Bool := initWith ext2TryVolume

def hasSuper (dev : Drive) (d : Mem) : Bool :=
  ((ataReadBytes dev d 0 blank 52).map validSuper).getD false

def hasJournal (dev : Drive) (d : Mem) : Bool :=
  ((ataReadBytes dev d (9 * 512) blank 32).map (fun jh => rd32 jh 0 == jMagic)).getD false

theorem inRange_mono {off' n' : Nat} (h : inRange dev off n = true) (hle : off' + n' ≤ off + n)
    (hoff : off' ≤ off) : inRange dev off' n' = true := by
  simp only [inRange, and_eq_true, decide_eq_true_eq] at h ⊢
  exact ⟨⟨h.1.1, by omega⟩, by omega⟩

theorem inRange_of_read {b m : Mem} (h : ataReadBytes dev d off b n = some m) :
    inRange dev off n = true := by
  rw [ataReadBytes] at h
  split at h
  · assumption
  · cases h

theorem inRange_of_rd {m : Mem} (h : rd dev d off n = some m) : inRange dev off n = true := by
  rw [rd] at h
  split at h
  · cases h
  · exact inRange_of_read h

theorem inRange_of_foreign {starts starts' : List Nat}
    (h : partInit dev d = true ∨ fatInit dev d starts = true ∨ ext2Init dev d starts' = true) :
    inRange dev 0 52 = true := by
  by_cases hp : partInit dev d = true
  · rw [partInit] at hp
    split at hp
    · rename_i mbr hr
      exact inRange_mono (inRange_of_read hr) (by decide) (Nat.le_refl 0)
    · cases hp
  rcases h with h | h | h
  · exact absurd h hp
  · rw [fatInit, initWith, if_neg hp, fatTryVolume] at h
    split at h
    · cases h
    rename_i bs hr
    exact inRange_mono (inRange_of_rd hr) (by decide) (Nat.le_refl 0)
  · rw [ext2Init, initWith, if_neg hp] at h
    obtain ⟨sb, hr, -⟩ := (Option.any_eq_true _ _).mp h
    exact inRange_mono (inRange_of_rd hr) (by decide) (Nat.zero_le _)

theorem replayCopies_low (ha : a < 1024) : replayCopies dev d a = d a := by
  cases hF : ataReadBytes dev d (10 * 512) blank 1600 with
  | none => rw [replayCopies, hF]
  | some F =>
    cases hD : ataReadBytes dev d (13 * 512) blank 1280 with
    | none => rw [replayCopies, hF, hD]
    | some D =>
      rw [replayCopies, hF, hD]
      exact applyAll_keeps (fun w hw => (List.mem_append.mp hw).elim (ataWriteBytes_keeps (by omega) w)
        (ataWriteBytes_keeps (by omega) w)) d

theorem replay_low (ha : a < 1024) : replayJournal dev d a = d a := by
  cases hr : ataReadBytes dev d (9 * 512) blank 32 with
  | none => rw [replayJournal, hr]
  | some jh =>
    rw [replayJournal, hr]
    dsimp only
    split
    · exact (applyAll_keeps (ataWriteBytes_keeps (by omega)) _).trans (replayCopies_low ha)
    · rfl

theorem replay_of_journal (h : hasJournal dev d = true) : replayJournal dev d ≠ d := by
  intro he
  rw [hasJournal] at h
  cases hr : ataReadBytes dev d (9 * 512) blank 32 with
  | none =>
    rw [hr] at h
    cases h
  | some jh =>
    rw [hr, Option.map_some, Option.getD_some, beq_iff_eq] at h
    have hin := inRange_of_read hr
    rw [ataReadBytes_eq hin] at hr
    have hword : rd32 d (9 * 512) = jMagic := by rw [← journal_word, Option.some.inj hr, h]
    -- the header that was found is written back without its mark
    have hclear : rd32 (replayJournal dev d) (9 * 512) = 0#32 := by
      rw [replayJournal, ataReadBytes_eq hin, Option.some.inj hr]
      dsimp only
      rw [if_pos h, ataWriteBytes_all hin]
      exact (rd32_patch (q := 0) (by decide)).trans (rd32_wr32_self ..)
    rw [he, hword] at hclear
    cases hclear

theorem replay_without_journal (h : hasJournal dev d = false) : replayJournal dev d = d := by
  rw [replayJournal]
  split
  · rename_i jh hr
    rw [hasJournal, hr, Option.map_some, Option.getD_some, beq_eq_false_iff_ne] at h
    exact if_neg h
  · rfl

theorem hasSuper_eq (h : inRange dev 0 52 = true) (d : Mem) : hasSuper dev d = validSuper d := by
  rw [hasSuper, ataReadBytes_eq h, Option.map_some, Option.getD_some, superblock_read]

theorem format_super (h : inRange dev 0 52 = true) (d : Mem) :
    validSuper (format dev d).2 = true := by
  rw [← superblock_written h 1#32 d]
  refine validSuper_congr fun x hx => ?_
  rw [format]
  rw [applyAll_append]
  refine applyAll_keeps (fun w hw => ?_) _
  simp only [persistMeta, journalCopies, tableWrites, if_true, List.mem_append] at hw
  rcases hw with (h | h) | h | (h | h) | h <;> exact ataWriteBytes_keeps (by omega) w h

/-- On a disk of another system mounting leaves every byte alone if and only if the disk is
partitioned and no journal header stands in its sector 9. -/
theorem mount_leaves_foreign_iff (s : State) {starts starts' : List Nat}
    (hsuper : hasSuper dev d = false) (hforeign : partInit dev d = true ∨
    fatInit dev d starts = true ∨ ext2Init dev d starts' = true) :
    (fsPersistMount dev (partInit dev d) s d).2 = d ↔ partInit dev d = true ∧
    hasJournal dev d = false := by
  have hin := inRange_of_foreign hforeign
  have hpres : dev.present = true := by
    simp only [inRange, and_eq_true] at hin
    exact hin.1.1
  rw [hasSuper_eq hin] at hsuper
  have hv : validSuper (replayJournal dev d) = false :=
    (validSuper_congr fun x hx => replay_low (by omega)).trans hsuper
  have hmount : fsPersistMount dev (partInit dev d) s d =
      if partInit dev d then (inactive s, replayJournal dev d) else format dev (replayJournal dev d) := by
    simp only [fsPersistMount, hpres, if_true, ataReadBytes_eq hin, superblock_read, hv,
      false_eq_true, if_false]
  rw [hmount]
  cases hp : partInit dev d with
  | true =>
    refine ⟨fun h => ⟨rfl, ?_⟩, fun h => replay_without_journal h.2⟩
    by_contra hj
    exact replay_of_journal (not_eq_false _ ▸ hj) h
  | false =>
    refine ⟨fun h => ?_, fun h => by cases h.1⟩
    have hf := format_super hin (replayJournal dev d)
    have he : (format dev (replayJournal dev d)).2 = d := h
    rw [he, hsuper] at hf
    cases hf

def signedDisk : Mem := store (store blank 510 0x55#8) 511 0xAA#8

theorem mount_leaves_signed :
    (fsPersistMount smallDrive true ⟨emptyTables, false, 0#32⟩ signedDisk).2 = signedDisk := by
  have hp : partInit smallDrive signedDisk = true := by decide +kernel
  exact hp ▸ (@mount_leaves_foreign_iff smallDrive signedDisk ⟨emptyTables, false, 0#32⟩ [] []
    (by decide +kernel)
    (.inl hp)).mpr ⟨hp, by decide +kernel⟩

def ext2Disk : Mem :=
  wr32 (wr16 (wr32 (wr32 (wr32 (wr32 (wr32 blank 1024 16#32) 1028 64#32) 1056 8192#32) 1064 16#32)
  1044 1#32) 1080 0xEF53#16) 2056 5#32

/-- The volume is mounted, and then its disk is formatted. -/
theorem ext2_volume_formatted : hasSuper smallDrive ext2Disk = false ∧
    ext2Init smallDrive ext2Disk [] = true ∧
    (fsPersistMount smallDrive (partInit smallDrive ext2Disk)
      ⟨emptyTables, false, 0#32⟩ ext2Disk).2 0 = 0x4D#8 ∧
    ext2Disk 0 = 0#8 := by
  decide +kernel

end MuOS.Fs.Probes
