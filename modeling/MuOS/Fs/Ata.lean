import MuOS.Lib.Patches

namespace MuOS.Fs.Ata

open Lib Memory Patches Nat List

/-- Whether the drive is there, and its size in sectors. -/
structure Drive where
  present : Bool
  sectors : Nat

def ataReadSector (d : Mem) (lba : Nat) : Mem := fun i => d (lba * 512 + i)

def ataWriteSector (d : Mem) (lba : Nat) (sec : Mem) : Mem :=
  fun a => if a / 512 = lba then sec (a % 512) else d a

def inRange (dev : Drive) (offset count : Nat) : Bool :=
  dev.present && decide (count ≤ 4294967295 - offset) &&
    decide (offset + count ≤ dev.sectors * 512 % 4294967296)

def readPiece (d : Mem) (offset : Nat) (q : Nat × Nat) (buf : Mem) : Mem :=
  let pos := offset + q.1
  patch buf q.1 q.2 (fun i => ataReadSector d (pos / 512) (pos % 512 + i))

/-- `none` is a negative return value. -/
def ataReadBytes (dev : Drive) (d : Mem) (offset : Nat) (buf : Mem) (count : Nat) : Option Mem :=
  if inRange dev offset count then
    some (applyAll ((pieces 512 offset count count 0).map (readPiece d offset)) buf)
  else none

/-- One sector write; a partial sector is read first. -/
def writePiece (offset : Nat) (buf : Mem) (q : Nat × Nat) (d : Mem) : Mem :=
  let pos := offset + q.1
  ataWriteSector d (pos / 512)
    (patch (ataReadSector d (pos / 512)) (pos % 512) q.2 (fun i => buf (q.1 + i)))

/-- The sector writes of `ata_write_bytes`, in order. -/
def ataWriteBytes (dev : Drive) (offset : Nat) (buf : Mem) (count : Nat) : List (Mem → Mem) :=
  if inRange dev offset count then (pieces 512 offset count count 0).map (writePiece offset buf)
  else []

variable {dev : Drive} {offset count : Nat}

theorem writePiece_eq {q : Nat × Nat} (hq : (offset + q.1) % 512 + q.2 ≤ 512) (buf d : Mem) :
    writePiece offset buf q d = patch d (offset + q.1) q.2 (fun i => buf (q.1 + i)) := by
  funext a
  simp only [writePiece, ataWriteSector]
  by_cases ha : a / 512 = (offset + q.1) / 512
  · rw [if_pos ha]
    by_cases hin : offset + q.1 ≤ a ∧ a < offset + q.1 + q.2
    · rw [patch_inside (by omega), patch_inside hin]
      congr 2
      omega
    · rw [patch_outside (by omega), patch_outside (by omega), ataReadSector]
      congr 1
      omega
  · rw [if_neg ha, patch_outside (by omega)]

theorem ataReadBytes_eq (h : inRange dev offset count = true) (d buf : Mem) :
    ataReadBytes dev d offset buf count = some (patch buf 0 count (fun i => d (offset + i))) := by
  have hp : ∀ q, readPiece d offset q =
      fun m => patch m (0 + q.1) q.2 (fun i => (fun j => d (offset + j)) (q.1 + i)) := by
    intro q
    funext m
    rw [readPiece, Nat.zero_add]
    congr 1
    funext i
    rw [ataReadSector]
    congr 1
    omega
  rw [ataReadBytes, if_pos h, funext hp, applyAll_pieces (b := fun j => d (offset + j)) (by omega) 0
    (sub_le _ _) (zero_le _)]
  simp only [Nat.add_zero, Nat.sub_zero, Nat.zero_add]

theorem ataWriteBytes_all (h : inRange dev offset count = true) (buf d : Mem) :
    applyAll (ataWriteBytes dev offset buf count) d = patch d offset count buf := by
  have hp : (pieces 512 offset count count 0).map
    (writePiece offset buf) = (pieces 512 offset count count 0).map
        (fun q m => patch m (offset + q.1) q.2 fun i => buf (q.1 + i)) :=
    map_congr_left fun q hq => funext (writePiece_eq (piece_fits (by omega) q hq) buf)
  rw [ataWriteBytes, if_pos h, hp, applyAll_pieces (by omega) offset (sub_le _ _) (zero_le _)]
  simp only [Nat.add_zero, Nat.sub_zero, Nat.zero_add]

theorem ataWriteBytes_keeps {a : Nat} {buf : Mem} (ha : a < offset ∨ offset + count ≤ a) :
    ∀ w ∈ ataWriteBytes dev offset buf count, Keeps w a := by
  intro w hw d
  simp only [ataWriteBytes] at hw
  split at hw
  · obtain ⟨q, hq, rfl⟩ := mem_map.mp hw
    have hb := piece_bounds q hq
    rw [writePiece_eq (piece_fits (by omega) q hq), patch_outside (by omega)]
  · exact absurd hw not_mem_nil

end MuOS.Fs.Ata
