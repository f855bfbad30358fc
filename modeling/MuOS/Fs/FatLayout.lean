import MuOS.Fs.Probes

namespace MuOS.Fs.FatLayout

open Lib Memory Patches Ata MuFs Probes

/-- What `try_volume` takes from a boot sector. -/
structure FatVol where
  base : Nat
  spc : Nat
  reserved : Nat
  nfats : Nat
  fsz : Nat
  totalSectors : Nat

def layout (base : Nat) (bs : Mem) : FatVol where
  base := base
  spc := (bs 13).toNat
  reserved := (rd16 bs 14).toNat
  nfats := (bs 16).toNat
  fsz := (rd32 bs 36).toNat
  totalSectors := if rd16 bs 19 = 0#16 then (rd32 bs 32).toNat else (rd16 bs 19).toNat

def fatVolume (dev : Drive) (d : Mem) (base : Nat) : Option FatVol :=
  if fatTryVolume dev d base then (rd dev d base 512).map (layout base) else none

section

variable (v : FatVol) (f cluster : Nat)

def FatVol.used : Nat := (v.reserved + v.nfats * v.fsz) % 4294967296

def FatVol.fatStart : Nat := (v.base / 512 + v.reserved) % 4294967296

def FatVol.dataStart : Nat := (v.fatStart + v.nfats * v.fsz) % 4294967296

def FatVol.clusterCount : Nat := (v.totalSectors - v.used) / v.spc

/-- The sector that `set_fat` writes in copy `f`. -/
def FatVol.fatSector : Nat := (v.fatStart + f * v.fsz + cluster * 4 % 4294967296 / 512) % 4294967296

def FatVol.clusterSector : Nat := (v.dataStart + (cluster - 2) * v.spc) % 4294967296

structure Consistent : Prop where
  entries : v.clusterCount + 2 ≤ v.fsz * 128
  copies : v.fatStart + v.nfats * v.fsz ≤ v.dataStart
  clusters : ∀ c, 2 ≤ c → c < v.clusterCount + 2 →
    v.clusterSector c = v.dataStart + (c - 2) * v.spc ∧
    v.clusterSector c + v.spc ≤ v.base / 512 + v.totalSectors

end

variable {dev : Drive} {d : Mem} {base : Nat} {v : FatVol}

theorem volume_accepted (h : fatVolume dev d base = some v) :
    v.base / 512 < 8388608 ∧ v.reserved < 65536 ∧ v.used < v.totalSectors := by
  obtain ⟨hacc, h⟩ := Option.ite_none_right_eq_some.mp h
  obtain ⟨bs, hr, rfl⟩ := Option.map_eq_some_iff.mp h
  have hin := inRange_of_rd hr
  simp only [inRange, Bool.and_eq_true, decide_eq_true_eq] at hin
  simp only [fatTryVolume, hr, Bool.and_eq_true, decide_eq_true_eq] at hacc
  exact ⟨show base / 512 < 8388608 by omega, (rd16 bs 14).isLt, hacc.2⟩

/-- The layout is consistent if and only if the copies of the table are long enough and the first
sector of the last cluster has a number of 32 bits; `set_fat` then stays in the copies. -/
theorem fat_layout_iff (h : fatVolume dev d base = some v) :
    (Consistent v ↔ v.clusterCount + 2 ≤ v.fsz * 128 ∧
      v.base / 512 + v.reserved + v.nfats * v.fsz + (v.clusterCount - 1) * v.spc < 4294967296) ∧
    (Consistent v → ∀ c f, c < v.clusterCount + 2 → f < v.nfats →
      v.fatStart + f * v.fsz ≤ v.fatSector f c ∧ v.fatSector f c < v.fatStart + (f + 1) * v.fsz) := by
  obtain ⟨hb, hrsvd, hused⟩ := volume_accepted h
  have hfat : v.fatStart = v.base / 512 + v.reserved := Nat.mod_eq_of_lt (by omega)
  have hdata : v.dataStart = (v.fatStart + v.nfats * v.fsz) % 4294967296 := rfl
  have hsum : v.used = (v.reserved + v.nfats * v.fsz) % 4294967296 := rfl
  have hfit : v.clusterCount * v.spc ≤ v.totalSectors - v.used := Nat.div_mul_le_self _ _
  refine ⟨⟨fun hc => ⟨hc.entries, ?_⟩, fun ⟨he, hlt⟩ => ⟨he, by omega, fun c h2 hc => ?_⟩⟩,
    fun hc c f hlt hf => ?_⟩
  · have hcopies := hc.copies
    rcases Nat.eq_zero_or_pos v.clusterCount with h0 | hpos
    · rw [h0]
      omega
    have hl := (hc.clusters (v.clusterCount + 1) (by omega) (by omega)).1
    have hm : v.clusterSector (v.clusterCount + 1) < 4294967296 := Nat.mod_lt _ (by decide)
    rw [show v.clusterCount + 1 - 2 = v.clusterCount - 1 by omega] at hl
    omega
  · have hle : (c - 2) * v.spc ≤ (v.clusterCount - 1) * v.spc := Nat.mul_le_mul_right _ (by omega)
    have hle' : (c - 2 + 1) * v.spc ≤ v.clusterCount * v.spc := Nat.mul_le_mul_right _ (by omega)
    rw [Nat.add_mul] at hle'
    have hs : v.clusterSector c = v.dataStart + (c - 2) * v.spc := Nat.mod_eq_of_lt (by omega)
    exact ⟨hs, by omega⟩
  · have hcopies := hc.copies
    have hent := hc.entries
    have hf' : (f + 1) * v.fsz ≤ v.nfats * v.fsz := Nat.mul_le_mul_right _ hf
    rw [Nat.add_mul] at hf' ⊢
    have hs : v.fatSector f c = v.fatStart + f * v.fsz + c * 4 % 4294967296 / 512 :=
      Nat.mod_eq_of_lt (by omega)
    omega

def bootSector (total : BitVec 16) : Mem :=
  wr16 (wr32 (wr32 (store (wr16 (store (wr16 (store blank 0 0xEB#8) 11 512#16) 13 1#8) 14 1#16) 16
    1#8) 36 1#32) 44 2#32) 19 total

def bootVol (total : BitVec 16) : FatVol :=
  layout 0 (patch blank 0 512 (fun i => bootSector total (0 + i)))

theorem boot_volume {total : BitVec 16} (h : fatTryVolume ⟨true, 128⟩ (bootSector total) 0 = true) :
    fatVolume ⟨true, 128⟩ (bootSector total) 0 = some (bootVol total) := by
  rw [fatVolume, if_pos h, rd, if_neg (by decide), ataReadBytes_eq (by decide),
    Option.map_some, bootVol]

theorem fat_layout_small : Consistent (bootVol 100#16) :=
  (fat_layout_iff (boot_volume (by decide +kernel))).1.mpr (by decide +kernel)

/-- The table has 128 entries for 998 clusters: that of cluster 999 is sought in a data sector. -/
theorem fat_too_short : fatVolume ⟨true, 128⟩ (bootSector 1000#16) 0 = some (bootVol 1000#16) ∧
    (bootVol 1000#16).clusterCount = 998 ∧ (bootVol 1000#16).dataStart = 2 ∧
    (bootVol 1000#16).fatSector 0 999 = 8 :=
  ⟨boot_volume (by decide +kernel), by decide +kernel⟩

end MuOS.Fs.FatLayout
