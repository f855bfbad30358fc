import MuOS.Fs.Probes

namespace MuOS.Fs.Sectors

open Lib Memory Patches Ata MuFs

variable {dev : Drive} {offset count lba : Nat}

/-- `read_sector` of the partition reader. -/
def readSector (dev : Drive) (d : Mem) (lba : Nat) (buf : Mem) : Option Mem :=
  if 4294967295 < lba then none else ataReadBytes dev d (lba * 512 % 4294967296) buf 512

def Refuses (dev : Drive) (offset count : Nat) : Prop :=
  ∀ d buf, ataReadBytes dev d offset buf count = none ∧ ataWriteBytes dev offset buf count = []

/-- A range inside the disk is read and replaced, else refused. -/
def Transfers (dev : Drive) (offset count : Nat) : Prop :=
  (offset + count ≤ dev.sectors * 512 → ∀ d buf,
    ataReadBytes dev d offset buf count = some (patch buf 0 count (fun i => d (offset + i))) ∧
    applyAll (ataWriteBytes dev offset buf count) d = patch d offset count buf) ∧
  (dev.sectors * 512 < offset + count → Refuses dev offset count)

def ReadsSector (dev : Drive) (lba : Nat) : Prop := ∀ d buf, readSector dev d lba buf = none ∨
  lba < dev.sectors ∧ readSector dev d lba buf = some (patch buf 0 512 (fun i => d (lba * 512 + i)))

theorem inRange_iff (hp : dev.present = true) : inRange dev offset count = true ↔
    count ≤ 4294967295 - offset ∧ offset + count ≤ dev.sectors * 512 % 4294967296 := by
  simp [inRange, hp]

theorem readSector_eq (hlt : lba < 4294967296) (d buf : Mem) :
    readSector dev d lba buf = ataReadBytes dev d (lba % 8388608 * 512) buf 512 := by
  rw [readSector, if_neg (by omega), show lba * 512 % 4294967296 = lba % 8388608 * 512 by omega]

theorem refuses_of_out (h : ¬ inRange dev offset count = true) : Refuses dev offset count :=
  fun _ _ => ⟨if_neg h, if_neg h⟩

theorem transfers_of_small (hp : dev.present = true) (hs : dev.sectors < 8388608)
    (hle : offset + count ≤ 4294967295) : Transfers dev offset count := by
  refine ⟨fun hd d buf => ?_, fun hd => refuses_of_out ?_⟩
  · have hin : inRange dev offset count = true := (inRange_iff hp).mpr (by omega)
    exact ⟨ataReadBytes_eq hin d buf, ataWriteBytes_all hin buf d⟩
  · rw [inRange_iff hp]
    omega

/-- The ranges of a disk are transferred if and only if it is smaller than 4 GiB, a range
past 2^32 - 1 is refused, and a sector number is read as what is left of it below 2^23. -/
theorem byte_ranges_iff (hp : dev.present = true) :
    ((∀ offset count, 0 < count → offset + count ≤ 4294967295 → Transfers dev offset count) ↔
      dev.sectors < 8388608) ∧
      (∀ offset count, 0 < count → 4294967295 < offset + count → Refuses dev offset count) ∧
      ∀ lba, ReadsSector dev lba ↔ lba < 8388608 ∨ 4294967296 ≤ lba ∨
      inRange dev (lba % 8388608 * 512) 512 = false := by
  refine ⟨⟨fun h => ?_, fun h _ _ _ hle => transfers_of_small hp h hle⟩,
    fun offset count hc hlt => ?_, fun lba => ⟨fun h => ?_, fun h d buf => ?_⟩⟩
  · by_contra hbig
    have hin := Probes.inRange_of_read ((h 4294967294 1 (by omega) (by omega)).1 (by omega) blank blank).1
    rw [inRange_iff hp] at hin
    omega
  · refine refuses_of_out ?_
    rw [inRange_iff hp]
    omega
  · by_contra hno
    push Not at hno
    obtain ⟨hge, hlt, hin⟩ := hno
    -- a disk whose only mark is in the sector asked for
    have hr := h (fun a => if a = lba * 512 then 1#8 else 0#8) blank
    rw [readSector_eq hlt, ataReadBytes_eq (by simpa using hin)] at hr
    obtain hr | ⟨-, hr⟩ := hr
    · cases hr
    have h0 := congrFun (Option.some.inj hr) 0
    rw [patch_inside (by omega), patch_inside (by omega)] at h0
    simp only [Nat.sub_self, Nat.add_zero, if_pos,
      if_neg (show lba % 8388608 * 512 ≠ lba * 512 by omega)] at h0
    cases h0
  · by_cases hlt : lba < 4294967296
    · rw [readSector_eq hlt]
      by_cases hin : inRange dev (lba % 8388608 * 512) 512 = true
      · obtain hlow | hge | hf := h
        · have hl := ((inRange_iff hp).mp hin).2
          rw [ataReadBytes_eq hin, Nat.mod_eq_of_lt hlow]
          exact .inr ⟨by omega, rfl⟩
        · omega
        · cases hin.symm.trans hf
      · exact .inl (if_neg hin)
    · exact .inl (if_pos (by omega))

theorem byte_ranges_floppy : ReadsSector ⟨true, 2880⟩ 2879 :=
  ((byte_ranges_iff rfl).2.2 2879).mpr (.inl (by decide))

/-- Nothing can be read from a disk of 2^23 sectors, and sector 2^23 of a small one is sector 0. -/
theorem sector_number_wraps : ataReadBytes ⟨true, 8388608⟩ blank 0 blank 512 = none ∧
    ∃ buf, readSector ⟨true, 2880⟩ (store blank 0 1#8) 8388608 blank = some buf ∧ buf 0 = 1#8 := by
  refine ⟨if_neg (by decide), ?_⟩
  exact ⟨_, rfl, by decide⟩

end MuOS.Fs.Sectors
