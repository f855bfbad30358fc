import MuOS.Fs.Probes

namespace MuOS.Fs.Holes

open Lib Memory Patches Ata MuFs Probes

/-- A resolved file: its volume and its inode. -/
structure File where
  dev : Drive
  disk : Mem
  base : Nat
  bs : Nat
  inode : Mem

variable (F : File)

def readBlock (block : Nat) : Option Mem := rd F.dev F.disk (F.base + block * F.bs) F.bs

/-- `none` is `false`, also for a pointer of 0. -/
def inodeBlock (logical : Nat) : Option Nat :=
  let found (p : BitVec 32) := if p = 0#32 then none else some p.toNat
  if logical < 12 then found (rd32 F.inode (40 + logical * 4))
  else if F.bs / 4 ≤ logical - 12 ∨ rd32 F.inode 88 = 0#32 then none
  else (readBlock F (rd32 F.inode 88).toNat).bind
    (fun indbuf => found (rd32 indbuf ((logical - 12) * 4)))

/-- The loop of `ext2_read_file`; `want` rounds are enough. -/
def readLoop (want : Nat) : Nat → Nat → Nat → Mem → Option (Nat × Mem)
  | 0, _, done, buf => some (done, buf)
  | fuel + 1, logical, done, buf =>
    if done < want then
      match inodeBlock F logical with
      | none => some (done, buf)
      | some block =>
        (readBlock F block).bind (fun blk =>
          let n := min F.bs (want - done)
          readLoop want fuel (logical + 1) (done + n) (patch buf done n blk))
    else some (done, buf)

def ext2ReadFile (size cap : Nat) (buf : Mem) : Option (Nat × Mem) :=
  readLoop F (min size cap) (min size cap) 0 0 buf

/-- The block pointer of a file, 0 where there is none. -/
def pointer (l : Nat) : BitVec 32 :=
  if l < 12 then rd32 F.inode (40 + l * 4)
  else if rd32 F.inode 88 = 0#32 then 0#32
  else rd32 F.disk (F.base + (rd32 F.inode 88).toNat * F.bs + (l - 12) * 4)

def contents (i : Nat) : BitVec 8 :=
  let p := pointer F (i / F.bs)
  if p = 0#32 then 0#8 else F.disk (F.base + p.toNat * F.bs + i % F.bs)

/-- The blocks of the file are on the disk. -/
structure WellFormed : Prop where
  block_pos : 0 < F.bs
  indirect : rd32 F.inode 88 ≠ 0#32 →
    inRange F.dev (F.base + (rd32 F.inode 88).toNat * F.bs) F.bs = true
  blocks : ∀ l, l < 12 + F.bs / 4 → pointer F l ≠ 0#32 →
    inRange F.dev (F.base + (pointer F l).toNat * F.bs) F.bs = true

variable {F} {want l : Nat}

theorem readBlock_eq {b : Nat} (h : inRange F.dev (F.base + b * F.bs) F.bs = true) :
    readBlock F b = some (patch blank 0 F.bs (fun i => F.disk (F.base + b * F.bs + i))) := by
  have hi := h
  simp only [inRange, Bool.and_eq_true, decide_eq_true_eq] at hi
  rw [readBlock, rd, if_neg (by omega), ataReadBytes_eq h]

section

variable (hw : WellFormed F)
include hw

theorem inodeBlock_eq (hl : l < 12 + F.bs / 4) :
    inodeBlock F l = if pointer F l = 0#32 then none else some (pointer F l).toNat := by
  by_cases h12 : l < 12
  · simp only [inodeBlock, pointer, if_pos h12]
  by_cases h0 : rd32 F.inode 88 = 0#32
  · simp only [inodeBlock, pointer, if_neg h12, h0, or_true, if_true]
  have hword := @rd32_patch blank
    (fun i => F.disk (F.base + (rd32 F.inode 88).toNat * F.bs + i)) 0 F.bs ((l - 12) * 4) (by omega)
  rw [Nat.zero_add] at hword
  rw [inodeBlock, pointer, if_neg h12, if_neg h12, if_neg (by simp [h0]; omega), if_neg h0,
    readBlock_eq (hw.indirect h0), Option.bind_some, hword]
  rfl

/-- One round, at a block that the file has. -/
theorem readLoop_step (hl : l < 12 + F.bs / 4) (hlt : l * F.bs < want) (hp : pointer F l ≠ 0#32)
    (fuel : Nat) {buf : Mem} (hbuf : ∀ i, i < l * F.bs → buf i = contents F i) :
    ∃ buf', readLoop F want (fuel + 1) l (l * F.bs) buf =
        readLoop F want fuel (l + 1) (min ((l + 1) * F.bs) want) buf' ∧
      ∀ i, i < min ((l + 1) * F.bs) want → buf' i = contents F i := by
  have hmul := Nat.add_mul l 1 F.bs
  have hn : l * F.bs + min F.bs (want - l * F.bs) = min ((l + 1) * F.bs) want := by omega
  refine ⟨patch buf (l * F.bs) (min F.bs (want - l * F.bs)) (patch blank 0 F.bs
    (fun i => F.disk (F.base + (pointer F l).toNat * F.bs + i))), ?_, fun i hi => ?_⟩
  · simp only [readLoop, if_pos hlt, inodeBlock_eq hw hl, if_neg hp,
      readBlock_eq (hw.blocks l hl hp), Option.bind_some, hn]
  by_cases hlow : i < l * F.bs
  · rw [patch_outside (.inl hlow), hbuf i hlow]
  obtain ⟨k, rfl⟩ := Nat.exists_eq_add_of_le (Nat.le_of_not_lt hlow)
  have hk : k < F.bs := by omega
  have hdiv : (l * F.bs + k) / F.bs = l := by
    rw [Nat.mul_comm, Nat.mul_add_div hw.block_pos, Nat.div_eq_of_lt hk, Nat.add_zero]
  rw [patch_inside (by omega), patch_inside (by omega), contents, hdiv, if_neg hp,
    Nat.mul_add_mod', Nat.mod_eq_of_lt hk, Nat.add_sub_cancel_left, Nat.sub_zero]

/-- The loop copies the file up to its first hole. -/
theorem readLoop_spec (hfit : want ≤ (12 + F.bs / 4) * F.bs) (fuel l : Nat) (buf : Mem)
    (hfuel : want ≤ l * F.bs + fuel) (hbuf : ∀ i, i < min (l * F.bs) want → buf i = contents F i) :
    ∃ n buf', readLoop F want fuel l (min (l * F.bs) want) buf = some (n, buf') ∧
      (∀ i, i < n → buf' i = contents F i) ∧ (∀ k, l ≤ k → k * F.bs < n → pointer F k ≠ 0#32) ∧
      (n = want ∨ ∃ k, k * F.bs < want ∧ pointer F k = 0#32) := by
  have hpos := hw.block_pos
  have hle {k} := @Nat.mul_le_mul_right l k F.bs
  induction fuel generalizing l buf with
  | zero =>
    rw [Nat.min_eq_right (by omega)] at hbuf ⊢
    exact ⟨want, buf, rfl, hbuf, fun k hk hkn => absurd (hle hk) (by omega), .inl rfl⟩
  | succ fuel ih =>
    by_cases hlt : l * F.bs < want
    · rw [Nat.min_eq_left hlt.le] at hbuf ⊢
      have hl : l < 12 + F.bs / 4 := Nat.lt_of_mul_lt_mul_right (hlt.trans_le hfit)
      have hmul := Nat.add_mul l 1 F.bs
      by_cases hp : pointer F l = 0#32
      · refine ⟨l * F.bs, buf, ?_, hbuf, fun k hk hkn => absurd (hle hk) (by omega), .inr ⟨l, hlt, hp⟩⟩
        rw [readLoop, if_pos hlt, inodeBlock_eq hw hl, if_pos hp]
      obtain ⟨buf', hstep, hbuf'⟩ := readLoop_step hw hl hlt hp fuel hbuf
      obtain ⟨n, b, hr, hbytes, hptr, hend⟩ := ih (l + 1) buf' (by omega) hbuf' (Nat.mul_le_mul_right _)
      refine ⟨n, b, hstep.trans hr, hbytes, fun k hk hkn => ?_, hend⟩
      obtain rfl | hk' := Nat.eq_or_lt_of_le hk
      · exact hp
      · exact hptr k hk' hkn
    · rw [Nat.min_eq_right (by omega)] at hbuf ⊢
      refine ⟨want, buf, ?_, hbuf, fun k hk hkn => absurd (hle hk) (by omega), .inl rfl⟩
      rw [readLoop, if_neg (Nat.lt_irrefl want)]

end

/-- A file is read whole if and only if no block up to the last byte asked for is a hole. -/
theorem ext2_read_iff (hw : WellFormed F) {size : Nat} (hfit : size ≤ (12 + F.bs / 4) * F.bs)
    (cap : Nat) (buf : Mem) : (∃ buf', ext2ReadFile F size cap buf = some (min size cap, buf') ∧
        ∀ i, i < min size cap → buf' i = contents F i) ↔
      ∀ l, l * F.bs < min size cap → pointer F l ≠ 0#32 := by
  obtain ⟨n, b, hr, hbytes, hptr, hend⟩ := @readLoop_spec F (min size cap) hw (by omega)
    (min size cap) 0 buf (by omega) (fun i hi => by omega)
  rw [Nat.zero_mul, Nat.zero_min] at hr
  rw [ext2ReadFile, hr]
  refine ⟨?_, fun hp => ?_⟩
  · rintro ⟨b', he, -⟩ l hl
    cases he
    exact hptr l (Nat.zero_le l) hl
  · obtain rfl | ⟨k, hk, h0⟩ := hend
    · exact ⟨b, rfl, hbytes⟩
    · exact absurd h0 (hp k hk)

def fileOf (inode : Mem) : File := ⟨⟨true, 4096⟩, blank, 0, 1024, inode⟩

/-- Twelve blocks, the indirect block 13 and one block behind it; each holds its number. -/
def longFile : File :=
  { fileOf fun i => if 40 ≤ i ∧ i < 92 ∧ i % 4 = 0 then BitVec.ofNat 8 (i / 4 - 9) else 0#8 with
    disk := fun a => if a / 1024 = 13 then (if a % 1024 = 0 then 14#8 else 0#8)
      else BitVec.ofNat 8 (a / 1024) }

theorem ext2_read_indirect : ∃ buf', ext2ReadFile longFile 12800 65536 blank = some (12800, buf') ∧
    (∀ i, i < 12800 → buf' i = contents longFile i) ∧ buf' 0 = 1#8 ∧ buf' 12799 = 14#8 := by
  have hp : ∀ l, l < 13 → pointer longFile l ≠ 0#32 := by decide +kernel
  obtain ⟨buf', hr, hbytes⟩ :=
    (@ext2_read_iff longFile ⟨by decide, by decide +kernel, by decide +kernel⟩ 12800
    (by decide) 65536 blank).mpr fun l hl => hp l (by change l * 1024 < 12800 at hl; omega)
  refine ⟨buf', hr, hbytes, ?_, ?_⟩
  · rw [hbytes 0 (by decide)]
    decide +kernel
  · rw [hbytes 12799 (by decide)]
    decide +kernel

/-- A file that is one hole of 1000 zeros is read as empty. -/
theorem hole_ends_file : WellFormed (fileOf blank) ∧ (∀ i, contents (fileOf blank) i = 0#8) ∧
    ∀ buf, ext2ReadFile (fileOf blank) 1000 4096 buf = some (0, buf) :=
  ⟨⟨by decide, by decide +kernel, by decide +kernel⟩, fun _ => ite_self _, fun _ => rfl⟩

end MuOS.Fs.Holes
