import MuOS.Syscall.Failures

namespace MuOS.Syscall.Seeks

open User.Descriptors Vfs FileCalls Failures

variable (ctx : Ctx) (s : Sys) (fd : Int) (off : BitVec 32) (whence : Nat)

/-- The start, the descriptor's offset or the size. -/
def seekBase (size : BitVec 32) : BitVec 32 :=
  if whence = 0 then 0#32 else if whence = 1 then userFdOffset s.fds fd else size

def highWord : BitVec 32 := (off.signExtend 64).extractLsb' 32 32

/-- `llseek` with the offset sign-extended, result stored. -/
def wideSeek : Done := doLlseek ctx s fd off (highWord off) true whence

/-- The position `do_llseek` stores, if it succeeds. -/
def stored : Option Int :=
  match fdRegularSize ctx s fd with
  | none => none
  | some size =>
    let pos := ((seekBase s fd whence size).toNat : Int) + (highWord off ++ off).toInt
    if 2 < whence ∨ pos < 0 ∨ 0x7FFFFFFF < pos then none else some pos

/-- The same error or position, and the same descriptors. -/
def Alike : Prop :=
  let a := doLseek ctx s fd off whence
  let b := wideSeek ctx s fd off whence
  a.sys = b.sys ∧ ((a.rc < 0 ∧ a.rc = b.rc) ∨ (b.rc = 0 ∧ stored ctx s fd off whence = some a.rc))

theorem highWord_toInt : (highWord off ++ off).toInt = off.toInt := by
  have he : highWord off ++ off = off.signExtend 64 := by
    ext i hi
    simp only [highWord, BitVec.getElem_append, BitVec.getElem_extractLsb']
    split
    · rename_i h
      rw [BitVec.getElem_signExtend, dif_pos h]
    · rw [Nat.add_sub_cancel' (by omega), BitVec.getLsbD_eq_getElem hi]
  rw [he, BitVec.toInt_signExtend_of_le (by decide)]

/-- The calls differ where the base has its top bit set, since one reads it as negative: they agree
there only when both refuse. -/
theorem seeks_alike_iff : Alike ctx s fd off whence ↔ ∀ size, fdRegularSize ctx s fd = some size →
    whence ≤ 2 → (seekBase s fd whence size).toNat < 2 ^ 31 ∨
      (2 ^ 31 ≤ (seekBase s fd whence size).toNat + off.toInt ∧
        (seekBase s fd whence size).toNat + off.toInt < 2 ^ 32) := by
  have hd1 := off.le_toInt
  have hd2 := off.toInt_lt
  cases hsize : fdRegularSize ctx s fd with
  | none => simp [Alike, wideSeek, doLseek, doLlseek, hsize, errno, eBADF]
  | some size =>
    by_cases hw : 2 < whence
    · simp [Alike, wideSeek, doLseek, doLlseek, hsize, hw, errno, eINVAL]
    have hb := (seekBase s fd whence size).isLt
    have hi := BitVec.toInt_eq_toNat_cond (seekBase s fd whence size)
    have h1 : doLseek ctx s fd off whence = seekTo s fd ((seekBase s fd whence size).toInt + off.toInt)
        ((seekBase s fd whence size).toInt + off.toInt) := by
      simp only [doLseek, hsize, if_neg hw, seekBase]
    have h2 : wideSeek ctx s fd off whence = seekTo s fd
      ((seekBase s fd whence size).toNat + off.toInt) 0 := by
      simp [wideSeek, doLlseek, hsize, hw, seekBase, highWord_toInt]
    simp only [Alike, h1, h2, stored, hsize, highWord_toInt, seekTo, errno, answer, eINVAL, hi, hw]
    grind

def bigDisk : Ctx := { superUser with io := fun _ _ => -1 }

/-- The end of a disk of 4 GB, and one byte more: `lseek` goes to the start and `llseek` refuses. -/
theorem disk_end_differs : let s := { fullSys with fds := fun _ => devDesc .devAta }
    (doLseek bigDisk s 3 1#32 2).rc = 0 ∧ (wideSeek bigDisk s 3 1#32 2).rc = -eINVAL ∧
    ¬ Alike bigDisk s 3 1#32 2 := by
  intro s
  have h1 : (doLseek bigDisk s 3 1#32 2).rc = 0 := by decide +kernel
  have h2 : (wideSeek bigDisk s 3 1#32 2).rc = -eINVAL := by decide +kernel
  refine ⟨h1, h2, ?_⟩
  rintro ⟨-, ⟨hneg, -⟩ | ⟨hz, -⟩⟩
  · omega
  · cases hz

end MuOS.Syscall.Seeks
