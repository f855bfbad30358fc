import MuOS.Lib.Word

namespace MuOS.User.Window

open Lib.Word

def userBase : Nat := 0x08048000

def userSize : Nat := 0x00800000

def userEnd : Nat := 0x08848000

def userStackReserve : Nat := 0x10000

/-- The end of the window's part open to mappings. -/
def arenaEnd : Nat := 0x08838000

/-- `align_up_page`, on 32-bit values. -/
def alignUpPage (v : Nat) : Nat := add32 v 4095 / 4096 * 4096

def userPtrOk (ptr len : Nat) : Bool :=
  if ptr < userBase then false
  else if userEnd < ptr then false
  else decide (len ≤ userEnd - ptr)

theorem userPtrOk_iff {ptr len : Nat} : userPtrOk ptr len = true ↔ userBase ≤ ptr ∧
    ptr + len ≤ userEnd := by
  unfold userPtrOk
  split
  · rename_i h
    exact ⟨(by simp), fun h' => absurd h (Nat.not_lt.mpr h'.1)⟩
  split
  · rename_i h
    exact ⟨(by simp), fun h' => absurd h (by omega)⟩
  · rw [decide_eq_true_eq]
    omega

structure Brk where
  base : Nat
  current : Nat
  base_ge : userBase ≤ base
  base_le : base ≤ current
  current_le : current ≤ userEnd

theorem alignUpPage_le {v n : Nat} (hv : v ≤ n) (hn : n < 4294963200) (hd : n % 4096 = 0) :
    v ≤ alignUpPage v ∧ alignUpPage v ≤ n := by
  rw [alignUpPage, add32_eq (by omega)]
  omega

theorem Brk.start_bounds (b : Brk) : b.current ≤ alignUpPage b.current ∧
    alignUpPage b.current ≤ userEnd :=
  alignUpPage_le b.current_le (by decide) (by decide)

def userRestoreBrkState (base cur : Nat) : Option Brk :=
  if h : base < userBase ∨ cur < base ∨ userEnd < cur then none
  else some ⟨base, cur, by omega, by omega, by omega⟩

def userSetBrk (b : Brk) (addr : Nat) : Option Brk :=
  if h : addr < b.base ∨ arenaEnd < addr then none
  else some ⟨b.base, addr, b.base_ge, by omega, by
    have he : arenaEnd ≤ userEnd := by decide
    omega⟩

theorem mmapAnon_le (b : Brk) {rounded : Nat}
    (h : ¬(arenaEnd ≤ alignUpPage b.current ∨ arenaEnd - alignUpPage b.current < rounded)) :
    b.base ≤ alignUpPage b.current + rounded ∧ alignUpPage b.current + rounded ≤ userEnd := by
  have hs := b.start_bounds
  have hb := b.base_le
  have he : arenaEnd ≤ userEnd := by decide
  omega

/-- `user_mmap_anon`: the zeroed range and the break; `none` is 0. -/
def userMmapAnon (b : Brk) (len : Nat) : Option (Nat × Brk) :=
  if len = 0 then none
  else
    let rounded := alignUpPage len
    if rounded < len then none
    else
      let start := alignUpPage b.current
      if h : arenaEnd ≤ start ∨ arenaEnd - start < rounded then none
      else some (start, ⟨b.base, start + rounded, b.base_ge, (mmapAnon_le b h).1, (mmapAnon_le b h).2⟩)

theorem userMmapAnon_some {b b' : Brk} {len start : Nat}
    (h : userMmapAnon b len = some (start, b')) :
    userBase ≤ start ∧ start + alignUpPage len ≤ arenaEnd := by
  have hs := b.start_bounds
  have hb := b.base_le
  have hg := b.base_ge
  simp only [userMmapAnon] at h
  split at h
  · cases h
  split at h
  · cases h
  split at h
  · cases h
  cases h
  omega

end MuOS.User.Window
