import Mathlib.Logic.Function.Basic

namespace MuOS.Lib.Memory

open BitVec

instance neZero4 : @NeZero Nat Zero.ofOfNat0 4 := ⟨Nat.succ_ne_zero _⟩
instance neZero8 : @NeZero Nat Zero.ofOfNat0 8 := ⟨Nat.succ_ne_zero _⟩
instance neZero16 : @NeZero Nat Zero.ofOfNat0 16 := ⟨Nat.succ_ne_zero _⟩
instance neZero32 : @NeZero Nat Zero.ofOfNat0 32 := ⟨Nat.succ_ne_zero _⟩
instance neZero64 : @NeZero Nat Zero.ofOfNat0 64 := ⟨Nat.succ_ne_zero _⟩

abbrev Mem := Nat → BitVec 8

/-- The little-endian word at `a`. -/
def rd32 (m : Mem) (a : Nat) : BitVec 32 := m (a + 3) ++ m (a + 2) ++ m (a + 1) ++ m a

def wr32 (m : Mem) (a : Nat) (v : BitVec 32) : Mem := fun x =>
  if x = a then v.extractLsb' 0 8
  else if x = a + 1 then v.extractLsb' 8 8
  else if x = a + 2 then v.extractLsb' 16 8
  else if x = a + 3 then v.extractLsb' 24 8
  else m x

variable {a x : Nat} {b : Nat} {m m' : Mem}

theorem rd32_wr32_self (m : Mem) (a : Nat) (v : BitVec 32) : rd32 (wr32 m a v) a = v := by
  have h0 : wr32 m a v a = v.extractLsb' 0 8 := by simp [wr32]
  have h1 : wr32 m a v (a + 1) = v.extractLsb' 8 8 := by simp [wr32]
  have h2 : wr32 m a v (a + 2) = v.extractLsb' 16 8 := by simp [wr32]
  have h3 : wr32 m a v (a + 3) = v.extractLsb' 24 8 := by simp [wr32]
  rw [rd32, h0, h1, h2, h3]
  apply eq_of_getLsbD_eq
  intro i hi
  simp only [getLsbD_append, getLsbD_extractLsb']
  by_cases h8 : i < 8
  · simp [h8]
  by_cases h16 : i < 16
  · have e : 8 + (i - 8) = i := by omega
    have l : i - 8 < 8 := by omega
    simp [h8, l, e]
  by_cases h24 : i < 24
  · have e : 16 + (i - 8 - 8) = i := by omega
    have l : ¬ i - 8 < 8 := by omega
    have l' : i - 8 - 8 < 8 := by omega
    simp [h8, l, l', e]
  · have e : 24 + (i - 8 - 8 - 8) = i := by omega
    have l : ¬ i - 8 < 8 := by omega
    have l' : ¬ i - 8 - 8 < 8 := by omega
    have l'' : i - 8 - 8 - 8 < 8 := by omega
    simp [h8, l, l', l'', e]

theorem wr32_of_apart (m : Mem) (v : BitVec 32) (h : x < a ∨ a + 4 ≤ x) : wr32 m a v x = m x := by
  have h0 : ¬ x = a := by omega
  have h1 : ¬ x = a + 1 := by omega
  have h2 : ¬ x = a + 2 := by omega
  have h3 : ¬ x = a + 3 := by omega
  simp [wr32, h0, h1, h2, h3]

theorem rd32_zero {m : Mem} (h : ∀ k, k < 4 → m (a + k) = 0#8) : rd32 m a = 0#32 := by
  rw [rd32, h 3 (by omega), h 2 (by omega), h 1 (by omega), show m a = 0#8 from h 0 (by omega)]
  rfl

theorem rd32_congr (h : ∀ x, a ≤ x → x < a + 4 → m' x = m x) : rd32 m' a = rd32 m a := by
  rw [rd32, rd32, h (a + 3) (by omega) (by omega), h (a + 2) (by omega) (by omega),
    h (a + 1) (by omega) (by omega), h a (by omega) (by omega)]

theorem rd32_wr32_of_apart (m : Mem) (v : BitVec 32) (h : b + 4 ≤ a ∨ a + 4 ≤ b) :
    rd32 (wr32 m a v) b = rd32 m b :=
  rd32_congr fun _ _ _ => wr32_of_apart m v (by omega)

/-- The little-endian half word at `a`. -/
def rd16 (m : Mem) (a : Nat) : BitVec 16 := m (a + 1) ++ m a

def wr16 (m : Mem) (a : Nat) (v : BitVec 16) : Mem := fun x =>
  if x = a then v.extractLsb' 0 8 else if x = a + 1 then v.extractLsb' 8 8 else m x

theorem rd16_wr16_self (m : Mem) (a : Nat) (v : BitVec 16) : rd16 (wr16 m a v) a = v := by
  have h0 : wr16 m a v a = v.extractLsb' 0 8 := by simp [wr16]
  have h1 : wr16 m a v (a + 1) = v.extractLsb' 8 8 := by simp [wr16]
  rw [rd16, h0, h1]
  apply eq_of_getLsbD_eq
  intro i hi
  simp only [getLsbD_append, getLsbD_extractLsb']
  by_cases h8 : i < 8
  · simp [h8]
  have e : 8 + (i - 8) = i := by omega
  have l : i - 8 < 8 := by omega
  simp [h8, l, e]

theorem wr16_of_apart (m : Mem) (v : BitVec 16) (h : x < a ∨ a + 2 ≤ x) : wr16 m a v x = m x := by
  have h0 : ¬ x = a := by omega
  have h1 : ¬ x = a + 1 := by omega
  simp [wr16, h0, h1]

theorem rd16_congr (h : ∀ x, a ≤ x → x < a + 2 → m' x = m x) : rd16 m' a = rd16 m a := by
  rw [rd16, rd16, h (a + 1) (by omega) (by omega), h a (by omega) (by omega)]

theorem rd16_wr16_of_apart (m : Mem) (v : BitVec 16) (h : b + 2 ≤ a ∨ a + 2 ≤ b) :
    rd16 (wr16 m a v) b = rd16 m b :=
  rd16_congr fun _ _ _ => wr16_of_apart m v (by omega)

theorem rd32_wr16_of_apart (m : Mem) (v : BitVec 16) (h : b + 4 ≤ a ∨ a + 2 ≤ b) :
    rd32 (wr16 m a v) b = rd32 m b :=
  rd32_congr fun _ _ _ => wr16_of_apart m v (by omega)

def store (m : Mem) (a : Nat) (v : BitVec 8) : Mem := Function.update m a v

theorem store_of_ne (m : Mem) (v : BitVec 8) (h : x ≠ a) : store m a v x = m x := by
  simp [store, h]

end MuOS.Lib.Memory
