import Mathlib.Tactic.Common

namespace MuOS.Lib.Word

def add32 (a b : Nat) : Nat := (a + b) % 4294967296

def sub32 (a b : Nat) : Nat := (a + (4294967296 - b % 4294967296)) % 4294967296

variable {a b c : Nat}

theorem add32_eq (h : a + b < 4294967296) : add32 a b = a + b := Nat.mod_eq_of_lt h

theorem sub32_eq (ha : a < 4294967296) (h : b ≤ a) : sub32 a b = a - b := by
  unfold sub32
  omega

theorem add32_add32 (h : a + b + c < 4294967296) : add32 (add32 a b) c = a + b + c := by
  rw [add32_eq (a := a) (by omega), add32_eq h]

theorem add32_add32_right (h : a + b + c < 4294967296) : add32 a (add32 b c) = a + b + c := by
  rw [add32_eq (a := b) (by omega), add32_eq (by omega), Nat.add_assoc]

theorem sub32_sub32 (ha : a < 4294967296) (h : b + c ≤ a) : sub32 (sub32 a b) c = a - b - c := by
  rw [sub32_eq ha (by omega), sub32_eq (by omega) (by omega)]

theorem sub32_lt (a b : Nat) : sub32 a b < 4294967296 := Nat.mod_lt _ (by omega)

end MuOS.Lib.Word
