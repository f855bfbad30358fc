import Mathlib.Data.List.Basic
import Mathlib.Data.Nat.ModEq
import Mathlib.Logic.Function.Basic
import Mathlib.Tactic.Common

namespace MuOS.Lib.Rings

open Function List Nat

variable {α : Type} {buf : Nat → α}

/-- A circular buffer: where to read, where to write, a count. -/
structure RingBuf (α : Type) where
  readPos : Nat
  writePos : Nat
  count : Nat
  buf : Nat → α

variable (cap : Nat)

def RingBuf.contents (q : RingBuf α) : List α :=
  (List.range q.count).map (fun i => q.buf ((q.readPos + i) % cap))

def storeFrom (buf : Nat → α) (pos : Nat) : List α → Nat → α
  | [] => buf
  | x :: xs => storeFrom (update buf (pos % cap) x) (pos + 1) xs

def RingBuf.put (q : RingBuf α) (xs : List α) : RingBuf α :=
  ⟨q.readPos, (q.writePos + xs.length) % cap, q.count + xs.length,
    storeFrom cap q.buf q.writePos xs⟩

def RingBuf.drop (q : RingBuf α) (n : Nat) : RingBuf α :=
  ⟨(q.readPos + n) % cap, q.writePos, q.count - n, q.buf⟩

/-- The writing place is where the contents end. -/
structure RingBuf.Sound (q : RingBuf α) : Prop where
  fits : q.count ≤ cap
  ends : q.writePos % cap = (q.readPos + q.count) % cap

variable {cap} {q : RingBuf α} {xs : List α} {n : Nat}

theorem RingBuf.length_contents (q : RingBuf α) : (q.contents cap).length = q.count := by
  rw [RingBuf.contents, length_map, length_range]

theorem add_mod_inj {a i j : Nat} (hi : i < cap) (hj : j < cap)
    (h : (a + i) % cap = (a + j) % cap) : i = j := by
  have hm : i ≡ j [MOD cap] := Nat.ModEq.add_left_cancel' a h
  exact Nat.ModEq.eq_of_lt_of_lt hm hi hj

theorem storeFrom_outside {pos p : Nat} (h : ∀ j, j < xs.length → p ≠ (pos + j) % cap) :
    storeFrom cap buf pos xs p = buf p := by
  induction xs generalizing buf pos with
  | nil => rfl
  | cons x xs ih =>
    rw [storeFrom, ih]
    · exact update_of_ne (h 0 (by simp)) ..
    intro j hj
    have hne := h (j + 1) (by simpa using hj)
    rwa [show pos + (j + 1) = pos + 1 + j by omega] at hne

theorem storeFrom_inside {pos j : Nat} (hlen : xs.length ≤ cap) (hj : j < xs.length) :
    storeFrom cap buf pos xs ((pos + j) % cap) = xs[j] := by
  induction xs generalizing buf pos j with
  | nil => cases hj
  | cons x xs ih =>
    rw [length_cons] at hlen hj
    rw [storeFrom]
    cases j with
    | zero =>
      rw [storeFrom_outside, add_zero, update_self]
      · rfl
      intro j hjl he
      rw [show pos + 1 + j = pos + (j + 1) by omega] at he
      have := add_mod_inj (by omega) (by omega) he
      omega
    | succ j =>
      rw [show pos + (j + 1) = pos + 1 + j by omega]
      exact ih (by omega) (by omega)

theorem RingBuf.Sound.put (h : q.Sound cap) (hx : q.count + xs.length ≤ cap) :
    (q.put cap xs).Sound cap := by
  refine ⟨hx, ?_⟩
  show (q.writePos + xs.length) % cap % cap = (q.readPos + (q.count + xs.length)) % cap
  rw [mod_mod, add_mod, h.ends, ← add_mod, add_assoc]

theorem RingBuf.Sound.drop (h : q.Sound cap) (hn : n ≤ q.count) : (q.drop cap n).Sound cap := by
  refine ⟨le_trans (sub_le _ _) h.fits, ?_⟩
  show q.writePos % cap = ((q.readPos + n) % cap + (q.count - n)) % cap
  rw [mod_add_mod, h.ends]
  congr 1
  omega

theorem RingBuf.contents_put (h : q.Sound cap) (hx : q.count + xs.length ≤ cap) :
    (q.put cap xs).contents cap = q.contents cap ++ xs := by
  refine ext_getElem ?_ ?_
  · rw [RingBuf.length_contents, length_append, RingBuf.length_contents]
    rfl
  intro i h1 h2
  have hi : i < q.count + xs.length := by
    rw [RingBuf.length_contents] at h1
    exact h1
  simp only [RingBuf.contents, RingBuf.put, getElem_map, getElem_range]
  by_cases hq : i < q.count
  · rw [getElem_append_left (by simpa using hq), getElem_map, getElem_range]
    refine storeFrom_outside fun j hj he => ?_
    have hw : (q.writePos + j) % cap = (q.readPos + (q.count + j)) % cap := by
      rw [add_mod, h.ends, ← add_mod, add_assoc]
    have := add_mod_inj (by omega) (by omega) (he.trans hw)
    omega
  · rw [getElem_append_right (by simpa using hq)]
    have hp : (q.readPos + i) % cap = (q.writePos + (i - q.count)) % cap := by
      rw [add_mod q.writePos, h.ends, ← add_mod, add_assoc]
      congr 2
      omega
    rw [hp, storeFrom_inside (by omega) (by omega)]
    congr 1
    simp

theorem RingBuf.contents_drop (q : RingBuf α) (n : Nat) :
    (q.drop cap n).contents cap = (q.contents cap).drop n := by
  refine ext_getElem ?_ ?_
  · rw [RingBuf.length_contents, length_drop, RingBuf.length_contents]
    rfl
  · intro i h1 h2
    simp only [RingBuf.contents, RingBuf.drop, getElem_map, getElem_range, getElem_drop]
    rw [mod_add_mod, add_assoc]

end MuOS.Lib.Rings
