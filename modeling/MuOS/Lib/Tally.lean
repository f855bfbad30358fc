import Mathlib.Algebra.BigOperators.Intervals
import Mathlib.Algebra.Order.BigOperators.Group.Finset

namespace MuOS.Lib.Tally

open Function Finset Option Nat

variable {α : Type}

/-- The total weight of a partial map's entries below `n`. -/
def tally (live : Nat → Option α) (n : Nat) (w : α → Nat) : Nat :=
  ∑ k ∈ Finset.range n, (live k).elim 0 w

variable {live : Nat → Option α} {n k : Nat} {w : α → Nat} {a b : α}

theorem sum_change {ι : Type} [DecidableEq ι] {s : Finset ι} {i : ι} (g g' : ι → Nat) (hi : i ∈ s)
    (h : ∀ j, j ≠ i → g' j = g j) : (∑ j ∈ s, g' j) + g i = (∑ j ∈ s, g j) + g' i := by
  have he : ∑ j ∈ s.erase i, g' j = ∑ j ∈ s.erase i, g j :=
    sum_congr rfl fun j hj => h j (ne_of_mem_erase hj)
  rw [← add_sum_erase _ g' hi, ← add_sum_erase _ g hi]
  omega

theorem tally_replace (hk : k < n) (h : live k = some a) (w : α → Nat) :
    tally (update live k (some b)) n w + w a = tally live n w + w b := by
  have hc := sum_change (fun i => (live i).elim 0 w) (fun i => (update live k (some b) i).elim 0 w)
    (mem_range.mpr hk) (fun i hi => by rw [update_of_ne hi])
  simp only [h, update_self, elim_some] at hc
  exact hc

theorem tally_remove (hk : k < n) (h : live k = some a) (w : α → Nat) :
    tally (update live k none) n w + w a = tally live n w := by
  have hc := sum_change (fun i => (live i).elim 0 w) (fun i => (update live k none i).elim 0 w)
    (mem_range.mpr hk) (fun i hi => by rw [update_of_ne hi])
  simp only [h, update_self, elim_some, elim_none, add_zero] at hc
  exact hc

theorem tally_insert (live : Nat → Option α) (n : Nat) (b : α) (w : α → Nat) :
    tally (update live n (some b)) (n + 1) w = tally live n w + w b := by
  rw [tally, sum_range_succ, update_self]
  congr 1
  apply sum_congr rfl
  intro i hi
  have hlt := mem_range.mp hi
  rw [update_of_ne (by omega)]

theorem tally_congr {β : Type} {other : Nat → Option β} {w' : β → Nat}
    (h : ∀ k, k < n → (live k).elim 0 w = (other k).elim 0 w') :
    tally live n w = tally other n w' :=
  sum_congr rfl fun k hk => h k (mem_range.mp hk)

theorem tally_add (live : Nat → Option α) (n : Nat) (w w' : α → Nat) :
    tally live n (fun a => w a + w' a) = tally live n w + tally live n w' := by
  rw [tally, tally, tally, ← sum_add_distrib]
  apply sum_congr rfl
  intro k _
  cases live k with
  | none | some => rfl

theorem tally_mono {w' : α → Nat} (h : ∀ a, w a ≤ w' a) : tally live n w ≤ tally live n w' := by
  apply sum_le_sum
  intro k _
  cases live k with
  | none => exact le_refl 0
  | some a => exact h a

theorem le_tally (hk : k < n) (h : live k = some a) (w : α → Nat) : w a ≤ tally live n w := by
  have hs := single_le_sum (f := fun i => (live i).elim 0 w) (fun i _ => zero_le _)
    (mem_range.mpr hk)
  simp only [h, elim_some] at hs
  exact hs

theorem add_le_tally {l : Nat} (hk : k < n) (hl : l < n) (hne : k ≠ l) (ha : live k = some a)
    (hb : live l = some b) (w : α → Nat) : w a + w b ≤ tally live n w := by
  have hr := tally_remove hk ha w
  have hb' : update live k none l = some b := by rw [update_of_ne hne.symm, hb]
  have hle := le_tally hl hb' w
  omega

theorem tally_le_card (h : ∀ k a, live k = some a → w a ≤ 1) :
    tally live n w ≤ ((Finset.range n).filter (fun k => (live k).isSome)).card := by
  rw [card_filter]
  apply sum_le_sum
  intro k hk
  cases hlk : live k with
  | none => simp
  | some a => simpa using h k a hlk

theorem tally_empty (h : ∀ k, k < n → live k = none) (w : α → Nat) : tally live n w = 0 := by
  apply sum_eq_zero
  intro k hk
  rw [h k (mem_range.mp hk), elim_none]

theorem exists_of_tally_pos (h : 0 < tally live n w) : ∃ k a, k < n ∧ live k = some a ∧
    0 < w a := by
  by_contra hno
  push Not at hno
  have hz : tally live n w = 0 := by
    apply sum_eq_zero
    intro k hk
    cases hlk : live k with
    | none => rfl
    | some a => exact le_zero.mp (hno k a (mem_range.mp hk) hlk)
  omega

end MuOS.Lib.Tally
