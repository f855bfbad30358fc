import Mathlib.Data.Finset.Card
import Mathlib.Data.Finset.Range
import Mathlib.Order.Interval.Finset.Nat
import Mathlib.Tactic.Ring

namespace MuOS.Lib.BitWords

open Function BitVec Nat Finset

variable {w : Nat} {n i : Nat} {t u : Nat → Bool}

def test (b : Nat → BitVec w) (i : Nat) : Bool := b (i / w) &&& 1#w <<< (i % w) != 0#w

def set (b : Nat → BitVec w) (i : Nat) : Nat → BitVec w :=
  update b (i / w) (b (i / w) ||| 1#w <<< (i % w))

def clear (b : Nat → BitVec w) (i : Nat) : Nat → BitVec w :=
  update b (i / w) (b (i / w) &&& ~~~(1#w <<< (i % w)))

theorem and_shift_ne_zero (x : BitVec w) (j : Nat) (hj : j < w) :
    (x &&& 1#w <<< j != 0#w) = x.getLsbD j := by
  have hs : 1#w <<< j = twoPow w j := by simp [twoPow]
  rw [hs, and_twoPow]
  cases hx : x.getLsbD j with
  | false => simp
  | true =>
    have hne : twoPow w j ≠ 0#w := by
      intro h
      have hb := congrArg (fun y => y.getLsbD j) h
      simp [hj] at hb
    simpa using hne

theorem getLsbD_shift (j k : Nat) (hk : k < w) : (1#w <<< j).getLsbD k = decide (j = k) := by
  have hs : 1#w <<< j = twoPow w j := by simp [twoPow]
  rw [hs]
  by_cases hj : j = k
  · simp [hj, hk]
  · simp [hj]

theorem test_eq (hw : 0 < w) (b : Nat → BitVec w) (i : Nat) :
    test b i = (b (i / w)).getLsbD (i % w) := and_shift_ne_zero _ _ (Nat.mod_lt i hw)

theorem div_mod_eq {j : Nat} (hd : i / w = j / w) (hm : i % w = j % w) : i = j := by
  rw [← div_add_mod i w, ← div_add_mod j w, hd, hm]

theorem test_set (hw : 0 < w) (b : Nat → BitVec w) (i j : Nat) :
    test (set b i) j = (decide (i = j) || test b j) := by
  rw [test_eq hw, test_eq hw, set]
  by_cases hd : j / w = i / w
  · rw [hd, update_self, getLsbD_or, getLsbD_shift _ _ (mod_lt j hw)]
    by_cases hm : i % w = j % w
    · simp [div_mod_eq hd.symm hm]
    have hne : i ≠ j := fun h => hm (h ▸ rfl)
    simp [hm, hne]
  · have hne : i ≠ j := fun h => hd (h ▸ rfl)
    simp [update_of_ne hd, hne]

theorem test_clear (hw : 0 < w) (b : Nat → BitVec w) (i j : Nat) :
    test (clear b i) j = (!decide (i = j) && test b j) := by
  rw [test_eq hw, test_eq hw, clear]
  by_cases hd : j / w = i / w
  · have hj := mod_lt j hw
    rw [hd, update_self, getLsbD_and, getLsbD_not, getLsbD_shift _ _ hj]
    by_cases hm : i % w = j % w
    · simp [div_mod_eq hd.symm hm]
    have hne : i ≠ j := fun h => hm (h ▸ rfl)
    simp [hm, hne, hj]
  · have hne : i ≠ j := fun h => hd (h ▸ rfl)
    simp [update_of_ne hd, hne]

/-- The indices below `n` at which a Boolean map is false. -/
def clearCount (n : Nat) (t : Nat → Bool) : Nat :=
  ((Finset.range n).filter (fun i => t i = false)).card

theorem clearCount_set (hi : i < n) (ht : t i = false)
    (hu : ∀ j, u j = (decide (i = j) || t j)) : clearCount n u + 1 = clearCount n t := by
  have he :
    (range n).filter (fun j => u j = false) = ((range n).filter fun j => t j = false).erase i := by
    apply ext
    intro j
    by_cases hj : i = j
    · subst hj; simp [hu]
    · simp [hu, hj, Ne.symm hj]
  have hm : i ∈ (range n).filter (fun j => t j = false) := by simp [hi, ht]
  unfold clearCount
  rw [he, card_erase_add_one hm]

theorem clearCount_clear (hi : i < n) (ht : t i = true)
    (hu : ∀ j, u j = (!decide (i = j) && t j)) : clearCount n u = clearCount n t + 1 := by
  symm
  apply clearCount_set hi
  · simp [hu]
  intro j
  by_cases hj : i = j
  · subst hj; simp [ht]
  · simp [hu, hj]

theorem clearCount_le (n : Nat) (t : Nat → Bool) : clearCount n t ≤ n := by
  have h := card_filter_le (range n) fun i => t i = false
  rwa [card_range] at h

theorem clearCount_pos (hi : i < n) (ht : t i = false) : 0 < clearCount n t :=
  card_pos.mpr ⟨i, by simp [hi, ht]⟩

theorem le_clearCount {k c : Nat} (hk : k + c ≤ n)
    (ht : ∀ j, k ≤ j → j < k + c → t j = false) : c ≤ clearCount n t := by
  have hsub : Finset.Ico k (k + c) ⊆ (range n).filter (fun j => t j = false) := by
    intro j hj
    obtain ⟨h1, h2⟩ := mem_Ico.mp hj
    exact mem_filter.mpr ⟨mem_range.mpr (by omega), ht j h1 h2⟩
  have hc := card_le_card hsub
  rwa [card_Ico, Nat.add_sub_cancel_left] at hc

end MuOS.Lib.BitWords
