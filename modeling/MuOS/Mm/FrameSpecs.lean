import MuOS.Mm.Frames

namespace MuOS.Mm.FrameSpecs

open Lib Frames List BitVec

variable {s : Allocator}

section

variable (s)

@[simp] theorem test_setRef (pfn n f : Nat) : bitmapTest (setRef s pfn n) f = bitmapTest s f := rfl

@[simp] theorem test_setFree (n f : Nat) : bitmapTest (setFree s n) f = bitmapTest s f := rfl

@[simp] theorem test_bitmapSet (f g : Nat) :
    bitmapTest (bitmapSet s f) g = (decide (f = g) || bitmapTest s g) :=
  BitWords.test_set (by omega) s.bitmap f g

@[simp] theorem test_bitmapClear (f g : Nat) :
    bitmapTest (bitmapClear s f) g = (!decide (f = g) && bitmapTest s g) :=
  BitWords.test_clear (by omega) s.bitmap f g

@[simp] theorem total_mmPageRefInc (phys : Nat) :
    (mmPageRefInc s phys).totalPages = s.totalPages := by
  simp only [mmPageRefInc]
  split
  · rfl
  · split <;> rfl

theorem test_allOnes (i f : Nat) (h : s.bitmap i = BitVec.allOnes 32) (hf : f / 32 = i) :
    bitmapTest s f = true := by
  unfold bitmapTest
  rw [BitWords.test_eq (by omega), hf, h, getLsbD_allOnes]
  exact decide_eq_true (Nat.mod_lt f (by omega))

/-- The frames before the one found, or the scan's end, are in use. -/
theorem scanBits_spec (i n j : Nat) :
    (∀ f, scanBits s i n j = some (some f) → f < s.totalPages ∧ bitmapTest s f = false) ∧
      ∀ g, i * 32 + j ≤ g → g < (scanBits s i n j).elim (i * 32 + j + n) (·.getD s.totalPages) →
        bitmapTest s g = true := by
  induction n generalizing j with
  | zero =>
    refine ⟨fun f h => by simp [scanBits] at h, fun g hg hgt => ?_⟩
    exact absurd hgt (Nat.not_lt.mpr hg)
  | succ n ih =>
    by_cases hn : s.totalPages ≤ i * 32 + j
    · rw [scanBits, if_pos hn]
      exact ⟨fun f h => by simp at h, fun g hg hgt => absurd (hn.trans hg) (Nat.not_le.mpr hgt)⟩
    by_cases ht : bitmapTest s (i * 32 + j) = true
    · rw [scanBits, if_neg hn, if_pos ht]
      refine ⟨(ih (j + 1)).1, fun g hg hgt => ?_⟩
      by_cases he : g = i * 32 + j
      · rw [he]
        exact ht
      · refine (ih (j + 1)).2 g (by omega) ?_
        rwa [show i * 32 + (j + 1) + n = i * 32 + j + (n + 1) by omega]
    · rw [scanBits, if_neg hn, if_neg ht]
      refine ⟨fun f h => ?_, fun g hg hgt => absurd hg (Nat.not_le.mpr hgt)⟩
      cases h
      exact ⟨by omega, by simpa using ht⟩

theorem scanWords_spec (n i : Nat) :
    (∀ f, scanWords s n i = some f → f < s.totalPages ∧ bitmapTest s f = false) ∧
      ∀ g, i * 32 ≤ g → g < (scanWords s n i).getD (min s.totalPages ((i + n) * 32)) →
      bitmapTest s g = true := by
  induction n generalizing i with
  | zero =>
    refine ⟨fun f h => by simp [scanWords] at h, fun g hg hgt => ?_⟩
    simp only [scanWords, Option.getD_none] at hgt
    omega
  | succ n ih =>
    -- the words from the next one on, once the frames of this one are known to be in use
    have hnext : (∀ g, i * 32 ≤ g → g < i * 32 + 32 → bitmapTest s g = true) →
        (∀ f, scanWords s n (i + 1) = some f → f < s.totalPages ∧ bitmapTest s f = false) ∧
          ∀ g, i * 32 ≤ g → g < (scanWords s n (i + 1)).getD
            (min s.totalPages ((i + (n + 1)) * 32)) → bitmapTest s g = true := by
      intro hword
      refine ⟨(ih (i + 1)).1, fun g hg hgt => ?_⟩
      by_cases hi : g < i * 32 + 32
      · exact hword g hg hi
      · refine (ih (i + 1)).2 g (by omega) ?_
        rwa [show i + 1 + n = i + (n + 1) by omega]
    by_cases ha : s.bitmap i = allOnes 32
    · rw [scanWords, if_pos ha]
      exact hnext fun g h1 h2 => test_allOnes s i g ha (by omega)
    have hbits := scanBits_spec s i 32 0
    rw [scanWords, if_neg ha]
    cases hb : scanBits s i 32 0 with
    | none =>
      rw [hb] at hbits
      exact hnext hbits.2
    | some r =>
      rw [hb] at hbits
      cases r with
      | none =>
        exact ⟨fun f h => (by cases h), fun g hg hgt => hbits.2 g hg
          (lt_of_lt_of_le hgt (min_le_left _ _))⟩
      | some f => exact ⟨fun f' h => hbits.1 f' (congrArg some h), hbits.2⟩

end

theorem findFirstFree_some {f : Nat} (h : bitmapFindFirstFree s = some f) :
    f < s.totalPages ∧ bitmapTest s f = false ∧ ∀ g, g < f → bitmapTest s g = true := by
  rw [bitmapFindFirstFree] at h
  obtain ⟨hf, hg⟩ := scanWords_spec s (bitmapWords s) 0
  rw [h] at hg
  exact ⟨(hf f h).1, (hf f h).2, fun g => hg g (by omega)⟩

theorem findFirstFree_none (h : bitmapFindFirstFree s = none) : ∀ g, g < s.totalPages →
    bitmapTest s g = true := by
  intro g hg
  rw [bitmapFindFirstFree] at h
  refine (scanWords_spec s (bitmapWords s) 0).2 g (by omega) ?_
  rw [h, Option.getD_none, bitmapWords]
  omega

theorem firstUsed_none {start count : Nat} (h : firstUsed s start count = none) :
    ∀ f, start ≤ f → f < start + count → bitmapTest s f = false := by
  intro f hf hc
  have hn := find?_eq_none.mp h (f - start) (mem_range.mpr (by omega))
  rw [Nat.add_sub_cancel' hf] at hn
  simpa using hn

def FreeRun (s : Allocator) (count start : Nat) : Prop :=
  start + count ≤ s.totalPages ∧ ∀ f, start ≤ f → f < start + count → bitmapTest s f = false

theorem findRun_spec (s : Allocator) (count n start : Nat) (hn : s.totalPages < start + n) :
    (findRun s count n start = none ∧ ∀ q, start ≤ q → ¬ FreeRun s count q) ∨
      ∃ r, findRun s count n start = some r ∧ FreeRun s count r ∧ ∀ q, start ≤ q →
      FreeRun s count q → r ≤ q := by
  induction n generalizing start with
  | zero => exact .inl ⟨rfl, fun q h1 h2 => by have h3 := h2.1; omega⟩
  | succ n ih =>
    by_cases hb : start + count ≤ s.totalPages
    · cases hu : firstUsed s start count with
      | none => exact .inr ⟨start, by simp [findRun, hb, hu], ⟨hb, firstUsed_none hu⟩, fun q h1 _ => h1⟩
      | some i =>
        have hi := mem_range.mp (mem_of_find?_eq_some hu)
        have ht := find?_some hu
        -- a run that starts no later than the used frame would hold it
        have hskip : ∀ q, start ≤ q → FreeRun s count q → start + i + 1 ≤ q := by
          intro q h1 h2
          by_contra hq
          rw [h2.2 (start + i) (by omega) (by omega)] at ht
          exact Bool.false_ne_true ht
        simp only [findRun, hb, if_true, hu]
        obtain ⟨he, hno⟩ | ⟨r, he, hr, hlow⟩ := ih (start + i + 1) (by omega)
        · exact .inl ⟨he, fun q h1 h2 => hno q (hskip q h1 h2) h2⟩
        · exact .inr ⟨r, he, hr, fun q h1 h2 => hlow q (hskip q h1 h2) h2⟩
    · exact .inl ⟨by simp [findRun, hb], fun q h1 h2 => by have h3 := h2.1; omega⟩

end MuOS.Mm.FrameSpecs
