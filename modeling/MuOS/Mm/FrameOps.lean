import MuOS.Mm.Ledger

namespace MuOS.Mm.FrameOps

open Function Lib Word Frames FrameSpecs Ledger List

variable {s : Allocator} {held : Nat → Nat} {reserved : Nat → Prop}

/-- One more reference for each of the `count` frames from `start` on. -/
def heldRun (held : Nat → Nat) (start count : Nat) : Nat → Nat :=
  fun f => if start ≤ f ∧ f < start + count then held f + 1 else held f

def reservedRun (reserved : Nat → Prop) (first count : Nat) : Nat → Prop :=
  fun f => (first ≤ f ∧ f < first + count) ∨ reserved f

theorem heldRun_zero (held : Nat → Nat) (start : Nat) : heldRun held start 0 = held := by
  funext f
  simp only [heldRun]
  rw [if_neg (by omega)]

theorem heldRun_succ (held : Nat → Nat) (start count : Nat) (h0 : held (start + count) = 0) :
    heldRun held start (count + 1) = update (heldRun held start count) (start + count) 1 := by
  funext f
  by_cases hf : f = start + count
  · subst hf; simp [heldRun, h0]
  have hi : (start ≤ f ∧ f < start + (count + 1)) ↔ (start ≤ f ∧ f < start + count) := by omega
  simp [heldRun, hf, hi]

theorem reservedRun_zero (reserved : Nat → Prop) (first : Nat) :
    reservedRun reserved first 0 = reserved := by
  funext f
  simp [reservedRun]

theorem reservedRun_succ (reserved : Nat → Prop) (first count : Nat) :
    reservedRun reserved first (count + 1) = fun f => f = first + count ∨
    reservedRun reserved first count f := by
  funext f
  apply propext
  simp only [reservedRun, ← or_assoc]
  apply or_congr_left
  omega

section

variable (s)

theorem markRun_succ (start count : Nat) : markRun s start (count + 1) =
      setRef (bitmapSet (markRun s start count) (start + count)) (start + count) 1 := by
  simp [markRun, range_succ]

theorem reserveRun_succ (first count : Nat) : reserveRun s first (count + 1) =
      setFree (bitmapSet (reserveRun s first count) (first + count))
        (sub32 (reserveRun s first count).freePages 1) := by
  simp [reserveRun, range_succ]

theorem markRun_total (start count : Nat) : (markRun s start count).totalPages = s.totalPages := by
  induction count with
  | zero => rfl
  | succ n ih => simpa [markRun_succ] using ih

theorem markRun_free (start count : Nat) : (markRun s start count).freePages = s.freePages := by
  induction count with
  | zero => rfl
  | succ n ih => simpa [markRun_succ] using ih

theorem markRun_test (start count f : Nat) : bitmapTest (markRun s start count) f =
      (decide (start ≤ f ∧ f < start + count) || bitmapTest s f) := by
  induction count with
  | zero => simp [markRun]
  | succ n ih =>
    have hi : (start ≤ f ∧ f < start + (n + 1)) ↔ (start + n = f ∨ start ≤ f ∧ f < start + n) := by omega
    simp [markRun_succ, ih, hi, Bool.or_assoc]

theorem reserveRun_total (first count : Nat) :
    (reserveRun s first count).totalPages = s.totalPages := by
  induction count with
  | zero => rfl
  | succ n ih => simpa [reserveRun_succ] using ih

theorem reserveRun_test (first count f : Nat) (hf : first + count ≤ f) :
    bitmapTest (reserveRun s first count) f = bitmapTest s f := by
  induction count with
  | zero => rfl
  | succ n ih =>
    have hne : ¬ first + n = f := by omega
    rw [reserveRun_succ, test_setFree, test_bitmapSet, ih (by omega), decide_eq_false hne, Bool.false_or]

end

theorem allocPages_lowest (hf : s.freePages = BitWords.clearCount s.totalPages (bitmapTest s))
    (count : Nat) : (mmAllocPages s count = (0, s) ∧ (count = 0 ∨ ∀ q, ¬ FreeRun s count q)) ∨
      ∃ start, 0 < count ∧ IsLeast {q | FreeRun s count q} start ∧ count ≤ s.freePages ∧
        mmAllocPages s count = (start * 4096, setFree (markRun s start count)
        (sub32 s.freePages count)) := by
  by_cases h0 : count = 0
  · exact .inl ⟨by simp [mmAllocPages, h0], .inl h0⟩
  obtain ⟨hr, hno⟩ | ⟨start, hr, hrun, hlow⟩ := findRun_spec s count (s.totalPages + 1) 0 (by omega)
  · exact .inl ⟨by simp [mmAllocPages, hr], .inr fun q => hno q q.zero_le⟩
  have hle := hrun.1
  have hn := hf ▸ BitWords.le_clearCount hle hrun.2
  have hg : ¬(count = 0 ∨ s.totalPages < count ∨ s.freePages < count) := by omega
  refine .inr ⟨start, by omega, ⟨hrun, fun q hq => hlow q q.zero_le hq⟩, hn, ?_⟩
  simp only [mmAllocPages, hg, hr, if_false, markRun_free]

section

variable (h : Consistent s held reserved)
include h

theorem free_pos {f : Nat} (hf : f < s.totalPages) (hb : bitmapTest s f = false) :
    0 < s.freePages := by
  rw [h.free_eq]
  exact BitWords.clearCount_pos hf hb

theorem markRun_consistent {start : Nat} (count : Nat) (hle : start + count ≤ s.totalPages)
    (hfree : ∀ f, start ≤ f → f < start + count → bitmapTest s f = false) : count ≤ s.freePages ∧
      Consistent (setFree (markRun s start count) (s.freePages - count))
      (heldRun held start count) reserved := by
  induction count with
  | zero =>
    rw [heldRun_zero]
    exact ⟨by omega, h⟩
  | succ n ih =>
    obtain ⟨hn, hc⟩ := ih (by omega) fun f h1 h2 => hfree f h1 (by omega)
    have htot : start + n < (setFree (markRun s start n) (s.freePages - n)).totalPages := by
      rw [setFree_totalPages, markRun_total]
      omega
    have hb : bitmapTest (setFree (markRun s start n) (s.freePages - n)) (start + n) = false := by
      rw [test_setFree, markRun_test, decide_eq_false (by omega)]
      exact hfree _ (by omega) (by omega)
    have hp := free_pos hc htot hb
    rw [setFree_freePages] at hp
    have hm := hc.mark htot hb (s.freePages - (n + 1)) (by rw [setFree_freePages]; omega)
    obtain ⟨h0, -⟩ := (h.free_iff (by omega)).mp (hfree (start + n) (by omega) (by omega))
    rw [heldRun_succ held start n h0, markRun_succ]
    exact ⟨by omega, hm⟩

theorem reserveRun_consistent {first : Nat} (count : Nat) (hle : first + count ≤ s.totalPages)
    (hfree : ∀ f, first ≤ f → f < first + count → bitmapTest s f = false) :
    Consistent (reserveRun s first count) held (reservedRun reserved first count) := by
  induction count with
  | zero =>
    rw [reservedRun_zero]
    exact h
  | succ n ih =>
    have hc := ih (by omega) fun f h1 h2 => hfree f h1 (by omega)
    have htot : first + n < (reserveRun s first n).totalPages := by
      rw [reserveRun_total]
      omega
    have hb : bitmapTest (reserveRun s first n) (first + n) = false := by
      rw [reserveRun_test s first n _ le_rfl]
      exact hfree _ (by omega) (by omega)
    have hp := free_pos hc htot hb
    have hl := hc.free_lt
    have hm := hc.reserve htot hb ((reserveRun s first n).freePages - 1) (by omega)
    rw [reservedRun_succ, reserveRun_succ, sub32_eq hl (by omega)]
    exact hm

theorem allocPage_spec : (mmAllocPage s = (0, s) ∧ ∀ f, f < s.totalPages → bitmapTest s f = true) ∨
      ∃ f s', mmAllocPage s = (f * 4096, s') ∧ 0 < f ∧ f < s.totalPages ∧
        bitmapTest s f = false ∧ (∀ g, g < f → bitmapTest s g = true) ∧
        s'.totalPages = s.totalPages ∧ Consistent s' (heldRun held f 1) reserved := by
  cases hf : bitmapFindFirstFree s with
  | none => exact .inl ⟨by simp [mmAllocPage, hf], findFirstFree_none hf⟩
  | some f =>
    obtain ⟨ht, hb, hlow⟩ := findFirstFree_some hf
    have hp := free_pos h ht hb
    have hl := h.free_lt
    have hm := h.mark ht hb (s.freePages - 1) (by omega)
    have hne : f ≠ 0 := by
      intro h0
      subst h0
      exact ((h.free_iff ht).mp hb).2 h.zero_reserved
    have hs : mmAllocPage s = (f * 4096, setFree (setRef (bitmapSet s f) f 1) (sub32 s.freePages 1)) := by
      simp only [mmAllocPage, hf, setRef_freePages, bitmapSet_freePages]
    refine .inr ⟨f, _, hs, by omega, ht, hb, hlow, by simp, ?_⟩
    have he : heldRun held f 1 = update held f 1 := by
      simpa only [heldRun_zero, Nat.add_zero] using heldRun_succ held f 0 ((h.free_iff ht).mp hb).1
    rw [he, sub32_eq hl (by omega)]
    exact hm

theorem allocPages_spec (count : Nat) :
    (mmAllocPages s count = (0, s) ∧ (count = 0 ∨ ∀ q, ¬ FreeRun s count q)) ∨
      ∃ start s', mmAllocPages s count = (start * 4096, s') ∧ 0 < start ∧
        IsLeast {q | FreeRun s count q} start ∧ s'.totalPages = s.totalPages ∧
        Consistent s' (heldRun held start count) reserved := by
  obtain he | ⟨start, h0, hl, hn, hs⟩ := allocPages_lowest h.free_eq count
  · exact .inl he
  obtain ⟨hle, hfree⟩ := hl.1
  have hne : start ≠ 0 := by
    intro hz
    exact ((h.free_iff (by omega)).mp (hfree 0 (by omega) (by omega))).2 h.zero_reserved
  refine .inr ⟨start, _, hs, by omega, hl, ?_, ?_⟩
  · rw [setFree_totalPages, markRun_total]
  · rw [sub32_eq h.free_lt hn]
    exact (markRun_consistent h count hle hfree).2

theorem reserveRange_spec (start stop : Nat) : mmReserveRange s start stop = (false, s) ∨
      ∃ first count s', mmReserveRange s start stop = (true, s') ∧ first = start / 4096 ∧
        first + count = (stop - 1) / 4096 + 1 ∧ first + count ≤ s.totalPages ∧
        (∀ f, first ≤ f → f < first + count → bitmapTest s f = false) ∧
        s'.totalPages = s.totalPages ∧ Consistent s' held (reservedRun reserved first count) := by
  by_cases h1 : stop ≤ start
  · exact .inl (by simp [mmReserveRange, h1])
  by_cases h2 : s.totalPages ≤ start / 4096 ∨ s.totalPages < (stop - 1) / 4096 + 1
  · exact .inl (by simp only [mmReserveRange, h1, h2, if_false, if_true])
  cases hu : firstUsed s (start / 4096) ((stop - 1) / 4096 + 1 - start / 4096) with
  | some i =>
    exact .inl (by simp only [mmReserveRange, h1, h2, hu, if_false, Option.isSome_some, if_true])
  | none =>
    have hfree := firstUsed_none hu
    have hle : start / 4096 + ((stop - 1) / 4096 + 1 - start / 4096) = (stop - 1) / 4096 + 1 := by omega
    have hc := reserveRun_consistent h ((stop - 1) / 4096 + 1 - start / 4096) (by omega) hfree
    refine .inr ⟨start / 4096, (stop - 1) / 4096 + 1 - start / 4096, _, ?_, rfl, hle, by omega, hfree,
      reserveRun_total .., hc⟩
    simp only [mmReserveRange, h1, h2, hu, if_false, Option.isSome_none, Bool.false_eq_true]

end

def dropAll (held : Nat → Nat) (fs : List Nat) : Nat → Nat := fun f => held f - fs.count f

theorem unrefAll_spec (fs : List Nat) (h : Consistent s held reserved)
    (hheld : ∀ f, fs.count f ≤ held f) :
    Consistent (fs.foldl pageUnref s) (dropAll held fs) reserved ∧
      (fs.foldl pageUnref s).totalPages = s.totalPages := by
  induction fs generalizing s held with
  | nil => exact ⟨h, rfl⟩
  | cons a fs ih =>
    have ha := hheld a
    rw [count_cons_self] at ha
    have hpos : 0 < held a := by omega
    obtain ⟨hc, ht⟩ := h.unref hpos
    have hstep : ∀ f, fs.count f ≤ update held a (held a - 1) f := by
      intro f
      by_cases hf : f = a
      · subst hf; simp only [update_self]; omega
      have hn := hheld f
      rw [count_cons_of_ne (Ne.symm hf)] at hn
      simpa [hf] using hn
    obtain ⟨hc', ht'⟩ := ih hc hstep
    have he : dropAll (update held a (held a - 1)) fs = dropAll held (a :: fs) := by
      funext f
      by_cases hf : f = a
      · subst hf; simp only [dropAll, update_self, count_cons_self]; omega
      · simp [dropAll, hf, count_cons_of_ne (Ne.symm hf)]
    rw [he] at hc'
    exact ⟨hc', ht'.trans ht⟩

theorem freePages_eq (h : Consistent s held reserved) {addr count : Nat} (ha : addr % 4096 = 0)
    (hheld : ∀ i, i < count → 0 < held (addr / 4096 + i)) :
    mmFreePages s addr count = (List.range' (addr / 4096) count).foldl pageUnref s := by
  cases count with
  | zero => simp [mmFreePages]
  | succ n =>
    have hlast := h.held_lt _ (hheld n (by omega))
    have htot := h.total_le
    unfold maxPages at htot
    have hadd : ∀ i, i ∈ range (n + 1) → add32 (addr / 4096) i = addr / 4096 + i := by
      intro i hi
      have hi' := mem_range.mp hi
      exact add32_eq (by omega)
    have hmap : (range (n + 1)).map (fun i => add32 (addr / 4096) i) = range' (addr / 4096) (n + 1) := by
      rw [range'_eq_map_range]
      exact map_congr_left hadd
    have hg : ¬(s.totalPages ≤ addr / 4096 ∨ s.totalPages < add32 (addr / 4096) (n + 1)) := by
      rw [add32_eq (by omega)]
      omega
    simp only [mmFreePages, ha, hg, Nat.add_eq_zero_iff, one_ne_zero, and_false, if_false, ne_eq,
      not_true_eq_false]
    rw [← hmap, foldl_map]

end MuOS.Mm.FrameOps
