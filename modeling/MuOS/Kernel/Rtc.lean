import Mathlib.Data.Int.Basic
import Mathlib.Tactic.IntervalCases

namespace MuOS.Kernel.Rtc

/-- `rtc_datetime_t`. -/
structure Datetime where
  year : Nat
  month : Nat
  day : Nat
  hour : Nat
  minute : Nat
  second : Nat

def isLeap (y : Nat) : Bool := y % 4 == 0 && y % 100 != 0 || y % 400 == 0

def daysInMonth (y m : Nat) : Nat :=
  if m < 1 ∨ 12 < m then 0
  else if m = 2 ∧ isLeap y then 29
  else [31, 28, 31, 30, 31, 30, 31, 31, 30, 31, 30, 31].getD (m - 1) 0

def daysFromCivil (y m d : Int) : Int :=
  let y := y - if m ≤ 2 then 1 else 0
  let era := (if 0 ≤ y then y else y - 399).tdiv 400
  let yoe := y - era * 400
  let doy := (153 * (m + if 2 < m then -3 else 9) + 2).tdiv 5 + d - 1
  let doe := yoe * 365 + yoe.tdiv 4 - yoe.tdiv 100 + doy
  era * 146097 + doe - 719468

def rtcDatetimeToEpoch (t : Datetime) : Nat :=
  if t.month < 1 ∨ 12 < t.month ∨ t.day < 1 ∨ daysInMonth t.year t.month < t.day ∨ 23 < t.hour ∨
      59 < t.minute ∨ 59 < t.second then 0
  else
    let days := daysFromCivil t.year t.month t.day
    if days < 0 then 0 else (days.toNat * 86400 + t.hour * 3600 + t.minute * 60 + t.second) % 4294967296

/-- The length of a month in the Gregorian calendar. -/
def monthLength (y : Nat) : Nat → Nat
  | 2 => if y % 4 = 0 ∧ (y % 100 = 0 → y % 400 = 0) then 29 else 28
  | 4 | 6 | 9 | 11 => 30
  | _ => 31

structure Valid (t : Datetime) : Prop where
  month : 1 ≤ t.month ∧ t.month ≤ 12
  day : 1 ≤ t.day ∧ t.day ≤ monthLength t.year t.month
  time : t.hour ≤ 23 ∧ t.minute ≤ 59 ∧ t.second ≤ 59

/-- The next second of the Gregorian calendar. -/
def next (t : Datetime) : Datetime :=
  if t.second < 59 then { t with second := t.second + 1 }
  else if t.minute < 59 then { t with minute := t.minute + 1, second := 0 }
  else if t.hour < 23 then { t with hour := t.hour + 1, minute := 0, second := 0 }
  else if t.day < monthLength t.year t.month then ⟨t.year, t.month, t.day + 1, 0, 0, 0⟩
  else if t.month < 12 then ⟨t.year, t.month + 1, 1, 0, 0, 0⟩
  else ⟨t.year + 1, 1, 1, 0, 0, 0⟩

theorem daysInMonth_eq {y m : Nat} (hm : 1 ≤ m ∧ m ≤ 12) : daysInMonth y m = monthLength y m := by
  obtain ⟨h1, h2⟩ := hm
  by_cases hfeb : m = 2
  · subst hfeb
    simp [daysInMonth, monthLength, isLeap]
    grind
  · interval_cases m
    all_goals first | rfl | omega

/-- The days before March of a year, and before a month from March. -/
theorem daysFromCivil_eq {y m : Int} (hy : 1 ≤ y) (hm : 1 ≤ m) (d : Int) : ∃ c n : Int,
    daysFromCivil y m d = c * 365 + c / 4 - c / 100 + c / 400 + (153 * n + 2) / 5 + d - 719469 ∧
      (m ≤ 2 ∧ c = y - 1 ∧ n = m + 9 ∨ 2 < m ∧ c = y ∧ n = m - 3) := by
  refine ⟨y - if m ≤ 2 then 1 else 0, m + if 2 < m then -3 else 9, ?_, by omega⟩
  have hc : 0 ≤ y - if m ≤ 2 then 1 else 0 := by omega
  have hn : 0 ≤ m + if 2 < m then -3 else 9 := by omega
  simp only [daysFromCivil, if_pos hc]
  generalize (y - if m ≤ 2 then 1 else 0) = c at hc ⊢
  generalize (m + if 2 < m then -3 else 9) = n at hn ⊢
  rw [Int.tdiv_eq_ediv_of_nonneg hc, Int.tdiv_eq_ediv_of_nonneg (by omega),
    Int.tdiv_eq_ediv_of_nonneg (by omega), Int.tdiv_eq_ediv_of_nonneg (by omega)]
  omega

/-- The seconds of the calendar, not cut to 32 bits. -/
def total (t : Datetime) : Int :=
  daysFromCivil t.year t.month t.day * 86400 + t.hour * 3600 + t.minute * 60 + t.second

/-- Later dates have larger stamps. -/
def stamp (t : Datetime) : Nat :=
  ((((t.year * 12 + t.month) * 31 + t.day) * 24 + t.hour) * 60 + t.minute) * 60 + t.second

theorem month_ends {y m : Nat} (hy : 1 ≤ y) (h1 : 1 ≤ m) (h2 : m < 12) :
    daysFromCivil y (m + 1 : Nat) (1 : Nat) = daysFromCivil y m (monthLength y m) + 1 := by
  obtain ⟨c, n, he, hc⟩ :=
    daysFromCivil_eq (y := y) (m := m) (by omega) (by omega) (monthLength y m)
  obtain ⟨c', n', he', hc'⟩ :=
    daysFromCivil_eq (y := y) (m := (m + 1 : Nat)) (by omega) (by omega) (1 : Nat)
  rw [he, he']
  by_cases h2 : m = 2
  · subst h2
    simp only [monthLength]
    split
    · omega
    · omega
  · interval_cases m
    all_goals simp only [monthLength]
    all_goals omega

theorem year_ends {y : Nat} (hy : 1 ≤ y) :
    daysFromCivil (y + 1 : Nat) (1 : Nat) (1 : Nat) = daysFromCivil y (12 : Nat)
    (31 : Nat) + 1 := by
  obtain ⟨c, n, he, hc⟩ :=
    daysFromCivil_eq (y := y) (m := (12 : Nat)) (by omega) (by omega) (31 : Nat)
  obtain ⟨c', n', he', hc'⟩ :=
    daysFromCivil_eq (y := (y + 1 : Nat)) (m := (1 : Nat)) (by omega) (by omega) (1 : Nat)
  omega

theorem monthLength_bounds (y m : Nat) : 28 ≤ monthLength y m ∧ monthLength y m ≤ 31 := by
  unfold monthLength
  split <;> grind

section

variable {t : Datetime} (hv : Valid t) (hy : 1970 ≤ t.year)
include hv

theorem Valid.next : Valid (next t) := by
  obtain ⟨hm, hd, ht⟩ := hv
  have := monthLength_bounds t.year (t.month + 1)
  have := monthLength_bounds (t.year + 1) 1
  unfold Rtc.next
  repeat' split
  all_goals constructor <;> dsimp only <;> omega

include hy

theorem days_nonneg : 0 ≤ daysFromCivil t.year t.month t.day := by
  obtain ⟨hm, hd, -⟩ := hv
  obtain ⟨c, n, he, hc⟩ := daysFromCivil_eq (y := t.year) (m := t.month) (by omega) (by omega) t.day
  obtain rfl | hlater : c = 1969 ∨ 1970 ≤ c := by omega
  · omega
  · omega

theorem epoch_eq : (rtcDatetimeToEpoch t : Int) = total t % 4294967296 := by
  have hpos := days_nonneg hv hy
  obtain ⟨hm, hd, ht⟩ := hv
  rw [rtcDatetimeToEpoch, daysInMonth_eq hm, if_neg (by omega), if_neg (by omega), total]
  omega

theorem total_next : total (next t) = total t + 1 := by
  obtain ⟨hm, hd, ht⟩ := hv
  unfold next
  split
  · simp only [total]
    omega
  split
  · simp only [total]
    omega
  split
  · simp only [total]
    omega
  split
  · simp only [total, daysFromCivil]
    omega
  have hday : t.day = monthLength t.year t.month := by omega
  split
  · have hend := month_ends (y := t.year) (by omega) hm.1 ‹_›
    rw [← hday] at hend
    simp only [total, hend]
    omega
  · have hend := year_ends (y := t.year) (by omega)
    have hlast : t.month = 12 := by omega
    rw [hlast] at hday
    have hday' : t.day = 31 := hday
    simp only [total, hlast, hday', hend]
    omega

theorem total_lt (hl : stamp t < stamp ⟨2106, 2, 7, 6, 28, 15⟩) : total t < 4294967295 := by
  obtain ⟨hm, hd, ht⟩ := hv
  have := monthLength_bounds t.year t.month
  obtain ⟨c, n, he, hc⟩ := daysFromCivil_eq (y := t.year) (m := t.month) (by omega) (by omega) t.day
  rw [total, he]
  simp only [stamp] at hl
  have hle : t.year ≤ 2106 := by omega
  obtain h | h | h : t.year = 2106 ∨ t.year = 2105 ∨ t.year ≤ 2104 := by omega
  · omega
  · omega
  · omega

end

/-- Up to the last second of 32 bits the result counts the seconds of the calendar. -/
theorem epoch_counts : rtcDatetimeToEpoch ⟨1970, 1, 1, 0, 0, 0⟩ = 0 ∧
    (∀ t, Valid t → 1970 ≤ t.year → stamp t < stamp ⟨2106, 2, 7, 6, 28, 15⟩ →
      rtcDatetimeToEpoch (next t) = rtcDatetimeToEpoch t + 1) ∧
    ∀ t, ¬ Valid t → rtcDatetimeToEpoch t = 0 := by
  refine ⟨by decide, fun t hv hy hl => ?_, fun t hv => ?_⟩
  · have hnext : t.year ≤ (next t).year := by
      unfold next
      repeat' split
      all_goals dsimp only
      all_goals omega
    have h1 := epoch_eq hv hy
    have h2 := epoch_eq hv.next (hy.trans hnext)
    have h3 : 0 ≤ total t := by
      have := days_nonneg hv hy
      rw [total]
      omega
    rw [total_next hv hy] at h2
    have h4 := total_lt hv hy hl
    omega
  · refine if_pos (Decidable.byContradiction fun h => hv ?_)
    have hm : 1 ≤ t.month ∧ t.month ≤ 12 := by omega
    rw [daysInMonth_eq hm] at h
    exact ⟨hm, by omega, by omega⟩

/-- The last second of a leap day. -/
theorem epoch_counts_leap : rtcDatetimeToEpoch ⟨2000, 3, 1, 0, 0, 0⟩ =
    rtcDatetimeToEpoch ⟨2000, 2, 29, 23, 59, 59⟩ + 1 :=
  epoch_counts.2.1 ⟨2000, 2, 29, 23, 59, 59⟩ ⟨by decide, by decide, by decide⟩
    (by decide) (by decide)

end MuOS.Kernel.Rtc
