import Mathlib.Data.List.GetD
import Mathlib.Data.List.OfFn
import Mathlib.Data.List.TakeWhile
import Mathlib.Tactic.Common

namespace MuOS.Lib.CStrings

open List

/-- A string of C: no character is NUL. -/
structure CString where
  chars : List (BitVec 8)
  no_nul : 0#8 ∉ chars

variable {n : Nat} {a : Fin n → BitVec 8} {s : List (BitVec 8)}

def strAt (a : Fin n → BitVec 8) : List (BitVec 8) := (List.ofFn a).takeWhile (fun c => c ≠ 0#8)

def putStr (a : Fin n → BitVec 8) (s : List (BitVec 8)) : Fin n → BitVec 8 :=
  fun i => if i.val < s.length then s.getD i.val 0#8 else if i.val = s.length then 0#8 else a i

theorem strAt_no_nul (a : Fin n → BitVec 8) : 0#8 ∉ strAt a := by
  intro h
  simpa using mem_takeWhile_imp h

theorem strAt_eq {t : List (BitVec 8)} (hl : List.ofFn a = s ++ 0#8 :: t) (hs : 0#8 ∉ s) :
    strAt a = s := by
  have hp : ∀ c ∈ s, (decide (c ≠ 0#8)) = true := by
    intro c hc
    exact decide_eq_true fun h => hs (h ▸ hc)
  rw [strAt, hl, List.takeWhile_append_of_pos hp]
  simp

theorem strAt_putStr (a : Fin n → BitVec 8) (hs : 0#8 ∉ s) (hn : s.length < n) :
    strAt (putStr a s) = s := by
  refine strAt_eq (t := (ofFn (putStr a s)).drop (s.length + 1)) ?_ hs
  refine ext_getElem (by simp; omega) ?_
  intro i h1 h2
  rw [List.getElem_ofFn, putStr]
  by_cases hi : i < s.length
  · rw [if_pos hi, getElem_append_left hi, getD_eq_getElem _ _ hi]
  rw [List.getElem_append_right (by omega)]
  by_cases he : i = s.length
  · simp [he]
  obtain ⟨k, hk⟩ : ∃ k, i - s.length = k + 1 := ⟨i - s.length - 1, by omega⟩
  have hki : s.length + 1 + k = i := by omega
  simp only [hk, List.getElem_cons_succ, List.getElem_drop, List.getElem_ofFn, putStr,
    hki, if_neg hi]

theorem strAt_head_nul (h0 : 0 < n) (h : a ⟨0, h0⟩ = 0#8) : strAt a = [] := by
  obtain ⟨m, rfl⟩ : ∃ m, n = m + 1 := ⟨n - 1, by omega⟩
  refine strAt_eq (t := ofFn fun i : Fin m => a i.succ) ?_ not_mem_nil
  rw [ofFn_succ]
  congr 1

end MuOS.Lib.CStrings
