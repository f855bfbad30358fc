import Mathlib.Tactic.Common

namespace MuOS.Lib.Spans

open List

variable {lo hi : Nat}

/-- The addresses from `lo` up to `hi`. -/
structure Span where
  lo : Nat
  hi : Nat
deriving DecidableEq

def Span.Has (s : Span) (x : Nat) : Prop := s.lo ≤ x ∧ x < s.hi

instance (s : Span) (x : Nat) : Decidable (s.Has x) := inferInstanceAs (Decidable (_ ∧ _))

def Apart (s t : Span) : Prop := ∀ x, s.Has x → ¬ t.Has x

def Below (n : Nat) (spans : List Span) : Prop := ∀ s ∈ spans, s.hi ≤ n

/-- What is left of a span below `n`. -/
def Span.cut (n : Nat) (s : Span) : Span := ⟨s.lo, min s.hi n⟩

def Within (lo hi : Nat) (spans : List Span) : Prop := ∀ s ∈ spans, lo ≤ s.lo ∧ s.hi ≤ hi

variable {s t : Span} {spans spans' : List Span} {n m : Nat}

theorem Apart.symm (h : Apart s t) : Apart t s := fun x ht hs => h x hs ht

theorem apart_of_le (h : s.hi ≤ t.lo) : Apart s t :=
  fun _ hs ht => absurd (Nat.lt_of_lt_of_le hs.2 h) (Nat.not_lt.mpr ht.1)

theorem below_nil (n : Nat) : Below n [] := fun _ hs => absurd hs List.not_mem_nil

theorem Below.cons (h : Below n spans) (hs : s.hi ≤ n) : Below n (s :: spans) := by
  intro t ht
  obtain rfl | ht := mem_cons.mp ht
  · exact hs
  · exact h t ht

theorem Below.append (h : Below n spans) (h' : Below n spans') : Below n (spans ++ spans') := by
  intro s hs
  obtain hs | hs := mem_append.mp hs
  · exact h s hs
  · exact h' s hs

theorem Below.mono (h : Below n spans) (hn : n ≤ m) : Below m spans :=
  fun s hs => Nat.le_trans (h s hs) hn

theorem below_cut (n : Nat) (spans : List Span) : Below n (spans.map (Span.cut n)) := by
  intro s hs
  obtain ⟨t, -, rfl⟩ := mem_map.mp hs
  exact Nat.min_le_right _ _

theorem Below.apart (h : Below n spans) (hn : n ≤ s.lo) : ∀ t ∈ spans, Apart s t :=
  fun t ht => (apart_of_le (Nat.le_trans (h t ht) hn)).symm

theorem Within.cons (h : Within lo hi spans) (hlo : lo ≤ s.lo) (hhi : s.hi ≤ hi) :
    Within lo hi (s :: spans) := by
  intro t ht
  obtain rfl | ht := mem_cons.mp ht
  · exact ⟨hlo, hhi⟩
  · exact h t ht

theorem Within.append (h : Within lo hi spans) (h' : Within lo hi spans') :
    Within lo hi (spans ++ spans') := by
  intro s hs
  obtain hs | hs := mem_append.mp hs
  · exact h s hs
  · exact h' s hs

theorem Within.left (h : Within lo hi (spans ++ spans')) : Within lo hi spans :=
  fun s hs => h s (mem_append_left _ hs)

theorem Within.right (h : Within lo hi (spans ++ spans')) : Within lo hi spans' :=
  fun s hs => h s (mem_append_right _ hs)

theorem Within.cut (h : Within lo hi spans) (n : Nat) : Within lo hi (spans.map (Span.cut n)) := by
  intro s hs
  obtain ⟨t, ht, rfl⟩ := mem_map.mp hs
  exact ⟨(h t ht).1, Nat.le_trans (Nat.min_le_left _ _) (h t ht).2⟩

theorem Within.apart {mid mid' : Nat} (h : Within lo mid spans) (h' : Within mid' hi spans')
    (hm : mid ≤ mid') : ∀ s ∈ spans, ∀ t ∈ spans', Apart s t :=
  fun s hs t ht => apart_of_le (Nat.le_trans (h s hs).2 (Nat.le_trans hm (h' t ht).1))

end MuOS.Lib.Spans
