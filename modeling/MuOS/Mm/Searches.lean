import MuOS.Mm.FrameOps

namespace MuOS.Mm.Searches

open Lib Word Frames FrameSpecs FrameOps

variable {s : Allocator} {f : Nat}

theorem alloc_pages_lowest (hf : s.freePages = BitWords.clearCount s.totalPages (bitmapTest s))
    (count : Nat) : ((count = 0 ∨ ∀ q, ¬ FreeRun s count q) → mmAllocPages s count = (0, s)) ∧
      (∀ start, 0 < count → IsLeast {q | FreeRun s count q} start →
        (mmAllocPages s count).1 = start * 4096 ∧ ∀ f, bitmapTest
        (mmAllocPages s count).2 f = (decide (start ≤ f ∧ f < start + count) || bitmapTest s f)) ∧
      ((mmAllocPages s count).1 = 0 ↔ count = 0 ∨ (∀ q, ¬ FreeRun s count q) ∨ FreeRun s count 0) := by
  obtain ⟨he, hno⟩ | ⟨r, h0, hr, -, he⟩ := allocPages_lowest hf count
  · refine ⟨fun _ => he, fun start hc hs => ?_, by rw [he]; tauto⟩
    obtain hz | hno := hno
    · omega
    · exact absurd hs.1 (hno start)
  · refine ⟨fun hno => ?_, fun start hc hs => ?_, ?_⟩
    · obtain hz | hno := hno
      · omega
      · exact absurd hr.1 (hno r)
    · rw [hs.unique hr, he]
      exact ⟨rfl, fun f => by rw [test_setFree, markRun_test]⟩
    rw [he]
    constructor
    · intro hz
      have hr0 : r = 0 := by simp only at hz; omega
      exact .inr (.inr (hr0 ▸ hr.1))
    · rintro (hz | hno | hz)
      · omega
      · exact absurd hr.1 (hno r)
      · rw [Nat.le_zero.mp (hr.2 hz)]

/-- Eight frames, of which the first is reserved at boot. -/
def firstReserved : Allocator := ⟨fun _ => 1#32, fun _ => 0, 8, 7⟩

theorem alloc_pages_lowest_small : (mmAllocPages firstReserved 7).1 = 1 * 4096 := by
  refine ((alloc_pages_lowest (by decide +kernel) 7).2.1 1 (by decide) ⟨⟨by decide, ?_⟩, ?_⟩).1
  · have hall : ∀ f < 8, 1 ≤ f → bitmapTest firstReserved f = false := by decide +kernel
    exact fun f h1 h2 => hall f h2 h1
  rintro q ⟨h1, h2⟩
  by_contra hq
  have hz := h2 0 (by omega) (by omega)
  revert hz
  decide +kernel

theorem frame_zero_is_null : (mmAllocPages ⟨fun _ => 0#32, fun _ => 0, 1, 1⟩ 1).1 = 0 ∧
    bitmapTest (mmAllocPages ⟨fun _ => 0#32, fun _ => 0, 1, 1⟩ 1).2 0 = true := by decide +kernel

/-- The frame is beyond memory or free: nothing to give back. -/
def Idle (s : Allocator) (pfn : Nat) : Prop :=
  s.totalPages ≤ pfn ∨ s.frameRefs pfn = 0 ∧ bitmapTest s pfn = false

structure Below (s u : Allocator) : Prop where
  refs : ∀ f, s.frameRefs f ≤ u.frameRefs f
  used : ∀ f, bitmapTest s f = true → bitmapTest u f = true

theorem pageUnref_idle (h : Idle s f) : pageUnref s f = s := by
  unfold pageUnref
  obtain h | ⟨hr, hb⟩ := h
  · rw [if_pos h]
  split
  · rfl
  · have hs : setRef s f 0 = s := by rw [setRef, ← hr, Function.update_eq_self]
    simp [hr, hs, hb]

theorem pageUnref_below (s : Allocator) (f : Nat) : Below (pageUnref s f) s := by
  unfold pageUnref
  have hle : ∀ n, n ≤ s.frameRefs f → ∀ g, Function.update s.frameRefs f n g ≤ s.frameRefs g := by
    intro n hn g
    by_cases hg : g = f
    · rwa [hg, Function.update_self]
    · rw [Function.update_of_ne hg]
  split
  · exact ⟨fun _ => le_rfl, fun _ h => h⟩
  split
  · exact ⟨hle _ (Nat.sub_le _ _), fun _ h => h⟩
  dsimp only
  split
  · exact ⟨hle _ (Nat.zero_le _), fun g h => by simp at h; exact h.2⟩
  · exact ⟨hle _ (Nat.zero_le _), fun _ h => h⟩

theorem idle_of_below (h : Below s (pageUnref s f)) : Idle s f := by
  have h1 := h.refs f
  have h2 := h.used f
  by_cases ht : s.totalPages ≤ f
  · exact .inl ht
  by_cases hr : 1 < s.frameRefs f
  · simp [pageUnref, ht, hr] at h1
    omega
  cases hb : bitmapTest s f with
  | false => exact .inr ⟨by simpa [pageUnref, ht, hr, hb] using h1, hb⟩
  | true => simp [pageUnref, ht, hr, hb] at h2

theorem Below.trans {u v : Allocator} (h : Below s u) (h' : Below u v) : Below s v :=
  ⟨fun f => (h.refs f).trans (h'.refs f), fun f hf => h'.used f (h.used f hf)⟩

theorem unrefAll_below (fs : List Nat) (s : Allocator) : Below (fs.foldl pageUnref s) s := by
  induction fs generalizing s with
  | nil => exact ⟨fun _ => le_rfl, fun _ h => h⟩
  | cons f fs ih => exact (ih _).trans (pageUnref_below s f)

theorem unrefAll_iff (fs : List Nat) : fs.foldl pageUnref s = s ↔ ∀ f ∈ fs, Idle s f := by
  induction fs with
  | nil => simp
  | cons f fs ih =>
    have hi : (f :: fs).foldl pageUnref s = s → Idle s f := by
      intro he
      have hb := unrefAll_below fs (pageUnref s f)
      rw [List.foldl_cons] at he
      rw [he] at hb
      exact idle_of_below hb
    rw [List.forall_mem_cons]
    constructor
    · intro he
      have hf := hi he
      rw [List.foldl_cons, pageUnref_idle hf] at he
      exact ⟨hf, ih.mp he⟩
    · rintro ⟨hf, hfs⟩
      rw [List.foldl_cons, pageUnref_idle hf]
      exact ih.mpr hfs

/-- A call gives nothing back exactly when it is refused or when every frame it reaches is idle. -/
theorem free_unchanged_iff (s : Allocator) (addr count : Nat) :
    (mmFreePage s addr = s ↔ Idle s (addr / 4096)) ∧
      (mmFreePages s addr count = s ↔ (count = 0 ∨ addr % 4096 ≠ 0 ∨ s.totalPages ≤ addr / 4096 ∨
        s.totalPages < add32 (addr / 4096) count) ∨ ∀ i < count, Idle s (add32 (addr / 4096) i)) := by
  constructor
  · have h := unrefAll_iff (s := s) [addr / 4096]
    simp only [List.foldl_cons, List.foldl_nil, List.forall_mem_singleton] at h
    rw [← h, mmFreePage]
    split
    · rfl
    · rw [pageUnref, if_pos (by omega)]
  · have h := unrefAll_iff (s := s) ((List.range count).map fun i => add32 (addr / 4096) i)
    simp only [List.foldl_map, List.forall_mem_map, List.mem_range] at h
    rw [mmFreePages]
    grind

theorem reserved_frame_freed : bitmapTest firstReserved 0 = true ∧ firstReserved.frameRefs 0 = 0 ∧
    bitmapTest (mmFreePage firstReserved 0) 0 = false ∧
    (mmFreePage firstReserved 0).freePages = 8 := by
  decide +kernel

end MuOS.Mm.Searches
