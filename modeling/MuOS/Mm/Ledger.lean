import MuOS.Mm.FrameSpecs

namespace MuOS.Mm.Ledger

open Function Lib Word Frames FrameSpecs

/-- The allocator agrees with `held` and the reserved frames. -/
structure Consistent (s : Allocator) (held : Nat → Nat) (reserved : Nat → Prop) : Prop where
  total_le : s.totalPages ≤ maxPages
  free_eq : s.freePages = BitWords.clearCount s.totalPages (bitmapTest s)
  refs_eq : ∀ f, f < s.totalPages → s.frameRefs f = held f
  used_iff : ∀ f, f < s.totalPages → (bitmapTest s f = true ↔ 0 < held f ∨ reserved f)
  held_le : ∀ f, held f ≤ 255
  held_lt : ∀ f, 0 < held f → f < s.totalPages
  held_reserved : ∀ f, reserved f → held f = 0
  zero_reserved : reserved 0

variable {s : Allocator} {held : Nat → Nat} {reserved : Nat → Prop} {f : Nat}

section

variable (h : Consistent s held reserved)
include h

theorem Consistent.free_lt : s.freePages < 4294967296 := by
  have hc := BitWords.clearCount_le s.totalPages (bitmapTest s)
  have ht := h.total_le
  have hf := h.free_eq
  unfold maxPages at ht
  omega

theorem Consistent.free_iff (hf : f < s.totalPages) : bitmapTest s f = false ↔ held f = 0 ∧
    ¬ reserved f := by
  have hu := h.used_iff f hf
  constructor
  · intro ht
    rw [ht] at hu
    have hn : ¬(0 < held f ∨ reserved f) := fun ho => Bool.false_ne_true (hu.mpr ho)
    exact ⟨by by_contra h0; exact hn (.inl (Nat.pos_of_ne_zero h0)), fun hr => hn (.inr hr)⟩
  · rintro ⟨h0, hr⟩
    cases ht : bitmapTest s f with
    | false => rfl
    | true =>
      obtain hp | hp := hu.mp ht
      · omega
      · exact absurd hp hr

theorem Consistent.refInc {phys : Nat} (hp : 0 < held (phys / 4096))
    (hl : held (phys / 4096) < 255) : Consistent (mmPageRefInc s phys)
    (update held (phys / 4096) (held (phys / 4096) + 1)) reserved := by
  have ht := h.held_lt _ hp
  have hr := h.refs_eq _ ht
  have he : mmPageRefInc s phys = setRef s (phys / 4096) (s.frameRefs (phys / 4096) + 1) := by
    simp [mmPageRefInc, ht, hr, hl]
  rw [he]
  refine ⟨h.total_le, h.free_eq, ?_, ?_, ?_, ?_, ?_, h.zero_reserved⟩
  · intro f hf
    by_cases hk : f = phys / 4096
    · subst hk; simp [hr]
    · simpa [hk] using h.refs_eq f hf
  · intro f hf
    by_cases hk : f = phys / 4096
    · subst hk
      simpa [hp] using (h.used_iff _ ht)
    · simpa [hk] using h.used_iff f hf
  · intro f
    by_cases hk : f = phys / 4096
    · subst hk; simp only [update_self]; omega
    · simpa [hk] using h.held_le f
  · intro f hf
    by_cases hk : f = phys / 4096
    · subst hk; exact ht
    · exact h.held_lt f (by simpa [hk] using hf)
  · intro f hf
    by_cases hk : f = phys / 4096
    · subst hk
      have h0 := h.held_reserved _ hf
      omega
    · simpa [hk] using h.held_reserved f hf

theorem Consistent.unref {pfn : Nat} (hp : 0 < held pfn) :
    Consistent (pageUnref s pfn) (update held pfn (held pfn - 1)) reserved ∧
      (pageUnref s pfn).totalPages = s.totalPages := by
  have ht := h.held_lt _ hp
  have hr := h.refs_eq _ ht
  have hb : bitmapTest s pfn = true := (h.used_iff _ ht).mpr (.inl hp)
  have hlow : ∀ f, update held pfn (held pfn - 1) f ≤ held f := by
    intro f
    by_cases hk : f = pfn
    · subst hk; simp
    · simp [hk]
  have hle : ∀ f, update held pfn (held pfn - 1) f ≤ 255 :=
    fun f => (hlow f).trans (h.held_le f)
  have hlt : ∀ f, 0 < update held pfn (held pfn - 1) f → f < s.totalPages :=
    fun f hf => h.held_lt f (lt_of_lt_of_le hf (hlow f))
  have hres : ∀ f, reserved f → update held pfn (held pfn - 1) f = 0 := by
    intro f hf
    have h0 := h.held_reserved f hf
    have h1 := hlow f
    omega
  by_cases h1 : 1 < held pfn
  · have he : pageUnref s pfn = setRef s pfn (held pfn - 1) := by
      simp [pageUnref, ht, hr, h1]
    rw [he]
    refine ⟨⟨h.total_le, h.free_eq, ?_, ?_, hle, hlt, hres, h.zero_reserved⟩, rfl⟩
    · intro f hf
      by_cases hk : f = pfn
      · subst hk; simp
      · simpa [hk] using h.refs_eq f hf
    · intro f hf
      by_cases hk : f = pfn
      · subst hk
        simp only [test_setRef, hb, update_self, true_iff]
        exact .inl (by omega)
      · simpa [hk] using h.used_iff f hf
  · have hone : held pfn = 1 := by omega
    have he : pageUnref s pfn = setFree (bitmapClear (setRef s pfn 0) pfn) (add32 s.freePages 1) := by
      simp [pageUnref, ht, hr, hone, hb]
    rw [he]
    refine ⟨⟨h.total_le, ?_, ?_, ?_, hle, hlt, hres, h.zero_reserved⟩, rfl⟩
    · have hc := BitWords.clearCount_clear
        (u := bitmapTest (setFree (bitmapClear (setRef s pfn 0) pfn) (add32 s.freePages 1)))
        ht hb (by intro j; simp)
      have hf := BitWords.clearCount_le s.totalPages (bitmapTest s)
      have htl := h.total_le
      have hfe := h.free_eq
      unfold maxPages at htl
      rw [add32_eq (by omega), hfe]
      exact hc.symm
    · intro f hf
      by_cases hk : f = pfn
      · subst hk; simp [hone]
      · simpa [hk] using h.refs_eq f hf
    · intro f hf
      by_cases hk : f = pfn
      · subst hk
        have hnr : ¬ reserved f := fun hr => by
          have h0 := h.held_reserved f hr
          omega
        simp [hone, hnr]
      · have hk' : ¬ pfn = f := fun e => hk e.symm
        simpa [hk, hk'] using h.used_iff f hf

section

variable (hf : f < s.totalPages) (hb : bitmapTest s f = false) (n : Nat)
include hf hb n

theorem Consistent.mark (hn : n + 1 = s.freePages) :
    Consistent (setFree (setRef (bitmapSet s f) f 1) n) (update held f 1) reserved := by
  obtain ⟨h0, hnr⟩ := (h.free_iff hf).mp hb
  refine ⟨h.total_le, ?_, ?_, ?_, ?_, ?_, ?_, h.zero_reserved⟩
  · have hc := BitWords.clearCount_set
      (u := bitmapTest (setFree (setRef (bitmapSet s f) f 1) n)) hf hb (by intro j; simp)
    have hfe := h.free_eq
    change n = BitWords.clearCount s.totalPages _
    omega
  · intro g hg
    by_cases hk : g = f
    · subst hk; simp
    · simpa [hk] using h.refs_eq g hg
  · intro g hg
    by_cases hk : g = f
    · subst hk; simp
    have hk' : ¬ f = g := fun e => hk e.symm
    simpa [hk, hk'] using h.used_iff g hg
  · intro g
    by_cases hk : g = f
    · subst hk; simp
    · simpa [hk] using h.held_le g
  · intro g hg
    by_cases hk : g = f
    · subst hk; exact hf
    · exact h.held_lt g (by simpa [hk] using hg)
  · intro g hg
    by_cases hk : g = f
    · subst hk; exact absurd hg hnr
    · simpa [hk] using h.held_reserved g hg

theorem Consistent.reserve (hn : n + 1 = s.freePages) :
    Consistent (setFree (bitmapSet s f) n) held (fun g => g = f ∨ reserved g) := by
  obtain ⟨h0, hnr⟩ := (h.free_iff hf).mp hb
  refine ⟨h.total_le, ?_, h.refs_eq, ?_, h.held_le, h.held_lt, ?_, .inr h.zero_reserved⟩
  · have hc := BitWords.clearCount_set (u := bitmapTest (setFree (bitmapSet s f) n)) hf hb
      (by intro j; simp)
    have hfe := h.free_eq
    change n = BitWords.clearCount s.totalPages _
    omega
  · intro g hg
    by_cases hk : g = f
    · subst hk; simp
    have hk' : ¬ f = g := fun e => hk e.symm
    simpa [hk, hk'] using h.used_iff g hg
  · intro g hg
    obtain rfl | hg := hg
    · exact h0
    · exact h.held_reserved g hg

end

end

end MuOS.Mm.Ledger
