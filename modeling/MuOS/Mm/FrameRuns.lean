import MuOS.Lib.Runs
import MuOS.Mm.FrameOps

namespace MuOS.Mm.FrameRuns

open Lib Runs Frames FrameSpecs Ledger FrameOps List

/-- The allocator, references, blocks still out, reserved frames. -/
structure World where
  fr : Allocator
  held : Nat → Nat
  blocks : List (List Nat)
  reserved : Nat → Prop

inductive Action
  | allocPage
  | allocPages (count : Nat)
  | reserveRange (start stop : Nat)
  | refInc (phys : Nat)
  | freePage (addr : Nat)
  | freePages (addr count : Nat)

def grant (w : World) (count : Nat) (r : Nat × Allocator) : World :=
  if r.1 = 0 then { w with fr := r.2 }
  else ⟨r.2, heldRun w.held (r.1 / 4096) count,
    List.range' (r.1 / 4096) count :: w.blocks, w.reserved⟩

def fence (w : World) (start stop : Nat) (r : Bool × Allocator) : World :=
  if r.1 = false then { w with fr := r.2 }
  else { w with
    fr := r.2
    reserved := reservedRun w.reserved (start / 4096) ((stop - 1) / 4096 + 1 - start / 4096) }

def release (w : World) (fs : List Nat) (fr : Allocator) : World :=
  let held := dropAll w.held fs
  ⟨fr, held, w.blocks.map (List.filter (fun f => decide (0 < held f))), w.reserved⟩

/-- The frames `mm_free_pages` gives back, none if unaligned. -/
def freedBy (addr count : Nat) : List Nat :=
  if addr % 4096 = 0 then List.range' (addr / 4096) count else []

def step (w : World) : Action → Option World
  | .allocPage => some (grant w 1 (mmAllocPage w.fr))
  | .allocPages count => some (grant w count (mmAllocPages w.fr count))
  | .reserveRange start stop => some (fence w start stop (mmReserveRange w.fr start stop))
  | .refInc phys =>
    let f := phys / 4096
    if 0 < w.held f ∧ w.held f < 255 then
      some { w with fr := mmPageRefInc w.fr phys, held := Function.update w.held f (w.held f + 1) }
    else none
  | .freePage addr =>
    if 0 < w.held (addr / 4096) then some (release w [addr / 4096] (mmFreePage w.fr addr)) else none
  | .freePages addr count =>
    if ∀ f ∈ freedBy addr count, 0 < w.held f then
      some (release w (freedBy addr count) (mmFreePages w.fr addr count))
    else none

structure Sound (w : World) : Prop where
  consistent : Consistent w.fr w.held w.reserved
  disjoint : w.blocks.Pairwise List.Disjoint
  live : ∀ b ∈ w.blocks, ∀ f ∈ b, 0 < w.held f

/-- Every step keeps soundness, memory's size, and reservations. -/
structure Kept (w w' : World) : Prop where
  sound : Sound w'
  total : w'.fr.totalPages = w.fr.totalPages
  reserved : ∀ f, w.reserved f → w'.reserved f
  fresh : ∀ f, w'.reserved f → w.held f = 0

variable {w w' : World} {fr : Allocator} {a : Action}

section

variable (h : Sound w)
include h

theorem kept_refl : Kept w w :=
  ⟨h, rfl, fun _ hf => hf, h.consistent.held_reserved⟩

theorem grant_kept {start count : Nat} (hs : 0 < start)
    (ht : start + count ≤ w.fr.totalPages) (hfree : ∀ f, start ≤ f → f < start + count →
    bitmapTest w.fr f = false)
    (htot : fr.totalPages = w.fr.totalPages)
    (hc : Consistent fr (heldRun w.held start count) w.reserved) :
    Kept w (grant w count (start * 4096, fr)) := by
  have hne : ¬ start * 4096 = 0 := by omega
  have hdiv : start * 4096 / 4096 = start := by omega
  simp only [grant, hne, if_false, hdiv]
  refine ⟨⟨hc, ?_, ?_⟩, htot, fun _ hf => hf, h.consistent.held_reserved⟩
  · apply pairwise_cons.mpr
    refine ⟨?_, h.disjoint⟩
    intro b hb f hf hfb
    obtain ⟨h1, h2⟩ := mem_range'_1.mp hf
    have h0 := ((h.consistent.free_iff (by omega)).mp (hfree f h1 h2)).1
    have hl := h.live b hb f hfb
    omega
  · intro b hb f hf
    cases mem_cons.mp hb with
    | inl he =>
      subst he
      have hm := mem_range'_1.mp hf
      simp [heldRun, hm]
    | inr hb =>
      have hl := h.live b hb f hf
      simp only [heldRun]
      split
      · omega
      · exact hl

theorem release_kept {fs : List Nat} (hfs : ∀ f, fs.count f ≤ w.held f) :
    Kept w (release w fs (fs.foldl pageUnref w.fr)) := by
  obtain ⟨hc, ht⟩ := unrefAll_spec fs h.consistent hfs
  refine ⟨⟨hc, ?_, ?_⟩, ht, fun _ hf => hf, h.consistent.held_reserved⟩
  · apply List.Pairwise.map _ _ h.disjoint
    intro a b hab f hfa hfb
    exact hab (mem_of_mem_filter hfa) (mem_of_mem_filter hfb)
  · intro b hb f hf
    obtain ⟨b', -, rfl⟩ := mem_map.mp hb
    exact of_decide_eq_true (mem_filter.mp hf).2

omit h in
theorem count_range'_le (start count f : Nat) (held : Nat → Nat)
    (h : ∀ f ∈ List.range' start count, 0 < held f) :
    (List.range' start count).count f ≤ held f := by
  by_cases hf : f ∈ List.range' start count
  · rw [count_eq_one_of_mem nodup_range' hf]
    exact h f hf
  · rw [count_eq_zero_of_not_mem hf]
    exact Nat.zero_le _

theorem freePages_release {addr count : Nat} (hheld : ∀ f ∈ freedBy addr count, 0 < w.held f) :
    mmFreePages w.fr addr count = (freedBy addr count).foldl pageUnref w.fr ∧
      ∀ f, (freedBy addr count).count f ≤ w.held f := by
  by_cases ha : addr % 4096 = 0
  · simp only [freedBy, ha, if_true] at hheld ⊢
    refine ⟨freePages_eq h.consistent ha ?_, fun f => count_range'_le _ _ f _ hheld⟩
    exact fun i hi => hheld _ (mem_range'_1.mpr (by omega))
  · simp [freedBy, mmFreePages, ha]

theorem step_kept (hs : step w a = some w') : Kept w w' := by
  cases a with
  | allocPage =>
    simp only [step, Option.some.injEq] at hs
    subst hs
    obtain ⟨he, -⟩ | ⟨f, fr, he, hp, ht, hb, -, htot, hc⟩ := allocPage_spec h.consistent
    · rw [he]
      exact kept_refl h
    rw [he]
    apply grant_kept h hp (by omega) _ htot hc
    intro g h1 h2
    have hg : g = f := by omega
    exact hg ▸ hb
  | allocPages count =>
    simp only [step, Option.some.injEq] at hs
    subst hs
    obtain ⟨he, -⟩ | ⟨start, fr, he, hp, ⟨⟨ht, hfree⟩, -⟩, htot, hc⟩ := allocPages_spec h.consistent count
    · rw [he]
      exact kept_refl h
    · rw [he]
      exact grant_kept h hp ht hfree htot hc
  | reserveRange start stop =>
    simp only [step, Option.some.injEq] at hs
    subst hs
    obtain he | ⟨first, count, fr, he, rfl, hcount, -, -, htot, hc⟩ :=
      reserveRange_spec h.consistent start stop
    · rw [he]
      exact kept_refl h
    · rw [he]
      have he : (stop - 1) / 4096 + 1 - start / 4096 = count := by omega
      simp only [fence, Bool.true_eq_false, if_false, he]
      exact ⟨⟨hc, h.disjoint, h.live⟩, htot, fun _ hf => .inr hf, hc.held_reserved⟩
  | refInc phys =>
    by_cases hg : 0 < w.held (phys / 4096) ∧ w.held (phys / 4096) < 255
    · simp only [step, hg, and_self, if_true, Option.some.injEq] at hs
      subst hs
      have hc := h.consistent.refInc hg.1 hg.2
      refine ⟨⟨hc, h.disjoint, ?_⟩, ?_, fun _ hf => hf, h.consistent.held_reserved⟩
      · intro b hb f hf
        have hl := h.live b hb f hf
        by_cases hk : f = phys / 4096
        · subst hk; simp
        · simpa [hk] using hl
      · exact total_mmPageRefInc w.fr phys
    · simp [step, hg] at hs
  | freePage addr =>
    by_cases hg : 0 < w.held (addr / 4096)
    · simp only [step, hg, if_true, Option.some.injEq] at hs
      subst hs
      have ht := h.consistent.held_lt _ hg
      have he : mmFreePage w.fr addr = [addr / 4096].foldl pageUnref w.fr := by
        simp [mmFreePage, ht]
      rw [he]
      apply release_kept h
      intro f
      by_cases hk : f = addr / 4096
      · subst hk
        simp only [count_singleton_self]
        exact hg
      · rw [count_eq_zero_of_not_mem (by simpa using hk)]
        exact Nat.zero_le _
    · simp [step, hg] at hs
  | freePages addr count =>
    by_cases hg : ∀ f ∈ freedBy addr count, 0 < w.held f
    · rw [step, if_pos hg, Option.some.injEq] at hs
      subst hs
      obtain ⟨he, hle⟩ := freePages_release h hg
      rw [he]
      exact release_kept h hle
    · rw [step, if_neg hg] at hs
      cases hs

theorem available_iff (hs : step w a = some w') {f : Nat} (hf : f < w.fr.totalPages) :
    (bitmapTest w.fr f = true ∧ bitmapTest w'.fr f = false) ↔ (0 < w.held f ∧ w'.held f = 0) := by
  have hk := step_kept h hs
  have hu := h.consistent.used_iff f hf
  have hfree := hk.sound.consistent.free_iff (by rw [hk.total]; exact hf)
  rw [hu, hfree]
  constructor
  · rintro ⟨hp | hr, h0, hnr⟩
    · exact ⟨hp, h0⟩
    · exact absurd (hk.reserved f hr) hnr
  · rintro ⟨hp, h0⟩
    refine ⟨.inl hp, h0, ?_⟩
    intro hr
    have hz := hk.fresh f hr
    omega

end

/-- Over every sequence of calls the free counter is the number of clear bits, live blocks are
disjoint and unreserved, and a frame is available again exactly when its last reference is dropped. -/
theorem frame_allocator_runs (h : Sound w) (as : List Action) (hr : run step w as = some w') :
    w'.fr.freePages = BitWords.clearCount w'.fr.totalPages (bitmapTest w'.fr) ∧
    w'.blocks.Pairwise List.Disjoint ∧
    (∀ b ∈ w'.blocks, ∀ f ∈ b, f < w'.fr.totalPages ∧ bitmapTest w'.fr f = true ∧ ¬ w'.reserved f) ∧
    (∀ f, f < w'.fr.totalPages → w'.fr.frameRefs f = w'.held f) ∧ ∀ a w'', step w' a = some w'' →
      ∀ f, f < w'.fr.totalPages →
      ((bitmapTest w'.fr f = true ∧ bitmapTest w''.fr f = false) ↔ (0 < w'.held f ∧ w''.held f = 0)) := by
  have hs := run_invariant (fun _ _ _ hw hs => (step_kept hw hs).sound) h hr
  have hc := hs.consistent
  refine ⟨hc.free_eq, hs.disjoint, ?_, hc.refs_eq, fun a w'' ha f hf => available_iff hs ha hf⟩
  intro b hb f hf
  have hl := hs.live b hb f hf
  have ht := hc.held_lt f hl
  refine ⟨ht, (hc.used_iff f ht).mpr (.inl hl), ?_⟩
  intro hres
  have h0 := hc.held_reserved f hres
  omega

def smallWorld : World :=
  ⟨⟨Function.update (fun _ => 0#32) 0 1#32, fun _ => 0, 40, 39⟩, fun _ => 0, [], fun f => f = 0⟩

theorem smallWorld_sound : Sound smallWorld := by
  refine ⟨⟨by decide, by decide, fun _ _ => rfl, ?_, fun _ => Nat.zero_le _, ?_, fun _ _ => rfl,
    rfl⟩, List.Pairwise.nil, fun _ hb => absurd hb not_mem_nil⟩
  · have hd : ∀ f < 40, bitmapTest smallWorld.fr f = true ↔ 0 < smallWorld.held f ∨ f = 0 := by decide
    exact hd
  · exact fun _ hf => absurd hf (Nat.lt_irrefl 0)

def smallRun : List Action :=
  [.allocPage, .refInc 4096, .allocPages 3, .reserveRange 0x8000 0xA000, .freePage 4096,
    .freePages 0x2000 2, .freePage 4096]

theorem frame_allocator_runs_small : ∃ w', run step smallWorld smallRun = some w' ∧
    w'.blocks = [[4], []] ∧ w'.fr.freePages = 36 ∧
    w'.fr.freePages = BitWords.clearCount w'.fr.totalPages (bitmapTest w'.fr) :=
  ⟨_, rfl, by decide, by decide, (frame_allocator_runs smallWorld_sound smallRun rfl).1⟩

end MuOS.Mm.FrameRuns
