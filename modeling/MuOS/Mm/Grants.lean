import MuOS.Mm.FrameOps

namespace MuOS.Mm.Grants

open Frames FrameSpecs Ledger FrameOps List Nat

variable {s : Allocator} {held : Nat → Nat} {reserved : Nat → Prop} {fs : List Nat} {gs : List Nat}

def addAll (held : Nat → Nat) (fs : List Nat) : Nat → Nat := fun f => held f + fs.count f

section

variable (held)

theorem addAll_nil : addAll held [] = held := by
  funext f
  simp [addAll]

theorem addAll_addAll (fs gs : List Nat) : addAll (addAll held fs) gs = addAll held (fs ++ gs) := by
  funext f
  simp only [addAll, count_append]
  omega

theorem addAll_perm (h : fs.Perm gs) : addAll held fs = addAll held gs := by
  funext f
  simp only [addAll, h.count_eq]

theorem dropAll_addAll (fs gs : List Nat) :
    dropAll (addAll held (fs ++ gs)) gs = addAll held fs := by
  funext f
  simp only [dropAll, addAll, count_append]
  omega

theorem count_range' (start count f : Nat) :
    (List.range' start count).count f = if start ≤ f ∧ f < start + count then 1 else 0 := by
  have hn : (range' start count).Nodup := nodup_range'
  split
  · rename_i h
    exact count_eq_one_of_mem hn (mem_range'_1.mpr h)
  · rename_i h
    exact count_eq_zero_of_not_mem fun hm => h (mem_range'_1.mp hm)

theorem heldRun_eq_addAll (start count : Nat) :
    heldRun held start count = addAll held (List.range' start count) := by
  funext f
  simp only [heldRun, addAll, count_range']
  split <;> rfl

end

/-- What `mm_alloc_page` hands out: the lowest frame to be had. -/
structure Fresh (held : Nat → Nat) (reserved : Nat → Prop) (f : Nat) : Prop where
  pos : 0 < f
  lt : f < 1048576
  unheld : held f = 0
  unreserved : ¬ reserved f
  lowest : ∀ g, g < f → 0 < held g ∨ reserved g

/-- The first frame of the run `mm_alloc_pages` hands out. -/
structure FreshRun (held : Nat → Nat) (reserved : Nat → Prop) (start count : Nat) : Prop where
  pos : 0 < start
  lt : start + count ≤ 1048576
  unheld : ∀ f, start ≤ f → f < start + count → held f = 0
  unreserved : ∀ f, start ≤ f → f < start + count → ¬ reserved f
  lowest : ∀ q, q < start → ∃ f, q ≤ f ∧ f < q + count ∧ (0 < held f ∨ reserved f)

def Takes (reserved : Nat → Prop) : (Nat → Nat) → List Nat → Prop
  | _, [] => True
  | held, f :: fs => Fresh held reserved f ∧ Takes reserved (addAll held [f]) fs

theorem Fresh.unique {f g : Nat} (h : Fresh held reserved f) (h0 : held g = 0) (hr : ¬ reserved g)
    (hlow : ∀ k, k < g → 0 < held k ∨ reserved k) : f = g := by
  by_contra hne
  obtain hlt | hlt := lt_or_gt_of_ne hne
  · obtain hk | hk := hlow f hlt
    · exact absurd h.unheld (by omega)
    · exact h.unreserved hk
  · obtain hk | hk := h.lowest g hlt
    · omega
    · exact hr hk

theorem FreshRun.unique {p q count : Nat} (h : FreshRun held reserved p count)
    (h0 : ∀ f, q ≤ f → f < q + count → held f = 0 ∧ ¬ reserved f)
    (hlow : ∀ k, k < q → ∃ f, k ≤ f ∧ f < k + count ∧ (0 < held f ∨ reserved f)) : p = q := by
  by_contra hne
  obtain hlt | hlt := lt_or_gt_of_ne hne
  · obtain ⟨f, h1, h2, hk⟩ := hlow p hlt
    obtain hk | hk := hk
    · exact absurd (h.unheld f h1 h2) (by omega)
    · exact h.unreserved f h1 h2 hk
  · obtain ⟨f, h1, h2, hk⟩ := h.lowest q hlt
    obtain ⟨hz, hr⟩ := h0 f h1 h2
    obtain hk | hk := hk
    · omega
    · exact hr hk

section

variable (h : Takes reserved held fs)
include h

theorem Takes.fresh : ∀ f ∈ fs, held f = 0 ∧ 0 < f ∧ f < 1048576 := by
  induction fs generalizing held with
  | nil => exact fun f hf => absurd hf not_mem_nil
  | cons a fs ih =>
    intro f hf
    cases mem_cons.mp hf with
    | inl he => exact he ▸ ⟨h.1.unheld, h.1.pos, h.1.lt⟩
    | inr hf =>
      obtain ⟨h0, hf⟩ := ih h.2 f hf
      simp only [addAll] at h0
      exact ⟨by omega, hf⟩

section

variable (f : Nat) (hf : f ∈ fs)
include f hf

theorem Takes.unheld : held f = 0 := (h.fresh f hf).1

theorem Takes.pos : 0 < f := (h.fresh f hf).2.1

theorem Takes.lt : f < 1048576 := (h.fresh f hf).2.2

end

theorem Takes.nodup : fs.Nodup := by
  induction fs generalizing held with
  | nil => exact nodup_nil
  | cons a fs ih =>
    refine nodup_cons.mpr ⟨fun hm => ?_, ih h.2⟩
    have h0 := h.2.unheld a hm
    simp [addAll] at h0

end

theorem Takes.append (h : Takes reserved held fs)
    (h' : Takes reserved (addAll held fs) gs) : Takes reserved held (fs ++ gs) := by
  induction fs generalizing held with
  | nil =>
    exact h'
  | cons a fs ih =>
    refine ⟨h.1, ih h.2 ?_⟩
    rw [addAll_addAll]
    exact h'

section

variable (h : Consistent s held reserved)
include h

theorem used_of_test {g : Nat} (hg : g < s.totalPages)
    (ht : bitmapTest s g = true) : 0 < held g ∨ reserved g := (h.used_iff g hg).mp ht

theorem alloc_grant : (mmAllocPage s = (0, s) ∧ ∀ f, f < s.totalPages → 0 < held f ∨ reserved f) ∨
      ∃ f s', mmAllocPage s = (f * 4096, s') ∧ Fresh held reserved f ∧
        s'.totalPages = s.totalPages ∧ Consistent s' (addAll held [f]) reserved := by
  have hmax := h.total_le
  unfold maxPages at hmax
  obtain ⟨he, hall⟩ | ⟨f, s', he, hpos, hlt, hb, hlow, ht, hc⟩ := allocPage_spec h
  · exact .inl ⟨he, fun f hf => used_of_test h hf (hall f hf)⟩
  obtain ⟨h0, hr⟩ := (h.free_iff hlt).mp hb
  refine .inr ⟨f, s', he, ⟨hpos, by omega, h0, hr, ?_⟩, ht, ?_⟩
  · exact fun g hg => used_of_test h (by omega) (hlow g hg)
  · rw [heldRun_eq_addAll] at hc
    exact hc

theorem allocPages_grant {count : Nat} (hcount : 0 < count) :
    (mmAllocPages s count = (0, s) ∧ ∀ q, q + count ≤ s.totalPages →
        ∃ f, q ≤ f ∧ f < q + count ∧ (0 < held f ∨ reserved f)) ∨
      ∃ start s', mmAllocPages s count = (start * 4096, s') ∧ FreshRun held reserved start count ∧
        s'.totalPages = s.totalPages ∧ Consistent s' (addAll held (List.range' start count)) reserved := by
  have hmax := h.total_le
  unfold maxPages at hmax
  have hused : ∀ q, q + count ≤ s.totalPages → ¬ FreeRun s count q →
      ∃ f, q ≤ f ∧ f < q + count ∧ (0 < held f ∨ reserved f) := by
    intro q hq hno
    by_contra hn
    push Not at hn
    refine hno ⟨hq, fun f h1 h2 => ?_⟩
    obtain ⟨h0, hr⟩ := hn f h1 h2
    exact (h.free_iff (by omega)).mpr ⟨by omega, hr⟩
  obtain ⟨he, hno⟩ | ⟨start, s', he, hpos, ⟨⟨hle, hfree⟩, hlow⟩, ht, hc⟩ := allocPages_spec h count
  · obtain h0 | hno := hno
    · omega
    · exact .inl ⟨he, fun q hq => hused q hq (hno q)⟩
  have hopen : ∀ f, start ≤ f → f < start + count → held f = 0 ∧ ¬ reserved f :=
    fun f h1 h2 => (h.free_iff (by omega)).mp (hfree f h1 h2)
  refine .inr ⟨start, s', he, ⟨hpos, by omega, fun f h1 h2 => (hopen f h1 h2).1,
    fun f h1 h2 => (hopen f h1 h2).2, ?_⟩, ht, ?_⟩
  · exact fun q hq => hused q (by omega) fun hr => Nat.not_le.mpr hq (hlow hr)
  · rw [heldRun_eq_addAll] at hc
    exact hc

end

theorem incAll_spec (fs : List Nat) (h : Consistent s held reserved) (hpos : ∀ f ∈ fs, 0 < held f)
    (hle : ∀ f, held f + fs.count f ≤ 255) :
    Consistent (fs.foldl (fun s f => mmPageRefInc s (f * 4096)) s) (addAll held fs) reserved ∧
      (fs.foldl (fun s f => mmPageRefInc s (f * 4096)) s).totalPages = s.totalPages := by
  induction fs generalizing s held with
  | nil =>
    exact ⟨h, rfl⟩
  | cons a fs ih =>
    have hd : a * 4096 / 4096 = a := by omega
    have ha := hle a
    rw [count_cons_self] at ha
    have hinc : Consistent (mmPageRefInc s (a * 4096)) _ reserved :=
      h.refInc (by rw [hd]; exact hpos a mem_cons_self) (by rw [hd]; omega)
    have hupd : Function.update held (a * 4096 / 4096) (held (a * 4096 / 4096) + 1) = addAll held [a] := by
      funext f
      by_cases hf : f = a
      · subst hf; simp [addAll]
      · simp [addAll, hf, count_cons_of_ne (Ne.symm hf)]
    rw [hupd] at hinc
    obtain ⟨hc, ht⟩ := ih hinc
      (fun f hf => lt_of_lt_of_le (hpos f (mem_cons_of_mem _ hf)) (le_add_right _ _)) (fun f => by
        have hf := hle f
        simp only [addAll, count_cons, count_nil] at hf ⊢
        omega)
    rw [addAll_addAll] at hc
    exact ⟨hc, ht.trans (total_mmPageRefInc s _)⟩

end MuOS.Mm.Grants
