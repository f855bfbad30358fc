import MuOS.Kheap.Tiling
import MuOS.Mm.FrameOps

namespace MuOS.Kheap.HeapOps

open Lib Memory Word Segments Mm Frames Ledger FrameOps Alloc Tiling Nat

structure Formed (h : Heap) (bs : List Seg) : Prop where
  start_pos : 0 < h.heapStart
  start_dvd : 16 ∣ h.heapStart
  size_pos : 0 < h.heapSize
  extent : h.heapSize = span 16 bs
  end_le : h.heapStart + h.heapSize ≤ 1073741824
  tiles : Tiles h.mem h.heapStart bs
  sizes : ∀ b ∈ bs, 16 ∣ b.size
  coalesced : Coalesced bs

def setMem (h : Heap) (m : Mem) : Heap := { h with mem := m }

variable {h : Heap} {bs : List Seg} {l r : List Seg} {sz : Nat} {n : Nat} {b : Seg}
  {ptr : Nat} {m : Mem}

section

variable (hf : Formed h bs)
include hf

theorem Formed.change {bs' : List Seg} (hs : span 16 bs' = span 16 bs)
    (ht : Tiles m h.heapStart bs') (hd : ∀ b ∈ bs', 16 ∣ b.size) (hc : Coalesced bs') :
    Formed (setMem h m) bs' :=
  ⟨hf.start_pos, hf.start_dvd, hf.size_pos, hf.extent.trans hs.symm, hf.end_le, ht, hd, hc⟩

theorem Formed.size_lt (hb : b ∈ bs) : b.size < 1073741824 := by
  obtain ⟨l, r, rfl⟩ := List.append_of_mem hb
  have he := hf.extent
  have hl := hf.end_le
  simp only [span_append, span] at he
  omega

theorem Formed.length_lt : bs.length < walkBound h := by
  have hl := length_mul_le_span (h := 16) bs
  have he := hf.extent
  unfold walkBound
  omega

theorem Formed.heapEnd_eq : add32 h.heapStart h.heapSize = h.heapStart + h.heapSize :=
  add32_eq (by have hl := hf.end_le; omega)

theorem Formed.layout_dvd {x : Nat} (hx : (x, b) ∈ layout 16 h.heapStart bs) : 16 ∣ x :=
  dvd_layout (dvd_refl 16) hf.start_dvd hf.sizes hx

end

theorem kheapInit_formed {fr : Allocator} {held : Nat → Nat} {reserved : Nat → Prop}
    (hc : Consistent fr held reserved) (hr : mmAllocPages fr 256 ≠ (0, fr)) :
    Formed (kheapInit fr h).2 [⟨256 * 4096 - 16, false⟩] ∧
    (kheapInit fr h).2.heapSize = 256 * 4096 := by
  obtain ⟨he, -⟩ | ⟨start, fr', he, hp, ⟨⟨ht, -⟩, -⟩, -, -⟩ := allocPages_spec hc 256
  · exact absurd he hr
  have hne : ¬ start * 4096 = 0 := by omega
  have htot := hc.total_le
  unfold maxPages at htot
  simp only [kheapInit, he, hne, if_false, and_true]
  refine ⟨by simp only; omega, Dvd.dvd.mul_left (by decide) start, by simp only; omega, rfl,
    by simp only; omega, ⟨header_setHeader (by omega), trivial⟩, ?_, List.isChain_singleton _⟩
  intro b hb
  rw [List.mem_singleton.mp hb]
  decide

theorem align16_of_le (hn : 0 < n) (hle : n ≤ 4294967280) :
    16 ∣ align16 n ∧ n ≤ align16 n ∧ align16 n < n + 16 ∧ 16 ≤ align16 n := by
  rw [align16, add32_eq (by omega)]
  omega

theorem align16_of_lt (hn : 4294967280 < n) (hlt : n < 4294967296) : align16 n < n := by
  rw [align16, add32]
  omega

theorem kmalloc_large (hf : Formed h bs) (hl : 4294967280 < sz) (hlt : sz < 4294967296) :
    kmalloc h sz = some (0, h) := by
  have hs := hf.start_pos
  have ha := align16_of_lt hl hlt
  simp only [kmalloc, pos_iff_ne_zero.mp hs, if_false, show ¬ sz = 0 by omega, ha, if_true]

theorem kmalloc_eq (hf : Formed h bs) (hle : max 1 sz ≤ 4294967280) :
    kmalloc h sz = match firstFit 16 16 (align16 (max 1 sz)) h.heapStart bs with
      | none => some (0, h)
      | some r => some (r.1, setMem h (taken h.mem (r.1 - 16) (align16 (max 1 sz)))) := by
  have hs := pos_iff_ne_zero.mp hf.start_pos
  have hz : (if sz = 0 then 1 else sz) = max 1 sz := by
    split <;> omega
  obtain ⟨-, ha, -, -⟩ := align16_of_le (by omega) hle
  simp only [kmalloc, hs, if_false, hz, not_lt.mpr ha]
  rw [kmallocLoop_spec hf.tiles (by rw [hf.heapEnd_eq, hf.extent])
    (by rw [hf.heapEnd_eq]; exact hf.end_le) hf.length_lt]
  cases firstFit 16 16 (align16 (max 1 sz)) h.heapStart bs <;> rfl

theorem taken_formed {need : Nat} (hf : Formed h (l ++ b :: r)) (hb : b.used = false)
    (hn : need ≤ b.size) (h16 : 16 ≤ need) (hd : 16 ∣ need) :
    Formed (setMem h (taken h.mem (h.heapStart + span 16 l) need))
    (l ++ (carve 16 16 need b ++ r)) := by
  have hend : h.heapStart + span 16 (l ++ b :: r) ≤ 1073741824 := by
    rw [← hf.extent]
    exact hf.end_le
  apply hf.change span_firstFit (taken_tiles hf.tiles hn h16 hend) _
    (coalesced_firstFit hb hf.coalesced)
  intro c hc
  have hsz := hf.sizes
  simp only [List.mem_append, List.mem_cons] at hc hsz
  obtain hc | hc | hc := hc
  · exact hsz c (.inl hc)
  · exact dvd_carve (dvd_refl 16) hd (hsz b (.inr (.inl rfl))) c hc
  · exact hsz c (.inr (.inr hc))

theorem kmalloc_spec (hf : Formed h bs) (hsz : sz < 4294967296) :
    (kmalloc h sz = some (0, h) ∧ ∀ b ∈ bs, b.used = false → b.size < max 1 sz) ∨
      ∃ x m bs' n, kmalloc h sz = some (x, setMem h m) ∧ Formed (setMem h m) bs' ∧ 0 < x ∧
        max 1 sz ≤ n ∧
        (∃ l r, usedAt 16 h.heapStart bs = l ++ r ∧ usedAt 16 h.heapStart bs' = l ++ (x, ⟨n, true⟩) :: r) ∧
        ∀ q, 16 ∣ q → 16 ≤ q → q ≠ x → used h.mem (q - 16) = 0#32 → used m (q - 16) = 0#32 := by
  by_cases hle : max 1 sz ≤ 4294967280
  · obtain ⟨hd, hge, hlt, h16⟩ := align16_of_le (by omega) hle
    have he := kmalloc_eq hf hle
    cases hff : firstFit 16 16 (align16 (max 1 sz)) h.heapStart bs with
    | none =>
      rw [hff] at he
      refine .inl ⟨he, ?_⟩
      intro b hb hu
      have hbs := firstFit_none hff b hb hu
      have hbd := hf.sizes b hb
      omega
    | some r =>
      obtain ⟨x, bs'⟩ := r
      obtain ⟨l, b, r, rfl, hb, hn, rfl, rfl⟩ := firstFit_some hff
      rw [hff] at he
      have hend : h.heapStart + span 16 (l ++ b :: r) ≤ 1073741824 := by
        rw [← hf.extent]
        exact hf.end_le
      have hpos : 16 ∣ h.heapStart + span 16 l + 16 :=
        hf.layout_dvd (b := b) (by simp [layout_append, layout])
      obtain ⟨n, hn1, -, hu1, hu2⟩ :=
        usedAt_firstFit 16 h.heapStart 16 hb hn
      refine .inr ⟨_, _, _, n, he, ?_, by omega, by omega, ⟨_, _, hu2, hu1⟩, ?_⟩
      · exact taken_formed hf hb hn h16 hd
      intro q hq hq16 hne hu
      simp only [span_append, span] at hend
      exact taken_used (by omega) (by omega) (by omega) hd (by omega) hu
  · have hm : max 1 sz = sz := by omega
    refine .inl ⟨kmalloc_large hf (by omega) hsz, ?_⟩
    intro b hb _
    have hl := hf.size_lt hb
    omega

theorem kfree_outside (hf : Formed h bs)
    (hp : ptr = 0 ∨ ptr < h.heapStart + 16 ∨ h.heapStart + h.heapSize ≤ ptr) :
    kfree h ptr = some h := by
  have hl := hf.end_le
  by_cases h0 : ptr = 0 ∨ h.heapStart = 0
  · simp [kfree, h0]
  have h16 : add32 h.heapStart 16 = h.heapStart + 16 := add32_eq (by omega)
  simp only [kfree, h0, if_false, hf.heapEnd_eq, h16]
  rw [if_pos (by omega)]

theorem kfree_unused (hu : used h.mem (ptr - 16) = 0#32) : kfree h ptr = some h := by
  simp only [kfree, hu, if_true, ite_self]

theorem kfree_spec (hn0 : 0 < n) (hf : Formed h (l ++ ⟨n, true⟩ :: r)) :
    ∃ m, kfree h (h.heapStart + span 16 l + 16) = some (setMem h m) ∧
      Formed (setMem h m) (release 16 l ⟨n, true⟩ r) ∧
      used m (h.heapStart + span 16 l) = 0#32 ∧
      ∀ q, 16 ∣ q → q ≠ h.heapStart + span 16 l → used m q = used h.mem q := by
  obtain ⟨hl, hb, hr⟩ := tiles_append.mp hf.tiles
  have hpos := hf.start_pos
  have hext := hf.extent
  have hend := hf.end_le
  have hlen := hf.length_lt
  have hdvd := hf.start_dvd
  have hq16 : 16 ∣ h.heapStart + span 16 l + 16 :=
    hf.layout_dvd (b := ⟨n, true⟩) (by simp [layout_append, layout])
  simp only [span_append, span] at hext
  simp only [List.length_append, List.length_cons] at hlen
  have hsz : ∀ c ∈ l ++ ⟨n, true⟩ :: r, 16 ∣ c.size := hf.sizes
  have hb' := hb.setUsed (u := false) (w := 0#32) rfl
  have hr' : Tiles (setUsed h.mem (h.heapStart + span 16 l) 0#32)
    (h.heapStart + span 16 l + 16 + n) r :=
    hr.congr fun a _ _ => setUsed_of_apart (by omega)
  obtain ⟨m₁, he₁, ht₁, hfr₁⟩ :=
    coalesceForward_spec (k := walkBound h) hb' hr' rfl (by simp only; omega) (by omega)
  have hl₁ : Tiles m₁ h.heapStart l := hl.congr fun a _ _ => by
    rw [hfr₁ a (by omega), setUsed_of_apart (by omega)]
  obtain ⟨hs, -, -, -⟩ := absorb_spec (h := 16) n (coalesced_middle.mp hf.coalesced).2.1
  obtain ⟨m₂, he₂, ht₂, hfr₂⟩ := coalesceBackward_spec (tiles_append.mpr ⟨hl₁, ht₁⟩) rfl rfl
    (by simp only [span_append, span]; omega) hdvd (fun c hc => hsz c (List.mem_append_left _ hc))
    (k := walkBound h) (by omega)
  obtain ⟨hs', hc', -, -⟩ := release_spec (p := h.heapStart) n hf.coalesced
  have hword : ∀ q, 16 ∣ q → used m₂ q = used (setUsed h.mem (h.heapStart + span 16 l) 0#32) q := by
    intro q hq
    apply rd32_congr
    intro a h1 h2
    rw [hfr₂ a (by omega), hfr₁ a (by omega)]
  refine ⟨m₂, ?_, hf.change hs' ht₂ (dvd_release (dvd_refl 16) hsz) hc', ?_, ?_⟩
  · have h0 : ¬(h.heapStart + span 16 l + 16 = 0 ∨ h.heapStart = 0) := by omega
    have h16 : add32 h.heapStart 16 = h.heapStart + 16 := add32_eq (by omega)
    have hrange : ¬(h.heapStart + span 16 l + 16 < h.heapStart + 16 ∨
        h.heapStart + span 16 l + 16 + n + span 16 r ≤ h.heapStart + span 16 l + 16) := by omega
    have hu : ¬ used h.mem (h.heapStart + span 16 l) = 0#32 := fun hz => by simpa using (used_iff hb).mp hz
    have hn : add32 (add32 (h.heapStart + span 16 l) 16) n = h.heapStart + span 16 l + 16 + n :=
      add32_add32 (by omega)
    have heq : h.heapStart + h.heapSize = h.heapStart + span 16 l + 16 + n + span 16 r := by omega
    have heq₂ : h.heapStart + span 16 (l ++ ⟨(absorb 16 n r).1, false⟩ :: (absorb 16 n r).2) =
        h.heapStart + span 16 l + 16 + n + span 16 r := by
      simp only [span_append, span]
      omega
    rw [heq₂] at he₂
    simp only [kfree, h0, if_false, hf.heapEnd_eq, h16, hrange, Nat.add_sub_cancel, hb.magic_eq, ne_eq,
      not_true_eq_false, hu, hb'.size_eq, hn, heq, he₁, he₂, Option.bind_some, Option.map_some]
    rfl
  · rw [hword _ (by omega)]
    exact hb'.used_eq
  · intro q hq hne
    rw [hword q hq]
    exact rd32_congr fun a _ _ => setUsed_of_apart (by omega)

theorem Formed.payload (hf : Formed h (l ++ ⟨n, true⟩ :: r))
    (hm : ∀ a, a < h.heapStart + span 16 l + 16 ∨ h.heapStart + span 16 l + 16 + n ≤ a →
    m a = h.mem a) : Formed (setMem h m) (l ++ ⟨n, true⟩ :: r) := by
  obtain ⟨hl, hb, hr⟩ := tiles_append.mp hf.tiles
  refine hf.change rfl (tiles_append.mpr ⟨?_, ?_, ?_⟩) hf.sizes hf.coalesced
  · exact hl.congr fun a _ _ => hm a (by omega)
  · exact hb.congr fun a _ _ => hm a (by omega)
  · exact hr.congr fun a _ _ => hm a (by simp only at *; omega)

/-- A block taken, written and given back leaves the blocks alone. -/
theorem kmalloc_kfree (hf : Formed h bs) (hle : max 1 sz ≤ 4294967280) :
    kmalloc h sz = some (0, h) ∨ ∃ x h₁, kmalloc h sz = some (x, h₁) ∧ 0 < x ∧
      ∀ m, (∀ a, a < x ∨ x + sz ≤ a → m a = h₁.mem a) → ∃ h₂, kfree (setMem h₁ m) x = some h₂ ∧
      Formed h₂ bs := by
  obtain ⟨hd, hge, -, h16⟩ := align16_of_le (by omega) hle
  have he := kmalloc_eq hf hle
  cases hff : firstFit 16 16 (align16 (max 1 sz)) h.heapStart bs with
  | none =>
    rw [hff] at he
    exact .inl he
  | some r =>
    obtain ⟨x, bs'⟩ := r
    obtain ⟨l, b, r, rfl, hb, hn, rfl, rfl⟩ := firstFit_some hff
    rw [hff] at he
    refine .inr ⟨_, _, he, by omega, ?_⟩
    intro m hm
    obtain ⟨n, rest, hcut, hle', hback⟩ := @release_carve _ _ _ 16 16 _ hb hn hf.coalesced
    have ht := taken_formed hf hb hn h16 hd
    rw [hcut] at ht
    have hp := ht.payload fun a ha => hm a (by simp only [setMem] at *; omega)
    obtain ⟨m', he', hf', -⟩ := kfree_spec (by omega) hp
    rw [hback] at hf'
    exact ⟨_, he', hf'⟩

end MuOS.Kheap.HeapOps
