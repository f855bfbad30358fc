import MuOS.Kheap.Alloc
import MuOS.Lib.Segments

namespace MuOS.Kheap.Tiling

open Lib Memory Word Segments Alloc

structure Header (m : Mem) (p : Nat) (b : Seg) : Prop where
  magic_eq : magic m p = kheapMagic
  size_eq : size m p = b.size
  used_eq : used m p = if b.used = true then 1#32 else 0#32

def Tiles (m : Mem) : Nat → List Seg → Prop
  | _, [] => True
  | p, b :: bs => Header m p b ∧ Tiles m (p + 16 + b.size) bs

variable {m m' : Mem} {p : Nat} {b : Seg} {l r : List Seg} {bs : List Seg} {heapEnd q n k : Nat}
  {need : Nat}

theorem Header.congr (h : Header m p b) (hm : ∀ a, p ≤ a → a < p + 16 → m' a = m a) :
    Header m' p b := by
  obtain ⟨h1, h2, h3⟩ := h
  refine ⟨?_, ?_, ?_⟩
  · rw [← h1]
    exact rd32_congr fun a _ _ => hm a (by omega) (by omega)
  · rw [← h2, size, size, rd32_congr fun a _ _ => hm a (by omega) (by omega)]
  · rw [← h3]
    exact rd32_congr fun a _ _ => hm a (by omega) (by omega)

theorem setSize_of_apart {b a : Nat} (h : a < b + 4 ∨ b + 8 ≤ a) : setSize m b n a = m a :=
  wr32_of_apart m _ (by omega)

theorem setUsed_of_apart {b a : Nat} {u : BitVec 32} (h : a < b + 8 ∨ b + 12 ≤ a) :
    setUsed m b u a = m a :=
  wr32_of_apart m _ (by omega)

theorem setHeader_of_apart {b a : Nat} (h : a < b ∨ b + 16 ≤ a) : setHeader m b n a = m a := by
  rw [setHeader, wr32_of_apart _ _ (by omega), setUsed_of_apart (by omega),
    setSize_of_apart (by omega), wr32_of_apart _ _ (by omega)]

theorem Header.setSize (h : Header m p b) (hn : n < 4294967296) :
    Header (setSize m p n) p ⟨n, b.used⟩ := by
  refine ⟨?_, ?_, ?_⟩
  · rw [← h.magic_eq]
    exact rd32_wr32_of_apart m _ (by omega)
  · simp only [Alloc.size, Alloc.setSize, rd32_wr32_self, BitVec.toNat_ofNat]
    exact Nat.mod_eq_of_lt hn
  · rw [← h.used_eq]
    exact rd32_wr32_of_apart m _ (by omega)

theorem Header.setUsed (h : Header m p b) {u : Bool} {w : BitVec 32}
    (hw : w = if u = true then 1#32 else 0#32) : Header (setUsed m p w) p ⟨b.size, u⟩ := by
  refine ⟨?_, ?_, (rd32_wr32_self ..).trans hw⟩
  · rw [← h.magic_eq]
    exact rd32_wr32_of_apart m _ (by omega)
  · rw [← h.size_eq, Alloc.size, Alloc.size, Alloc.setUsed, rd32_wr32_of_apart m _ (by omega)]

theorem header_setHeader (hn : n < 4294967296) : Header (setHeader m p n) p ⟨n, false⟩ := by
  have h0 : Header (setUsed (setSize (wr32 m p kheapMagic) p n) p 0#32) p ⟨n, false⟩ := by
    refine ⟨?_, ?_, rd32_wr32_self _ _ _⟩
    · rw [magic, Alloc.setUsed, rd32_wr32_of_apart _ _ (by omega), setSize,
        rd32_wr32_of_apart _ _ (by omega), rd32_wr32_self]
    · rw [size, Alloc.setUsed, rd32_wr32_of_apart _ _ (by omega), setSize, rd32_wr32_self]
      exact Nat.mod_eq_of_lt hn
  refine ⟨?_, ?_, ?_⟩
  · rw [← h0.magic_eq]
    exact rd32_wr32_of_apart _ _ (by omega)
  · rw [← h0.size_eq, size, size, setHeader, rd32_wr32_of_apart _ _ (by omega)]
  · rw [← h0.used_eq]
    exact rd32_wr32_of_apart _ _ (by omega)

theorem used_iff (h : Header m p b) : used m p = 0#32 ↔ b.used = false := by
  rw [h.used_eq]
  cases b.used <;> decide

theorem Tiles.congr (h : Tiles m p bs) (hm : ∀ a, p ≤ a → a < p + span 16 bs → m' a = m a) :
    Tiles m' p bs := by
  induction bs generalizing p with
  | nil => trivial
  | cons b bs ih =>
    simp only [span] at hm
    exact ⟨h.1.congr fun a h1 h2 => hm a h1 (by omega), ih h.2 fun a h1 h2 => hm a (by omega) (by omega)⟩

theorem tiles_append : Tiles m p (l ++ r) ↔ Tiles m p l ∧ Tiles m (p + span 16 l) r := by
  induction l generalizing p with
  | nil => simp [Tiles, span]
  | cons b l ih =>
    simp only [List.cons_append, Tiles, ih, span, and_assoc]
    rw [show p + 16 + b.size + span 16 l = p + (16 + b.size + span 16 l) by omega]

theorem Tiles.store {x a : Nat} (h : Tiles m p bs) (hx : (x, b) ∈ layout 16 p bs)
    (ha : x ≤ a) (ha' : a < x + b.size) (v : BitVec 8) : Tiles (store m a v) p bs := by
  obtain ⟨l, r, rfl, rfl⟩ := mem_layout_split hx
  obtain ⟨hl, hb, hr⟩ := tiles_append.mp h
  apply tiles_append.mpr
  refine ⟨hl.congr ?_, hb.congr ?_, hr.congr ?_⟩
  · exact fun c h1 h2 => store_of_ne m v (by omega)
  · exact fun c h1 h2 => store_of_ne m v (by omega)
  · exact fun c h1 h2 => store_of_ne m v (by omega)

def taken (m : Mem) (q need : Nat) : Mem := setUsed (splitTail m q need) q 1#32

theorem taken_tiles (h : Tiles m p (l ++ b :: r))
    (hn : need ≤ b.size) (h16 : 16 ≤ need) (hlt : p + span 16 (l ++ b :: r) ≤ 1073741824) :
    Tiles (taken m (p + span 16 l) need) p (l ++ (carve 16 16 need b ++ r)) := by
  obtain ⟨hl, hd, hr⟩ := tiles_append.mp h
  simp only [span_append, span] at hlt
  apply tiles_append.mpr
  have h1 : add32 (add32 need 16) 16 = need + 16 + 16 := add32_add32 (by omega)
  by_cases hs : need + 16 + 16 ≤ b.size
  · have h2 : add32 (add32 (p + span 16 l) 16) need = p + span 16 l + 16 + need := add32_add32 (by omega)
    have h3 : sub32 (sub32 b.size need) 16 = b.size - need - 16 := sub32_sub32 (by omega) (by omega)
    have he : splitTail m (p + span 16 l) need = setSize
        (setHeader m (p + span 16 l + 16 + need) (b.size - need - 16)) (p + span 16 l) need := by
      simp only [splitTail, hd.size_eq, h1, h2, h3, hs, if_true]
    have hq : p + span 16 l + 16 + need + 16 + (b.size - need - 16) = p + span 16 l + 16 + b.size := by
      omega
    simp only [carve, hs, if_true, List.cons_append, List.nil_append, Tiles, taken, he, hq]
    refine ⟨hl.congr ?_, ?_, ?_, hr.congr ?_⟩
    · intro a _ ha
      rw [setUsed_of_apart (by omega), setSize_of_apart (by omega), setHeader_of_apart (by omega)]
    · have hd' : Header (setHeader m (p + span 16 l + 16 + need) (b.size - need - 16)) (p + span 16 l) b :=
        hd.congr fun a _ _ => setHeader_of_apart (by omega)
      exact (hd'.setSize (by omega)).setUsed rfl
    · apply (header_setHeader (by omega)).congr
      intro a _ _
      rw [setUsed_of_apart (by omega), setSize_of_apart (by omega)]
    · intro a _ _
      rw [setUsed_of_apart (by omega), setSize_of_apart (by omega), setHeader_of_apart (by omega)]
  · have he : splitTail m (p + span 16 l) need = m := by
      simp only [splitTail, hd.size_eq, h1, hs, if_false]
    simp only [carve, hs, if_false, List.cons_append, List.nil_append, Tiles, taken, he]
    refine ⟨hl.congr ?_, hd.setUsed rfl, hr.congr ?_⟩
    · exact fun a _ ha => setUsed_of_apart (by omega)
    · exact fun a ha _ => setUsed_of_apart (by omega)

theorem taken_used {q' need : Nat} (hne : q' ≠ q) (hq : 16 ∣ q) (hq' : 16 ∣ q') (hn : 16 ∣ need)
    (hlt : q + 16 + need ≤ 1073741824) (h : used m q' = 0#32) :
    used (taken m q need) q' = 0#32 := by
  rw [taken, used, setUsed, rd32_wr32_of_apart _ _ (by omega), splitTail]
  split
  · rw [setSize, rd32_wr32_of_apart _ _ (by omega), add32_add32 (by omega)]
    by_cases hk : q' = q + 16 + need
    · rw [hk]
      have hh := header_setHeader (m := m) (p := q + 16 + need) (sub32_lt (sub32 (size m q) need) 16)
      exact hh.used_eq
    · rw [← h]
      exact rd32_congr fun a _ _ => setHeader_of_apart (by omega)
  · exact h

theorem kmallocLoop_spec (h : Tiles m p bs)
    (he : heapEnd = p + span 16 bs) (hlt : heapEnd ≤ 1073741824) (hn : bs.length < n) :
    kmallocLoop heapEnd need n m p =
      match firstFit 16 16 need p bs with
      | none => some (0, m)
      | some r => some (r.1, taken m (r.1 - 16) need) := by
  induction bs generalizing p n with
  | nil =>
    obtain ⟨n, rfl⟩ : ∃ k, n = k + 1 := ⟨n - 1, by simp at hn; omega⟩
    simp only [span] at he
    simp only [kmallocLoop, firstFit]
    rw [add32_eq (by omega), if_neg (by omega)]
  | cons b bs ih =>
    obtain ⟨n, rfl⟩ : ∃ k, n = k + 1 := ⟨n - 1, by simp at hn; omega⟩
    obtain ⟨hd, ht⟩ := h
    simp only [span] at he
    have h16 : add32 p 16 = p + 16 := add32_eq (by omega)
    have hnext : add32 p (add32 16 b.size) = p + 16 + b.size := add32_add32_right (by omega)
    have hu := used_iff hd
    simp only [kmallocLoop, h16, hd.magic_eq, hd.size_eq, hu, hnext, ne_eq, not_true_eq_false, if_false]
    rw [if_pos (by omega)]
    by_cases hf : b.used = false ∧ need ≤ b.size
    · simp only [firstFit, hf, and_self, if_true, taken, Nat.add_sub_cancel]
    rw [ih ht (by omega) (by simp at hn; omega)]
    simp only [firstFit, hf, if_false]
    cases firstFit 16 16 need (p + 16 + b.size) bs <;> rfl

theorem coalesceForward_spec (hq : Header m q ⟨n, false⟩)
    (hr : Tiles m (q + 16 + n) r) (he : heapEnd = q + 16 + n + span 16 r)
    (hlt : heapEnd ≤ 1073741824)
    (hf : r.length < k) : ∃ m', coalesceForward heapEnd q k m (q + 16 + n) = some m' ∧
      Tiles m' q (⟨(absorb 16 n r).1, false⟩ :: (absorb 16 n r).2) ∧
      ∀ a, a < q + 4 ∨ q + 8 ≤ a → m' a = m a := by
  induction r generalizing m n k with
  | nil =>
    obtain ⟨j, rfl⟩ : ∃ j, k = j + 1 := ⟨k - 1, by simp at hf; omega⟩
    simp only [span] at he
    refine ⟨m, ?_, ⟨hq, trivial⟩, fun _ _ => rfl⟩
    rw [coalesceForward, add32_eq (by omega), if_neg (by omega)]
  | cons c r ih =>
    obtain ⟨j, rfl⟩ : ∃ j, k = j + 1 := ⟨k - 1, by simp at hf; omega⟩
    obtain ⟨hc, ht⟩ := hr
    simp only [span] at he
    by_cases hu : c.used = true
    · have hw : used m (q + 16 + n) ≠ 0#32 := fun h0 => by simp [(used_iff hc).mp h0] at hu
      refine ⟨m, ?_, ?_, fun _ _ => rfl⟩
      · rw [coalesceForward, add32_eq (by omega), if_pos (by omega), if_pos (.inr hw)]
      · simp only [absorb, hu, if_true]
        exact ⟨hq, hc, ht⟩
    have hw : used m (q + 16 + n) = 0#32 := (used_iff hc).mpr (by simpa using hu)
    have hs1 : add32 (size m q) (add32 16 c.size) = n + 16 + c.size := by
      rw [hq.size_eq]
      exact add32_add32_right (by simp only; omega)
    have hs2 : add32 (q + 16 + n) (add32 16 c.size) = q + 16 + (n + 16 + c.size) := by
      rw [add32_add32_right (by omega)]
      omega
    have hq' := hq.setSize (n := n + 16 + c.size) (by omega)
    have ht' : Tiles (setSize m q (n + 16 + c.size)) (q + 16 + (n + 16 + c.size)) r := by
      rw [show q + 16 + (n + 16 + c.size) = q + 16 + n + 16 + c.size by omega]
      exact ht.congr fun a _ _ => setSize_of_apart (by omega)
    obtain ⟨m', hm', htm, hfr⟩ := ih hq' ht' (by omega) (by simp at hf; omega)
    refine ⟨m', ?_, ?_, fun a ha => (hfr a ha).trans (setSize_of_apart ha)⟩
    · simp only [coalesceForward, hc.magic_eq, hc.size_eq, hw, hs1, hs2, ne_eq, not_true_eq_false,
        or_self, if_false, hm']
      rw [add32_eq (by omega), if_pos (by omega)]
    · simp only [absorb, hu]
      exact htm

theorem coalesceBackward_spec (h : Tiles m p (l ++ ⟨n, false⟩ :: r)) (hq : q = p + span 16 l)
    (he : heapEnd = p + span 16 (l ++ ⟨n, false⟩ :: r)) (hlt : heapEnd ≤ 1073741824)
    (hp : 16 ∣ p) (hd : ∀ c ∈ l, 16 ∣ c.size) (hf : l.length < k) :
    ∃ m', coalesceBackward heapEnd q k m p = some m' ∧ Tiles m' p (joinBack 16 l n r) ∧
      ∀ a, a < p ∨ a % 16 < 4 ∨ 8 ≤ a % 16 → m' a = m a := by
  induction l generalizing p k with
  | nil =>
    obtain ⟨j, rfl⟩ : ∃ j, k = j + 1 := ⟨k - 1, by simp at hf; omega⟩
    simp only [span] at hq
    refine ⟨m, ?_, h, fun _ _ => rfl⟩
    rw [coalesceBackward, if_neg (by omega)]
  | cons c l ih =>
    obtain ⟨j, rfl⟩ : ∃ j, k = j + 1 := ⟨k - 1, by simp at hf; omega⟩
    obtain ⟨hc, ht⟩ := h
    have hcd := hd c List.mem_cons_self
    simp only [List.cons_append, span, span_append] at he hq
    have h16 : add32 p 16 = p + 16 := add32_eq (by omega)
    have hnext : add32 p (add32 16 c.size) = p + 16 + c.size := add32_add32_right (by omega)
    have hin : add32 p 16 ≤ heapEnd ∧ p < q := by omega
    cases l with
    | nil =>
      simp only [span, Nat.add_zero] at hq
      have hnq : p + 16 + c.size = q := by omega
      obtain ⟨hb, hr⟩ := ht
      by_cases hu : c.used = true
      · have hw : used m p ≠ 0#32 := fun h0 => by simp [(used_iff hc).mp h0] at hu
        refine ⟨m, ?_, ?_, fun _ _ => rfl⟩
        · simp only [coalesceBackward, hin, and_self, if_true, hc.magic_eq, hc.size_eq, hnext, hnq,
            ne_eq, not_true_eq_false, if_false, hw]
        · simp only [joinBack, hu, if_true]
          exact ⟨hc, hb, hr⟩
      have hw : used m p = 0#32 := (used_iff hc).mpr (by simpa using hu)
      have hs : add32 c.size (add32 16 (size m q)) = c.size + 16 + n := by
        rw [← hnq, hb.size_eq]
        exact add32_add32_right (by simp only [span] at he ⊢; omega)
      refine ⟨setSize m p (c.size + 16 + n), ?_, ?_, ?_⟩
      · simp only [coalesceBackward, hin, and_self, if_true, hc.magic_eq, hc.size_eq, hnext, hnq,
          ne_eq, not_true_eq_false, if_false, hw, hs]
      · simp only [joinBack, hu]
        refine ⟨?_, ?_⟩
        · have hc' := hc.setSize (n := c.size + 16 + n) (by simp only [span] at he; omega)
          rwa [Bool.eq_false_iff.mpr hu] at hc'
        · rw [show p + 16 + (c.size + 16 + n) = p + 16 + c.size + 16 + n by omega]
          exact hr.congr fun a _ _ => setSize_of_apart (by omega)
      · intro a ha
        apply setSize_of_apart
        omega
    | cons d l =>
      have hpos : q ≠ p + 16 + c.size := by
        simp only [span] at hq
        omega
      obtain ⟨m', hm', htm, hfr⟩ :=
        ih ht (by omega) (by simp only [List.cons_append, span, span_append] at he ⊢; omega)
        (by omega) (fun e hme => hd e (List.mem_cons_of_mem _ hme)) (by simp at hf ⊢; omega)
      refine ⟨m', ?_, ?_, ?_⟩
      · simp only [coalesceBackward, hin, and_self, if_true, hc.magic_eq, hc.size_eq, hnext, ne_eq,
          not_true_eq_false, if_false, Ne.symm hpos, hm']
      · exact ⟨hc.congr fun a _ _ => hfr a (.inl (by omega)), htm⟩
      · intro a ha
        apply hfr
        omega

end MuOS.Kheap.Tiling
