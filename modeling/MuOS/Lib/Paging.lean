import MuOS.Lib.Patches
import Mathlib.Data.List.Basic

namespace MuOS.Lib.Paging

open Memory Patches BitVec

def entry (f : Nat) (fl : BitVec 12) : BitVec 32 := BitVec.ofNat 20 f ++ fl

def addrOf (e : BitVec 32) : Nat := (e &&& 0xFFFFF000#32).toNat

def flagsOf (e : BitVec 32) : BitVec 32 := e &&& 0xFFF#32

def isPresent (e : BitVec 32) : Bool := e &&& 1#32 != 0#32

def isWritable (e : BitVec 32) : Bool := e &&& 2#32 != 0#32

def isUser (e : BitVec 32) : Bool := e &&& 4#32 != 0#32

section

variable {f : Nat} {fl : BitVec 12}

theorem getLsbD_entry (f : Nat) (fl : BitVec 12) (i : Nat) :
    (entry f fl).getLsbD i = if i < 12 then fl.getLsbD i
    else (BitVec.ofNat 20 f).getLsbD (i - 12) := by
  exact getLsbD_append

theorem entry_or (f : Nat) (a b : BitVec 12) : entry f a ||| b.setWidth 32 = entry f (a ||| b) := by
  apply eq_of_getLsbD_eq
  intro i hi
  simp only [getLsbD_or, getLsbD_entry, getLsbD_setWidth, hi, decide_true, Bool.true_and]
  split
  · rfl
  · rw [getLsbD_of_ge b i (by omega), Bool.or_false]

theorem entry_and (f : Nat) (a b : BitVec 12) :
    entry f a &&& entry 1048575 b = entry f (a &&& b) := by
  apply eq_of_getLsbD_eq
  intro i hi
  simp only [getLsbD_and, getLsbD_entry]
  split
  · rfl
  have h : BitVec.ofNat 20 1048575 = BitVec.allOnes 20 := rfl
  have hl : i - 12 < 20 := by omega
  rw [h, getLsbD_allOnes, decide_eq_true hl, Bool.and_true]

theorem entry_low (f : Nat) (a b : BitVec 12) :
    entry f a &&& b.setWidth 32 = (a &&& b).setWidth 32 := by
  apply eq_of_getLsbD_eq
  intro i hi
  simp only [getLsbD_and, getLsbD_entry, getLsbD_setWidth, hi, decide_true, Bool.true_and]
  split
  · rfl
  · rw [getLsbD_of_ge b i (by omega), Bool.and_false, Bool.and_false]

theorem entry_toNat (hf : f < 1048576) : (entry f fl).toNat = f * 4096 + fl.toNat := by
  have hm : f % 2 ^ 20 = f := Nat.mod_eq_of_lt hf
  have hl : fl.toNat < 2 ^ 12 := fl.isLt
  rw [entry, toNat_append, toNat_ofNat, hm, ← Nat.shiftLeft_add_eq_or_of_lt hl, Nat.shiftLeft_eq]

theorem ofNat_eq_entry (hf : f < 1048576) : BitVec.ofNat 32 (f * 4096) = entry f 0#12 := by
  apply eq_of_toNat_eq
  rw [entry_toNat hf, toNat_ofNat, Nat.mod_eq_of_lt (by omega), toNat_zero, Nat.add_zero]

theorem addrOf_entry (hf : f < 1048576) : addrOf (entry f fl) = f * 4096 := by
  have h : entry f fl &&& 0xFFFFF000#32 = entry f (fl &&& 0#12) := entry_and f fl 0#12
  rw [addrOf, h, and_zero, entry_toNat hf, toNat_zero, Nat.add_zero]

theorem flagsOf_entry : flagsOf (entry f fl) = fl.setWidth 32 := by
  have h : entry f fl &&& 0xFFF#32 = (fl &&& allOnes 12).setWidth 32 :=
    entry_low f fl (allOnes 12)
  rw [flagsOf, h, and_allOnes]

theorem setWidth_bne_zero (a : BitVec 12) : (a.setWidth 32 != 0#32) = (a != 0#12) := by
  have h : a.setWidth 32 = 0#32 ↔ a = 0#12 := by
    constructor
    · intro he
      apply eq_of_toNat_eq
      have ht := congrArg BitVec.toNat he
      rwa [toNat_setWidth_of_le (by omega)] at ht
    · rintro rfl
      rfl
  simp [bne, beq_eq_decide, h]

theorem isPresent_entry : isPresent (entry f fl) = (fl &&& 1#12 != 0#12) := by
  have h : entry f fl &&& 1#32 = (fl &&& 1#12).setWidth 32 := entry_low f fl 1#12
  rw [isPresent, h, setWidth_bne_zero]

theorem isWritable_entry : isWritable (entry f fl) = (fl &&& 2#12 != 0#12) := by
  have h : entry f fl &&& 2#32 = (fl &&& 2#12).setWidth 32 := entry_low f fl 2#12
  rw [isWritable, h, setWidth_bne_zero]

theorem isUser_entry : isUser (entry f fl) = (fl &&& 4#12 != 0#12) := by
  have h : entry f fl &&& 4#32 = (fl &&& 4#12).setWidth 32 := entry_low f fl 4#12
  rw [isUser, h, setWidth_bne_zero]

end

/-- The `i`-th entry of the table at address `t`. -/
def rdEntry (m : Mem) (t i : Nat) : BitVec 32 := rd32 m (t + 4 * i)

def wrEntry (m : Mem) (t i : Nat) (e : BitVec 32) : Mem := wr32 m (t + 4 * i) e

def copyTable (m : Mem) (dst src : Nat) : Mem :=
  (List.range 1024).foldl (fun m i => wrEntry m dst i (rdEntry m src i)) m

def clearTable (m : Mem) (t : Nat) : Mem :=
  (List.range 1024).foldl (fun m i => wrEntry m t i 0#32) m

def copyPage (m : Mem) (dst src : Nat) : Mem := patch m dst 4096 (fun i => m (src + i))

/-- The memories agree on every frame not in the list. -/
def AgreeOff (fs : List Nat) (m m' : Mem) : Prop := ∀ a, a / 4096 ∉ fs → m' a = m a

section

variable {m m' m'' : Mem} {fs gs : List Nat} {t u i j : Nat} {e : BitVec 32}

theorem AgreeOff.refl (fs : List Nat) (m : Mem) : AgreeOff fs m m := fun _ _ => rfl

theorem AgreeOff.mono (h : AgreeOff fs m m') (hs : fs ⊆ gs) : AgreeOff gs m m' :=
  fun a ha => h a fun hf => ha (hs hf)

theorem AgreeOff.trans (h : AgreeOff fs m m') (h' : AgreeOff fs m' m'') : AgreeOff fs m m'' :=
  fun a ha => (h' a ha).trans (h a ha)

theorem AgreeOff.rdEntry (h : AgreeOff fs m m') (ht : t ∉ fs) (hj : j < 1024) :
    rdEntry m' (t * 4096) j = rdEntry m (t * 4096) j := by
  apply rd32_congr
  intro x h1 h2
  have hx : x / 4096 = t := by omega
  exact h x (hx ▸ ht)

theorem agree_wrEntry (m : Mem) (t : Nat) (e : BitVec 32) (hj : j < 1024) :
    AgreeOff [t] m (wrEntry m (t * 4096) j e) := by
  intro a ha
  have hne : a / 4096 ≠ t := fun h => ha (h ▸ List.mem_singleton_self _)
  exact wr32_of_apart m e (by omega)

theorem agree_patch (m b : Mem) {p n : Nat} (hp : p % 4096 + n ≤ 4096) :
    AgreeOff [p / 4096] m (patch m p n b) := by
  intro a ha
  have hne : a / 4096 ≠ p / 4096 := fun h => ha (h ▸ List.mem_singleton_self _)
  exact patch_outside (by omega)

section

variable (m)

theorem rdEntry_wrEntry_self (t i : Nat) (e : BitVec 32) : rdEntry (wrEntry m t i e) t i = e :=
  rd32_wr32_self m _ e

theorem rdEntry_wrEntry_index (t : Nat) (e : BitVec 32) (h : i ≠ j) :
    rdEntry (wrEntry m t j e) t i = rdEntry m t i :=
  rd32_wr32_of_apart m e (by omega)

theorem rdEntry_wrEntry_frame (e : BitVec 32) (h : t ≠ u) (hi : i < 1024) (hj : j < 1024) :
    rdEntry (wrEntry m (u * 4096) j e) (t * 4096) i = rdEntry m (t * 4096) i :=
  (agree_wrEntry m u e hj).rdEntry (by simpa using h) hi

theorem foldl_wrEntry (t : Nat) (g : Mem → Nat → BitVec 32)
    (hg : ∀ m' i, i < 1024 → AgreeOff [t] m m' → g m' i = g m i) (n : Nat) (hn : n ≤ 1024) :
    AgreeOff [t] m ((List.range n).foldl (fun m i => wrEntry m (t * 4096) i (g m i)) m) ∧
      ∀ i, i < n →
        rdEntry ((List.range n).foldl (fun m i => wrEntry m (t * 4096) i (g m i)) m)
        (t * 4096) i = g m i := by
  induction n with
  | zero => exact ⟨AgreeOff.refl _ m, fun i hi => absurd hi (by omega)⟩
  | succ n ih =>
    obtain ⟨ha, hr⟩ := ih (by omega)
    rw [List.range_succ, List.foldl_append, List.foldl_cons, List.foldl_nil]
    refine ⟨ha.trans (agree_wrEntry _ t _ (by omega)), ?_⟩
    intro i hi
    by_cases he : i = n
    · subst he
      rw [rdEntry_wrEntry_self]
      exact hg _ i (by omega) ha
    · rw [rdEntry_wrEntry_index _ _ _ he]
      exact hr i (by omega)

theorem agree_copyTable (h : t ≠ u) : AgreeOff [t] m (copyTable m (t * 4096) (u * 4096)) :=
  (foldl_wrEntry m t (fun m i => rdEntry m (u * 4096) i)
    (fun _ _ hi ha => ha.rdEntry (by simpa using h.symm) hi) 1024 (Nat.le_refl _)).1

theorem rdEntry_copyTable (h : t ≠ u) (hi : i < 1024) :
    rdEntry (copyTable m (t * 4096) (u * 4096)) (t * 4096) i = rdEntry m (u * 4096) i :=
  (foldl_wrEntry m t (fun m i => rdEntry m (u * 4096) i)
    (fun _ _ hi ha => ha.rdEntry (by simpa using h.symm) hi) 1024 (Nat.le_refl _)).2 i hi

theorem agree_clearTable (t : Nat) : AgreeOff [t] m (clearTable m (t * 4096)) :=
  (foldl_wrEntry m t (fun _ _ => 0#32) (fun _ _ _ _ => rfl) 1024 (Nat.le_refl _)).1

theorem rdEntry_clearTable (t : Nat) (hi : i < 1024) :
    rdEntry (clearTable m (t * 4096)) (t * 4096) i = 0#32 :=
  (foldl_wrEntry m t (fun _ _ => 0#32) (fun _ _ _ _ => rfl) 1024 (Nat.le_refl _)).2 i hi

theorem agree_copyPage (t u : Nat) : AgreeOff [t] m (copyPage m (t * 4096) u) := by
  have h := agree_patch m (fun i => m (u + i)) (p := t * 4096) (n := 4096) (by omega)
  rwa [Nat.mul_div_cancel t (by omega)] at h

theorem copyPage_byte (t u : Nat) {o : Nat} (ho : o < 4096) :
    copyPage m (t * 4096) u (t * 4096 + o) = m (u + o) := by
  rw [copyPage, patch_inside (by omega), Nat.add_sub_cancel_left]

end

end

end MuOS.Lib.Paging
