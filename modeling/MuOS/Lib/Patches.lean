import MuOS.Lib.Memory
import Mathlib.Tactic.Common

namespace MuOS.Lib.Patches

open Memory List Nat

variable {m b : Mem} {p n a : Nat} {fuel done : Nat}

/-- `m` with the `n` bytes from `pos` on replaced by those of `buf`. -/
def patch (m : Mem) (pos n : Nat) (buf : Mem) : Mem :=
  fun a => if pos ≤ a ∧ a < pos + n then buf (a - pos) else m a

theorem patch_inside (h : p ≤ a ∧ a < p + n) : patch m p n b a = b (a - p) :=
  if_pos h

theorem patch_outside (h : a < p ∨ p + n ≤ a) : patch m p n b a = m a :=
  if_neg (by omega)

theorem rd32_patch {q : Nat} (hq : q + 4 ≤ n) : rd32 (patch m p n b) (p + q) = rd32 b q := by
  have hx : ∀ k, k < 4 → patch m p n b (p + q + k) = b (q + k) := by
    intro k hk
    rw [patch_inside (by omega)]
    congr 1
    omega
  rw [rd32, hx 3 (by omega), hx 2 (by omega), hx 1 (by omega)]
  congr 1
  exact hx 0 (by omega)

theorem patch_patch (k : Nat) (hk : k ≤ n) :
    patch (patch m p k b) (p + k) (n - k) (fun i => b (k + i)) = patch m p n b := by
  funext a
  by_cases h1 : p + k ≤ a ∧ a < p + n
  · rw [patch_inside (by omega), patch_inside (by omega)]
    congr 1
    omega
  · rw [patch_outside (by omega)]
    by_cases h2 : p ≤ a ∧ a < p + k
    · rw [patch_inside h2, patch_inside (by omega)]
    · rw [patch_outside (by omega), patch_outside (by omega)]

def applyAll (ws : List (Mem → Mem)) (m : Mem) : Mem := ws.foldl (fun m w => w m) m

theorem applyAll_append (ws vs : List (Mem → Mem)) (m : Mem) :
    applyAll (ws ++ vs) m = applyAll vs (applyAll ws m) := List.foldl_append

theorem applyAll_cons (w : Mem → Mem) (ws : List (Mem → Mem)) (m : Mem) :
    applyAll (w :: ws) m = applyAll ws (w m) := rfl

def Keeps (w : Mem → Mem) (a : Nat) : Prop := ∀ m, w m a = m a

theorem applyAll_keeps {ws : List (Mem → Mem)} (h : ∀ w ∈ ws, Keeps w a) (m : Mem) :
    applyAll ws m a = m a := by
  induction ws generalizing m with
  | nil => rfl
  | cons w ws ih =>
    rw [applyAll_cons, ih fun v hv => h v (mem_cons_of_mem _ hv)]
    exact h w mem_cons_self m

/-- A transfer in units of `s`: what precedes each piece, and its length. -/
def pieces (s offset count : Nat) : Nat → Nat → List (Nat × Nat)
  | 0, _ => []
  | fuel + 1, done =>
    if done < count then
      let n := min (s - (offset + done) % s) (count - done)
      (done, n) :: pieces s offset count fuel (done + n)
    else []

variable {s offset count : Nat}

theorem piece_bounds : ∀ q ∈ pieces s offset count fuel done, done ≤ q.1 ∧ q.1 + q.2 ≤ count := by
  induction fuel generalizing done with
  | zero => exact fun q hq => absurd hq not_mem_nil
  | succ fuel ih =>
    intro q hq
    simp only [pieces] at hq
    split at hq
    · cases mem_cons.mp hq with
      | inl he =>
        subst he
        omega
      | inr hq =>
        have hb := ih q hq
        omega
    · exact absurd hq not_mem_nil

theorem piece_fits (hs : 0 < s) :
    ∀ q ∈ pieces s offset count fuel done, (offset + q.1) % s + q.2 ≤ s := by
  induction fuel generalizing done with
  | zero => exact fun q hq => absurd hq not_mem_nil
  | succ fuel ih =>
    intro q hq
    simp only [pieces] at hq
    split at hq
    · cases mem_cons.mp hq with
      | inl he =>
        subst he
        have hm := mod_lt (offset + done) hs
        simp only
        omega
      | inr hq => exact ih q hq
    · exact absurd hq not_mem_nil

theorem applyAll_pieces (hs : 0 < s) (base : Nat) (hf : count - done ≤ fuel)
    (hd : done ≤ count) (m : Mem) : applyAll ((pieces s offset count fuel done).map
      (fun q m => patch m (base + q.1) q.2 (fun i => b (q.1 + i)))) m =
      patch m (base + done) (count - done) (fun i => b (done + i)) := by
  induction fuel generalizing done m with
  | zero =>
    funext a
    rw [patch_outside (by omega)]
    rfl
  | succ fuel ih =>
    by_cases hlt : done < count
    · have hmod := mod_lt (offset + done) hs
      simp only [pieces, hlt, if_true, map_cons, applyAll_cons]
      rw [ih (by omega) (by omega)]
      have hp := patch_patch (m := m) (p := base + done) (n := count - done)
        (b := fun i => b (done + i)) (min (s - (offset + done) % s) (count - done)) (by omega)
      rw [← hp, Nat.add_assoc base, Nat.sub_sub]
      congr 1
      funext i
      rw [Nat.add_assoc]
    · have he : count - done = 0 := by omega
      simp only [pieces, hlt, if_false, map_nil, he]
      funext a
      rw [patch_outside (by omega)]
      rfl

end MuOS.Lib.Patches
