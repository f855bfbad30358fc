import Mathlib.Data.List.Chain

namespace MuOS.Lib.Segments

open List Option

variable {l r : List Seg} {bs : List Seg} {b : Seg} {x : Nat} {g : Nat} {n : Nat}

/-- `size` bytes of an arena behind their header. -/
structure Seg where
  size : Nat
  used : Bool
deriving DecidableEq

variable {h p : Nat}

/-- The bytes of segments laid end to end, headers of `h` bytes. -/
def span (h : Nat) : List Seg → Nat
  | [] => 0
  | b :: bs => h + b.size + span h bs

/-- The segments with their payload addresses, the first header at `p`. -/
def layout (h p : Nat) : List Seg → List (Nat × Seg)
  | [] => []
  | b :: bs => (p + h, b) :: layout h (p + h + b.size) bs

def Coalesced (bs : List Seg) : Prop := bs.IsChain (fun a b => a.used = true ∨ b.used = true)

theorem span_append (l r : List Seg) : span h (l ++ r) = span h l + span h r := by
  induction l with
  | nil => simp [span]
  | cons b l ih =>
    simp only [cons_append, span, ih]
    omega

theorem length_mul_le_span (bs : List Seg) : h * bs.length ≤ span h bs := by
  induction bs with
  | nil => simp [span]
  | cons b bs ih =>
    simp only [length_cons, span, Nat.mul_succ]
    omega

theorem layout_append (l r : List Seg) :
    layout h p (l ++ r) = layout h p l ++ layout h (p + span h l) r := by
  induction l generalizing p with
  | nil => simp [layout, span]
  | cons b l ih =>
    simp only [cons_append, layout, span, ih]
    rw [show p + h + b.size + span h l = p + (h + b.size + span h l) by omega]

theorem mem_layout_bounds (hm : (x, b) ∈ layout h p bs) : p + h ≤ x ∧
    x + b.size ≤ p + span h bs := by
  induction bs generalizing p with
  | nil => simp [layout] at hm
  | cons c bs ih =>
    simp only [layout, mem_cons, Prod.mk.injEq] at hm
    obtain ⟨rfl, rfl⟩ | hm := hm
    · simp only [span]; omega
    have hb := ih hm
    simp only [span]
    omega

theorem mem_layout_split (hm : (x, b) ∈ layout h p bs) : ∃ l r, bs = l ++ b :: r ∧
    x = p + span h l + h := by
  induction bs generalizing p with
  | nil => simp [layout] at hm
  | cons c bs ih =>
    simp only [layout, mem_cons, Prod.mk.injEq] at hm
    obtain ⟨rfl, rfl⟩ | hm := hm
    · exact ⟨[], bs, rfl, by simp [span]⟩
    obtain ⟨l, r, rfl, rfl⟩ := ih hm
    exact ⟨c :: l, r, rfl, by simp only [span]; omega⟩

theorem layout_apart {y : Nat} {c : Seg} (hx : (x, b) ∈ layout h p bs)
    (hy : (y, c) ∈ layout h p bs) : (x = y ∧ b = c) ∨ x + b.size + h ≤ y ∨ y + c.size + h ≤ x := by
  induction bs generalizing p with
  | nil => simp [layout] at hx
  | cons d bs ih =>
    simp only [layout, mem_cons, Prod.mk.injEq] at hx hy
    obtain ⟨rfl, rfl⟩ | hx := hx
    · obtain ⟨rfl, rfl⟩ | hy := hy
      · exact .inl ⟨rfl, rfl⟩
      have hb := mem_layout_bounds hy
      exact .inr (.inl (by omega))
    · obtain ⟨rfl, rfl⟩ | hy := hy
      · have hb := mem_layout_bounds hx
        exact .inr (.inr (by omega))
      · exact ih hx hy

theorem dvd_layout (hh : g ∣ h) (hp : g ∣ p) (hs : ∀ b ∈ bs, g ∣ b.size)
    (hm : (x, b) ∈ layout h p bs) : g ∣ x := by
  induction bs generalizing p with
  | nil => simp [layout] at hm
  | cons c bs ih =>
    have hc := hs c mem_cons_self
    simp only [layout, mem_cons, Prod.mk.injEq] at hm
    obtain ⟨rfl, rfl⟩ | hm := hm
    · exact Nat.dvd_add hp hh
    · exact ih (Nat.dvd_add (Nat.dvd_add hp hh) hc) (fun b hb => hs b (mem_cons_of_mem _ hb)) hm

theorem eq_single_of_free (hc : Coalesced bs) (hf : ∀ b ∈ bs, b.used = false)
    (hs : 0 < span h bs) : bs = [⟨span h bs - h, false⟩] := by
  match bs with
  | [] => simp [span] at hs
  | [b] =>
    have hb := hf b mem_cons_self
    cases b
    simp only [span, List.cons.injEq, Seg.mk.injEq, and_true]
    exact ⟨by omega, hb⟩
  | b :: c :: bs =>
    have hb := hf b mem_cons_self
    have hd := hf c (mem_cons_of_mem _ mem_cons_self)
    have hbc := (isChain_cons_cons.mp hc).1
    simp [hb, hd] at hbc

theorem coalesced_middle : Coalesced (l ++ b :: r) ↔ Coalesced l ∧ Coalesced r ∧
      (b.used = true ∨ (∀ x ∈ l.getLast?, x.used = true) ∧ ∀ y ∈ r.head?, y.used = true) := by
  have hcons : Coalesced (b :: r) ↔ Coalesced r ∧
    (b.used = true ∨ ∀ y ∈ r.head?, y.used = true) := by
    cases r with
    | nil => simp [Coalesced]
    | cons c r =>
      simp only [Coalesced, isChain_cons_cons, List.head?_cons, mem_some_iff, forall_eq']
      exact and_comm
  simp only [Coalesced, isChain_append, List.head?_cons, mem_some_iff, forall_eq'] at hcons ⊢
  rw [hcons]
  cases hb : b.used with
  | true => simp
  | false => simp [and_comm, and_left_comm]

def usedAt (h p : Nat) (bs : List Seg) : List (Nat × Seg) :=
  (layout h p bs).filter (fun e => e.2.used)

theorem mem_usedAt : (x, b) ∈ usedAt h p bs ↔ (x, b) ∈ layout h p bs ∧ b.used = true := by
  simp [usedAt]

theorem usedAt_append (l r : List Seg) :
    usedAt h p (l ++ r) = usedAt h p l ++ usedAt h (p + span h l) r := by
  simp [usedAt, layout_append]

theorem usedAt_cons_used (n : Nat) (bs : List Seg) :
    usedAt h p (⟨n, true⟩ :: bs) = (p + h, ⟨n, true⟩) :: usedAt h (p + h + n) bs := rfl

theorem usedAt_cons_free (n : Nat) (bs : List Seg) :
    usedAt h p (⟨n, false⟩ :: bs) = usedAt h (p + h + n) bs := rfl

theorem usedAt_fst_unique (hh : 0 < h) {l r : List (Nat × Seg)}
    (he : usedAt h p bs = l ++ (x, b) :: r) : ∀ e ∈ l ++ r, e.1 ≠ x := by
  have hpw : (layout h p bs).Pairwise (fun e f => e.1 < f.1) := by
    clear he
    induction bs generalizing p with
    | nil => exact List.Pairwise.nil
    | cons c bs ih =>
      refine pairwise_cons.mpr ⟨?_, ih⟩
      rintro ⟨y, d⟩ hy
      have hb := mem_layout_bounds hy
      omega
  have hf : (usedAt h p bs).Pairwise (fun e f => e.1 < f.1) := hpw.filter _
  rw [he, pairwise_append] at hf
  obtain ⟨-, hr, hlr⟩ := hf
  intro e hm
  cases mem_append.mp hm with
  | inl hl => exact Nat.ne_of_lt (hlr e hl _ mem_cons_self)
  | inr hrr => exact Nat.ne_of_gt ((pairwise_cons.mp hr).1 e hrr)

/-- A free segment less `need` bytes; enough of a rest is split off. -/
def carve (h least need : Nat) (b : Seg) : List Seg :=
  if need + h + least ≤ b.size then [⟨need, true⟩, ⟨b.size - need - h, false⟩] else [⟨b.size, true⟩]

/-- First fit: the payload address taken and the new arena. -/
def firstFit (h least need : Nat) : Nat → List Seg → Option (Nat × List Seg)
  | _, [] => none
  | p, b :: bs =>
    if b.used = false ∧ need ≤ b.size then some (p + h, carve h least need b ++ bs)
    else (firstFit h least need (p + h + b.size) bs).map (fun r => (r.1, b :: r.2))

variable {least need : Nat}

theorem firstFit_none (hf : firstFit h least need p bs = none) : ∀ b ∈ bs, b.used = false →
    b.size < need := by
  induction bs generalizing p with
  | nil => exact fun b hb => absurd hb not_mem_nil
  | cons c bs ih =>
    by_cases hc : c.used = false ∧ need ≤ c.size
    · simp [firstFit, hc] at hf
    simp only [firstFit, hc, if_false, map_eq_none_iff] at hf
    intro b hb hu
    cases mem_cons.mp hb with
    | inl he =>
      subst he
      by_contra hn
      exact hc ⟨hu, by omega⟩
    | inr hb => exact ih hf b hb hu

theorem firstFit_some {bs' : List Seg} (hf : firstFit h least need p bs = some (x, bs')) :
    ∃ l b r, bs = l ++ b :: r ∧ b.used = false ∧ need ≤ b.size ∧ x = p + span h l + h ∧
      bs' = l ++ (carve h least need b ++ r) := by
  induction bs generalizing p bs' with
  | nil => simp [firstFit] at hf
  | cons c bs ih =>
    by_cases hc : c.used = false ∧ need ≤ c.size
    · simp only [firstFit, hc, and_self, if_true, Option.some.injEq, Prod.mk.injEq] at hf
      obtain ⟨rfl, rfl⟩ := hf
      exact ⟨[], c, bs, rfl, hc.1, hc.2, by simp [span], rfl⟩
    · simp only [firstFit, hc, if_false, map_eq_some_iff, Prod.mk.injEq] at hf
      obtain ⟨⟨y, bs''⟩, hy, rfl, rfl⟩ := hf
      obtain ⟨l, b, r, rfl, hb, hn, rfl, rfl⟩ := ih hy
      exact ⟨c :: l, b, r, rfl, hb, hn, by simp only [span]; omega, rfl⟩

theorem span_carve (b : Seg) : span h (carve h least need b) = h + b.size := by
  by_cases hs : need + h + least ≤ b.size
  · simp only [carve, hs, if_true, span]
    omega
  · simp [carve, hs, span]

theorem span_firstFit : span h (l ++ (carve h least need b ++ r)) = span h (l ++ b :: r) := by
  simp only [span_append, span_carve, span, Nat.add_assoc]

theorem dvd_carve (hh : g ∣ h) (hn : g ∣ need) (hb : g ∣ b.size) :
    ∀ c ∈ carve h least need b, g ∣ c.size := by
  by_cases hs : need + h + least ≤ b.size
  · simp only [carve, hs, if_true, mem_cons, not_mem_nil, or_false, forall_eq_or_imp, forall_eq]
    exact ⟨hn, Nat.dvd_sub (Nat.dvd_sub hb hn) hh⟩
  · simpa [carve, hs] using hb

theorem coalesced_firstFit (hb : b.used = false)
    (hc : Coalesced (l ++ b :: r)) : Coalesced (l ++ (carve h least need b ++ r)) := by
  obtain ⟨hl, hr, hm⟩ := coalesced_middle.mp hc
  simp only [hb, Bool.false_eq_true, false_or] at hm
  by_cases hs : need + h + least ≤ b.size
  · simp only [carve, hs, if_true, cons_append, nil_append]
    have hrest : Coalesced ([] ++ ⟨b.size - need - h, false⟩ :: r) :=
      coalesced_middle.mpr ⟨isChain_nil, hr, .inr ⟨fun x hx => by simp at hx, hm.2⟩⟩
    exact coalesced_middle.mpr ⟨hl, hrest, .inl rfl⟩
  · simp only [carve, hs, if_false, cons_append, nil_append]
    exact coalesced_middle.mpr ⟨hl, hr, .inl rfl⟩

theorem usedAt_firstFit (h p least : Nat) (hb : b.used = false) (hn : need ≤ b.size) :
    ∃ n, need ≤ n ∧ n ≤ b.size ∧ usedAt h p (l ++ (carve h least need b ++ r)) =
      usedAt h p l ++ (p + span h l + h, ⟨n, true⟩) :: usedAt h (p + span h l + h + b.size) r ∧
      usedAt h p (l ++ b :: r) = usedAt h p l ++ usedAt h (p + span h l + h + b.size) r := by
  obtain ⟨size, used⟩ := b
  subst hb
  by_cases hs : need + h + least ≤ size
  · refine ⟨need, le_rfl, hn, ?_, by rw [usedAt_append, usedAt_cons_free]⟩
    simp only [carve, hs, if_true, cons_append, nil_append, usedAt_append, usedAt_cons_used,
      usedAt_cons_free]
    rw [show p + span h l + h + need + h + (size - need - h) = p + span h l + h + size by omega]
  · refine ⟨size, hn, le_rfl, ?_, by rw [usedAt_append, usedAt_cons_free]⟩
    simp only [carve, hs, if_false, cons_append, nil_append, usedAt_append, usedAt_cons_used]

/-- A free segment of `n` bytes swallows the free ones after it. -/
def absorb (h : Nat) : Nat → List Seg → Nat × List Seg
  | n, [] => (n, [])
  | n, c :: r => if c.used = true then (n, c :: r) else absorb h (n + h + c.size) r

/-- A free segment of `n` bytes joins a free one before it. -/
def joinBack (h : Nat) : List Seg → Nat → List Seg → List Seg
  | [], n, r => ⟨n, false⟩ :: r
  | [c], n, r => if c.used = true then c :: ⟨n, false⟩ :: r else ⟨c.size + h + n, false⟩ :: r
  | c :: d :: l, n, r => c :: joinBack h (d :: l) n r

def release (h : Nat) (l : List Seg) (b : Seg) (r : List Seg) : List Seg :=
  joinBack h l (absorb h b.size r).1 (absorb h b.size r).2

theorem absorb_spec (n : Nat) (hc : Coalesced r) :
    (absorb h n r).1 + span h (absorb h n r).2 = n + span h r ∧ Coalesced (absorb h n r).2 ∧
      (∀ y ∈ (absorb h n r).2.head?, y.used = true) ∧
      ∀ q, usedAt h (q + (absorb h n r).1) (absorb h n r).2 = usedAt h (q + n) r := by
  induction r generalizing n with
  | nil => exact ⟨rfl, hc, fun y hy => by simp [absorb] at hy, fun q => rfl⟩
  | cons c r ih =>
    obtain ⟨size, used⟩ := c
    cases used with
    | true =>
      simp only [absorb, if_true, List.head?_cons, mem_some_iff, forall_eq', true_and]
      exact ⟨hc, fun _ => trivial⟩
    | false =>
      obtain ⟨hs, hc', hh, hu⟩ := ih (n + h + size) (List.IsChain.tail hc)
      simp only [absorb, Bool.false_eq_true, if_false, span]
      refine ⟨by omega, hc', hh, ?_⟩
      intro q
      rw [hu q, usedAt_cons_free]
      congr 1
      omega

theorem dvd_absorb (hh : g ∣ h) (hn : g ∣ n) (hr : ∀ b ∈ r, g ∣ b.size) :
    g ∣ (absorb h n r).1 ∧ ∀ b ∈ (absorb h n r).2, g ∣ b.size := by
  induction r generalizing n with
  | nil => exact ⟨hn, hr⟩
  | cons c r ih =>
    by_cases hc : c.used = true
    · simp only [absorb, hc, if_true]
      exact ⟨hn, hr⟩
    simp only [absorb, hc]
    apply ih
    · exact Nat.dvd_add (Nat.dvd_add hn hh) (hr c mem_cons_self)
    · exact fun b hb => hr b (mem_cons_of_mem _ hb)

theorem joinBack_cases (h : Nat) (l : List Seg) (n : Nat) (r : List Seg) :
    ((∀ x ∈ l.getLast?, x.used = true) ∧ joinBack h l n r = l ++ ⟨n, false⟩ :: r) ∨
      ∃ l' m, l = l' ++ [⟨m, false⟩] ∧ joinBack h l n r = l' ++ ⟨m + h + n, false⟩ :: r := by
  induction l with
  | nil => exact .inl ⟨fun x hx => by simp at hx, rfl⟩
  | cons c l ih =>
    cases l with
    | nil =>
      obtain ⟨size, used⟩ := c
      cases used with
      | true => exact .inl ⟨fun x hx => by simp at hx; rw [← hx], rfl⟩
      | false => exact .inr ⟨[], size, rfl, rfl⟩
    | cons d l =>
      obtain ⟨hx, he⟩ | ⟨l', m, hl, he⟩ := ih
      · refine .inl ⟨?_, by rw [joinBack, he]; rfl⟩
        rwa [List.getLast?_cons_cons]
      · exact .inr ⟨c :: l', m, by rw [hl]; rfl, by rw [joinBack, he]; rfl⟩

theorem absorb_used (n : Nat) (hr : ∀ y ∈ r.head?, y.used = true) : absorb h n r = (n, r) := by
  cases r with
  | nil => rfl
  | cons c r => exact if_pos (hr c rfl)

/-- Carving from a free segment and releasing leaves the arena as it was. -/
theorem release_carve (hb : b.used = false) (hn : need ≤ b.size) (hc : Coalesced (l ++ b :: r)) :
    ∃ n rest, carve h least need b ++ r = ⟨n, true⟩ :: rest ∧ need ≤ n ∧
    release h l ⟨n, true⟩ rest = l ++ b :: r := by
  obtain ⟨-, -, hu⟩ := coalesced_middle.mp hc
  obtain ⟨hl, hr⟩ := hu.resolve_left (by simp [hb])
  have hjoin : joinBack h l b.size r = l ++ b :: r := by
    obtain ⟨-, he⟩ | ⟨l', m, rfl, -⟩ := joinBack_cases h l b.size r
    · rw [he, ← hb]
    · cases hl ⟨m, false⟩ (by simp)
  unfold carve
  split
  · refine ⟨need, ⟨b.size - need - h, false⟩ :: r, rfl, Nat.le_refl need, ?_⟩
    have hsize : need + h + (b.size - need - h) = b.size := by omega
    simp only [release, absorb, Bool.false_eq_true, if_false, hsize, absorb_used _ hr, hjoin]
  · refine ⟨b.size, r, rfl, hn, ?_⟩
    simp only [release, absorb_used _ hr, hjoin]

theorem joinBack_spec (n : Nat) (hl : Coalesced l) (hr : Coalesced r)
    (hh : ∀ y ∈ r.head?, y.used = true) :
    span h (joinBack h l n r) = span h l + h + n + span h r ∧ Coalesced (joinBack h l n r) ∧
      usedAt h p (joinBack h l n r) = usedAt h p l ++ usedAt h (p + span h l + h + n) r := by
  obtain ⟨hx, he⟩ | ⟨l', m, rfl, he⟩ := joinBack_cases h l n r
  · rw [he]
    refine ⟨by simp only [span_append, span]; omega, coalesced_middle.mpr ⟨hl, hr, .inr ⟨hx, hh⟩⟩, ?_⟩
    rw [usedAt_append, usedAt_cons_free]
  rw [he]
  obtain ⟨hl', -, hm⟩ := coalesced_middle.mp hl
  simp only [Bool.false_eq_true, false_or] at hm
  refine ⟨by simp only [span_append, span]; omega,
    coalesced_middle.mpr ⟨hl', hr, .inr ⟨hm.1, hh⟩⟩, ?_⟩
  simp only [usedAt_append, usedAt_cons_free, span_append, span]
  rw [show usedAt h (p + span h l' + h + m) [] = [] from rfl, append_nil]
  congr 2
  omega

theorem dvd_joinBack (hh : g ∣ h) (hn : g ∣ n) (hl : ∀ b ∈ l, g ∣ b.size)
    (hr : ∀ b ∈ r, g ∣ b.size) : ∀ b ∈ joinBack h l n r, g ∣ b.size := by
  obtain ⟨-, he⟩ | ⟨l', m, rfl, he⟩ := joinBack_cases h l n r
  · rw [he]
    simp only [mem_append, mem_cons]
    rintro b (hb | rfl | hb)
    · exact hl b hb
    · exact hn
    · exact hr b hb
  · rw [he]
    simp only [mem_append, mem_cons] at hl ⊢
    rintro b (hb | rfl | hb)
    · exact hl b (.inl hb)
    · exact Nat.dvd_add (Nat.dvd_add (hl ⟨m, false⟩ (.inr (.inl rfl))) hh) hn
    · exact hr b hb

theorem release_spec (n : Nat) (hc : Coalesced (l ++ ⟨n, true⟩ :: r)) :
    span h (release h l ⟨n, true⟩ r) = span h (l ++ ⟨n, true⟩ :: r) ∧
      Coalesced (release h l ⟨n, true⟩ r) ∧
      usedAt h p (release h l ⟨n, true⟩ r) = usedAt h p l ++ usedAt h (p + span h l + h + n) r ∧
      usedAt h p (l ++ ⟨n, true⟩ :: r) =
        usedAt h p l ++ (p + span h l + h, ⟨n, true⟩) :: usedAt h (p + span h l + h + n) r := by
  obtain ⟨hl, hr, -⟩ := coalesced_middle.mp hc
  obtain ⟨hs, hr', hh, hu⟩ := absorb_spec n hr
  obtain ⟨hs', hc', hu'⟩ := joinBack_spec (absorb h n r).1 hl hr' hh
  refine ⟨?_, hc', ?_, by rw [usedAt_append, usedAt_cons_used]⟩
  · simp only [release, hs', span_append, span]
    omega
  · rw [release, hu', hu]

theorem dvd_release (hh : g ∣ h) (hd : ∀ c ∈ l ++ b :: r, g ∣ c.size) :
    ∀ c ∈ release h l b r, g ∣ c.size := by
  simp only [mem_append, mem_cons] at hd
  obtain ⟨hn, hr⟩ := dvd_absorb hh (hd b (.inr (.inl rfl))) fun c hc => hd c (.inr (.inr hc))
  exact dvd_joinBack hh hn (fun c hc => hd c (.inl hc)) hr

end MuOS.Lib.Segments
