import Mathlib.Logic.Basic

namespace MuOS.Lib.Runs

open Option

variable {S T A : Type} {step : S → A → Option S} {as : List A} {ok : S → A → Prop} {s : S}
  {I : S → Prop} {a : A} {ok' : S → A → Prop} {t : S} {P : S → Prop}

def run (step : S → A → Option S) : S → List A → Option S
  | s, [] => some s
  | s, a :: as => (step s a).bind (fun t => run step t as)

theorem run_cons (step : S → A → Option S) {t u : S}
    (h : step s a = some t) (hr : run step t as = some u) : run step s (a :: as) = some u := by
  simp only [run, h, bind_some, hr]

theorem run_cons_inv {u : S} (h : run step s (a :: as) = some u) : ∃ t, step s a = some t ∧
    run step t as = some u := by
  simpa only [run, bind_eq_some_iff] using h

theorem run_append (step : S → A → Option S) (s : S) (as bs : List A) :
    run step s (as ++ bs) = (run step s as).bind (fun t => run step t bs) := by
  induction as generalizing s with
  | nil => rfl
  | cons a as ih =>
    cases h : step s a with
    | none => simp [run, h]
    | some t => simp [run, h, ih]

theorem run_invariant (hstep : ∀ s a t, I s → step s a = some t → I t)
    (hs : I s) (h : run step s as = some t) : I t := by
  induction as generalizing s with
  | nil =>
    simp only [run, some.injEq] at h
    exact h ▸ hs
  | cons a as ih =>
    obtain ⟨u, hu, hr⟩ := run_cons_inv h
    exact ih (hstep s a u hs hu) hr

/-- What is said of the end of a run can be evaluated. -/
instance decidableSome {o : Option S} {P : S → Prop} [DecidablePred P] :
    Decidable (∃ s, o = some s ∧ P s) :=
  inferInstanceAs (Decidable (∃ s, s ∈ o ∧ P s))

/-- Every step of the run meets the condition `ok`. -/
def Meets (step : S → A → Option S) (ok : S → A → Prop) : S → List A → Prop
  | _, [] => True
  | s, a :: as => ok s a ∧ ∀ t, step s a = some t → Meets step ok t as

theorem Meets.mono (hok : ∀ s a, ok s a → ok' s a) (h : Meets step ok s as) :
    Meets step ok' s as := by
  induction as generalizing s with
  | nil => trivial
  | cons a as ih => exact ⟨hok s a h.1, fun t ht => ih (h.2 t ht)⟩

def checks (step : S → A → Option S) (ok : S → A → Bool) : S → List A → Bool
  | _, [] => true
  | s, a :: as => ok s a && (step s a).all (fun t => checks step ok t as)

theorem checks_meets {b : S → A → Bool} (hok : ∀ s a, b s a = true → ok s a)
    (h : checks step b s as = true) : Meets step ok s as := by
  induction as generalizing s with
  | nil => trivial
  | cons a as ih =>
    simp only [checks, Bool.and_eq_true] at h
    refine ⟨hok s a h.1, fun t ht => ih ?_⟩
    rw [ht] at h
    exact h.2

/-- How many steps of the run satisfy `p`. -/
def stepCount (step : S → A → Option S) (p : S → A → Bool) : S → List A → Nat
  | _, [] => 0
  | s, a :: as => (if p s a then 1 else 0) + (step s a).elim 0 (fun t => stepCount step p t as)

theorem stepCount_cons {p : S → A → Bool} (as : List A) (h : step s a = some t) :
    stepCount step p s (a :: as) = (if p s a then 1 else 0) + stepCount step p t as := by
  simp only [stepCount, h, elim_some]

/-- A rank that no step raises and counted steps lower bounds their number. -/
theorem stepCount_rank {p : S → A → Bool} {m : S → Nat}
    (hstep : ∀ s a t, I s → ok s a → step s a = some t → I t ∧ (if p s a then 1 else 0) + m t ≤ m s)
    (hs : I s) (hm : Meets step ok s as) (h : run step s as = some t) :
    stepCount step p s as + m t ≤ m s := by
  induction as generalizing s with
  | nil =>
    cases h
    exact Nat.le_of_eq (Nat.zero_add _)
  | cons a as ih =>
    obtain ⟨u, hu, hr⟩ := run_cons_inv h
    obtain ⟨hi, hle⟩ := hstep s a u hs hm.1 hu
    have hrest := ih hi (hm.2 u hu) hr
    rw [stepCount_cons as hu]
    omega

theorem meets_invariant (hstep : ∀ s a t, I s → ok s a → step s a = some t → I t)
    (hs : I s) (hm : Meets step ok s as) (h : run step s as = some t) : I t := by
  induction as generalizing s with
  | nil =>
    simp only [run, some.injEq] at h
    exact h ▸ hs
  | cons a as ih =>
    obtain ⟨u, hu, hr⟩ := run_cons_inv h
    exact ih (hstep s a u hs hm.1 hu) (hm.2 u hu) hr

theorem Meets.keeps (hstep : ∀ s a t, I s → ok s a → step s a = some t → I t)
    (hok : ∀ s a, I s → ok s a → ok' s a) (hs : I s) (h : Meets step ok s as) :
    Meets step ok' s as := by
  induction as generalizing s with
  | nil => trivial
  | cons a as ih => exact ⟨hok s a hs h.1, fun t ht => ih (hstep s a t hs h.1 ht) (h.2 t ht)⟩

theorem meets_simulation {step' : T → A → Option T} {R : S → T → Prop}
    (hstep : ∀ s a t s', R s s' → ok s a → step s a = some t → ∃ t', step' s' a = some t' ∧ R t t')
    {s' : T} (hs : R s s') (hm : Meets step ok s as)
    (h : run step s as = some t) : ∃ t', run step' s' as = some t' ∧ R t t' := by
  induction as generalizing s s' with
  | nil =>
    simp only [run, some.injEq] at h
    exact ⟨s', rfl, h ▸ hs⟩
  | cons a as ih =>
    obtain ⟨u, hu, hr⟩ := run_cons_inv h
    obtain ⟨u', hu', hR⟩ := hstep s a u s' hs hm.1 hu
    obtain ⟨t', ht', hT⟩ := ih hR (hm.2 u hu) hr
    exact ⟨t', run_cons step' hu' ht', hT⟩

/-- Every state of the run satisfies `P`. -/
def Always (step : S → A → Option S) (P : S → Prop) : S → List A → Prop
  | s, [] => P s
  | s, a :: as => P s ∧ ∀ t, step s a = some t → Always step P t as

theorem Always.head (h : Always step P s as) : P s := by
  cases as with
  | nil => exact h
  | cons a as => exact h.1

theorem always_iff_meets (htotal : ∀ s a, ∃ t, step s a = some t) (hP : ∀ s, I s → P s)
    (hok : ∀ s a t, I s → step s a = some t → ok s a → I t)
    (hneeds : ∀ s a t, I s → step s a = some t → P t → ok s a) (hs : I s) :
    Always step P s as ↔ Meets step ok s as := by
  induction as generalizing s with
  | nil => exact ⟨fun _ => trivial, fun _ => hP s hs⟩
  | cons a as ih =>
    obtain ⟨t, ht⟩ := htotal s a
    have hone : ∀ u, step s a = some u → u = t := fun u hu => some.inj (hu.symm.trans ht)
    constructor
    · rintro ⟨-, hrest⟩
      have hmeet := hneeds s a t hs ht (hrest t ht).head
      refine ⟨hmeet, fun u hu => ?_⟩
      rw [hone u hu]
      exact (ih (hok s a t hs ht hmeet)).mp (hrest t ht)
    · rintro ⟨hmeet, hrest⟩
      refine ⟨hP s hs, fun u hu => ?_⟩
      rw [hone u hu]
      exact (ih (hok s a t hs ht hmeet)).mpr (hrest t ht)

theorem foldl_reaches {f : S → A → S} {P Q : S → Prop} (hp : ∀ s b, P s → P (f s b))
    (hq : ∀ s, P s → Q (f s a)) (hkeep : ∀ s b, P s → Q s → Q (f s b)) {l : List A} (ha : a ∈ l)
    (hs : P s) : Q (l.foldl f s) := by
  have hrest : ∀ (l : List A) s, P s → Q s → Q (l.foldl f s) := by
    intro l
    induction l with
    | nil => exact fun _ _ h => h
    | cons b l ih => exact fun s hs h => ih _ (hp s b hs) (hkeep s b hs h)
  induction l generalizing s with
  | nil => exact absurd ha (List.not_mem_nil)
  | cons b l ih =>
    rcases List.mem_cons.mp ha with rfl | hl
    · exact hrest l _ (hp s a hs) (hq s hs)
    · exact ih hl (hp s b hs)

end MuOS.Lib.Runs
