import Mathlib.Data.List.Basic
import Mathlib.Data.List.Infix
import Mathlib.Logic.Function.Basic
import Mathlib.Tactic.Common

namespace MuOS.Lib.Trees

open Function List Option

section

variable {α : Type} [DecidableEq α] {sep : α} {p q u v : List α}

def parts (sep : α) (p : List α) : List (List α) := List.splitOn sep p

/-- The path without its last component; the root is empty. -/
def parentPath (sep : α) (p : List α) : List α := [sep].intercalate (parts sep p).dropLast

theorem parts_ne_nil (sep : α) (p : List α) : parts sep p ≠ [] := List.splitOn_ne_nil sep p

theorem intercalate_parts (sep : α) (p : List α) : [sep].intercalate (parts sep p) = p :=
  List.intercalate_splitOn sep

theorem parts_injective (h : parts sep p = parts sep q) : p = q := by
  rw [← intercalate_parts sep p, h, intercalate_parts]

theorem parts_append (p q : List α) : parts sep (p ++ sep :: q) = parts sep p ++ parts sep q :=
  splitOnP_append_cons p q (by simp)

theorem parts_single (h : sep ∉ p) : parts sep p = [p] := by
  have hi : parts sep ([sep].intercalate [p]) = [p] :=
    splitOn_intercalate sep (by simpa using h) (by simp)
  rwa [show [sep].intercalate [p] = p by simp [intercalate]] at hi

omit [DecidableEq α] in
theorem intercalate_append {xs ys : List (List α)} (hx : xs ≠ []) (hy : ys ≠ []) :
    [sep].intercalate (xs ++ ys) = [sep].intercalate xs ++ sep :: [sep].intercalate ys := by
  induction xs with
  | nil => exact absurd rfl hx
  | cons x xs ih =>
    by_cases hxs : xs = []
    · subst hxs
      rw [singleton_append, intercalate_cons_of_ne_nil hy]
      simp [intercalate]
    · rw [cons_append, intercalate_cons_of_ne_nil (by simp [hxs]), ih hxs, intercalate_cons_of_ne_nil hxs]
      simp only [append_assoc]

theorem parts_last (h : sep ∉ v) : (parts sep (u ++ sep :: v)).dropLast = parts sep u := by
  rw [parts_append, parts_single h, dropLast_concat]

theorem mem_of_mem_parts {c : List α} {x : α} (hc : c ∈ parts sep p) (hx : x ∈ c) : x ∈ p := by
  have hin : ∀ ls : List (List α), c ∈ ls → x ∈ [sep].intercalate ls := by
    intro ls
    induction ls with
    | nil => exact fun h => absurd h not_mem_nil
    | cons a ls ih =>
      intro h
      by_cases hls : ls = []
      · subst hls
        obtain rfl := mem_singleton.mp h
        simpa [intercalate] using hx
      · rw [intercalate_cons_of_ne_nil hls]
        obtain rfl | h := mem_cons.mp h
        · simp [hx]
        · simp [ih h]
  exact intercalate_parts sep p ▸ hin _ hc

theorem parts_prefix_iff : parts sep p <+: parts sep q ↔ q = p ∨ ∃ t, q = p ++ sep :: t := by
  constructor
  · rintro ⟨ts, ht⟩
    by_cases hts : ts = []
    · subst hts
      rw [append_nil] at ht
      exact .inl (parts_injective ht).symm
    · refine .inr ⟨[sep].intercalate ts, ?_⟩
      rw [← intercalate_parts sep q, ← ht, intercalate_append (parts_ne_nil sep p) hts, intercalate_parts]
  · rintro (rfl | ⟨t, rfl⟩)
    · exact prefix_rfl
    rw [parts_append]
    exact prefix_append _ _

theorem drop_parts (p t : List α) :
    (parts sep (p ++ sep :: t)).drop (parts sep p).length = parts sep t := by
  rw [parts_append, drop_left]

theorem around_sep (h : [] ∉ parts sep p) (hp : p = u ++ sep :: v) : u ≠ [] ∧ v ≠ [] ∧
    v.head? ≠ some sep := by
  have hnil : ([] : List α) ∈ parts sep [] := by rw [parts_single not_mem_nil]; exact mem_singleton_self _
  rw [hp, parts_append] at h
  refine ⟨?_, ?_, fun hh => ?_⟩
  · rintro rfl
    exact h (mem_append_left _ hnil)
  · rintro rfl
    exact h (mem_append_right _ hnil)
  obtain ⟨t, rfl⟩ := head?_eq_some_iff.mp hh
  refine h (mem_append_right _ ?_)
  have ht : parts sep ([] ++ sep :: t) = _ := parts_append [] t
  rw [nil_append] at ht
  rw [ht]
  exact mem_append_left _ hnil

theorem no_empty_part (hp : p ≠ [])
    (h : ∀ u v, p = u ++ sep :: v → u ≠ [] ∧ v ≠ [] ∧ v.head? ≠ some sep) : [] ∉ parts sep p := by
  intro hm
  obtain ⟨xs, ys, hxy⟩ := append_of_mem hm
  have he := intercalate_parts sep p
  rw [hxy] at he
  by_cases hx : xs = []
  · by_cases hy : ys = []
    · subst hx hy
      exact hp (by simpa [intercalate] using he.symm)
    · subst hx
      rw [nil_append, intercalate_cons_of_ne_nil hy] at he
      exact (h [] _ (by simpa using he.symm)).1 rfl
  · rw [intercalate_append hx (by simp)] at he
    obtain ⟨-, hv, hh⟩ := h _ _ he.symm
    by_cases hy : ys = []
    · subst hy
      exact hv (by simp [intercalate])
    · rw [intercalate_cons_of_ne_nil hy] at hh
      exact hh (by simp)

end

section

variable {ι β : Type} {name : ι → Option (List β)} {dir : ι → Prop} {i j : ι} {p q old new : List β}

/-- Distinct names, each at the root or in a directory. -/
structure Rooted (name : ι → Option (List β)) (dir : ι → Prop) : Prop where
  distinct : ∀ i j p, name i = some p → name j = some p → i = j
  parent : ∀ i p, name i = some p → p.dropLast = [] ∨ ∃ j, dir j ∧ name j = some p.dropLast

theorem rooted_empty (h : ∀ i, name i = none) : Rooted name dir :=
  ⟨fun i j p hi => absurd (hi.symm.trans (h i)) (by simp),
    fun i p hi => by cases hi.symm.trans (h i)⟩

theorem Rooted.ancestor (h : Rooted name dir) {b : List β} (hp : p ≠ []) (hb : b ≠ [])
    (hn : name i = some (p ++ b)) : ∃ j, dir j ∧ name j = some p := by
  induction hl : b.length generalizing i b with
  | zero => exact absurd (length_eq_zero_iff.mp hl) hb
  | succ n ih =>
    have hd : (p ++ b).dropLast = p ++ b.dropLast := dropLast_append_of_ne_nil hb
    have hne : p ++ b.dropLast ≠ [] := by simp [hp]
    obtain hroot | ⟨j, hdir, hj⟩ := h.parent i _ hn
    · exact absurd (hd ▸ hroot) hne
    rw [hd] at hj
    by_cases hb' : b.dropLast = []
    · rw [hb', append_nil] at hj
      exact ⟨j, hdir, hj⟩
    · exact ih hb' hj (by rw [length_dropLast]; omega)

theorem Rooted.clear (h : Rooted name dir) (hp : p ≠ []) (hnew : ∀ j, name j ≠ some p)
    (hq : name i = some q) : ¬ p <+: q := by
  rintro ⟨t, rfl⟩
  by_cases ht : t = []
  · rw [ht, append_nil] at hq
    exact hnew i hq
  · obtain ⟨j, -, hj⟩ := h.ancestor hp ht hq
    exact hnew j hj

variable [DecidableEq ι]

section

variable (h : Rooted name dir)
include h

theorem Rooted.add (hfree : name i = none) (hnew : ∀ j, name j ≠ some p)
    (hpar : p.dropLast = [] ∨ ∃ j, dir j ∧ name j = some p.dropLast) :
    Rooted (update name i (some p)) dir := by
  have hkeep : ∀ j q, name j = some q → update name i (some p) j = some q := by
    intro j q hj
    rw [update_of_ne (by rintro rfl; rw [hfree] at hj; cases hj), hj]
  refine ⟨?_, ?_⟩
  · intro a b q ha hb
    by_cases hai : a = i
    · by_cases hbi : b = i
      · rw [hai, hbi]
      rw [hai, update_self] at ha
      rw [update_of_ne hbi] at hb
      exact absurd (ha ▸ hb) (hnew b)
    · rw [update_of_ne hai] at ha
      by_cases hbi : b = i
      · rw [hbi, update_self] at hb
        exact absurd (hb ▸ ha) (hnew a)
      · rw [update_of_ne hbi] at hb
        exact h.distinct a b q ha hb
  · intro a q ha
    have hlift : (q.dropLast = [] ∨ ∃ j, dir j ∧ name j = some q.dropLast) →
        q.dropLast = [] ∨ ∃ j, dir j ∧ update name i (some p) j = some q.dropLast := by
      rintro (hroot | ⟨j, hdir, hj⟩)
      · exact .inl hroot
      · exact .inr ⟨j, hdir, hkeep j _ hj⟩
    by_cases hai : a = i
    · rw [hai, update_self, some.injEq] at ha
      subst ha
      exact hlift hpar
    · rw [update_of_ne hai] at ha
      exact hlift (h.parent a q ha)

theorem Rooted.remove (hin : dir i → ∀ j p q, name i = some p → name j = some q → q.dropLast ≠ p) :
    Rooted (update name i none) dir := by
  have hsub : ∀ a q, update name i none a = some q → a ≠ i ∧ name a = some q := by
    intro a q ha
    by_cases hai : a = i
    · rw [hai, update_self] at ha
      cases ha
    · rw [update_of_ne hai] at ha
      exact ⟨hai, ha⟩
  refine ⟨fun a b q ha hb => h.distinct a b q (hsub a q ha).2 (hsub b q hb).2, ?_⟩
  intro a q ha
  obtain ⟨-, hq⟩ := hsub a q ha
  obtain hroot | ⟨j, hdir, hj⟩ := h.parent a q hq
  · exact .inl hroot
  have hji : j ≠ i := by
    rintro rfl
    exact hin hdir a _ q hj hq rfl
  exact .inr ⟨j, hdir, by rw [update_of_ne hji, hj]⟩

theorem Rooted.move (hdir : ¬ dir i) (hnew : ∀ j, j ≠ i → name j ≠ some p)
    (hpar : p.dropLast = [] ∨ ∃ j, dir j ∧ name j = some p.dropLast) :
    Rooted (update name i (some p)) dir := by
  have hr := (h.remove fun hd => absurd hd hdir).add (update_self ..)
    (fun j => by
      by_cases hji : j = i
      · rw [hji]
        simp
      · rw [update_of_ne hji]
        exact hnew j hji)
    (by
      obtain hroot | ⟨j, hd, hj⟩ := hpar
      · exact .inl hroot
      have hji : j ≠ i := fun he => hdir (he ▸ hd)
      exact .inr ⟨j, hd, by rw [update_of_ne hji, hj]⟩)
  rwa [update_idem] at hr

end

section

variable [DecidableEq β]

/-- Where a path goes when directory `old` becomes `new`. -/
def graft (old new p : List β) : List β := if old <+: p then new ++ p.drop old.length else p

theorem graft_under (old new t : List β) : graft old new (old ++ t) = new ++ t := by
  rw [graft, if_pos (prefix_append old t), drop_left]

theorem graft_other (h : ¬ old <+: p) : graft old new p = p := if_neg h

omit [DecidableEq β] in
theorem dropLast_not_under (h : ¬ old <+: p) : ¬ old <+: p.dropLast :=
  fun hu => h (hu.trans ( dropLast_prefix p))

omit [DecidableEq ι] in
theorem Rooted.graft (h : Rooted name dir) (hold : old ≠ []) (hne : new ≠ [])
    (hnew : ∀ j, name j ≠ some new)
    (hapart : ¬ old <+: new) (hpar : new.dropLast = [] ∨ ∃ j, dir j ∧ name j = some new.dropLast) :
    Rooted (fun i => (name i).map (graft old new)) dir := by
  have hinj : ∀ a b p q, name a = some p → name b = some q →
    Trees.graft old new p = Trees.graft old new q → p = q := by
    intro a b p q ha hb he
    by_cases hup : old <+: p
    · obtain ⟨t, rfl⟩ := hup
      by_cases huq : old <+: q
      · obtain ⟨t', rfl⟩ := huq
        rw [graft_under, graft_under] at he
        rw [append_cancel_left he]
      · rw [graft_under, graft_other huq] at he
        exact absurd ⟨t, he⟩ (h.clear hne hnew hb)
    · by_cases huq : old <+: q
      · obtain ⟨t, rfl⟩ := huq
        rw [graft_under, graft_other hup] at he
        exact absurd ⟨t, he.symm⟩ (h.clear hne hnew ha)
      · rwa [graft_other hup, graft_other huq] at he
  have hstay : ∀ p, ¬ old <+: p → (p = [] ∨ ∃ j, dir j ∧ name j = some p) →
      p = [] ∨ ∃ j, dir j ∧ (name j).map (Trees.graft old new) = some p := by
    rintro p hu (hroot | ⟨j, hdir, hj⟩)
    · exact .inl hroot
    · exact .inr ⟨j, hdir, by rw [hj, map_some, graft_other hu]⟩
  refine ⟨?_, ?_⟩
  · intro a b r ha hb
    obtain ⟨p, hp, rfl⟩ := map_eq_some_iff.mp ha
    obtain ⟨q, hq, he⟩ := map_eq_some_iff.mp hb
    exact h.distinct a b p hp (hinj a b p q hp hq he.symm ▸ hq)
  · intro a r ha
    obtain ⟨p, hp, rfl⟩ := map_eq_some_iff.mp ha
    by_cases hu : old <+: p
    · obtain ⟨t, rfl⟩ := hu
      rw [graft_under]
      by_cases ht : t = []
      · rw [ht, append_nil]
        exact hstay _ (dropLast_not_under hapart) hpar
      rw [dropLast_append_of_ne_nil ht]
      obtain hroot | ⟨j, hdir, hj⟩ := h.parent a _ hp
      · rw [dropLast_append_of_ne_nil ht] at hroot
        exact absurd (append_eq_nil_iff.mp hroot).1 hold
      · rw [dropLast_append_of_ne_nil ht] at hj
        exact .inr ⟨j, hdir, by rw [hj, map_some, graft_under]⟩
    · rw [graft_other hu]
      exact hstay _ (dropLast_not_under hu) (h.parent a p hp)

end

section

variable [DecidableEq β] {d : List β}

def childIn (name : ι → Option (List β)) (d : List β) (i : ι) : Option β :=
  (name i).bind (fun p => if p.dropLast = d then p.getLast? else none)

theorem childIn_update {v : Option (List β)} (hold : ∀ p, name i = some p → p.dropLast ≠ d)
    (hnew : ∀ p, v = some p → p.dropLast ≠ d) : childIn (update name i v) d = childIn name d := by
  funext j
  by_cases hj : j = i
  · subst hj
    have hnone : ∀ o : Option (List β), (∀ p, o = some p → p.dropLast ≠ d) →
        o.bind (fun p => if p.dropLast = d then p.getLast? else none) = none := by
      intro o ho
      cases o with
      | none => rfl
      | some p => exact if_neg (ho p rfl)
    rw [childIn, childIn, update_self, hnone _ hnew, hnone _ hold]
  · rw [childIn, childIn, update_of_ne hj]

omit [DecidableEq ι] in
theorem childIn_graft (h : Rooted name dir) (hne : new ≠ []) (hnew : ∀ j, name j ≠ some new)
    (hd : d = [] ∨ ∃ j, name j = some d) (hfrom : old.dropLast ≠ d) (hto : new.dropLast ≠ d) :
    childIn (fun i => (name i).map (graft old new)) (graft old new d) = childIn name d := by
  have hclear : ¬ new <+: d := by
    rcases hd with rfl | ⟨j, hj⟩
    · exact fun hp => hne (prefix_nil.mp hp)
    · exact h.clear hne hnew hj
  funext i
  rw [childIn, childIn]
  cases hp : name i with
  | none => rfl
  | some p =>
    simp only [map_some, bind_some]
    by_cases hu : old <+: p
    · obtain ⟨t, rfl⟩ := hu
      rw [graft_under]
      by_cases ht : t = []
      · have hmoved : new.dropLast ≠ graft old new d := by
          by_cases hud : old <+: d
          · obtain ⟨v, rfl⟩ := hud
            rw [graft_under]
            intro he
            have hl := congrArg length he
            have hpos := length_pos_iff.mpr hne
            rw [length_dropLast, length_append] at hl
            omega
          · rwa [graft_other hud]
        rw [ht, append_nil, append_nil, if_neg hmoved, if_neg hfrom]
      · rw [dropLast_append_of_ne_nil ht, dropLast_append_of_ne_nil ht,
          getLast?_append_of_ne_nil _ ht, getLast?_append_of_ne_nil _ ht]
        refine if_congr ?_ rfl rfl
        by_cases hud : old <+: d
        · obtain ⟨v, rfl⟩ := hud
          rw [graft_under, append_cancel_left_eq, append_cancel_left_eq]
        · rw [graft_other hud]
          exact ⟨fun he => absurd ⟨_, he⟩ hclear, fun he => absurd ⟨_, he⟩ hud⟩
    · rw [graft_other hu]
      refine if_congr ?_ rfl rfl
      by_cases hud : old <+: d
      · refine ⟨fun he => ?_, fun he => absurd (he ▸ hud) (dropLast_not_under hu)⟩
        obtain ⟨v, rfl⟩ := hud
        rw [graft_under] at he
        exact absurd ((he ▸ prefix_append new v).trans ( dropLast_prefix p)) (h.clear hne hnew hp)
      · rw [graft_other hud]

end

end

end MuOS.Lib.Trees
