import MuOS.Fs.RamFs
import MuOS.Lib.Runs
import MuOS.Lib.Trees

namespace MuOS.Fs.Names

open Function Lib Memory CStrings Runs Trees Metadata RamFs List

variable {r : Ram} {path par base old new : List (BitVec 8)} {i : Fin 16} {held : Fin 16 → Nat}
  {name : List (BitVec 8)}
  {ds : List (List (List (BitVec 8)))} {d : DirMeta} {a : Fin 64 → BitVec 8}
  {q : List (BitVec 8)} {op : Op}

theorem scanSlashes_spec {k : Nat} {rest : List (BitVec 8)} {last res : Option Nat}
    (h : scanSlashes k rest last = some res) :
    (∀ u v, rest = u ++ slash :: v → k + u.length ≠ 0 ∧ v ≠ [] ∧ v.head? ≠ some slash) ∧
      ((slash ∉ rest ∧ res = last) ∨ ∃ u v, rest = u ++ slash :: v ∧ slash ∉ v ∧
      res = some (k + u.length)) := by
  induction rest generalizing k last with
  | nil =>
    refine ⟨fun u v hu => absurd hu (by simp), .inl ⟨not_mem_nil, ?_⟩⟩
    exact (Option.some.inj h).symm
  | cons c rest ih =>
    rw [scanSlashes] at h
    by_cases hc : c = slash
    · rw [if_pos hc] at h
      split at h
      · cases h
      obtain ⟨hclean, hlast⟩ := ih h
      refine ⟨?_, .inr ?_⟩
      · intro u v hu
        obtain ⟨rfl, ht⟩ | ⟨u', rfl, ht⟩ := cons_eq_append_iff.mp hu
        · cases ht
          exact ⟨by omega, by tauto, by tauto⟩
        · obtain ⟨-, hv⟩ := hclean u' v ht
          exact ⟨by rw [length_cons]; omega, hv⟩
      · obtain ⟨hno, rfl⟩ | ⟨u, v, rfl, hv, rfl⟩ := hlast
        · exact ⟨[], rest, by rw [hc, nil_append], hno, by simp⟩
        · exact ⟨c :: u, v, rfl, hv, by simp; omega⟩
    · rw [if_neg hc] at h
      obtain ⟨hclean, hlast⟩ := ih h
      refine ⟨?_, ?_⟩
      · intro u v hu
        obtain ⟨rfl, ht⟩ | ⟨u', rfl, ht⟩ := cons_eq_append_iff.mp hu
        · exact absurd (cons.inj ht).1.symm hc
        obtain ⟨-, hv⟩ := hclean u' v ht
        exact ⟨by rw [length_cons]; omega, hv⟩
      · obtain ⟨hno, rfl⟩ | ⟨u, v, rfl, hv, rfl⟩ := hlast
        · exact .inl ⟨by simp [hno, Ne.symm hc], rfl⟩
        · exact .inr ⟨c :: u, v, rfl, hv, by simp; omega⟩

def WellFormed (path : List (BitVec 8)) : Prop :=
  1 ≤ path.length ∧ path.length ≤ 63 ∧ [] ∉ parts slash path

theorem splitParent_spec (h : splitParent path = some (par, base)) : WellFormed path ∧
    ((par = [] ∧ (parts slash path).dropLast = []) ∨
    (par ≠ [] ∧ parts slash par = (parts slash path).dropLast)) := by
  rw [splitParent] at h
  split at h
  · cases h
  have hne : path ≠ [] := by tauto
  have hlen : ¬ 64 ≤ path.length := by tauto
  have hpos : 0 < path.length := length_pos_iff.mpr hne
  cases hs : scanSlashes 0 path none with
  | none => simp [hs] at h
  | some res =>
    obtain ⟨hclean, hlast⟩ := scanSlashes_spec hs
    have hformed : WellFormed path := by
      refine ⟨hpos, by omega, no_empty_part hne fun u v hu => ?_⟩
      obtain ⟨hu0, hv⟩ := hclean u v hu
      exact ⟨fun he => hu0 (by rw [he]; rfl), hv⟩
    refine ⟨hformed, ?_⟩
    obtain ⟨hno, rfl⟩ | ⟨u, v, hp, hv, rfl⟩ := hlast
    · simp only [hs, Option.some.injEq, Prod.mk.injEq] at h
      exact .inl ⟨h.1.symm, by rw [parts_single hno]; rfl⟩
    simp only [hs, Option.some.injEq, Prod.mk.injEq, Nat.zero_add] at h
    have hpar : par = u := by rw [← h.1, hp, take_left']; rfl
    obtain ⟨hu0, -⟩ := hclean u v hp
    refine .inr ⟨?_, ?_⟩
    · rw [hpar]
      intro he
      exact hu0 (by rw [he]; rfl)
    · rw [hpar, hp, parts_append, parts_single hv, dropLast_concat]

abbrev Entry := Fin 16 ⊕ Fin 16

def entryName (r : Ram) : Entry → Option (List (BitVec 8))
  | .inl i => if isLive (r.tables.files i) then some (strAt (r.tables.files i).name) else none
  | .inr i => if dirUsed (r.tables.dirs i) then some (strAt (r.tables.dirs i).name) else none

/-- Names, sizes and unlinked slots; `held` counts references. -/
structure NameTree (r : Ram) (held : Fin 16 → Nat) : Prop where
  distinct : ∀ e e' p, entryName r e = some p → entryName r e' = some p → e = e'
  formed : ∀ e p, entryName r e = some p → WellFormed p
  parent : ∀ e p, entryName r e = some p →
    parentPath slash p = [] ∨ ∃ j, entryName r (.inr j) = some (parentPath slash p)
  size : ∀ i, (r.tables.files i).size.toNat ≤ 65536
  unlinked : ∀ i, (r.tables.files i).deleted ≠ 0#32 →
    strAt (r.tables.files i).name = [] ∧ 0 < held i

def isDir (e : Entry) : Prop := e.isRight = true

def entryParts (r : Ram) (e : Entry) : Option (List (List (BitVec 8))) :=
  (entryName r e).map (parts slash)

structure Named (r : Ram) : Prop where
  rooted : Rooted (entryParts r) isDir
  formed : ∀ e p, entryName r e = some p → WellFormed p

def Kept (f : FileMeta) (refs : BitVec 32) (held : Nat) : Prop :=
  refs.toNat ≤ held ∧ (f.deleted ≠ 0#32 → isUsed f = true ∧ strAt f.name = [] ∧ 0 < held)

def Slots (r : Ram) (held : Fin 16 → Nat) : Prop := ∀ i, Kept (r.tables.files i) (r.refs i) (held i)

theorem WellFormed.ne_nil (h : WellFormed path) : path ≠ [] := List.length_pos_iff.mp h.1

theorem Named.distinct {e e' : Entry} (hn : Named r) (h : entryName r e = some path)
    (h' : entryName r e' = some path) : e = e' :=
  hn.rooted.distinct e e' (parts slash path) (by rw [entryParts, h]; rfl)
    (by rw [entryParts, h']; rfl)

theorem NameTree.of_parts (hn : Named r) (hs : Slots r held) : NameTree r held where
  distinct := fun _ _ _ => hn.distinct
  formed := hn.formed
  parent := by
    intro e p h
    obtain hroot | ⟨j, hd, hj⟩ := hn.rooted.parent e (parts slash p) (by rw [entryParts, h]; rfl)
    · exact .inl (by rw [parentPath, hroot, intercalate_nil])
    obtain ⟨q, hq, he⟩ := Option.map_eq_some_iff.mp hj
    have hpar : parentPath slash p = q := by rw [parentPath, ← he, intercalate_parts]
    cases j with
    | inl i => exact absurd hd (by simp [isDir])
    | inr i => exact .inr ⟨i, by rw [hpar, hq]⟩
  size := fun i => (r.tables.files i).size_le
  unlinked := fun i hd => ((hs i).2 hd).2

theorem entryName_file (h : entryName r (.inl i) = some path) :
    isLive (r.tables.files i) = true ∧ strAt (r.tables.files i).name = path := by
  rw [entryName] at h
  split at h
  · rename_i hl
    exact ⟨hl, Option.some.inj h⟩
  · cases h

theorem entryName_dir (h : entryName r (.inr i) = some path) :
    dirUsed (r.tables.dirs i) = true ∧ strAt (r.tables.dirs i).name = path := by
  rw [entryName] at h
  split at h
  · rename_i hl
    exact ⟨hl, Option.some.inj h⟩
  · cases h

theorem fileSlotOf_some (h : fileSlotOf r path = some i) : entryName r (.inl i) = some path := by
  have hp := find?_some h
  simp only [Bool.and_eq_true, decide_eq_true_eq] at hp
  rw [entryName, if_pos hp.1, hp.2]

theorem fileSlotOf_none (h : fileSlotOf r path = none) (i : Fin 16) :
    entryName r (.inl i) ≠ some path := by
  intro he
  have hp := find?_eq_none.mp h i (mem_finRange i)
  simp only [Bool.and_eq_true, decide_eq_true_eq] at hp
  exact hp (entryName_file he)

theorem dirSlotOf_some (h : dirSlotOf r path = some i) : entryName r (.inr i) = some path := by
  have hp := find?_some h
  simp only [Bool.and_eq_true, decide_eq_true_eq] at hp
  rw [entryName, if_pos hp.1, hp.2]

theorem dirSlotOf_none (h : dirSlotOf r path = none) (i : Fin 16) :
    entryName r (.inr i) ≠ some path := by
  intro he
  have hp := List.find?_eq_none.mp h i (List.mem_finRange i)
  simp only [Bool.and_eq_true, decide_eq_true_eq] at hp
  exact hp (entryName_dir he)

theorem dirExists_iff : dirExists r path = true ↔ path = [] ∨
    ∃ j, entryName r (.inr j) = some path := by
  rw [dirExists, Bool.or_eq_true, List.isEmpty_iff]
  refine or_congr_right ⟨fun h => ?_, fun ⟨j, hj⟩ => ?_⟩
  · obtain ⟨j, hj⟩ := Option.isSome_iff_exists.mp h
    exact ⟨j, dirSlotOf_some hj⟩
  · cases hd : dirSlotOf r path with
    | none => exact absurd hj (dirSlotOf_none hd j)
    | some k => rfl

theorem fileExists_false (hne : path ≠ []) (h : fileExists r path = false) (j : Fin 16) :
    entryName r (.inl j) ≠ some path := by
  have hn : fileSlotOf r path = none := by
    simpa [fileExists, hne] using h
  exact fileSlotOf_none hn j

theorem dirExists_false (h : dirExists r path = false) (j : Fin 16) :
    entryName r (.inr j) ≠ some path := by
  intro hj
  have ht := dirExists_iff.mpr (.inr ⟨j, hj⟩)
  rw [h] at ht
  cases ht

theorem parent_exists (hs : splitParent path = some (par, base)) (hd : dirExists r par = true) :
    (parts slash path).dropLast = [] ∨ ∃ j, isDir j ∧
    entryParts r j = some (parts slash path).dropLast := by
  obtain ⟨-, ⟨-, hroot⟩ | ⟨hpar, hp⟩⟩ := splitParent_spec hs
  · exact .inl hroot
  obtain he | ⟨j, hj⟩ := dirExists_iff.mp hd
  · exact absurd he hpar
  · exact .inr ⟨.inr j, rfl, by rw [entryParts, hj, ← hp]; rfl⟩

section

variable {r' : Ram} {e : Entry}

theorem entryName_setFile (r : Ram) (i : Fin 16) (f : FileMeta) : entryName (setFile r i f) =
    update (entryName r) (.inl i) (if isLive f then some (strAt f.name) else none) := by
  funext e
  cases e with
  | inl j =>
    by_cases hj : j = i
    · subst hj
      simp [entryName, setFile]
    · simp [entryName, setFile, update_of_ne hj]
  | inr j =>
    rfl

theorem entryName_setDir (r : Ram) (i : Fin 16) (d : DirMeta) : entryName (setDir r i d) =
    update (entryName r) (.inr i) (if dirUsed d then some (strAt d.name) else none) := by
  funext e
  cases e with
  | inl j =>
    rfl
  | inr j =>
    by_cases hj : j = i
    · subst hj
      simp [entryName, setDir]
    · simp [entryName, setDir, update_of_ne hj]

theorem entryParts_update {v : Option (List (BitVec 8))}
    (he : entryName r' = update (entryName r) e v) :
    entryParts r' = update (entryParts r) e (v.map (parts slash)) := by
  funext e'
  by_cases h : e' = e
  · rw [h, entryParts, he, update_self, update_self]
  rw [entryParts, he, update_of_ne h, update_of_ne h]
  rfl

theorem entryParts_ne (hnew : entryName r e ≠ some path) :
    entryParts r e ≠ some (parts slash path) := by
  intro h
  obtain ⟨q, hq, he⟩ := Option.map_eq_some_iff.mp h
  exact hnew (by rw [hq, parts_injective he])

section

variable (h : Named r)
include h

theorem Named.congr (he : entryName r' = entryName r) : Named r' := by
  refine ⟨?_, fun e p hp => h.formed e p (he ▸ hp)⟩
  rw [show entryParts r' = entryParts r by funext e; rw [entryParts, entryParts, he]]
  exact h.rooted

theorem formed_update (hf : WellFormed path)
    (he : entryName r' = update (entryName r) e (some path)) : ∀ e p, entryName r' e = some p →
    WellFormed p := by
  intro e' p hp
  rw [he] at hp
  by_cases hee : e' = e
  · rw [hee, update_self, Option.some.injEq] at hp
    exact hp ▸ hf
  · rw [update_of_ne hee] at hp
    exact h.formed e' p hp

theorem Named.add (hfree : entryName r e = none) (hnew : ∀ e', entryName r e' ≠ some path)
    (hs : splitParent path = some (par, base)) (hd : dirExists r par = true)
    (he : entryName r' = update (entryName r) e (some path)) : Named r' := by
  refine ⟨?_, formed_update h (splitParent_spec hs).1 he⟩
  rw [entryParts_update he]
  exact h.rooted.add (by rw [entryParts, hfree]; rfl) (fun e' => entryParts_ne (hnew e'))
    (parent_exists hs hd)

theorem Named.move (hnew : ∀ e', e' ≠ .inl i → entryName r e' ≠ some path)
    (hs : splitParent path = some (par, base)) (hd : dirExists r par = true)
    (he : entryName r' = update (entryName r) (.inl i) (some path)) : Named r' := by
  refine ⟨?_, formed_update h (splitParent_spec hs).1 he⟩
  rw [entryParts_update he]
  exact h.rooted.move (by simp [isDir]) (fun e' hne => entryParts_ne (hnew e' hne))
    (parent_exists hs hd)

theorem Named.remove
    (hin : isDir e → ∀ e' p q, entryName r e = some p → entryName r e' = some q →
    (parts slash q).dropLast ≠ parts slash p) (he : entryName r' = update (entryName r) e none) :
    Named r' := by
  refine ⟨?_, ?_⟩
  · rw [entryParts_update he]
    refine h.rooted.remove fun hd j p q hi hj => ?_
    obtain ⟨p', hp', rfl⟩ := Option.map_eq_some_iff.mp hi
    obtain ⟨q', hq', rfl⟩ := Option.map_eq_some_iff.mp hj
    exact hin hd j p' q' hp' hq'
  · intro e' p hp
    rw [he] at hp
    by_cases hee : e' = e
    · rw [hee, update_self] at hp
      cases hp
    · rw [update_of_ne hee] at hp
      exact h.formed e' p hp

end

variable {now : BitVec 32}

theorem strAt_nameOf (hn : 0#8 ∉ path) (hl : path.length ≤ 63) : strAt (nameOf path) = path := by
  rw [nameOf, take_of_length_le hl]
  exact strAt_putStr _ hn (by omega)

theorem strAt_cleared (a : Fin 64 → BitVec 8) : strAt (cleared a) = [] :=
  strAt_head_nul (by omega) (update_self ..)

theorem isLive_used {f : FileMeta} (h : isLive f = true) : isUsed f = true :=
  (Bool.and_eq_true _ _ ▸ h).1

theorem mayAdd_spec (h : mayAdd r path = true) : ∃ par base, splitParent path = some (par, base) ∧
    dirExists r par = true ∧ ∀ e, entryName r e ≠ some path := by
  rw [mayAdd] at h
  cases hs : splitParent path with
  | none => simp [hs] at h
  | some q =>
    obtain ⟨par, base⟩ := q
    simp only [hs, Bool.and_eq_true, Bool.not_eq_true', Bool.or_eq_false_iff] at h
    refine ⟨par, base, rfl, h.1, ?_⟩
    intro e
    cases e with
    | inl j => exact fileExists_false (splitParent_spec hs).1.ne_nil h.2.1 j
    | inr j => exact dirExists_false h.2.2 j

theorem inside_iff : inside name path = true ↔ ∃ t, name = path ++ slash :: t := by
  rw [inside, Bool.and_eq_true, isPrefixOf_iff_prefix, decide_eq_true_eq]
  constructor
  · rintro ⟨⟨t, rfl⟩, hh⟩
    rw [drop_left] at hh
    cases t with
    | nil => cases hh
    | cons c t =>
      rw [head?_cons, Option.some.injEq] at hh
      exact ⟨t, by rw [hh]⟩
  · rintro ⟨t, rfl⟩
    exact ⟨prefix_append _ _, by rw [drop_left]; rfl⟩

section

variable (h : fsDirIsEmpty r path = true) (he : entryName r e = some q)
include h he

theorem fsDirIsEmpty_spec : inside q path = false := by
  simp only [fsDirIsEmpty, Bool.and_eq_true, all_eq_true, Bool.not_eq_true'] at h
  cases e with
  | inl j =>
    obtain ⟨hl, rfl⟩ := entryName_file he
    simpa [hl] using h.1.2 j (mem_finRange j)
  | inr j =>
    obtain ⟨hl, rfl⟩ := entryName_dir he
    simpa [hl] using h.2 j (mem_finRange j)

theorem empty_no_child : (parts slash q).dropLast ≠ parts slash path := by
  intro hd
  have hp : parts slash path <+: parts slash q := hd ▸ dropLast_prefix _
  obtain rfl | ⟨t, rfl⟩ := parts_prefix_iff.mp hp
  · have hl := congrArg length hd
    have hpos := length_pos_iff.mpr (parts_ne_nil slash q)
    rw [length_dropLast] at hl
    omega
  · have hi := fsDirIsEmpty_spec h he
    rw [inside_iff.mpr ⟨t, rfl⟩] at hi
    cases hi

end

theorem openSlot_spec {fd : Int} (h : openSlot r fd = some i) : isUsed (r.tables.files i) = true ∧
    fd = i.val := by
  rw [openSlot] at h
  split at h
  · simp only at h
    split at h
    · rename_i hu
      have hi := Option.some.inj h
      subst hi
      exact ⟨hu, by simp; omega⟩
    · cases h
  · cases h

theorem openSlot_used (h : isUsed (r.tables.files i) = true) : openSlot r i.val = some i := by
  have hb : (0 : Int) ≤ (i.val : Int) ∧ (i.val : Int) < 16 := by omega
  rw [openSlot, dif_pos hb]
  simp only [Int.toNat_natCast, Fin.eta, h, if_true]

theorem nameUnder_iff : nameUnder name path = true ↔ parts slash path <+: parts slash name := by
  rw [parts_prefix_iff, ← inside_iff, nameUnder, inside]
  simp only [Bool.and_eq_true, Bool.or_eq_true, decide_eq_true_eq, isPrefixOf_iff_prefix]
  constructor
  · rintro ⟨hp, hd | hh⟩
    · obtain ⟨t, rfl⟩ := hp
      rw [drop_left] at hd
      exact .inl (by rw [hd, append_nil])
    · exact .inr ⟨hp, hh⟩
  · rintro (rfl | ⟨hp, hh⟩)
    · exact ⟨prefix_rfl, .inl drop_length⟩
    · exact ⟨hp, .inr hh⟩

def retarget (old new name : List (BitVec 8)) : List (BitVec 8) :=
  if nameUnder name old then new ++ name.drop old.length else name

theorem parts_retarget (old new name : List (BitVec 8)) :
    parts slash (retarget old new name) = graft (parts slash old) (parts slash new)
    (parts slash name) := by
  rw [retarget, graft]
  by_cases hu : nameUnder name old = true
  · rw [if_pos hu, if_pos (nameUnder_iff.mp hu)]
    obtain rfl | ⟨t, rfl⟩ := parts_prefix_iff.mp (nameUnder_iff.mp hu)
    · rw [drop_length, append_nil, drop_length, append_nil]
    · rw [drop_left, parts_append, drop_parts]
  · rw [if_neg hu, if_neg fun hp => hu (nameUnder_iff.mpr hp)]

theorem strAt_moveName (hn : 0#8 ∉ new) (hl : tooLong a old new = false) :
    strAt (moveName a old new) = retarget old new (strAt a) := by
  rw [moveName, retarget]
  split
  · rename_i hu
    refine strAt_putStr a ?_ ?_
    · rw [mem_append, not_or]
      exact ⟨hn, fun hm => strAt_no_nul a (mem_of_mem_drop hm)⟩
    · simp only [tooLong, hu, Bool.true_and, decide_eq_false_iff_not] at hl
      rw [length_append]
      omega
  · rfl

theorem movedFile_live (f : FileMeta) (old new : List (BitVec 8)) (now : BitVec 32) :
    isLive (movedFile f old new now) = isLive f := by
  rw [movedFile]
  split
  · split <;> rfl
  · rfl

theorem movedFile_name {f : FileMeta} (hf : isLive f = true) (hl : tooLong f.name old new = false) :
    (movedFile f old new now).name = moveName f.name old new := by
  rw [movedFile, dif_pos hl, hf, Bool.true_and]
  split
  · rfl
  rename_i hu
  rw [moveName, if_neg hu]

theorem movedDir_used (d : DirMeta) (old new : List (BitVec 8)) :
    dirUsed (movedDir d old new) = dirUsed d := by
  rw [movedDir]
  split
  · split <;> rfl
  · rfl

theorem movedDir_name (hd : dirUsed d = true) (hl : tooLong d.name old new = false) :
    (movedDir d old new).name = moveName d.name old new := by
  rw [movedDir, dif_pos hl, if_pos hd]

theorem overflows_spec (h : overflows r old new = false) (j : Fin 16) :
    (isLive (r.tables.files j) = true → tooLong (r.tables.files j).name old new = false) ∧
      (dirUsed (r.tables.dirs j) = true → tooLong (r.tables.dirs j).name old new = false) := by
  simp only [overflows, Bool.or_eq_false_iff, any_eq_false, Bool.and_eq_true, not_and,
    Bool.not_eq_true] at h
  exact ⟨h.2 j (mem_finRange j), h.1 j (mem_finRange j)⟩

def movedTables (r : Ram) (old new : List (BitVec 8)) (clock : Fin 16 → BitVec 32) : Ram :=
  { r with tables := ⟨fun i => movedFile (r.tables.files i) old new (clock i),
    fun i => movedDir (r.tables.dirs i) old new⟩ }

theorem entryName_moved (hn : 0#8 ∉ new) (ho : overflows r old new = false)
    (clock : Fin 16 → BitVec 32) (e : Entry) :
    entryName (movedTables r old new clock) e = (entryName r e).map (retarget old new) := by
  cases e with
  | inl j =>
    simp only [entryName, movedTables, movedFile_live]
    by_cases hl : isLive (r.tables.files j) = true
    · have ht := (overflows_spec ho j).1 hl
      rw [if_pos hl, if_pos hl, movedFile_name hl ht, strAt_moveName hn ht]
      rfl
    · rw [if_neg hl, if_neg hl]
      rfl
  | inr j =>
    simp only [entryName, movedTables, movedDir_used]
    by_cases hl : dirUsed (r.tables.dirs j) = true
    · have ht := (overflows_spec ho j).2 hl
      rw [if_pos hl, if_pos hl, movedDir_name hl ht, strAt_moveName hn ht]
      rfl
    · rw [if_neg hl, if_neg hl]
      rfl

theorem retarget_formed (hf : WellFormed name) (hnew : WellFormed new)
    (hlen : nameUnder name old = true → new.length + (name.drop old.length).length < 64) :
    WellFormed (retarget old new name) := by
  rw [retarget]
  split
  · rename_i hu
    refine ⟨?_, ?_, ?_⟩
    · rw [length_append]
      have := hnew.1
      omega
    · rw [length_append]
      have := hlen hu
      omega
    · have hp := parts_retarget old new name
      rw [retarget, if_pos hu, graft, if_pos (nameUnder_iff.mp hu)] at hp
      rw [hp, mem_append, not_or]
      exact ⟨hnew.2.2, fun hm => hf.2.2 (mem_of_mem_drop hm)⟩
  · exact hf

theorem tooLong_false (h : tooLong a old new = false) (hu : nameUnder (strAt a) old = true) :
    new.length + ((strAt a).drop old.length).length < 64 := by
  simp only [tooLong, hu, Bool.true_and, decide_eq_false_iff_not] at h
  omega

/-- How a call changes the names; the index lists directories affected. -/
inductive NameChange (r r' : Ram) : List (List (List (BitVec 8))) → Prop
  | same (he : entryName r' = entryName r) : NameChange r r' []
  | add (e : Entry) (path par base : List (BitVec 8)) (hfree : entryName r e = none)
      (hnew : ∀ e', entryName r e' ≠ some path) (hs : splitParent path = some (par, base))
      (hd : dirExists r par = true) (he : entryName r' = update (entryName r) e (some path)) :
      NameChange r r' [(parts slash path).dropLast]
  | remove (e : Entry) (p : List (BitVec 8)) (hp : entryName r e = some p)
      (hin : isDir e → ∀ e' q, entryName r e' = some q → (parts slash q).dropLast ≠ parts slash p)
      (he : entryName r' = update (entryName r) e none) : NameChange r r' [(parts slash p).dropLast]
  | move (i : Fin 16) (p path par base : List (BitVec 8)) (hp : entryName r (.inl i) = some p)
      (hnew : ∀ e', e' ≠ .inl i → entryName r e' ≠ some path) (hs : splitParent path = some (par, base))
      (hd : dirExists r par = true) (he : entryName r' = update (entryName r) (.inl i) (some path)) :
      NameChange r r' [(parts slash p).dropLast, (parts slash path).dropLast]
  | graft (old new par base : List (BitVec 8)) (hs : splitParent new = some (par, base))
      (hd : dirExists r par = true) (hfresh : ∀ e, entryName r e ≠ some new)
      (hunder : ¬ parts slash old <+: parts slash new)
      (he : ∀ e, entryName r' e = (entryName r e).map (retarget old new))
      (hformed : (∀ e p, entryName r e = some p → WellFormed p) → ∀ e p, entryName r' e = some p →
      WellFormed p) : NameChange r r' [(parts slash old).dropLast, (parts slash new).dropLast]

theorem entryParts_graft (he : ∀ e, entryName r' e = (entryName r e).map (retarget old new)) :
    entryParts r' = fun e => (entryParts r e).map (graft (parts slash old) (parts slash new)) := by
  funext e
  rw [entryParts, he, entryParts, Option.map_map, Option.map_map]
  congr 1
  funext p
  exact parts_retarget old new p

theorem NameChange.named (hc : NameChange r r' ds) (h : Named r) : Named r' := by
  cases hc with
  | same he => exact h.congr he
  | add e path par base hfree hnew hs hd he => exact h.add hfree hnew hs hd he
  | remove e p hp hin he =>
    refine h.remove (fun hd e' p' q hp' hq => ?_) he
    rw [hp, Option.some.injEq] at hp'
    exact hp' ▸ hin hd e' q hq
  | move i p path par base hp hnew hs hd he => exact h.move hnew hs hd he
  | graft old new par base hs hd hfresh hunder he hformed =>
    refine ⟨?_, hformed h.formed⟩
    rw [entryParts_graft he]
    exact h.rooted.graft (parts_ne_nil slash old) (parts_ne_nil slash new)
      (fun e => entryParts_ne (hfresh e)) hunder (parent_exists hs hd)

def ChangesIn (r r' : Ram) (ds : List (List (List (BitVec 8)))) : Prop :=
  ∃ ds', ds' ⊆ ds ∧ NameChange r r' ds'

theorem ChangesIn.none (he : entryName r' = entryName r) (ds : List (List (List (BitVec 8)))) :
    ChangesIn r r' ds := ⟨[], List.nil_subset ds, .same he⟩

theorem ChangesIn.named (hc : ChangesIn r r' ds) (h : Named r) : Named r' := by
  obtain ⟨_, -, hc⟩ := hc
  exact hc.named h

theorem create_changes (hn : 0#8 ∉ path) (now : BitVec 32) :
    ChangesIn r (fsCreate r path now).ram [(parts slash path).dropLast] := by
  rw [fsCreate]
  split
  · rename_i ha
    obtain ⟨par, base, hs, hd, hnew⟩ := mayAdd_spec ha
    split
    · rename_i j hj
      have hfree : isUsed (r.tables.files j) = false := by simpa using find?_some hj
      refine ⟨_, List.Subset.refl _,
        .add (.inl j) path par base (by rw [entryName, isLive, hfree]; rfl) hnew hs hd ?_⟩
      show entryName (setFile r j (newFile path now)) = _
      rw [entryName_setFile, if_pos (show isLive (newFile path now) = true from rfl)]
      congr 2
      exact strAt_nameOf hn (splitParent_spec hs).1.2.1
    · exact .none rfl _
  · exact .none rfl _

theorem mkdir_changes (hn : 0#8 ∉ path) :
    ChangesIn r (fsMkdir r path).ram [(parts slash path).dropLast] := by
  rw [fsMkdir]
  split
  · rename_i ha
    obtain ⟨par, base, hs, hd, hnew⟩ := mayAdd_spec ha
    split
    · rename_i j hj
      have hfree : dirUsed (r.tables.dirs j) = false := by simpa using find?_some hj
      refine ⟨_, List.Subset.refl _,
        .add (.inr j) path par base (by rw [entryName, hfree]; rfl) hnew hs hd ?_⟩
      rw [entryName_setDir, if_pos (show dirUsed (newDir path) = true from rfl)]
      congr 2
      exact strAt_nameOf hn (splitParent_spec hs).1.2.1
    · exact .none rfl _
  · exact .none rfl _

theorem rmdir_changes (r : Ram) (path : List (BitVec 8)) :
    ChangesIn r (fsRmdir r path).ram [(parts slash path).dropLast] := by
  rw [fsRmdir]
  split
  · exact .none rfl _
  rename_i hok
  have hempty : fsDirIsEmpty r path = true := by
    by_contra hc
    simp only [Bool.not_eq_true] at hc
    exact hok (.inr (.inr (by rw [hc]; rfl)))
  split
  · rename_i j hj
    refine ⟨_, List.Subset.refl _, .remove (.inr j) path (dirSlotOf_some hj) ?_ ?_⟩
    · intro _ e' q hq
      exact empty_no_child hempty hq
    · rw [entryName_setDir]
      rfl
  · exact .none rfl _

theorem delete_entries (hi : fileSlotOf r path = some i) (now : BitVec 32) :
    entryName (fsDelete r path now).ram = update (entryName r) (.inl i) none := by
  rw [fsDelete, hi, entryName_setFile]
  congr 1
  refine if_neg ?_
  split
  · simp [isLive, isUsed, released]
  · simp [isLive, RamFs.unlinked]

theorem delete_changes (r : Ram) (path : List (BitVec 8)) (now : BitVec 32) :
    ChangesIn r (fsDelete r path now).ram [(parts slash path).dropLast] := by
  cases hj : fileSlotOf r path with
  | none =>
    rw [fsDelete, hj]
    exact .none rfl _
  | some j =>
    exact ⟨_, List.Subset.refl _, .remove (.inl j) path (fileSlotOf_some hj) (fun hd => by cases hd)
      (delete_entries hj now)⟩

def placeOf (r : Ram) (slot : Int) : List (List (BitVec 8)) :=
  ((openSlot r slot).bind (fun i => (entryParts r (.inl i)).map List.dropLast)).getD []

theorem rename_changes (hn : 0#8 ∉ path) (slot : Int) (now : BitVec 32) :
    ChangesIn r (fsRename r slot path now).ram [placeOf r slot, (parts slash path).dropLast] := by
  rw [fsRename]
  split
  · exact .none rfl _
  rename_i j hj
  split
  · exact .none rfl _
  rename_i hdel
  split
  · exact .none rfl _
  rename_i par base hs
  split
  · exact .none rfl _
  rename_i hd
  split
  · exact .none rfl _
  rename_i hany
  simp only [Bool.or_eq_true, Bool.not_eq_true', not_or, Bool.not_eq_false, Bool.not_eq_true] at hd
  have hlive : isLive (r.tables.files j) = true := by
    simp only [isLive, (openSlot_spec hj).1, Bool.true_and, beq_iff_eq]
    exact not_not.mp hdel
  have hname : entryName r (.inl j) = some (strAt (r.tables.files j).name) := if_pos hlive
  have hplace : placeOf r slot = (parts slash (strAt (r.tables.files j).name)).dropLast := by
    rw [placeOf, hj, Option.bind_some, entryParts, hname]
    rfl
  rw [hplace]
  refine ⟨_, List.Subset.refl _, .move j _ path par base hname ?_ hs hd.1 ?_⟩
  · intro e' hne he
    cases e' with
    | inl k =>
      obtain ⟨hl, hname⟩ := entryName_file he
      refine hany (any_eq_true.mpr ⟨k, mem_finRange k, ?_⟩)
      simp only [hl, hname, Bool.and_true, decide_true, decide_eq_true_eq]
      exact fun hk => hne (by rw [hk])
    | inr k => exact dirExists_false hd.2 k he
  · rw [entryName_setFile, if_pos (show isLive (renamedFile _ path now) = true from hlive)]
    congr 2
    exact strAt_nameOf hn (splitParent_spec hs).1.2.1

theorem renameDir_changes (hn : 0#8 ∉ new) (clock : Fin 16 → BitVec 32) :
    ChangesIn r (fsRenameDir r old new clock).ram [(parts slash old).dropLast,
    (parts slash new).dropLast] := by
  rw [fsRenameDir]
  split
  · exact .none rfl _
  split
  · exact .none rfl _
  rename_i par base hs
  split
  · exact .none rfl _
  rename_i hchk
  simp only [Bool.or_eq_true, Bool.not_eq_true', not_or, Bool.not_eq_true,
    Bool.not_eq_false] at hchk
  obtain ⟨⟨⟨⟨hpar, hfile⟩, hdir⟩, hunder⟩, hover⟩ := hchk
  have hnew := (splitParent_spec hs).1
  have hmoved := entryName_moved hn hover clock
  refine ⟨_, List.Subset.refl _, .graft old new par base hs hpar ?_ ?_ hmoved ?_⟩
  · intro e
    cases e with
    | inl j => exact fileExists_false hnew.ne_nil hfile j
    | inr j => exact dirExists_false hdir j
  · intro hp
    rw [nameUnder_iff.mpr hp] at hunder
    cases hunder
  · intro hform e p hp
    obtain ⟨q, hq, rfl⟩ := Option.map_eq_some_iff.mp ((hmoved e).symm.trans hp)
    refine retarget_formed (hform e q hq) hnew ?_
    cases e with
    | inl j =>
      obtain ⟨hl, rfl⟩ := entryName_file hq
      exact tooLong_false ((overflows_spec hover j).1 hl)
    | inr j =>
      obtain ⟨hl, rfl⟩ := entryName_dir hq
      exact tooLong_false ((overflows_spec hover j).2 hl)

theorem ref_changes (r : Ram) (slot : Int) : entryName (fsRef r slot).ram = entryName r := by
  rw [fsRef]
  split <;> rfl

theorem unref_changes (r : Ram) (slot : Int) : entryName (fsUnref r slot).ram = entryName r := by
  rw [fsUnref]
  split
  · rfl
  rename_i j hj
  simp only
  split
  · rename_i hz
    rw [entryName_setFile]
    refine update_eq_self_iff.mpr ?_
    have hl : isLive (r.tables.files j) = false := by simp [isLive, hz.2]
    exact (if_neg (show ¬ isLive (r.tables.files j) = true by rw [hl]; simp)).symm
  · rfl

variable {held' : Fin 16 → Nat} {f f' : FileMeta} {n : BitVec 32} {c : Nat}

theorem Kept.same (h : Kept f n c) (hd : f'.deleted = f.deleted) (hu : f'.used = f.used)
    (hn : f'.name = f.name) : Kept f' n c := by
  refine ⟨h.1, fun hdel => ?_⟩
  obtain ⟨h1, h2, h3⟩ := h.2 (hd ▸ hdel)
  exact ⟨by rw [isUsed, hu]; exact h1, by rw [hn]; exact h2, h3⟩

theorem Kept.linked (hle : n.toNat ≤ c) (hd : f.deleted = 0#32) : Kept f n c :=
  ⟨hle, fun h => absurd hd h⟩

theorem Kept.moved (h : Kept f n c) : Kept (movedFile f old new now) n c := by
  rw [movedFile]
  split
  · split
    · rename_i hu
      have hl : isLive f = true := (Bool.and_eq_true _ _ ▸ hu).1
      exact .linked h.1 (beq_iff_eq.mp (Bool.and_eq_true _ _ ▸ hl).2)
    · exact h
  · exact h

theorem Slots.one (h : Slots r held) (hf : ∀ j, j ≠ i → r'.tables.files j = r.tables.files j)
    (hr : ∀ j, j ≠ i → r'.refs j = r.refs j) (hh : ∀ j, j ≠ i → held' j = held j)
    (hi : Kept (r'.tables.files i) (r'.refs i) (held' i)) : Slots r' held' := by
  intro j
  by_cases hj : j = i
  · rw [hj]
    exact hi
  · rw [hf j hj, hr j hj, hh j hj]
    exact h j

theorem Slots.setFile (h : Slots r held) (hk : Kept f (r.refs i) (held i)) :
    Slots (setFile r i f) held :=
  h.one (fun _ hj => setFile_ne hj) (fun _ _ => rfl) (fun _ _ => rfl)
    (by rw [setFile_self]; exact hk)

structure SameNames (r r' : Ram) : Prop where
  file : ∀ j, (r'.tables.files j).name = (r.tables.files j).name ∧
    (r'.tables.files j).used = (r.tables.files j).used ∧
    (r'.tables.files j).deleted = (r.tables.files j).deleted
  dir : ∀ j, (r'.tables.dirs j).name = (r.tables.dirs j).name ∧
    (r'.tables.dirs j).used = (r.tables.dirs j).used
  refs : r'.refs = r.refs

theorem SameNames.refl (r : Ram) : SameNames r r :=
  ⟨fun _ => ⟨rfl, rfl, rfl⟩, fun _ => ⟨rfl, rfl⟩, rfl⟩

theorem SameNames.entryName (h : SameNames r r') : entryName r' = entryName r := by
  funext e
  cases e with
  | inl j =>
    obtain ⟨hn, hu, hd⟩ := h.file j
    have hl : isLive (r'.tables.files j) = isLive (r.tables.files j) := by
      simp only [isLive, isUsed, hu, hd]
    rw [Names.entryName, Names.entryName, hl, hn]
  | inr j =>
    obtain ⟨hn, hu⟩ := h.dir j
    have hl : dirUsed (r'.tables.dirs j) = dirUsed (r.tables.dirs j) := by simp only [dirUsed, hu]
    rw [Names.entryName, Names.entryName, hl, hn]

theorem SameNames.slots (h : SameNames r r') (hs : Slots r held) : Slots r' held := by
  intro j
  obtain ⟨hn, hu, hd⟩ := h.file j
  rw [h.refs]
  exact (hs j).same hd hu hn

theorem SameNames.setData (r : Ram) (i : Fin 16) (m : Mem) : SameNames r (RamFs.setData r i m) :=
  ⟨fun _ => ⟨rfl, rfl, rfl⟩, fun _ => ⟨rfl, rfl⟩, rfl⟩

theorem SameNames.setFile (h : SameNames r r') (hn : f.name = (r.tables.files i).name)
    (hu : f.used = (r.tables.files i).used) (hd : f.deleted = (r.tables.files i).deleted) :
    SameNames r (RamFs.setFile r' i f) := by
  refine ⟨fun j => ?_, h.dir, h.refs⟩
  by_cases hj : j = i
  · rw [hj, setFile_self]
    exact ⟨hn, hu, hd⟩
  · rw [setFile_ne hj]
    exact h.file j

theorem SameNames.setDir (r : Ram) (hn : d.name = (r.tables.dirs i).name)
    (hu : d.used = (r.tables.dirs i).used) : SameNames r (RamFs.setDir r i d) := by
  refine ⟨fun _ => ⟨rfl, rfl, rfl⟩, fun j => ?_, rfl⟩
  by_cases hj : j = i
  · rw [hj, setDir_self]
    exact ⟨hn, hu⟩
  · rw [setDir_ne hj]
    exact ⟨rfl, rfl⟩

structure Adjusted (r r' : Ram) : Prop extends SameNames r r' where
  data : r'.data = r.data
  size : ∀ j, (r'.tables.files j).size = (r.tables.files j).size

theorem Adjusted.refl (r : Ram) : Adjusted r r := ⟨.refl r, rfl, fun _ => rfl⟩

theorem Adjusted.setFile (hn : f.name = (r.tables.files i).name)
    (hu : f.used = (r.tables.files i).used) (hd : f.deleted = (r.tables.files i).deleted)
    (hs : f.size = (r.tables.files i).size) : Adjusted r (RamFs.setFile r i f) := by
  refine ⟨(SameNames.refl r).setFile hn hu hd, rfl, fun j => ?_⟩
  by_cases hj : j = i
  · rw [hj, setFile_self, hs]
  · rw [setFile_ne hj]

section

variable (r)

theorem Adjusted.setDir (hn : d.name = (r.tables.dirs i).name)
    (hu : d.used = (r.tables.dirs i).used) : Adjusted r (RamFs.setDir r i d) :=
  ⟨.setDir r hn hu, rfl, fun _ => rfl⟩

theorem chmodSlot_adjusted (slot : Int) (mode : BitVec 16) (now : BitVec 32) :
    Adjusted r (fsChmodSlot r slot mode now).ram := by
  rw [fsChmodSlot]
  split
  · exact .refl r
  · exact .setFile rfl rfl rfl rfl

theorem chmodPath_adjusted (path : List (BitVec 8)) (mode : BitVec 16) (now : BitVec 32) :
    Adjusted r (fsChmodPath r path mode now).ram := by
  rw [fsChmodPath]
  split
  · exact chmodSlot_adjusted r _ mode now
  split
  · exact .refl r
  split
  · exact .setDir r rfl rfl
  · exact .refl r

theorem chownSlot_adjusted (slot : Int) (uid gid now : BitVec 32) :
    Adjusted r (fsChownSlot r slot uid gid now).ram := by
  rw [fsChownSlot]
  split
  · exact .refl r
  · exact .setFile rfl rfl rfl rfl

theorem chownPath_adjusted (path : List (BitVec 8)) (uid gid now : BitVec 32) :
    Adjusted r (fsChownPath r path uid gid now).ram := by
  rw [fsChownPath]
  split
  · exact chownSlot_adjusted r _ uid gid now
  split
  · exact .refl r
  split
  · exact .setDir r rfl rfl
  · exact .refl r

theorem setTimes_adjusted (fd : Int) (atime mtime now : BitVec 32) :
    Adjusted r (fsSetTimes r fd atime mtime now).ram := by
  rw [fsSetTimes]
  split
  · exact .refl r
  · exact .setFile rfl rfl rfl rfl

end

def quiet : Op → Bool
  | .create .. | .mkdir .. | .rmdir .. | .delete .. | .ref .. | .unref .. | .rename ..
  | .renameDir .. => false
  | _ => true

theorem call_quiet (hq : quiet op = true) : SameNames r (call r op).ram := by
  cases op with
  | create | mkdir | rmdir | delete | ref | unref | rename
  | renameDir => exact absurd hq (by simp [quiet])
  | write fd src len now =>
    simp only [call, fsWrite]
    split
    · exact .refl r
    · exact (SameNames.setData r _ _).setFile rfl rfl rfl
  | read fd maxlen now =>
    simp only [call, fsReadTouch]
    split
    · exact .refl r
    · exact (SameNames.refl r).setFile rfl rfl rfl
  | fdTruncate fd now =>
    simp only [call, fsFdTruncate]
    split
    · exact .refl r
    · exact (SameNames.refl r).setFile rfl rfl rfl
  | truncate fd len now =>
    simp only [call, fsTruncate]
    split
    · exact .refl r
    split
    · split
      · exact (SameNames.setData r _ _).setFile rfl rfl rfl
      · exact (SameNames.refl r).setFile rfl rfl rfl
    · exact .refl r
  | setTimes fd atime mtime now => exact (setTimes_adjusted r fd atime mtime now).toSameNames
  | readAt fd offset len now =>
    simp only [call, fsReadAtTouch]
    split
    · exact .refl r
    split
    · exact .refl r
    · exact (SameNames.refl r).setFile rfl rfl rfl
  | writeAt fd offset src len now =>
    simp only [call, fsWriteAt]
    split
    · exact .refl r
    split
    · refine (SameNames.setData r _ _).setFile ?_ ?_ ?_ <;> split <;> rfl
    · exact .refl r
  | chmodSlot slot mode now => exact (chmodSlot_adjusted r slot mode now).toSameNames
  | chmodPath path mode now => exact (chmodPath_adjusted r path.chars mode now).toSameNames
  | chownSlot slot uid gid now => exact (chownSlot_adjusted r slot uid gid now).toSameNames
  | chownPath path uid gid now => exact (chownPath_adjusted r path.chars uid gid now).toSameNames

def touchedDirs (r : Ram) : Op → List (List (List (BitVec 8)))
  | .create path _ | .mkdir path | .rmdir path
  | .delete path _ => [(parts slash path.chars).dropLast]
  | .rename slot path _ => [placeOf r slot, (parts slash path.chars).dropLast]
  | .renameDir old new _ => [(parts slash old.chars).dropLast, (parts slash new.chars).dropLast]
  | _ => []

theorem call_changes (r : Ram) (op : Op) : ChangesIn r (call r op).ram (touchedDirs r op) := by
  by_cases hq : quiet op = true
  · exact .none (call_quiet hq).entryName _
  cases op with
  | create path now => exact create_changes path.no_nul now
  | mkdir path => exact mkdir_changes path.no_nul
  | rmdir path => exact rmdir_changes r path.chars
  | delete name now => exact delete_changes r name.chars now
  | rename slot path now => exact rename_changes path.no_nul slot now
  | renameDir old new clock => exact renameDir_changes new.no_nul clock
  | ref slot => exact .none (ref_changes r slot) _
  | unref slot => exact .none (unref_changes r slot) _
  | _ => exact absurd rfl hq

theorem call_named (h : Named r) (op : Op) : Named (call r op).ram := (call_changes r op).named h

/-- What a call does that leaves the buffers alone. -/
inductive Light (r : Ram) (o : Outcome) : Prop
  | touched (hw : o.writes = []) (hd : o.ram.data = r.data)
      (hf : ∀ j, ∃ t, o.ram.tables.files j = { r.tables.files j with atime := t })
      (hdir : o.ram.tables.dirs = r.tables.dirs)
  | renamed (hw : o.writes = [.tables]) (hd : o.ram.data = r.data)
      (hf : ∀ j, isUsed (o.ram.tables.files j) = true → isUsed (r.tables.files j) = true ∧
        (o.ram.tables.files j).size = (r.tables.files j).size)

theorem Light.none (r : Ram) (rc : Int) : Light r ⟨rc, r, []⟩ :=
  .touched rfl rfl (fun _ => ⟨_, rfl⟩) rfl

theorem Light.setFile {rc : Int} (ht : r'.tables = r.tables) (hd : r'.data = r.data)
    (hf : isUsed f = true → isUsed (r.tables.files i) = true ∧ f.size = (r.tables.files i).size) :
    Light r ⟨rc, RamFs.setFile r' i f, [.tables]⟩ := by
  refine .renamed rfl hd fun j => ?_
  by_cases hj : j = i
  · subst hj
    simp only [setFile_self]
    exact hf
  · rw [setFile_ne hj, ht]
    exact fun hu => ⟨hu, rfl⟩

theorem Light.setDir (r : Ram) (rc : Int) (i : Fin 16) (d : DirMeta) :
    Light r ⟨rc, RamFs.setDir r i d, [.tables]⟩ :=
  .renamed rfl rfl fun _ hu => ⟨hu, rfl⟩

theorem Light.accessed (r : Ram) (rc : Int) (i : Fin 16) (now : BitVec 32) :
    Light r ⟨rc, RamFs.accessed r i now, []⟩ := by
  refine .touched rfl rfl (fun j => ?_) rfl
  by_cases hj : j = i
  · subst hj
    exact ⟨now, setFile_self⟩
  · exact ⟨_, setFile_ne hj⟩

def light : Op → Bool
  | .create .. | .write .. | .fdTruncate .. | .truncate .. | .writeAt .. => false
  | _ => true

theorem chmodSlot_light (r : Ram) (slot : Int) (mode : BitVec 16) (now : BitVec 32) :
    Light r (fsChmodSlot r slot mode now) := by
  rw [fsChmodSlot]
  split
  · exact .none r _
  · exact .setFile rfl rfl fun hu => ⟨hu, rfl⟩

theorem chownSlot_light (r : Ram) (slot : Int) (uid gid now : BitVec 32) :
    Light r (fsChownSlot r slot uid gid now) := by
  rw [fsChownSlot]
  split
  · exact .none r _
  · exact .setFile rfl rfl fun hu => ⟨hu, rfl⟩

theorem call_light (h : light op = true) : Light r (call r op) := by
  cases op with
  | create | write | fdTruncate | truncate | writeAt => cases h
  | mkdir path =>
    rw [call, fsMkdir]
    split
    · split
      · exact .setDir ..
      · exact .none r _
    · exact .none r _
  | rmdir path =>
    rw [call, fsRmdir]
    split
    · exact .none r _
    split
    · exact .setDir ..
    · exact .none r _
  | read fd maxlen now =>
    rw [call, fsReadTouch]
    split
    · exact .none r _
    · exact .accessed ..
  | delete name now =>
    rw [call, fsDelete]
    split
    · exact .none r _
    refine .setFile rfl rfl ?_
    split
    · exact fun hu => absurd hu (by simp [isUsed, released])
    · exact fun hu => ⟨hu, rfl⟩
  | ref slot =>
    rw [call, fsRef]
    split
    · exact .none r _
    · exact .touched rfl rfl (fun _ => ⟨_, rfl⟩) rfl
  | unref slot =>
    rw [call, fsUnref]
    split
    · exact .none r _
    simp only
    split
    · exact .setFile rfl rfl fun hu => absurd hu (by simp [isUsed, released])
    · exact .touched rfl rfl (fun _ => ⟨_, rfl⟩) rfl
  | rename slot path now =>
    rw [call, fsRename]
    split
    · exact .none r _
    split
    · exact .none r _
    split
    · exact .none r _
    split
    · exact .none r _
    split
    · exact .none r _
    · exact .setFile rfl rfl fun hu => ⟨hu, rfl⟩
  | renameDir old new clock =>
    rw [call, fsRenameDir]
    split
    · exact .none r _
    split
    · exact .none r _
    split
    · exact .none r _
    refine .renamed rfl rfl fun i hu => ?_
    have hkeep := movedFile_keeps (r.tables.files i) old.chars new.chars (clock i)
    exact ⟨by rw [isUsed, ← hkeep.1]; exact hu, hkeep.2⟩
  | setTimes fd atime mtime now =>
    rw [call, fsSetTimes]
    split
    · exact .none r _
    · exact .setFile rfl rfl fun hu => ⟨hu, rfl⟩
  | readAt fd offset len now =>
    rw [call, fsReadAtTouch]
    split
    · exact .none r _
    split
    · exact .none r _
    · exact .accessed ..
  | chmodSlot slot mode now => exact chmodSlot_light r slot mode now
  | chmodPath path mode now =>
    rw [call, fsChmodPath]
    split
    · exact chmodSlot_light r _ mode now
    split
    · exact .none r _
    split
    · exact .setDir ..
    · exact .none r _
  | chownSlot slot uid gid now => exact chownSlot_light r slot uid gid now
  | chownPath path uid gid now =>
    rw [call, fsChownPath]
    split
    · exact chownSlot_light r _ uid gid now
    split
    · exact .none r _
    split
    · exact .setDir ..
    · exact .none r _

end

/-- The file system with the references held on each slot. -/
structure Tracked where
  ram : Ram
  held : Fin 16 → Nat

def track (t : Tracked) : Op → Fin 16 → Nat
  | .create path now =>
    let rc := (fsCreate t.ram path.chars now).rc
    if 0 ≤ rc then update t.held (Fin.ofNat 16 rc.toNat) 0 else t.held
  | .ref slot => (openSlot t.ram slot).elim t.held (fun i => update t.held i (t.held i + 1))
  | .unref slot => (openSlot t.ram slot).elim t.held (fun i => update t.held i (t.held i - 1))
  | _ => t.held

def step (t : Tracked) (op : Op) : Option Tracked := some ⟨(call t.ram op).ram, track t op⟩

def start (r : Ram) : Tracked := ⟨fsInit r, fun _ => 0⟩

theorem step_slots {t t' : Tracked} (h : Slots t.ram t.held) (hs : step t op = some t') :
    Slots t'.ram t'.held := by
  cases hs
  by_cases hq : quiet op = true
  · have ht : track t op = t.held := by
      cases op with
      | create | ref | unref => exact absurd hq (by simp [quiet])
      | _ => rfl
    rw [ht]
    exact (call_quiet hq).slots h
  cases op with
  | create path now =>
    simp only [call, track, fsCreate]
    split
    · split
      · rename_i j hj
        simp only [Int.natCast_nonneg, if_true, Int.toNat_natCast, Fin.ofNat_val_eq_self]
        refine h.one (fun k hk => setFile_ne hk) (fun k hk => setRefs_ne hk)
          (fun k hk => update_of_ne hk ..) ?_
        rw [setRefs_self]
        exact .linked (Nat.zero_le _) (by simp [setRefs, newFile])
      · exact h
    · exact h
  | mkdir path =>
    simp only [call, track, fsMkdir]
    split
    · split <;> exact h
    · exact h
  | rmdir path =>
    simp only [call, track, fsRmdir]
    split
    · exact h
    · split <;> exact h
  | delete name now =>
    simp only [call, track, fsDelete]
    split
    · exact h
    rename_i j hj
    obtain ⟨hl, -⟩ := entryName_file (fileSlotOf_some hj)
    split
    · exact h.setFile (.linked (h j).1 rfl)
    rename_i hz
    refine h.setFile ⟨(h j).1, fun _ =>  ⟨show isUsed (t.ram.tables.files j) = true
      from isLive_used hl, strAt_cleared _, ?_⟩⟩
    have hpos : 0 < (t.ram.refs j).toNat := by
      rw [Nat.pos_iff_ne_zero]
      exact fun h0 => hz (BitVec.eq_of_toNat_eq h0)
    exact lt_of_lt_of_le hpos (h j).1
  | rename slot path now =>
    simp only [call, track, fsRename]
    split
    · exact h
    split
    · exact h
    rename_i hdel
    split
    · exact h
    split
    · exact h
    split
    · exact h
    · exact h.setFile (.linked (h _).1 (not_not.mp hdel))
  | renameDir old new clock =>
    simp only [call, track, fsRenameDir]
    split
    · exact h
    split
    · exact h
    split
    · exact h
    · exact fun j => (h j).moved
  | ref slot =>
    simp only [call, track, fsRef]
    cases ho : openSlot t.ram slot with
    | none => exact h
    | some j =>
      refine h.one (fun k hk => rfl) (fun k hk => setRefs_ne hk) (fun k hk => update_of_ne hk ..) ?_
      simp only [Option.elim_some, update_self, setRefs_self]
      refine ⟨?_, fun hd => ?_⟩
      · have := (h j).1
        exact le_trans (Nat.mod_le _ _) (by simpa using this)
      · obtain ⟨h1, h2, -⟩ := (h j).2 hd
        exact ⟨h1, h2, by omega⟩
  | unref slot =>
    simp only [call, track, fsUnref]
    cases ho : openSlot t.ram slot with
    | none => exact h
    | some j =>
      have hle := (h j).1
      have hpred : (oneLess (t.ram.refs j)).toNat ≤ t.held j - 1 := by
        rw [oneLess]
        split
        · simp
        rename_i hz
        have hpos : 0 < (t.ram.refs j).toNat := by
          rw [Nat.pos_iff_ne_zero]
          exact fun h0 => hz (BitVec.eq_of_toNat_eq h0)
        have hlt := (t.ram.refs j).isLt
        rw [BitVec.toNat_sub]
        simp only [BitVec.toNat_ofNat]
        omega
      simp only [Option.elim_some]
      split
      · refine h.one (fun k hk => setFile_ne hk) (fun k hk => setRefs_ne hk)
          (fun k hk => update_of_ne hk ..) ?_
        rw [setFile_self, setFile_refs, setRefs_self, update_self]
        exact .linked hpred rfl
      rename_i hkeep
      refine h.one (fun k hk => rfl) (fun k hk => setRefs_ne hk) (fun k hk => update_of_ne hk ..) ?_
      rw [setRefs_self, update_self]
      refine ⟨hpred, fun hd => ?_⟩
      obtain ⟨h1, h2, -⟩ := (h j).2 hd
      refine ⟨h1, h2, ?_⟩
      have hz : oneLess (t.ram.refs j) ≠ 0#32 := fun hz => hkeep ⟨hz, hd⟩
      have hpos := Nat.pos_iff_ne_zero.mpr fun h0 => hz (BitVec.eq_of_toNat_eq h0)
      omega
  | _ => exact absurd rfl hq

theorem start_named (r : Ram) : Named (start r).ram := by
  have hnone : ∀ e, entryName (fsInit r) e = none := by
    intro e
    cases e with
    | inl | inr => rfl
  refine ⟨rooted_empty fun e => ?_, fun e p h => by cases h.symm.trans (hnone e)⟩
  rw [show entryParts (start r).ram e = (entryName (fsInit r) e).map (parts slash) from rfl, hnone]
  rfl

theorem start_slots (r : Ram) : Slots (start r).ram (start r).held :=
  fun _ => .linked (Nat.le_refl 0) rfl

/-- In every run from `fs_init` the names form a tree. -/
theorem names_form_tree (r : Ram) (ops : List Op) {t : Tracked}
    (h : run step (start r) ops = some t) : NameTree t.ram t.held := by
  have hinv : Named t.ram ∧ Slots t.ram t.held := by
    refine run_invariant (I := fun t => Named t.ram ∧ Slots t.ram t.held) ?_
      ⟨start_named r, start_slots r⟩ h
    intro s op s' hs hstep
    refine ⟨?_, step_slots hs.2 hstep⟩
    cases hstep
    exact call_named hs.1 op
  exact .of_parts hinv.1 hinv.2

def nameA : CString := ⟨[97#8], by decide⟩

def sampleOps : List Op :=
  [.mkdir ⟨[100#8], by decide⟩, .create ⟨[100#8, 47#8, 98#8], by decide⟩ 5#32, .ref 0,
    .renameDir ⟨[100#8], by decide⟩ ⟨[101#8], by decide⟩ (fun _ => 6#32)]

theorem names_form_tree_sample : ∃ t, run step (start bootRam) sampleOps = some t ∧
    entryName t.ram (.inl 0) = some [101#8, 47#8, 98#8] ∧ entryName t.ram (.inr 0) = some [101#8] ∧
    t.held 0 = 1 ∧ NameTree t.ram t.held :=
  ⟨_, rfl, by decide +kernel, by decide +kernel, by decide +kernel,
    names_form_tree bootRam sampleOps rfl⟩

end MuOS.Fs.Names
