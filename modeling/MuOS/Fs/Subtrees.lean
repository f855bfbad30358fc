import Mathlib.Data.List.Nodup
import MuOS.Fs.Names

namespace MuOS.Fs.Subtrees

open Lib CStrings Runs RamFs Names List Option

section

variable {n : List (BitVec 8)}

/-- The directory itself, or a name below it. -/
def Under (old n : List (BitVec 8)) : Prop := n = old ∨ ∃ t, n = old ++ slash :: t

/-- `old` has become `new`; else only renamed files' change times are new. -/
structure Substituted (r r' : Ram) (old new : List (BitVec 8))
    (now : Fin 16 → BitVec 32) : Prop where
  renamed : ∀ e n, entryName r e = some n → Under old n →
    entryName r' e = some (new ++ n.drop old.length)
  files : ∀ i, (∀ n, entryName r (.inl i) = some n → ¬ Under old n) →
    r'.tables.files i = r.tables.files i
  dirs : ∀ j, (∀ n, entryName r (.inr j) = some n → ¬ Under old n) →
    r'.tables.dirs j = r.tables.dirs j
  stamped : ∀ i n, entryName r (.inl i) = some n → Under old n → (r'.tables.files i).ctime = now i
  fileFields :
    ∀ i, ∃ n t h, r'.tables.files i = { r.tables.files i with
    name := n, ctime := t, name_last := h }
  dirFields : ∀ j, ∃ n h, r'.tables.dirs j = { r.tables.dirs j with name := n, name_last := h }
  rest : r' = { r with tables := r'.tables }

theorem under_iff {old : List (BitVec 8)} : nameUnder n old = true ↔ Under old n := by
  rw [nameUnder_iff, Lib.Trees.parts_prefix_iff, Under]

theorem moved_substituted {old new : List (BitVec 8)} (r : Ram) (hn : 0#8 ∉ new)
    (ho : overflows r old new = false) (now : Fin 16 → BitVec 32) :
    Substituted r (movedTables r old new now) old new now where
  renamed e n he hu := by
    rw [entryName_moved hn ho, he, map_some, retarget, if_pos (under_iff.mpr hu)]
  files i hi := by
    simp only [movedTables, movedFile]
    split
    · split
      · rename_i hc
        rw [Bool.and_eq_true] at hc
        exact absurd (under_iff.mp hc.2) (hi _ (if_pos hc.1))
      · rfl
    · rfl
  dirs j hj := by
    simp only [movedTables, movedDir]
    split
    · split
      · rename_i hl hc
        have hu : nameUnder (strAt (r.tables.dirs j).name) old ≠ true :=
          fun hu => hj _ (if_pos hc) (under_iff.mp hu)
        simp only [moveName, if_neg hu]
      · rfl
    · rfl
  stamped i n he hu := by
    obtain ⟨hl, hn⟩ := ite_none_right_eq_some.mp he
    rw [← some.inj hn] at hu
    simp only [movedTables, movedFile, dif_pos ((overflows_spec ho i).1 hl), hl, under_iff.mpr hu,
      Bool.and_self, if_true]
  fileFields i := by
    simp only [movedTables, movedFile]
    split
    · split
      · exact ⟨_, _, moveName_last (r.tables.files i).name_last ‹_›, rfl⟩
      · exact ⟨_, _, (r.tables.files i).name_last, rfl⟩
    · exact ⟨_, _, (r.tables.files i).name_last, rfl⟩
  dirFields j := by
    simp only [movedTables, movedDir]
    split
    · split
      · exact ⟨_, moveName_last (r.tables.dirs j).name_last ‹_›, rfl⟩
      · exact ⟨_, (r.tables.dirs j).name_last, rfl⟩
    · exact ⟨_, (r.tables.dirs j).name_last, rfl⟩
  rest := rfl

/-- A directory is renamed with all that is below it, or nothing happens. -/
theorem rename_dir_substitutes (r : Ram) (old new : CString) (now : Fin 16 → BitVec 32) :
    (fsRenameDir r old.chars new.chars now).rc = 0 ∧
        Substituted r (fsRenameDir r old.chars new.chars now).ram old.chars new.chars now ∨
      (fsRenameDir r old.chars new.chars now).rc = -1 ∧
        (fsRenameDir r old.chars new.chars now).ram = r := by
  rw [fsRenameDir]
  split
  · exact .inr ⟨rfl, rfl⟩
  split
  · exact .inr ⟨rfl, rfl⟩
  split
  · exact .inr ⟨rfl, rfl⟩
  rename_i hc
  simp only [Bool.or_eq_true, not_or, Bool.not_eq_true] at hc
  exact .inl ⟨rfl, moved_substituted r new.no_nul hc.2 now⟩

def nameD : CString := ⟨[68#8], by decide⟩
def nameE : CString := ⟨[69#8], by decide⟩

/-- The change time of the file `D/b` is new as well. -/
theorem rename_dir_stamps :
    let r := (call (call bootRam (.mkdir nameD)).ram (.create ⟨[68#8, 47#8, 98#8], by decide⟩ 5#32)).ram
    let r' := (fsRenameDir r nameD.chars nameE.chars (fun _ => 6#32)).ram
    entryName r' (.inl 0) = some [69#8, 47#8, 98#8] ∧ (r.tables.files 0).ctime = 5#32 ∧
      (r'.tables.files 0).ctime = 6#32 := by
  decide +kernel

/-- An `fs_dirent_t`. -/
structure Dirent where
  name : List (BitVec 8)
  isDir : Bool
  size : BitVec 32
  slot : Int
deriving DecidableEq

def childName (dir path : List (BitVec 8)) : Option (List (BitVec 8)) :=
  if dir = [] then if path.contains slash then none else some path
  else if inside path dir then
    if path.drop (dir.length + 1) = [] ∨ (path.drop (dir.length + 1)).contains slash then none
    else some (path.drop (dir.length + 1))
  else none

def direntOf (r : Ram) : Entry → List (BitVec 8) → Dirent
  | .inl i, b => ⟨b, false, (r.tables.files i).size, i.val⟩
  | .inr _, b => ⟨b, true, 0#32, -1⟩

/-- What the loops make of a slot; 63 characters of the name. -/
def childOf (r : Ram) (path : List (BitVec 8)) (e : Entry) : Option Dirent :=
  ((entryName r e).bind (childName path)).map (fun b => direntOf r e (b.take 63))

def fsDirCount (r : Ram) (path : List (BitVec 8)) : Int :=
  if dirExists r path then
    ((List.finRange 16).countP (fun j => (childOf r path (.inr j)).isSome) +
      (List.finRange 16).countP (fun i => (childOf r path (.inl i)).isSome) : Nat)
  else -1

/-- One loop of `fs_dir_get`: what the index meets, or the index left. -/
def scan (f : Fin 16 → Option Dirent) : List (Fin 16) → Nat → Dirent ⊕ Nat
  | [], k => .inr k
  | i :: l, k =>
    match f i with
    | none => scan f l k
    | some d => if k = 0 then .inl d else scan f l (k - 1)

def fsDirGet (r : Ram) (path : List (BitVec 8)) (idx : Int) : Option Dirent :=
  if !dirExists r path ∨ idx < 0 then none
  else match scan (fun j => childOf r path (.inr j)) (List.finRange 16) idx.toNat with
    | .inl d => some d
    | .inr k => (scan (fun i => childOf r path (.inl i)) (List.finRange 16) k).getLeft?

variable {r : Ram} {d b : List (BitVec 8)} {e : Entry}

/-- A live entry of the directory `d`, with its base name. -/
def Child (r : Ram) (d : List (BitVec 8)) (e : Entry) (b : List (BitVec 8)) : Prop :=
  entryName r e = some (if d = [] then b else d ++ slash :: b) ∧ b ≠ [] ∧ slash ∉ b

theorem childName_some (hn : n ≠ []) :
    childName d n = some b ↔ n = (if d = [] then b else d ++ slash :: b) ∧ b ≠ [] ∧ slash ∉ b := by
  simp only [childName, contains_iff_mem]
  by_cases hd : d = []
  · rw [if_pos hd]
    split
    · rename_i hs
      exact ⟨fun h => (by cases h), fun h => absurd (h.1 ▸ hs) h.2.2⟩
    · rename_i hs
      exact ⟨fun h => some.inj h ▸ ⟨rfl, hn, hs⟩, fun h => congrArg some h.1⟩
  rw [if_neg hd, if_neg hd]
  constructor
  · intro h
    split at h
    · rename_i hi
      obtain ⟨t, rfl⟩ := inside_iff.mp hi
      rw [show (d ++ slash :: t).drop (d.length + 1) = t by simp] at h
      split at h
      · cases h
      rename_i hc
      obtain rfl := some.inj h
      exact ⟨rfl, not_or.mp hc⟩
    · cases h
  · rintro ⟨rfl, hb⟩
    rw [if_pos (inside_iff.mpr ⟨b, rfl⟩), show (d ++ slash :: b).drop (d.length + 1) = b by simp,
      if_neg (not_or.mpr hb)]

theorem scan_spec (f : Fin 16 → Option Dirent) (l : List (Fin 16)) (k : Nat) :
    scan f l k = ((l.filterMap f)[k]?).elim (.inr (k - (l.filterMap f).length)) .inl := by
  induction l generalizing k with
  | nil => rfl
  | cons i l ih =>
    rw [scan]
    cases hi : f i with
    | none =>
      rw [filterMap_cons_none hi]
      exact ih k
    | some x =>
      rw [filterMap_cons_some hi]
      cases k with
      | zero => rfl
      | succ k => simpa using ih k

def slots : List Entry := (List.finRange 16).map .inr ++ (List.finRange 16).map .inl

theorem mem_slots (e : Entry) : e ∈ slots := by
  cases e <;> simp [slots]

theorem fsDirGet_eq (hd : dirExists r d = true) (k : Nat) :
    fsDirGet r d k = (slots.filterMap (childOf r d))[k]? := by
  rw [fsDirGet, hd, Int.toNat_natCast, slots, filterMap_append, filterMap_map,
    filterMap_map, scan_spec]
  simp only [Function.comp_def]
  by_cases hk : k < ((finRange 16).filterMap fun j => childOf r d (.inr j)).length
  · rw [getElem?_append_left hk, getElem?_eq_getElem hk]
    rfl
  rw [getElem?_append_right (Nat.le_of_not_lt hk), getElem?_eq_none (Nat.le_of_not_lt hk)]
  simp only [elim_none, scan_spec]
  cases ((finRange 16).filterMap fun i => childOf r d (.inl i))[k -
    ((finRange 16).filterMap fun j => childOf r d (.inr j)).length]? <;> rfl

def named (r : Ram) (d : List (BitVec 8)) (e : Entry) : Option (Entry × List (BitVec 8)) :=
  ((entryName r e).bind (childName d)).map (Prod.mk e)

theorem named_some (h : Named r) {e' : Entry} : named r d e = some (e', b) ↔ e' = e ∧
    Child r d e b := by
  have hname : (entryName r e).bind (childName d) = some b ↔ Child r d e b := by
    rw [bind_eq_some_iff]
    constructor
    · rintro ⟨n, he, hc⟩
      obtain ⟨hn, hb⟩ := (childName_some (h.formed e n he).ne_nil).mp hc
      exact ⟨hn ▸ he, hb⟩
    · rintro ⟨he, hb⟩
      exact ⟨_, he, (childName_some (h.formed e _ he).ne_nil).mpr ⟨rfl, hb⟩⟩
  rw [named, map_eq_some_iff, ← hname]
  constructor
  · rintro ⟨c, hc, he⟩
    cases he
    exact ⟨rfl, hc⟩
  · rintro ⟨rfl, hb⟩
    exact ⟨b, hb, rfl⟩

theorem childOf_named (h : Named r) (d : List (BitVec 8)) (e : Entry) :
    childOf r d e = (named r d e).map (fun x => direntOf r x.1 x.2) := by
  cases hc : named r d e with
  | none =>
    rw [childOf, map_eq_none_iff.mp hc]
    rfl
  | some x =>
    obtain ⟨b, hb, rfl⟩ := map_eq_some_iff.mp hc
    obtain ⟨-, hchild⟩ := (named_some h).mp hc
    have hlen := (h.formed _ _ hchild.1).2.1
    have hle : b.length ≤ 63 := by
      split at hlen
      · exact hlen
      rw [length_append, length_cons] at hlen
      omega
    rw [childOf, hb, map_some, map_some, take_of_length_le hle]

/-- Each child once, described at its index, and nothing else. -/
structure Listed (r : Ram) (d : List (BitVec 8)) (l : List (Entry × List (BitVec 8))) : Prop where
  once : (l.map Prod.fst).Nodup
  children : ∀ e b, (e, b) ∈ l ↔ Child r d e b
  count : fsDirCount r d = l.length
  get : ∀ k : Int, fsDirGet r d k = if 0 ≤ k then
    (l[k.toNat]?).map (fun x => direntOf r x.1 x.2) else none

theorem Named.listed (h : Named r) (hd : dirExists r d = true) :
    Listed r d (slots.filterMap (named r d)) where
  once := by
    rw [map_filterMap]
    refine List.Nodup.filterMap (fun e e' x hx hx' => ?_) (by decide)
    obtain ⟨y, hy, rfl⟩ := map_eq_some_iff.mp hx
    obtain ⟨y', hy', he⟩ := map_eq_some_iff.mp hx'
    rw [← ((named_some h).mp hy).1, ← ((named_some h).mp hy').1, he]
  children e b := by
    rw [mem_filterMap]
    constructor
    · rintro ⟨e', -, he⟩
      obtain ⟨rfl, hc⟩ := (named_some h).mp he
      exact hc
    · intro hc
      exact ⟨e, mem_slots e, (named_some h).mpr ⟨rfl, hc⟩⟩
  count := by
    have hsome : ∀ e, (childOf r d e).isSome = (named r d e).isSome := fun e => by
      rw [childOf_named h, isSome_map]
    rw [fsDirCount, if_pos hd, slots, filterMap_append, length_append, filterMap_map, filterMap_map]
    simp only [hsome, length_filterMap_eq_countP, Function.comp_def]
  get k := by
    by_cases hk : 0 ≤ k
    · obtain ⟨m, rfl⟩ := Int.eq_ofNat_of_zero_le hk
      rw [if_pos hk, fsDirGet_eq hd, Int.toNat_natCast, ← getElem?_map, map_filterMap]
      simp only [childOf_named h]
    · rw [if_neg hk, fsDirGet, if_pos (.inr (Int.not_le.mp hk))]

/-- `fs_dir_get` lists every directory in every state that `fs_init` leads to. -/
theorem dir_get_lists (r : Ram) (ops : List Op) {t : Tracked} (h : run step (start r) ops = some t)
    (hd : dirExists t.ram d = true) : ∃ l, Listed t.ram d l := by
  have hn : Named t.ram := by
    refine run_invariant (I := fun t => Named t.ram) ?_ (start_named r) h
    intro s op s' hs hstep
    obtain rfl := some.inj hstep
    exact call_named hs op
  exact ⟨_, Named.listed hn hd⟩

theorem dir_get_lists_sample : ∃ t, run step (start bootRam) sampleOps = some t ∧
    dirExists t.ram [101#8] = true ∧ fsDirGet t.ram [101#8] 0 = some ⟨[98#8], false, 0#32, 0⟩ ∧
    ∃ l, Listed t.ram [101#8] l := by
  exact ⟨_, rfl, by decide +kernel, by decide +kernel,
    dir_get_lists bootRam sampleOps rfl (by decide +kernel)⟩

end

end MuOS.Fs.Subtrees
