import Mathlib.Algebra.BigOperators.Fin
import MuOS.Kernel.Tables
import MuOS.Lib.Tally
import MuOS.Syscall.References

namespace MuOS.Kernel.Counts

open Function BitVec Lib.Tally Fs RamFs User.Descriptors Syscall FileCalls References State Wake
  Sched Calls Stir Tables
open Names (openSlot_used)

variable {x' : Desc} {s' : Fin 16} {n : Nat}

section

def isEnd (j : Fin 8) (x : Desc) : Bool := decide (x.kind = .pipeWrite) && decide (x.pipeId = j.val)

def isOpen (s : Fin 16) (x : Desc) : Bool := decide (x.kind = .file) && decide (x.fsSlot = s.val)

def many (p : Desc → Bool) (t : Table) : Nat :=
  (Finset.univ.filter (fun fd => p (t fd) = true)).card

variable {p : Desc → Bool} {t t' : Table} {x : Desc} {i : Fin 11} {j : Fin 8} {s : Fin 16}

section

variable (p) (t)

theorem many_sum : many p t = ∑ fd, (p (t fd)).toNat := by
  rw [many, Finset.card_filter]
  refine Finset.sum_congr rfl fun fd _ => ?_
  cases p (t fd) <;> rfl

theorem many_le : many p t ≤ 11 := Finset.card_le_univ _

theorem many_setDesc (i : Fin 11) (x : Desc) :
    many p (setDesc t i x) + (p (t i)).toNat = many p t + (p x).toNat := by
  rw [many_sum, many_sum]
  have hc := sum_change (fun fd => (p (t fd)).toNat) (fun fd => (p (setDesc t i x fd)).toNat)
    (Finset.mem_univ i) (fun fd hfd => by rw [setDesc_ne hfd])
  rw [setDesc_self] at hc
  exact hc

end

theorem many_congr (h : ∀ fd, p (t' fd) = p (t fd)) : many p t' = many p t := by
  rw [many_sum, many_sum]
  exact Finset.sum_congr rfl fun fd _ => by rw [h]

theorem isEnd_of_ne (h : x.kind ≠ .pipeWrite) : isEnd j x = false := by simp [isEnd, h]

theorem isOpen_of_ne (h : x.kind ≠ .file) : isOpen s x = false := by simp [isOpen, h]

theorem isEnd_alike (h : Alike x x') : isEnd j x' = isEnd j x := by
  rcases h with ⟨hk, -, hp⟩ | ⟨hf, hf'⟩
  · rw [isEnd, isEnd, hk, hp]
  · rw [isEnd_of_ne (by simp [hf']), isEnd_of_ne (by simp [hf])]

theorem isOpen_alike (h : Alike x x') : isOpen s x' = isOpen s x := by
  rcases h with ⟨hk, hs, -⟩ | ⟨hf, hf'⟩
  · rw [isOpen, isOpen, hk, hs]
  · rw [isOpen_of_ne (by simp [hf']), isOpen_of_ne (by simp [hf])]

structure Named (k : Machine) (x : Desc) : Prop where
  pipe : x.kind = .pipeRead ∨ x.kind = .pipeWrite → (pipeValid k x.pipeId).isSome = true
  slot : x.kind = .file → ∃ s : Fin 16, x.fsSlot = s.val

theorem Named.plain {k : Machine} (h : refers x.kind = false) : Named k x := by
  refine ⟨fun hk => ?_, fun hk => ?_⟩
  · rcases hk with hk | hk
    · rw [hk] at h
      cases h
    · rw [hk] at h
      cases h
  · rw [hk] at h
    cases h

theorem Named.alike {k : Machine} (h : Named k x) (ha : Alike x x') : Named k x' := by
  rcases ha with ⟨hk, hs, hp⟩ | ⟨-, hf⟩
  · refine ⟨fun hx => ?_, fun hx => ?_⟩
    · rw [hp]
      exact h.pipe (hk ▸ hx)
    · rw [hs]
      exact h.slot (hk ▸ hx)
  · exact .plain (by rw [hf]; rfl)

theorem pipeValid_used {k : Machine} (h : (k.pipes j).used = true) :
    pipeValid k j.val = some j := by
  simp [pipeValid, h]

theorem Named.grow {k k' : Machine} (h : Named k x)
    (hp : ∀ j, (k.pipes j).used = true → (k'.pipes j).used = true) : Named k' x := by
  refine ⟨fun hk => ?_, h.slot⟩
  obtain ⟨j, hj⟩ := Option.isSome_iff_exists.mp (h.pipe hk)
  obtain ⟨hid, hu⟩ := pipeValid_some hj
  rw [hid, pipeValid_used (hp j hu)]
  rfl

variable {D : Fin 16 → Prop} {r r' : Ram} {F F' : Fin 16 → Nat}

structure FilesAre (D : Fin 16 → Prop) (r : Ram) (F : Fin 16 → Nat) : Prop extends Tended D r where
  refs : ∀ s, r.refs s = BitVec.ofNat 32 (F s)

theorem FilesAre.keeps (h : FilesAre D r F) (hk : Keeps D r r') : FilesAre D r' F := by
  obtain ⟨hr, ht⟩ := hk h.toTended
  exact ⟨ht, fun s => by rw [hr, h.refs]⟩

theorem ofNat_ne_zero (h : n + 1 < 2 ^ 32) : BitVec.ofNat 32 (n + 1) ≠ 0#32 := by
  intro hz
  have ht := congrArg BitVec.toNat hz
  rw [toNat_ofNat, Nat.mod_eq_of_lt h] at ht
  exact absurd ht (Nat.succ_ne_zero n)

theorem ofNat_succ (n : Nat) : BitVec.ofNat 32 n + 1#32 = BitVec.ofNat 32 (n + 1) :=
  (BitVec.ofNat_add n 1).symm

theorem oneLess_succ (h : n + 1 < 2 ^ 32) :
    oneLess (BitVec.ofNat 32 (n + 1)) = BitVec.ofNat 32 n := by
  rw [oneLess, if_neg (ofNat_ne_zero h), ← ofNat_succ]
  exact add_sub_cancel ..

theorem FilesAre.used (h : FilesAre D r F) (hp : 0 < F s) (hb : F s < 2 ^ 32) :
    isUsed (r.tables.files s) = true := by
  apply h.held
  rw [h.refs]
  obtain ⟨n, hn⟩ := Nat.exists_eq_succ_of_ne_zero (Nat.pos_iff_ne_zero.mp hp)
  rw [hn] at hb ⊢
  exact ofNat_ne_zero hb

theorem isOpen_slot (hk : x.kind = .file) (hs : x.fsSlot = s.val) :
    (isOpen s' x).toNat = if s' = s then 1 else 0 := by
  by_cases he : s' = s
  · simp [isOpen, hk, hs, he]
  have hv : (s.val : Int) ≠ s'.val := fun hv => he (Fin.ext (by omega))
  simp [isOpen, hk, hs, he, hv]

theorem setRefs_ne (h : s' ≠ s) (n : BitVec 32) : (setRefs r s n).refs s' = r.refs s' :=
  update_of_ne h ..

theorem setRefs_self (s : Fin 16) (n : BitVec 32) : (setRefs r s n).refs s = n := update_self ..

/-- Only the slot `s` is touched. -/
theorem FilesAre.touch (h : FilesAre D r F) (s : Fin 16)
    (ho : ∀ l, l ≠ s → r'.refs l = r.refs l ∧ r'.tables.files l = r.tables.files l ∧ F' l = F l)
    (hn : r'.refs s = BitVec.ofNat 32 (F' s))
    (hu : r'.refs s ≠ 0#32 → isUsed (r'.tables.files s) = true)
    (hg : isUsed (r'.tables.files s) = true → (r'.tables.files s).deleted ≠ 0#32 →
    r'.refs s ≠ 0#32) : FilesAre D r' F' := by
  refine ⟨⟨fun l hne => ?_, fun l hD hul hdel => ?_⟩, fun l => ?_⟩ <;> by_cases he : l = s
  · exact he ▸ hu (he ▸ hne)
  · rw [(ho l he).1] at hne
    rw [(ho l he).2.1]
    exact h.held l hne
  · exact he ▸ hg (he ▸ hul) (he ▸ hdel)
  · rw [(ho l he).2.1] at hul hdel
    rw [(ho l he).1]
    exact h.gone l hD hul hdel
  · exact he ▸ hn
  · rw [(ho l he).1, (ho l he).2.2]
    exact h.refs l

theorem FilesAre.ref (h : FilesAre D r F) (hb : ∀ s, F s + 1 < 2 ^ 32)
    (hx : x.kind = .file → ∃ s : Fin 16, x.fsSlot = s.val ∧ isUsed (r.tables.files s) = true) :
    FilesAre D (refFile r x) (fun s => F s + (isOpen s x).toNat) := by
  by_cases hk : x.kind = .file
  · obtain ⟨s, hs, hu⟩ := hx hk
    have hram : refFile r x = setRefs r s (BitVec.ofNat 32 (F s + 1)) := by
      rw [refFile, if_pos ⟨hk, by rw [hs]; exact Int.natCast_nonneg _⟩, fsRef, hs, openSlot_used hu]
      simp only [h.refs, ofNat_succ]
    rw [hram]
    refine h.touch s (fun l hl => ⟨setRefs_ne hl _, rfl, ?_⟩) ?_ (fun _ => hu) fun _ _ => ?_
    · rw [isOpen_slot hk hs, if_neg hl, Nat.add_zero]
    · rw [setRefs_self, isOpen_slot hk hs, if_pos rfl]
    · rw [setRefs_self]
      exact ofNat_ne_zero (hb s)
  · have hram : refFile r x = r := by rw [refFile, if_neg fun hc => hk hc.1]
    simp only [hram, isOpen_of_ne hk]
    exact h

theorem FilesAre.unref (h : FilesAre D r (fun s => F s + (isOpen s x).toNat))
    (hb : ∀ s, F s + 1 < 2 ^ 32) (hx : x.kind = .file → ∃ s : Fin 16, x.fsSlot = s.val) :
    FilesAre D (unrefFile r x) F := by
  by_cases hk : x.kind = .file
  · obtain ⟨s, hs⟩ := hx hk
    have hself : r.refs s = BitVec.ofNat 32 (F s + 1) := by rw [h.refs, isOpen_slot hk hs, if_pos rfl]
    have hother : ∀ l, l ≠ s → F l = F l + (isOpen l x).toNat := fun l hl => by
      rw [isOpen_slot hk hs, if_neg hl, Nat.add_zero]
    have hu : isUsed (r.tables.files s) = true := h.held s (by rw [hself]; exact ofNat_ne_zero (hb s))
    have hram : unrefFile r x = (fsUnref r s.val).ram := by
      rw [unrefFile, if_pos ⟨hk, by rw [hs]; exact Int.natCast_nonneg _⟩, hs]
    rw [hram, fsUnref, openSlot_used hu]
    simp only [hself, oneLess_succ (hb s)]
    split
    · rename_i hgone
      refine h.touch s (fun l hl => ⟨setRefs_ne hl _, setFile_ne hl, hother l hl⟩)
        (setRefs_self s _) (fun hne => ?_) (fun hused => ?_)
      · exact absurd ((setRefs_self s _).trans hgone.1) hne
      · rw [setFile_self] at hused
        cases hused
    · rename_i hkept
      refine h.touch s (fun l hl => ⟨setRefs_ne hl _, rfl, hother l hl⟩) (setRefs_self s _)
        (fun _ => hu) (fun _ hdel => ?_)
      rw [setRefs_self]
      exact fun hz => hkept ⟨hz, hdel⟩
  · have hram : unrefFile r x = r := by rw [unrefFile, if_neg fun hc => hk hc.1]
    simp only [isOpen_of_ne hk] at h
    rw [hram]
    exact h

variable {k k' : Machine} {W W' : Fin 8 → Nat}

def WritersAre (k : Machine) (W : Fin 8 → Nat) : Prop := ∀ j, (k.pipes j).writers = W j

theorem pipeWriterAdd_ram (k : Machine) (id : Nat) (n : Int) :
    (pipeWriterAdd k id n).ram = k.ram := by
  rw [pipeWriterAdd]
  split
  · rfl
  · exact (procNotify_woke _).ram

theorem addWriters_ram (k : Machine) (ds : List (Nat × Int)) : (addWriters k ds).ram = k.ram := by
  induction ds generalizing k with
  | nil => rfl
  | cons d ds ih => exact (ih _).trans (pipeWriterAdd_ram k d.1 d.2)

theorem addWriters_append (k : Machine) (ds es : List (Nat × Int)) :
    addWriters k (ds ++ es) = addWriters (addWriters k ds) es := List.foldl_append

theorem isEnd_pipe {j' : Fin 8} (hk : x.kind = .pipeWrite) (hid : x.pipeId = j.val) :
    (isEnd j' x).toNat = if j' = j then 1 else 0 := by
  by_cases he : j' = j
  · simp [isEnd, hk, hid, he]
  have hv : j.val ≠ j'.val := fun hv => he (Fin.ext hv.symm)
  simp [isEnd, hk, hid, he, hv]

theorem pipeWriterAdd_writers {id : Nat} {n : Int} (hv : pipeValid k id = some j)
    (h : ∀ l, (k.pipes l).writers + (if l = j then n else 0) = W l) :
    WritersAre (pipeWriterAdd k id n) W := by
  intro l
  rw [pipeWriterAdd, hv]
  rw [(procNotify_woke _).writers]
  have hl := h l
  by_cases he : l = j
  · subst he
    rw [if_pos rfl] at hl
    simp only [setPipe, update_self, hl]
    exact max_eq_right (Int.natCast_nonneg _)
  · rw [if_neg he, Int.add_zero] at hl
    simp only [setPipe, update_of_ne he, hl]

theorem WritersAre.more (h : WritersAre k W) (hx : Named k x) :
    WritersAre (addWriters k (pipeDelta 1 x)) (fun j => W j + (isEnd j x).toNat) := by
  by_cases hk : x.kind = .pipeWrite
  · obtain ⟨j, hj⟩ := Option.isSome_iff_exists.mp (hx.pipe (.inr hk))
    rw [pipeDelta, if_pos hk]
    refine pipeWriterAdd_writers hj fun l => ?_
    rw [isEnd_pipe hk (pipeValid_some hj).1, h l]
    split <;> simp
  · simp only [pipeDelta, if_neg hk, isEnd_of_ne hk]
    exact h

theorem WritersAre.less (h : WritersAre k (fun j => W j + (isEnd j x).toNat)) (hx : Named k x) :
    WritersAre (addWriters k (pipeDelta (-1) x)) W := by
  by_cases hk : x.kind = .pipeWrite
  · obtain ⟨j, hj⟩ := Option.isSome_iff_exists.mp (hx.pipe (.inr hk))
    rw [pipeDelta, if_pos hk]
    refine pipeWriterAdd_writers hj fun l => ?_
    have hl := h l
    simp only [isEnd_pipe hk (pipeValid_some hj).1] at hl
    rw [hl]
    split <;> simp
  · simp only [isEnd_of_ne hk] at h
    simp only [pipeDelta, if_neg hk]
    exact h

theorem Named.rang (h : Named k x) (hr : Rang k k') : Named k' x :=
  h.grow fun j hu => (hr.pipeUsed j).trans hu

structure Charged (D : Fin 16 → Prop) (k : Machine) (W : Fin 8 → Nat)
    (F : Fin 16 → Nat) : Prop where
  writers : WritersAre k W
  files : FilesAre D k.ram F

theorem Charged.congr (h : Charged D k W F) (hw : ∀ j, W' j = W j) (hf : ∀ s, F' s = F s) :
    Charged D k W' F' := by
  rw [funext hw, funext hf]
  exact h

theorem entryRef_eq (k : Machine) (x : Desc) :
    entryRef k x = addWriters { k with ram := refFile k.ram x } (pipeDelta 1 x) := by
  simp only [entryRef, pipeDelta]
  split <;> rfl

theorem entryUnref_eq (k : Machine) (x : Desc) :
    entryUnref k x = addWriters { k with ram := unrefFile k.ram x } (pipeDelta (-1) x) := by
  simp only [entryUnref, pipeDelta]
  split <;> rfl

theorem Charged.ref (h : Charged D k W F) (hx : Named k x) (hb : ∀ s, F s + 1 < 2 ^ 32)
    (hu : ∀ s : Fin 16, x.kind = .file → x.fsSlot = s.val → isUsed (k.ram.tables.files s) = true) :
    Charged D (entryRef k x) (fun j => W j + (isEnd j x).toNat)
    (fun s => F s + (isOpen s x).toNat) := by
  rw [entryRef_eq]
  have hw : WritersAre { k with ram := refFile k.ram x } W := h.writers
  refine ⟨hw.more ⟨hx.pipe, hx.slot⟩, ?_⟩
  rw [addWriters_ram]
  refine h.files.ref hb fun hk => ?_
  obtain ⟨s, hs⟩ := hx.slot hk
  exact ⟨s, hs, hu s hk hs⟩

theorem Charged.unref
    (h : Charged D k (fun j => W j + (isEnd j x).toNat) (fun s => F s + (isOpen s x).toNat))
    (hx : Named k x) (hb : ∀ s, F s + 1 < 2 ^ 32) : Charged D (entryUnref k x) W F := by
  rw [entryUnref_eq]
  have hw : WritersAre { k with ram := unrefFile k.ram x }
    (fun j => W j + (isEnd j x).toNat) := h.writers
  refine ⟨hw.less ⟨hx.pipe, hx.slot⟩, ?_⟩
  rw [addWriters_ram]
  exact h.files.unref hb hx.slot

def among (p : Desc → Bool) (t : Table) (l : List (Fin 11)) : Nat :=
  (l.map (fun fd => (p (t fd)).toNat)).sum

section

variable (p) (t)

theorem among_all : among p t (List.finRange 11) = many p t := by
  rw [many_sum, Fin.sum_univ_def, among]

theorem among_cons (fd : Fin 11) (l : List (Fin 11)) :
    among p t (fd :: l) = (p (t fd)).toNat + among p t l := List.sum_cons

theorem among_le (l : List (Fin 11)) : among p t l ≤ l.length := by
  induction l with
  | nil => exact Nat.le_refl 0
  | cons fd l ih =>
    rw [among_cons, List.length_cons]
    have hone := Bool.toNat_le (p (t fd))
    omega

end

theorem entryRef_tables (k : Machine) (x : Desc) : (entryRef k x).ram.tables = k.ram.tables := by
  rw [entryRef_eq, addWriters_ram]
  simp only [refFile, fsRef]
  repeat' split
  all_goals rfl

theorem Charged.retain (h : Charged D k W F) (hn : ∀ fd, Named k (t fd))
    (hb : ∀ s, F s + 11 < 2 ^ 32) (hu : ∀ fd (s : Fin 16), (t fd).kind = .file →
    (t fd).fsSlot = s.val →
    isUsed (k.ram.tables.files s) = true) :
    Charged D (retain k t) (fun j => W j + many (isEnd j) t)
    (fun s => F s + many (isOpen s) t) := by
  simp only [← among_all]
  rw [Sched.retain]
  have hlen : (List.finRange 11).length = 11 := List.length_finRange
  rw [← hlen] at hb
  generalize List.finRange 11 = l at hb
  induction l generalizing k W F with
  | nil => exact h
  | cons fd l ih =>
    rw [List.length_cons] at hb
    have hone := h.ref (hn fd) (fun s => by have := hb s; omega) fun s => hu fd s
    have hrest := ih hone (fun fd' => (hn fd').rang (entryRef_rang k _))
      (fun fd' s hk hs => by rw [entryRef_tables]; exact hu fd' s hk hs)
      (fun s => by
        have hlt := hb s
        have hle := Bool.toNat_le (isOpen s (t fd))
        omega)
    simp only [among_cons, ← Nat.add_assoc]
    exact hrest

theorem Charged.release
    (h : Charged D k (fun j => W j + many (isEnd j) t) (fun s => F s + many (isOpen s) t))
    (hn : ∀ fd, Named k (t fd)) (hb : ∀ s, F s + 11 < 2 ^ 32) : Charged D (release k t) W F := by
  simp only [← among_all] at h
  rw [Sched.release]
  have hlen : (List.finRange 11).length = 11 := List.length_finRange
  rw [← hlen] at hb
  generalize List.finRange 11 = l at h hb
  induction l generalizing k with
  | nil => exact h
  | cons fd l ih =>
    simp only [List.length_cons] at hb
    simp only [among_cons, Nat.add_comm (Bool.toNat _), ← Nat.add_assoc] at h
    have hone := h.unref (hn fd) fun s => by
      have hlt := hb s
      have hle := among_le (isOpen s) t l
      omega
    exact ih (fun fd' => (hn fd').rang (entryUnref_rang k _)) hone fun s => by have := hb s; omega

end

end MuOS.Kernel.Counts
