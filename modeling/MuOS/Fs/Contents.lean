import MuOS.Fs.Names

namespace MuOS.Fs.Contents

open Function Lib Memory Patches Runs Metadata RamFs Names Option List

/-- What happened to the bytes of a file since its creation. -/
inductive Event
  | wrote (offset n : Nat) (src : Mem)
  | cut (len : Nat)

/-- The byte last written at an offset and not cut off since. -/
def lastWritten : List Event → Nat → Option (BitVec 8)
  | [], _ => none
  | .wrote offset n src :: log, o =>
    if offset ≤ o ∧ o < offset + n then some (src (o - offset)) else lastWritten log o
  | .cut len :: log, o => if len ≤ o then none else lastWritten log o

def expected (log : List Event) (o : Nat) : BitVec 8 := (lastWritten log o).getD 0#8

/-- The file system with the history of each slot. -/
structure Logged where
  ram : Ram
  log : Fin 16 → List Event

def note (s : Logged) (fd : Int) (es : List Event) : Fin 16 → List Event :=
  (openSlot s.ram fd).elim s.log (fun i => update s.log i (es ++ s.log i))

/-- A whole-file write cuts the file off first. -/
def record (s : Logged) : Op → Fin 16 → List Event
  | .create path now =>
    let rc := (fsCreate s.ram path.chars now).rc
    if 0 ≤ rc then update s.log (Fin.ofNat 16 rc.toNat) [] else s.log
  | .write fd src len _ => note s fd [.wrote 0 (min len 65536) src, .cut 0]
  | .fdTruncate fd _ => note s fd [.cut 0]
  | .truncate fd len _ => if len ≤ 65536 then note s fd [.cut len] else s.log
  | .writeAt fd offset src len _ =>
    if offset < 65536 then note s fd [.wrote offset (min len (65536 - offset)) src] else s.log
  | _ => s.log

def step (s : Logged) (op : Op) : Option Logged := some ⟨(call s.ram op).ram, record s op⟩

def start (r : Ram) : Logged := ⟨fsInit r, fun _ => []⟩

structure Faithful (s : Logged) : Prop where
  read : ∀ fd i maxlen, openSlot s.ram fd = some i →
    (fsRead s.ram fd maxlen).2 = (List.range (min (s.ram.tables.files i).size.toNat maxlen)).map
    (expected (s.log i))
  readAt : ∀ fd i offset len, openSlot s.ram fd = some i →
    (fsReadAt s.ram fd offset len).2 =
      (List.range (min ((s.ram.tables.files i).size.toNat - offset) len)).map
      (fun k => expected (s.log i) (offset + k))

def Seamless (s : Logged) : Op → Prop
  | .writeAt fd offset _ _ _ => offset < 65536 → ∀ i, openSlot s.ram fd = some i →
    ∀ o, (s.ram.tables.files i).size.toNat ≤ o → o < offset → s.ram.data i o = 0#8
  | _ => True

/-- A used slot's buffer agrees with its history, which ends with the file. -/
structure Clean (f : FileMeta) (m : Mem) (log : List Event) : Prop where
  inside : ∀ o, o < f.size.toNat → m o = expected log o
  outside : ∀ o, f.size.toNat ≤ o → lastWritten log o = none

def AllClean (s : Logged) : Prop :=
  ∀ i, isUsed (s.ram.tables.files i) = true → Clean (s.ram.tables.files i) (s.ram.data i) (s.log i)

variable {s t : Logged} {i : Fin 16} {f f' : FileMeta} {m : Mem} {log : List Event}
  {fd : Int} {op : Op}

theorem Clean.resize (h : Clean f m log) (hs : f'.size = f.size) : Clean f' m log :=
  ⟨fun o ho => h.inside o (hs ▸ ho), fun o ho => h.outside o (hs ▸ ho)⟩

theorem AllClean.one (h : AllClean s)
    (hf : ∀ j, j ≠ i → t.ram.tables.files j = s.ram.tables.files j)
    (hd : ∀ j, j ≠ i → t.ram.data j = s.ram.data j) (hl : ∀ j, j ≠ i → t.log j = s.log j)
    (hi : isUsed (t.ram.tables.files i) = true →
    Clean (t.ram.tables.files i) (t.ram.data i) (t.log i)) : AllClean t := by
  intro j hu
  by_cases hj : j = i
  · subst hj
    exact hi hu
  · rw [hf j hj] at hu ⊢
    rw [hd j hj, hl j hj]
    exact h j hu

theorem AllClean.light {o : Outcome} (h : AllClean s) (hl : Light s.ram o) :
    AllClean ⟨o.ram, s.log⟩ := by
  intro j hu
  cases hl with
  | touched hw hd hf hdir =>
    obtain ⟨t, ht⟩ := hf j
    simp only [ht, hd] at hu ⊢
    exact (h j hu).resize rfl
  | renamed hw hd hf =>
    obtain ⟨hused, hs⟩ := hf j hu
    simp only [hd]
    exact (h j hused).resize hs

section

variable (ho : openSlot s.ram fd = some i) (es : List Event)
include ho es

theorem note_self : note s fd es i = es ++ s.log i := by
  rw [note, ho, elim_some, update_self]

theorem note_ne {j : Fin 16} (hj : j ≠ i) : note s fd es j = s.log j := by
  rw [note, ho, elim_some, update_of_ne hj]

end

theorem note_none (ho : openSlot s.ram fd = none) (es : List Event) : note s fd es = s.log := by
  rw [note, ho, elim_none]

section

variable {offset n len o : Nat} {src : Mem}

theorem lastWritten_in (h : offset ≤ o ∧ o < offset + n) :
    lastWritten (.wrote offset n src :: log) o = some (src (o - offset)) := if_pos h

theorem lastWritten_out (h : ¬ (offset ≤ o ∧ o < offset + n)) :
    lastWritten (.wrote offset n src :: log) o = lastWritten log o := if_neg h

theorem lastWritten_gone (h : len ≤ o) : lastWritten (.cut len :: log) o = none := if_pos h

theorem lastWritten_kept (h : o < len) : lastWritten (.cut len :: log) o = lastWritten log o :=
  if_neg (by omega)

theorem clean_write (src : Mem) (h : f.size.toNat = n) :
    Clean f (patch m 0 n src) (.wrote 0 n src :: .cut 0 :: log) := by
  refine ⟨fun o ho => ?_, fun o ho => ?_⟩
  · rw [patch_inside (by omega), expected, lastWritten_in (by omega)]
    rfl
  · rw [lastWritten_out (by omega), lastWritten_gone (by omega)]

section

variable (h : Clean f m log) (hs : f'.size.toNat = len)
include h hs

theorem clean_cut (hle : len ≤ f.size.toNat) : Clean f' m (.cut len :: log) := by
  refine ⟨fun o ho => ?_, fun o ho => lastWritten_gone (by omega)⟩
  rw [h.inside o (by omega), expected, expected, lastWritten_kept (by omega)]

theorem clean_grow (hlt : f.size.toNat < len) :
    Clean f' (patch m f.size.toNat (len - f.size.toNat) (fun _ => 0#8)) (.cut len :: log) := by
  refine ⟨fun o ho => ?_, fun o ho => lastWritten_gone (by omega)⟩
  rw [expected, lastWritten_kept (by omega)]
  by_cases hin : f.size.toNat ≤ o
  · rw [patch_inside (by omega), h.outside o hin]
    rfl
  · rw [patch_outside (by omega), h.inside o (by omega), expected]

end

theorem clean_writeAt (src : Mem) (h : Clean f m log)
    (hs : f'.size.toNat = max f.size.toNat (offset + n))
    (hgap : ∀ o, f.size.toNat ≤ o → o < offset → m o = 0#8) :
    Clean f' (patch m offset n src) (.wrote offset n src :: log) := by
  refine ⟨fun o ho => ?_, fun o ho => ?_⟩
  · by_cases hin : offset ≤ o ∧ o < offset + n
    · rw [patch_inside hin, expected, lastWritten_in hin]
      rfl
    rw [patch_outside (by omega), expected, lastWritten_out hin]
    by_cases hold : o < f.size.toNat
    · exact h.inside o hold
    rw [h.outside o (by omega), hgap o (by omega) (by omega)]
    rfl
  · rw [lastWritten_out (by omega)]
    exact h.outside o (by omega)

end

theorem step_clean (h : AllClean s) (hs : step s op = some t) (hok : Seamless s op) :
    AllClean t := by
  cases hs
  by_cases hl : light op = true
  · have hr : record s op = s.log := by
      cases op with
      | create | write | fdTruncate | truncate | writeAt => cases hl
      | _ => rfl
    rw [hr]
    exact h.light (call_light hl)
  cases op with
  | create path now =>
    simp only [call, record, fsCreate]
    split
    · split
      · rename_i j hj
        simp only [Int.natCast_nonneg, if_true, Int.toNat_natCast, Fin.ofNat_val_eq_self]
        refine h.one (fun k hk => setFile_ne hk) (fun k hk => rfl) (fun k hk => update_of_ne hk ..) ?_
        intro _
        simp only [update_self]
        exact ⟨fun o ho => absurd ho (by simp [setRefs, newFile]), fun _ _ => rfl⟩
      · exact h
    · exact h
  | write fd src len now =>
    simp only [call, record, fsWrite]
    cases ho : openSlot s.ram fd with
    | none =>
      simp only [note_none ho]
      exact h
    | some j =>
      refine h.one (fun k hk => setFile_ne hk) (fun k hk => setData_ne hk) (fun k hk => note_ne ho _ hk) ?_
      intro _
      simp only [setFile_self, setFile_data, setData_self, note_self ho]
      exact clean_write src (by rw [stamped, resized_size])
  | fdTruncate fd now =>
    simp only [call, record, fsFdTruncate]
    cases ho : openSlot s.ram fd with
    | none =>
      simp only [note_none ho]
      exact h
    | some j =>
      refine h.one (fun k hk => setFile_ne hk) (fun k hk => rfl) (fun k hk => note_ne ho _ hk) ?_
      intro _
      simp only [setFile_self, setFile_data, note_self ho]
      exact clean_cut (h j (openSlot_spec ho).1) (by rw [stamped, resized_size]) (Nat.zero_le _)
  | truncate fd len now =>
    simp only [call, record, fsTruncate]
    cases ho : openSlot s.ram fd with
    | none =>
      simp only [note_none ho, ite_self]
      exact h
    | some j =>
      have hclean := h j (openSlot_spec ho).1
      by_cases hl : len ≤ 65536
      · simp only [dif_pos hl, if_pos hl]
        split
        · rename_i hlt
          refine h.one (fun k hk => setFile_ne hk) (fun k hk => setData_ne hk)
            (fun k hk => note_ne ho _ hk) ?_
          intro _
          simp only [setFile_self, setFile_data, setData_self, note_self ho]
          exact clean_grow hclean (by rw [stamped, resized_size]) hlt
        · refine h.one (fun k hk => setFile_ne hk) (fun k hk => rfl) (fun k hk => note_ne ho _ hk) ?_
          intro _
          simp only [setFile_self, setFile_data, note_self ho]
          exact clean_cut hclean (by rw [stamped, resized_size]) (by omega)
      · simp only [dif_neg hl, if_neg hl]
        exact h
  | writeAt fd offset src len now =>
    simp only [call, record, fsWriteAt]
    cases ho : openSlot s.ram fd with
    | none =>
      simp only [note_none ho, ite_self]
      exact h
    | some j =>
      by_cases hoff : offset < 65536
      · simp only [dif_pos hoff, if_pos hoff]
        refine h.one (fun k hk => setFile_ne hk) (fun k hk => setData_ne hk)
          (fun k hk => note_ne ho _ hk) ?_
        intro _
        simp only [setFile_self, setFile_data, setData_self, note_self ho]
        exact clean_writeAt src (h j (openSlot_spec ho).1) (grown_size _ _ _ (by omega) now)
          (hok hoff j ho)
      · simp only [dif_neg hoff, if_neg hoff]
        exact h
  | _ => exact absurd rfl hl

theorem copied_expected {offset n : Nat} (h : Clean f m log) (hn : offset + n ≤ f.size.toNat) :
    copied m offset n = (List.range n).map (fun k => expected log (offset + k)) := by
  refine map_congr_left fun k hk => ?_
  exact h.inside (offset + k) (by have := mem_range.mp hk; omega)

theorem AllClean.faithful (h : AllClean s) : Faithful s where
  read := by
    intro fd i maxlen ho
    have hc := h i (openSlot_spec ho).1
    simp only [fsRead, ho]
    rw [copied_expected hc (by omega)]
    simp only [Nat.zero_add]
  readAt := by
    intro fd i offset len ho
    have hc := h i (openSlot_spec ho).1
    simp only [fsReadAt, ho]
    split
    · rename_i hle
      rw [Nat.sub_eq_zero_of_le hle]
      rfl
    · exact copied_expected hc (by omega)

theorem faithful_seamless (h : AllClean s) (hs : step s op = some t) (hf : Faithful t) :
    Seamless s op := by
  cases hs
  cases op with
  | writeAt fd offset src len now =>
    intro hoff i ho o hsize ho'
    obtain ⟨hu, rfl⟩ := openSlot_spec ho
    have hread := hf.readAt i.val i o 1
    simp only [call, record, fsWriteAt, ho, dif_pos hoff, if_pos hoff] at hread
    have hgrown := grown_size (s.ram.tables.files i) offset (min len (65536 - offset)) (by omega) now
    obtain ⟨f, hfile⟩ :
      ∃ f, stamped (if (s.ram.tables.files i).size.toNat < offset + min len (65536 - offset) then
      resized (s.ram.tables.files i) (offset + min len (65536 - offset)) (by omega)
      else s.ram.tables.files i) now = f :=
      ⟨_, rfl⟩
    have hused : isUsed f = true := by
      rw [← hfile]
      split <;> exact hu
    rw [hfile] at hread hgrown
    have hopen := openSlot_used
      (r := setFile (setData s.ram i (patch (s.ram.data i) offset (min len (65536 - offset)) src)) i f)
      (by rw [setFile_self]; exact hused)
    have hslot := hread hopen
    simp only [fsReadAt, hopen, setFile_self, setFile_data, setData_self, note_self ho, hgrown] at hslot
    rw [if_neg (by omega),
      show min (max (s.ram.tables.files i).size.toNat (offset + min len (65536 - offset)) - o) 1 = 1
      by omega] at hslot
    have hbyte : patch (s.ram.data i) offset (min len (65536 - offset)) src (o + 0) =
        expected (.wrote offset (min len (65536 - offset)) src :: s.log i) (o + 0) := (cons.inj hslot).1
    rw [Nat.add_zero, patch_outside (.inl ho'), expected, lastWritten_out (by omega),
      (h i hu).outside o hsize] at hbyte
    exact hbyte
  | _ => trivial

/-- Reads return what was last written, throughout a run, if and only if no write
past the end of a file uncovers a byte that is not zero. -/
theorem reads_last_written_iff (r : Ram) (ops : List Op) :
    Always step Faithful (start r) ops ↔ Meets step Seamless (start r) ops :=
  always_iff_meets (fun _ _ => ⟨_, rfl⟩) (fun _ h => h.faithful)
    (fun _ _ _ h hs hok => step_clean h hs hok) (fun _ _ _ h hs hf => faithful_seamless h hs hf)
    fun _ hu => absurd hu (by simp [start, fsInit, isUsed, emptied])

def uncovered : List Op :=
  [.create nameA 0#32, .writeAt 0 0 (fun _ => 7#8) 1 0#32, .fdTruncate 0 0#32,
    .writeAt 0 1 (fun _ => 8#8) 1 0#32]

/-- The byte from before the truncation is read again. -/
theorem write_past_end_uncovers : ∃ t, run step (start bootRam) uncovered = some t ∧
    fsReadAt t.ram 0 0 2 = (2, [7#8, 8#8]) ∧ expected (t.log 0) 0 = 0#8 ∧ ¬ Faithful t := by
  refine ⟨_, rfl, by decide +kernel, by decide +kernel, fun hf => ?_⟩
  have hr := hf.readAt 0 0 0 1 (by decide +kernel)
  revert hr
  decide +kernel

end MuOS.Fs.Contents
