import MuOS.Fs.Crash
import MuOS.Fs.Names

namespace MuOS.Fs.Remount

open Function Lib Memory Patches Runs Ata Metadata MuFs Crash RamFs Names

/-- Memory, generation, `pad` fields of the buffers, and disk. -/
structure Mounted where
  ram : Ram
  persistGen : BitVec 32
  pads : Pads
  disk : Mem

variable {offset n : Nat}

section

variable (dev : Drive)

def slotLba (i : Fin 16) : Nat := 16 + i.val * 128

def roundUp (n : Nat) : Nat := (n + 511) / 512 * 512

def persistSlot (r : Ram) (i : Fin 16) : List (Mem → Mem) :=
  let n := roundUp (r.tables.files i).size.toNat
  if n = 0 then [] else ataWriteBytes dev (slotLba i * 512) (r.data i) n

def persistSlotRange (r : Ram) (i : Fin 16) (offset len : Nat) : List (Mem → Mem) :=
  if len = 0 then []
  else
    let first := offset / 512 * 512
    let last := min (roundUp (offset + len)) 65536
    if last ≤ first then []
    else ataWriteBytes dev (slotLba i * 512 + first) (fun k => r.data i (first + k)) (last - first)

def persist (s : Mounted) : Persist → List (Mem → Mem)
  | .tables => persistMeta dev ⟨s.ram.tables, true, s.persistGen⟩ s.pads
  | .slot i => persistSlot dev s.ram i
  | .range i offset len => persistSlotRange dev s.ram i offset len

def afterCall (s : Mounted) (out : Outcome) : Mounted :=
  let s' := { s with ram := out.ram }
  { s' with disk := applyAll (out.writes.flatMap (persist dev s')) s.disk }

def fsSync (s : Mounted) : Mounted :=
  let gen := s.persistGen + 1#32
  { s with
    persistGen := gen
    disk := applyAll (ataWriteBytes dev 0 (superblock gen) 52 ++
      (persistMeta dev ⟨s.ram.tables, true, gen⟩ s.pads ++
      (List.finRange 16).flatMap (persistSlot dev s.ram))) s.disk }

inductive Act
  | op (o : Op)
  | sync

def step (s : Mounted) : Act → Option Mounted
  | .op o => some (afterCall dev s (call s.ram o))
  | .sync => some (fsSync dev s)

end

section

variable (dev : Drive)

def loadSlot (t : Tables) (d : Mem) (i : Fin 16) (buf : Mem) : Mem :=
  if isUsed (t.files i) && (t.files i).size != 0#32 then
    (ataReadBytes dev d (slotLba i * 512) buf (t.files i).size.toNat).getD buf
  else buf

def diskPads (d : Mem) : Pads :=
  ⟨fun i => rd16 d (2 * 512 + 100 * i + 98), fun i => rd16 d (6 * 512 + 80 * i + 78)⟩

def validImage (d : Mem) : Bool :=
  ((ataReadBytes dev (replayJournal dev d) 0 blank 52).map validSuper).getD false

/-- `fs_persist_mount` with contents; `none` leaves persistence off. -/
def mount (partitioned : Bool) (r : Ram) (d : Mem) : Option Mounted :=
  let m := fsPersistMount dev partitioned ⟨r.tables, false, 0#32⟩ d
  if m.1.persistActive then
    if validImage dev d then
      some ⟨⟨m.1.tables, fun i => loadSlot dev m.1.tables m.2 i (r.data i), fun _ => 0#32⟩,
        m.1.persistGen, diskPads m.2, m.2⟩
    else some ⟨⟨m.1.tables, fun _ => blank, fun _ => 0#32⟩, m.1.persistGen, zeroPads, m.2⟩
  else none

end

def noAtime (f : FileMeta) : FileMeta := { f with atime := 0#32 }

/-- The same files and directories, access times apart. -/
structure SameFiles (r r' : Ram) : Prop where
  files : ∀ i, noAtime (r'.tables.files i) = noAtime (r.tables.files i)
  dirs : r'.tables.dirs = r.tables.dirs
  contents : ∀ i, isUsed (r.tables.files i) = true →
    ∀ o, o < (r.tables.files i).size.toNat → r'.data i o = r.data i o

/-- Mounting the disk now finds what is in memory. -/
def Faithful (dev : Drive) (s : Mounted) : Prop :=
  ∀ partitioned r, ∃ m, mount dev partitioned r s.disk = some m ∧ SameFiles s.ram m.ram

/-- A write past the end skips no sector where memory and disk differ. -/
def Seamless (s : Mounted) : Act → Prop
  | .op (.writeAt fd offset _ len _) => offset < 65536 → ∀ i, openSlot s.ram fd = some i →
    ∀ o, (s.ram.tables.files i).size.toNat ≤ o → o < offset → (len = 0 ∨ o < offset / 512 * 512) →
      s.disk (slotLba i * 512 + o) = s.ram.data i o
  | _ => True

structure Large (dev : Drive) : Prop where
  present : dev.present = true
  large : (16 + 16 * 128) * 512 ≤ dev.sectors * 512 % 4294967296

def Stored (r : Ram) (d : Mem) (i : Fin 16) : Prop :=
  isUsed (r.tables.files i) = true → ∀ o, o < (r.tables.files i).size.toNat →
    d (slotLba i * 512 + o) = r.data i o

/-- The disk is an image of memory up to access times. -/
structure Synced (s : Mounted) : Prop where
  tables : ∃ t, Committed s.disk t ∧ (∀ i, noAtime (t.files i) = noAtime (s.ram.tables.files i)) ∧
    t.dirs = s.ram.tables.dirs
  stored : ∀ i, Stored s.ram s.disk i

variable {dev : Drive} {s t : Mounted} {i j : Fin 16} {d d' : Mem} {r r' : Ram} {o : Op}

theorem Large.fits (h : Large dev) : Fits dev := ⟨h.present, by have := h.large; omega⟩

theorem slotLba_le (i : Fin 16) : 8192 ≤ slotLba i * 512 ∧ slotLba i * 512 + 65536 ≤ 1056768 := by
  rw [slotLba]
  omega

theorem Large.inRange (h : Large dev) (i : Fin 16) {a : Nat} (ha : a + n ≤ 65536) :
    inRange dev (slotLba i * 512 + a) n = true := by
  have hl := h.large
  have hi := slotLba_le i
  simp only [Ata.inRange, h.present, Bool.true_and, Bool.and_eq_true, decide_eq_true_eq]
  omega

theorem noAtime_size {f f' : FileMeta} (h : noAtime f' = noAtime f) : f'.size = f.size := by
  have hs := congrArg FileMeta.size h
  exact hs

theorem noAtime_used {f f' : FileMeta} (h : noAtime f' = noAtime f) : isUsed f' = isUsed f := by
  have hu := congrArg isUsed h
  exact hu

theorem roundUp_le (h : n ≤ 65536) : n ≤ roundUp n ∧ roundUp n ≤ 65536 := by
  rw [roundUp]
  omega

theorem persistSlot_all (h : Large dev) (r : Ram) (i : Fin 16) (d : Mem) :
      applyAll (persistSlot dev r i) d = patch d (slotLba i * 512)
      (roundUp (r.tables.files i).size.toNat) (r.data i) := by
  have hr := roundUp_le (r.tables.files i).size_le
  simp only [persistSlot]
  split
  · rename_i h0
    funext a
    rw [patch_outside (by omega)]
    rfl
  · have hin := h.inRange i (a := 0) (n := roundUp (r.tables.files i).size.toNat) (by omega)
    rw [Nat.add_zero] at hin
    exact ataWriteBytes_all hin _ _

theorem persistSlotRange_all (h : Large dev) (r : Ram) (i : Fin 16) {len : Nat} (hlen : 0 < len)
    (hend : offset + len ≤ 65536) (d : Mem) : applyAll (persistSlotRange dev r i offset len) d =
      patch d (slotLba i * 512 + offset / 512 * 512) (roundUp (offset + len) - offset / 512 * 512)
        (fun k => r.data i (offset / 512 * 512 + k)) := by
  have hr := roundUp_le hend
  simp only [persistSlotRange, if_neg (show ¬ len = 0 by omega), Nat.min_eq_left hr.2]
  rw [if_neg (by omega)]
  exact ataWriteBytes_all (h.inRange i (by omega)) _ _

theorem persistSlot_stored (h : Large dev) (r : Ram) (i : Fin 16) (d : Mem) :
    Stored r (applyAll (persistSlot dev r i) d) i := by
  intro _ a ha
  have hr := roundUp_le (r.tables.files i).size_le
  rw [persistSlot_all h, patch_inside (by omega), Nat.add_sub_cancel_left]

theorem persistSlot_apart (h : Large dev) (r : Ram) (hij : j ≠ i) (d : Mem) {a : Nat}
    (ha : a < 65536) : applyAll (persistSlot dev r i) d (slotLba j * 512 + a) = d
    (slotLba j * 512 + a) := by
  have hr := roundUp_le (r.tables.files i).size_le
  have hne : j.val ≠ i.val := fun he => hij (Fin.ext he)
  rw [persistSlot_all h, patch_outside (by simp only [slotLba]; omega)]

theorem Stored.congr (h : Stored r d i) (hu : isUsed (r'.tables.files i) = true →
    isUsed (r.tables.files i) = true ∧
      (r'.tables.files i).size = (r.tables.files i).size) (hd : r'.data i = r.data i)
    (hk : ∀ a, a < 65536 → d' (slotLba i * 512 + a) = d (slotLba i * 512 + a)) : Stored r' d' i := by
  intro hused a ha
  obtain ⟨h1, h2⟩ := hu hused
  have hle := (r'.tables.files i).size_le
  rw [hk a (by omega), hd]
  exact h h1 a (h2 ▸ ha)

def target (r : Ram) : Op → Option (Fin 16)
  | .write fd .. | .fdTruncate fd _ | .truncate fd .. | .writeAt fd .. => openSlot r fd
  | _ => none

/-- What a call does to the files, by what it asks of the disk. -/
inductive Effect (r : Ram) (o : Op) : Prop
  | touched (hw : (call r o).writes = []) (hd : (call r o).ram.data = r.data)
      (hf : ∀ i, noAtime ((call r o).ram.tables.files i) = noAtime (r.tables.files i))
      (hdir : (call r o).ram.tables.dirs = r.tables.dirs)
  | renamed (hw : (call r o).writes = [.tables]) (hd : (call r o).ram.data = r.data)
      (hf : ∀ i, isUsed ((call r o).ram.tables.files i) = true → isUsed (r.tables.files i) = true ∧
        ((call r o).ram.tables.files i).size = (r.tables.files i).size)
  | rewritten (i : Fin 16) (hw : (call r o).writes = [.tables, .slot i])
      (hd : ∀ j, j ≠ i → (call r o).ram.data j = r.data j)
      (hf : ∀ j, j ≠ i → (call r o).ram.tables.files j = r.tables.files j)
      (ht : target r o = some i ∨ (∃ path now, o = .create path now) ∧ isUsed (r.tables.files i) = false)
  | extended (fd : Int) (offset : Nat) (src : Mem) (len : Nat) (now : BitVec 32) (i : Fin 16)
      (ho : o = .writeAt fd offset src len now) (hoff : offset < 65536) (hi : openSlot r fd = some i)
      (hw : (call r o).writes = [.tables, .range i offset (min len (65536 - offset))])
      (hd : (call r o).ram.data = update r.data i (patch (r.data i) offset (min len (65536 - offset)) src))
      (hf : ∀ j, j ≠ i → (call r o).ram.tables.files j = r.tables.files j)
      (hs : ((call r o).ram.tables.files i).size.toNat =
        max (r.tables.files i).size.toNat (offset + min len (65536 - offset)))

theorem effect_failed (hc : call r o = failed r) : Effect r o :=
  .touched (by rw [hc]; rfl) (by rw [hc]; rfl) (fun i => by rw [hc]; rfl) (by rw [hc]; rfl)

theorem call_effect (r : Ram) (o : Op) : Effect r o := by
  by_cases hl : light o = true
  · cases call_light hl with
    | touched hw hd hf hdir =>
      refine .touched hw hd (fun i => ?_) hdir
      obtain ⟨t, ht⟩ := hf i
      rw [ht]
      rfl
    | renamed hw hd hf => exact .renamed hw hd hf
  obtain ⟨x, ho⟩ : ∃ x, o = x := ⟨o, rfl⟩
  cases x with
  | create path now =>
    have hc := congrArg (call r) ho
    rw [call, fsCreate] at hc
    split at hc
    · split at hc
      · rename_i k hk
        exact .rewritten k (by rw [hc]) (fun j _ => by rw [hc]; rfl)
          (fun j hj => by rw [hc]; exact setFile_ne hj)
          (.inr ⟨⟨path, now, ho⟩, by simpa using List.find?_some hk⟩)
      · exact effect_failed hc
    · exact effect_failed hc
  | write fd src len now =>
    have hc := congrArg (call r) ho
    rw [call, fsWrite] at hc
    split at hc
    · exact effect_failed hc
    rename_i k hk
    exact .rewritten k (by rw [hc]) (fun j hj => by rw [hc]; exact setData_ne hj)
      (fun j hj => by rw [hc]; exact setFile_ne hj) (.inl (by rw [ho]; exact hk))
  | fdTruncate fd now =>
    have hc := congrArg (call r) ho
    rw [call, fsFdTruncate] at hc
    split at hc
    · exact effect_failed hc
    rename_i k hk
    exact .rewritten k (by rw [hc]) (fun j _ => by rw [hc]; rfl)
      (fun j hj => by rw [hc]; exact setFile_ne hj) (.inl (by rw [ho]; exact hk))
  | truncate fd len now =>
    have hc := congrArg (call r) ho
    rw [call, fsTruncate] at hc
    split at hc
    · exact effect_failed hc
    rename_i k hk
    split at hc
    · simp only at hc
      split at hc
      · exact .rewritten k (by rw [hc]) (fun j hj => by rw [hc]; exact setData_ne hj)
          (fun j hj => by rw [hc]; exact setFile_ne hj) (.inl (by rw [ho]; exact hk))
      · exact .rewritten k (by rw [hc]) (fun j _ => by rw [hc]; rfl)
          (fun j hj => by rw [hc]; exact setFile_ne hj) (.inl (by rw [ho]; exact hk))
    · exact effect_failed hc
  | writeAt fd offset src len now =>
    have hc := congrArg (call r) ho
    rw [call, fsWriteAt] at hc
    split at hc
    · exact effect_failed hc
    rename_i k hk
    split at hc
    · rename_i hoff
      refine .extended fd offset src len now k ho hoff hk (by rw [hc]) (by rw [hc]; rfl)
        (fun j hj => by rw [hc]; exact setFile_ne hj) ?_
      rw [hc, setFile_self]
      exact grown_size _ _ _ (by omega) now
    · exact effect_failed hc
  | _ => exact absurd (congrArg light ho) hl

theorem superblock_read {b : Mem} (d : Mem) :
    validSuper (patch b 0 52 (fun i => d (0 + i))) = validSuper d := by
  refine validSuper_congr fun x hx => ?_
  rw [patch_inside (by omega), Nat.zero_add, Nat.sub_zero]

theorem validImage_eq (h : Large dev) (d : Mem) :
    validImage dev d = validSuper (replayJournal dev d) := by
  rw [validImage, ataReadBytes_eq (h.fits.inRange (by omega)), Option.map_some, Option.getD_some,
    superblock_read]

theorem loadSlot_at (h : Large dev) {tb : Tables} {buf : Mem} {a : Nat}
    (hu : isUsed (tb.files i) = true) (ha : a < (tb.files i).size.toNat) :
    loadSlot dev tb d i buf a = d (slotLba i * 512 + a) := by
  have hle := (tb.files i).size_le
  have hne : ((tb.files i).size != 0#32) = true := by
    simp only [bne_iff_ne, ne_eq]
    intro h0
    rw [h0] at ha
    exact absurd ha (Nat.not_lt_zero a)
  have hin := h.inRange i (a := 0) (n := (tb.files i).size.toNat) (by omega)
  rw [Nat.add_zero] at hin
  rw [loadSlot, hu, hne, Bool.and_self, if_pos rfl, ataReadBytes_eq hin, Option.getD_some,
    patch_inside (by omega), Nat.sub_zero]

theorem mount_committed (h : Large dev) {tb : Tables} (hc : Committed d tb) (partitioned : Bool)
    (r : Ram) : mount dev partitioned r d =
      some ⟨⟨tb, fun i => loadSlot dev tb d i (r.data i), fun _ => 0#32⟩, rd32 d 20, diskPads d, d⟩ := by
  have hv : validImage dev d = true := by
    rw [validImage_eq h, replayJournal_idle h.fits hc.idle, hc.super]
  simp only [mount, hc.mount h.fits, hv, if_true]

theorem Synced.faithful (h : Large dev) (hs : Synced s) : Faithful dev s := by
  intro partitioned r
  obtain ⟨tb, hc, hfiles, hdirs⟩ := hs.tables
  refine ⟨_, mount_committed h hc partitioned r, hfiles, hdirs, ?_⟩
  intro i hu a ha
  rw [← noAtime_used (hfiles i)] at hu
  have hstored := hs.stored i (noAtime_used (hfiles i) ▸ hu) a ha
  rw [← hstored]
  exact loadSlot_at h hu (by rw [noAtime_size (hfiles i)]; exact ha)

theorem validSuper_superblock (gen : BitVec 32) : validSuper (superblock gen) = true := by
  simp (disch := omega) only [validSuper, superblock, rd32_wr32_of_apart, rd32_wr32_self]
  decide

theorem superblock_written (h : inRange dev 0 52 = true) (gen : BitVec 32) (d : Mem) :
    validSuper (applyAll (ataWriteBytes dev 0 (superblock gen) 52) d) = true := by
  rw [ataWriteBytes_all h, ← validSuper_superblock gen]
  refine validSuper_congr fun x hx => ?_
  rw [patch_inside (by omega), Nat.sub_zero]

theorem mount_synced (h : Large dev) {partitioned : Bool}
    (hm : mount dev partitioned r d = some s) : Synced s := by
  rw [mount] at hm
  simp only [validImage_eq h, mount_replayed h.fits partitioned _ d] at hm
  have hidle := replay_idle h.fits d
  generalize replayJournal dev d = d1 at hm hidle
  by_cases hv : validSuper d1 = true
  · simp only [load_idle h.fits hv hidle, hv, if_true] at hm
    cases hm
    exact ⟨⟨_, ⟨hv, hidle, rfl, rfl⟩, fun _ => rfl, rfl⟩, fun i hu a ha => (loadSlot_at h hu ha).symm⟩
  have hr : ataReadBytes dev d1 0 blank 52 = some (patch blank 0 52 fun i => d1 (0 + i)) :=
    ataReadBytes_eq (h.fits.inRange (by omega)) _ _
  have hf : fsPersistMount dev partitioned ⟨r.tables, false, 0#32⟩ d1 =
      if partitioned then (inactive ⟨r.tables, false, 0#32⟩, d1) else format dev d1 := by
    simp only [fsPersistMount, h.present, if_true, replayJournal_idle h.fits hidle, hr,
      superblock_read, hv]
    rfl
  rw [hf] at hm
  cases partitioned with
  | true => exact absurd hm (by simp [inactive])
  | false =>
    simp only [Bool.false_eq_true, if_false, format, if_true, hv] at hm
    cases hm
    refine ⟨⟨emptyTables, ?_, fun _ => rfl, rfl⟩,
      fun i hu => absurd hu (by simp [isUsed, emptyTables, emptyFile])⟩
    rw [applyAll_append]
    exact committed_after _ _ h.fits (superblock_written (h.fits.inRange (by omega)) 1#32 d1) rfl

theorem Synced.super (h : Synced s) : validSuper s.disk = true := by
  obtain ⟨_, hc, _⟩ := h.tables
  exact hc.super

theorem persistSlot_above (r : Ram) (i : Fin 16) {a : Nat} (ha : a < 8192) :
    ∀ w ∈ persistSlot dev r i, Keeps w a := by
  have hi := slotLba_le i
  intro w hw
  simp only [persistSlot] at hw
  split at hw
  · exact absurd hw List.not_mem_nil
  · exact ataWriteBytes_keeps (.inl (by omega)) w hw

theorem persistSlotRange_above (r : Ram) (i : Fin 16) (offset len : Nat) {a : Nat} (ha : a < 8192) :
    ∀ w ∈ persistSlotRange dev r i offset len, Keeps w a := by
  have hi := slotLba_le i
  intro w hw
  simp only [persistSlotRange] at hw
  split at hw
  · exact absurd hw List.not_mem_nil
  split at hw
  · exact absurd hw List.not_mem_nil
  · exact ataWriteBytes_keeps (.inl (by omega)) w hw

theorem persistSlots_stored (h : Large dev) (r : Ram) (i : Fin 16) {l : List (Fin 16)}
    (hi : Stored r d i ∨ i ∈ l) : Stored r (applyAll (l.flatMap (persistSlot dev r)) d) i := by
  induction l generalizing d with
  | nil => exact hi.resolve_right List.not_mem_nil
  | cons j l ih =>
    rw [List.flatMap_cons, applyAll_append]
    apply ih
    by_cases hj : i = j
    · subst hj
      exact .inl (persistSlot_stored h r i d)
    · refine hi.imp (fun hs => ?_) (fun hm => (List.mem_cons.mp hm).resolve_left hj)
      exact hs.congr (fun hu => ⟨hu, rfl⟩) rfl fun a ha => persistSlot_apart h r hj d ha

theorem fsSync_synced (h : Large dev) (s : Mounted) : Synced (fsSync dev s) := by
  simp only [fsSync, applyAll_append]
  have hc := committed_after ⟨s.ram.tables, true, s.persistGen + 1#32⟩ s.pads h.fits
    (superblock_written (h.fits.inRange (by omega)) (s.persistGen + 1#32) s.disk) rfl
  refine ⟨⟨_, hc.congr fun a ha => applyAll_keeps (fun w hw => ?_) _, fun _ => rfl, rfl⟩,
    fun i => ?_⟩
  · obtain ⟨i, -, hw⟩ := List.mem_flatMap.mp hw
    exact persistSlot_above s.ram i (by omega) w hw
  · exact persistSlots_stored h s.ram i (.inr (List.mem_finRange i))

theorem afterCall_tables (dev : Drive) (s : Mounted) (out : Outcome) (hw : out.writes = [.tables]) :
    (afterCall dev s out).disk = applyAll
    (persistMeta dev ⟨out.ram.tables, true, s.persistGen⟩ s.pads) s.disk := by
  simp only [afterCall, hw, List.flatMap_cons, List.flatMap_nil, List.append_nil, persist]

theorem afterCall_then {w : Persist} (dev : Drive) (s : Mounted) (out : Outcome)
    (hw : out.writes = [.tables, w]) :
    (afterCall dev s out).disk = applyAll (persist dev { s with ram := out.ram } w)
      (applyAll (persistMeta dev ⟨out.ram.tables, true, s.persistGen⟩ s.pads) s.disk) := by
  simp only [afterCall, hw, List.flatMap_cons, List.flatMap_nil, List.append_nil, persist,
    applyAll_append]

section

variable (h : Large dev)
include h

theorem afterCall_range_committed (hs : validSuper s.disk = true) (out : Outcome)
    (hw : out.writes = [.tables, .range i offset n]) :
    Committed (afterCall dev s out).disk out.ram.tables := by
  rw [afterCall_then dev s out hw]
  have hc := committed_after ⟨out.ram.tables, true, s.persistGen⟩ s.pads h.fits hs rfl
  exact hc.congr fun a ha => applyAll_keeps (persistSlotRange_above _ _ _ _ (by omega)) _

theorem range_bytes (out : Outcome) (hend : offset + n ≤ 65536)
    (hw : out.writes = [.tables, .range i offset n]) (j : Fin 16) {a : Nat} (ha : a < 65536) :
    (afterCall dev s out).disk (slotLba j * 512 + a) =
      if j = i ∧ 0 < n ∧ offset / 512 * 512 ≤ a ∧ a < roundUp (offset + n) then out.ram.data i a
      else s.disk (slotLba j * 512 + a) := by
  have hj := slotLba_le j
  have hmeta : applyAll (persistMeta dev ⟨out.ram.tables, true, s.persistGen⟩ s.pads) s.disk
      (slotLba j * 512 + a) = s.disk (slotLba j * 512 + a) := persistMeta_keeps h.fits rfl (by omega)
  have hr := roundUp_le hend
  rw [afterCall_then dev s out hw, persist]
  by_cases hn : n = 0
  · rw [if_neg (by omega), ← hmeta, persistSlotRange, if_pos hn]
    rfl
  rw [persistSlotRange_all h _ _ (by omega) hend]
  split
  · rename_i hin
    obtain ⟨rfl, -, h1, h2⟩ := hin
    have hlo : slotLba j * 512 + offset / 512 * 512 ≤ slotLba j * 512 + a := Nat.add_le_add_left h1 _
    have hhi : slotLba j * 512 + a <
        slotLba j * 512 + offset / 512 * 512 + (roundUp (offset + n) - offset / 512 * 512) := by omega
    rw [patch_inside ⟨hlo, hhi⟩, Nat.add_sub_add_left, Nat.add_sub_cancel' h1]
  · rename_i hout
    rw [patch_outside ?_, hmeta]
    by_cases hji : j = i
    · subst hji
      have : ¬ (offset / 512 * 512 ≤ a ∧ a < roundUp (offset + n)) := fun hc => hout ⟨rfl, by omega, hc⟩
      omega
    · have hne : j.val ≠ i.val := fun he => hji (Fin.ext he)
      simp only [slotLba]
      omega

theorem call_synced (hs : Synced s) (hok : Seamless s (.op o)) :
    Synced (afterCall dev s (call s.ram o)) := by
  cases call_effect s.ram o with
  | touched hw hd hf hdir =>
    have hdisk : (afterCall dev s (call s.ram o)).disk = s.disk := by
      rw [afterCall, hw]
      rfl
    obtain ⟨tb, hc, hfiles, hdirs⟩ := hs.tables
    refine ⟨⟨tb, hdisk ▸ hc, fun i => (hfiles i).trans (hf i).symm, hdirs.trans hdir.symm⟩, fun i => ?_⟩
    exact (hs.stored i).congr (fun hu => ⟨noAtime_used (hf i) ▸ hu, noAtime_size (hf i)⟩)
      (congrFun hd i) (fun a _ => by rw [hdisk])
  | renamed hw hd hf =>
    have hdisk := afterCall_tables dev s _ hw
    refine ⟨⟨_, hdisk ▸ committed_after _ _ h.fits hs.super rfl, fun _ => rfl, rfl⟩, fun i => ?_⟩
    refine (hs.stored i).congr (hf i) (congrFun hd i) fun a _ => ?_
    have hi := slotLba_le i
    rw [hdisk, persistMeta_keeps h.fits rfl (by omega)]
  | rewritten i hw hd hf _ =>
    have hdisk := afterCall_then dev s _ hw
    have hc := committed_after ⟨(call s.ram o).ram.tables, true, s.persistGen⟩ s.pads h.fits hs.super rfl
    refine ⟨⟨_, ?_, fun _ => rfl, rfl⟩, fun j => ?_⟩
    · rw [hdisk]
      exact hc.congr fun a ha => applyAll_keeps (persistSlot_above _ i (by omega)) _
    rw [hdisk, persist]
    by_cases hj : j = i
    · subst hj
      exact persistSlot_stored h _ j _
    refine (hs.stored j).congr (fun hu => ?_) (hd j hj) fun a ha => ?_
    · have hfj : (afterCall dev s (call s.ram o)).ram.tables.files j = s.ram.tables.files j := hf j hj
      rw [hfj] at hu ⊢
      exact ⟨hu, rfl⟩
    · have hjl := slotLba_le j
      rw [persistSlot_apart h _ hj _ ha, persistMeta_keeps h.fits rfl (by omega)]
  | extended fd offset src len now i ho hoff hi hw hd hf hsz =>
    subst ho
    have hbytes := range_bytes (s := s) h _ (by omega) hw
    refine ⟨⟨_, afterCall_range_committed h hs.super _ hw, fun _ => rfl, rfl⟩, fun j => ?_⟩
    by_cases hj : j = i
    · subst hj
      intro _ a ha
      have hle := ((call s.ram (.writeAt fd offset src len now)).ram.tables.files j).size_le
      have ha' : a < max (s.ram.tables.files j).size.toNat (offset + min len (65536 - offset)) := by
        rw [← hsz]
        exact ha
      rw [hbytes j (by omega)]
      split
      · rfl
      rename_i hout
      have hr := roundUp_le (n := offset + min len (65536 - offset)) (by omega)
      have hold : (afterCall dev s (call s.ram (.writeAt fd offset src len now))).ram.data j a =
        s.ram.data j a := by
        rw [show (afterCall dev s (call s.ram (.writeAt fd offset src len now))).ram.data = _
          from hd, update_self, patch_outside ?_]
        by_contra hin
        exact hout ⟨rfl, by omega, by omega, by omega⟩
      rw [hold]
      by_cases hin : a < (s.ram.tables.files j).size.toNat
      · exact hs.stored j (openSlot_spec hi).1 a hin
      have hgap : a < offset ∧ (len = 0 ∨ a < offset / 512 * 512) := by
        by_contra hno
        exact hout ⟨rfl, by omega, by omega, by omega⟩
      exact hok hoff j hi a (by omega) hgap.1 hgap.2
    · have hfj : (afterCall dev s (call s.ram (.writeAt fd offset src len now))).ram.tables.files j =
          s.ram.tables.files j := hf j hj
      refine (hs.stored j).congr (fun hu => ?_) ?_ fun a ha => ?_
      · rw [hfj] at hu ⊢
        exact ⟨hu, rfl⟩
      · rw [show (afterCall dev s (call s.ram (.writeAt fd offset src len now))).ram.data = _
          from hd, update_of_ne hj]
      · rw [hbytes j ha, if_neg fun hc => hj hc.1]

theorem step_synced {a : Act} (hs : Synced s) (hstep : step dev s a = some t) (hok : Seamless s a) :
    Synced t := by
  cases a with
  | op o =>
    cases hstep
    exact call_synced h hs hok
  | sync =>
    cases hstep
    exact fsSync_synced h s

theorem faithful_seamless {a : Act} (hs : Synced s) (hstep : step dev s a = some t)
    (hf : Faithful dev t) : Seamless s a := by
  cases a with
  | op o =>
    cases hstep
    cases o with
    | writeAt fd offset src len now =>
      intro hoff i hi a hsize hlt hgap
      cases call_effect s.ram (.writeAt fd offset src len now) with
      | extended fd' offset' src' len' now' k ho _ hk hw hd _ hsz =>
        cases ho
        cases hi.symm.trans hk
        obtain ⟨m, hm, hsame⟩ := hf false s.ram
        rw [mount_committed h (afterCall_range_committed h hs.super _ hw)] at hm
        cases hm
        have hu : isUsed ((call s.ram (.writeAt fd offset src len now)).ram.tables.files i) = true := by
          obtain ⟨hu, -⟩ := openSlot_spec hi
          simp only [call, fsWriteAt, hi, dif_pos hoff, setFile_self, stamped]
          split <;> exact hu
        have ha : a < ((call s.ram (.writeAt fd offset src len now)).ram.tables.files i).size.toNat := by
          omega
        have heq := (loadSlot_at h hu ha).symm.trans (hsame.contents i hu a ha)
        rw [range_bytes h _ (by omega) hw i (by omega), if_neg (by omega),
          show (afterCall dev s (call s.ram (.writeAt fd offset src len now))).ram.data = _ from hd,
          update_self, patch_outside (by omega)] at heq
        exact heq
      | touched hw | renamed hw | rewritten _ hw => simp [call, fsWriteAt, hi, dif_pos hoff] at hw
    | _ => trivial
  | sync => trivial

end

/-- Write-through is faithful throughout exactly the runs in which no write past
the end of a file passes over a sector where disk and memory differ. -/
theorem remount_faithful_iff {partitioned : Bool} {r : Ram} {d : Mem} (h : Large dev)
    (hm : mount dev partitioned r d = some s) (acts : List Act) :
    Always (step dev) (Faithful dev) s acts ↔ Meets (step dev) Seamless s acts :=
  always_iff_meets (fun s a => by cases a <;> exact ⟨_, rfl⟩) (fun _ hs => hs.faithful h)
    (fun _ _ _ hs hstep hok => step_synced h hs hstep hok)
    (fun _ _ _ hs hstep hf => faithful_seamless h hs hstep hf) (mount_synced h hm)

theorem smallDrive_large : Large smallDrive := ⟨rfl, by decide⟩

def oldDisk : Mem := fun _ => 7#8

def skipping : List Act := [.op (.create nameA 0#32), .op (.writeAt 0 600 (fun _ => 8#8) 1 0#32)]

theorem remount_faithful_skipping : ∃ s, mount smallDrive false bootRam oldDisk = some s ∧
    (Always (step smallDrive) (Faithful smallDrive) s skipping ↔
    Meets (step smallDrive) Seamless s skipping) := by
  have hm : (mount smallDrive false bootRam oldDisk).isSome = true := by decide +kernel
  obtain ⟨s, hs⟩ := Option.isSome_iff_exists.mp hm
  exact ⟨s, hs, remount_faithful_iff smallDrive_large hs skipping⟩

/-- `fs_sync` makes the disk faithful whatever was on it, and seamless calls keep it so. -/
theorem sync_restores (h : Large dev) (s : Mounted) {acts : List Act}
    (hm : Meets (step dev) Seamless (fsSync dev s) acts)
    (hr : run (step dev) (fsSync dev s) acts = some t) : Faithful dev t :=
  (meets_invariant (fun _ _ _ hs hok hstep => step_synced h hs hstep hok)
    (fsSync_synced h s) hm hr).faithful h

def rewriting : List Act :=
  [.op (.writeAt 0 100 (fun _ => 9#8) 5 0#32), .op (.truncate 0 50 1#32)]

theorem sync_restores_skipped : ∃ s t t', mount smallDrive false bootRam oldDisk = some s ∧
    run (step smallDrive) s skipping = some t ∧
    run (step smallDrive) (fsSync smallDrive t) rewriting = some t' ∧ Faithful smallDrive t' := by
  obtain ⟨s, t, hs, ht, hopen, hsize⟩ : ∃ s t, mount smallDrive false bootRam oldDisk = some s ∧
      run (step smallDrive) s skipping = some t ∧ openSlot (fsSync smallDrive t).ram 0 = some 0 ∧
      100 ≤ ((fsSync smallDrive t).ram.tables.files 0).size.toNat :=
    ⟨_, _, rfl, rfl, by decide +kernel, by decide +kernel⟩
  have hm : Meets (step smallDrive) Seamless (fsSync smallDrive t) rewriting := by
    refine ⟨fun _ i hi o hend ho _ => ?_, fun _ _ => ⟨trivial, fun _ _ => trivial⟩⟩
    cases hopen.symm.trans hi
    omega
  exact ⟨s, t, _, hs, ht, rfl, sync_restores smallDrive_large t hm rfl⟩

/-- The first sector of the file is never written: memory has zeros there, and
after mounting again the file has the old contents of the disk. -/
theorem skipped_sector_stale : ∃ s t m, mount smallDrive false bootRam oldDisk = some s ∧
    run (step smallDrive) s skipping = some t ∧ mount smallDrive false bootRam t.disk = some m ∧
    fsReadAt t.ram 0 0 1 = (1, [0#8]) ∧ fsReadAt m.ram 0 0 1 = (1, [7#8]) := by
  refine ⟨_, _, _, rfl, rfl, rfl, by decide +kernel, by decide +kernel⟩

end MuOS.Fs.Remount
