import MuOS.Fs.Remount

namespace MuOS.Fs.Orphans

open Function Lib Memory Patches CStrings Ata Metadata MuFs Crash RamFs Names Remount

/-- Every occupied slot has a name that finds it. -/
def Usable (r : Ram) : Prop :=
  ∀ i, isUsed (r.tables.files i) = true → ∃ n, n ≠ [] ∧ fileSlotOf r n = some i

/-- Bytes 32 to 39 of the first directory's name are 0: a replay reads `used` and `deleted` of the
last file there. -/
def ShortFirst (tb : Tables) : Prop :=
  rd32 (nameBytes (tb.dirs 0).name) 32 = 0#32 ∧ rd32 (nameBytes (tb.dirs 0).name) 36 = 0#32

/-- Slots that come back unlinked count as held. -/
def remounted (r : Ram) : Tracked :=
  ⟨r, fun i => if (r.tables.files i).deleted = 0#32 then 0 else 1⟩

/-- Memory and disk after calls, commits, writes outside the tables, and reboots from commits that
stop anywhere. -/
inductive Lived (dev : Drive) : Tracked → Mem → Prop
  | format {p : Bool} {r : Ram} {d : Mem} {m : Mounted} (hm : mount dev p r d = some m)
      (he : m.ram.tables = emptyTables) : Lived dev (remounted m.ram) m.disk
  | call {t t' : Tracked} {d : Mem} (o : Op) (h : Lived dev t d) (hs : step t o = some t') :
    Lived dev t' d
  | commit {t : Tracked} {d : Mem} (gen : BitVec 32) (pads : Pads) (h : Lived dev t d) :
      Lived dev t (applyAll (persistMeta dev ⟨t.ram.tables, true, gen⟩ pads) d)
  | write {t : Tracked} {d d' : Mem} (h : Lived dev t d) (hs : validSuper d' = true)
      (hk : ∀ a, 1024 ≤ a → a < 7936 → d' a = d a) : Lived dev t d'
  | reboot {t : Tracked} {d : Mem} {k : Nat} {p : Bool} {r : Ram} {m : Mounted} (gen : BitVec 32)
      (pads : Pads) (h : Lived dev t d) (hf : ShortFirst t.ram.tables)
      (hm : mount dev p r (crash dev ⟨t.ram.tables, true, gen⟩ pads k d) = some m) :
      Lived dev (remounted m.ram) m.disk

/-- The names form a tree, and unlinked slots are occupied and have no name. -/
structure Fit (tb : Tables) : Prop where
  named : Named ⟨tb, fun _ => blank, fun _ => 0#32⟩
  unlinked : ∀ i, (tb.files i).deleted ≠ 0#32 → isUsed (tb.files i) = true ∧
    strAt (tb.files i).name = []

variable {r : Ram} {i : Fin 16} {tb tb' : Tables} {dev : Drive} {d d' : Mem} {t : Tracked}
  {p : Bool} {m : Mounted}

theorem Fit.of (hn : Named r) {held : Fin 16 → Nat} (hs : Slots r held) : Fit r.tables :=
  ⟨hn.congr rfl, fun i hi => ⟨((hs i).2 hi).1, ((hs i).2 hi).2.1⟩⟩

theorem fileSlotOf_live (h : Named r) (hl : isLive (r.tables.files i) = true) : ∃ n, n ≠ [] ∧
    fileSlotOf r n = some i := by
  have he : entryName r (.inl i) = some (strAt (r.tables.files i).name) := if_pos hl
  refine ⟨_, (h.formed _ _ he).ne_nil, ?_⟩
  cases hs : fileSlotOf r (strAt (r.tables.files i).name) with
  | none => exact absurd he (fileSlotOf_none hs i)
  | some j =>
    have hp := h.rooted.distinct (.inl j) (.inl i) _ (by rw [entryParts, fileSlotOf_some hs]; rfl)
      (by rw [entryParts, he]; rfl)
    rw [Sum.inl.inj hp]

theorem usable_iff (h : Fit r.tables) : Usable r ↔ ∀ i, (r.tables.files i).deleted = 0#32 := by
  constructor
  · intro hu i
    by_contra hd
    obtain ⟨n, -, hn⟩ := hu i (h.unlinked i hd).1
    have hl := (entryName_file (fileSlotOf_some hn)).1
    rw [isLive, Bool.and_eq_true, beq_iff_eq] at hl
    exact hd hl.2
  · intro hd i hu
    refine fileSlotOf_live (h.named.congr rfl) ?_
    rw [isLive, hu, hd i]
    rfl

theorem replayed_ne (tb : Tables) (hi : i ≠ 15) : (replayed tb).files i = tb.files i :=
  update_of_ne hi _ tb.files

theorem replayed_last (hf : ShortFirst tb) :
    ((replayed tb).files 15).used = 0#32 ∧ ((replayed tb).files 15).deleted = 0#32 := by
  rw [show (replayed tb).files 15 = _ from update_self 15 _ tb.files]
  exact hf

theorem Fit.replayed (h : Fit tb) (hf : ShortFirst tb) : Fit (replayed tb) := by
  obtain ⟨hu, hd⟩ := replayed_last hf
  refine ⟨h.named.remove (e := .inl 15) (fun he => by cases he) ?_, fun i hi => ?_⟩
  · funext e
    by_cases he : e = .inl 15
    · subst he
      rw [update_self, entryName, isLive, isUsed, hu]
      rfl
    · rw [update_of_ne he]
      cases e with
      | inl j => simp only [entryName, replayed_ne tb fun hj => he (congrArg Sum.inl hj)]
      | inr j => rfl
  · have h15 : i ≠ 15 := by
      rintro rfl
      exact hi hd
    rw [replayed_ne tb h15] at hi ⊢
    exact h.unlinked i hi

theorem Fit.noAtime (h : Fit tb) (hf : ∀ i, noAtime (tb'.files i) = noAtime (tb.files i))
    (hd : tb'.dirs = tb.dirs) : Fit tb' := by
  have hname := fun i => congrArg FileMeta.name (hf i)
  have hused := fun i => congrArg FileMeta.used (hf i)
  have hdel := fun i => congrArg FileMeta.deleted (hf i)
  simp only [Remount.noAtime] at hname hused hdel
  refine ⟨h.named.congr ?_, fun i hi => ?_⟩
  · funext e
    cases e with
    | inl i => simp only [entryName, isLive, isUsed, hname, hused, hdel]; rfl
    | inr i => simp only [entryName, hd]
  · rw [isUsed, hused, hname]
    exact h.unlinked i (hdel i ▸ hi)

theorem committed_write (hc : Committed d tb) (hs : validSuper d' = true)
    (hk : ∀ a, 1024 ≤ a → a < 7936 → d' a = d a) : Committed d' tb where
  super := hs
  idle := by
    rw [rd32_congr fun x _ _ => hk x (by omega) (by omega)]
    exact hc.idle
  files := by
    rw [← hc.files]
    exact loadFiles_congr fun k _ => hk _ (by omega) (by omega)
  dirs := by
    rw [← hc.dirs]
    exact loadDirs_congr fun k _ => hk _ (by omega) (by omega)

/-- Wherever a commit stops, mounting finds the tables of the commit before, the new ones, or their
replay. -/
theorem mount_crashed (h : Large dev) (hc : Committed d tb) (tb' : Tables) (gen : BitVec 32)
    (pads : Pads) (k : Nat)
    (p : Bool) (r : Ram) : ∃ m, mount dev p r (crash dev ⟨tb', true, gen⟩ pads k d) = some m ∧
      (m.ram.tables = tb ∨ m.ram.tables = replayed tb' ∨ m.ram.tables = tb') := by
  have hload :
      ∃ tb1 g, (fsPersistMount dev p ⟨r.tables, false, 0#32⟩ (crash dev ⟨tb', true, gen⟩ pads k d)).1 =
      ⟨tb1, true, g⟩ ∧ (tb1 = tb ∨ tb1 = replayed tb' ∨ tb1 = tb') := by
    obtain he | ⟨j, he⟩ | he := crash_cases (s := ⟨tb', true, gen⟩) h.fits rfl pads k d
    · exact ⟨_, _, he ▸ mount_before h.fits hc _ _ k p _, .inl rfl⟩
    · exact ⟨_, _, he ▸ mount_during h.fits hc tb' pads gen j p _, .inr (.inl rfl)⟩
    · exact ⟨_, _, he ▸ mount_after h.fits hc rfl p _, .inr (.inr rfl)⟩
  obtain ⟨tb1, g, hload, hcases⟩ := hload
  rw [mount]
  simp only [hload, if_true]
  split
  · exact ⟨_, rfl, hcases⟩
  · exact ⟨_, rfl, hcases⟩

theorem fit_empty : Fit emptyTables := by
  refine ⟨(start_named bootRam).congr ?_, fun _ h => absurd rfl h⟩
  funext e
  cases e with
  | inl | inr => rfl

theorem remounted_sound (h : Large dev) (hm : mount dev p r d = some m) (hfit : Fit m.ram.tables) :
    Slots (remounted m.ram).ram (remounted m.ram).held ∧ ∃ tb, Committed m.disk tb ∧ Fit tb := by
  obtain ⟨tb', hc', hfiles, hdirs⟩ := (mount_synced h hm).tables
  refine ⟨fun i => ⟨?_, fun hi => ?_⟩, tb', hc', hfit.noAtime hfiles hdirs⟩
  · have hrefs : m.ram.refs = fun _ => 0#32 := by
      rw [mount] at hm
      split at hm
      · split at hm <;> cases hm <;> rfl
      · cases hm
    rw [show (remounted m.ram).ram.refs = _ from hrefs]
    exact Nat.zero_le _
  · obtain ⟨hu, hn⟩ := hfit.unlinked i hi
    exact ⟨hu, hn, lt_of_lt_of_eq Nat.one_pos (if_neg hi).symm⟩

theorem Lived.sound (h : Large dev) (hl : Lived dev t d) :
    Fit t.ram.tables ∧ Slots t.ram t.held ∧ ∃ tb, Committed d tb ∧ Fit tb := by
  induction hl with
  | format hm he =>
    have hfit := he ▸ fit_empty
    exact ⟨hfit, remounted_sound h hm hfit⟩
  | @call t t' d o _ hs ih =>
    obtain ⟨hfit, hslots, hdisk⟩ := ih
    have hslots' := step_slots hslots hs
    have hnamed : Named (RamFs.call t.ram o).ram := call_named (r := t.ram) (hfit.named.congr rfl) o
    cases hs
    exact ⟨.of hnamed hslots', hslots', hdisk⟩
  | commit gen pads _ ih =>
    obtain ⟨hfit, hslots, tb, hc, -⟩ := ih
    exact ⟨hfit, hslots, _, committed_after _ pads h.fits hc.super rfl, hfit⟩
  | write _ hs hk ih =>
    obtain ⟨hfit, hslots, tb, hc, htb⟩ := ih
    exact ⟨hfit, hslots, tb, committed_write hc hs hk, htb⟩
  | @reboot t d k p r m gen pads _ hf hm ih =>
    obtain ⟨hfit, -, tb, hc, htb⟩ := ih
    obtain ⟨m', hm', hcases⟩ := mount_crashed h hc t.ram.tables gen pads k p r
    obtain rfl : m' = m := Option.some.inj (hm'.symm.trans hm)
    have hfit' : Fit m'.ram.tables := by
      rcases hcases with he | he | he
      · exact he ▸ htb
      · exact he ▸ hfit.replayed hf
      · exact he ▸ hfit
    exact ⟨hfit', remounted_sound h hm hfit'⟩

theorem Lived.committed (h : Large dev) (hl : Lived dev t d) (gen : BitVec 32) (pads : Pads) :
    Committed (applyAll (persistMeta dev ⟨t.ram.tables, true, gen⟩ pads) d) t.ram.tables := by
  obtain ⟨-, -, tb, hc, -⟩ := hl.sound h
  exact committed_after _ pads h.fits hc.super rfl

/-- Wherever a commit stops, all slots of the mounted image can be used, if and only if no file was
unlinked and still open at this commit or at the one before. -/
theorem mounted_usable_iff (h : Large dev) (hl : Lived dev t d) (hf : ShortFirst t.ram.tables)
    (gen : BitVec 32) (pads : Pads) : ∃ tb, Committed d tb ∧
      ((∀ k p r, ∃ m, mount dev p r (crash dev ⟨t.ram.tables, true, gen⟩ pads k d) = some m ∧
        Usable m.ram) ↔
        ∀ i, (tb.files i).deleted = 0#32 ∧ (t.ram.tables.files i).deleted = 0#32) := by
  obtain ⟨hfit, -, tb, hc, htb⟩ := hl.sound h
  refine ⟨tb, hc, fun hall i => ⟨?_, ?_⟩, fun hdel k p r => ?_⟩
  · obtain ⟨m, hm, hu⟩ := hall 0 false t.ram
    rw [show crash dev ⟨t.ram.tables, true, gen⟩ pads 0 d = d
      from rfl, mount_committed h hc, Option.some.injEq] at hm
    subst hm
    exact (usable_iff htb).mp hu i
  · obtain ⟨m, hm, hu⟩ := hall (persistMeta dev ⟨t.ram.tables, true, gen⟩ pads).length false t.ram
    rw [crash, List.take_length, mount_committed h (hl.committed h gen pads), Option.some.injEq] at hm
    subst hm
    exact (usable_iff hfit).mp hu i
  · obtain ⟨m, hm, hcases⟩ := mount_crashed h hc t.ram.tables gen pads k p r
    refine ⟨m, hm, ?_⟩
    rcases hcases with he | he | he
    · exact (usable_iff (he ▸ htb)).mpr fun i => he ▸ (hdel i).1
    · refine (usable_iff (he ▸ hfit.replayed hf)).mpr fun i => ?_
      rw [he]
      by_cases h15 : i = 15
      · rw [h15]
        exact (replayed_last hf).2
      · rw [replayed_ne _ h15]
        exact (hdel i).2
    · exact (usable_iff (he ▸ hfit)).mpr fun i => he ▸ (hdel i).2

/-- After a file in a directory is committed, it is opened and the directory moved. -/
theorem mounted_usable_tree : ∃ t d, Lived smallDrive t d ∧
    entryName t.ram (.inl 0) = some [101#8, 47#8, 98#8] ∧ t.held 0 = 1 ∧ ∀ k p r, ∃ m,
      mount smallDrive p r (crash smallDrive ⟨t.ram.tables, true, 2#32⟩ zeroPads k d) = some m ∧
      Usable m.ram := by
  have h0 : Lived smallDrive _ _ :=
    .format (show mount smallDrive false bootRam oldDisk = some _ from rfl) rfl
  have h1 := h0.call (.mkdir ⟨[100#8], by decide⟩) rfl
  have h2 := h1.call (.create ⟨[100#8, 47#8, 98#8], by decide⟩ 5#32) rfl
  have h3 := (h2.commit 1#32 zeroPads).call (.ref 0) rfl
  have h4 := h3.call (.renameDir ⟨[100#8], by decide⟩ ⟨[101#8], by decide⟩ (fun _ => 6#32)) rfl
  obtain ⟨tb, hc, hiff⟩ :=
    mounted_usable_iff smallDrive_large h4 ⟨by decide +kernel, by decide +kernel⟩ 2#32 zeroPads
  refine ⟨_, _, h4, by decide +kernel, by decide +kernel, hiff.mpr fun i => ⟨?_, ?_⟩⟩
  · rw [← hc.files, (h2.committed smallDrive_large 1#32 zeroPads).files]
    revert i
    decide +kernel
  · revert i
    decide +kernel

/-- The slot of a file that was unlinked while open is occupied after mounting, and has no name. -/
theorem unlinked_slot_lost : ∃ t d m, Lived smallDrive t d ∧ ShortFirst t.ram.tables ∧
    mount smallDrive false bootRam d = some m ∧ isUsed (m.ram.tables.files 0) = true ∧
    (m.ram.tables.files 0).deleted = 1#32 ∧ m.ram.refs 0 = 0#32 ∧ ¬ Usable m.ram := by
  have h0 : Lived smallDrive _ _ :=
    .format (show mount smallDrive false bootRam oldDisk = some _ from rfl) rfl
  have h1 := ((h0.call (.create nameA 0#32) rfl).call (.ref 0) rfl).call (.delete nameA 0#32) rfl
  refine ⟨_, _, _, h1.commit 1#32 zeroPads, ⟨by decide +kernel, by decide +kernel⟩,
    mount_committed smallDrive_large (h1.committed smallDrive_large 1#32 zeroPads) false bootRam,
    by decide +kernel, by decide +kernel, rfl, fun h => ?_⟩
  obtain ⟨n, -, hn⟩ := h 0 (by decide +kernel)
  exact absurd (entryName_file (fileSlotOf_some hn)).1 (by decide +kernel)

end MuOS.Fs.Orphans
