import MuOS.Syscall.Attributes

namespace MuOS.Syscall.Shadows

open Lib CStrings Runs Fs RamFs Names Vfs FileCalls OpenPerms Frames Mutations Failures Attributes

variable {ctx : Ctx} {s : Sys} {n p buf : Path} {e : Entry}

theorem resolve_unshadowed (hp : p ≠ [slash]) (h : Unshadowed p) (r : Ram) :
    resolve ctx r p = lookupRam r (p.drop 1) := by
  simp only [Unshadowed, virtualDirs, List.forall_mem_cons] at h
  simp [resolve, hp, h]

theorem lookupRam_entry (hn : Named s.ram) (he : entryName s.ram e = some n) :
    lookupRam s.ram n = .ok (e.elim .file (fun _ => .realDir)) := by
  rw [lookupRam]
  cases e with
  | inr j => exact if_pos (dirExists_iff.mpr (.inr ⟨j, he⟩))
  | inl i =>
    have hd : ¬ dirExists s.ram n = true := by
      rw [dirExists_iff]
      rintro (hnil | ⟨j, hj⟩)
      · exact (hn.formed _ n he).ne_nil hnil
      · cases hn.distinct he hj
    rw [if_neg hd]
    cases hf : fileSlotOf s.ram n with
    | none => exact absurd he (fileSlotOf_none hf i)
    | some k =>
      cases hn.distinct (fileSlotOf_some hf) he
      rfl

theorem aimed_name (h : aimed ctx s buf = some e) :
    ∃ p, vfsNormalize s.cwd buf = .ok p ∧ Unshadowed p ∧ entryName s.ram e = some (p.drop 1) := by
  rw [aimed] at h
  split at h
  · rename_i p i hl
    cases h
    have hr := vfsLookup_ok hl
    exact ⟨p, vfsLookup_path hl, (resolve_ram hr rfl).1.2, fileSlotOf_some (resolve_file hr).2⟩
  · rename_i p hl
    obtain ⟨j, hj, rfl⟩ := Option.map_eq_some_iff.mp h
    exact ⟨p, vfsLookup_path hl, (resolve_ram (vfsLookup_ok hl) rfl).1.2, dirSlotOf_some hj⟩
  · cases h

theorem lookup_named (hn : Named s.ram) (he : entryName s.ram e = some n) :
    aimed ctx s (slash :: n) = some e ↔ vfsNormalize s.cwd (slash :: n) = .ok (slash :: n) ∧
    Unshadowed (slash :: n) := by
  constructor
  · intro h
    obtain ⟨p, hp, hu, hname⟩ := aimed_name h
    obtain ⟨rest, rfl⟩ := vfsNormalize_absolute hp
    cases he.symm.trans hname
    exact ⟨hp, hu⟩
  · rintro ⟨hp, hu⟩
    have hne : slash :: n ≠ [slash] := fun h => (hn.formed e n he).ne_nil (List.cons.inj h).2
    have hr : resolve ctx s.ram (slash :: n) = _ :=
      (resolve_unshadowed hne hu s.ram).trans (lookupRam_entry hn he)
    rw [aimed, vfsLookup, hp]
    cases e with
    | inl i => simp [hr]
    | inr j => simp [hr, dirSlotOf_eq hn he]

theorem calls_named {acts : List (Ctx × FsCall)} {s' : Sys} (hn : Named s.ram) (hc : Clean s)
    (h : run Mutations.step s acts = some s') : Named s'.ram := by
  refine (run_invariant (I := fun s => Named s.ram ∧ Clean s) ?_ ⟨hn, hc⟩ h).1
  rintro s a s' ⟨hn, hc⟩ hs
  cases hs
  have hf := fsCall_frame a.1 hc a.2
  exact ⟨hf.spares.named hn, hf.clean⟩

/-- Whatever calls have been made, lookup of a slash and a name finds what has the name if and only
if that is a normal path which no virtual directory shadows. -/
theorem lookup_finds_iff {r : Ram} {ops : List Op} {t : Tracked}
    (ht : run Fs.Names.step (start r) ops = some t)
    (cwd : CString) {acts : List (Ctx × FsCall)}
    (hs : run Mutations.step (entering t.ram cwd) acts = some s)
    (he : entryName s.ram e = some n) (ctx : Ctx) :
    aimed ctx s (slash :: n) = some e ↔ vfsNormalize s.cwd (slash :: n) = .ok (slash :: n) ∧
    Unshadowed (slash :: n) :=
  lookup_named (calls_named (tracked_named ht) (entering_clean t.ram cwd) hs) he

def homeBin : CString := ⟨ascii ['h', '/', 'b', 'i', 'n'], by decide⟩

def nameUsr : CString := ⟨ascii ['u', 's', 'r'], by decide⟩

/-- A directory with a file "bin" in it becomes `/usr`. -/
def usrCalls : List (Ctx × FsCall) :=
  [(superUser, .mkdir (some homeName)), (superUser, .open (some homeBin) oCREAT),
    (superUser, .rename (some homeName) (some nameUsr))]

def usrState : Sys :=
  (run Mutations.step (entering (start bootRam).ram rootDir) usrCalls).getD fullSys

theorem lookup_finds_usr : aimed superUser usrState (slash :: nameUsr.chars) = some (.inr 0) := by
  have hs :
    run Mutations.step (entering (start bootRam).ram rootDir) usrCalls = some usrState := rfl
  have ht : run Fs.Names.step (start bootRam) [] = some (start bootRam) := rfl
  refine (lookup_finds_iff ht rootDir hs ?_ superUser).mpr ⟨rfl, ?_⟩
  · decide +kernel
  · unfold Unshadowed
    decide +kernel

/-- The file is there as `usr/bin`, and lookup finds the directory of programs. -/
theorem usr_bin_shadowed :
    entryName usrState.ram (.inl 0) = some (ascii ['u', 's', 'r', '/', 'b', 'i', 'n']) ∧
    (vfsLookup superUser usrState dirUsrBin).toOption = some (dirUsrBin, .ok .usrBinDir) := by
  decide +kernel

end MuOS.Syscall.Shadows
