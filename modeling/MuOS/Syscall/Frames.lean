import MuOS.Fs.Remount
import MuOS.Syscall.FileCalls
import MuOS.Syscall.OpenPerms

namespace MuOS.Syscall.Frames

open Function Lib.Trees Fs Metadata RamFs Names Remount User Fds Descriptors Vfs
  FileCalls List Option

/-- The path of a directory; `none` is the root. -/
def dirPath (r : Ram) : Option (Fin 16) → Option (List Path)
  | none => some []
  | some j => entryParts r (.inr j)

def listing (r : Ram) (D : Option (Fin 16)) (e : Entry) : Option Path :=
  (dirPath r D).bind (fun d => childIn (entryParts r) d e)

def FileKept (r r' : Ram) (i : Fin 16) : Prop :=
  isUsed (r'.tables.files i) = true → isUsed (r.tables.files i) = true ∧
    (r'.tables.files i).size = (r.tables.files i).size ∧ r'.data i = r.data i

def DirKept (r r' : Ram) (D : Option (Fin 16)) : Prop :=
  dirPath r' D ≠ none → listing r' D = listing r D

/-- Files outside `W` and directories not under `N` are kept. -/
structure Spares (W : Fin 16 → Prop) (N : List (List Path)) (r r' : Ram) : Prop where
  named : Named r → Named r'
  files : ∀ i, ¬ W i → FileKept r r' i
  dirs : Named r → ∀ D d, dirPath r D = some d → d ∉ N → DirKept r r' D

structure Leaves (W : Fin 16 → Prop) (r r' : Ram) : Prop where
  names : entryName r' = entryName r
  files : ∀ i, ¬ W i → FileKept r r' i

def Clean (s : Sys) : Prop := 0#8 ∉ s.cwd ∧ ∀ i, 0#8 ∉ (s.fds i).path

structure Frame (W : Fin 16 → Prop) (N : List (List Path)) (s s' : Sys) : Prop where
  clean : Clean s'
  spares : Spares W N s.ram s'.ram

variable {W : Fin 16 → Prop} {N : List (List Path)} {r r' r'' : Ram} {D : Option (Fin 16)}
  {d : List Path} {s s' : Sys} {ctx : Ctx} {op : Op} {slot : Int} {i : Fin 16} {max : Nat}
  {P : Path → Prop}

theorem FileKept.refl (r : Ram) (i : Fin 16) : FileKept r r i := fun hu => ⟨hu, rfl, rfl⟩

theorem FileKept.trans (h : FileKept r r' i) (h' : FileKept r' r'' i) : FileKept r r'' i := by
  intro hu
  obtain ⟨hu', hs', hd'⟩ := h' hu
  obtain ⟨hu, hs, hd⟩ := h hu'
  exact ⟨hu, hs'.trans hs, hd'.trans hd⟩

theorem FileKept.of_eq (hf : r'.tables.files i = r.tables.files i) (hd : r'.data i = r.data i) :
    FileKept r r' i := by
  intro hu
  rw [hf] at hu
  exact ⟨hu, by rw [hf], hd⟩

section

variable (he : entryName r' = entryName r)
include he

theorem entryParts_congr : entryParts r' = entryParts r := by
  funext e
  rw [entryParts, entryParts, he]

theorem dirPath_congr (D : Option (Fin 16)) : dirPath r' D = dirPath r D := by
  cases D with
  | none => rfl
  | some j => rw [dirPath, dirPath, entryParts_congr he]

theorem listing_congr (D : Option (Fin 16)) : listing r' D = listing r D := by
  funext e
  rw [listing, listing, dirPath_congr he, entryParts_congr he]

end

theorem dirPath_dirs (hd : r'.tables.dirs = r.tables.dirs) (D : Option (Fin 16)) :
    dirPath r' D = dirPath r D := by
  cases D with
  | none => rfl
  | some j => simp only [dirPath, entryParts, entryName, hd]

theorem DirKept.update {e : Entry} {v : Option (List Path)}
    (he : entryParts r' = update (entryParts r) e v)
    (hD : dirPath r D = some d) (hself : ∀ j, D = some j → e = .inr j → v = none)
    (hold : ∀ p, entryParts r e = some p → p.dropLast ≠ d)
    (hnew : ∀ p, v = some p → p.dropLast ≠ d) : DirKept r r' D := by
  intro hlive
  have hpath : dirPath r' D = some d := by
    rw [← hD]
    cases D with
    | none => rfl
    | some j =>
      rw [dirPath, dirPath, he]
      refine update_of_ne ?_ ..
      rintro rfl
      rw [dirPath, he, update_self, hself j rfl rfl] at hlive
      exact hlive rfl
  funext e'
  rw [listing, listing, hpath, hD, he, bind_some, bind_some, childIn_update hold hnew]

theorem dirPath_graft {old new : List Path} (hold : old ≠ [])
    (he : entryParts r' = fun e => (entryParts r e).map (graft old new))
    (hD : dirPath r D = some d) : dirPath r' D = some (graft old new d) := by
  cases D with
  | none =>
    cases hD
    rw [graft_other fun hp => hold (prefix_nil.mp hp)]
    rfl
  | some j =>
    rw [dirPath, he]
    show (dirPath r (some j)).map _ = _
    rw [hD]
    rfl

theorem dirPath_spec (hD : dirPath r D = some d) : d = [] ∨ ∃ e, entryParts r e = some d := by
  cases D with
  | none => exact .inl (some.inj hD).symm
  | some j => exact .inr ⟨.inr j, hD⟩

theorem change_keeps {ds : List (List Path)} (hc : NameChange r r' ds) (hn : Named r)
    (hD : dirPath r D = some d) (hd : d ∉ ds) : DirKept r r' D := by
  cases hc with
  | same he => exact fun _ => listing_congr he D
  | add e path par base hfree hnew hs hdir he =>
    have hnone : entryParts r e = none := by rw [entryParts, hfree]; rfl
    refine .update (entryParts_update he) hD ?_ ?_ ?_
    · rintro j rfl rfl
      rw [dirPath, hnone] at hD
      cases hD
    · intro p hp
      cases hnone.symm.trans hp
    · intro p hp
      cases hp
      exact fun h => hd (mem_singleton.mpr h.symm)
  | remove e p hp hin he =>
    refine .update (entryParts_update he) hD (fun _ _ _ => rfl) ?_ fun p hp => by cases hp
    intro q hq
    rw [entryParts, hp] at hq
    cases hq
    exact fun h => hd (mem_singleton.mpr h.symm)
  | move i p path par base hp hnew hs hdir he =>
    simp only [mem_cons, not_mem_nil, or_false, not_or] at hd
    refine .update (entryParts_update he) hD (fun j _ h => by cases h) ?_ ?_
    · intro q hq
      rw [entryParts, hp] at hq
      cases hq
      exact fun h => hd.1 h.symm
    · intro q hq
      cases hq
      exact fun h => hd.2 h.symm
  | graft old new par base hs hdir hfresh hunder he hformed =>
    simp only [mem_cons, not_mem_nil, or_false, not_or] at hd
    have hp := entryParts_graft he
    intro _
    funext e
    rw [listing, listing, dirPath_graft (parts_ne_nil slash old) hp hD, hD, hp, bind_some, bind_some,
      childIn_graft hn.rooted (parts_ne_nil slash new) (fun e => entryParts_ne (hfresh e))
        (dirPath_spec hD) (Ne.symm hd.1) (Ne.symm hd.2)]

theorem Leaves.refl (W : Fin 16 → Prop) (r : Ram) : Leaves W r r := ⟨rfl, fun i _ => .refl r i⟩

theorem Leaves.trans (h : Leaves W r r') (h' : Leaves W r' r'') : Leaves W r r'' :=
  ⟨h'.names.trans h.names, fun i hi => (h.files i hi).trans (h'.files i hi)⟩

theorem Leaves.spares (h : Leaves W r r') (N : List (List Path)) : Spares W N r r' :=
  ⟨fun hn => hn.congr h.names, h.files, fun _ D _ _ _ _ => listing_congr h.names D⟩

theorem Spares.refl (W : Fin 16 → Prop) (N : List (List Path)) (r : Ram) : Spares W N r r :=
  (Leaves.refl W r).spares N

theorem Spares.trans (h : Spares W N r r') (h' : Spares W N r' r'')
    (hpath : ∀ D d, dirPath r' D = some d → dirPath r D = some d)
    (hlive : ∀ D, dirPath r'' D ≠ none → dirPath r' D ≠ none) : Spares W N r r'' := by
  refine ⟨fun hn => h'.named (h.named hn), fun i hi => (h.files i hi).trans (h'.files i hi), ?_⟩
  intro hn D d hD hd hl
  obtain ⟨d', hd'⟩ := ne_none_iff_exists'.mp (hlive D hl)
  have he : d' = d := some.inj ((hpath D d' hd').symm.trans hD)
  rw [h'.dirs (h.named hn) D d' hd' (he ▸ hd) hl, h.dirs hn D d hD hd (hlive D hl)]

theorem Spares.then (h : Spares W N r r') (h' : Leaves W r' r'') : Spares W N r r'' := by
  refine ⟨fun hn => (h.named hn).congr h'.names,
    fun i hi => (h.files i hi).trans (h'.files i hi), ?_⟩
  intro hn D d hD hd hl
  rw [listing_congr h'.names, h.dirs hn D d hD hd (dirPath_congr h'.names D ▸ hl)]

theorem call_files (ht : ∀ i, target r op = some i → W i)
    (hc : ∀ path now, op = .create path now → ∀ i, isUsed (r.tables.files i) = false → W i)
    (i : Fin 16) (hi : ¬ W i) : FileKept r (call r op).ram i := by
  cases call_effect r op with
  | touched hw hd hf hdir =>
    intro hu
    have hfile := hf i
    have hused : ((call r op).ram.tables.files i).used = (r.tables.files i).used := by
      have hs := congrArg FileMeta.used hfile
      exact hs
    have hsize : ((call r op).ram.tables.files i).size = (r.tables.files i).size := by
      have hs := congrArg FileMeta.size hfile
      exact hs
    rw [isUsed, hused] at hu
    exact ⟨hu, hsize, by rw [hd]⟩
  | renamed hw hd hf =>
    intro hu
    exact ⟨(hf i hu).1, (hf i hu).2, by rw [hd]⟩
  | rewritten k hw hd hf hk =>
    have hne : i ≠ k := by
      rintro rfl
      rcases hk with hk | ⟨⟨path, now, ho⟩, hfree⟩
      · exact hi (ht i hk)
      · exact hi (hc path now ho i hfree)
    exact .of_eq (hf i hne) (hd i hne)
  | extended fd offset src len now k ho hoff hk hw hd hf hs =>
    have hne : i ≠ k := by
      rintro rfl
      exact hi (ht i (by rw [ho]; exact hk))
    exact .of_eq (hf i hne) (by rw [hd, update_of_ne hne])

theorem call_spares (op : Op) (ht : ∀ i, target r op = some i → W i)
    (hc : ∀ path now, op = .create path now → ∀ i, isUsed (r.tables.files i) = false → W i)
    (hN : touchedDirs r op ⊆ N) : Spares W N r (call r op).ram := by
  obtain ⟨ds, hsub, hch⟩ := call_changes r op
  exact ⟨hch.named, call_files ht hc, fun hn D d hD hd => change_keeps hch hn hD
    fun h => hd (hN (hsub h))⟩

theorem call_leaves (op : Op) (ht : ∀ i, target r op = some i → W i) (hN : touchedDirs r op = []) :
    Leaves W r (call r op).ram := by
  obtain ⟨ds, hsub, hch⟩ := call_changes r op
  rw [hN, subset_nil] at hsub
  subst hsub
  refine ⟨?_, call_files ht ?_⟩
  · cases hch with
    | same he => exact he
  · rintro path now rfl
    exact absurd hN (by simp [touchedDirs])

section

variable {buf p t : Path} {n : Except Nat Node} {u : UserString} {dirfd : Int} {x : BitVec 8}

theorem vfsLookup_path (h : vfsLookup ctx s buf = .ok (p, n)) : vfsNormalize s.cwd buf = .ok p := by
  rw [vfsLookup] at h
  split at h
  · cases h
  rename_i q hq
  simp only [Except.ok.injEq, Prod.mk.injEq] at h
  rw [hq, h.1]

theorem mem_cutLast (h : x ∈ cutLast t) : x ∈ t := by
  rw [cutLast, mem_reverse] at h
  have hd := (dropWhile_sublist _).subset (mem_of_mem_drop h)
  exact mem_reverse.mp hd

theorem walkParts_keeps {cs : List Path} (hcut : ∀ t, P t → P (cutLast t))
    (hadd : ∀ t c, c ∈ cs → P t → P (t ++ slash :: c)) (ht : P t)
    (h : walkParts t cs = .ok p) : P p := by
  induction cs generalizing t with
  | nil =>
    cases h
    exact ht
  | cons c cs ih =>
    have hrest : ∀ t c, c ∈ cs → P t → P (t ++ slash :: c) := fun t c hc => hadd t c (mem_cons_of_mem _ hc)
    rw [walkParts] at h
    split at h
    · exact ih hrest ht h
    split at h
    · exact ih hrest (hcut t ht) h
    split at h
    · cases h
    · exact ih hrest (hadd t c mem_cons_self ht) h

theorem vfsNormalize_keeps {cwd : Path} (h0 : P []) (h1 : P [slash])
    (hcwd : cwd.head? = some slash → P cwd) (hcut : ∀ t, P t → P (cutLast t))
    (hadd : ∀ t c, c ∈ components buf → P t → P (t ++ slash :: c))
    (h : vfsNormalize cwd buf = .ok p) : P p ∧ p ≠ [] := by
  rw [vfsNormalize] at h
  split at h
  · cases h
  rename_i t ht
  have hstart : P t := by
    rw [startAt] at ht
    split at ht
    · rename_i hc
      split at ht
      · cases ht
      cases ht
      exact hcwd hc.2.1
    · cases ht
      exact h0
  split at h
  · cases h
  rename_i q hq
  split at h
  · cases h
    exact ⟨h1, cons_ne_nil _ _⟩
  rename_i hne
  split at h
  · cases h
  cases h
  exact ⟨walkParts_keeps hcut hadd hstart hq, hne⟩

theorem vfsNormalize_clean (hc : 0#8 ∉ s.cwd) (hb : 0#8 ∉ buf)
    (h : vfsNormalize s.cwd buf = .ok p) : 0#8 ∉ p := by
  refine (vfsNormalize_keeps (P := fun t => 0#8 ∉ t) not_mem_nil (by decide) (fun _ => hc)
    (fun t ht hx => ht (mem_cutLast hx)) (fun t c hcc ht => ?_) h).1
  have hclean : 0#8 ∉ c := fun hx => hb (mem_of_mem_parts (mem_of_mem_filter hcc) hx)
  simp only [mem_append, mem_cons, not_or]
  exact ⟨ht, by decide, hclean⟩

theorem copyUserString_clean (h : copyUserString u max = some buf) : 0#8 ∉ buf := by
  obtain ⟨c, -, rfl⟩ := map_eq_some_iff.mp h
  exact fun hx => c.no_nul (mem_of_mem_take hx)

theorem plainPath_clean (h : plainPath u = .ok buf) : 0#8 ∉ buf := by
  rw [plainPath] at h
  split at h
  · cases h
  rename_i b hb
  cases h
  exact copyUserString_clean hb

theorem userFdDirPath_clean (hc : Clean s) (fd : Int) : 0#8 ∉ userFdDirPath s.fds fd := by
  rw [userFdDirPath]
  split
  · cases descIndex fd with
    | none => exact not_mem_nil
    | some i => exact hc.2 i
  · exact not_mem_nil

theorem atResolveRaw_clean (hc : Clean s) {raw : Path} (hr : 0#8 ∉ raw)
    (h : atResolveRaw s dirfd raw max = .ok buf) : 0#8 ∉ buf := by
  rw [atResolveRaw] at h
  split at h
  · split at h
    · cases h
    cases h
    exact hr
  split at h
  · cases h
  split at h
  · cases h
  simp only at h
  split at h
  · cases h
  cases h
  simp only [mem_append, mem_cons, not_or]
  exact ⟨userFdDirPath_clean hc dirfd, by decide, hr⟩

theorem atPath_clean (hc : Clean s) (h : atPath s dirfd u max = .ok buf) : 0#8 ∉ buf := by
  rw [atPath] at h
  split at h
  · cases h
  · cases h
  · rename_i raw _ hraw
    exact atResolveRaw_clean hc (copyUserString_clean hraw) h

theorem vfsLookup_clean (hc : Clean s) (hb : 0#8 ∉ buf) (h : vfsLookup ctx s buf = .ok (p, n)) :
    0#8 ∉ p.drop 1 :=
  fun hx => vfsNormalize_clean hc.1 hb (vfsLookup_path h) (mem_of_mem_drop hx)

end

section

variable {fd : Int} {de : Desc} {t : Table}

section

variable (hc : Clean s)
include hc

theorem Frame.refl : Frame W N s s := ⟨hc, .refl W N s.ram⟩

theorem Frame.fds (ht : ∀ i, 0#8 ∉ (t i).path) : Frame W N s { s with fds := t } :=
  ⟨⟨hc.1, ht⟩, .refl W N s.ram⟩

theorem Frame.ram (h : Spares W N s.ram r) : Frame W N s { s with ram := r } := ⟨hc, h⟩

theorem setDesc_clean (hd : 0#8 ∉ de.path) (k i : Fin 11) : 0#8 ∉ (setDesc s.fds k de i).path := by
  by_cases hi : i = k
  · rw [hi, setDesc_self]
    exact hd
  · rw [setDesc_ne hi]
    exact hc.2 i

theorem fdAllocWith_clean (hd : 0#8 ∉ de.path) {k : Fin 11}
    (h : fdAllocWith s.fds de = some (k, t)) : ∀ i, 0#8 ∉ (t i).path := by
  obtain ⟨j, -, he⟩ := map_eq_some_iff.mp h
  simp only [Prod.mk.injEq] at he
  rw [← he.2]
  exact setDesc_clean hc hd j

theorem setOffset_clean (fd : Int) (off : BitVec 32) (i : Fin 11) :
    0#8 ∉ (userFdSetOffset s.fds fd off i).path := by
  obtain ⟨o, ho⟩ := setOffset_entry s.fds fd off i
  rw [ho]
  exact hc.2 i

end

theorem setOffset_slot (t : Table) (fd : Int) (off : BitVec 32) (k : Int) :
    userFdSlot (entries (userFdSetOffset t fd off)) k = userFdSlot (entries t) k := by
  cases hk : descIndex k with
  | none => simp only [userFdSlot, descIndex_none hk]
  | some i =>
    obtain ⟨o, ho⟩ := setOffset_entry t fd off i
    rw [userFdSlot_entries hk, userFdSlot_entries hk, ho]

theorem onPath_frame {p : Except Nat Path} {f : Path → Done} (hc : Clean s)
    (h : ∀ buf, p = .ok buf → Frame W N s (f buf).sys) : Frame W N s (onPath s p f).sys := by
  cases p with
  | error e => exact .refl hc
  | ok buf => exact h buf rfl

theorem onNode_frame {buf : Path} {f : Path → Node → Done} (hc : Clean s)
    (h : ∀ p node, vfsLookup ctx s buf = .ok (p, .ok node) → Frame W N s (f p node).sys) :
    Frame W N s (onNode ctx s buf f).sys := by
  rw [onNode]
  split
  · exact .refl hc
  · exact .refl hc
  · rename_i p node hl
    exact h p node hl

theorem fromRam_frame {out : Outcome} {code : Nat} (hc : Clean s) (h : Spares W N s.ram out.ram) :
    Frame W N s (fromRam s out code).sys := by
  rw [fromRam]
  split
  · exact .ram hc h
  · exact .refl hc

theorem openDesc_frame (hc : Clean s) (hd : 0#8 ∉ de.path) : Frame W N s (openDesc s de).sys := by
  rw [openDesc]
  split
  · exact .refl hc
  rename_i k t ht
  exact .fds hc (fdAllocWith_clean hc hd ht)

theorem ref_leaves (W : Fin 16 → Prop) (r : Ram) (slot : Int) : Leaves W r (fsRef r slot).ram :=
  call_leaves (.ref slot) (fun _ h => absurd h (by simp [target])) rfl

theorem openSlotDesc_frame (h : Frame W N s s') (i : Fin 16) :
    Frame W N s (openSlotDesc s' i).sys := by
  rw [openSlotDesc]
  split
  · exact h
  rename_i k t ht
  exact ⟨⟨h.clean.1, fdAllocWith_clean h.clean not_mem_nil ht⟩,
    h.spares.then (ref_leaves W s'.ram i.val)⟩

theorem unrefFile_leaves (W : Fin 16 → Prop) (r : Ram) (de : Desc) :
    Leaves W r (unrefFile r de) := by
  rw [unrefFile]
  split
  · exact call_leaves (.unref de.fsSlot) (fun _ h => absurd h (by simp [target])) rfl
  · exact .refl W r

theorem refFile_leaves (W : Fin 16 → Prop) (r : Ram) (de : Desc) : Leaves W r (refFile r de) := by
  rw [refFile]
  split
  · exact ref_leaves W r de.fsSlot
  · exact .refl W r

theorem close_frame (hc : Clean s) : Frame W N s (doClose s fd).sys := by
  simp only [doClose, userFdClose]
  split
  · exact .refl hc
  split
  · exact .refl hc
  rename_i i hi
  exact ⟨⟨hc.1, setDesc_clean hc not_mem_nil i⟩, (unrefFile_leaves W s.ram _).spares N⟩

theorem dup_frame (hc : Clean s) : Frame W N s (doDup s fd).sys := by
  rw [doDup]
  split
  · exact .refl hc
  cases h : userFdDup s fd with
  | none => exact .refl hc
  | some out =>
    simp only [userFdDup] at h
    split at h
    · cases h
    rename_i i hi
    split at h
    · cases h
    split at h
    · cases h
    rename_i k hk
    cases h
    exact ⟨⟨hc.1, setDesc_clean hc (hc.2 i) k⟩, (refFile_leaves W s.ram _).spares N⟩

theorem dup2_frame (hc : Clean s) (old new : Int) : Frame W N s (userFdDup2 s old new).sys := by
  rw [userFdDup2]
  split
  · rename_i i j _ _
    split
    · exact .refl hc
    split
    · exact .refl hc
    exact ⟨⟨hc.1, setDesc_clean hc (hc.2 i) j⟩,
      ((unrefFile_leaves W s.ram _).trans (refFile_leaves W _ _)).spares N⟩
  · exact .refl hc

theorem pipe_frame (hc : Clean s) (ok : Bool) : Frame W N s (doPipe s ctx ok).sys := by
  rw [doPipe]
  split
  · exact .refl hc
  split
  · exact .refl hc
  split
  · exact .refl hc
  rename_i rfd t ht
  have hclean : Clean { s with fds := t } := ⟨hc.1, fdAllocWith_clean hc not_mem_nil ht⟩
  split
  · exact .fds hc (setDesc_clean hclean not_mem_nil rfd)
  rename_i k t' ht'
  exact .fds hc (fdAllocWith_clean hclean not_mem_nil ht')

variable {bs : List (BitVec 8)}

/-- At most the file of that slot changes, and no slot of a descriptor. -/
structure Moves (slot : Int) (s s' : Sys) : Prop where
  clean : Clean s'
  ram : Leaves (fun i => slot = i.val) s.ram s'.ram
  slots : ∀ k, userFdSlot (entries s'.fds) k = userFdSlot (entries s.fds) k

theorem Moves.refl (hc : Clean s) (slot : Int) : Moves slot s s := ⟨hc, .refl _ _, fun _ => rfl⟩

theorem Moves.trans {s'' : Sys} (h : Moves slot s s') (h' : Moves slot s' s'') : Moves slot s s'' :=
  ⟨h'.clean, h.ram.trans h'.ram, fun k => (h'.slots k).trans (h.slots k)⟩

theorem Moves.offset (hc : Clean s) (fd : Int) (off : BitVec 32) :
    Moves slot s { s with fds := userFdSetOffset s.fds fd off } :=
  ⟨⟨hc.1, setOffset_clean hc fd off⟩, .refl _ _, setOffset_slot s.fds fd off⟩

theorem Moves.frame (h : Moves slot s s') (hW : ∀ i : Fin 16, slot = i.val → W i) :
    Frame W N s s' :=
  ⟨h.clean, Leaves.spares ⟨h.ram.names, fun i hi => h.ram.files i fun hs => hi (hW i hs)⟩ N⟩

theorem openSlot_val (h : openSlot r fd = some i) : fd = i.val := (openSlot_spec h).2

theorem touch_leaves (W : Fin 16 → Prop) (r : Ram) (slot : Int) (off : Nat) (now : BitVec 32) :
    Leaves W r (fsReadAtTouch r slot off now) :=
  call_leaves (.readAt slot off 0 now) (fun _ h => absurd h (by simp [target])) rfl

theorem writeFile_moves {now : BitVec 32} {n : Int} (hc : Clean s)
    (h : writeFile s fd bs now = some (n, s')) : Moves (userFdSlot (entries s.fds) fd) s s' := by
  simp only [writeFile] at h
  split at h
  · cases h
  split at h
  · cases h
  simp only [some.injEq, Prod.mk.injEq] at h
  rw [← h.2]
  have hl := call_leaves (r := s.ram)
    (.writeAt (userFdSlot (entries s.fds) fd) (userFdOffset s.fds fd).toNat
    (bytesMem bs) bs.length now) (fun i hi => openSlot_val hi) rfl
  exact ⟨⟨hc.1, setOffset_clean hc fd _⟩, hl, setOffset_slot s.fds fd _⟩

theorem diskIo_moves (slot : Int) (hc : Clean s) (count : Nat) :
    Moves slot s (diskIo ctx s fd count).sys := by
  simp only [diskIo]
  split
  · exact .refl hc slot
  · exact .offset hc fd _

theorem doWriteAs_moves (ctx : Ctx) (hc : Clean s) (kind : FdKind) (fd : Int)
    (bs : List (BitVec 8)) :
    Moves (userFdSlot (entries s.fds) fd) s (doWriteAs ctx s kind fd bs).sys := by
  cases kind with
  | file =>
    simp only [doWriteAs]
    split
    · exact .refl hc _
    rename_i hw
    exact writeFile_moves hc hw
  | devAta => exact diskIo_moves _ hc _
  | _ => exact .refl hc _

theorem write_moves (ctx : Ctx) (hc : Clean s) (fd : Int) (buf : UserBytes) :
    Moves (userFdSlot (entries s.fds) fd) s (doWrite ctx s fd buf).sys := by
  rw [doWrite.eq_def]
  split
  · exact .refl hc _
  · exact .refl hc _
  split
  · exact .refl hc _
  · exact doWriteAs_moves ctx hc _ fd _

theorem writev_moves (ctx : Ctx) (hc : Clean s) (fd total : Int) (bufs : List UserBytes) :
    Moves (userFdSlot (entries s.fds) fd) s (doWritev ctx fd s total bufs).sys := by
  induction bufs generalizing s total with
  | nil => exact .refl hc _
  | cons b bufs ih =>
    have hw := write_moves ctx hc fd b
    rw [doWritev]
    split
    · exact hw
    have hrest := ih hw.clean (total + (doWrite ctx s fd b).rc)
    rw [hw.slots fd] at hrest
    exact hw.trans hrest

theorem read_frame (hc : Clean s) (count : Nat) (ok : Bool) :
    Frame W N s (doRead ctx s fd count ok).sys := by
  rw [doRead]
  split
  · exact .refl hc
  split
  · exact .refl hc
  simp only
  split
  case h_1 =>
    split
    · exact .refl hc
    · exact ⟨⟨hc.1, setOffset_clean hc fd _⟩, (touch_leaves W s.ram ..).spares N⟩
  case h_2 => exact .fds hc (setOffset_clean hc fd _)
  case h_5 => exact (diskIo_moves (-1) hc count).frame fun i hi => absurd hi (by omega)
  all_goals exact .refl hc

theorem seekTo_frame (hc : Clean s) (pos rc : Int) : Frame W N s (seekTo s fd pos rc).sys := by
  rw [seekTo]
  split
  · exact .refl hc
  · exact .fds hc (setOffset_clean hc fd _)

theorem lseek_frame (hc : Clean s) (offset : BitVec 32) (whence : Nat) :
    Frame W N s (doLseek ctx s fd offset whence).sys := by
  rw [doLseek]
  split
  · exact .refl hc
  split
  · exact .refl hc
  · exact seekTo_frame hc _ _

theorem llseek_frame (hc : Clean s) (lo hi : BitVec 32) (ok : Bool) (whence : Nat) :
    Frame W N s (doLlseek ctx s fd lo hi ok whence).sys := by
  rw [doLlseek]
  split
  · exact .refl hc
  split
  · exact .refl hc
  split
  · exact .refl hc
  · exact seekTo_frame hc _ _

theorem kbufWrite_moves (ctx : Ctx) (hc : Clean s) (fd : Int) (bs : List (BitVec 8))
    (now : BitVec 32) : Moves (userFdSlot (entries s.fds) fd) s (kbufWrite ctx s fd bs now).2 := by
  rw [kbufWrite]
  split
  case h_1 =>
    split
    · exact .refl hc _
    rename_i hw
    exact writeFile_moves hc hw
  all_goals exact .refl hc _

theorem sendLoop_moves (ctx : Ctx) (hc : Clean s) (out slot : Int) (fuel total : Nat)
    (off : BitVec 32) (count : Nat) :
    Moves (userFdSlot (entries s.fds) out) s
    (sendLoop ctx out slot fuel total s off count).2.1 := by
  induction fuel generalizing s total off with
  | zero => exact .refl hc _
  | succ fuel ih =>
    have htouch : Moves (userFdSlot (entries s.fds) out) s
        { s with ram := fsReadAtTouch s.ram slot off.toNat (ctx.clock (2 * fuel)) } :=
      ⟨hc, touch_leaves _ s.ram slot off.toNat _, fun _ => rfl⟩
    rw [sendLoop]
    split
    · exact .refl hc _
    simp only
    split
    · exact htouch
    have hw := htouch.trans (kbufWrite_moves ctx htouch.clean out
      (fsReadAt s.ram slot off.toNat (min (count - total) 4096)).2 (ctx.clock (2 * fuel + 1)))
    split
    · exact hw
    split
    · exact hw
    refine hw.trans ?_
    rw [← hw.slots out]
    exact ih hw.clean _ _

theorem sendfile_moves (hc : Clean s) (out inp : Int) (offset : Option (Option (BitVec 32)))
    (count : Nat) :
    Moves (userFdSlot (entries s.fds) out) s (doSendfile ctx s out inp offset count).sys := by
  simp only [doSendfile.eq_def]
  split
  · exact .refl hc _
  split
  · exact .refl hc _
  · exact sendLoop_moves ctx hc out _ count 0 _ count
  have hl := sendLoop_moves ctx hc out (userFdSlot (entries s.fds) inp) count 0
    (userFdOffset s.fds inp) count
  split
  · exact hl
  · exact hl.trans (.offset hl.clean inp _)

theorem ftruncate_moves (hc : Clean s) (len : Nat) :
    Moves (userFdSlot (entries s.fds) fd) s (doFtruncate ctx s fd len).sys := by
  rw [doFtruncate]
  split
  · exact .refl hc _
  · simp only
    split
    · exact .refl hc _
    split
    · exact ⟨hc, call_leaves (.truncate (userFdSlot (entries s.fds) fd) len (ctx.clock 0))
        (fun i hi => openSlot_val hi) rfl, fun _ => rfl⟩
    · exact .refl hc _
  · exact .refl hc _

end

end MuOS.Syscall.Frames
