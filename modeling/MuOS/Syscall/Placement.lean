import MuOS.Syscall.Arena
import MuOS.User.Exec

namespace MuOS.Syscall.Placement

open Lib Runs Spans Accesses User Window Elf ElfBounds Exec Fs.RamFs Mmap Arena List Nat

structure Starts (p : Program) (b : Brk) : Prop where
  base : b.base = newBreak p
  current : b.current = newBreak p

def interpSegments (p : Program) : List Span := p.interp.elim [] (fun x => segments x.1 x.2.base)

/-- The program, its interpreter, what was granted, and the stack. -/
def areas (image : Image) (p : Program) (h : Handed) : List (List Span) :=
  [segments image p.info.base, interpSegments p, h.mapped ++ h.heap, [⟨arenaEnd, userEnd⟩]]

def Separated (as : List (List Span)) : Prop := as.Pairwise (fun a b => ∀ s ∈ a, ∀ t ∈ b, Apart s t)

def Stops (top : Nat) (s : Handed) (req : Request) : Prop :=
  ∀ s', step s req = some s' → s'.brk.current ≤ top

section

variable {s s' : Handed} {b : Brk} {e : Surroundings} {call : Mmap.Call} {req : Request}
  {reqs : List Request} {top : Nat}

theorem sysMmap_brk (e : Surroundings) (b : Brk) (call : Mmap.Call) :
    (sysMmap (e.ctx b) call).brk = b ∨
    ∃ len start, userMmapAnon b len = some (start, (sysMmap (e.ctx b) call).brk) := by
  simp only [sysMmap]
  cases hd : decode (e.ctx b) call with
  | error err => exact .inl rfl
  | ok a =>
    simp only [doMmap]
    split
    · exact .inl rfl
    split
    · exact .inl rfl
    cases hp : place (e.ctx b) a (alignUpPage a.len.toNat) with
    | error err => exact .inl rfl
    | ok w =>
      obtain ⟨start, b', ws⟩ := w
      have hb : b' = b ∨ ∃ len start, userMmapAnon b len = some (start, b') := by
        rw [place] at hp
        split at hp
        · split at hp
          · cases hp
          split at hp
          · cases hp
          cases hp
          exact .inl rfl
        · split at hp
          · cases hp
          rename_i hm
          cases hp
          exact .inr ⟨_, _, hm⟩
      simp only
      split
      · exact hb
      · exact hb

theorem userMmapAnon_base {b' : Brk} {len start : Nat} (h : userMmapAnon b len = some (start, b')) :
    b'.base = b.base := by
  simp only [userMmapAnon] at h
  split at h
  · cases h
  split at h
  · cases h
  split at h
  · cases h
  cases h
  rfl

theorem sysBrk_brk (b : Brk) (addr : BitVec 32) :
    (sysBrk b addr).2 = b ∨ userSetBrk b addr.toNat = some (sysBrk b addr).2 := by
  rw [sysBrk]
  split
  · exact .inl rfl
  split
  · exact .inl rfl
  rename_i hb
  exact .inr hb

theorem userSetBrk_spec {b' : Brk} {addr : Nat} (h : userSetBrk b addr = some b') :
    b'.base = b.base ∧ b'.current ≤ arenaEnd := by
  rw [userSetBrk] at h
  split at h
  · cases h
  cases h
  exact ⟨rfl, by dsimp only; omega⟩

theorem step_brk (h : step s req = some s') :
    s'.brk.base = s.brk.base ∧ (s.brk.current ≤ arenaEnd → s'.brk.current ≤ arenaEnd) := by
  cases req with
  | brk addr =>
    cases h
    obtain hb | hb := sysBrk_brk s.brk addr
    · rw [hb]
      exact ⟨rfl, id⟩
    · obtain ⟨hbase, hcur⟩ := userSetBrk_spec hb
      exact ⟨hbase, fun _ => hcur⟩
  | mmap e call =>
    rw [Arena.step] at h
    split at h
    · cases h
    cases h
    obtain hb | ⟨len, start, hm⟩ := sysMmap_brk e s.brk call
    · rw [hb]
      exact ⟨rfl, id⟩
    · refine ⟨userMmapAnon_base hm, fun _ => ?_⟩
      rw [(mmapAnon_span hm).2]
      exact (userMmapAnon_some hm).2

theorem step_within (hw : Within s.brk.base top (s.mapped ++ s.heap)) (hs : Stops top s req)
    (h : step s req = some s') : Within s'.brk.base top (s'.mapped ++ s'.heap) := by
  rw [(step_brk h).1]
  have htop := hs s' h
  cases req with
  | brk addr =>
    cases h
    refine hw.left.append ?_
    split
    · exact hw.right.cons s.brk.base_le htop
    · exact hw.right.cut _
  | mmap e call =>
    rw [Arena.step] at h
    split at h
    · cases h
    rename_i hf
    cases h
    obtain ⟨-, hr⟩ := sysMmap_span (Bool.eq_false_iff.mpr hf)
    refine Within.append ?_ hw.right
    cases hret : returned e s.brk call with
    | none => exact hw.left
    | some r =>
      obtain ⟨hlo, hhi⟩ := hr r hret
      exact hw.left.cons (le_trans s.brk.base_le hlo) (hhi ▸ htop)

theorem run_within (hb : b.current ≤ top) (hm : Meets step (Stops top) (fresh b) reqs)
    (h : run step (fresh b) reqs = some s) : Within b.base top (s.mapped ++ s.heap) := by
  have hinv :=
    meets_invariant (I := fun s => s.brk.base = b.base ∧
      Within s.brk.base top (s.mapped ++ s.heap)) ?_ ?_ hm h
  · rw [← hinv.1]
    exact hinv.2
  · rintro s req s' ⟨hbase, hw⟩ hs ht
    exact ⟨(step_brk ht).1.trans hbase, step_within hw hs ht⟩
  · refine ⟨rfl, fun t ht => ?_⟩
    obtain rfl := mem_singleton.mp ht
    exact ⟨le_refl _, hb⟩

end

section

variable {w : World} {image : Image} {p : Program} {s : Store} {b : Brk} {reqs : List Request}
  {h : Handed} {floor : Nat}

/-- A program, its interpreter, the grants and the stack are separate if the
interpreter is above the end of the program and every break. -/
theorem areas_separate (hp : (replaceImage w image s).1 = .ok p) (hb : Starts p b)
    (hfloor : ∀ t ∈ interpSegments p, floor ≤ t.lo) (hbreak : b.current ≤ floor)
    (hm : Meets step (Stops floor) (fresh b) reqs) (hr : run step (fresh b) reqs = some h) :
    Separated (areas image p h) := by
  have hplaced := replaceImage_placed hp
  have hend : p.info.imageEnd.toNat ≤ arenaEnd := hplaced.program.high
  have hup := alignUpPage_le hend (by decide) (by decide)
  have hle : p.info.imageEnd.toNat ≤ b.base := by
    rw [hb.base]
    exact le_trans hup.1 (le_max_left _ _)
  have harena : b.current ≤ arenaEnd := by
    rw [hb.current]
    exact Nat.max_le.mpr ⟨hup.2, by decide⟩
  have hprogram : Within 0 p.info.imageEnd.toNat (segments image p.info.base) := fun t ht =>
    ⟨zero_le _, (hplaced.program.segs t ht).2⟩
  have hinterp : Within floor arenaEnd (interpSegments p) := by
    intro t ht
    refine ⟨hfloor t ht, ?_⟩
    rw [interpSegments] at ht
    cases hx : p.interp with
    | none =>
      rw [hx] at ht
      exact absurd ht not_mem_nil
    | some x =>
      rw [hx] at ht
      have hload := hplaced.interp x hx
      exact le_trans (hload.segs t ht).2 hload.high
  have hgrants := run_within hbreak hm hr
  have hgrants' := run_within harena (hm.keeps
    (fun _ _ _ hs _ ht => (step_brk ht).2 hs) (fun _ _ hs _ _ ht => (step_brk ht).2 hs) harena) hr
  have hstack : Within arenaEnd userEnd [⟨arenaEnd, userEnd⟩] := by
    intro t ht
    obtain rfl := mem_singleton.mp ht
    exact ⟨le_refl _, le_refl _⟩
  have hbase := b.base_le
  refine .cons ?_ (.cons ?_ (.cons ?_ (pairwise_singleton _ _)))
  · intro as has
    obtain rfl | has := mem_cons.mp has
    · exact hprogram.apart hinterp (by omega)
    obtain rfl | has := mem_cons.mp has
    · exact hprogram.apart hgrants hle
    obtain rfl := mem_singleton.mp has
    exact hprogram.apart hstack hend
  · intro as has
    obtain rfl | has := mem_cons.mp has
    · exact fun s hs t ht => (hgrants.apart hinterp (le_refl _) t ht s hs).symm
    obtain rfl := mem_singleton.mp has
    exact hinterp.apart hstack (le_refl _)
  · intro as has
    obtain rfl := mem_singleton.mp has
    exact hgrants'.apart hstack (le_refl _)

def interpPage : List (BitVec 8) :=
  headerBytes 0x08200000#32 1#8 ++ phdrBytes ptLoad 0#32 0x08200000#32 0#32 4096#32

def worldWithX : World where
  ram := { bootRam with
    tables := ⟨fun i => if i = 0 then { newFile [0x78#8] 0#32 with size := 84#32, size_le := by decide }
      else bootRam.tables.files i, bootRam.tables.dirs⟩
    data := fun _ x => interpPage.getD x 0#8 }
  ldMuSo := noImage
  ticks := 0#32

def smallImage : Image := ⟨asksForX, by decide⟩

theorem smallImage_loaded : ∃ p, (replaceImage worldWithX smallImage ⟨fun _ => 0#8, []⟩).1 = .ok p ∧
      Starts p secondPage ∧ interpSegments p = [⟨0x08200000, 0x08201000⟩] := by
  have hok : (match (replaceImage worldWithX smallImage ⟨fun _ => 0#8, []⟩).1 with
      | .ok p => decide (newBreak p = 0x08049000) && decide (interpSegments p = [⟨0x08200000, 0x08201000⟩])
      | .error _ => false) = true := by decide +kernel
  split at hok
  · rename_i p hp
    rw [Bool.and_eq_true, decide_eq_true_eq, decide_eq_true_eq] at hok
    exact ⟨p, hp, ⟨hok.1.symm, hok.1.symm⟩, hok.2⟩
  · cases hok

def stopsNow (top : Nat) (s : Handed) (req : Request) : Bool :=
  (step s req).all (fun s' => decide (s'.brk.current ≤ top))

theorem stopsNow_stops {top : Nat} {s : Handed} {req : Request} (h : stopsNow top s req = true) :
    Stops top s req := by
  intro s' hs'
  rw [stopsNow, hs'] at h
  exact of_decide_eq_true h

theorem areas_separate_small :
    ∃ p h, (replaceImage worldWithX smallImage ⟨fun _ => 0#8, []⟩).1 = .ok p ∧
      run step (fresh secondPage) [.brk 0x08050000#32, anonymousPage] = some h ∧
      Separated (areas smallImage p h) := by
  obtain ⟨p, hp, hb, hi⟩ := smallImage_loaded
  obtain ⟨h, hr⟩ := Option.isSome_iff_exists.mp
    (by decide +kernel : (run step (fresh secondPage) [.brk 0x08050000#32, anonymousPage]).isSome = true)
  have hstops :
    Meets step (Stops 0x08200000) (fresh secondPage) [.brk 0x08050000#32, anonymousPage] :=
    checks_meets (fun _ _ => stopsNow_stops) (by decide +kernel)
  refine ⟨p, h, hp, hr, areas_separate hp hb (fun t ht => ?_) (by decide) hstops hr⟩
  rw [hi] at ht
  obtain rfl := mem_singleton.mp ht
  exact le_refl _

/-- The break is taken over the interpreter. -/
theorem break_covers_interp :
    ∃ p h, (replaceImage worldWithX smallImage ⟨fun _ => 0#8, []⟩).1 = .ok p ∧ Starts p secondPage ∧
      run step (fresh secondPage) [.brk 0x08201000#32] = some h ∧ ¬ Separated (areas smallImage p h) := by
  obtain ⟨p, hp, hb, hi⟩ := smallImage_loaded
  refine ⟨p, _, hp, hb, rfl, fun hsep => ?_⟩
  have hrest := (pairwise_cons.mp (pairwise_cons.mp hsep).2).1
  have hgrants := hrest _ mem_cons_self
  rw [hi] at hgrants
  exact hgrants ⟨0x08200000, 0x08201000⟩ mem_cons_self ⟨0x08049000, 0x08201000⟩
    (by decide +kernel) 0x08200000 (by decide) (by decide)

end

end MuOS.Syscall.Placement
