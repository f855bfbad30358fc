import MuOS.User.Elf

namespace MuOS.User.ElfBounds

open Lib Spans Accesses Elf List Nat

/-- Reads inside the image, accesses inside the window and the result. -/
def Allowed (image : Image) (base limit : BitVec 32) : Access → Prop
  | .fetch s => s.hi ≤ image.bytes.length
  | .read s | .write s => base.toNat ≤ s.lo ∧ s.hi ≤ limit.toNat
  | .note s => s.hi ≤ 64

variable {image : Image} {base limit : BitVec 32} {eh : Ehdr}
  {i : Nat} {x : LoadInfo × BitVec 32} {maxEnd : BitVec 32}

theorem size_toNat (image : Image) : image.size.toNat = image.bytes.length := by
  rw [Image.size, BitVec.toNat_ofNat, mod_eq_of_lt image.size_lt]

theorem rangeOk_iff {va len : BitVec 32} :
    rangeOk va len base limit = true ↔ base.toNat ≤ va.toNat ∧
    va.toNat + len.toNat ≤ limit.toNat := by
  rw [rangeOk]
  split
  · rename_i h
    rw [BitVec.lt_def, BitVec.lt_def] at h
    constructor
    · simp
    · omega
  · rename_i h
    rw [BitVec.lt_def, BitVec.lt_def] at h
    rw [decide_eq_true_eq, BitVec.le_def, BitVec.toNat_sub_of_le (by rw [BitVec.le_def]; omega)]
    omega

theorem part_le {offset len : BitVec 32} (h : offset ≤ image.size ∧ len ≤ image.size - offset) :
    offset.toNat + len.toNat ≤ image.bytes.length := by
  obtain ⟨ho, hl⟩ := h
  rw [BitVec.le_def, BitVec.toNat_sub_of_le ho] at hl
  rw [BitVec.le_def] at ho
  rw [size_toNat] at ho hl
  omega

def headerOf (image : Image) : Ehdr := ehdrOf (image.bytes.take ehdrSize)

def phdrIn (image : Image) (eh : Ehdr) (i : Nat) : Phdr :=
  phdrOf ((image.bytes.drop (eh.phoff.toNat + i * eh.phentsize.toNat)).take phdrSize)

structure Table (image : Image) (eh : Ehdr) : Prop where
  header : eh = headerOf image
  num : eh.phnum.toNat ≤ 128
  ent : phdrSize ≤ eh.phentsize.toNat
  fits : eh.phoff.toNat + eh.phnum.toNat * eh.phentsize.toNat ≤ image.bytes.length

abbrev Stays {α : Type} (image : Image) (base limit : BitVec 32) : Nat → Prog ElfError α →
    (α → Prop) → Prop :=
  Confined (Allowed image base limit)

theorem elfParse_confined : Stays image base limit 1 (elfParse image) (Table image) := by
  refine .after_check fun hsize => .after_one (.fetch ?_) fun bs hbs => ?_
  · have hsize := of_decide_eq_true hsize
    rw [size_toNat] at hsize
    exact hsize
  refine .after_check fun _ => .after_check fun _ => .after_check fun _ => .after_check fun _ =>
    .after_check fun _ => .after_check fun htab => .after_check fun hoff =>
      .after_check fun hbytes => .pure ?_
  obtain ⟨hent, -, -, hnum⟩ := of_decide_eq_true htab
  have hoff := of_decide_eq_true hoff
  have hbytes := part_le ⟨hoff, of_decide_eq_true hbytes⟩
  have hsmall : (ehdrOf bs).phnum.toNat * (ehdrOf bs).phentsize.toNat < 4294967296 :=
    Nat.lt_of_le_of_lt (Nat.mul_le_mul hnum (Nat.le_of_lt (ehdrOf bs).phentsize.isLt)) (by decide)
  rw [BitVec.toNat_mul, BitVec.toNat_setWidth_of_le (by decide),
    BitVec.toNat_setWidth_of_le (by decide), mod_eq_of_lt hsmall] at hbytes
  exact ⟨by rw [hbs, headerOf, drop_zero], hnum, hent, hbytes⟩

theorem elfPhdr_confined (h : Table image eh) (hi : i < eh.phnum.toNat) :
    Stays image base limit 1 (elfPhdr image eh i) (fun ph => ph = phdrIn image eh i) := by
  refine .after_one (.fetch ?_) fun bs hbs => .pure (by rw [hbs, phdrIn])
  have hent := h.ent
  have hfits := h.fits
  have hrow : (i + 1) * eh.phentsize.toNat ≤ eh.phnum.toNat * eh.phentsize.toNat :=
    mul_le_mul_right _ hi
  rw [succ_mul] at hrow
  show eh.phoff.toNat + i * eh.phentsize.toNat + phdrSize ≤ image.bytes.length
  omega

theorem elfLoadBias_confined (h : Table image eh) (b : BitVec 32) :
    Stays image base limit 128 (elfLoadBias image eh b) (fun _ => True) := by
  rw [elfLoadBias]
  split
  · exact .pure trivial
  have hloop : Stays image base limit (eh.phnum.toNat * 1)
      (loop (lowest image eh) eh.phnum.toNat 0 0xFFFFFFFF#32) (fun _ => True) := by
    refine .loop_any fun i v hi => ?_
    exact .after_one (elfPhdr_confined h (by omega)) fun ph _ => .pure trivial
  refine (hloop.bind fun v _ => Confined.pure (n := 0) trivial).mono ?_ fun _ => id
  have hnum := h.num
  omega

section

variable {symtab syment bias : BitVec 32}

theorem symbolValue_confined (symix : BitVec 32) :
    Stays image base limit 2 (symbolValue symtab syment bias base limit symix) (fun _ => True) := by
  refine .after_check fun _ => .after_check fun _ => .after_check fun hr => ?_
  obtain ⟨hlo, hhi⟩ := rangeOk_iff.mp hr
  have h16 : (16#32).toNat = 16 := rfl
  refine .after_one (.load16 ⟨?_, ?_⟩) fun shndx _ => .after_check fun _ =>
    .after_one (.load32 ⟨?_, ?_⟩) fun v _ =>
    .pure trivial
  all_goals
    dsimp only
    omega

theorem target_inside {target : BitVec 32} (h : ¬(target < base ∨ limit - 4#32 < target))
    (h4 : 4 ≤ limit.toNat) : base.toNat ≤ target.toNat ∧ target.toNat + 4 ≤ limit.toNat := by
  rw [not_or, BitVec.not_lt, BitVec.not_lt, BitVec.le_def, BitVec.le_def,
    BitVec.toNat_sub_of_le (by rw [BitVec.le_def]; exact h4)] at h
  have h4' : (4#32).toNat = 4 := rfl
  omega

theorem applyRel_confined {relVa relsz : BitVec 32} (hr : rangeOk relVa relsz base limit = true)
    (hi : i < relsz.toNat / 8) (count : Nat) :
    Stays image base limit 6 (applyRel relVa symtab syment bias base limit i count)
    (fun _ => True) := by
  obtain ⟨hlo, hhi⟩ := rangeOk_iff.mp hr
  have hlim := limit.isLt
  have hr : (relVa + BitVec.ofNat 32 i * 8#32).toNat = relVa.toNat + i * 8 := by
    rw [BitVec.toNat_add, BitVec.toNat_mul, BitVec.toNat_ofNat, BitVec.toNat_ofNat]
    omega
  refine .after_one (.load32 ⟨?_, ?_⟩) fun info _ => .after_one (.load32 ⟨?_, ?_⟩) fun offset _ =>
    .after_check fun ht => ?_
  · dsimp only
    omega
  · dsimp only
    omega
  · dsimp only
    omega
  · dsimp only
    omega
  have htarget := target_inside (of_decide_eq_true ht) (by omega)
  split
  · exact .pure trivial
  split
  · exact (Confined.after_one (.load32 htarget) fun old _ => .after_one (.store32 _ htarget) fun _ _ =>
      .pure (n := 0) trivial).mono (by decide) fun _ => id
  split
  · refine (symbolValue_confined _).bind (n := 2) (fun val _ => ?_)
    split
    · exact .after_one (.load32 htarget) fun old _ => .after_one (.store32 _ htarget) fun _ _ =>
        .pure trivial
    · exact .after_one (.store32 _ htarget) fun _ _ => .pure trivial
  · exact .fail _

def relBound : Nat := 32768 * 6

theorem elfApplyRelArray_confined (relVa relsz : BitVec 32) (count : Nat) :
    Stays image base limit relBound
      (elfApplyRelArray relVa relsz symtab syment bias base limit count) (fun _ => True) := by
  rw [elfApplyRelArray]
  split
  · exact .pure trivial
  refine .after_check fun hsize => .after_check fun _ => .after_check fun hr => ?_
  have hloop : Stays image base limit (relsz.toNat / 8 * 6)
      (loop (applyRel relVa symtab syment bias base limit) (relsz.toNat / 8) 0 count) (fun _ => True) :=
    .loop_any fun i c hi => applyRel_confined hr (by omega) c
  refine hloop.mono ?_ fun _ => id
  have hsize := of_decide_eq_true hsize
  rw [BitVec.le_def] at hsize
  have hmax : (0x40000#32).toNat = 262144 := rfl
  rw [relBound]
  omega

theorem dynEntry_confined (dynVa : BitVec 32) (i : Nat) (t : DynTable) :
    Stays image base limit 2 (dynEntry dynVa base limit i t) (fun _ => True) := by
  refine .after_check fun hr => ?_
  obtain ⟨hlo, hhi⟩ := rangeOk_iff.mp hr
  have h8 : (8#32).toNat = 8 := rfl
  refine .after_one (.load32 ⟨hlo, by dsimp only; omega⟩) fun tag _ => ?_
  split
  · exact .pure trivial
  · exact .after_one (.load32 ⟨by dsimp only; omega, by dsimp only; omega⟩) fun val _ => .pure trivial

theorem applyRelTable_confined (t : DynTable) :
    Stays image base limit relBound (applyRelTable t symtab bias base limit) (fun _ => True) := by
  rw [applyRelTable]
  split
  · exact elfApplyRelArray_confined _ _ _
  · exact .pure trivial

theorem applyPltTable_confined (t : DynTable) (count : Nat) :
    Stays image base limit relBound (applyPltTable t symtab bias base limit count)
    (fun _ => True) := by
  rw [applyPltTable]
  split
  · exact .after_check fun _ => elfApplyRelArray_confined _ _ _
  · exact .pure trivial

theorem elfApplyDynamic_confined (dynVa : BitVec 32) :
    Stays image base limit (512 + (relBound + relBound)) (elfApplyDynamic dynVa bias base limit)
    (fun _ => True) := by
  refine .after_check fun _ => ?_
  have hwalk : Stays image base limit (256 * 2) (loop (dynEntry dynVa base limit) 256 0 noDynTable)
      (fun _ => True) := .loop_any fun i t _ => dynEntry_confined dynVa i t
  exact hwalk.bind fun t _ => (applyRelTable_confined t).bind fun count _ =>
    applyPltTable_confined t count

theorem copyIn_confined {offset va filesz : BitVec 32}
    (hfile : offset.toNat + filesz.toNat ≤ image.bytes.length)
    (hlo : base.toNat ≤ va.toNat) (hhi : va.toNat + filesz.toNat ≤ limit.toNat) :
    Stays image base limit 2 (copyIn image offset va filesz) (fun _ => True) := by
  rw [copyIn]
  split
  · exact .pure trivial
  refine .after_one (.fetch hfile) fun bs hbs =>
    (Confined.put ⟨hlo, ?_⟩).mono (Nat.le_refl _) fun _ => id
  rw [hbs]
  exact Nat.le_trans (Nat.add_le_add_left (length_take_le _ _) _) hhi

theorem clearRest_confined {va filesz memsz : BitVec 32} (hlo : base.toNat ≤ va.toNat)
    (hhi : va.toNat + memsz.toNat ≤ limit.toNat) :
    Stays image base limit 1 (clearRest va filesz memsz) (fun _ => True) := by
  have hlim := limit.isLt
  rw [clearRest]
  split
  · rename_i hlt
    have hle := BitVec.le_of_lt hlt
    have hsub := BitVec.toNat_sub_of_le hle
    have hstart : (va + filesz).toNat = va.toNat + filesz.toNat := by
      rw [BitVec.lt_def] at hlt
      rw [BitVec.toNat_add]
      omega
    rw [BitVec.le_def] at hle
    refine .fill ⟨?_, ?_⟩
    · dsimp only
      omega
    · dsimp only
      omega
  · exact .pure trivial

structure Segment (image : Image) (ph : Phdr) (bias base limit : BitVec 32) : Prop where
  file : ph.offset.toNat + ph.filesz.toNat ≤ image.bytes.length
  le : ph.filesz.toNat ≤ ph.memsz.toNat
  lo : base.toNat ≤ (ph.vaddr + bias).toNat
  hi : (ph.vaddr + bias).toNat + ph.memsz.toNat ≤ limit.toNat

theorem checkSegment_confined (ph : Phdr) : Stays image base limit 0
      (checkSegment image ph bias base limit) (fun _ => Segment image ph bias base limit) := by
  refine .after_check fun hle => .after_check fun hfile => .after_check fun hr => ?_
  refine (Confined.check _ _).mono (Nat.le_refl _) fun _ _ => ?_
  obtain ⟨hlo, hhi⟩ := rangeOk_iff.mp hr
  exact ⟨part_le (of_decide_eq_true hfile), of_decide_eq_true hle, hlo, hhi⟩

def segmentAt (image : Image) (eh : Ehdr) (bias : BitVec 32) (i : Nat) : Option Span :=
  let ph := phdrIn image eh i
  if ph.type = ptLoad then
    some ⟨(ph.vaddr + bias).toNat, (ph.vaddr + bias).toNat + ph.memsz.toNat⟩ else none

def segments (image : Image) (bias : BitVec 32) : List Span :=
  (List.range (headerOf image).phnum.toNat).filterMap (segmentAt image (headerOf image) bias)

/-- The segments so far are in the window, before `maxEnd`. -/
structure Covered (image : Image) (eh : Ehdr) (bias base limit : BitVec 32) (j : Nat)
    (m : Mapped) : Prop where
  segs : ∀ i t, i < j → segmentAt image eh bias i = some t → base.toNat ≤ t.lo ∧
    t.hi ≤ m.maxEnd.toNat
  low : base ≤ m.maxEnd
  high : m.maxEnd.toNat ≤ max base.toNat limit.toNat

theorem Mapped.add_le (m : Mapped) (e : BitVec 32) : m.maxEnd ≤ (m.add e).maxEnd ∧
    e ≤ (m.add e).maxEnd ∧ ((m.add e).maxEnd = m.maxEnd ∨ (m.add e).maxEnd = e) := by
  rw [Mapped.add]
  split
  · rename_i h
    exact ⟨BitVec.le_of_lt h, BitVec.le_refl _, .inr rfl⟩
  · rename_i h
    exact ⟨BitVec.le_refl _, BitVec.not_lt.mp h, .inl rfl⟩

theorem mapSegment_confined (h : Table image eh) (hi : i < eh.phnum.toNat) {m : Mapped}
    (hm : Covered image eh bias base limit i m) :
    Stays image base limit 4 (mapSegment image eh bias base limit i m)
      (Round (Covered image eh bias base limit) (Covered image eh bias base limit eh.phnum.toNat) i) := by
  refine .after_one (elfPhdr_confined h hi) fun ph hph => ?_
  split
  · rename_i hload
    refine .pure ⟨fun j t hj ht => ?_, hm.low, hm.high⟩
    obtain hj | rfl := Nat.lt_succ_iff_lt_or_eq.mp hj
    · exact hm.segs j t hj ht
    rw [segmentAt, ← hph, if_neg hload] at ht
    cases ht
  rename_i hload
  refine (checkSegment_confined ph).bind (n := 3) fun _ hseg => ?_
  have hle := hseg.le
  have hhi := hseg.hi
  have hlim := limit.isLt
  refine (copyIn_confined hseg.file hseg.lo (by omega)).bind (n := 1) fun _ _ => ?_
  refine .after_one (clearRest_confined hseg.lo hseg.hi) fun _ _ => .pure ?_
  have hend : (ph.vaddr + bias + ph.memsz).toNat = (ph.vaddr + bias).toNat + ph.memsz.toNat := by
    rw [BitVec.toNat_add (ph.vaddr + bias)]
    omega
  obtain ⟨hold, hnew, heq⟩ := Mapped.add_le m (ph.vaddr + bias + ph.memsz)
  refine ⟨fun j t hj ht => ?_, BitVec.le_trans hm.low hold, ?_⟩
  · obtain hj | rfl := Nat.lt_succ_iff_lt_or_eq.mp hj
    · have hseg := hm.segs j t hj ht
      exact ⟨hseg.1, Nat.le_trans hseg.2 hold⟩
    · rw [segmentAt, ← hph, if_pos (not_not.mp hload)] at ht
      cases ht
      exact ⟨hseg.lo, hend ▸ hnew⟩
  · obtain heq | heq := heq
    · rw [heq]
      exact hm.high
    · rw [heq]
      omega

def Same (bias maxEnd : BitVec 32) (info : LoadInfo) : Prop :=
  info.base = bias ∧ info.imageEnd = maxEnd

theorem noteInterp_confined (ph : Phdr) {info : LoadInfo} (hs : Same bias maxEnd info) :
    Stays image base limit 2 (noteInterp image ph info) (Same bias maxEnd) := by
  rw [noteInterp]
  split
  · rename_i h
    obtain ⟨-, -, hoff, hlen, hlt⟩ := h
    refine .after_one (.fetch (part_le ⟨hoff, hlen⟩)) fun bs _ => .after_one (.note ?_) fun _ _ => .pure hs
    rw [BitVec.lt_def] at hlt
    have h64 : (64#32).toNat = 64 := rfl
    show 0 + (ph.filesz.toNat + 1) ≤ 64
    omega
  · exact .pure hs

theorem describeSegment_confined (h : Table image eh) (hi : i < eh.phnum.toNat)
    (hs : Same bias maxEnd x.1) : Stays image base limit 3 (describeSegment image eh bias i x)
      (Round (fun _ x => Same bias maxEnd x.1) (fun x => Same bias maxEnd x.1) i) := by
  refine .after_one (elfPhdr_confined h hi) fun ph _ => ?_
  have hnoted : Same bias maxEnd { x.1 with phdr := phdrAt eh bias ph x.1.phdr } := hs
  refine (noteInterp_confined ph hnoted).bind (n := 0) fun info hinfo => ?_
  split
  · exact .pure hinfo
  · exact .pure hinfo

/-- The segments of a loaded image lie in the window, below its end. -/
structure Loaded (image : Image) (base limit : BitVec 32) (info : LoadInfo) : Prop where
  segs : ∀ t ∈ segments image info.base, base.toNat ≤ t.lo ∧ t.hi ≤ info.imageEnd.toNat
  high : info.imageEnd.toNat ≤ max base.toNat limit.toNat

/-- Mapping's most accesses: three passes over the program headers. -/
def mapBound : Nat := 1 + (128 + (128 * 4 + 128 * 3))

theorem elfMapSegments_confined : Stays image base limit mapBound (elfMapSegments image base limit)
      (fun x => Loaded image base limit x.1) := by
  refine elfParse_confined.bind fun eh h => (elfLoadBias_confined h base).bind fun bias _ => ?_
  have hnum := h.num
  have hmap : Stays image base limit (eh.phnum.toNat * 4)
      (loop (mapSegment image eh bias base limit) eh.phnum.toNat 0 ⟨base, 0⟩)
      (Covered image eh bias base limit eh.phnum.toNat) := by
    refine .loop (fun i m hi hm => mapSegment_confined h (by omega) hm)
      (fun m hm => Nat.zero_add eh.phnum.toNat ▸ hm) ?_
    exact ⟨fun i t hi => absurd hi (Nat.not_lt_zero i), BitVec.le_refl _, Nat.le_max_left _ _⟩
  refine (hmap.mono (mul_le_mul_right 4 hnum) fun _ => id).bind fun m hm => .after_check fun _ =>
    .after_check fun _ => ?_
  have hdescribe : ∀ x : LoadInfo × BitVec 32, Same bias m.maxEnd x.1 → Stays image base limit
      (eh.phnum.toNat * 3) (loop (describeSegment image eh bias) eh.phnum.toNat 0 x)
      (fun x => Same bias m.maxEnd x.1) :=
    fun x hx => .loop (fun i x hi hx => describeSegment_confined h (by omega) hx) (fun _ => id) hx
  refine (hdescribe _ ⟨rfl, rfl⟩).mono (mul_le_mul_right 3 hnum) fun x hx => ⟨fun t ht => ?_, ?_⟩
  · obtain ⟨i, hi, ht⟩ := mem_filterMap.mp ht
    rw [← h.header, hx.1] at ht
    rw [← h.header] at hi
    rw [hx.2]
    exact hm.segs i t (mem_range.mp hi) ht
  · rw [hx.2]
    exact hm.high

def loadBound : Nat := mapBound + (512 + (relBound + relBound))

theorem relocate_confined (hx : Loaded image base limit x.1) :
    Stays image base limit (512 + (relBound + relBound)) (relocate x base limit)
    (Loaded image base limit) := by
  rw [relocate]
  split
  · exact .pure hx
  · exact (elfApplyDynamic_confined x.2).bind (n := 0) fun count _ => .pure ⟨hx.segs, hx.high⟩

theorem elf32LoadEx_confined :
    Stays image base limit loadBound (elf32LoadEx image base limit) (Loaded image base limit) :=
  elfMapSegments_confined.bind fun _ hx => relocate_confined hx

theorem elf32LoadProgram_confined :
    Stays image base limit loadBound (elf32LoadProgram image base limit)
    (Loaded image base limit) := by
  refine elfMapSegments_confined.bind fun x hx => ?_
  split
  · exact .pure hx
  · exact relocate_confined hx

theorem confined_outside {α : Type} {n : Nat} {p : Prog ElfError α} {Q : α → Prop}
    (h : Stays image base limit n p Q) (s : Store) :
    ∃ log, (p s).2.log = log ++ s.log ∧ log.length ≤ n ∧ (∀ a ∈ log, Allowed image base limit a) ∧
      ∀ x, x < base.toNat ∨ limit.toNat ≤ x → (p s).2.mem x = s.mem x := by
  obtain ⟨log, hlog, hlen, hok, hmem, -⟩ := h s
  refine ⟨log, hlog, hlen, hok, fun x hx => hmem x fun a ha hw => ?_⟩
  have hin := hok a ha
  cases a with
  | write sp =>
    obtain ⟨hlo, hhi⟩ := hw
    obtain ⟨hb, hl⟩ := hin
    omega
  | _ => exact hw

/-- For every image and window the loader ends after a bounded number of accesses, reads only the
image and the window, and writes only the window and its record. -/
theorem loader_stays_inside (image : Image) (base limit : BitVec 32) (s : Store) :
    (∃ log, (elf32LoadEx image base limit s).2.log = log ++ s.log ∧ log.length ≤ loadBound ∧
      (∀ a ∈ log, Allowed image base limit a) ∧
      ∀ x, x < base.toNat ∨ limit.toNat ≤ x → (elf32LoadEx image base limit s).2.mem x = s.mem x) ∧
    ∃ log, (elf32LoadProgram image base limit s).2.log = log ++ s.log ∧ log.length ≤ loadBound ∧
      (∀ a ∈ log, Allowed image base limit a) ∧
      ∀ x, x < base.toNat ∨ limit.toNat ≤ x → (elf32LoadProgram image base limit s).2.mem x = s.mem x :=
  ⟨confined_outside elf32LoadEx_confined s, confined_outside elf32LoadProgram_confined s⟩

end

end MuOS.User.ElfBounds
