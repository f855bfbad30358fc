import MuOS.Lib.Accesses

namespace MuOS.User.Elf

open Lib.Accesses

/-- The error codes of the loader, from -1 to -5. -/
inductive ElfError
  | header
  | format
  | range
  | noLoad
  | reloc
deriving DecidableEq

/-- The bytes given to the loader, fewer than 4 GiB. -/
structure Image where
  bytes : List (BitVec 8)
  size_lt : bytes.length < 4294967296

def noImage : Image := ⟨[], by decide⟩

def Image.size (image : Image) : BitVec 32 := BitVec.ofNat 32 image.bytes.length

def half (bs : List (BitVec 8)) (i : Nat) : BitVec 16 := bs.getD (i + 1) 0#8 ++ bs.getD i 0#8

def word (bs : List (BitVec 8)) (i : Nat) : BitVec 32 :=
  bs.getD (i + 3) 0#8 ++ bs.getD (i + 2) 0#8 ++ bs.getD (i + 1) 0#8 ++ bs.getD i 0#8

/-- The fields of an `elf32_ehdr_t` that are looked at. -/
structure Ehdr where
  ident : List (BitVec 8)
  type : BitVec 16
  machine : BitVec 16
  entry : BitVec 32
  phoff : BitVec 32
  ehsize : BitVec 16
  phentsize : BitVec 16
  phnum : BitVec 16

def ehdrSize : Nat := 52

def ehdrOf (bs : List (BitVec 8)) : Ehdr where
  ident := bs.take 7
  type := half bs 16
  machine := half bs 18
  entry := word bs 24
  phoff := word bs 28
  ehsize := half bs 40
  phentsize := half bs 42
  phnum := half bs 44

structure Phdr where
  type : BitVec 32
  offset : BitVec 32
  vaddr : BitVec 32
  filesz : BitVec 32
  memsz : BitVec 32
  align : BitVec 32

def phdrSize : Nat := 32

def phdrOf (bs : List (BitVec 8)) : Phdr where
  type := word bs 0
  offset := word bs 4
  vaddr := word bs 8
  filesz := word bs 16
  memsz := word bs 20
  align := word bs 28

def typeExec : BitVec 16 := 2#16
def typeDyn : BitVec 16 := 3#16

def ptLoad : BitVec 32 := 1#32
def ptDynamic : BitVec 32 := 2#32
def ptInterp : BitVec 32 := 3#32

/-- An `elf32_load_info_t`; `interp` without its terminator. -/
structure LoadInfo where
  entry : BitVec 32
  imageEnd : BitVec 32
  phdr : BitVec 32
  phent : BitVec 32
  phnum : BitVec 32
  base : BitVec 32
  isDyn : Bool
  hasInterp : Bool
  hasDynamic : Bool
  interp : List (BitVec 8)
  relocCount : Nat

def isPowerOfTwo (v : BitVec 32) : Bool := v != 0#32 && v &&& (v - 1#32) == 0#32

def rangeOk (va len base limit : BitVec 32) : Bool :=
  if va < base ∨ limit < va then false else decide (len ≤ limit - va)

def elfParse (image : Image) : Prog ElfError Ehdr := do
  check (decide (ehdrSize ≤ image.size.toNat)) .header
  let bs ← fetch image.bytes 0 ehdrSize
  let eh := ehdrOf bs
  check (decide (eh.ident.take 4 = [0x7F#8, 0x45#8, 0x4C#8, 0x46#8])) .header
  check (decide (eh.ident.drop 4 = [1#8, 1#8, 1#8])) .format
  check (decide (eh.type = typeExec ∨ eh.type = typeDyn)) .format
  check (decide (eh.machine = 3#16)) .format
  check (decide (ehdrSize ≤ eh.ehsize.toNat)) .format
  check (decide (phdrSize ≤ eh.phentsize.toNat ∧ eh.phentsize ≠ 0#16 ∧ eh.phnum ≠ 0#16 ∧
    eh.phnum ≤ 128#16)) .format
  check (decide (eh.phoff ≤ image.size)) .format
  check (decide (eh.phnum.setWidth 32 * eh.phentsize.setWidth 32 ≤ image.size - eh.phoff)) .format
  pure eh

/-- `elf_phdr`, and the copy that every loop makes. -/
def elfPhdr (image : Image) (eh : Ehdr) (i : Nat) : Prog ElfError Phdr := do
  let bs ← fetch image.bytes (eh.phoff.toNat + i * eh.phentsize.toNat) phdrSize
  pure (phdrOf bs)

def lowest (image : Image) (eh : Ehdr) (i : Nat) (minVa : BitVec 32) :
    Prog ElfError (ForInStep (BitVec 32)) := do
  let ph ← elfPhdr image eh i
  pure (.yield (if ph.type = ptLoad ∧ ph.vaddr < minVa then ph.vaddr else minVa))

def elfLoadBias (image : Image) (eh : Ehdr) (loadBase : BitVec 32) : Prog ElfError (BitVec 32) :=
  if eh.type ≠ typeDyn then pure 0#32
  else do
    let minVa ← loop (lowest image eh) eh.phnum.toNat 0 0xFFFFFFFF#32
    pure (if minVa = 0xFFFFFFFF#32 ∨ loadBase < minVa then 0#32 else loadBase - minVa)

/-- The value for relocations `GLOB_DAT`, `JMP_SLOT` and `32`. -/
def symbolValue (symtab syment bias base limit symix : BitVec 32) : Prog ElfError (BitVec 32) := do
  check (decide (symtab ≠ 0#32 ∧ 16#32 ≤ syment)) .reloc
  check (decide (symix ≤ 0xFFFFF#32)) .reloc
  let symVa := symtab + symix * syment
  check (rangeOk symVa 16#32 base limit) .reloc
  let shndx ← load16 (symVa.toNat + 14)
  check (decide (shndx ≠ 0#16)) .reloc
  let value ← load32 (symVa.toNat + 4)
  pure (if shndx = 0xFFF1#16 then value else bias + value)

def applyRel (relVa symtab syment bias base limit : BitVec 32) (i count : Nat) :
    Prog ElfError (ForInStep Nat) := do
  let r := relVa + BitVec.ofNat 32 i * 8#32
  let info ← load32 (r.toNat + 4)
  let offset ← load32 r.toNat
  let type := info &&& 0xFF#32
  let target := offset + bias
  check (decide (¬(target < base ∨ limit - 4#32 < target))) .range
  if type = 0#32 then pure (.yield (count + 1))
  else if type = 8#32 then do
    let old ← load32 target.toNat
    store32 target.toNat (old + bias)
    pure (.yield (count + 1))
  else if type = 6#32 ∨ type = 7#32 ∨ type = 1#32 then do
    let val ← symbolValue symtab syment bias base limit (info >>> 8)
    if type = 1#32 then do
      let old ← load32 target.toNat
      store32 target.toNat (old + val)
      pure (.yield (count + 1))
    else do
      store32 target.toNat val
      pure (.yield (count + 1))
  else fail .reloc

def elfApplyRelArray (relVa relsz symtab syment bias base limit : BitVec 32) (count : Nat) :
    Prog ElfError Nat :=
  if relsz = 0#32 then pure count
  else do
    check (decide (relsz ≤ 0x40000#32)) .reloc
    check (decide (relsz &&& 7#32 = 0#32)) .reloc
    check (rangeOk relVa relsz base limit) .range
    loop (applyRel relVa symtab syment bias base limit) (relsz.toNat / 8) 0 count

/-- What `elf_apply_dynamic` collects. -/
structure DynTable where
  rel : BitVec 32
  relsz : BitVec 32
  jmprel : BitVec 32
  pltrelsz : BitVec 32
  symtab : BitVec 32
  syment : BitVec 32
  pltrel : BitVec 32

def dtRel : BitVec 32 := 17#32

def noDynTable : DynTable := ⟨0#32, 0#32, 0#32, 0#32, 0#32, 0#32, dtRel⟩

def DynTable.set (t : DynTable) (tag val : BitVec 32) : DynTable :=
  if tag = dtRel then { t with rel := val }
  else if tag = 18#32 then { t with relsz := val }
  else if tag = 23#32 then { t with jmprel := val }
  else if tag = 2#32 then { t with pltrelsz := val }
  else if tag = 20#32 then { t with pltrel := val }
  else if tag = 6#32 then { t with symtab := val }
  else if tag = 11#32 then { t with syment := val }
  else t

def dynEntry (dynVa base limit : BitVec 32) (i : Nat) (t : DynTable) :
    Prog ElfError (ForInStep DynTable) := do
  let d := dynVa + BitVec.ofNat 32 i * 8#32
  check (rangeOk d 8#32 base limit) .reloc
  let tag ← load32 d.toNat
  if tag = 0#32 then pure (.done t)
  else do
    let val ← load32 (d.toNat + 4)
    pure (.yield (t.set tag val))

def applyRelTable (t : DynTable) (symtab bias base limit : BitVec 32) : Prog ElfError Nat :=
  if t.rel ≠ 0#32 ∧ t.relsz ≠ 0#32 then
    elfApplyRelArray (t.rel + bias) t.relsz symtab t.syment bias base limit 0
  else pure 0

def applyPltTable (t : DynTable) (symtab bias base limit : BitVec 32) (count : Nat) :
    Prog ElfError Nat :=
  if t.jmprel ≠ 0#32 ∧ t.pltrelsz ≠ 0#32 then do
    check (decide (t.pltrel = dtRel)) .reloc
    elfApplyRelArray (t.jmprel + bias) t.pltrelsz symtab t.syment bias base limit count
  else pure count

/-- `elf_apply_dynamic`: the number of relocations. -/
def elfApplyDynamic (dynVa bias base limit : BitVec 32) : Prog ElfError Nat := do
  check (rangeOk dynVa 8#32 base limit) .reloc
  let t ← loop (dynEntry dynVa base limit) 256 0 noDynTable
  let symtab := if t.symtab ≠ 0#32 then t.symtab + bias else 0#32
  let count ← applyRelTable t symtab bias base limit
  applyPltTable t symtab bias base limit count

/-- The accumulators of the loop over the segments. -/
structure Mapped where
  maxEnd : BitVec 32
  loads : Nat

/-- The checks on a segment, also of `elf32_validate`. -/
def checkSegment (image : Image) (ph : Phdr) (bias base limit : BitVec 32) :
    Prog ElfError Unit := do
  check (decide (ph.filesz ≤ ph.memsz)) .format
  check (decide (ph.offset ≤ image.size ∧ ph.filesz ≤ image.size - ph.offset)) .range
  check (rangeOk (ph.vaddr + bias) ph.memsz base limit) .range
  check (decide (ph.align = 0#32) || isPowerOfTwo ph.align) .format

def Mapped.add (m : Mapped) (segEnd : BitVec 32) : Mapped :=
  ⟨if m.maxEnd < segEnd then segEnd else m.maxEnd, m.loads + 1⟩

def copyIn (image : Image) (offset va filesz : BitVec 32) : Prog ElfError Unit :=
  if filesz = 0#32 then pure ()
  else do
    let bs ← fetch image.bytes offset.toNat filesz.toNat
    put bs va.toNat

def clearRest (va filesz memsz : BitVec 32) : Prog ElfError Unit :=
  if filesz < memsz then fill (va + filesz).toNat (memsz - filesz).toNat else pure ()

def mapSegment (image : Image) (eh : Ehdr) (bias base limit : BitVec 32) (i : Nat) (m : Mapped) :
    Prog ElfError (ForInStep Mapped) := do
  let ph ← elfPhdr image eh i
  if ph.type ≠ ptLoad then pure (.yield m)
  else do
    checkSegment image ph bias base limit
    let va := ph.vaddr + bias
    copyIn image ph.offset va ph.filesz
    clearRest va ph.filesz ph.memsz
    pure (.yield (m.add (va + ph.memsz)))

def phdrAt (eh : Ehdr) (bias : BitVec 32) (ph : Phdr) (old : BitVec 32) : BitVec 32 :=
  if ph.type = ptLoad ∧ ph.offset ≤ eh.phoff ∧ eh.phoff < ph.offset + ph.filesz then
    ph.vaddr + bias + (eh.phoff - ph.offset)
  else old

def noteInterp (image : Image) (ph : Phdr) (info : LoadInfo) : Prog ElfError LoadInfo :=
  if ph.type = ptInterp ∧ ph.filesz ≠ 0#32 ∧ ph.offset ≤ image.size ∧
      ph.filesz ≤ image.size - ph.offset ∧ ph.filesz < 64#32 then do
    let bs ← fetch image.bytes ph.offset.toNat ph.filesz.toNat
    note 0 (ph.filesz.toNat + 1)
    pure { info with interp := bs, hasInterp := true }
  else pure info

/-- A round of the second loop of `elf_map_segments`. -/
def describeSegment (image : Image) (eh : Ehdr) (bias : BitVec 32) (i : Nat)
    (x : LoadInfo × BitVec 32) : Prog ElfError (ForInStep (LoadInfo × BitVec 32)) := do
  let ph ← elfPhdr image eh i
  let info ← noteInterp image ph { x.1 with phdr := phdrAt eh bias ph x.1.phdr }
  if ph.type = ptDynamic ∧ 8#32 ≤ ph.memsz then
    pure (.yield ({ info with hasDynamic := true }, ph.vaddr + bias))
  else pure (.yield (info, x.2))

def elfMapSegments (image : Image) (base limit : BitVec 32) :
    Prog ElfError (LoadInfo × BitVec 32) := do
  let eh ← elfParse image
  let bias ← elfLoadBias image eh base
  let m ← loop (mapSegment image eh bias base limit) eh.phnum.toNat 0 ⟨base, 0⟩
  check (decide (m.loads ≠ 0)) .noLoad
  let entry := eh.entry + bias
  check (decide (¬(entry < base ∨ limit ≤ entry))) .range
  let info : LoadInfo :=
    { entry := entry
      imageEnd := m.maxEnd
      phdr := 0#32
      phent := 32#32
      phnum := eh.phnum.setWidth 32
      base := bias
      isDyn := decide (eh.type = typeDyn)
      hasInterp := false
      hasDynamic := false
      interp := []
      relocCount := 0 }
  loop (describeSegment image eh bias) eh.phnum.toNat 0 (info, 0#32)

def relocate (x : LoadInfo × BitVec 32) (base limit : BitVec 32) : Prog ElfError LoadInfo :=
  if x.2 = 0#32 then pure x.1
  else do
    let count ← elfApplyDynamic x.2 x.1.base base limit
    pure { x.1 with relocCount := count }

def elf32LoadEx (image : Image) (base limit : BitVec 32) : Prog ElfError LoadInfo := do
  let x ← elfMapSegments image base limit
  relocate x base limit

/-- `elf32_load_program`: an image with an interpreter is not relocated. -/
def elf32LoadProgram (image : Image) (base limit : BitVec 32) : Prog ElfError LoadInfo := do
  let x ← elfMapSegments image base limit
  if x.1.hasInterp then pure x.1 else relocate x base limit

def validateSegment (image : Image) (eh : Ehdr) (bias base limit : BitVec 32) (i : Nat)
    (m : Mapped) : Prog ElfError (ForInStep Mapped) := do
  let ph ← elfPhdr image eh i
  if ph.type ≠ ptLoad then pure (.yield m)
  else do
    checkSegment image ph bias base limit
    pure (.yield (m.add (ph.vaddr + bias + ph.memsz)))

/-- `elf32_validate`: the entry and the end of the image. -/
def elf32Validate (image : Image) (base limit : BitVec 32) :
    Prog ElfError (BitVec 32 × BitVec 32) := do
  let eh ← elfParse image
  let bias ← elfLoadBias image eh base
  let m ← loop (validateSegment image eh bias base limit) eh.phnum.toNat 0 ⟨base, 0⟩
  check (decide (m.loads ≠ 0)) .noLoad
  let entry := eh.entry + bias
  check (decide (¬(entry < base ∨ limit ≤ entry))) .range
  pure (entry, m.maxEnd)

end MuOS.User.Elf
