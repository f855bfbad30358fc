import MuOS.Fs.RamFs
import MuOS.User.ElfBounds
import MuOS.User.Window

namespace MuOS.User.Exec

open Lib Memory Accesses Fs.RamFs Window Elf ElfBounds List BitVec Nat

abbrev Path := List (BitVec 8)

def fileImage (r : Ram) (i : Fin 16) : Image where
  bytes := (List.range (r.tables.files i).size.toNat).map (r.data i)
  size_lt := by
    rw [List.length_map, List.length_range]
    exact (r.tables.files i).size.isLt

/-- The files, the built-in interpreter, and the clock. -/
structure World where
  ram : Ram
  ldMuSo : Image
  ticks : BitVec 32

def embeddedNames : List Path :=
  [[0x6C#8, 0x69#8, 0x62#8, 0x2F#8, 0x6C#8, 0x64#8, 0x2D#8, 0x6D#8, 0x75#8, 0x2E#8, 0x73#8, 0x6F#8],
    [0x6C#8, 0x64#8, 0x2D#8, 0x6D#8, 0x75#8, 0x2E#8, 0x73#8, 0x6F#8]]

/-- `interp_find`; a file that is empty does not count. -/
def interpFind (w : World) (path : Path) : Option Image :=
  let norm := path.dropWhile (fun c => c == slash)
  if path = [] ∨ 64 ≤ norm.length then none
  else
    let embedded := if norm ∈ embeddedNames then some w.ldMuSo else none
    match fileSlotOf w.ram norm with
    | some i => if (w.ram.tables.files i).size ≠ 0#32 then some (fileImage w.ram i) else embedded
    | none => embedded

def wordBytes (v : BitVec 32) : List (BitVec 8) :=
  [v.extractLsb' 0 8, v.extractLsb' 8 8, v.extractLsb' 16 8, v.extractLsb' 24 8]

def headerBytes (entry : BitVec 32) (phnum : BitVec 8) : List (BitVec 8) :=
  [0x7F#8, 0x45#8, 0x4C#8, 0x46#8, 1#8, 1#8, 1#8] ++ List.replicate 9 0#8 ++ [2#8, 0#8, 3#8, 0#8] ++
    [1#32, entry, 52#32, 0#32, 0#32].flatMap wordBytes ++ [52#8, 0#8, 32#8, 0#8, phnum] ++
    List.replicate 7 0#8

def phdrBytes (type offset vaddr filesz memsz : BitVec 32) : List (BitVec 8) :=
  [type, offset, vaddr, 0#32, filesz, memsz, 0#32, 0#32].flatMap wordBytes

/-- One zero page that asks for the interpreter `/x`. -/
def asksForX : List (BitVec 8) :=
  headerBytes 0x08048000#32 2#8 ++ phdrBytes ptLoad 0#32 0x08048000#32 0#32 4096#32 ++
    phdrBytes ptInterp 116#32 0#32 3#32 3#32 ++ [0x2F#8, 0x78#8, 0#8]

def userInterpBase : Nat := 0x08200000

inductive ExecError
  | elf (e : ElfError)
  | noInterp
  | badInterp
  | noRoom

def windowBase : BitVec 32 := BitVec.ofNat 32 userBase
def windowLimit : BitVec 32 := BitVec.ofNat 32 arenaEnd
def interpBase : BitVec 32 := BitVec.ofNat 32 userInterpBase

/-- The program, and its interpreter if it has one. -/
structure Program where
  info : LoadInfo
  entry : BitVec 32
  interp : Option (Image × LoadInfo)

/-- `AT_BASE`. -/
def Program.interpBias (p : Program) : BitVec 32 := p.interp.elim 0#32 (fun x => x.2.base)

def userLoadForExec (w : World) (image : Image) : Prog ExecError Program := do
  let li ← (elf32LoadProgram image windowBase windowLimit).mapError .elf
  if li.hasInterp = false then pure ⟨li, li.entry, none⟩
  else
    match interpFind w (li.interp.takeWhile (fun c => c != 0#8)) with
    | none => fail .noInterp
    | some interp => do
      let ii ← (elf32LoadEx interp interpBase windowLimit).mapError (fun _ => .badInterp)
      pure ⟨li, ii.entry, some (interp, ii)⟩

structure Placed (image : Image) (p : Program) : Prop where
  program : Loaded image windowBase windowLimit p.info
  interp : ∀ x, p.interp = some x → Loaded x.1 interpBase windowLimit x.2

variable {argv : List Path} {w : World} {image : Image}

theorem userLoadForExec_confined (w : World) (image : Image) :
    Confined (fun _ => True) (loadBound + loadBound) (userLoadForExec w image) (Placed image) := by
  have hload : Confined (Allowed image windowBase windowLimit) loadBound
      (elf32LoadProgram image windowBase windowLimit)
      (Loaded image windowBase windowLimit) := elf32LoadProgram_confined
  have hprogram := hload.allow (fun _ _ => trivial) |>.mapError ExecError.elf
  refine hprogram.bind fun li hli => ?_
  split
  · exact .pure ⟨hli, fun x hx => by cases hx⟩
  split
  · exact .fail _
  rename_i interp _
  have hload' : Confined (Allowed interp interpBase windowLimit) loadBound
      (elf32LoadEx interp interpBase windowLimit) (Loaded interp interpBase windowLimit) :=
      elf32LoadEx_confined
  have hinterp := hload'.allow (fun _ _ => trivial) |>.mapError fun _ => ExecError.badInterp
  refine hinterp.bind (n := 0) fun ii hii => .pure ⟨hli, fun x hx => ?_⟩
  cases hx
  exact hii

structure Stack where
  sp : BitVec 32
  mem : Mem

def Stack.push (s : Stack) (bs : List (BitVec 8)) : Stack :=
  let sp := s.sp - BitVec.ofNat 32 bs.length
  ⟨sp, fun x => if sp.toNat ≤ x ∧ x < sp.toNat + bs.length then bs.getD (x - sp.toNat) 0#8
    else s.mem x⟩

def Stack.pushWord (s : Stack) (v : BitVec 32) : Stack :=
  ⟨s.sp - 4#32, wr32 s.mem (s.sp - 4#32).toNat v⟩

/-- `push_string`: at most 256 bytes with the terminator. -/
def Stack.pushString (s : Stack) (str : Path) : Stack := s.push (str.take 255 ++ [0#8])

def pushArgs (argv : List Path) (s : Stack) : Stack × List (BitVec 32) :=
  argv.foldr (fun str x => (x.1.pushString str, (x.1.pushString str).sp :: x.2)) (s, [])

def nextSeed (seed : BitVec 32) : BitVec 32 := seed * 1103515245#32 + 12345#32

def randomBytes : Nat → BitVec 32 → List (BitVec 8)
  | 0, _ => []
  | n + 1, seed => (nextSeed seed >>> 16).setWidth 8 :: randomBytes n (nextSeed seed)

def pushWords (vs : List (BitVec 32)) (s : Stack) : Stack := vs.foldr (fun v s => s.pushWord v) s

def auxv (p : Program) (random : BitVec 32) : List (BitVec 32) :=
  [3#32, p.info.phdr, 4#32, p.info.phent, 5#32, p.info.phnum, 6#32, 4096#32, 7#32, p.interpBias,
    9#32, p.info.entry, 25#32, random, 0#32, 0#32]

/-- Below the trampoline, up to seven pages down. -/
def stackTop (ticks : BitVec 32) : BitVec 32 :=
  BitVec.ofNat 32 (userEnd - 4096) - 32#32 - (ticks &&& 7#32) * 4096#32

/-- `build_user_stack` for one to sixteen arguments. -/
def buildUserStack (w : World) (argv : List Path) (p : Program) (m : Mem) : Stack :=
  let args := pushArgs argv ⟨stackTop w.ticks, m⟩
  let random := args.1.push (randomBytes 16 (nextSeed w.ticks))
  let aux := pushWords (auxv p random.sp) random
  -- the count, the arguments, and the ends of `argv` and `envp`
  pushWords (BitVec.ofNat 32 argv.length :: args.2 ++ [0#32, 0#32]) aux

section

variable {s : Stack} {n : Nat}

theorem Stack.push_sp (bs : List (BitVec 8)) (h : n + bs.length ≤ s.sp.toNat) :
    n ≤ (s.push bs).sp.toNat := by
  have hlt := s.sp.isLt
  have hlen : (BitVec.ofNat 32 bs.length).toNat = bs.length := by
    rw [toNat_ofNat]
    omega
  rw [Stack.push]
  rw [toNat_sub_of_le (by rw [le_def]; omega)]
  omega

theorem Stack.pushString_sp (str : Path) (h : n + 256 ≤ s.sp.toNat) :
    n ≤ (s.pushString str).sp.toNat := by
  refine Stack.push_sp _ (Nat.le_trans (Nat.add_le_add_left ?_ n) h)
  rw [length_append, length_take, length_singleton]
  omega

theorem pushWords_sp (vs : List (BitVec 32)) (h : n + 4 * vs.length ≤ s.sp.toNat) :
    n ≤ (pushWords vs s).sp.toNat := by
  induction vs generalizing n with
  | nil => exact h
  | cons v vs ih =>
    have hrest : n + 4 ≤ (pushWords vs s).sp.toNat := by
      refine ih ?_
      rw [length_cons] at h
      omega
    have h4 : (4#32).toNat = 4 := rfl
    show n ≤ ((pushWords vs s).sp - 4#32).toNat
    rw [toNat_sub_of_le (by rw [le_def]; omega)]
    omega

theorem pushArgs_sp (argv : List Path) (h : n + 256 * argv.length ≤ s.sp.toNat) :
    n ≤ (pushArgs argv s).1.sp.toNat ∧ (pushArgs argv s).2.length = argv.length := by
  induction argv generalizing n with
  | nil => exact ⟨h, rfl⟩
  | cons str argv ih =>
    obtain ⟨hsp, hlen⟩ := ih (n := n + 256) (by rw [length_cons] at h; omega)
    exact ⟨Stack.pushString_sp str hsp, congrArg (· + 1) hlen⟩

theorem randomBytes_length (k : Nat) (seed : BitVec 32) : (randomBytes k seed).length = k := by
  induction k generalizing seed with
  | zero => rfl
  | succ k ih => rw [randomBytes, length_cons, ih]

theorem stackTop_ge (ticks : BitVec 32) : userEnd - 0x9000 ≤ (stackTop ticks).toNat := by
  have hand : (ticks &&& 7#32).toNat ≤ 7 := by
    exact and_le_right
  have hmul : ((ticks &&& 7#32) * 4096#32).toNat = (ticks &&& 7#32).toNat * 4096 := by
    have hpage : (4096#32).toNat = 4096 := rfl
    rw [toNat_mul, hpage]
    exact mod_eq_of_lt (by omega)
  have htop : (BitVec.ofNat 32 (userEnd - 4096) - 32#32).toNat = userEnd - 4096 - 32 := by decide
  have hend : userEnd = 0x08848000 := rfl
  rw [stackTop, toNat_sub_of_le (by rw [le_def]; omega)]
  omega

theorem buildUserStack_ge (hargs : argv.length ≤ 16) (p : Program) (m : Mem)
    (h : n + 4252 ≤ (stackTop w.ticks).toNat) : n ≤ (buildUserStack w argv p m).sp.toNat := by
  obtain ⟨hsp, hlen⟩ :=
    pushArgs_sp (n := n + 156) (s := ⟨stackTop w.ticks, m⟩) argv (by dsimp only; omega)
  have hrandom :=
    Stack.push_sp (randomBytes 16 (nextSeed w.ticks)) (by rw [randomBytes_length]; exact hsp)
  have hwords :
      (BitVec.ofNat 32 argv.length ::
      (pushArgs argv ⟨stackTop w.ticks, m⟩).2 ++ [0#32, 0#32]).length = argv.length + 3 := by
    rw [length_append, length_cons, hlen]
    rfl
  refine pushWords_sp _ (le_trans ?_ (pushWords_sp _ hrandom))
  omega

/-- Memory, break, registers to resume with, and names. -/
structure Caller (Regs : Type) where
  mem : Mem
  brk : Nat × Nat
  regs : Regs
  name : Path
  cmdline : Path

variable {Regs : Type}

/-- The window is cleared and the program loaded into it. -/
def replaceImage (w : World) (image : Image) : Prog ExecError Program := do
  fill userBase (userSize - 4096)
  userLoadForExec w image

theorem replaceImage_placed {s : Store} {p : Program} (h : (replaceImage w image s).1 = .ok p) :
    Placed image p := by
  have hfill : Confined (fun _ => True) 1 (fill userBase (userSize - 4096) : Prog ExecError Unit)
    (fun _ => True) :=
    .fill trivial
  exact (hfill.bind fun _ _ => userLoadForExec_confined w image).returns h

/-- `user_exec_image`: the entry and the stack pointer. -/
def userExecImage (w : World) (image : Image) (argv : List Path) (t : Caller Regs) :
    Except ExecError (BitVec 32 × BitVec 32) × Caller Regs :=
  match replaceImage w image ⟨t.mem, []⟩ with
  | (.error e, s) => (.error e, { t with mem := s.mem })
  | (.ok p, s) =>
    let base := max (alignUpPage p.info.imageEnd.toNat) (userBase + 4096)
    let stack := buildUserStack w argv p s.mem
    let t := { t with mem := stack.mem, brk := (base, base) }
    if stack.sp.toNat ≤ base + 4096 then (.error .noRoom, t) else (.ok (p.entry, stack.sp), t)

def newBreak (p : Program) : Nat := max (alignUpPage p.info.imageEnd.toNat) (userBase + 4096)

theorem userExecImage_eq (hargs : argv.length ≤ 16) (t : Caller Regs) :
    userExecImage w image argv t = match replaceImage w image ⟨t.mem, []⟩ with
      | (.error e, s) => (.error e, { t with mem := s.mem })
      | (.ok p, s) =>
        (.ok (p.entry, (buildUserStack w argv p s.mem).sp),
          { t with mem := (buildUserStack w argv p s.mem).mem, brk := (newBreak p, newBreak p) }) := by
  have hend : ∀ p, (replaceImage w image ⟨t.mem, []⟩).1 = .ok p →
    p.info.imageEnd.toNat ≤ arenaEnd :=
    fun p hp => (replaceImage_placed hp).program.high
  rw [userExecImage]
  generalize replaceImage w image ⟨t.mem, []⟩ = r at hend
  obtain ⟨o, s⟩ := r
  cases o with
  | error e => rfl
  | ok p =>
    have hroom := buildUserStack_ge (n := arenaEnd + 4097) hargs p s.mem
      (le_trans (by decide) (stackTop_ge w.ticks))
    have hbase : max (alignUpPage p.info.imageEnd.toNat) (userBase + 4096) ≤ arenaEnd :=
      Nat.max_le.mpr ⟨(alignUpPage_le (hend p rfl) (by decide) (by decide)).2, by decide⟩
    dsimp only
    rw [if_neg (by omega)]
    rfl

end

end MuOS.User.Exec
