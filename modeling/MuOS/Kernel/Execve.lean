import MuOS.Kernel.Calls
import MuOS.Kernel.Stir
import MuOS.User.Exec

namespace MuOS.Kernel.Execve

open Lib.Memory Fs.RamFs User Window Elf Syscall.Vfs State Calls
open User.Exec hiding Path World

variable {args : List Path} {image : Image} {m : Mem}

/-- The loop of `copy_user_string`. -/
def copyChars (m : Mem) : Nat → BitVec 32 → Option Path
  | 0, _ => some []
  | n + 1, p =>
    if userPtrOk p.toNat 1 then
      if m p.toNat = 0#8 then some [] else (copyChars m n (p + 1#32)).map (fun cs => m p.toNat :: cs)
    else none

/-- `copy_user_string` into `max` bytes. -/
def copyString (m : Mem) (ptr : BitVec 32) (max : Nat) : Option Path :=
  (copyChars m max ptr).map (fun cs => cs.take (max - 1))

/-- At most `n` strings of an argument list. -/
def copyArgs (m : Mem) : Nat → BitVec 32 → Option (List Path)
  | 0, _ => some []
  | n + 1, argv =>
    if userPtrOk argv.toNat 4 then
      let p := rd32 m argv.toNat
      if p = 0#32 then some []
      else match copyString m p 64 with
        | none => none
        | some arg => (copyArgs m n (argv + 4#32)).map (fun args => arg :: args)
    else none

theorem copyArgs_length (m : Mem) (n : Nat) (argv : BitVec 32) (h : copyArgs m n argv = some args) :
    args.length ≤ n := by
  induction n generalizing argv args with
  | zero =>
    cases h
    exact Nat.le_refl _
  | succ n ih =>
    simp only [copyArgs] at h
    split at h
    · split at h
      · cases h
        exact Nat.zero_le _
      split at h
      · cases h
      obtain ⟨rest, hrest, rfl⟩ := Option.map_eq_some_iff.mp h
      exact Nat.succ_le_succ (ih _ hrest)
    · cases h

def baseName (path : Path) : Path :=
  ((path.reverse.takeWhile (fun c => c != slash)).reverse).take 63

def argsOf (m : Mem) (path : Path) (argv : BitVec 32) : Option (List Path) :=
  if argv = 0#32 then some [baseName path]
  else (copyArgs m 16 argv).map (fun args => if args = [] then [baseName path] else args)

theorem argsOf_length {path : Path} {argv : BitVec 32} (h : argsOf m path argv = some args) :
    args.length ≤ 16 := by
  rw [argsOf] at h
  split at h
  · cases h
    exact (by decide : 1 ≤ 16)
  obtain ⟨as, has, rfl⟩ := Option.map_eq_some_iff.mp h
  have hlen := copyArgs_length m 16 argv has
  split
  · exact (by decide : 1 ≤ 16)
  · exact hlen

section

/-- What the call finds; `module` is the first boot module. -/
structure Env where
  ctx : Syscall.Vfs.Ctx
  sys : Sys
  ldMuSo : Image
  ticks : BitVec 32
  module : Option Image

def Env.world (env : Env) : User.Exec.World := ⟨env.sys.ram, env.ldMuSo, env.ticks⟩

def imageOf (env : Env) : Node → Option Image
  | .file i =>
    if (env.sys.ram.tables.files i).size ≠ 0#32 then some (fileImage env.sys.ram i) else none
  | .module => env.module.filter (fun image => image.size != 0#32)
  | _ => none

/-- What `do_execve` does before the old image is given up. -/
def prepare (env : Env) (m : Mem) (path argv : BitVec 32) : Except Nat (Image × List Path) :=
  match copyString m path 128 with
  | none => .error eFAULT
  | some name =>
    match vfsLookup env.ctx env.sys name with
    | .error e => .error e
    | .ok (_, .error e) => .error e
    | .ok (_, .ok node) =>
      match imageOf env node with
      | none => .error eNOEXEC
      | some image =>
        match argsOf m name argv with
        | none => .error eFAULT
        | some args =>
          match (elf32Validate image windowBase windowLimit ⟨m, []⟩).1 with
          | .error _ => .error eNOEXEC
          | .ok _ => .ok (image, args)

def started (r : Regs) (entry sp : BitVec 32) : Regs :=
  { r with
    eip := entry, useresp := sp, ebx := 0#32, ecx := 0#32, edx := 0#32, esi := 0#32,
    edi := 0#32, ebp := 0#32 }

def space : BitVec 8 := 32#8

def execve (env : Env) (path argv : BitVec 32) (t : Caller Regs) : Except Nat Unit × Caller Regs :=
  match prepare env t.mem path argv with
  | .error e => (.error e, t)
  | .ok (image, args) =>
    match userExecImage env.world image args t with
    | (.error _, t) => (.error eNOEXEC, t)
    | (.ok (entry, sp), t) =>
      (.ok (), { t with
        regs := started t.regs entry sp
        name := (args.headD []).take 31
        cmdline := ([space].intercalate args).take 95 })

variable {env : Env} {path argv : BitVec 32} {t : Caller Regs}

theorem prepare_args (h : prepare env m path argv = .ok (image, args)) : args.length ≤ 16 := by
  rw [prepare] at h
  split at h
  · cases h
  split at h
  · cases h
  · cases h
  split at h
  · cases h
  split at h
  · cases h
  rename_i hargs
  split at h
  · cases h
  cases Except.ok.inj h
  exact argsOf_length hargs

theorem execve_late {code : Nat} (h : (execve env path argv t).1 = .error code)
    (hprep : prepare env t.mem path argv = .ok (image, args)) :
    (execve env path argv t).2 =
    { t with mem := (replaceImage env.world image ⟨t.mem, []⟩).2.mem } := by
  rw [execve, hprep] at h ⊢
  dsimp only at h ⊢
  rw [userExecImage_eq (prepare_args hprep)] at h ⊢
  generalize replaceImage env.world image ⟨t.mem, []⟩ = r at h ⊢
  obtain ⟨o, s⟩ := r
  cases o with
  | ok v => cases h
  | error e => rfl

/-- A failed `execve` leaves its caller as it was exactly if it failed before the old
image was given up, or if clearing and loading came to the same memory. -/
theorem failed_execve_unchanged {code : Nat} (h : (execve env path argv t).1 = .error code) :
      (execve env path argv t).2 = t ↔ (∃ e, prepare env t.mem path argv = .error e) ∨
        ∃ image args, prepare env t.mem path argv = .ok (image, args) ∧
          (replaceImage env.world image ⟨t.mem, []⟩).2.mem = t.mem := by
  cases hprep : prepare env t.mem path argv with
  | error e =>
    have hsame : (execve env path argv t).2 = t := by
      rw [execve, hprep]
    exact ⟨fun _ => .inl ⟨e, rfl⟩, fun _ => hsame⟩
  | ok x =>
    obtain ⟨image, args⟩ := x
    rw [execve_late h hprep]
    constructor
    · intro he
      exact .inr ⟨image, args, rfl, congrArg Caller.mem he⟩
    rintro (⟨e, he⟩ | ⟨image', args', he, hmem⟩)
    · cases he
    cases Except.ok.inj he
    rw [hmem]

def diskWithP : Ram :=
  { bootRam with
    tables := ⟨fun i => if i = 0 then { newFile [0x70#8] 0#32 with size := 119#32, size_le := by decide }
      else bootRam.tables.files i, bootRam.tables.dirs⟩
    data := fun _ x => asksForX.getD x 0#8 }

def envWithP : Env where
  ctx :=
    ⟨0#32, 0#32, 2#32, fun _ => false, false, 0, fun _ _ => [], fun _ => 0#32, none, fun _ _ => 0⟩
  sys := ⟨diskWithP, User.Descriptors.userFdsReset, [slash]⟩
  ldMuSo := noImage
  ticks := 0#32
  module := none

def callerOfP : Caller Regs where
  mem := fun x => if x = 0x08048100 then 0x70#8 else 0#8
  brk := (0x08049000, 0x08049000)
  regs :=
    ⟨0#32, 0#32, 0#32, 0#32, 0#32, 0#32, 0#32, 0#32, 0#32, 0#32, 0#32, 0#32, 0#32, 0#32, 0#32, 0#32⟩
  name := []
  cmdline := []

/-- The file holds zeros, which `elf32_validate` rejects. -/
def envWithZeros : Env := { envWithP with sys.ram.data := fun _ _ => 0#8 }

theorem failed_execve_unchanged_rejected : (imageOf envWithZeros (.file 0)).isSome = true ∧
      (execve envWithZeros 0x08048100#32 0#32 callerOfP).1 = .error eNOEXEC ∧
      (execve envWithZeros 0x08048100#32 0#32 callerOfP).2 = callerOfP := by
  have hrej : (prepare envWithZeros callerOfP.mem 0x08048100#32 0#32).isOk = false := by decide +kernel
  have hfail : (execve envWithZeros 0x08048100#32 0#32 callerOfP).1 = .error eNOEXEC := by decide +kernel
  refine ⟨by decide, hfail, (failed_execve_unchanged hfail).mpr (.inl ?_)⟩
  generalize prepare envWithZeros callerOfP.mem 0x08048100#32 0#32 = r at hrej
  cases r with
  | error e => exact ⟨e, rfl⟩
  | ok x => cases hrej

/-- A missing interpreter is found out when the window is already cleared. -/
theorem failed_execve_clears : (execve envWithP 0x08048100#32 0#32 callerOfP).1 = .error eNOEXEC ∧
      (execve envWithP 0x08048100#32 0#32 callerOfP).2.mem 0x08048100 ≠ callerOfP.mem 0x08048100 := by
  decide +kernel

end

end MuOS.Kernel.Execve
