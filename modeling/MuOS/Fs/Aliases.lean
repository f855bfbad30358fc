import MuOS.Lib.Runs
import Mathlib.Data.List.GetD
import Mathlib.Data.List.Nodup

namespace MuOS.Fs.Aliases

open Function Lib.Runs List

abbrev Name := List (BitVec 8)

def dot : BitVec 8 := 46#8

def isLower (c : BitVec 8) : Bool := 97#8 ≤ c && c ≤ 122#8

def upper (c : BitVec 8) : BitVec 8 := if isLower c then c - 32#8 else c

/-- A letter, digit or one of `more`; else an underscore. -/
def cleaned (more : Name) (c : BitVec 8) : BitVec 8 :=
  let c := upper c
  if (65#8 ≤ c && c ≤ 90#8) || (48#8 ≤ c && c ≤ 57#8) || more.contains c then c else 95#8

def padded (n : Nat) (fill : BitVec 8) (l : Name) : Name := l ++ replicate (n - l.length) fill

/-- The loop of `name_is_83`. -/
def nameIs83 : Nat → Nat → Bool → Name → Bool
  | base, _, _, [] => 0 < base
  | base, ext, dotted, c :: cs =>
    if c = dot then !dotted && nameIs83 base ext true cs
    else if isLower c then false
    else if dotted then ext < 3 && nameIs83 base (ext + 1) true cs
    else base < 8 && nameIs83 (base + 1) ext false cs

/-- The first loop of `make_short`: characters but dots, and before the last dot. -/
def scanDots : Nat → Option Nat → Name → Nat × Option Nat
  | n, d, [] => (n, d)
  | n, d, c :: cs =>
    if 12 ≤ n then (n, d) else if c = dot then scanDots n (some n) cs else scanDots (n + 1) d cs

def makeShort (name : Name) : Name :=
  let (n, d) := scanDots 0 none name
  let baseLen := if 8 < d.getD 9 then min n 8 else d.getD 9
  let ext := if d.getD 9 < 8 then (name.drop (d.getD 9 + 1)).take 3 else []
  padded 8 32#8 (((name.filter (· ≠ dot)).take baseLen).map (cleaned [95#8, 45#8, 126#8])) ++
    padded 3 32#8 (ext.map (cleaned [95#8, 45#8]))

/-- The number after the tilde is always 1. -/
def makeAlias (name : Name) : Name :=
  let base := (name.takeWhile (· ≠ dot)).take 6
  let rest := name.drop base.length
  makeShort (padded 6 95#8 (base.map (cleaned [])) ++ [126#8, 49#8] ++
    if rest.head? = some dot then dot :: (rest.tail.take 3).map upper else [])

def shortName (e : Name) : Name :=
  let ext := e.drop 8
  (e.take 8).takeWhile (· ≠ 32#8) ++ if ext.head? = some 32#8 then []
    else dot :: ext.takeWhile (· ≠ 32#8)

/-- The 32 bytes of a directory entry. -/
abbrev Slot := Nat → BitVec 8

/-- A directory's clusters along its chain. -/
abbrev Dir := List (List Slot)

def isFree (s : Slot) : Bool := s 0 == 0#8 || s 0 == 0xE5#8

def isLong (s : Slot) : Bool := s 11 &&& 0x3F#8 == 0x0F#8

/-- A file or directory: in use, no part of a long name, no volume label. -/
def isFile (s : Slot) : Bool := !isFree s && !isLong s && s 11 &&& 8#8 == 0#8

def eleven (s : Slot) : Name := (List.range 11).map s

/-- Where character `i` of a long name's part stands. -/
def lfnAt (i : Nat) : Nat := if i < 5 then 1 + i else if i < 11 then 14 + (i - 5) else 28 + (i - 11)

/-- The `lfn` buffer with part `seq` put in; what else it holds stays. -/
def addLfn (lfn : Nat → BitVec 8) (seq : Nat) (s : Slot) : Nat → BitVec 8 := fun j =>
  if j = 259 then 0#8
  else if (seq - 1) * 13 ≤ j ∧ j < (seq - 1) * 13 + 13 then s (lfnAt (j - (seq - 1) * 13))
  else lfn j

def cstr (lfn : Nat → BitVec 8) : Name := ((List.range 260).map lfn).takeWhile (· ≠ 0#8)

/-- `ci_cmp` gives 0. -/
def ciEq (a b : Name) : Bool := a.map upper == b.map upper

inductive Found
  | ended
  | at (i : Nat)
  | more (lfn : Nat → BitVec 8)

/-- The loop of `dir_find` over a cluster. Only the first byte of `lfn` is ever cleared. -/
def findIn (name : Name) : Nat → (Nat → BitVec 8) → Bool → List Slot → Found
  | _, lfn, _, [] => .more lfn
  | i, lfn, parts, s :: ss =>
    if s 0 = 0#8 then .ended
    else if s 0 = 0xE5#8 then findIn name (i + 1) (update lfn 0 0#8) false ss
    else if isLong s then
      let seq := (s 0 &&& 0x1F#8).toNat
      if seq = 0 ∨ 20 < seq then findIn name (i + 1) lfn parts ss
      else findIn name (i + 1) (addLfn lfn seq s) true ss
    else if s 11 &&& 8#8 ≠ 0#8 then findIn name (i + 1) (update lfn 0 0#8) false ss
    else if (parts && ciEq (cstr lfn) name) || ciEq (shortName (eleven s)) name then .at i
    else findIn name (i + 1) (update lfn 0 0#8) false ss

/-- `dir_find`: cluster and slot of the entry, if any; `none` for a chain longer than `guard`. -/
def dirFind (name : Name) : Nat → (Nat → BitVec 8) → Dir → Option (Option (Nat × Nat))
  | _, _, [] => some none
  | 0, _, _ :: _ => none
  | guard + 1, lfn, cl :: cls =>
    match findIn name 0 (update lfn 0 0#8) false cl with
    | .ended => some none
    | .at i => some (some (0, i))
    | .more lfn => (dirFind name guard lfn cls).map (Option.map fun p => (p.1 + 1, p.2))

/-- The loop of `dir_free_run` over a cluster. -/
def runIn (need : Nat) : Nat → Nat → Nat → List Slot → Option Nat
  | _, _, _, [] => none
  | off, run, start, s :: ss =>
    if isFree s then
      let start := if run = 0 then off else start
      if need ≤ run + 1 then some start else runIn need (off + 1) (run + 1) start ss
    else runIn need (off + 1) 0 start ss

/-- `dir_free_run` up to the new cluster, for which it gives `some none`. -/
def dirFreeRun (need : Nat) : Nat → Dir → Option (Option (Nat × Nat))
  | _, [] => some none
  | 0, _ :: _ => none
  | guard + 1, cl :: cls =>
    match runIn need 0 0 0 cl with
    | some i => some (some (0, i))
    | none => (dirFreeRun need guard cls).map (Option.map fun p => (p.1 + 1, p.2))

def lfnChecksum (sn : Name) : BitVec 8 :=
  sn.foldl (fun sum c => (if sum &&& 1#8 = 0#8 then 0#8 else 0x80#8) + (sum >>> 1) + c) 0#8

def longSlot (name sn : Name) (entries seq : Nat) : Slot :=
  let ch := fun i => name.getD ((seq - 1) * 13 + i) 0#8
  fun b =>
    if b = 0 then BitVec.ofNat 8 seq ||| (if seq = entries then 0x40#8 else 0#8)
    else if b = 11 then 0x0F#8
    else if b = 13 then lfnChecksum sn
    else if 1 ≤ b ∧ b < 6 then ch (b - 1)
    else if 14 ≤ b ∧ b < 20 then ch (b - 14 + 5)
    else if 28 ≤ b ∧ b < 30 then ch (b - 28 + 11)
    else 0#8

/-- The entry of a file under the eleven bytes `sn`. -/
def entry (sn : Name) (first size : BitVec 32) : Slot := fun b =>
  (sn ++ [0x20#8] ++ replicate 8 0#8 ++ [first >>> 16, first >>> 24].map (BitVec.setWidth 8) ++
    replicate 4 0#8 ++ [first, first >>> 8, size, size >>> 8, size >>> 16, size >>> 24].map
    (BitVec.setWidth 8)).getD b 0#8

/-- `dir_write_long`; with no part of a long name, the short entry alone. -/
def newSlots (name sn : Name) (first size : BitVec 32) (entries : Nat) : List Slot :=
  (List.range entries).map (fun i => longSlot name sn entries (entries - i)) ++
    [entry sn first size]

def put (dir : Dir) (c i : Nat) (new : List Slot) : Dir :=
  dir.modify c fun cl => cl.take i ++ new ++ cl.drop (i + new.length)

def shortFor (name : Name) : Name :=
  if nameIs83 0 0 false name then makeShort name else makeAlias name

/-- A call: the file, what the stack holds, where its data went, and whether a cluster for the
directory (`room`) and those for the data (`stored`) are to be had. -/
structure Write where
  name : Name
  stack : Nat → BitVec 8
  first : BitVec 32
  size : BitVec 32
  room : Bool
  stored : Bool

inductive Outcome
  | failed | rewritten | made
deriving DecidableEq

/-- `fat_write_file` on a directory with `n` entries to a cluster. -/
def fatWriteFile (n : Nat) (dir : Dir) (w : Write) : Outcome × Dir :=
  let sn := shortFor w.name
  let entries := if nameIs83 0 0 false w.name then 0 else (w.name.length + 12) / 13
  let new := newSlots w.name sn w.first w.size entries
  if w.name = [] ∨ 19 < entries then (.failed, dir)
  else
    match dirFind w.name 4096 w.stack dir with
    | none => (.failed, dir)
    | some (some (c, i)) =>
      if w.stored then
        (.rewritten, dir.modify c fun cl => cl.modify i fun s => entry (eleven s) w.first w.size)
      else (.failed, dir)
    | some none =>
      match dirFreeRun (entries + 1) 4096 dir with
      | none => (.failed, dir)
      | some (some (c, i)) => if w.stored then (.made, put dir c i new) else (.failed, dir)
      | some none =>
        if !w.room then (.failed, dir)
        else
          let dir := dir ++ [replicate n fun _ => 0#8]
          if n < entries + 1 ∨ !w.stored then (.failed, dir) else (.made, put dir (dir.length - 1) 0 new)

def step (n : Nat) (dir : Dir) (w : Write) : Option Dir := some (fatWriteFile n dir w).2

def files (cl : List Slot) : List Name := (cl.filter isFile).map eleven

variable {dir dir' : Dir} {cl : List Slot} {name sn : Name} {need c i n : Nat}
  {w : Write} {s : Slot}

def write (name : Name) : Write := ⟨name, fun _ => 0x41#8, 7#32, 5#32, true, true⟩

def emptyDir : Dir := [replicate 16 fun _ => 0#8]

end MuOS.Fs.Aliases
