import MuOS.Kernel.Answers

namespace MuOS.Kernel.Vectors

open Lib.Runs Fs.RamFs User Fds Descriptors State Wake Calls Stir Step Phases Holdings Sleepers
  Answers BitVec

variable (w : World) (fd : Int) (out : Stores)

/-- The bytes a descriptor has for a part of the vector; of the raw disk, as many as it gives. -/
def stored (k : Machine) (len : BitVec 32) : Nat :=
  match len.toNat, (descIndex fd).map k.fds with
  | 0, _ | _, none => 0
  | n, some d =>
    match d.kind with
    | .stdin | .devConsole => (k.keys.take 1).length
    | .pipeRead => ((pipeValid k d.pipeId).map (fun j => (front k j n).length)).getD 0
    | .file => (fsReadAt k.ram d.fsSlot d.offset.toNat n).2.length
    | .vfile => (((List.range d.vlen).drop d.offset.toNat).take n).length
    | .devZero => n
    | .devAta => (BitVec.ofInt 32 (w.io .devAta n)).toNat
    | _ => 0

variable {w fd out} {k k' : Machine} {buf len v total : BitVec 32}
  {parts : List (BitVec 32 × BitVec 32)}

variable {k1 k2 k3 : Machine} {ram : Ram} {mem : UserMem} {cow : Cow} {as bs : List Act}
  {fd' : BitVec 32} {a : Act}

end MuOS.Kernel.Vectors
