import MuOS.Lib.Memory
import MuOS.Mm.Frames

namespace MuOS.Kheap.Alloc

open Lib Memory Word Mm.Frames

/-- The heap's memory and extent; headers have 16 bytes. -/
structure Heap where
  mem : Mem
  heapStart : Nat
  heapSize : Nat

/-- `KHEAP_MAGIC`, the marker in every header. -/
def kheapMagic : BitVec 32 := 0x4B48454F#32

def magic (m : Mem) (b : Nat) : BitVec 32 := rd32 m b

def size (m : Mem) (b : Nat) : Nat := (rd32 m (b + 4)).toNat

def used (m : Mem) (b : Nat) : BitVec 32 := rd32 m (b + 8)

def setSize (m : Mem) (b n : Nat) : Mem := wr32 m (b + 4) (BitVec.ofNat 32 n)

def setUsed (m : Mem) (b : Nat) (u : BitVec 32) : Mem := wr32 m (b + 8) u

def setHeader (m : Mem) (b n : Nat) : Mem :=
  wr32 (setUsed (setSize (wr32 m b kheapMagic) b n) b 0#32) (b + 12) 0#32

def kheapInit (fr : Allocator) (h : Heap) : Allocator × Heap :=
  let r := mmAllocPages fr 256
  if r.1 = 0 then (r.2, h)
  else (r.2, ⟨setHeader h.mem r.1 (256 * 4096 - 16), r.1, 256 * 4096⟩)

def kheapReady (h : Heap) : Bool := h.heapStart != 0

/-- `ALIGN16`, on 32-bit values. -/
def align16 (x : Nat) : Nat := add32 x 15 / 16 * 16

def splitTail (m : Mem) (p need : Nat) : Mem :=
  if add32 (add32 need 16) 16 ≤ size m p then
    let nb := add32 (add32 p 16) need
    setSize (setHeader m nb (sub32 (sub32 (size m p) need) 16)) p need
  else m

/-- The walk of `kmalloc`; `none`: the bound was too small. -/
def kmallocLoop (heapEnd need : Nat) : Nat → Mem → Nat → Option (Nat × Mem)
  | 0, _, _ => none
  | n + 1, m, p =>
    if add32 p 16 ≤ heapEnd then
      if magic m p ≠ kheapMagic then some (0, m)
      else if used m p = 0#32 ∧ need ≤ size m p then
        some (add32 p 16, setUsed (splitTail m p need) p 1#32)
      else kmallocLoop heapEnd need n m (add32 p (add32 16 (size m p)))
    else some (0, m)

def walkBound (h : Heap) : Nat := h.heapSize / 16 + 1

def kmalloc (h : Heap) (sz : Nat) : Option (Nat × Heap) :=
  if h.heapStart = 0 then some (0, h)
  else
    let sz := if sz = 0 then 1 else sz
    let need := align16 sz
    if need < sz then some (0, h)
    else
      (kmallocLoop (add32 h.heapStart h.heapSize) need (walkBound h) h.mem h.heapStart).map
        (fun r => (r.1, { h with mem := r.2 }))

def coalesceForward (heapEnd b : Nat) : Nat → Mem → Nat → Option Mem
  | 0, _, _ => none
  | n + 1, m, next =>
    if add32 next 16 ≤ heapEnd then
      if magic m next ≠ kheapMagic ∨ used m next ≠ 0#32 then some m
      else
        let more := add32 16 (size m next)
        coalesceForward heapEnd b n (setSize m b (add32 (size m b) more)) (add32 next more)
    else some m

def coalesceBackward (heapEnd b : Nat) : Nat → Mem → Nat → Option Mem
  | 0, _, _ => none
  | n + 1, m, cur =>
    if add32 cur 16 ≤ heapEnd ∧ cur < b then
      if magic m cur ≠ kheapMagic then some m
      else
        let nxt := add32 cur (add32 16 (size m cur))
        if nxt = b then
          if used m cur = 0#32 then some (setSize m cur (add32 (size m cur) (add32 16 (size m b))))
          else some m
        else coalesceBackward heapEnd b n m nxt
    else some m

def kfree (h : Heap) (ptr : Nat) : Option Heap :=
  if ptr = 0 ∨ h.heapStart = 0 then some h
  else
    let heapEnd := add32 h.heapStart h.heapSize
    if ptr < add32 h.heapStart 16 ∨ heapEnd ≤ ptr then some h
    else
      let b := ptr - 16
      if magic h.mem b ≠ kheapMagic then some h
      else if used h.mem b = 0#32 then some h
      else
        let m := setUsed h.mem b 0#32
        (coalesceForward heapEnd b (walkBound h) m (add32 (add32 b 16) (size m b))).bind (fun m =>
          (coalesceBackward heapEnd b (walkBound h) m h.heapStart).map (fun m => { h with mem := m }))

end MuOS.Kheap.Alloc
