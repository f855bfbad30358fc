import Mathlib.Tactic.Simps.Basic
import MuOS.Lib.BitWords
import MuOS.Lib.Word

namespace MuOS.Mm.Frames

open Lib Word

/-- The bitmap, the reference bytes and two counters. Address 0 is NULL. -/
structure Allocator where
  bitmap : Nat → BitVec 32
  frameRefs : Nat → Nat
  totalPages : Nat
  freePages : Nat

/-- `MM_MAX_PAGES`: RAM above 1 GB is ignored. -/
def maxPages : Nat := 262144

@[simps -fullyApplied frameRefs totalPages freePages]
def bitmapSet (s : Allocator) (frame : Nat) : Allocator :=
  { s with bitmap := BitWords.set s.bitmap frame }

@[simps -fullyApplied frameRefs totalPages freePages]
def bitmapClear (s : Allocator) (frame : Nat) : Allocator :=
  { s with bitmap := BitWords.clear s.bitmap frame }

def bitmapTest (s : Allocator) (frame : Nat) : Bool := BitWords.test s.bitmap frame

def bitmapWords (s : Allocator) : Nat := (s.totalPages + 31) / 32

@[simps -fullyApplied frameRefs totalPages freePages]
def setRef (s : Allocator) (pfn n : Nat) : Allocator :=
  { s with frameRefs := Function.update s.frameRefs pfn n }

@[simps -fullyApplied frameRefs totalPages freePages]
def setFree (s : Allocator) (n : Nat) : Allocator := { s with freePages := n }

def mmPageRefInc (s : Allocator) (phys : Nat) : Allocator :=
  let pfn := phys / 4096
  if s.totalPages ≤ pfn then s
  else if s.frameRefs pfn < 255 then setRef s pfn (s.frameRefs pfn + 1) else s

def mmPageRef (s : Allocator) (phys : Nat) : Nat :=
  let pfn := phys / 4096
  if pfn < s.totalPages then s.frameRefs pfn else 0

def pageUnref (s : Allocator) (pfn : Nat) : Allocator :=
  if s.totalPages ≤ pfn then s
  else if 1 < s.frameRefs pfn then setRef s pfn (s.frameRefs pfn - 1)
  else
    let s := setRef s pfn 0
    if bitmapTest s pfn then
      let s := bitmapClear s pfn
      setFree s (add32 s.freePages 1)
    else s

/-- The inner loop of `bitmap_find_first_free`; `none` falls through. -/
def scanBits (s : Allocator) (i : Nat) : Nat → Nat → Option (Option Nat)
  | 0, _ => none
  | n + 1, j =>
    let frame := i * 32 + j
    if s.totalPages ≤ frame then some none
    else if bitmapTest s frame then scanBits s i n (j + 1)
    else some (some frame)

def scanWords (s : Allocator) : Nat → Nat → Option Nat
  | 0, _ => none
  | n + 1, i =>
    if s.bitmap i = BitVec.allOnes 32 then scanWords s n (i + 1)
    else
      match scanBits s i 32 0 with
      | some r => r
      | none => scanWords s n (i + 1)

/-- `none` is the source's `(uint32_t)-1`. -/
def bitmapFindFirstFree (s : Allocator) : Option Nat := scanWords s (bitmapWords s) 0

def mmAllocPage (s : Allocator) : Nat × Allocator :=
  match bitmapFindFirstFree s with
  | none => (0, s)
  | some frame =>
    let s := setRef (bitmapSet s frame) frame 1
    (frame * 4096, setFree s (sub32 s.freePages 1))

def mmFreePage (s : Allocator) (addr : Nat) : Allocator :=
  let frame := addr / 4096
  if frame < s.totalPages then pageUnref s frame else s

def firstUsed (s : Allocator) (start count : Nat) : Option Nat :=
  (List.range count).find? (fun i => bitmapTest s (start + i))

/-- The outer loop of `mm_alloc_pages`, bounded. -/
def findRun (s : Allocator) (count : Nat) : Nat → Nat → Option Nat
  | 0, _ => none
  | n + 1, start =>
    if start + count ≤ s.totalPages then
      match firstUsed s start count with
      | some i => findRun s count n (start + i + 1)
      | none => some start
    else none

def markRun (s : Allocator) (start count : Nat) : Allocator :=
  (List.range count).foldl (fun s i => setRef (bitmapSet s (start + i)) (start + i) 1) s

def mmAllocPages (s : Allocator) (count : Nat) : Nat × Allocator :=
  if count = 0 ∨ s.totalPages < count ∨ s.freePages < count then (0, s)
  else
    match findRun s count (s.totalPages + 1) 0 with
    | none => (0, s)
    | some start =>
      let s := markRun s start count
      (start * 4096, setFree s (sub32 s.freePages count))

def mmFreePages (s : Allocator) (addr count : Nat) : Allocator :=
  let frame := addr / 4096
  if count = 0 then s
  else if addr % 4096 ≠ 0 then s
  else if s.totalPages ≤ frame ∨ s.totalPages < add32 frame count then s
  else (List.range count).foldl (fun s i => pageUnref s (add32 frame i)) s

def reserveRun (s : Allocator) (first count : Nat) : Allocator :=
  (List.range count).foldl (fun s i =>
    let s := bitmapSet s (first + i)
    setFree s (sub32 s.freePages 1)) s

def mmReserveRange (s : Allocator) (start stop : Nat) : Bool × Allocator :=
  if stop ≤ start then (false, s)
  else
    let first := start / 4096
    let last := (stop - 1) / 4096 + 1
    if s.totalPages ≤ first ∨ s.totalPages < last then (false, s)
    else if (firstUsed s first (last - first)).isSome then (false, s)
    else (true, reserveRun s first (last - first))

end MuOS.Mm.Frames
