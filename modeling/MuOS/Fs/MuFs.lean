import MuOS.Fs.Ata
import MuOS.Fs.Metadata

namespace MuOS.Fs.MuFs

open Lib Memory Patches Ata Metadata

structure State where
  tables : Tables
  persistActive : Bool
  persistGen : BitVec 32

structure Pads where
  file : Nat → BitVec 16
  dir : Nat → BitVec 16

/-- `MUFS_J_MAGIC`. -/
def jMagic : BitVec 32 := 0x4D554C4A#32

def blank : Mem := fun _ => 0#8

def journalHeader (mark gen : BitVec 32) : Mem := wr32 (wr32 blank 0 mark) 4 gen

def journalCopies (dev : Drive) (fileBuf dirBuf : Mem) : List (Mem → Mem) :=
  ataWriteBytes dev (10 * 512) fileBuf 1600 ++ ataWriteBytes dev (13 * 512) dirBuf 1280

def tableWrites (dev : Drive) (fileBuf dirBuf : Mem) : List (Mem → Mem) :=
  ataWriteBytes dev (2 * 512) fileBuf 1600 ++ ataWriteBytes dev (6 * 512) dirBuf 1280

/-- The sector writes of `persist_meta`, in order. -/
def persistMeta (dev : Drive) (s : State) (pads : Pads) : List (Mem → Mem) :=
  if s.persistActive then
    let fileBuf := fileTable s.tables pads.file
    let dirBuf := dirTable s.tables pads.dir
    journalCopies dev fileBuf dirBuf ++
      (ataWriteBytes dev (9 * 512) (journalHeader jMagic s.persistGen) 32 ++
      (tableWrites dev fileBuf dirBuf ++ ataWriteBytes dev (9 * 512) (journalHeader 0#32 s.persistGen) 32))
  else []

def replayCopies (dev : Drive) (d : Mem) : Mem :=
  match ataReadBytes dev d (10 * 512) blank 1600, ataReadBytes dev d (13 * 512) blank 1280 with
  | some fileBuf, some dirBuf => applyAll (tableWrites dev fileBuf dirBuf) d
  | _, _ => d

/-- Mounting first replays an interrupted commit. -/
def replayJournal (dev : Drive) (d : Mem) : Mem :=
  match ataReadBytes dev d (9 * 512) blank 32 with
  | some jh =>
    if rd32 jh 0 = jMagic then
      applyAll (ataWriteBytes dev (9 * 512) (wr32 jh 0 0#32) 32) (replayCopies dev d)
    else d
  | none => d

/-- "MUFS", version 2, 128 sectors a slot, 16 files, 16 directories. -/
def validSuper (sb : Mem) : Bool :=
  rd32 sb 0 == 0x5346554D#32 && rd32 sb 4 == 2#32 && rd32 sb 8 == 128#32 && rd32 sb 12 == 16#32 &&
    rd32 sb 16 == 16#32

def emptyFile : FileMeta :=
  ⟨fun _ => 0#8, 0#32, 0#32, 0#32, 0#32, 0#32, 0#32, 0#32, 0#32, 0#16, rfl, zero_size_le⟩

def emptyDir : DirMeta := ⟨fun _ => 0#8, 0#32, 0#32, 0#32, 0#16, rfl⟩

def emptyTables : Tables := ⟨fun _ => emptyFile, fun _ => emptyDir⟩

def superblock (gen : BitVec 32) : Mem :=
  wr32 (wr32 (wr32 (wr32 (wr32 (wr32 blank 0 0x5346554D#32) 4 2#32) 8 128#32) 12 16#32) 16 16#32)
    20 gen

def inactive (s : State) : State := ⟨s.tables, false, 0#32⟩

def format (dev : Drive) (d : Mem) : State × Mem :=
  let s : State := ⟨emptyTables, true, 1#32⟩
  (s, applyAll (ataWriteBytes dev 0 (superblock 1#32) 52 ++ persistMeta dev s
    ⟨fun _ => 0#16, fun _ => 0#16⟩) d)

def loadTables (dev : Drive) (s : State) (sb d : Mem) : State :=
  match ataReadBytes dev d (2 * 512) blank 1600, ataReadBytes dev d (6 * 512) blank 1280 with
  | some fileBuf, some dirBuf => ⟨⟨loadFiles fileBuf, loadDirs dirBuf⟩, true, rd32 sb 20⟩
  | _, _ => inactive s

/-- `partitioned` is the partition driver's report. -/
def fsPersistMount (dev : Drive) (partitioned : Bool) (s : State) (d : Mem) : State × Mem :=
  if dev.present then
    let d := replayJournal dev d
    match ataReadBytes dev d 0 blank 52 with
    | some sb =>
      if validSuper sb then (loadTables dev s sb d, d)
      else if partitioned then (inactive s, d) else format dev d
    | none => if partitioned then (inactive s, d) else format dev d
  else (inactive s, d)

end MuOS.Fs.MuFs
