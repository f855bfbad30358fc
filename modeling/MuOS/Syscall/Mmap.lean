import MuOS.Lib.Memory
import MuOS.User.Fds
import MuOS.User.Window

namespace MuOS.Syscall.Mmap

open Lib Memory Word User Fds Window List

structure Args where
  addr : BitVec 32
  len : BitVec 32
  prot : BitVec 32
  flags : BitVec 32
  fd : BitVec 32
  offset : BitVec 32

inductive Errno
  | ebadf
  | enomem
  | efault
  | enodev
  | einval
deriving DecidableEq

def Errno.code : Errno → Nat
  | .ebadf => 9
  | .enomem => 12
  | .efault => 14
  | .enodev => 19
  | .einval => 22

def err (e : Errno) : Nat := sub32 0 e.code

/-- The process's memory, break and open files, and the RAM files. -/
structure Ctx where
  mem : Mem
  brk : Brk
  fds : FdTable
  files : Nat → RamFile

structure Write where
  addr : Nat
  bytes : List (BitVec 8)

structure Outcome where
  result : Except Errno Nat
  brk : Brk
  writes : List Write

def mapFixed (a : Args) : Bool := a.flags &&& 0x10#32 != 0#32

def mapAnonymous (a : Args) : Bool := a.flags &&& 0x20#32 != 0#32

def zeros (start n : Nat) : Write := ⟨start, List.replicate n 0#8⟩

/-- The address asked for, or the bump arena, zeroed at once. -/
def place (c : Ctx) (a : Args) (rounded : Nat) : Except Errno (Nat × Brk × List Write) :=
  if mapFixed a then
    if a.addr.toNat % 4096 ≠ 0 then .error .einval
    else if a.addr.toNat < userBase ∨ sub32 arenaEnd a.addr.toNat < rounded then .error .enomem
    else .ok (a.addr.toNat, c.brk, [])
  else
    match userMmapAnon c.brk a.len.toNat with
    | none => .error .enomem
    | some (start, brk) => .ok (start, brk, [zeros start rounded])

def backing (c : Ctx) (fd : Int) : Except Errno (Option (Nat → BitVec 8) × Nat) :=
  match userFdKind c.fds fd with
  | some .file =>
    let slot := userFdSlot c.fds fd
    if slot < 0 then .error .ebadf else .ok (fsFdData c.files slot, fsFdSize c.files slot)
  | some .vfile => .ok ((userFdVfile c.fds fd).2, (userFdVfile c.fds fd).1)
  | _ => .error .enodev

def copyIn (start rounded offset : Nat) : Option (Nat → BitVec 8) × Nat → List Write
  | (none, _) => []
  | (some data, fsize) =>
    if offset < fsize then
      [⟨start, (List.range (min (fsize - offset) rounded)).map (fun i => data (offset + i))⟩]
    else []

def fill (c : Ctx) (a : Args) (start rounded : Nat) : Except Errno (List Write) :=
  if mapAnonymous a then
    if a.fd.toInt ≠ -1 then .error .einval
    else .ok (if mapFixed a then [zeros start rounded] else [])
  else if a.fd.toInt < 0 then .error .ebadf
  else if a.offset.toNat % 4096 ≠ 0 then .error .einval
  else
    match backing c a.fd.toInt with
    | .error e => .error e
    | .ok b => .ok (zeros start rounded :: copyIn start rounded a.offset.toNat b)

def doMmap (c : Ctx) (a : Args) : Outcome :=
  if a.len.toNat = 0 then ⟨.error .einval, c.brk, []⟩
  else
    let rounded := alignUpPage a.len.toNat
    if rounded < a.len.toNat ∨ userSize < rounded then ⟨.error .enomem, c.brk, []⟩
    else
      match place c a rounded with
      | .error e => ⟨.error e, c.brk, []⟩
      | .ok (start, brk, ws) =>
        match fill c a start rounded with
        | .error e => ⟨.error e, brk, ws⟩
        | .ok ws' => ⟨.ok start, brk, ws ++ ws'⟩

/-- The entry points; `mmap2` counts pages. -/
inductive Call
  | mmap (a : Args)
  | mmap2 (a : Args)
  | oldMmap (argsPtr : BitVec 32)

def decode (c : Ctx) : Call → Except Errno Args
  | .mmap a => .ok a
  | .mmap2 a =>
    if 1048575 < a.offset.toNat then .error .einval else .ok { a with offset := a.offset * 4096#32 }
  | .oldMmap ptr =>
    let p := ptr.toNat
    if userPtrOk p 24 then
      .ok ⟨rd32 c.mem p, rd32 c.mem (p + 4), rd32 c.mem (p + 8), rd32 c.mem (p + 12), rd32 c.mem (p + 16),
        rd32 c.mem (p + 20)⟩
    else .error .efault

def sysMmap (c : Ctx) (call : Call) : Outcome :=
  match decode c call with
  | .error e => ⟨.error e, c.brk, []⟩
  | .ok a => doMmap c a

def inArena (x : Nat) : Prop := userBase ≤ x ∧ x < arenaEnd

/-- The `n` bytes at `start` lie in the arena. -/
def rangeInside (start n : Nat) : Prop := ∀ i, i < n → inArena (add32 start i)

/-- What the kernel writes, and the range it returns, lie in the arena. -/
def contained (c : Ctx) (call : Call) : Prop :=
  (∀ w ∈ (sysMmap c call).writes, rangeInside w.addr w.bytes.length) ∧
    ∀ a start, decode c call = .ok a → (sysMmap c call).result = .ok start →
    rangeInside start (alignUpPage a.len.toNat)

def accepted (c : Ctx) (a : Args) : Prop :=
  if mapAnonymous a then a.fd.toInt = -1
  else 0 ≤ a.fd.toInt ∧ a.offset.toNat % 4096 = 0 ∧ ∃ b, backing c a.fd.toInt = .ok b

/-- Above the arena the difference that bounds the length wraps. -/
def escapes (c : Ctx) (a : Args) : Prop :=
  mapFixed a = true ∧ arenaEnd < a.addr.toNat ∧ a.addr.toNat % 4096 = 0 ∧ 0 < a.len.toNat ∧
    a.len.toNat ≤ alignUpPage a.len.toNat ∧ alignUpPage a.len.toNat ≤ userSize ∧ accepted c a

variable {c : Ctx} {a : Args} {start rounded : Nat} {ws : List Write} {brk : Brk}

theorem rangeInside_of_le {n k : Nat} (h1 : userBase ≤ start) (h2 : start + n ≤ arenaEnd)
    (hk : k ≤ n) : rangeInside start k := by
  intro i hi
  simp only [arenaEnd] at h2
  rw [add32_eq (by omega)]
  simp only [inArena, arenaEnd]
  omega

theorem place_fixed (hf : mapFixed a = true) {r : Nat × Brk × List Write}
    (h : place c a rounded = .ok r) : r = (a.addr.toNat, c.brk, []) ∧ a.addr.toNat % 4096 = 0 ∧
      userBase ≤ a.addr.toNat ∧ rounded ≤ sub32 arenaEnd a.addr.toNat := by
  simp only [place, hf, if_true] at h
  split at h
  · cases h
  split at h
  · cases h
  cases h
  exact ⟨rfl, by omega, by omega, by omega⟩

theorem place_arena (hf : mapFixed a = false) (h : place c a rounded = .ok (start, brk, ws)) :
    ws = [zeros start rounded] ∧ userBase ≤ start ∧ start + alignUpPage a.len.toNat ≤ arenaEnd := by
  simp only [place, hf, Bool.false_eq_true, if_false] at h
  cases hm : userMmapAnon c.brk a.len.toNat with
  | none =>
    rw [hm] at h
    cases h
  | some r =>
    obtain ⟨s, b⟩ := r
    rw [hm] at h
    cases h
    exact ⟨rfl, userMmapAnon_some hm⟩

theorem fill_length (h : fill c a start rounded = .ok ws) : ∀ w ∈ ws, w.addr = start ∧
    w.bytes.length ≤ rounded := by
  simp only [fill] at h
  split at h
  · split at h
    · cases h
    cases h
    split
    · simp [zeros]
    · simp
  split at h
  · cases h
  split at h
  · cases h
  cases hb : backing c a.fd.toInt with
  | error e =>
    rw [hb] at h
    cases h
  | ok b =>
    rw [hb] at h
    cases h
    intro w hw
    cases mem_cons.mp hw with
    | inl he =>
      subst he
      simp [zeros]
    | inr hw =>
      obtain ⟨data, fsize⟩ := b
      cases data with
      | none => simp [copyIn] at hw
      | some d =>
        simp only [copyIn] at hw
        split at hw
        · rw [mem_singleton.mp hw]
          simp only [length_map, length_range]
          exact ⟨trivial, Nat.min_le_right _ _⟩
        · simp at hw

theorem fill_ok_iff : (∃ ws, fill c a start rounded = .ok ws) ↔ accepted c a := by
  simp only [fill, accepted]
  by_cases ha : mapAnonymous a = true
  · by_cases hf : a.fd.toInt = -1
    · simp [ha, hf]
    · simp [ha, hf]
  by_cases hf : a.fd.toInt < 0
  · simp [ha, hf, Int.not_le.mpr hf]
  by_cases ho : a.offset.toNat % 4096 = 0
  · cases hb : backing c a.fd.toInt with
    | error e => simp [ha, hf, ho]
    | ok b => simp [ha, hf, ho, Int.not_lt.mp hf]
  · simp [ha, hf, ho]

section

variable (h0 : 0 < a.len.toNat) (h1 : a.len.toNat ≤ alignUpPage a.len.toNat)
  (h2 : alignUpPage a.len.toNat ≤ userSize)
include h0 h1 h2

theorem doMmap_eq : doMmap c a = match place c a (alignUpPage a.len.toNat) with
      | .error e => ⟨.error e, c.brk, []⟩
      | .ok (start, brk, ws) =>
        match fill c a start (alignUpPage a.len.toNat) with
        | .error e => ⟨.error e, brk, ws⟩
        | .ok ws' => ⟨.ok start, brk, ws ++ ws'⟩ := by
  rw [doMmap, if_neg (by omega)]
  simp only
  rw [if_neg (by omega)]

theorem place_inside {ws' : List Write}
    (hp : place c a (alignUpPage a.len.toNat) = .ok (start, brk, ws))
    (hf : fill c a start (alignUpPage a.len.toNat) = .ok ws') (he : ¬ escapes c a) :
    userBase ≤ start ∧ start + alignUpPage a.len.toNat ≤ arenaEnd := by
  cases hm : mapFixed a with
  | false => exact (place_arena hm hp).2
  | true =>
    obtain ⟨hr, hd, hb, hle⟩ := place_fixed hm hp
    cases hr
    have hacc := fill_ok_iff.mp ⟨ws', hf⟩
    have hna : ¬ arenaEnd < a.addr.toNat := fun hl => he ⟨hm, hl, hd, h0, h1, h2, hacc⟩
    rw [sub32_eq (by decide) (by omega)] at hle
    exact ⟨hb, by omega⟩

end

theorem place_writes (hr : rounded = alignUpPage a.len.toNat)
    (h : place c a rounded = .ok (start, brk, ws)) :
    ∀ w ∈ ws, rangeInside w.addr w.bytes.length := by
  cases hm : mapFixed a with
  | true =>
    obtain ⟨he, -⟩ := place_fixed hm h
    cases he
    exact fun w hw => absurd hw not_mem_nil
  | false =>
    obtain ⟨rfl, hb, hle⟩ := place_arena hm h
    intro w hw
    rw [mem_singleton.mp hw]
    exact rangeInside_of_le hb hle (by simp [zeros, hr])

theorem doMmap_inside (he : ¬ escapes c a) :
    (∀ w ∈ (doMmap c a).writes, rangeInside w.addr w.bytes.length) ∧
      ∀ start, (doMmap c a).result = .ok start → rangeInside start (alignUpPage a.len.toNat) := by
  by_cases h0 : a.len.toNat = 0
  · rw [doMmap, if_pos h0]
    exact ⟨fun w hw => absurd hw not_mem_nil, fun s hs => by cases hs⟩
  by_cases hr : alignUpPage a.len.toNat < a.len.toNat ∨ userSize < alignUpPage a.len.toNat
  · rw [doMmap, if_neg h0, if_pos hr]
    exact ⟨fun w hw => absurd hw not_mem_nil, fun s hs => by cases hs⟩
  have h1 : a.len.toNat ≤ alignUpPage a.len.toNat := by omega
  have h2 : alignUpPage a.len.toNat ≤ userSize := by omega
  rw [doMmap_eq (by omega) h1 h2]
  cases hp : place c a (alignUpPage a.len.toNat) with
  | error e => exact ⟨fun w hw => absurd hw not_mem_nil, fun s hs => by cases hs⟩
  | ok r =>
    obtain ⟨start, brk, ws⟩ := r
    have hws := place_writes rfl hp
    simp only
    cases hf : fill c a start (alignUpPage a.len.toNat) with
    | error e => exact ⟨hws, fun s hs => by cases hs⟩
    | ok ws' =>
      obtain ⟨hb, hle⟩ := place_inside (by omega) h1 h2 hp hf he
      refine ⟨?_, ?_⟩
      · intro w hw
        cases mem_append.mp hw with
        | inl hw => exact hws w hw
        | inr hw =>
          obtain ⟨ha, hl⟩ := fill_length hf w hw
          rw [ha]
          exact rangeInside_of_le hb hle hl
      · intro s hs
        cases hs
        exact rangeInside_of_le hb hle (Nat.le_refl _)

theorem doMmap_escapes (he : escapes c a) : (doMmap c a).result = .ok a.addr.toNat := by
  obtain ⟨hm, hl, hd, h0, h1, h2, hacc⟩ := he
  have hlt := a.addr.isLt
  have hb : userBase ≤ arenaEnd := by decide
  have hp : place c a (alignUpPage a.len.toNat) = .ok (a.addr.toNat, c.brk, []) := by
    simp only [arenaEnd, userSize] at hl h2
    have hs : ¬ sub32 arenaEnd a.addr.toNat < alignUpPage a.len.toNat := by
      simp only [sub32, arenaEnd]
      omega
    simp only [place, hm, if_true, hd, ne_eq, not_true_eq_false, if_false]
    rw [if_neg]
    simp only [arenaEnd, userBase] at hb ⊢
    exact fun ho => hs (ho.resolve_left (by omega))
  obtain ⟨ws, hf⟩ := fill_ok_iff.mpr hacc
  rw [doMmap_eq h0 h1 h2, hp]
  simp only
  rw [hf]

/-- A call stays inside the arena exactly when it is not a fixed mapping above
the arena that passes the remaining checks. -/
theorem mmap_contained_iff (c : Ctx) (call : Call) : contained c call ↔
    ¬ ∃ a, decode c call = .ok a ∧ escapes c a := by
  constructor
  · rintro ⟨-, hret⟩ ⟨a, hd, he⟩
    have hs : (sysMmap c call).result = .ok a.addr.toNat := by
      rw [sysMmap, hd]
      exact doMmap_escapes he
    have hin := hret a _ hd hs 0 (by obtain ⟨-, -, -, h0, h1, -⟩ := he; omega)
    rw [add32_eq (by have hlt := a.addr.isLt; omega)] at hin
    exact absurd hin.2 (by have hl := he.2.1; omega)
  · intro hn
    cases hd : decode c call with
    | error e =>
      refine ⟨?_, fun a s ha _ => by rw [hd] at ha; cases ha⟩
      rw [sysMmap, hd]
      exact fun w hw => absurd hw not_mem_nil
    | ok a =>
      have hin := doMmap_inside fun he => hn ⟨a, hd, he⟩
      have hs : sysMmap c call = doMmap c a := by rw [sysMmap, hd]
      rw [contained, hs]
      refine ⟨hin.1, ?_⟩
      intro a' s ha' hr
      rw [hd] at ha'
      cases ha'
      exact hin.2 s hr

/-- The break one page into the window, only standard descriptors open. -/
def sampleCtx : Ctx :=
  ⟨fun _ => 0#8, ⟨0x08049000, 0x08049000, by decide, by decide, by decide⟩,
    fun i => ⟨if i = 0 then .stdin else if i = 1 then .stdout else if i = 2 then .stderr
      else .free, -1, 0, fun _ => 0#8, 0⟩,
    fun _ => ⟨false, 0, fun _ => 0#8⟩⟩

/-- One anonymous page fixed in the stack reserve. -/
def stackPageArgs : Args := ⟨0x08839000#32, 4096#32, 3#32, 0x32#32, 0xFFFFFFFF#32, 0#32⟩

theorem mmap_fixed_above_arena : ¬ contained sampleCtx (.mmap stackPageArgs) ∧
    (sysMmap sampleCtx (.mmap stackPageArgs)).result = .ok 0x08839000 ∧ arenaEnd < 0x08839000 := by
  refine ⟨?_, by decide +kernel, by decide⟩
  rintro ⟨-, hret⟩
  have hin := hret stackPageArgs 0x08839000 rfl (by decide +kernel) 0 (by decide)
  exact absurd hin.2 (by decide)

end MuOS.Syscall.Mmap
