import MuOS.Lib.Patches
import MuOS.Lib.Runs
import MuOS.Lib.Spans
import MuOS.Syscall.Mmap

namespace MuOS.Syscall.Arena

open Lib Memory Patches Runs Spans User Fds Window Mmap Option Bool

/-- `SYS_brk`: what it returns, and the break it leaves. -/
def sysBrk (b : Brk) (addr : BitVec 32) : Nat × Brk :=
  if addr = 0#32 then (b.current, b)
  else match userSetBrk b addr.toNat with
    | none => (b.current, b)
    | some b' => (addr.toNat, b')

/-- What an `mmap` sees of the rest of the system. -/
structure Surroundings where
  mem : Mem
  fds : FdTable
  files : Nat → RamFile

def Surroundings.ctx (e : Surroundings) (b : Brk) : Ctx := ⟨e.mem, b, e.fds, e.files⟩

inductive Request
  | brk (addr : BitVec 32)
  | mmap (e : Surroundings) (call : Mmap.Call)

/-- The break, the ranges `mmap` has returned, and those `brk` grants. -/
structure Handed where
  brk : Brk
  mapped : List Span
  heap : List Span

def fresh (b : Brk) : Handed := ⟨b, [], [⟨b.base, b.current⟩]⟩

def isFixed (e : Surroundings) (b : Brk) (call : Mmap.Call) : Bool :=
  match decode (e.ctx b) call with
  | .ok a => mapFixed a
  | .error _ => false

def returned (e : Surroundings) (b : Brk) (call : Mmap.Call) : Option Span :=
  match decode (e.ctx b) call, (sysMmap (e.ctx b) call).result with
  | .ok a, .ok start => some ⟨start, start + alignUpPage a.len.toNat⟩
  | _, _ => none

def step (s : Handed) : Request → Option Handed
  | .brk addr =>
    let b := (sysBrk s.brk addr).2
    some ⟨b, s.mapped, if s.brk.current ≤ b.current then ⟨s.brk.current, b.current⟩ :: s.heap
      else s.heap.map (Span.cut b.current)⟩
  | .mmap e call =>
    if isFixed e s.brk call then none
    else some ⟨(sysMmap (e.ctx s.brk) call).brk, (returned e s.brk call).toList ++ s.mapped, s.heap⟩

/-- A mapping is apart from earlier ones and the heap, and `brk`'s grants from mappings. -/
def Separate (s : Handed) : Request → Prop
  | .brk addr => ∀ t ∈ s.mapped, Apart ⟨s.brk.current, (sysBrk s.brk addr).2.current⟩ t
  | .mmap e call => isFixed e s.brk call = false → ∀ r, returned e s.brk call = some r →
    ∀ t ∈ s.mapped ++ s.heap, Apart r t

def Upward (s : Handed) : Request → Prop
  | .brk addr => Below (sysBrk s.brk addr).2.current s.mapped
  | .mmap _ _ => True

section

structure Bounded (s : Handed) : Prop where
  mapped : Below s.brk.current s.mapped
  heap : Below s.brk.current s.heap

variable {s s' : Handed} {b : Brk} {e : Surroundings} {call : Mmap.Call} {req : Request}

theorem fresh_bounded (b : Brk) : Bounded (fresh b) :=
  ⟨below_nil _, (below_nil _).cons (Nat.le_refl _)⟩

theorem mmapAnon_span {len start : Nat} {b' : Brk} (h : userMmapAnon b len = some (start, b')) :
    b.current ≤ start ∧ b'.current = start + alignUpPage len := by
  have hs := b.start_bounds
  simp only [userMmapAnon] at h
  split at h
  · cases h
  split at h
  · cases h
  split at h
  · cases h
  cases some.inj h
  exact ⟨hs.1, rfl⟩

theorem sysMmap_span (hf : isFixed e b call = false) :
    b.current ≤ (sysMmap (e.ctx b) call).brk.current ∧
      ∀ r, returned e b call = some r → b.current ≤ r.lo ∧
      (sysMmap (e.ctx b) call).brk.current = r.hi := by
  simp only [isFixed] at hf
  simp only [sysMmap, returned]
  cases hd : decode (e.ctx b) call with
  | error err => exact ⟨(Nat.le_refl _), fun r hr => by cases hr⟩
  | ok a =>
    rw [hd] at hf
    simp only [doMmap]
    split
    · exact ⟨(Nat.le_refl _), fun r hr => by cases hr⟩
    split
    · exact ⟨(Nat.le_refl _), fun r hr => by cases hr⟩
    simp only [place, hf, false_eq_true, if_false]
    cases hm : userMmapAnon (e.ctx b).brk a.len.toNat with
    | none => exact ⟨(Nat.le_refl _), fun r hr => by cases hr⟩
    | some w =>
      obtain ⟨start, b'⟩ := w
      obtain ⟨hlo, hhi⟩ := mmapAnon_span hm
      have hle : b.current ≤ b'.current := by
        rw [hhi]
        exact Nat.le_add_right_of_le hlo
      simp only
      cases fill (e.ctx b) a start (alignUpPage a.len.toNat) with
      | error err => exact ⟨hle, fun r hr => by cases hr⟩
      | ok ws =>
        refine ⟨hle, fun r hr => ?_⟩
        cases hr
        exact ⟨hlo, hhi⟩

theorem Bounded.separate (h : Bounded s) (req : Request) : Separate s req := by
  cases req with
  | brk addr => exact h.mapped.apart (Nat.le_refl _)
  | mmap e call =>
    intro hf r hr
    exact (h.mapped.append h.heap).apart ((sysMmap_span hf).2 r hr).1

theorem Bounded.step (h : Bounded s) (hu : Upward s req) (ht : step s req = some s') :
    Bounded s' := by
  cases req with
  | brk addr =>
    cases ht
    refine ⟨hu, ?_⟩
    simp only
    split
    · rename_i hle
      exact (h.heap.mono hle).cons (Nat.le_refl _)
    · exact below_cut _ _
  | mmap e call =>
    rw [Arena.step] at ht
    split at ht
    · cases ht
    rename_i hf
    cases ht
    obtain ⟨hle, hr⟩ := sysMmap_span (eq_false_iff.mpr hf)
    refine ⟨?_, h.heap.mono hle⟩
    simp only
    cases hret : returned e s.brk call with
    | none => exact h.mapped.mono hle
    | some r => exact (h.mapped.mono hle).cons (Nat.le_of_eq (hr r hret).2.symm)

end

/-- In every sequence of calls that never takes the break below the end of a
mapping, what is handed out is separate. -/
theorem mappings_separate (b : Brk) {reqs : List Request} (h : Meets step Upward (fresh b) reqs) :
    Meets step Separate (fresh b) reqs :=
  h.keeps (fun _ _ _ hb hu ht => hb.step hu ht) (fun _ req hb _ => hb.separate req)
    (fresh_bounded b)

def anonymousPage : Request :=
  .mmap ⟨fun _ => 0#8, fun _ => ⟨.free, -1, 0, fun _ => 0#8, 0⟩, fun _ => ⟨false, 0, fun _ => 0#8⟩⟩
    (.mmap ⟨0#32, 4096#32, 3#32, 0x22#32, 0xFFFFFFFF#32, 0#32⟩)

def secondPage : Brk := sampleCtx.brk

def staysUp (s : Handed) : Request → Bool
  | .brk addr => s.mapped.all (fun t => decide (t.hi ≤ (sysBrk s.brk addr).2.current))
  | .mmap _ _ => true

theorem staysUp_upward {s : Handed} {req : Request} (h : staysUp s req = true) : Upward s req := by
  cases req with
  | brk addr => exact fun t ht => of_decide_eq_true (List.all_eq_true.mp h t ht)
  | mmap e call => trivial

theorem mappings_separate_pages : Meets step Separate (fresh secondPage)
    [.brk 0x08049800#32, anonymousPage, .brk 0x0804C000#32, anonymousPage] :=
  mappings_separate secondPage (checks_meets (fun _ _ => staysUp_upward) (by decide +kernel))

/-- A break that is taken back over a mapping hands the same page out again. -/
theorem lowered_break_remaps :
    ∃ s t, run step (fresh secondPage) [anonymousPage] = some t ∧ t.mapped = [⟨0x08049000, 0x0804A000⟩] ∧
      run step t [.brk 0x08049000#32] = some s ∧ ¬ Separate s anonymousPage ∧
      ¬ Separate s (.brk 0x0804A000#32) := by
  refine ⟨_, _, rfl, by decide +kernel, rfl, fun h => ?_, fun h => ?_⟩
  · have hr := h (by decide +kernel) ⟨0x08049000, 0x0804A000⟩ (by decide +kernel)
      ⟨0x08049000, 0x0804A000⟩ (by decide +kernel)
    exact hr 0x08049000 (by decide) (by decide)
  · have hr := h ⟨0x08049000, 0x0804A000⟩ (by decide +kernel)
    exact hr 0x08049000 (by decide +kernel) (by decide)

section

variable {c : Ctx} {a : Args} {b b' : Brk} {len start : Nat}

def written (m : Mem) (ws : List Write) : Mem :=
  ws.foldl (fun m w => patch m w.addr w.bytes.length (fun k => w.bytes.getD k 0#8)) m

/-- A failed call leaves the break and the memory alone. -/
def Intact (c : Ctx) (call : Mmap.Call) : Prop :=
  ∀ e, (sysMmap c call).result = .error e → (sysMmap c call).brk = c.brk ∧
    written c.mem (sysMmap c call).writes = c.mem

/-- The descriptor or offset is refused after the arena had room. -/
structure Abandons (c : Ctx) (a : Args) : Prop where
  moving : mapFixed a = false
  room : (userMmapAnon c.brk a.len.toNat).isSome = true
  refused : ¬ accepted c a

theorem userMmapAnon_len (h : userMmapAnon b len = some (start, b')) : 0 < len ∧
    len ≤ alignUpPage len := by
  simp only [userMmapAnon] at h
  split at h
  · cases h
  split at h
  · cases h
  · omega

theorem Abandons.fails (h : Abandons c a) : ∃ e, (doMmap c a).result = .error e ∧
    (doMmap c a).brk ≠ c.brk := by
  obtain ⟨⟨start, b'⟩, hm⟩ := isSome_iff_exists.mp h.room
  obtain ⟨hpos, hle⟩ := userMmapAnon_len hm
  obtain ⟨hbase, hend⟩ := userMmapAnon_some hm
  obtain ⟨hlo, hhi⟩ := mmapAnon_span hm
  have hsize : alignUpPage a.len.toNat ≤ userSize := by
    simp only [arenaEnd, userBase] at hend hbase
    simp only [userSize]
    omega
  have hplace : place c a (alignUpPage a.len.toNat) = .ok
    (start, b', [zeros start (alignUpPage a.len.toNat)]) := by
    simp only [place, h.moving, false_eq_true, if_false, hm]
  rw [doMmap_eq hpos hle hsize, hplace]
  cases hf : fill c a start (alignUpPage a.len.toNat) with
  | ok ws => exact absurd (fill_ok_iff.mp ⟨ws, hf⟩) h.refused
  | error e =>
    simp only [hf]
    refine ⟨e, rfl, ?_⟩
    rintro rfl
    omega

theorem doMmap_intact (h : ¬ Abandons c a) {e : Errno} (he : (doMmap c a).result = .error e) :
    (doMmap c a).brk = c.brk ∧ (doMmap c a).writes = [] := by
  simp only [doMmap] at he ⊢
  split
  · exact ⟨rfl, rfl⟩
  rename_i h0
  rw [if_neg h0] at he
  split
  · exact ⟨rfl, rfl⟩
  rename_i hr
  rw [if_neg hr] at he
  cases hp : place c a (alignUpPage a.len.toNat) with
  | error e => exact ⟨rfl, rfl⟩
  | ok w =>
    obtain ⟨start, b', ws⟩ := w
    rw [hp] at he
    cases hf : fill c a start (alignUpPage a.len.toNat) with
    | ok ws' =>
      simp only [hf] at he
      cases he
    | error e =>
      simp only [hf]
      cases hm : mapFixed a with
      | true =>
        obtain ⟨hw, -⟩ := place_fixed hm hp
        cases hw
        exact ⟨rfl, rfl⟩
      | false =>
        have hacc : ¬ accepted c a := fun hacc => by
          obtain ⟨ws', hok⟩ := fill_ok_iff.mpr hacc
          cases hf.symm.trans hok
        refine absurd ⟨hm, ?_, hacc⟩ h
        by_contra hnone
        rw [not_isSome_iff_eq_none] at hnone
        simp only [place, hm, false_eq_true, if_false, hnone] at hp
        cases hp

/-- Failing has no effect except after the arena was moved for a request whose
descriptor or offset is then refused. -/
theorem mmap_intact_iff (c : Ctx) (call : Mmap.Call) : Intact c call ↔
    ¬ ∃ a, decode c call = .ok a ∧ Abandons c a := by
  constructor
  · rintro h ⟨a, hd, ha⟩
    have hs : sysMmap c call = doMmap c a := by rw [sysMmap, hd]
    obtain ⟨e, he, hb⟩ := ha.fails
    rw [← hs] at he hb
    exact hb (h e he).1
  · intro h e he
    rw [sysMmap] at he ⊢
    cases hd : decode c call with
    | error e => exact ⟨rfl, rfl⟩
    | ok a =>
      rw [hd] at he
      obtain ⟨hb, hw⟩ := doMmap_intact (fun ha => h ⟨a, hd, ha⟩) he
      refine ⟨hb, ?_⟩
      simp only [hw]
      rfl

def noFileArgs : Args := ⟨0#32, 4096#32, 3#32, 2#32, 0xFFFFFFFF#32, 0#32⟩

theorem failed_mmap_moves_break : (sysMmap sampleCtx (.mmap noFileArgs)).result = .error .ebadf ∧
    (sysMmap sampleCtx (.mmap noFileArgs)).brk.current = 0x0804A000 ∧
    sampleCtx.brk.current = 0x08049000 ∧ ¬ Intact sampleCtx (.mmap noFileArgs) := by
  have he : (sysMmap sampleCtx (.mmap noFileArgs)).result = .error .ebadf := by decide +kernel
  have hb : (sysMmap sampleCtx (.mmap noFileArgs)).brk.current = 0x0804A000 := by decide +kernel
  refine ⟨he, hb, rfl, fun h => ?_⟩
  rw [(h _ he).1] at hb
  cases hb

end

end MuOS.Syscall.Arena
