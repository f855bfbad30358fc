import MuOS.Proc.Isolation
import MuOS.Kheap.HeapRuns

namespace MuOS.Proc.Unwinding

open Function Lib Memory Runs Segments Mm Frames Ledger FrameOps Grants UserPd Views TableBuild
open TableClone Sharing Space SpaceOps Invariant ProcRuns Lifecycle Boot Isolation Kheap Kheap.Alloc
open Kheap.HeapOps hiding setMem

variable {reserved : Nat → Prop} {kpd : Nat} {base : Nat → Nat} {vm vm' : Vm} {lost : List Nat}
  {live : Nat → Option View} {h : Heap} {bs : List Seg} {child parent : Nat}

/-- The fields of a `proc_space_t` in the heap. -/
def writeSpace (m : Mem) (x : Nat) (sp : ProcSpace) : Mem :=
  let m := wr32 (wr32 m x (BitVec.ofNat 32 sp.mem)) (x + 4) (BitVec.ofNat 32 sp.memPages)
  let m := wr32 (wr32 m (x + 8) (BitVec.ofNat 32 sp.pdPhys)) (x + 12) (BitVec.ofNat 32 sp.trampPhys)
  wr32 m (x + 16) (BitVec.ofNat 32 sp.refs)

/-- `proc_space_cow` with the heap of its `proc_space_t`. -/
def spaceCow (h : Heap) (vm : Vm) (child parent : Nat) : Option (Bool × Heap × Vm) :=
  let p := vm.procs parent
  if p.space.isNone then some (false, h, vm)
  else do
    let (x, h) ← kmalloc h 20
    if x = 0 then return (false, h, vm)
    let r := cowSpace vm.mm p
    match r.1 with
    | none =>
      let m := writeSpace h.mem x ⟨p.mem, p.memPages, 0, (allocPage vm.mm).1, 0⟩
      let h ← kfree (HeapOps.setMem h m) x
      return (false, h, setMm vm r.2)
    | some sp => return (true, HeapOps.setMem h (writeSpace h.mem x sp), attach (setMm vm r.2) child sp)

/-- Processes, spaces, frames in use and heap blocks are as before. -/
structure Undone (h h' : Heap) (vm vm' : Vm) : Prop where
  procs : vm'.procs = vm.procs
  spaces : vm'.spaces = vm.spaces
  refs : ∀ f, f < vm.mm.fr.totalPages → vm'.mm.fr.frameRefs f = vm.mm.fr.frameRefs f
  free : ∀ f, f < vm.mm.fr.totalPages → bitmapTest vm'.mm.fr f = bitmapTest vm.mm.fr f
  memory : ∀ a, a / 4096 < vm.mm.fr.totalPages → bitmapTest vm.mm.fr (a / 4096) = true →
    vm'.mm.mem a = vm.mm.mem a
  blocks : ∃ bs, Formed h bs ∧ Formed h' bs

/-- The call is refused before the new directory has a frame. -/
def Early (h : Heap) (vm : Vm) (parent : Nat) : Prop :=
  (vm.procs parent).space = none ∨ kmalloc h 20 = some (0, h) ∨
    (allocPage (allocPage vm.mm).2).1 = 0

theorem writeSpace_of_apart {m : Mem} {x a : Nat} {s : ProcSpace} (ha : a < x ∨ x + 20 ≤ a) :
    writeSpace m x s a = m a := by
  unfold writeSpace
  rw [wr32_of_apart _ _ (by omega), wr32_of_apart _ _ (by omega), wr32_of_apart _ _ (by omega),
    wr32_of_apart _ _ (by omega), wr32_of_apart _ _ (by omega)]

theorem alloc_refused {s : Machine} {held : Nat → Nat} (hc : Consistent s.fr held reserved)
    (hall : ∀ f, f < s.fr.totalPages → 0 < held f ∨ reserved f) : (allocPage s).1 = 0 := by
  obtain ⟨he, -⟩ | ⟨f, fr, -, hf, htot, hc'⟩ := alloc_cases hc
  · rw [he]
  have hlt := hc'.held_lt f (by simp [addAll])
  have hfree := hf.unheld
  exact absurd (hall f (htot ▸ hlt)) (by simp [hfree, hf.unreserved])

section

variable (hi : Inv reserved kpd base vm lost live)
include hi

theorem spaceCow_spec (hf : Formed h bs) (hp : parent < procMax) (child : Nat) :
    ((spaceCow h vm child parent).map Prod.fst = some true ∧
      ∃ fs, Takes reserved (heldIn base lost live vm) fs ∧ fs.length = 5) ∨
    ∃ h' mm, spaceCow h vm child parent = some (false, h', setMm vm mm) ∧ Formed h' bs ∧
      ((Early h vm parent ∧ mm.fr = vm.mm.fr ∧ mm.mem = vm.mm.mem) ∨
        ∃ id v t fs fr m, live id = some v ∧ mm = failedClone vm.mm fr m ∧ (Early h vm parent ↔ fs = []) ∧
          FailedFork vm.mm (heldIn base lost live vm) reserved v t fs fr m) := by
  cases hs : (vm.procs parent).space with
  | none => exact .inr ⟨h, vm.mm, by simp [spaceCow, hs, setMm], hf, .inl ⟨.inl hs, rfl, rfl⟩⟩
  | some id =>
    obtain hk | ⟨x, h₁, hk, hx, hback⟩ := kmalloc_kfree hf (show max 1 20 ≤ 4294967280 by decide)
    · exact .inr ⟨h, vm.mm, by simp [spaceCow, hs, hk, setMm], hf, .inl ⟨.inr (.inl hk), rfl, rfl⟩⟩
    have hx0 : ¬ x = 0 := by omega
    obtain ⟨v, hv, hpd⟩ := hi.book.attached parent id hp hs
    obtain ⟨h₂, hfree, hf₂⟩ := hback _ fun a ha => writeSpace_of_apart (s := ⟨(vm.procs parent).mem,
      (vm.procs parent).memPages, 0, (allocPage vm.mm).1, 0⟩) ha
    have hlate : Early h vm parent ↔ (allocPage (allocPage vm.mm).2).1 = 0 := by
      simp [Early, hs, hk, hx0]
    obtain ⟨t, pd, ts, s', he, hfork⟩ | ⟨he, hall⟩ | ⟨t, fs, fr, m, he, hfail, hsecond⟩ :=
      cowSpace_spec hi.sound hv hpd fun f => (hi.dataUse_le f).trans (by decide)
    · exact .inl ⟨by simp [spaceCow, hs, hk, hx0, he], t :: pd :: ts, hfork.takes, by simp [hfork.len]⟩
    · refine .inr ⟨h₂, setOom vm.mm, by simp [spaceCow, hs, hk, hx0, he, hfree], hf₂, .inl ⟨?_, rfl, rfl⟩⟩
      have hfirst := alloc_refused hi.sound.ledger hall
      obtain ⟨he1, -⟩ | ⟨f, fr, he1, hf1, -⟩ := alloc_cases hi.sound.ledger
      · rw [hlate, he1]
        exact alloc_refused hi.sound.ledger hall
      · rw [he1] at hfirst
        exact absurd hfirst (frame_ne_zero hf1.pos)
    · exact .inr ⟨h₂, _, by simp [spaceCow, hs, hk, hx0, he, hfree], hf₂,
        .inr ⟨id, v, t, fs, fr, m, hv, rfl, hlate.trans hsecond, hfail⟩⟩

theorem failed_undone_iff (hp : parent < procMax) (hf : Formed h bs) (child : Nat) :
    ∃ r, spaceCow h vm child parent = some r ∧
    (r.1 = false → (Undone h r.2.1 vm r.2.2 ↔ Early h vm parent)) := by
  have hled := hi.sound.ledger
  obtain ⟨hok, -⟩ | ⟨h', mm, he, hf',
    ⟨hearly, hfr, hm⟩ | ⟨id, v, t, fs, fr, m, hv, rfl, hearly, hfail⟩⟩ :=
    spaceCow_spec hi hf hp child
  · obtain ⟨r, he, htrue⟩ := Option.map_eq_some_iff.mp hok
    exact ⟨r, he, fun hc => by cases htrue.symm.trans hc⟩
  · refine ⟨_, he, fun _ => iff_of_true ⟨rfl, rfl, ?_, ?_, fun a _ _ => congrFun hm a, bs, hf, hf'⟩ hearly⟩
    · intro f _
      exact congrArg (fun fr => fr.frameRefs f) hfr
    · intro f _
      exact congrArg (fun fr => bitmapTest fr f) hfr
  · refine ⟨_, he, fun _ => ?_⟩
    rw [hearly]
    constructor
    · intro hu
      by_contra hne
      -- the tables the half-built directory still names have lost a reference
      obtain ⟨g, hg⟩ : ∃ g, g ∈ abandoned v fs := by
        have hlen := hfail.len
        refine List.exists_mem_of_length_pos ?_
        simp only [abandoned, hne, if_false, List.length_drop, List.length_cons, List.length_nil]
        omega
      have hone := hi.sound.held_fixed hv (table_mem_fixed ((abandoned_sub v fs).subset hg))
      have hlt := hled.held_lt g (by omega)
      have hrefs := hu.refs g hlt
      have hafter := hfail.ledger.refs_eq g (by rw [hfail.total]; exact hlt)
      have hcount := List.count_pos_iff.mpr hg
      have hbefore := hled.refs_eq g hlt
      simp only [setMm, failedClone] at hrefs
      simp only [dropAll, heldIn] at hafter
      have hfr : (setOom (setMem (setFr vm.mm fr) m)).fr = fr := rfl
      rw [hfr] at hrefs
      omega
    · rintro rfl
      have hkeep : dropAll (heldIn base lost live vm) (abandoned v []) = heldIn base lost live vm := rfl
      have hafter := hfail.ledger
      refine ⟨rfl, rfl, ?_, ?_, ?_, bs, hf, hf'⟩
      · intro f hlt
        exact (hafter.refs_eq f (hfail.total.symm ▸ hlt)).trans (hled.refs_eq f hlt).symm
      · intro f hlt
        rw [Bool.eq_iff_iff, hled.used_iff f hlt]
        exact hafter.used_iff f (hfail.total.symm ▸ hlt)
      · intro a hlt hused
        refine hfail.agree a fun hmem => ?_
        have hin := (hled.used_iff _ hlt).mp hused
        have hfresh := hfail.takes.1
        rw [List.mem_singleton.mp hmem] at hin
        exact hin.elim (fun hpos => Nat.ne_of_gt hpos hfresh.unheld) hfresh.unreserved

theorem procAlloc_inv : Inv reserved kpd base (procAlloc vm).2 lost live := by
  obtain ⟨-, he⟩ | ⟨i, -, he, hi', -⟩ | ⟨i, b, fr, -, he, -, -, -, hi'⟩ := procAlloc_spec hi
  · rw [he]
    exact hi
  · rw [he]
    exact hi'
  · rw [he]
    exact hi'

end

/-- After any orderly run, making an address space for a child returns, and a failure leaves nothing
behind just when it comes before the new directory has a frame. -/
theorem failed_space_undone_iff {fr : Allocator} {held : Nat → Nat} {taken : Nat → Prop}
    {w : HeapRuns.World} (hidle : Idle reserved kpd base vm) {acts : List Act}
    (hm : Meets step Orderly vm acts) (hr : run step vm acts = some vm')
    (hc : Consistent fr held taken) (h0 : h.heapStart = 0)
    (hready : kheapReady (kheapInit fr h).2 = true) {as : List HeapRuns.Action}
    (hw : run HeapRuns.step ⟨(kheapInit fr h).2, [], []⟩ as = some w) (child : Nat) :
    ∃ r, spaceCow w.heap (procAlloc vm').2 child vm'.current = some r ∧ (r.1 = false →
      (Undone w.heap r.2.1 (procAlloc vm').2 r.2.2 ↔ Early w.heap (procAlloc vm').2 vm'.current)) := by
  have := hidle.window
  obtain ⟨lost, live, hi, -⟩ := run_inv hidle.inv hidle.full (hm.mono fun _ _ ho => ho.tame) hr
  obtain ⟨bs, hs⟩ := run_invariant
    (fun _ _ _ hs hst => HeapRuns.step_sound hs hst) ⟨_, HeapRuns.init_sound hc h0 hready⟩ hw
  exact failed_undone_iff (procAlloc_inv hi) hi.running.current_lt hs.formed child

def bootHeap : Heap := (kheapInit HeapRuns.bootFrames HeapRuns.noHeap).2

theorem below_begun {hi : Nat} (hhi : 6160 ≤ hi) :
    ∃ vm, Meets step Calm (bootVm (below hi)) [.launch true, .fork true true] ∧
    run step (bootVm (below hi)) [.launch true, .fork true true] = some vm ∧ vm.current = 1 ∧
    Inv (bootReserved (below hi)) kernelDir bootRefs (procAlloc vm).2 [6145] parentLive ∧
    ((procAlloc vm).2.procs 1).space = some 0 ∧ (procAlloc vm).2.mm.fr.totalPages = 65536 ∧
    Taken (heldIn bootRefs [6145] parentLive (procAlloc vm).2) (bootReserved (below hi))
    (fun f => f < 6160 ∨ hi ≤ f) := by
  obtain ⟨vm, hm, hr, hi, -, hcur, hspace, -, hslot, -, htot, ht, -⟩ :=
    below_fork (show 6158 ≤ hi by omega)
  refine ⟨vm, hm, hr, hcur, procAlloc_inv hi, ?_⟩
  obtain ⟨hnone, -⟩ | ⟨i, -, -, -, hno⟩ | ⟨i, ks, fr, hfree, he, hrun, htot', -, -⟩ :=
    procAlloc_spec hi
  · cases hslot.symm.trans hnone
  · exact absurd hno (ht.not_refused (b := 6158) ⟨by omega, fun k hk => ⟨k, by omega⟩⟩ (by omega))
  obtain rfl := ht.run (c := 6158) hrun ⟨by omega, fun k hk => ⟨k, by omega⟩⟩
  cases hslot.symm.trans hfree
  rw [he]
  refine ⟨?_, htot'.trans htot, ?_⟩
  · exact hspace
  have hheld : heldIn bootRefs [6145] parentLive (setSlot (setMm vm (setFr vm.mm fr)) 3 (bornSlot 6158)) =
      addAll (heldIn bootRefs [6145] parentLive vm) (List.range' 6158 2) :=
    (held_born hi hfree (show 0 < 6158 by decide) :)
  rw [hheld]
  exact (ht.stack 6158).congr fun f => by omega

theorem spaceCow_fails (hi : Inv reserved kpd base vm lost live) (hf : Formed h bs)
    (hp : parent < procMax) {P : Nat → Prop} (ht : Taken (heldIn base lost live vm) reserved P)
    (gs : List Nat) (hgs : ∀ f, ¬ P f → f ∈ gs) (hlen : gs.length < 5) (child : Nat) :
    ∃ h' mm, spaceCow h vm child parent = some (false, h', setMm vm mm) := by
  obtain ⟨-, fs, htk, hfs⟩ | ⟨h', mm, he, -⟩ := spaceCow_spec hi hf hp child
  · have hle := ht.takes_le htk hgs
    omega
  · exact ⟨h', mm, he⟩

theorem bootHeap_formed : ∃ bs, Formed bootHeap bs :=
  ⟨_, (HeapRuns.init_sound (h := HeapRuns.noHeap) HeapRuns.bootFrames_consistent rfl
    (by decide +kernel)).formed⟩

/-- With one frame left there is none for the directory: the fork fails, and all is as before. -/
theorem failed_space_undone_cramped :
    ∃ vm r, run step (bootVm (below 6161)) [.launch true, .fork true true] = some vm ∧
    spaceCow bootHeap (procAlloc vm).2 3 1 = some r ∧ r.1 = false ∧
    Undone bootHeap r.2.1 (procAlloc vm).2 r.2.2 := by
  obtain ⟨vm, hm, hr, hcur, hi, hspace, htot, ht⟩ := below_begun (show 6160 ≤ 6161 by omega)
  obtain ⟨bs, hf⟩ := bootHeap_formed
  obtain ⟨h', mm, he⟩ := spaceCow_fails hi hf (show 1 < procMax by decide) ht [6160]
    (fun f hn => by simp; omega) (by decide) 3
  obtain ⟨r, hrun, hiff⟩ := failed_space_undone_iff (below_idle (show 6161 ≤ 32768 by omega))
    (hm.mono fun _ _ hc => hc.orderly) hr HeapRuns.bootFrames_consistent
    (h := HeapRuns.noHeap) rfl (by decide +kernel)
    (show run HeapRuns.step _ [] = some _ from rfl) 3
  rw [hcur] at hrun hiff
  cases he.symm.trans hrun
  refine ⟨vm, _, hr, he, rfl, (hiff rfl).mpr (.inr (.inr ?_))⟩
  obtain ⟨-, hall⟩ | ⟨f, fr, he1, hf1, -, hc1⟩ := alloc_cases hi.sound.ledger
  · exact absurd ((ht 6160).mp (hall 6160 (by omega))) (by omega)
  rw [he1]
  obtain rfl := ht.fresh hf1 (g := 6160) ⟨by omega, fun k hk => by omega⟩
  exact alloc_refused (s := setFr (procAlloc vm).2.mm fr) hc1 fun g _ =>
    (ht.add [6160] g).mpr (by simp; omega)

/-- With three frames left a fork fails in the second table, and the two tables
of its parent that the new directory still names have lost their reference. -/
theorem starved_fork_not_undone :
    ∃ vm r, run step (bootVm starved) [.launch true, .fork true true] = some vm ∧
    spaceCow bootHeap (procAlloc vm).2 3 1 = some r ∧ r.1 = false ∧
    ¬ Undone bootHeap r.2.1 (procAlloc vm).2 r.2.2 := by
  obtain ⟨vm, -, hr, -, hi, hspace, htot, ht⟩ := below_begun (show 6160 ≤ 6163 by omega)
  obtain ⟨bs, hf⟩ := bootHeap_formed
  have hp : 1 < procMax := by decide
  obtain ⟨h', mm, he⟩ :=
    spaceCow_fails hi hf hp ht [6160, 6161, 6162] (fun f hn => by simp; omega) (by decide) 3
  obtain ⟨r, hrun, hiff⟩ := failed_undone_iff hi hp hf 3
  cases he.symm.trans hrun
  refine ⟨vm, _, hr, he, rfl, fun hu => ?_⟩
  obtain hnone | hno | hzero := (hiff rfl).mp hu
  · cases hspace.symm.trans hnone
  · have hsome : (kmalloc bootHeap 20).map Prod.fst ≠ some 0 := by decide +kernel
    exact hsome (congrArg (Option.map Prod.fst) hno)
  obtain ⟨-, hall⟩ | ⟨f, fr, he1, -, htot1, hc1⟩ := alloc_cases hi.sound.ledger
  · exact absurd ((ht 6160).mp (hall 6160 (by omega))) (by omega)
  rw [he1] at hzero
  obtain ⟨-, hall⟩ | ⟨g, fr', he2, hg, -⟩ := alloc_cases (s := setFr (procAlloc vm).2.mm fr) hc1
  · have h1 := (ht.add [f] 6160).mp (hall 6160 (by rw [setFr_fr]; omega))
    have h2 := (ht.add [f] 6161).mp (hall 6161 (by rw [setFr_fr]; omega))
    simp only [List.mem_singleton] at h1 h2
    omega
  · rw [he2] at hzero
    exact frame_ne_zero hg.pos hzero

end MuOS.Proc.Unwinding
