import MuOS.Proc.ProcRuns

namespace MuOS.Proc.Boot

open Function Lib Memory Paging Runs Tally Mm Frames Ledger FrameOps Grants UserPd
open Views TableBuild TableClone TableOps Sharing SharingOps Space SpaceOps Invariant Cpu
open Lifecycle ProcSteps Forking ProcRuns User.Window List Option BitVec Nat

variable {held : Nat → Nat} {live' : Nat → Option View} {a : Act}

section

variable (total : Nat) (free : Nat → Prop) [DecidablePred free]

def kernelDir : Nat := 256

def bootBitmap (i : Nat) : BitVec 32 :=
  (BitVec.ofBoolListLE ((List.range 32).map (fun j => !decide (free (i * 32 + j))))).setWidth 32

def bootRefs (f : Nat) : Nat := if f = kernelDir then 1 else 0

/-- Every kernel directory entry is present, and the kernel's alone. -/
def bootMem : Mem := fun a => if a / 4096 = kernelDir ∧ a % 4 = 0 then 3#8 else 0#8

def bootAllocator : Allocator :=
  ⟨bootBitmap free, bootRefs, total, BitWords.clearCount total (BitWords.test (bootBitmap free))⟩

def shellSlot : Slot := ⟨true, none, 0, 0, 0, 0⟩

/-- A machine of `total` frames before its first program. -/
def bootVmOf : Vm :=
  ⟨⟨bootAllocator total free, bootMem, kernelDir * 4096, kernelDir * 4096, fun _ => none, false,
    false⟩, update (fun _ => emptySlot) 0 shellSlot, fun _ => none, 0, 0, false⟩

abbrev bootVm : Vm := bootVmOf 65536 free

def bootReserved (f : Nat) : Prop := ¬ free f ∧ f ≠ kernelDir

theorem bitmapTest_boot (f : Nat) : bitmapTest (bootAllocator total free) f = !decide (free f) := by
  have hmod := mod_lt f (show 0 < 32 by omega)
  have hpos : f / 32 * 32 + f % 32 = f := by omega
  rw [bitmapTest, bootAllocator, BitWords.test_eq (by omega)]
  simp only [bootBitmap]
  rw [getLsbD_setWidth, getLsbD_ofBoolListLE, getD_eq_getElem?_getD, getElem?_map,
    getElem?_range hmod]
  simp only [hmod, decide_true, Bool.true_and, map_some, getD_some, hpos]

theorem bootMem_kernel (i : Nat) : isUser (rdEntry bootMem (kernelDir * 4096) i) = false ∨
    1024 ≤ i := by
  by_cases hi : i < 1024
  · have h0 : bootMem (kernelDir * 4096 + 4 * i) = 3#8 := by
      rw [bootMem, if_pos ⟨by omega, by unfold kernelDir; omega⟩]
    have hz : ∀ k, 0 < k → k < 4 → bootMem (kernelDir * 4096 + 4 * i + k) = 0#8 := by
      intro k h1 h2
      rw [bootMem, if_neg fun hc => by unfold kernelDir at hc; omega]
    rw [rdEntry, rd32, h0, hz 1 (by omega) (by omega), hz 2 (by omega) (by omega),
      hz 3 (by omega) (by omega)]
    exact .inl (by decide)
  · exact .inr (by omega)

theorem bootVm_bare (hdir : kernelDir < total) (hmax : total ≤ maxPages)
    (hlow : ∀ f, free f → kernelDir < f) :
    Bare (bootReserved free) kernelDir bootRefs (bootVmOf total free) := by
  have hslot : ∀ i, i ≠ 0 → (bootVmOf total free).procs i = emptySlot := by
    intro i hi
    simp only [bootVmOf, update_of_ne hi]
  have hcount : (bootAllocator total free).freePages = BitWords.clearCount total
    (bitmapTest (bootAllocator total free)) := by
    rw [show bitmapTest (bootAllocator total free) = BitWords.test (bootBitmap free)
      from rfl, bootAllocator]
  refine ⟨⟨hmax, hcount, fun _ _ => rfl, ?_, ?_, ?_, ?_, ?_⟩, rfl, ?_, ?_, rfl, fun _ => rfl, rfl,
    ?_, ?_, fun _ => rfl, rfl⟩
  · intro f _
    have ht : bitmapTest (bootVmOf total free).mm.fr f = !decide (free f) := bitmapTest_boot total free f
    rw [ht, Bool.not_eq_true', decide_eq_false_iff_not, bootRefs]
    by_cases hk : f = kernelDir
    · rw [if_pos hk]
      refine ⟨fun _ => .inl (by omega), fun _ hf => ?_⟩
      have hl := hlow f hf
      omega
    · rw [if_neg hk]
      exact ⟨fun hf => .inr ⟨hf, hk⟩, fun hf => hf.elim (fun h => absurd h (by omega)) fun h => h.1⟩
  · intro f
    rw [bootRefs]
    split <;> omega
  · intro f hf
    rw [bootRefs] at hf
    have hk : f = kernelDir := by
      by_contra hne
      rw [if_neg hne] at hf
      omega
    rw [hk]
    exact hdir
  · intro f hf
    rw [bootRefs, if_neg hf.2]
  · exact ⟨fun h0 => absurd (hlow 0 h0) (by omega), by decide⟩
  · decide
  · intro i hi
    exact (bootMem_kernel i).resolve_right (by omega)
  · intro i hi _
    rw [hslot i hi]
    rfl
  · intro i _
    by_cases h0 : i = 0
    · subst h0
      exact ⟨rfl, rfl, rfl⟩
    · rw [hslot i h0]
      exact ⟨rfl, rfl, rfl⟩

end

theorem window_reserved (free : Nat → Prop) (h : ∀ f, free f → f < 32768) :
    WindowReserved (bootReserved free) := by
  refine ⟨fun f h1 _ => ⟨fun hf => ?_, fun he => ?_⟩⟩
  · exact absurd (h f hf) (by omega)
  · unfold kernelDir at he
    omega

section

variable {held : Nat → Nat} {reserved : Nat → Prop} {P : Nat → Prop} {f g : Nat}

/-- `P` describes the frames that cannot be had. -/
def Taken (held : Nat → Nat) (reserved : Nat → Prop) (P : Nat → Prop) : Prop :=
  ∀ f, 0 < held f ∨ reserved f ↔ P f

/-- `g` is the lowest frame to be had. -/
def Lowest (P : Nat → Prop) (g : Nat) : Prop := ¬ P g ∧ ∀ k, k < g → P k

/-- `b` starts the lowest run of `n` frames to be had. -/
def LowestRun (P : Nat → Prop) (b n : Nat) : Prop :=
  (∀ f, b ≤ f → f < b + n → ¬ P f) ∧ ∀ k, k < b → ∃ f, k ≤ f ∧ f < k + n ∧ P f

/-- The frames `gs` are the lowest, taken one after the other. -/
def LowestAll : (Nat → Prop) → List Nat → Prop
  | _, [] => True
  | P, g :: gs => Lowest P g ∧ LowestAll (fun f => P f ∨ f = g) gs

theorem taken_boot (free : Nat → Prop) [DecidablePred free] (hlow : ∀ f, free f → kernelDir < f) :
    Taken bootRefs (bootReserved free) (fun f => ¬ free f) := by
  intro f
  rw [bootRefs]
  by_cases hk : f = kernelDir
  · rw [if_pos hk]
    refine ⟨fun _ hf => ?_, fun _ => .inl (by omega)⟩
    have hl := hlow f hf
    omega
  · rw [if_neg hk]
    exact ⟨fun hf => hf.elim (fun h => absurd h (by omega)) fun h => h.1, fun hf => .inr ⟨hf, hk⟩⟩

section

variable (h : Taken held reserved P)
include h

theorem Taken.add (fs : List Nat) : Taken (addAll held fs) reserved (fun f => P f ∨ f ∈ fs) := by
  intro f
  have hc := count_pos_iff (a := f) (l := fs)
  simp only [addAll, ← h f, ← hc]
  constructor
  · rintro (hf | hf)
    · by_cases h0 : 0 < held f
      · exact .inl (.inl h0)
      · exact .inr (by omega)
    · exact .inl (.inr hf)
  · rintro ((hf | hf) | hf)
    · exact .inl (by omega)
    · exact .inr hf
    · exact .inl (by omega)

theorem Taken.congr {P' : Nat → Prop} (hP : ∀ f, P f ↔ P' f) : Taken held reserved P' :=
  fun f => (h f).trans (hP f)

theorem Taken.fresh (hf : Fresh held reserved f) (hg : Lowest P g) : f = g := by
  have hn : ¬(0 < held g ∨ reserved g) := fun hc => hg.1 ((h g).mp hc)
  refine hf.unique ?_ (fun hr => hn (.inr hr)) fun k hk => (h k).mpr (hg.2 k hk)
  by_contra h0
  exact hn (.inl (pos_of_ne_zero h0))

theorem Taken.run {b c n : Nat} (hf : FreshRun held reserved b n)
    (hg : LowestRun P c n) : b = c := by
  apply hf.unique
  · intro f h1 h2
    have hn : ¬(0 < held f ∨ reserved f) := fun hc => hg.1 f h1 h2 ((h f).mp hc)
    exact ⟨by by_contra h0; exact hn (.inl (pos_of_ne_zero h0)), fun hr => hn (.inr hr)⟩
  · intro k hk
    obtain ⟨f, h1, h2, hP⟩ := hg.2 k hk
    exact ⟨f, h1, h2, (h f).mpr hP⟩

theorem Taken.takes {fs gs : List Nat} (ht : Takes reserved held fs)
    (hlen : fs.length = gs.length) (hg : LowestAll P gs) : fs = gs := by
  induction fs generalizing held P gs with
  | nil => exact (length_eq_zero_iff.mp hlen.symm).symm
  | cons f fs ih =>
    cases gs with
    | nil => cases hlen
    | cons g gs =>
      have he := h.fresh ht.1 hg.1
      subst he
      have hadd := (h.add [f]).congr fun k => by rw [mem_singleton]
      rw [ih hadd ht.2 (succ.inj hlen) hg.2]

end

theorem exists_left {gs : List Nat} (hg : LowestAll P gs) (fs : List Nat)
    (hlen : fs.length < gs.length) : ∃ f ∈ gs, ¬ P f ∧ f ∉ fs := by
  induction gs generalizing P fs with
  | nil => cases hlen
  | cons g gs ih =>
    by_cases hm : g ∈ fs
    · have hl := length_erase_of_mem hm
      have hpos := length_pos_of_mem hm
      rw [length_cons] at hlen
      obtain ⟨f, hf, hP, hn⟩ := ih hg.2 (fs.erase g) (by omega)
      refine ⟨f, mem_cons_of_mem _ hf, fun hp => hP (.inl hp), fun hc => hn ?_⟩
      exact (mem_erase_of_ne fun he => hP (.inr he)).mpr hc
    · exact ⟨g, mem_cons_self, hg.1.1, hm⟩

end

variable {reserved : Nat → Prop} {kpd : Nat} {base : Nat → Nat} {vm vm' : Vm} {lost : List Nat}
  {live : Nat → Option View} {P : Nat → Prop} {id i ks b t pd : Nat} {ts : List Nat} {v : View}

/-- The references to frames when `live` are the spaces of `vm`. -/
def heldIn (base : Nat → Nat) (lost : List Nat) (live : Nat → Option View) (vm : Vm) : Nat → Nat :=
  heldBy (owned base lost vm.procs) live vm.nextSpace

theorem heldIn_setMm (mm : Machine) :
    heldIn base lost live (setMm vm mm) = heldIn base lost live vm := rfl

theorem heldIn_attach (base : Nat → Nat) (lost : List Nat) (live : Nat → Option View)
    (hi : i < procMax) (h0 : (vm.procs i).kstack = 0) {p : Slot}
    (hks : 0 < ks) (hp : p.kstack = ks * 4096) (hprocs : vm'.procs = update vm.procs i p)
    (hnext : vm'.nextSpace = vm.nextSpace + 1) (hfixed : v.fixed = t :: pd :: ts) (f : Nat) :
    heldIn base lost (update live vm.nextSpace (some v)) vm' f =
      heldIn base lost live vm f + (List.range' ks 2).count f + (t :: pd :: ts).count f +
      v.pages.count f := by
  have hst := stackUse_update vm.procs hi p f
  rw [stackFrames_empty h0, count_nil, stackFrames_run hks hp] at hst
  have hx := tally_insert live vm.nextSpace v fun v => v.fixed.count f
  have hd := tally_insert live vm.nextSpace v fun v => v.pages.count f
  rw [hfixed] at hx
  simp only [heldIn, heldBy, owned, fixedUse, dataUse, hprocs, hnext, hx, hd]
  omega

theorem taken_started {km : Bool} (h : Inv reserved kpd base vm lost live)
    (hs : Started reserved (heldIn base lost live vm) vm (launch vm km) live i ks b t pd ts)
    (ht : Taken (heldIn base lost live vm) reserved P) : Taken (heldIn base ((b + 2047) :: lost)
        (update live vm.nextSpace (some (createdView pd ts t b))) (launch vm km)) reserved
      (fun f => P f ∨ (ks ≤ f ∧ f < ks + 2) ∨ (b ≤ f ∧ f < b + 2048) ∨ f ∈ t :: pd :: ts) := by
  have hfixed : (createdView pd ts t b).fixed = t :: pd :: ts := by
    rw [View.fixed, tables_of_length rfl rfl hs.len]
    rfl
  obtain ⟨hi, hu⟩ := freeSlot_spec hs.slot
  intro f
  have he := heldIn_attach base lost live hi (h.book.unused i hi hu).2 hs.stack.pos rfl hs.procs
    hs.nextSpace hfixed f
  have hl : heldIn base ((b + 2047) :: lost) (update live vm.nextSpace (some (createdView pd ts t b)))
      (launch vm km) f = heldIn base lost (update live vm.nextSpace (some (createdView pd ts t b)))
      (launch vm km) f + [b + 2047].count f := by
    simp only [heldIn, heldBy, owned, count_cons, count_nil]
    omega
  have hpages : f ∈ (createdView pd ts t b).pages ↔ b ≤ f ∧ f < b + 2047 := by
    rw [mem_pages]
    constructor
    · rintro ⟨j, hj, rfl⟩
      unfold dataPages at hj
      simp only [createdView]
      omega
    · intro hf
      refine ⟨f - b, by unfold dataPages; omega, ?_⟩
      simp only [createdView]
      omega
  have hc1 := count_pos_iff (a := f) (l := (createdView pd ts t b).pages)
  have hc2 := count_pos_iff (a := f) (l := [b + 2047])
  have hc3 := count_pos_iff (a := f) (l := range' ks 2)
  have hc4 := count_pos_iff (a := f) (l := t :: pd :: ts)
  rw [hpages] at hc1
  rw [mem_singleton] at hc2
  rw [mem_range'_1] at hc3
  have hblock : b ≤ f ∧ f < b + 2048 ↔ 0 < (createdView pd ts t b).pages.count f ∨
    0 < [b + 2047].count f := by
    omega
  simp only [← ht f, hblock, ← hc3, ← hc4, hl, he]
  constructor
  · rintro (hf | hf)
    · omega
    · exact .inl (.inr hf)
  rintro ((hf | hf) | hf | (hf | hf) | hf)
  · exact .inl (by omega)
  · exact .inr hf
  · exact .inl (by omega)
  · exact .inl (by omega)
  · exact .inl (by omega)
  · exact .inl (by omega)

section

variable (h : Taken held reserved P)
include h

theorem Taken.stack (ks : Nat) : Taken (addAll held (List.range' ks 2)) reserved
    (fun f => P f ∨ (ks ≤ f ∧ f < ks + 2)) :=
  (h.add _).congr fun f => by rw [mem_range'_1]

theorem Taken.block (b : Nat) : Taken (addAll held (blockFrames b)) reserved
    (fun f => P f ∨ (b ≤ f ∧ f < b + 2048)) :=
  (h.add _).congr fun f => by rw [mem_blockFrames]

theorem Taken.not_refused {n total : Nat} (hb : LowestRun P b n) (hle : b + n ≤ total) :
    ¬ ∀ q, q + n ≤ total → ∃ f, q ≤ f ∧ f < q + n ∧ (0 < held f ∨ reserved f) := by
  intro hno
  obtain ⟨f, h1, h2, hf⟩ := hno b hle
  exact hb.1 f h1 h2 ((h f).mp hf)

theorem Taken.not_exhausted {gs fs : List Nat} {total : Nat}
    (hg : LowestAll P gs) (hlt : ∀ f ∈ gs, f < total) (hlen : fs.length < gs.length) :
    ¬ ∀ f, f < total → 0 < addAll held fs f ∨ reserved f := by
  intro hall
  obtain ⟨f, hf, hP, hn⟩ := exists_left hg fs hlen
  obtain hp | hm := (h.add fs f).mp (hall f (hlt f hf))
  · exact hP hp
  · exact hn hm

end

theorem launch_lowest (i ks b t pd : Nat) (ts : List Nat) (h : Inv reserved kpd base vm lost live)
    (hf : Full vm) (hact : vm.active = false) (hroom : ¬ vm.mm.fr.totalPages * 4096 < userEnd)
    (hslot : freeSlot vm = some i) (ht : Taken (heldIn base lost live vm) reserved P)
    (hks : LowestRun P ks 2) (hkt : ks + 2 ≤ vm.mm.fr.totalPages)
    (hb : LowestRun (fun f => P f ∨ (ks ≤ f ∧ f < ks + 2)) b 2048)
    (hbt : b + 2048 ≤ vm.mm.fr.totalPages) (hts : ts.length = 3)
    (hg : LowestAll (fun f => (P f ∨ (ks ≤ f ∧ f < ks + 2)) ∨ (b ≤ f ∧ f < b + 2048))
    (t :: pd :: ts))
    (hgt : ∀ f ∈ t :: pd :: ts, f < vm.mm.fr.totalPages) : Inv reserved kpd base (launch vm true)
        ((b + 2047) :: lost) (update live vm.nextSpace (some (createdView pd ts t b))) ∧
        Full (launch vm true) ∧
      Started reserved (heldIn base lost live vm) vm (launch vm true) live i ks b t pd ts := by
  obtain ⟨live', hinv, hsame, hnext, hsh, hwhy⟩ | ⟨i', ks', b', t', pd', ts', -, hinv,
    hfull, hst⟩ :=
    launch_spec h hf true
  · exfalso
    obtain hc | hc | hc | hc | ⟨-, hno | ⟨ks', hrun, hno⟩⟩ := hwhy
    · cases hact.symm.trans hc
    · exact hroom hc
    · cases hslot.symm.trans hc
    · cases hc
    · exact ht.not_refused hks hkt hno
    have he := ht.run hrun hks
    subst he
    obtain hno | ⟨b', fs, hrun', hlen, hall⟩ := hno
    · exact (ht.stack ks').not_refused hb hbt hno
    have he := (ht.stack ks').run hrun' hb
    subst he
    rw [← addAll_addAll] at hall
    exact ((ht.stack ks').block b').not_exhausted hg hgt (by simp only [length_cons]; omega) hall
  · have hi : i' = i := some.inj (hst.slot.symm.trans hslot)
    have hk := ht.run hst.stack hks
    subst hi hk
    have hb' := (ht.stack ks').run hst.run hb
    subst hb'
    have hl := ((ht.stack ks').block b').takes hst.takes (by simp only [length_cons, hst.len, hts]) hg
    obtain ⟨h1, hl'⟩ := cons.inj hl
    obtain ⟨h2, h3⟩ := cons.inj hl'
    subst h1 h2 h3
    exact ⟨hinv, hfull, hst⟩

theorem fork_lowest (fd : Bool) (i ks t pd : Nat) (ts : List Nat)
    (h : Inv reserved kpd base vm lost live)
    (hf : Full vm) (hid : (vm.procs vm.current).space = some id) (hv : live id = some v)
    (hslot : freeSlot vm = some i) (ht : Taken (heldIn base lost live vm) reserved P)
    (hks : LowestRun P ks 2) (hkt : ks + 2 ≤ vm.mm.fr.totalPages) (hts : ts.length = 3)
    (hg : LowestAll (fun f => P f ∨ (ks ≤ f ∧ f < ks + 2)) (t :: pd :: ts))
    (hgt : ∀ f ∈ t :: pd :: ts, f < vm.mm.fr.totalPages) :
    ∃ live', Inv reserved kpd base (doFork vm true fd) lost live' ∧ Full (doFork vm true fd) ∧
      Branched reserved (heldIn base lost live vm) vm
      (doFork vm true fd) live live' id v fd i ks t pd ts := by
  obtain ⟨live', hinv, hsame, hnext, hsh, hwhy⟩ | ⟨i', ks', t', pd', ts', live', -, hinv, hfull, hbr⟩ |
      ⟨i', ks', fr₁, t', fs, fr, m, -, -, hrun, htot, -, hfail⟩ := doFork_spec h hf hid hv true fd
  · exfalso
    obtain hc | hc | ⟨-, hno | ⟨ks', hrun, hall⟩⟩ := hwhy
    · cases hslot.symm.trans hc
    · cases hc
    · exact ht.not_refused hks hkt hno
    have he := ht.run hrun hks
    subst he
    rw [← addAll_nil (addAll _ _)] at hall
    exact (ht.stack ks').not_exhausted hg hgt (by simp) hall
  · have hi : i' = i := some.inj (hbr.slot.symm.trans hslot)
    have hk := ht.run hbr.stack hks
    subst hi hk
    have hl := (ht.stack ks').takes hbr.takes (by simp only [length_cons, hbr.len, hts]) hg
    obtain ⟨h1, hl'⟩ := cons.inj hl
    obtain ⟨h2, h3⟩ := cons.inj hl'
    subst h1 h2 h3
    exact ⟨live', hinv, hfull, hbr⟩
  · exfalso
    have he := ht.run hrun hks
    subst he
    have hlen := hfail.len
    have hall := hfail.full
    rw [show (setFr vm.mm fr₁).fr.totalPages = vm.mm.fr.totalPages from htot] at hall
    exact (ht.stack ks').not_exhausted hg hgt (by simp only [length_cons]; omega) hall

theorem Taken.takes_free {fs : List Nat} (h : Taken held reserved P) (ht : Takes reserved held fs) :
    ∀ f ∈ fs, ¬ P f := by
  induction fs generalizing held P with
  | nil => simp
  | cons g fs ih =>
    intro f hf hP
    obtain rfl | hf := mem_cons.mp hf
    · obtain hp | hr := (h f).mpr hP
      · exact absurd ht.1.unheld (by omega)
      · exact ht.1.unreserved hr
    · exact ih (h.add [g]) ht.2 f hf (.inl hP)

theorem Taken.takes_le {fs g : List Nat} (h : Taken held reserved P)
    (ht : Takes reserved held fs) (hall : ∀ f, ¬ P f → f ∈ g) : fs.length ≤ g.length :=
  (subperm_of_subset ht.nodup fun f hf => hall f (h.takes_free ht f hf)).length_le

theorem fork_exhausted (fd : Bool) (i ks t : Nat) (gs : List Nat)
    (h : Inv reserved kpd base vm lost live)
    (hf : Full vm) (hid : (vm.procs vm.current).space = some id) (hv : live id = some v)
    (hslot : freeSlot vm = some i) (ht : Taken (heldIn base lost live vm) reserved P)
    (hks : LowestRun P ks 2) (hkt : ks + 2 ≤ vm.mm.fr.totalPages)
    (hg : LowestAll (fun f => P f ∨ (ks ≤ f ∧ f < ks + 2)) (t :: gs))
    (hgt : ∀ f ∈ t :: gs, f < vm.mm.fr.totalPages) (hgl : gs.length < 4)
    (hall : ∀ f, ¬(P f ∨ (ks ≤ f ∧ f < ks + 2)) → f ∈ t :: gs) :
      ∃ fr₁ fr m, fr₁.totalPages = vm.mm.fr.totalPages ∧
      doFork vm true fd = procReap (setMm (setSlot (setMm vm (setFr vm.mm fr₁)) i (bornSlot ks))
        (failedClone (setFr vm.mm fr₁) fr m)) i ∧
      FailedFork (setFr vm.mm fr₁) (addAll (heldIn base lost live vm) (List.range' ks 2)) reserved v
        t gs fr m := by
  obtain ⟨live', hinv, hsame, hnext, hsh, hwhy⟩ | ⟨i', ks', t', pd', ts', live', -, hinv, hfull, hbr⟩ |
      ⟨i', ks', fr₁, t', fs, fr, m, -, hslot', hrun, htot, he, hfail⟩ := doFork_spec h hf hid hv true fd
  · exfalso
    obtain hc | hc | ⟨-, hno | ⟨ks', hrun, hfull⟩⟩ := hwhy
    · cases hslot.symm.trans hc
    · cases hc
    · exact ht.not_refused hks hkt hno
    have he := ht.run hrun hks
    subst he
    rw [← addAll_nil (addAll _ _)] at hfull
    exact (ht.stack ks').not_exhausted hg hgt (by simp) hfull
  · exfalso
    have hk := ht.run hbr.stack hks
    subst hk
    have hle := (ht.stack ks').takes_le hbr.takes hall
    simp only [length_cons, hbr.len] at hle
    omega
  · have hi : i' = i := some.inj (hslot'.symm.trans hslot)
    have hk := ht.run hrun hks
    subst hi hk
    have hle := (ht.stack ks').takes_le hfail.takes hall
    have hge : ¬ (t' :: fs).length < (t :: gs).length := by
      intro hlt
      have hfull := hfail.full
      rw [show (setFr vm.mm fr₁).fr.totalPages = vm.mm.fr.totalPages from htot] at hfull
      exact (ht.stack ks').not_exhausted hg hgt hlt hfull
    have hl := (ht.stack ks').takes hfail.takes (by omega) hg
    obtain ⟨h1, h2⟩ := cons.inj hl
    subst h1 h2
    exact ⟨fr₁, fr, m, htot, he, hfail⟩

theorem reap_newborn (vm : Vm) (hcur : i ≠ vm.current)
    (hslot : vm.procs i = bornSlot ks) (hks : 0 < ks) (hc : Consistent vm.mm.fr held reserved)
    (hheld : ∀ j, j < 2 → 0 < held (ks + j)) : ∃ fr, procReap vm i = setSlot
      (setMm vm (setFr vm.mm fr)) i emptySlot ∧ fr.totalPages = vm.mm.fr.totalPages ∧
      Consistent fr (dropAll held (List.range' ks 2)) reserved := by
  have hcount : ∀ f, (range' ks 2).count f ≤ held f := by
    intro f
    rw [count_range']
    split
    · have h := hheld (f - ks) (by omega)
      rw [show ks + (f - ks) = f by omega] at h
      exact h
    · exact zero_le _
  obtain ⟨hcons, htot⟩ := unrefAll_spec (range' ks 2) hc hcount
  refine ⟨_, ?_, htot, hcons⟩
  have hne : ¬ ks * 4096 = 0 := frame_ne_zero hks
  have hcur' : ¬ vm.current = i := fun he => hcur he.symm
  simp only [procReap, Bool.true_eq_false, if_false, hslot, bornSlot, leaveSpace, freeStack,
    hne, freePages]
  rw [show kernelStackPages = 2 from rfl, freePages_run hc hheld]
  simp only [setMm, setSlot, hcur', if_false]

section

variable (h : Inv reserved kpd base vm lost live)
include h

theorem protect_heldIn (hv : live id = some v) :
    heldIn base lost (update live id (some (protect v dataPages))) vm = heldIn base lost live vm :=
  heldBy_retune _ (h.sound.shared.live_lt id v hv) hv rfl (protect_pages v dataPages)

section

variable (hv : live id = some v)
  (hs : Branched reserved (heldIn base lost live vm) vm vm' live live' id v true i ks t pd ts)
include hv hs

theorem heldIn_forked (f : Nat) : heldIn base lost live' vm' f =
      heldIn base lost live vm f + (List.range' ks 2).count f + (t :: pd :: ts).count f +
      v.pages.count f := by
  have hfixed : (childView v pd ts t).fixed = t :: pd :: ts := by
    rw [View.fixed, tables_of_length rfl rfl hs.len]
    rfl
  obtain ⟨hi, hu⟩ := freeSlot_spec hs.slot
  have he := heldIn_attach base lost (update live id (some (protect v dataPages))) hi
    (h.book.unused i hi hu).2 hs.stack.pos rfl (hs.child rfl) hs.nextSpace hfixed f
  rw [protect_heldIn h hv] at he
  rw [hs.views rfl]
  exact he

theorem taken_forked (ht : Taken (heldIn base lost live vm) reserved P) :
    Taken (heldIn base lost live' vm') reserved
    (fun f => P f ∨ (ks ≤ f ∧ f < ks + 2) ∨ f ∈ t :: pd :: ts) := by
  intro f
  have he := heldIn_forked h hv hs f
  have hpage : 0 < v.pages.count f → 0 < heldIn base lost live vm f := by
    intro hc
    have hpos := h.sound.shared.dataUse_pos hv (count_pos_iff.mp hc)
    simp only [heldIn, heldBy]
    omega
  have hc3 := count_pos_iff (a := f) (l := range' ks 2)
  have hc4 := count_pos_iff (a := f) (l := t :: pd :: ts)
  rw [mem_range'_1] at hc3
  simp only [← ht f, ← hc3, ← hc4, he]
  constructor
  · rintro (hf | hf)
    · omega
    · exact .inl (.inr hf)
  · rintro ((hf | hf) | hf | hf)
    · exact .inl (by omega)
    · exact .inr hf
    · exact .inl (by omega)
    · exact .inl (by omega)

end

end

theorem thread_lowest (i ks : Nat) (h : Inv reserved kpd base vm lost live) (hf : Full vm)
    (hid : (vm.procs vm.current).space = some id) (hslot : freeSlot vm = some i)
    (ht : Taken (heldIn base lost live vm) reserved P) (hks : LowestRun P ks 2)
    (hkt : ks + 2 ≤ vm.mm.fr.totalPages) : Inv reserved kpd base (doThread vm true) lost live ∧
      Full (doThread vm true) ∧ Joined reserved (heldIn base lost live vm) vm
      (doThread vm true) live id i ks ∧ heldIn base lost live (doThread vm true) = addAll
      (heldIn base lost live vm) (List.range' ks 2) := by
  obtain ⟨live', hinv, hsame, hnext, hsh, hwhy⟩ | ⟨i', ks', -, hinv, hfull, hj⟩ :=
    doThread_spec h hf hid true
  · exfalso
    obtain hc | hc | ⟨-, hno⟩ := hwhy
    · cases hslot.symm.trans hc
    · cases hc
    · exact ht.not_refused hks hkt hno
  · have hi : i' = i := some.inj (hj.slot.symm.trans hslot)
    have hk := ht.run hj.stack hks
    subst hi hk
    refine ⟨hinv, hfull, hj, ?_⟩
    obtain ⟨hlt, hu⟩ := freeSlot_spec hj.slot
    obtain ⟨q, hprocs, -, -, hq⟩ := hj.child
    rw [heldIn, hj.nextSpace, hprocs]
    exact held_slot hlt (h.book.unused i' hlt hu).2 hj.stack.pos hq

theorem thread_reaped (h : Inv reserved kpd base vm lost live) (h0 : i ≠ 0) (hi : i < procMax)
    (hcur : i ≠ vm.current) (hu : (vm.procs i).used = true) (hks : 0 < ks)
    (hstack : (vm.procs i).kstack = ks * 4096) (hothers : ∀ id v, live id = some v →
    ∃ j, j < procMax ∧ j ≠ i ∧ (vm.procs j).space = some id) :
    Inv reserved kpd base (procReap vm i) lost live ∧ Reaped vm (procReap vm i) i live live ∧
      ∀ f, heldIn base lost live vm f = heldIn base lost live
      (procReap vm i) f + (List.range' ks 2).count f := by
  obtain ⟨live', hinv, hr⟩ := procReap_spec h h0 hi hcur hu
  have hlive : live' = live := by
    funext id
    cases hl : live id with
    | none =>
      cases hl' : live' id with
      | none => rfl
      | some w => cases hl.symm.trans (hr.sub id w hl')
    | some v =>
      obtain ⟨j, hj, hne, hs⟩ := hothers id v hl
      obtain ⟨w, hw, -⟩ := hinv.book.attached j id hj (by rw [hr.procs, update_of_ne hne]; exact hs)
      rw [hw, ← hl, hr.sub id w hw]
  subst hlive
  refine ⟨hinv, hr, fun f => ?_⟩
  have hst := stackUse_update vm.procs hi emptySlot f
  rw [stackFrames_run hks hstack, stackFrames_empty rfl, count_nil] at hst
  simp only [heldIn, heldBy, owned, hr.procs, hr.nextSpace]
  omega

theorem copy_lowest [WindowReserved reserved] (g : Nat) {j : Nat}
    (h : Inv reserved kpd base vm lost live) (hv : live id = some v)
    (hj : j < dataPages) {va : Nat} (hva : va / 4096 = 32840 + j) (hrw : v.rw j = false)
    (hshare : 1 < dataUse live vm.nextSpace (v.page j))
    (ht : Taken (heldIn base lost live vm) reserved P)
    (hg : Lowest P g) (hgt : g < vm.mm.fr.totalPages) :
      ∃ mm, (mmUserMakeWritable vm.mm (v.pd * 4096) va).2 = mm ∧
      Inv reserved kpd base (setMm vm mm) lost (update live id (some (v.setPage j g true))) ∧
      mm.fr.totalPages = vm.mm.fr.totalPages ∧ mm.oom = vm.mm.oom ∧ mm.cloneFailed = vm.mm.cloneFailed ∧
      Taken (heldIn base lost (update live id (some (v.setPage j g true))) (setMm vm mm)) reserved
        (fun f => P f ∨ f = g) := by
  have hm := h.sound.shared.mapped id v hv
  obtain ⟨h1, h2⟩ := page_covered hj
  obtain ⟨hheld, hpos⟩ := h.sound.held_page hv hj
  obtain ⟨hw, -⟩ | ⟨-, hone, -⟩ | ⟨-, -, -, hall⟩ | ⟨-, hmany, g', fr, he, hg', htot, hc⟩ :=
    makeWritable_cases h.sound.ledger hm hva h1 h2 (pte_page hj) (hm.page_lt j hj) (by omega)
  · cases hrw.symm.trans hw
  · omega
  · exact absurd ((ht g).mp (hall g hgt)) hg.1
  have hgg := ht.fresh hg' hg
  subst hgg
  have hcopy := Sound.copied hm hj hg'.lt (h.sound.table_not_fresh hv hg'.unheld)
  obtain ⟨hs, hkept⟩ := h.sound.copy hv hj hshare hg' htot hc hcopy
  refine ⟨_, rfl, ?_⟩
  rw [he]
  refine ⟨h.kept hs hkept, hkept.total, by simp, hkept.cloneFailed, ?_⟩
  intro f
  have hrep := heldBy_replace (owned base lost vm.procs) (w := v.setPage j g' true)
    (h.sound.shared.live_lt id v hv) hv rfl f
  have hset := setPage_count v g' true hj f
  have hpage : f = v.page j → 1 < heldIn base lost live vm f := by
    rintro rfl
    simp only [heldIn, heldBy]
    omega
  have hstep : heldIn base lost (update live id (some (v.setPage j g' true))) vm f +
      (if f = v.page j then 1 else 0) = heldIn base lost live vm f + (if f = g' then 1 else 0) := by
    simp only [heldIn]
    omega
  simp only [heldIn_setMm, ← ht f]
  by_cases hfg : f = g'
  · refine ⟨fun _ => .inr hfg, fun _ => .inl ?_⟩
    split at hstep
    · next hp =>
      have h2 := hpage hp
      omega
    · omega
  rw [if_neg hfg] at hstep
  constructor
  · rintro (hf | hf)
    · exact .inl (.inl (by omega))
    · exact .inl (.inr hf)
  rintro ((hf | hf) | hf)
  · refine .inl ?_
    split at hstep
    · next hp =>
      have h2 := hpage hp
      omega
    · omega
  · exact .inr hf
  · exact absurd hf hfg

def below (hi f : Nat) : Prop := 4096 ≤ f ∧ f < hi

instance (hi : Nat) : DecidablePred (below hi) :=
  fun f => inferInstanceAs (Decidable (4096 ≤ f ∧ f < hi))

theorem below_low (hi : Nat) : ∀ f, below hi f → kernelDir < f := by
  intro f hf
  unfold kernelDir
  unfold below at hf
  omega

def firstView : View := createdView 6147 [6148, 6149, 6150] 6146 4098

def firstLive : Nat → Option View := update (fun _ => none) 0 (some firstView)

structure Begun (free : Nat → Prop) [DecidablePred free] (vm : Vm) (P : Nat → Prop) : Prop where
  launched : launch (bootVm free) true = vm
  inv : Inv (bootReserved free) kernelDir bootRefs vm [6145] firstLive
  full : Full vm
  started : Started (bootReserved free) (heldIn bootRefs [] (fun _ => none) (bootVm free))
    (bootVm free) vm (fun _ => none) 1 4096 4098 6146 6147 [6148, 6149, 6150]
  taken : Taken (heldIn bootRefs [6145] firstLive vm) (bootReserved free) P
  space : (vm.procs vm.current).space = some 0
  user : isUserProc vm vm.current = true
  slot : freeSlot vm = some 2

theorem first_launch (free : Nat → Prop) [DecidablePred free] (hlow : ∀ f, free f → 4096 ≤ f)
    (hfree : ∀ f, 4096 ≤ f → f < 6151 → free f) :
    ∃ vm, Begun free vm (fun f => f < 6151 ∨ ¬ free f) := by
  have hdir : ∀ f, free f → kernelDir < f := fun f hf => lt_of_lt_of_le (by decide) (hlow f hf)
  have hidle := bootVm_bare 65536 free (by decide) (by decide) hdir
  have ht : Taken (heldIn bootRefs [] (fun _ => none) (bootVm free)) (bootReserved free)
      (fun f => f < 4096 ∨ 6151 ≤ f ∧ ¬ free f) := by
    refine (taken_boot free hdir).congr fun f => ?_
    have h1 := hlow f
    have h2 := hfree f
    by_cases hf : free f
    · simp [hf, h1 hf]
    have h3 : f < 4096 ∨ 6151 ≤ f := by
      by_contra hc
      exact hf (h2 (by omega) (by omega))
    simp [hf, h3]
  obtain ⟨hinv, hfull, hst⟩ :=
    launch_lowest 1 4096 4098 6146 6147 [6148, 6149, 6150] hidle.inv hidle.full rfl
    (show ¬ 65536 * 4096 < userEnd by decide) rfl ht
    ⟨by omega, fun k hk => ⟨k, by omega⟩⟩ (show 4096 + 2 ≤ 65536 by omega)
    ⟨by omega, fun k hk => ⟨k, by omega⟩⟩ (show 4098 + 2048 ≤ 65536 by omega) rfl
    ⟨⟨by omega, by omega⟩, ⟨by omega, by omega⟩, ⟨by omega, by omega⟩, ⟨by omega, by omega⟩,
      ⟨by omega, by omega⟩, trivial⟩
    (show ∀ f ∈ [6146, 6147, 6148, 6149, 6150], f < 65536 by decide)
  refine ⟨_, rfl, hinv, hfull, hst, (taken_started hidle.inv hst ht).congr fun f => ?_, ?_, ?_, ?_⟩
  · by_cases hf : free f <;> simp [hf] <;> omega
  · rw [hst.current, hst.procs]
    rfl
  · rw [hst.current, isUserProc, hst.procs]
    rfl
  · unfold freeSlot
    rw [hst.procs]
    rfl

theorem below_launch {hi : Nat} (h1 : 6151 ≤ hi) :
    ∃ vm, Begun (below hi) vm (fun f => f < 6151 ∨ hi ≤ f) := by
  obtain ⟨vm, hb⟩ := first_launch (below hi) (fun f hf => hf.1) fun f hlo hf => ⟨hlo, by omega⟩
  refine ⟨vm, { hb with taken := hb.taken.congr (fun f => ?_) }⟩
  unfold below
  omega

abbrev roomy : Nat → Prop := below 32768

theorem below_idle {hi : Nat} (h : hi ≤ 32768) :
    Idle (bootReserved (below hi)) kernelDir bootRefs (bootVm (below hi)) :=
  ⟨bootVm_bare 65536 (below hi) (by decide) (by decide) (below_low hi),
    window_reserved (below hi) fun _ hf => lt_of_lt_of_le hf.2 h⟩

theorem roomy_idle : Idle (bootReserved roomy) kernelDir bootRefs (bootVm roomy) :=
  below_idle le_rfl

/-- Nothing is written for a waiting process, and no allocation fails. -/
def Calm (vm : Vm) (a : Act) : Prop :=
  (∀ i va off bytes, a ≠ .wake i va off bytes) ∧
    ∀ vm', step vm a = some vm' → vm'.mm.oom = false ∧ vm'.mm.cloneFailed = false

theorem Calm.straight (h : Calm vm a) : wakesStraight vm a := by
  cases a with
  | wake i va off bytes => exact absurd rfl (h.1 i va off bytes)
  | _ => trivial

theorem Calm.orderly (h : Calm vm a) : Orderly vm a :=
  ⟨h.straight, fun vm' hs => (h.2 vm' hs).2⟩

theorem Calm.ample (h : Calm vm a) : Ample vm a :=
  ⟨h.straight, fun vm' hs => (h.2 vm' hs).1⟩

theorem meets_cons {acts : List Act} (hw : ∀ i va off bytes, a ≠ .wake i va off bytes)
    (hs : step vm a = some vm') (ho : vm'.mm.oom = false ∧ vm'.mm.cloneFailed = false)
    (hm : Meets step Calm vm' acts) : Meets step Calm vm (a :: acts) := by
  refine ⟨⟨hw, fun w hw' => ?_⟩, fun w hw' => ?_⟩
  · rw [← some.inj (hs.symm.trans hw')]
    exact ho
  · rw [← some.inj (hs.symm.trans hw')]
    exact hm

def sampleRun : List Act := [.launch true, .store userBase 7#8, .fork true true]

theorem sampleRun_calm : Meets step Calm (bootVm roomy) sampleRun ∧
    ∃ vm', run step (bootVm roomy) sampleRun = some vm' ∧ isUserProc vm' 1 = true ∧
    isUserProc vm' 2 = true := by
  obtain ⟨vm, hvm, hinv, hfull, hst, ht, hid, hu, hslot⟩ :=
    below_launch (show 6151 ≤ 32768 by omega)
  have hfirst : firstLive 0 = some firstView := update_self ..
  obtain ⟨mm, hcpu, hinv₁, hcf, hoom, hfr, -⟩ := store_writable hinv hid hfirst (by decide)
    (show userBase / 4096 = 32840 + 0 by decide) rfl 7#8
  have hstore : userStore vm userBase 7#8 = setMm vm mm := by
    simp only [userStore, hcpu]
  have htot : (setMm vm mm).mm.fr.totalPages = 65536 :=
    (congrArg Allocator.totalPages hfr).trans hst.total
  obtain ⟨live', hinv₂, hfull₂, hbr⟩ :=
    fork_lowest true 2 6151 6153 6154 [6155, 6156, 6157] hinv₁ hfull hid
    hfirst hslot ht ⟨by omega, fun k hk => ⟨k, by omega⟩⟩ (by omega) rfl
    ⟨⟨by omega, by omega⟩, ⟨by omega, by omega⟩, ⟨by omega, by omega⟩, ⟨by omega, by omega⟩,
    ⟨by omega, by omega⟩, trivial⟩ (by rw [htot]; decide)
  have h1 : step (bootVm roomy) (.launch true) = some vm := by rw [step, hvm]
  have h2 : step vm (.store userBase 7#8) = some (setMm vm mm) := by
    rw [step, if_pos ⟨hu, by decide, by decide⟩, hstore]
  have h3 :
    step (setMm vm mm) (.fork true true) = some (doFork (setMm vm mm) true true) := if_pos hu
  refine ⟨?_, doFork (setMm vm mm) true true,
    run_cons step h1 (run_cons step h2 (run_cons step h3 rfl)), ?_⟩
  · refine meets_cons (by simp) h1 ⟨hst.oom, hst.cloneFailed⟩
      (meets_cons (by simp) h2 ?_ (meets_cons (by simp) h3 ?_ trivial))
    · exact ⟨hoom.trans hst.oom, hcf.trans hst.cloneFailed⟩
    · exact ⟨hbr.oom.trans (hoom.trans hst.oom), hbr.cloneFailed.trans (hcf.trans hst.cloneFailed)⟩
  have hprocs := hbr.child rfl
  have hone : isUserProc (doFork (setMm vm mm) true true) 1 = true := by
    rw [isUserProc, hprocs, update_of_ne (by decide), show (setMm vm mm).procs = vm.procs
      from rfl, hst.procs]
    rfl
  have htwo : isUserProc (doFork (setMm vm mm) true true) 2 = true := by
    rw [isUserProc, hprocs]
    rfl
  exact ⟨hone, htwo⟩

end MuOS.Proc.Boot
