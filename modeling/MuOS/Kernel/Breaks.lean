import MuOS.Kernel.Masks
import MuOS.Kernel.Resumes
import MuOS.Syscall.Arena

namespace MuOS.Kernel.Breaks

open Function Option Bool
open Lib Runs Spans User.Window State Wake Sched Calls Stir Tables Prims ProcTable Step Phases
  Layout Masks Resumes
open MuOS.Syscall.Arena (mmapAnon_span)

/-- The break last set, and the ranges `mmap` has returned. -/
structure Region where
  brk : Nat
  mapped : List Span

def granted (k : Machine) (len : BitVec 32) : Option Nat → Option Span
  | none => (k.brk.bind (fun b => userMmapAnon b len.toNat)).map
    (fun r => ⟨r.1, r.1 + alignUpPage len.toNat⟩)
  | some _ => none

def moved (k : Machine) : Call → Region → Region
  | .brk addr, r =>
    { r with brk := ((k.brk.bind (fun b => userSetBrk b addr.toNat)).map Brk.current).getD r.brk }
  | .mmap len bad _, r =>
    (k.brk.bind (fun b => userMmapAnon b len.toNat)).elim r
      (fun x => ⟨x.2.current, (granted k len bad).toList ++ r.mapped⟩)
  | .execve (.noRoom imageEnd _), r | .execve (.entered imageEnd ..), r =>
    (imageBrk imageEnd).elim r (fun b => ⟨b.current, []⟩)
  | _, r => r

/-- `brk(0)` tells the caller's break, and `mmap` maps apart. -/
structure Agrees (s : Machine × (Nat → Region)) (a : Act) : Prop where
  told : a = .sys (.brk 0#32) → ∀ sp k', (cur s.1).space = some sp → step s.1 a = some k' →
    k'.frame.eax = BitVec.ofNat 32 (s.2 sp).brk
  mapped : ∀ len bad out sp r, a = .sys (.mmap len bad out) → s.1.phase = .user →
    (cur s.1).space = some sp → granted s.1 len bad = some r → ∀ t ∈ (s.2 sp).mapped, Apart r t

/-- Only a process that is no thread uses the break, never lowered into a mapping. -/
structure Orderly (s : Machine × (Nat → Region)) (a : Act) : Prop where
  leader : ∀ c, a = .sys c → (isBreak c || isFork c) = true → (cur s.1).isThread = false
  upward : ∀ addr sp, a = .sys (.brk addr) → (cur s.1).space = some sp →
    Below (moved s.1 (.brk addr) (s.2 sp)).brk (s.2 sp).mapped

variable {b : Brk} {sp : Nat}

section

variable {c : Call} {k k' k1 : Machine} {g g' : Nat → Region} {i j : Fin 8} {p p' q : Proc}

def Rests (p : Proc) : Prop := p.state = .ready ∨ p.state = .blocked

def Keeps (g : Nat → Region) (p : Proc) : Prop :=
  ∃ b, userRestoreBrkState p.brk.1 p.brk.2 = some b ∧ ∀ sp, p.space = some sp →
    b.current = (g sp).brk

structure Parked (k : Machine) (g : Nat → Region) : Prop where
  saved : ∀ i, i ≠ 0 → (k.procs i).used = true → (k.procs i).isThread = false → Rests (k.procs i) →
    Keeps g (k.procs i)
  known : ∀ i sp, i ≠ 0 → (k.procs i).used = true → (k.procs i).space = some sp → sp < k.nextSpace
  owned : ∀ i j sp, i ≠ 0 → j ≠ 0 → (k.procs i).used = true → (k.procs j).used = true →
    (k.procs i).isThread = false → (k.procs j).isThread = false → (k.procs i).space = some sp →
    (k.procs j).space = some sp → i = j
  below : ∀ sp, Below (g sp).brk (g sp).mapped

def Current (k : Machine) (g : Nat → Region) : Prop :=
  (cur k).isThread = false → ∃ b, k.brk = some b ∧ ∀ sp, (cur k).space = some sp →
    b.current = (g sp).brk

def seat (p : Proc) : Bool × Bool × Option Nat := (p.used, p.isThread, p.space)

theorem seat_fields (h : seat p' = seat p) : p'.used = p.used ∧ p'.isThread = p.isThread ∧
    p'.space = p.space := by
  obtain ⟨hu, ht, hs⟩ := Prod.mk.inj h |>.imp id Prod.mk.inj
  exact ⟨hu, ht, hs⟩

structure Settles (p p' : Proc) : Prop where
  seat : seat p' = seat p
  brk : p'.brk = p.brk
  rests : Rests p' → Rests p

theorem Settles.refl (p : Proc) : Settles p p := ⟨rfl, rfl, id⟩

theorem Settles.of_eq (h : p' = p) : Settles p p' := h ▸ .refl p

theorem Settles.trans (h : Settles p q) (h' : Settles q p') : Settles p p' :=
  ⟨h'.seat.trans h.seat, h'.brk.trans h.brk, fun hr => h.rests (h'.rests hr)⟩

theorem Settles.roused (h : Roused p p') : Settles p p' := by
  refine ⟨h.field _ fun _ => rfl, h.brk, fun hr => ?_⟩
  by_cases hb : p.state = .blocked
  · exact .inr hb
  rw [Rests, (h.calm hb).1] at hr
  exact hr

theorem Settles.one (h : k'.procs = (setProc k j p).procs) (hp : Settles (k.procs j) p)
    (i : Fin 8) : Settles (k.procs i) (k'.procs i) :=
  rows_set (P := fun i q => Settles (k.procs i) q) h hp (fun _ _ => .refl _) i

theorem Settles.freed (h : k'.procs = (setProc k j p).procs) (hp : p.used = false) (i : Fin 8)
    (hu : (k'.procs i).used = true) : Settles (k.procs i) (k'.procs i) :=
  rows_set (P := fun i q => q.used = true → Settles (k.procs i) q) h
    (fun hq => by cases hp.symm.trans hq) (fun _ _ _ => .refl _) i hu

theorem Settles.running (h : Breaks.seat p' = Breaks.seat p) (hb : p'.brk = p.brk)
    (hr : p'.state = .running) : Settles p p' := by
  refine ⟨h, hb, fun hrest => ?_⟩
  obtain hs | hs := hrest
  · cases hr.symm.trans hs
  · cases hr.symm.trans hs

theorem Keeps.congr (h : Keeps g p) (hs : Settles p p') : Keeps g p' := by
  obtain ⟨b, hb, hsp⟩ := h
  refine ⟨b, by rw [hs.brk, hb], ?_⟩
  rw [(seat_fields hs.seat).2.2]
  exact hsp

section

variable (h : Parked k g)
include h

theorem Parked.rows (hseat : ∀ i, i ≠ 0 → (k'.procs i).used = true →
    seat (k'.procs i) = seat (k.procs i))
    (hsaved : ∀ i, i ≠ 0 → (k'.procs i).used = true → (k'.procs i).isThread = false → Rests
      (k'.procs i) → Keeps g (k'.procs i)) (hn : k.nextSpace ≤ k'.nextSpace) : Parked k' g := by
  refine ⟨hsaved, fun i sp hi hu hs => ?_, fun i j sp hi hj hui huj hti htj hsi hsj => ?_, h.below⟩
  · obtain ⟨hu', -, hs'⟩ := seat_fields (hseat i hi hu)
    exact lt_of_lt_of_le (h.known i sp hi (hu' ▸ hu) (hs' ▸ hs)) hn
  · obtain ⟨hui', hti', hsi'⟩ := seat_fields (hseat i hi hui)
    obtain ⟨huj', htj', hsj'⟩ := seat_fields (hseat j hj huj)
    exact h.owned i j sp hi hj (hui' ▸ hui) (huj' ▸ huj) (hti' ▸ hti) (htj' ▸ htj) (hsi' ▸ hsi)
      (hsj' ▸ hsj)

theorem Parked.settled (hrows : ∀ i, i ≠ 0 → (k'.procs i).used = true →
    Settles (k.procs i) (k'.procs i))
    (hn : k.nextSpace ≤ k'.nextSpace) : Parked k' g := by
  refine h.rows (fun i hi hu => (hrows i hi hu).seat) (fun i hi hu ht hr => ?_) hn
  have hrow := hrows i hi hu
  obtain ⟨hu', ht', -⟩ := seat_fields hrow.seat
  exact (h.saved i hi (hu' ▸ hu) (ht' ▸ ht) (hrow.rests hr)).congr hrow

theorem Parked.same (hp : k'.procs = k.procs) (hn : k.nextSpace ≤ k'.nextSpace) : Parked k' g :=
  h.settled (fun i _ _ => .of_eq (congrFun hp i)) hn

theorem Parked.fresh (hg : ∀ s, s < k.nextSpace → g' s = g s)
    (hb : ∀ s, Below (g' s).brk (g' s).mapped) : Parked k g' := by
  refine ⟨fun i hi hu ht hr => ?_, h.known, h.owned, hb⟩
  obtain ⟨b, hbrk, hsp⟩ := h.saved i hi hu ht hr
  refine ⟨b, hbrk, fun sp hs => ?_⟩
  rw [hg sp (h.known i sp hi hu hs)]
  exact hsp sp hs

theorem Parked.update (h0 : k.current ≠ 0) (hu : (cur k).used = true)
    (hr : (cur k).state = .running) (ht : (cur k).isThread = false) (hs : (cur k).space = some sp)
    {r : Region} (hb : Below r.brk r.mapped) : Parked k (update g sp r) := by
  refine ⟨fun i hi hui hti hri => ?_, h.known, h.owned, fun s => ?_⟩
  · obtain ⟨b, hbrk, hsp⟩ := h.saved i hi hui hti hri
    refine ⟨b, hbrk, fun s hsi => ?_⟩
    have hne : s ≠ sp := by
      rintro rfl
      have hic := h.owned i k.current s hi h0 hui hu hti ht hsi hs
      subst hic
      obtain hst | hst := hri
      · cases hst.symm.trans hr
      · cases hst.symm.trans hr
    rw [update_of_ne hne]
    exact hsp s hsi
  · by_cases hs : s = sp
    · rw [hs, update_self]
      exact hb
    · rw [update_of_ne hs]
      exact h.below s

theorem Parked.joined (ho : ∀ i, i ≠ j → Settles (k.procs i) (k'.procs i))
    (hn : k.nextSpace ≤ k'.nextSpace) (hkeep : (k'.procs j).isThread = false → Rests (k'.procs j) →
    Keeps g (k'.procs j))
    (hknown : ∀ sp, (k'.procs j).space = some sp → sp < k'.nextSpace)
    (hnew : (k'.procs j).isThread = false → ∀ sp, (k'.procs j).space = some sp → k.nextSpace ≤ sp) :
    Parked k' g := by
  have hold : ∀ i s, i ≠ j → i ≠ 0 → (k'.procs i).used = true → (k'.procs i).space = some s →
    s < k.nextSpace := by
    intro i s hij hi hui hsi
    obtain ⟨hu', -, hs'⟩ := seat_fields (ho i hij).seat
    exact h.known i s hi (hu' ▸ hui) (hs' ▸ hsi)
  have hown : ∀ i s, i ≠ j → i ≠ 0 → (k'.procs i).used = true → (k'.procs i).space = some s →
      (k'.procs j).isThread = false → (k'.procs j).space = some s → False :=
    fun i s hij hi hui hsi htj hsj => absurd (hold i s hij hi hui hsi) (Nat.not_lt.mpr (hnew htj s hsj))
  refine ⟨fun i hi hui hti hri => ?_, fun i s hi hui hsi => ?_,
    fun i i' s hi hi' hui hui' hti hti' hsi hsi' => ?_, h.below⟩
  · by_cases hij : i = j
    · rw [hij] at hti hri ⊢
      exact hkeep hti hri
    · obtain ⟨hu', ht', -⟩ := seat_fields (ho i hij).seat
      exact (h.saved i hi (hu' ▸ hui) (ht' ▸ hti) ((ho i hij).rests hri)).congr (ho i hij)
  · by_cases hij : i = j
    · exact hknown s (hij ▸ hsi)
    · exact lt_of_lt_of_le (hold i s hij hi hui hsi) hn
  · by_cases hij : i = j
    · by_cases hij' : i' = j
      · exact hij.trans hij'.symm
      · exact (hown i' s hij' hi' hui' hsi' (hij ▸ hti) (hij ▸ hsi)).elim
    · by_cases hij' : i' = j
      · exact (hown i s hij hi hui hsi (hij' ▸ hti') (hij' ▸ hsi')).elim
      obtain ⟨hu1, ht1, hs1⟩ := seat_fields (ho i hij).seat
      obtain ⟨hu2, ht2, hs2⟩ := seat_fields (ho i' hij').seat
      exact h.owned i i' s hi hi' (hu1 ▸ hui) (hu2 ▸ hui') (ht1 ▸ hti) (ht2 ▸ hti') (hs1 ▸ hsi)
        (hs2 ▸ hsi')

theorem Parked.aside (hc : Current k g) (hseat : seat q = seat (cur k))
    (hbrk : q.brk = (withState k (cur k)).brk) : Parked (aside k q) g := by
  refine h.rows (fun i _ _ => rows_set (P := fun i p => seat p = seat (k.procs i)) rfl hseat
    (fun _ _ => rfl) i)
    (rows_set (P := fun i p => i ≠ 0 → p.used = true → p.isThread = false → Rests p → Keeps g p) rfl
      (fun _ _ ht _ => ?_) fun i _ => h.saved i) le_rfl
  obtain ⟨-, htq, hsq⟩ := seat_fields hseat
  obtain ⟨b, hb, hsp⟩ := hc (htq ▸ ht)
  have hstate : q.brk = (b.base, b.current) := by
    rw [hbrk]
    simp only [withState, ← htq, ht, hb]
    rfl
  refine ⟨b, ?_, fun sp hs => hsp sp (hsq ▸ hs)⟩
  rw [hstate]
  exact restore_brk b

theorem Parked.load (j : Fin 8) (ph : Phase) : Parked (setPhase (schedLoad k j) ph) g :=
  h.settled (fun i _ _ => .one (p := { k.procs j with state := .running }) rfl
    (.running rfl rfl rfl) i) le_rfl

theorem Parked.loaded (hj : j ≠ 0) (hu : (k.procs j).used = true) (hr : (k.procs j).state = .ready)
    (ph : Phase) : Current (setPhase (schedLoad k j) ph) g := by
  have hrow : cur (setPhase (schedLoad k j) ph) = { k.procs j with state := .running } :=
    setProc_self
  rw [Current, hrow]
  intro ht
  obtain ⟨b, hb, hsp⟩ := h.saved j hj hu ht (.inl hr)
  have hbrk : (setPhase (schedLoad k j) ph).brk = some b := by
    show restoredBrk k (k.procs j) = some b
    have ht' : (k.procs j).isThread = false := ht
    rw [restoredBrk, ht', hb]
    rfl
  exact ⟨b, hbrk, hsp⟩

end

theorem Current.same (h : Current k g) (hs : seat (cur k') = seat (cur k)) (hb : k'.brk = k.brk) :
    Current k' g := by
  obtain ⟨-, ht, hsp⟩ := seat_fields hs
  rw [Current, ht, hsp, hb]
  exact h

inductive Sites (c : Call) (k k' : Machine) : Prop
  | same (h : ∀ i, (k'.procs i).used = true → Settles (k.procs i) (k'.procs i))
    (hn : k.nextSpace ≤ k'.nextSpace)
  | child (j : Fin 8) (sp : Nat) (hc : isFork c = true) (hj : j ≠ k.current)
    (hp : Placed k sp k'.nextSpace (k'.procs j).isThread) (hs : (k'.procs j).space = some sp)
    (hb : (k'.procs j).brk = brkState k.brk) (ho : ∀ i, i ≠ j → Settles (k.procs i) (k'.procs i))

theorem Sites.still (hp : k'.procs = k.procs) (hn : k'.nextSpace = k.nextSpace) : Sites c k k' :=
  .same (fun i _ => .of_eq (congrFun hp i)) hn.ge

theorem Sites.one (h : k'.procs = (setProc k j p).procs) (hn : k'.nextSpace = k.nextSpace)
    (hp : Settles (k.procs j) p) : Sites c k k' :=
  .same (fun i _ => .one h hp i) hn.ge

theorem Sites.freed (h : k'.procs = (setProc k j p).procs) (hu : p.used = false)
    (hn : k.nextSpace ≤ k'.nextSpace) : Sites c k k' :=
  .same (Settles.freed h hu) hn

theorem Sites.reaped (hp : k1.procs = k.procs) (hn : k1.nextSpace = k.nextSpace)
    (hu : (k1.procs j).used = true) (hc : k1.current ≠ j) : Sites c k (procReap k1 j) := by
  refine .same (fun i hi => ?_) ?_
  · by_cases hij : i = j
    · rw [hij, procReap_self hu hc] at hi
      cases hi
    · rw [← hp]
      exact .roused (procReap_other hu hc hij)
  · rw [procReap_field Machine.nextSpace hu hc fun _ _ => rfl, hn]

variable {a : Act} {s s' : Machine × (Nat → Region)}

theorem Parked.started (h : Parked k g) (i : Fin 8) (b : Brk) (m : UserMem) (f : Regs)
    (hb : (g k.nextSpace).brk = b.current) : Parked (started k i b m f) g ∧
    Current (Phases.started k i b m f) g := by
  have hrow : (Phases.started k i b m f).procs i = starter k b := setProc_self
  refine ⟨h.joined (j := i) (fun j hj => .of_eq (setProc_ne hj)) (Nat.le_succ _) (fun _ hr => ?_)
    (fun sp hs => ?_) (fun _ sp hs => ?_), fun _ => ⟨b, rfl, fun sp hs => ?_⟩⟩
  · rw [hrow] at hr
    exact hr.elim PState.noConfusion PState.noConfusion
  · rw [hrow] at hs
    exact (some.inj hs).symm ▸ Nat.lt_succ_self _
  · rw [hrow] at hs
    exact (some.inj hs).le
  · have hs' : (starter k b).space = some sp := hrow ▸ hs
    rw [← some.inj hs', hb]

theorem Parked.launched (h : Parked k g) (hl : Launched k k')
    (hg : ∀ s, g' s = if k.nextSpace ≤ s then ⟨(brkState k'.brk).2, []⟩ else g s)
    (hp : busy k.phase = false) : Parked k' g' ∧ (busy k'.phase = true → Current k' g') := by
  have hfresh : Parked k g' := by
    refine h.fresh (fun s hs => ?_) fun s => ?_
    · rw [hg, if_neg (Nat.not_le.mpr hs)]
    rw [hg]
    split
    · exact below_nil _
    · exact h.below s
  have hno : k'.phase = k.phase → busy k'.phase = true → Current k' g' := fun he hb =>
    absurd ((he ▸ hb).symm.trans hp) (by simp)
  cases hl with
  | failed hf =>
    cases hf with
    | none => exact ⟨hfresh, hno rfl⟩
    | undone _ _ _ _ _ _ hu hn
    | reset _ _ _ _ _ _ hu hn => exact ⟨hfresh.settled (fun i _ => Settles.freed rfl hu i) hn, hno rfl⟩
  | entered j b m f hj hf =>
    have hstart := hfresh.started j b m f (by rw [hg, if_pos le_rfl]; rfl)
    exact ⟨hstart.1, fun _ => hstart.2⟩

variable {as : List Act} {r : Fs.RamFs.Ram} {mem : UserMem} {cow : Cow}

end

end MuOS.Kernel.Breaks
