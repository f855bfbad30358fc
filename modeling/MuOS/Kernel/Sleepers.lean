import MuOS.Kernel.Bystanders
import MuOS.Kernel.Requests

namespace MuOS.Kernel.Sleepers

open User Descriptors Window Lib.Runs State Wake Sched Calls Stir Tables Prims ProcTable Step
open Phases Layout Rows Wakers Requests Holdings Bystanders Option

variable {D : Fin 16 → Prop} {k k' k1 : Machine} {i : Fin 8} {c : Call} {a : Act} {w : Wait}
  {r : Request} {o : Otherwise} {j : Fin 8}

theorem sleeps_roused {p p' : Proc} (h : Roused p p') (hs : sleeps p' w = true) :
    sleeps p w = true := by
  obtain ⟨hu, hb, hw⟩ := sleeps_spec hs
  have hblocked : p.state = .blocked := by
    by_contra hn
    exact hn ((h.calm hn).1.symm.trans hb)
  have huser : isUser p = isUser p' := by
    rw [isUser, isUser, h.used, h.pid]
  have hwait : p.waitKind = w := (h.stays hblocked hb).2.1.symm.trans hw
  rw [sleeps, huser, hu, hblocked, hwait]
  simp

theorem not_sleeps {p : Proc} (h : p.state ≠ .blocked) : sleeps p w = false := by
  simp [sleeps, h]

theorem Moved.sleeps (h : Moved k k' i) (hs : sleeps (k'.procs i) w = true) :
    Roused (k.procs i) (k'.procs i) ∨ ∃ r o, i = k.current ∧ k.phase = .blocking r o ∧
    (cur k).fdState.isSome = true := by
  obtain ⟨hu, hb, -⟩ := sleeps_spec hs
  cases h with
  | roused h => exact .inl h
  | runs h | died _ h => cases h.symm.trans hb
  | slept r o hi hp hf h => exact .inr ⟨r, o, hi, hp, hf⟩
  | yielded hi hp h =>
    rw [h] at hb
    cases hb
  | begot x tls hbusy hfree h => cases h.state.symm.trans hb
  | gone h => cases h.symm.trans (isUser_spec hu).1

theorem sysCall_sleeps (hs : Shape k) (hp : k.phase = .user) (c : Call)
    (h : sleeps ((sysCall k c).1.procs i) w = true) :
    Roused (k.procs i) ((sysCall k c).1.procs i) := by
  have hb := busy_at hp
  have hall := parts_invariant
    (I := fun k1 => k1.phase = .user ∧
    (sleeps (k1.procs i) w = true → Roused (k.procs i) (k1.procs i))) hs hb
    (fun k1 k2 hs1 hb1 hi hd => ?_) ⟨hp, fun _ => Roused.refl _⟩ (sysCall_parts c)
  · exact hall.2 h
  obtain ⟨-, hu1, hr1⟩ := hs1.cpu hb1
  refine ⟨(hs1.parts hb1 (.single hd)).2.trans hi.1, fun hsl => ?_⟩
  rcases Moved.sleeps (Does.moved hd hb1 hu1 hr1 i) hsl with h | ⟨r, o, -, hph, -⟩
  · exact (hi.2 (sleeps_roused h hsl)).trans h
  · cases hi.1.symm.trans hph

theorem Stepped.blocking (h : Stepped k a k') (hp : k.phase = .blocking r o)
    (hf : (cur k).fdState.isSome = true) :
    (∃ j, pickFrom (aside k (sleeper k r)) (k.current.val + 1) = some j ∧
      k' = setPhase (schedLoad (aside k (sleeper k r)) j) .leaving) ∨
    k' = after (stayed k r) (instead o) := by
  cases h with
  | sleep r' o' j hp' _ hj =>
    cases hp.symm.trans hp'
    exact .inl ⟨j, hj, rfl⟩
  | awake r' o' hp' =>
    cases hp.symm.trans hp'
    exact .inr rfl
  | tableless r' o' hp' hn => cases hf.symm.trans hn
  | _ => simp_all [takesIrq]

theorem Stepped.sleeps (hs : Shape k) (h : Stepped k a k') (hsl : sleeps (k'.procs i) w = true) :
    Roused (k.procs i) (k'.procs i) ∨ ∃ r o j, i = k.current ∧ k.phase = .blocking r o ∧
      (cur k).fdState.isSome = true ∧
      j ≠ i ∧ k' = setPhase (schedLoad (aside k (sleeper k r)) j) .leaving := by
  rcases Rows.Stepped.moved hs h with ⟨c, rfl⟩ | hmoved
  · cases h with
    | call _ k1 fl hp hc =>
      left
      have hprocs : (after k1 fl).procs = k1.procs := by cases fl <;> rfl
      have hcall := sysCall_sleeps (k := inCall k) (i := i) (w := w) hs.entered hp c
      rw [hc] at hcall
      rw [hprocs] at hsl ⊢
      exact hcall hsl
  · rcases Moved.sleeps (hmoved i) hsl with hsl0 | ⟨r, o, hi, hp, hf⟩
    · exact .inl hsl0
    rcases Stepped.blocking h hp hf with ⟨j, hj, rfl⟩ | rfl
    · refine .inr ⟨r, o, j, hi, hp, hf, ?_, rfl⟩
      rintro rfl
      obtain ⟨-, hready, -⟩ := runnable_spec (pickFrom_runnable hj)
      have hself : (aside k (sleeper k r)).procs k.current = sleeper k r := setProc_self
      rw [hi, hself] at hready
      cases hready
    · have hrow : (after (stayed k r) (instead o)).procs k.current = sleepless k r := by
        cases o <;> exact setProc_self
      rw [hi, hrow] at hsl
      cases (sleeps_spec hsl).2.1

theorem Shape.sleeps_ne (hs : Shape k) (hb : busy k.phase = true)
    (hsl : sleeps (k.procs i) w = true) : i ≠ k.current := by
  rintro rfl
  have hrun := (hs.cpu hb).2.2
  rw [cur, (sleeps_spec hsl).2.1] at hrun
  cases hrun

theorem savedTable_own {q : Proc} (h : InBooks D k) (hs : Shape k) (hb : busy k.phase = true)
    (hq : q.fdState = (cur k).fdState) (j : Fin 8) (ph : Phase) :
    savedTable (setPhase (schedLoad (aside k q) j) ph) q = some k.fds := by
  obtain ⟨t, hl, hst⟩ := InBooks.running h hs hb
  have hsaved := congrFun (savedTables_aside hb q) t
  rw [tables_live hl hst] at hsaved
  have hf : q.fdState = some t := hq.trans ((live_busy hb).symm.trans hl)
  rw [savedTable, hf]
  exact hsaved

theorem Woke.loose (h : Woke k k') : Loose i k k' :=
  ⟨h.procs i, h.savedTable i, fun _ _ _ _ => h.pipeValid _⟩

section

def Able (k : Machine) (i : Fin 8) : Prop :=
  sleeps (k.procs i) .read = true → (k.procs i).blkPtr ≠ 0#32 ∧ 0 < (k.procs i).blkLen

def Fed (k : Machine) (i : Fin 8) : Prop :=
  ∀ j, awaited k i = some j → (k.pipes j).ring.count = 0 ∧ 0 < (k.pipes j).writers

theorem awaited_sleeps (h : awaited k i = some j) : sleeps (k.procs i) .read = true := by
  rw [awaited] at h
  split at h
  · assumption
  · cases h

theorem awaited_spec (h : awaited k i = some j) : ∃ t fd, savedTable k (k.procs i) = some t ∧
    descIndex (k.procs i).blkFd = some fd ∧ (t fd).kind = .pipeRead ∧
    pipeValid k (t fd).pipeId = some j := by
  rw [awaited, if_pos (awaited_sleeps h)] at h
  split at h
  · rename_i t fd ht hfd
    split at h
    · rename_i hk
      exact ⟨t, fd, ht, hfd, hk, h⟩
    · cases h
  · cases h

theorem awaited_eq {t : Table} {fd : Fin 11} (hs : sleeps (k.procs i) .read = true)
    (ht : savedTable k (k.procs i) = some t) (hfd : descIndex (k.procs i).blkFd = some fd)
    (hk : (t fd).kind = .pipeRead) (hj : pipeValid k (t fd).pipeId = some j) :
    awaited k i = some j := by
  rw [awaited, if_pos hs, ht, hfd]
  simp only [hk, if_true]
  exact hj

theorem awaited_finished (h : (k.procs i).state = .ready) : awaited k i = none := by
  rw [awaited]
  rw [not_sleeps (by rw [h]; simp)]
  simp

theorem Fed.idle (h : sleeps (k.procs i) .read = false) : Fed k i := fun _ hj =>
  by cases h.symm.trans (awaited_sleeps hj)

theorem Fed.finished (h : (k.procs i).state = .ready) : Fed k i := fun _ hj =>
  by cases (awaited_finished h).symm.trans hj

theorem Able.loose (h : Able k i) (hl : Roused (k.procs i) (k'.procs i)) : Able k' i := by
  intro hs
  rw [hl.blkPtr, hl.blkLen]
  exact h (sleeps_roused hl hs)

theorem Loose.awaited (hl : Loose i k k') (h : awaited k' i = some j) : awaited k i = some j := by
  obtain ⟨t, fd, ht, hfd, hk, hj⟩ := awaited_spec h
  rw [hl.table] at ht
  rw [hl.row.field Proc.blkFd fun _ => rfl] at hfd
  rw [hl.valid t fd ht (.inl hk)] at hj
  exact awaited_eq (sleeps_roused hl.row (awaited_sleeps h)) ht hfd hk hj

theorem Fed.quiet (h : Fed k i) (hq : Quiet i k k') : Fed k' i := by
  intro j hj
  have ha := Loose.awaited hq.toLoose hj
  obtain ⟨t, fd, ht, hfd, hk, hv⟩ := awaited_spec ha
  rw [hq.pipes j (pipeValid_some hv).2]
  exact h j ha

theorem Fed.woke (h : Fed k i) (hw : Woke k k')
    (hc : ∀ j, (k'.pipes j).ring.count ≤ (k.pipes j).ring.count) : Fed k' i := by
  intro j hj
  have hl : Loose i k { k with procs := k'.procs } := ⟨hw.procs i, ?_, fun _ _ _ _ => rfl⟩
  · have ha : awaited { k with procs := k'.procs } i = some j := by
      rw [← hj, awaited, awaited, hw.savedTable, hl.table]
      simp only [hw.pipeValid]
      rfl
    obtain ⟨hz, hpos⟩ := h j (Loose.awaited hl ha)
    exact ⟨Nat.le_zero.mp (hz ▸ hc j), by rw [hw.writers]; exact hpos⟩
  · rw [savedTable, savedTable, (hw.procs i).fdState]

theorem readKeyFor_fed (hk : awaited k i = none) : Fed (readKeyFor k i) i := by
  simp only [readKeyFor]
  split
  · exact fun j hj => by cases hk.symm.trans hj
  split
  · exact Fed.finished (congrArg Proc.state setProc_self)
  · exact Fed.finished (congrArg Proc.state setProc_self)

variable {notify : Machine → Machine}

theorem wakeReader_fed (h : Able k i) : Fed (wakeReader k notify i) i := by
  rw [wakeReader]
  split
  · rename_i hs
    obtain ⟨hptr, hlen⟩ := h hs
    have hsame : awaited k i = none → Fed k i := fun hn j hj => by cases hn.symm.trans hj
    simp only [procReadCheck]
    split
    · rename_i t fd ht hfd
      have hother : (t fd).kind ≠ .pipeRead → awaited k i = none := by
        intro hk
        rw [awaited, if_pos hs, ht, hfd]
        simp only [if_neg hk]
      rw [if_neg (by rintro (h0 | h0) <;> [exact hptr h0; omega])]
      split
      · rename_i hk
        split
        · exact Fed.finished (congrArg Proc.state setProc_self)
        rename_i j hj
        simp only [readPipeFor]
        split
        · rename_i hz
          intro j' hj'
          cases (awaited_eq hs ht hfd hk hj).symm.trans hj'
          exact hz
        · exact Fed.finished (congrArg Proc.state setProc_self)
      · rename_i hk
        exact readKeyFor_fed (hother (by simp [hk]))
      · rename_i hk
        exact readKeyFor_fed (hother (by simp [hk]))
      · rename_i hk _ _
        exact hsame (hother hk)
    · rename_i hn
      refine hsame ?_
      rw [awaited, if_pos hs]
      split
      · rename_i t fd ht hfd
        exact absurd hfd (hn t fd ht)
      · rfl
  · rename_i hs
    exact Fed.idle (Bool.eq_false_iff.mpr hs)

theorem wakeReaders_fed (hn : ∀ k, Woke k (notify k)) (hn' : ∀ k, Wakens k (notify k))
    (h : Able k i) : Fed (procWakeReaders k notify) i := by
  have hwoke : ∀ k j, Woke k (wakeReader k notify j) := fun k j => by
    rw [wakeReader]
    split
    · rename_i hsl
      obtain ⟨-, hb, hw⟩ := sleeps_spec hsl
      exact procReadCheck_woke hn hb hw
    · exact Woke.refl k
  exact foldl_reaches (Q := fun k => Fed k i)
    (fun k j ha => ha.loose ((hwoke k j).procs i)) (fun _ => wakeReader_fed)
    (fun k j _ hf => hf.woke (hwoke k j) (Wakens.count (wakeReader_wakens hn' k j)))
    (List.mem_finRange i) h

theorem procNotify_fed (h : Able k i) : Fed (procNotify k) i := by
  rw [procNotify]
  refine wakeReaders_fed (notifyWith_woke _) (notifyWith_wakens _) ?_
  exact Able.loose
    (k := { k with trace := { k.trace with crowded := k.trace.crowded || isCrowded k } }) h
    ((procWakePollers_woke _).procs i)

def Rests (k : Machine) (i : Fin 8) : Prop := Able k i ∧ Fed k i

theorem Rests.awake (h : sleeps (k.procs i) .read = false) : Rests k i :=
  ⟨fun hs => absurd (h.symm.trans hs) (by simp), Fed.idle h⟩

theorem stands_of_sleeps (h : sleeps (k'.procs i) w = true) : Stands k k' i := by
  obtain ⟨hu, hb, -⟩ := sleeps_spec h
  exact ⟨(isUser_spec hu).1, .inl hb⟩

theorem Rests.chimes (h : Rests k i) (hc : Chimes i k k') : Rests k' i := by
  induction hc with
  | refl => exact h
  | tail _ hstep ih =>
    cases hstep with
    | apart hn => exact Rests.awake (Bool.eq_false_iff.mpr fun hs => hn (stands_of_sleeps hs))
    | quiet hq => exact ⟨ih.1.loose hq.row, ih.2.quiet hq⟩
    | rung hl =>
      have hable := ih.1.loose hl.row
      exact ⟨hable.loose ((procNotify_woke _).procs i), procNotify_fed hable⟩

theorem userPtrOk_pos {buf count : BitVec 32} (hc : count ≠ 0#32)
    (hp : userPtrOk buf.toNat count.toNat = true) : buf ≠ 0#32 ∧ 0 < count.toInt := by
  have hne : count.toNat ≠ 0 := fun h0 => hc (BitVec.eq_of_toNat_eq h0)
  obtain ⟨hlo, hhi⟩ := userPtrOk_iff.mp hp
  unfold userEnd at hhi
  refine ⟨fun h0 => ?_, ?_⟩
  · rw [h0] at hlo
    cases hlo
  · rw [BitVec.toInt_eq_toNat_of_lt (by omega)]
    omega

theorem Rests.sleep (h : InBooks D k) (hs : Shape k) (ha : Asking k) (hp : k.phase = .blocking r o)
    (hj : j ≠ k.current) :
    Rests (setPhase (schedLoad (aside k (sleeper k r)) j) .leaving) k.current := by
  have hb := busy_at hp
  have hsaved := savedTable_own (q := sleeper k r) h hs hb rfl j .leaving
  have hrow :
    (setPhase (schedLoad (aside k (sleeper k r)) j) .leaving).procs k.current = sleeper k r :=
    (setProc_ne (Ne.symm hj)).trans setProc_self
  have hvalid :
    ∀ id, pipeValid (setPhase (schedLoad (aside k (sleeper k r)) j) .leaving) id = pipeValid k id :=
    fun _ => rfl
  have hpipes : (setPhase (schedLoad (aside k (sleeper k r)) j) .leaving).pipes = k.pipes := rfl
  generalize setPhase (schedLoad (aside k (sleeper k r)) j) .leaving = k' at *
  have hable : Able k' k.current := by
    intro hsl
    rw [hrow] at hsl ⊢
    have hkind : r.kind = .read := (sleeps_spec hsl).2.2
    cases ha r o hp with
    | console _ _ _ _ _ _ hc hok | pipe _ _ _ _ _ _ _ _ hc hok => exact userPtrOk_pos hc hok
    | poll | sigsusp | wait4 | waitid => cases hkind
  refine ⟨hable, fun l hl => ?_⟩
  obtain ⟨t, fd, ht, hfd, hk, hv⟩ := awaited_spec hl
  have hkind : r.kind = .read := by
    have hsl := awaited_sleeps hl
    rw [hrow] at hsl
    exact (sleeps_spec hsl).2.2
  rw [hrow] at ht hfd
  cases hsaved.symm.trans ht
  rw [hvalid] at hv
  rw [hpipes]
  cases ha r o hp with
  | console fd' buf count n hn hk' hc hok he =>
    cases hn.symm.trans hfd
    rcases hk' with hk' | hk' <;> cases hk'.symm.trans hk
  | pipe fd' buf count n l' hn hk' hl' hc hok he hw =>
    cases hn.symm.trans hfd
    cases hl'.symm.trans hv
    exact ⟨he, hw⟩
  | poll | sigsusp | wait4 | waitid => cases hkind

theorem Rests.stepped (h : InBooks D k) (hs : Shape k) (ha : Asking k) (hr : Rests k i)
    (hun : sleeps (k.procs i) .read = true → Unshared k i) (hst : Stepped k a k') : Rests k' i := by
  by_cases hsl : sleeps (k.procs i) .read = true
  · exact hr.chimes (Stepped.chimes h hs hst (fun hb => Shape.sleeps_ne hs hb hsl) (hun hsl))
  by_cases hsl' : sleeps (k'.procs i) .read = true
  · rcases Stepped.sleeps hs hst hsl' with hc | ⟨r, o, j, rfl, hp, hf, hj, rfl⟩
    · exact absurd (sleeps_roused hc hsl') hsl
    · exact Rests.sleep h hs ha hp hj
  · exact Rests.awake (Bool.eq_false_iff.mpr hsl')

variable {ram : Fs.RamFs.Ram} {mem : UserMem} {cow : Cow} {as : List Act}

structure Kept (k : Machine) : Prop where
  shape : Shape k
  books : InBooks (fun _ => False) k
  asking : Asking k

theorem boot_kept : Kept (boot ram mem cow) :=
  ⟨boot_shape ram mem cow, boot_books fun _ hf => absurd hf id, fun _ _ hp => by cases hp⟩

theorem Kept.step (h : Kept k) (hst : Stepped k a k') : Kept k' :=
  ⟨h.shape.stepped hst, InBooks.stepped h.books h.shape hst, stepped_asking h.shape hst⟩

theorem fed_run (h : run step (boot ram mem cow) as = some k)
    (hm : Meets step (fun k _ => sleeps (k.procs i) .read = true → Unshared k i)
    (boot ram mem cow) as) : Fed k i := by
  have hinv : Kept k ∧ Rests k i := by
    refine meets_invariant (I := fun k => Kept k ∧ Rests k i) ?_ ⟨boot_kept, Rests.awake ?_⟩ hm h
    · rintro k a k' ⟨hk, hr⟩ hun ht
      have hst := step_stepped ht
      exact ⟨hk.step hst, hr.stepped hk.books hk.shape hk.asking hun hst⟩
    · refine not_sleeps ?_
      simp only [boot]
      split <;> rintro ⟨⟩
  exact hinv.2.2

/-- Along a run in which a blocked reader has its table to itself, it is never
left with bytes to read, nor with no writer left. -/
theorem no_reader_left (h : run step (boot ram mem cow) as = some k)
    (hm : Meets step (fun k _ => sleeps (k.procs i) .read = true → Unshared k i)
    (boot ram mem cow) as) :
    ¬ ∃ j, awaited k i = some j ∧ (0 < (k.pipes j).ring.count ∨ (k.pipes j).writers = 0) := by
  rintro ⟨j, hj, hleft⟩
  obtain ⟨hz, hpos⟩ := fed_run h hm j hj
  omega

def parentReads : List Act :=
  [enter, .sys (.pipe 0x08840000#32 noWorld []), .go, .sys (.fork none), .go,
    .sys (.read 3#32 0x08840000#32 1#32 noWorld []), .go]

theorem no_reader_left_parent : ∃ k, run step plain parentReads = some k ∧ awaited k 1 = some 0 ∧
    ¬ (0 < (k.pipes 0).ring.count ∨ (k.pipes 0).writers = 0) := by
  have hm :
    Meets step (fun k _ => sleeps (k.procs 1) .read = true → Unshared k 1) plain parentReads :=
    checks_meets (fun _ _ h => of_decide_eq_true h) (by decide +kernel)
  obtain ⟨k, hk, hwait⟩ : ∃ k, run step plain parentReads = some k ∧ awaited k 1 = some 0 := by
    decide +kernel
  exact ⟨k, hk, hwait, fun hl => no_reader_left hk hm ⟨0, hwait, hl⟩⟩

/-- A sharer of a sleeper's table puts a full pipe there and exits. -/
def sharerSwaps : List Act :=
  [enter, .sys (.fork none), .go, .tick, .go, .go,
    .sys (.pipe 0x08840000#32 noWorld []), .go, .sys (.pipe 0x08840000#32 noWorld []), .go,
    .sys (.write 6#32 0x08840000#32 1#32 noWorld), .go,
    .sys (.clone cloneFiles 0#32 0#32 0#32 0#32 none), .go,
    .tick, .go, .go, .sys (.read 3#32 0x08840000#32 1#32 noWorld []), .go, .go, .tick, .go, .go,
    .sys (.fs (.dup2 5 3) noWorld []), .go, .exit 0#32, .go, .go, .go, .sys (.wait4 3#32 0#32 0#32),
    .go, .sys (.fork none), .go, .sys (.wait4 (-1#32) 0#32 0#32), .go]

theorem swapped_reader_left : ∃ k, run step plain sharerSwaps = some k ∧ Unshared k 3 ∧
    awaited k 3 = some 1 ∧ 0 < (k.pipes 1).ring.count := by
  decide +kernel

end

end MuOS.Kernel.Sleepers
