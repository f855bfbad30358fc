import MuOS.Kernel.Rows

namespace MuOS.Kernel.Wakers

open User.Descriptors State Wake Sched Calls Stir Tables

inductive Wakes (k : Machine) : Machine → Prop
  | stored (m : UserMem) : Wakes k { k with mem := m }
  | polled (i : Fin 8) (es : List PollFd) :
    Wakes k (procPollFinish (logPoll k ⟨i, es⟩) i (readyCount es))
  | drained (j : Fin 8) (n : Nat) : Wakes k (dropFront k j n)
  | handed (j : Fin 8) (bs : List (BitVec 8)) : Wakes k (logHanded k j bs)
  | typed : Wakes k { k with keys := k.keys.tail }
  | read (i : Fin 8) (pipe : Option (Fin 8)) (s : Progress) : Wakes k (finishRead k i pipe s)
  | failed (i : Fin 8) : Wakes k (setProc k i (finished (k.procs i) (errnoOf 9)))
  | crowded (b : Bool) :
    Wakes k { k with trace := { k.trace with crowded := k.trace.crowded || b } }

abbrev Wakens : Machine → Machine → Prop := Relation.ReflTransGen Wakes

variable {k k' : Machine} {i j : Fin 8} {notify : Machine → Machine}

theorem Wakes.wakens (h : Wakes k k') : Wakens k k' := .single h

theorem Pokes.wakens (h : Pokes k k') : Wakens k k' := by
  obtain ⟨m, rfl⟩ := h
  exact (Wakes.stored m).wakens

theorem overProcs_wakens {f : Machine → Fin 8 → Machine} (hf : ∀ k i, Wakens k (f k i))
    (k : Machine) : Wakens k (overProcs k f) := by
  have hl : ∀ (l : List (Fin 8)) k, Wakens k (l.foldl f k) := by
    intro l
    induction l with
    | nil => exact fun _ => .refl
    | cons i l ih => exact fun k => (hf k i).trans (ih (f k i))
  exact hl _ k

theorem wakePoller_wakens (k : Machine) (i : Fin 8) : Wakens k (wakePoller k i) := by
  simp only [wakePoller]
  split
  · have hscan := Pokes.wakens (procPollScan_pokes k (k.procs i))
    split
    · exact hscan.trans (Wakes.polled i _).wakens
    · exact hscan
  · exact .refl

theorem procWakePollers_wakens (k : Machine) : Wakens k (procWakePollers k) :=
  overProcs_wakens wakePoller_wakens k

theorem storeChunk_wakens (k : Machine) (i j : Fin 8) (s : Progress) (chunk : List (BitVec 8)) :
    Wakens k (storeChunk k i j s chunk).1 := by
  simp only [storeChunk]
  split
  · exact (Pokes.wakens (storeFor_pokes k _ _ chunk)).trans (Wakes.handed j chunk).wakens
  · exact .refl

section

variable (hn : ∀ k, Wakens k (notify k))
include hn

theorem readLoop_wakens {fill : Nat} (fuel : Nat) (k : Machine) (s : Progress) :
    Wakens k (readLoop notify i j fill fuel k s).1 := by
  induction fuel generalizing k s with
  | zero => exact .refl
  | succ fuel ih =>
    simp only [readLoop]
    split
    · have hd := (Wakes.drained (k := k) j (min (fill - s.done) 128)).wakens.trans (hn _)
      split
      · exact hd
      · exact (hd.trans (storeChunk_wakens _ i j s _)).trans (ih _ _)
    · exact .refl

theorem readPipeFor_wakens (k : Machine) (i j : Fin 8) : Wakens k (readPipeFor k notify i j) := by
  simp only [readPipeFor]
  split
  · exact .refl
  · exact (readLoop_wakens hn _ k _).trans (Wakes.read i _ _).wakens

omit hn in
theorem readKeyFor_wakens (k : Machine) (i : Fin 8) : Wakens k (readKeyFor k i) := by
  simp only [readKeyFor]
  split
  · exact .refl
  rename_i c rest hkeys
  have hk : Wakens k { k with keys := rest } := by
    have he : { k with keys := rest } = { k with keys := k.keys.tail } := by rw [hkeys]; rfl
    rw [he]
    exact Wakes.typed.wakens
  split
  · exact (hk.trans (Pokes.wakens (storeFor_pokes ..))).trans (Wakes.read i _ _).wakens
  · exact hk.trans (Wakes.read i _ _).wakens

theorem procReadCheck_wakens (k : Machine) (i : Fin 8) : Wakens k (procReadCheck k notify i) := by
  simp only [procReadCheck]
  split
  · split
    · exact .refl
    split
    · split
      · exact (Wakes.failed i).wakens
      · exact readPipeFor_wakens hn k i _
    · exact readKeyFor_wakens k i
    · exact readKeyFor_wakens k i
    · exact .refl
  · exact .refl

theorem wakeReader_wakens (k : Machine) (i : Fin 8) : Wakens k (wakeReader k notify i) := by
  rw [wakeReader]
  split
  · exact procReadCheck_wakens hn k i
  · exact .refl

end

theorem notifyWith_wakens (fuel : Nat) (k : Machine) : Wakens k (notifyWith fuel k) := by
  induction fuel generalizing k with
  | zero => exact .refl
  | succ fuel ih =>
    exact (procWakePollers_wakens k).trans (overProcs_wakens (wakeReader_wakens ih) _)

theorem procNotify_wakens (k : Machine) : Wakens k (procNotify k) :=
  (Wakes.crowded _).wakens.trans (notifyWith_wakens _ _)

section

variable (h : Wakens k k')
include h

theorem Wakens.accepted : k'.trace.accepted = k.trace.accepted := by
  induction h with
  | refl => rfl
  | tail _ hs ih =>
    rw [← ih]
    cases hs <;> rfl

theorem Wakens.crowded (hc : k'.trace.crowded = false) : k.trace.crowded = false := by
  induction h with
  | refl => exact hc
  | tail _ hs ih =>
    refine ih ?_
    cases hs with
    | crowded b => exact (Bool.or_eq_false_iff.mp hc).1
    | _ => exact hc

end

end MuOS.Kernel.Wakers
