import MuOS.Kernel.Prims

namespace MuOS.Kernel.ProcTable

open Function Syscall.Vfs State Wake Sched Calls Stir Tables Prims Nat List

variable {child j : Fin 8} {b : Machine}

/-- A process keeps its place; a sleeper may have been woken. -/
structure Fit (p p' : Proc) : Prop where
  used : p'.used = p.used
  pid : p'.pid = p.pid
  ppid : p'.ppid = p.ppid
  space : p'.space = p.space
  fdState : p'.fdState = p.fdState
  retained : p'.fdsRetained = p.fdsRetained
  hasCtx : p'.hasCtx = p.hasCtx
  last : p'.lastWaitPid = p.lastWaitPid ∨ p'.lastWaitPid = 0
  state : p'.state = p.state ∨ p.state = .blocked ∧ p'.state = .ready

structure Formed (p : Proc) : Prop where
  state : p.state ≠ .free
  hasCtx : p.state = .ready ∨ p.state = .blocked → p.hasCtx = true
  space : p.space.isSome = true
  fdState : p.fdState.isSome = true
  retained : p.fdsRetained = true

structure IsKernel (p : Proc) : Prop where
  used : p.used = true
  pid : p.pid = 1
  ppid : p.ppid = 0
  state : p.state = .running
  fdState : p.fdState = none

/-- The kernel is in slot 0, and numbers are never reused. -/
structure Sound (k : Machine) : Prop where
  kernel : IsKernel (k.procs 0)
  next : 1 < k.nextPid
  pids : ∀ i, i ≠ 0 → (k.procs i).used = true → 1 < (k.procs i).pid
  below : ∀ i, (k.procs i).used = true → (k.procs i).pid < k.nextPid
  distinct : ∀ i j, (k.procs i).used = true → (k.procs j).used = true →
    (k.procs i).pid = (k.procs j).pid → i = j
  formed : ∀ i, i ≠ 0 → (k.procs i).used = true → Formed (k.procs i)
  told : ∀ i j, (k.procs i).used = true → (k.procs j).used = true →
    (k.procs j).pid = (k.procs i).lastWaitPid → (k.procs j).ppid = (k.procs i).pid
  last : ∀ i, (k.procs i).used = true → (k.procs i).lastWaitPid < k.nextPid

structure Born (k : Machine) (p : Proc) : Prop extends Formed p where
  used : p.used = true
  pid : p.pid = k.nextPid
  last : p.lastWaitPid = 0

inductive Change (k k' : Machine) (c : Fin 8) : Prop
  | fit (h : Fit (k.procs c) (k'.procs c))
  | slipped (hu : (k.procs c).used = false) (h : (k'.procs c).used = false)
  | born (hu : (k.procs c).used = false) (h : Born k (k'.procs c))
    (hr : (k'.procs c).state = .ready) (hp : (k'.procs c).ppid = (cur k).pid)
    (hn : k.nextPid < k'.nextPid)
  | reaped (hu : (k.procs c).used = true) (hz : (k.procs c).state = .zombie)
    (hp : (k.procs c).ppid = (cur k).pid) (h : k'.procs c = emptyProc)

structure Turned (k k' : Machine) : Prop where
  turn : ∃ c, Change k k' c ∧ ∀ j, j ≠ c → Fit (k.procs j) (k'.procs j)
  current : k'.current = k.current
  phase : k'.phase = k.phase
  launched : k'.launched = k.launched
  nextPid : k.nextPid ≤ k'.nextPid

section

variable {p p' p'' : Proc}

theorem Fit.refl (p : Proc) : Fit p p := ⟨rfl, rfl, rfl, rfl, rfl, rfl, rfl, .inl rfl, .inl rfl⟩

theorem Fit.trans (h : Fit p p') (h' : Fit p' p'') : Fit p p'' where
  used := h'.used.trans h.used
  pid := h'.pid.trans h.pid
  ppid := h'.ppid.trans h.ppid
  space := h'.space.trans h.space
  fdState := h'.fdState.trans h.fdState
  retained := h'.retained.trans h.retained
  hasCtx := h'.hasCtx.trans h.hasCtx
  last := by
    rcases h'.last with hl | hl
    · rw [hl]
      exact h.last
    · exact .inr hl
  state := by
    rcases h.state with hs | ⟨hb, hr⟩
    · rcases h'.state with hs' | ⟨hb', hr'⟩
      · exact .inl (hs'.trans hs)
      · exact .inr ⟨hs ▸ hb', hr'⟩
    · rcases h'.state with hs' | ⟨hb', hr'⟩
      · exact .inr ⟨hb, hs'.trans hr⟩
      · exact .inr ⟨hb, hr'⟩

theorem Roused.fit (h : Roused p p') (hl : p'.lastWaitPid = p.lastWaitPid) : Fit p p' where
  used := h.used
  pid := h.pid
  ppid := h.ppid
  space := h.space
  fdState := h.fdState
  retained := h.field _ fun _ => rfl
  hasCtx := h.field _ fun _ => rfl
  last := .inl hl
  state := by
    by_cases hb : p.state = .blocked
    · rcases h.wakes hb with hs | hs
      · exact .inl (hs.trans hb.symm)
      · exact .inr ⟨hb, hs⟩
    · exact .inl (h.calm hb).1

theorem Fit.formed (h : Fit p p') (hf : Formed p) : Formed p' where
  state := by
    rcases h.state with hs | ⟨-, hr⟩
    · rw [hs]
      exact hf.state
    · rw [hr]
      simp
  hasCtx := by
    intro hs'
    rw [h.hasCtx]
    rcases h.state with hs | ⟨hb, -⟩
    · rw [hs] at hs'
      exact hf.hasCtx hs'
    · exact hf.hasCtx (.inr hb)
  space := h.space ▸ hf.space
  fdState := h.fdState ▸ hf.fdState
  retained := h.retained ▸ hf.retained

theorem Fit.running (h : Fit p p') : p'.state = .running ↔ p.state = .running := by
  rcases h.state with hs | ⟨hb, hr⟩
  · rw [hs]
  rw [hb, hr]
  exact ⟨fun h => PState.noConfusion h, fun h => by cases h⟩

variable {k k' : Machine} {c i j : Fin 8}

theorem Sound.pos (h : Sound k) (hu : (k.procs i).used = true) : 0 < (k.procs i).pid := by
  by_cases hi : i = 0
  · subst hi
    rw [h.kernel.pid]
    exact one_pos
  · exact lt_of_succ_lt (h.pids i hi hu)

def Came (k k' : Machine) (i : Fin 8) : Prop :=
  Fit (k.procs i) (k'.procs i) ∨ (k.procs i).used = false ∧ Born k (k'.procs i) ∧
    k.nextPid < k'.nextPid ∧ ∀ j, j ≠ i → (k'.procs j).used = true → Fit (k.procs j) (k'.procs j)

theorem Turned.came (h : Turned k k') (hu : (k'.procs i).used = true) : Came k k' i := by
  obtain ⟨c, hc, ho⟩ := h.turn
  by_cases hi : i = c
  · subst hi
    cases hc with
    | fit hf => exact .inl hf
    | slipped _ hn => cases hn.symm.trans hu
    | born hn hb _ _ hl => exact .inr ⟨hn, hb, hl, fun j hj _ => ho j hj⟩
    | reaped _ _ _ he =>
      rw [he] at hu
      cases hu
  · exact .inl (ho i hi)

theorem Turned.kernel (h : Turned k k') (hs : Sound k) : Fit (k.procs 0) (k'.procs 0) := by
  obtain ⟨c, hc, ho⟩ := h.turn
  by_cases hi : 0 = c
  · subst hi
    cases hc with
    | fit hf => exact hf
    | slipped hn | born hn => cases hn.symm.trans hs.kernel.used
    | reaped _ hz _ _ => cases hz.symm.trans hs.kernel.state
  · exact ho 0 hi

theorem IsKernel.fit (h : IsKernel p) (hf : Fit p p') : IsKernel p' where
  used := hf.used.trans h.used
  pid := hf.pid.trans h.pid
  ppid := hf.ppid.trans h.ppid
  state := hf.running.mpr h.state
  fdState := hf.fdState.trans h.fdState

theorem Sound.shift (hs : Sound k) (h0 : IsKernel (k'.procs 0)) (hle : k.nextPid ≤ k'.nextPid)
    (h : ∀ i, (k'.procs i).used = true → Came k k' i) : Sound k' where
  kernel := h0
  next := lt_of_lt_of_le hs.next hle
  pids := by
    intro i hi hu
    rcases h i hu with hf | ⟨-, hb, -⟩
    · rw [hf.pid]
      exact hs.pids i hi (hf.used ▸ hu)
    · rw [hb.pid]
      exact hs.next
  below := by
    intro i hu
    rcases h i hu with hf | ⟨-, hb, hl, -⟩
    · rw [hf.pid]
      exact lt_of_lt_of_le (hs.below i (hf.used ▸ hu)) hle
    · rw [hb.pid]
      exact hl
  distinct := by
    intro i j hi hj he
    rcases h i hi with hf | ⟨-, hb, -, hoi⟩
    · rcases h j hj with hg | ⟨-, hb', -⟩
      · exact hs.distinct i j (hf.used ▸ hi) (hg.used ▸ hj) (by rw [← hf.pid, ← hg.pid, he])
      have hlt := hs.below i (hf.used ▸ hi)
      rw [hf.pid, hb'.pid] at he
      omega
    · by_contra hne
      have hg := hoi j (Ne.symm hne) hj
      have hlt := hs.below j (hg.used ▸ hj)
      rw [hb.pid, hg.pid] at he
      omega
  formed := by
    intro i hi hu
    rcases h i hu with hf | ⟨-, hb, -⟩
    · exact hf.formed (hs.formed i hi (hf.used ▸ hu))
    · exact hb.toFormed
  told := by
    intro i j hi hj he
    have hpos : 0 < (k'.procs j).pid := by
      rcases h j hj with hf | ⟨-, hb, -⟩
      · rw [hf.pid]
        exact hs.pos (hf.used ▸ hj)
      · rw [hb.pid]
        exact lt_of_succ_lt hs.next
    rcases h i hi with hf | ⟨-, hb, -⟩
    · rcases hf.last with hl | hl
      · rcases h j hj with hg | ⟨-, hb', -⟩
        · rw [hg.ppid, hf.pid]
          exact hs.told i j (hf.used ▸ hi) (hg.used ▸ hj) (by rw [← hg.pid, he, hl])
        · have hlt := hs.last i (hf.used ▸ hi)
          rw [hb'.pid] at he
          omega
      · omega
    · rw [hb.last] at he
      omega
  last := by
    intro i hu
    have hn := hs.next
    rcases h i hu with hf | ⟨-, hb, -⟩
    · rcases hf.last with hl | hl
      · rw [hl]
        exact lt_of_lt_of_le (hs.last i (hf.used ▸ hu)) hle
      · omega
    · rw [hb.last]
      omega

theorem Sound.turned (hs : Sound k) (h : Turned k k') : Sound k' :=
  hs.shift (hs.kernel.fit (h.kernel hs)) h.nextPid fun _ hu => h.came hu

theorem Turned.cur_fit (h : Turned k k') (hu : (cur k).used = true)
    (hr : (cur k).state = .running) : Fit (cur k) (cur k') := by
  obtain ⟨c, hc, ho⟩ := h.turn
  rw [cur, cur, h.current]
  by_cases he : k.current = c
  · subst he
    cases hc with
    | fit hf => exact hf
    | slipped hn | born hn => cases hn.symm.trans hu
    | reaped _ hz _ _ => cases hz.symm.trans hr
  · exact ho _ he

theorem Sound.congr (h : Sound k) (hp : k'.procs = k.procs) (hn : k'.nextPid = k.nextPid) :
    Sound k' := by
  obtain ⟨h1, h2, h3, h4, h5, h6, h7, h8⟩ := h
  rw [← hp] at h1 h3 h4 h5 h6 h7 h8
  rw [← hn] at h2 h4 h8
  exact ⟨h1, h2, h3, h4, h5, h6, h7, h8⟩

section

variable (h : Sound k) (hi : i ≠ 0) (hu : (k.procs i).used = true)
include h hi hu

section

variable (hu' : p.used = true) (hpid : p.pid = (k.procs i).pid) (hpp : p.ppid = (k.procs i).ppid)
include hu' hpid hpp

theorem Sound.replace (hf : Formed p)
    (hl : ∀ j, (k.procs j).used = true → (k.procs j).pid = p.lastWaitPid → (k.procs j).ppid = p.pid)
    (hlt : p.lastWaitPid < k.nextPid) : Sound (setProc k i p) := by
  have hused : ∀ j, ((setProc k i p).procs j).used = (k.procs j).used :=
    rows_set (P := fun j q => q.used = (k.procs j).used) rfl (hu'.trans hu.symm) fun _ _ => rfl
  have hpids : ∀ j, ((setProc k i p).procs j).pid = (k.procs j).pid :=
    rows_set (P := fun j q => q.pid = (k.procs j).pid) rfl hpid fun _ _ => rfl
  have hppids : ∀ j, ((setProc k i p).procs j).ppid = (k.procs j).ppid :=
    rows_set (P := fun j q => q.ppid = (k.procs j).ppid) rfl hpp fun _ _ => rfl
  constructor
  · rw [setProc_ne hi.symm]
    exact h.kernel
  · exact h.next
  · intro j hj huj
    rw [hused] at huj
    rw [hpids]
    exact h.pids j hj huj
  · intro j huj
    rw [hused] at huj
    rw [hpids]
    exact h.below j huj
  · intro j l huj hul he
    rw [hused] at huj hul
    rw [hpids, hpids] at he
    exact h.distinct j l huj hul he
  · exact rows_set (P := fun j q => j ≠ 0 → q.used = true → Formed q) rfl (fun _ _ => hf)
      fun j _ => h.formed j
  · intro j l huj hul he
    rw [hused] at huj hul
    rw [hppids, hpids]
    rw [hpids] at he
    by_cases hji : j = i
    · rw [hji, setProc_self] at he
      rw [hji, ← hpid]
      exact hl l hul he
    · rw [setProc_ne hji] at he
      exact h.told j l huj hul he
  · exact rows_set (P := fun _ q => q.used = true → q.lastWaitPid < k.nextPid) rfl (fun _ => hlt)
      fun j _ => h.last j

theorem Sound.update (hf : Formed p) (hl : p.lastWaitPid = (k.procs i).lastWaitPid) :
    Sound (setProc k i p) := by
  refine h.replace hi hu hu' hpid hpp hf (fun j huj he => ?_) ?_
  · rw [hpid]
    exact h.told i j hu huj (he.trans hl)
  · rw [hl]
    exact h.last i hu

end

end

end

section

variable {k k' k1 : Machine} {c : Call}

theorem Turned.fits (hp : ∀ i, Fit (k.procs i) (k'.procs i)) (hc : k'.current = k.current)
    (hph : k'.phase = k.phase) (hl : k'.launched = k.launched) (hn : k'.nextPid = k.nextPid) :
    Turned k k' :=
  ⟨⟨0, .fit (hp 0), fun j _ => hp j⟩, hc, hph, hl, hn.ge⟩

theorem Turned.same (hp : k'.procs = k.procs) (hc : k'.current = k.current)
    (hph : k'.phase = k.phase) (hl : k'.launched = k.launched) (hn : k'.nextPid = k.nextPid) :
    Turned k k' :=
  .fits (fun i => by rw [hp]; exact Fit.refl _) hc hph hl hn

theorem Rang.fit (h : Rang k k') (i : Fin 8) : Fit (k.procs i) (k'.procs i) :=
  Roused.fit (h.procs i) (Woke.last h i)

theorem Rang.turned (h : Rang k k') : Turned k k' :=
  .fits (Rang.fit h) h.current h.phase h.launched h.nextPid

theorem Turned.rang (hr : Rang k1 k') (hp : k1.procs = k.procs) (hc : k1.current = k.current)
    (hph : k1.phase = k.phase) (hl : k1.launched = k.launched) (hn : k1.nextPid = k.nextPid) :
    Turned k k' :=
  .fits (fun i => hp ▸ Rang.fit hr i) (hr.current.trans hc) (hr.phase.trans hph)
    (hr.launched.trans hl) (hr.nextPid.trans hn)

theorem Turned.own {p : Proc} (hp : k'.procs = (setProc k k.current p).procs)
    (hc : k'.current = k.current) (hph : k'.phase = k.phase) (hl : k'.launched = k.launched)
    (hn : k'.nextPid = k.nextPid) (hf : Fit (cur k) p) : Turned k k' :=
  .fits (rows_set hp hf fun _ _ => .refl _) hc hph hl hn

theorem Fit.outer {p p' : Proc} (h : outer p' = outer p) : Fit p p' := by
  have hf : ∀ {α : Type} (f : Proc → α), (∀ p, f (Prims.outer p) = f p) → f p' = f p :=
    fun f hf => by rw [← hf p', h, hf]
  exact ⟨hf Proc.used fun _ => rfl, hf Proc.pid fun _ => rfl, hf Proc.ppid fun _ => rfl,
    hf Proc.space fun _ => rfl, hf Proc.fdState fun _ => rfl, hf Proc.fdsRetained fun _ => rfl,
    hf Proc.hasCtx fun _ => rfl, .inl (hf Proc.lastWaitPid fun _ => rfl),
    .inl (hf Proc.state fun _ => rfl)⟩

theorem procSignalSend_last (k : Machine) (pid : BitVec 32) (sig : Int) (i : Fin 8) :
    ((procSignalSend k pid sig).1.procs i).lastWaitPid = (k.procs i).lastWaitPid := by
  by_cases hp : pid ≠ -1#32 ∨ sig = 0
  · exact (procSignalSend_woke k sig hp).last i
  rw [not_or, not_not] at hp
  obtain ⟨rfl, h0⟩ := hp
  unfold procSignalSend
  split
  · rfl
  rw [if_neg (by decide), if_pos rfl]
  simp only [signalAny]
  repeat' split
  all_goals rfl

theorem took_woke (k : Machine) (j : Fin 8) (n : Nat) (bs : List (BitVec 8)) :
    Woke k (pipeRead (logHanded k j bs) j n).1 :=
  ((logHanded_woke k j bs).trans (dropFront_woke _ j n)).trans (procNotify_woke _)

theorem appendTo_woke (k : Machine) (j : Fin 8) (bs : List (BitVec 8)) :
    Woke k (appendTo k j bs) := by
  refine Woke.quiet ?_ rfl prefix_rfl prefix_rfl
  have hp : (blank (appendTo k j bs)).pipes = (blank k).pipes := by
    funext l
    by_cases hl : l = j
    · subst hl
      simp only [blank, appendTo, setPipe, update_self]
    · simp only [blank, appendTo, setPipe, update_of_ne hl]
  exact congrArg (fun ps => { blank k with pipes := ps }) hp

theorem wrote_woke (k : Machine) (j : Fin 8) (bs : List (BitVec 8)) : Woke k (pipeWrite k j bs).1 :=
  (appendTo_woke k j _).trans (procNotify_woke _)

theorem freeSlot_unused (h : freeSlot k = some child) : (k.procs child).used = false := by
  have hp := find?_some h
  simpa using hp

theorem freeSlot_ne (h : freeSlot k = some child) (hu : (cur k).used = true) :
    k.current ≠ child := by
  intro he
  have hf := freeSlot_unused h
  rw [← he] at hf
  cases hf.symm.trans hu

theorem Turned.slipped {p : Proc} (hf : freeSlot k = some child)
    (hp : k'.procs = (setProc k child p).procs) (hu : p.used = false) (hc : k'.current = k.current)
    (hph : k'.phase = k.phase) (hl : k'.launched = k.launched) (hn : k.nextPid ≤ k'.nextPid) :
    Turned k k' := by
  refine ⟨⟨child, .slipped (freeSlot_unused hf) ?_, fun j hj => ?_⟩, hc, hph, hl, hn⟩
  · rw [hp, setProc_self]
    exact hu
  · rw [hp, setProc_ne hj]
    exact .refl _

theorem begun_self (k : Machine) (child : Fin 8) (sp ns : Nat) (m : UserMem) :
    (begun k child sp ns m).procs child = { newProc k (cur k).pid with space := some sp } :=
  setProc_self

theorem begun_ne (hj : j ≠ child) (sp ns : Nat) (m : UserMem) :
    (begun k child sp ns m).procs j = k.procs j := setProc_ne hj

theorem procReap_bare {i : Fin 8} (hu : (k.procs i).used = true) (hf : (k.procs i).fdState = none)
    (hc : k.current ≠ i) : procReap k i = setProc k i emptyProc := by
  have hfd := fdstateFree_freed (lostAt k i) i
  rw [setProc_self] at hfd
  have hnone : (lost (k.procs i)).fdState = none := hf
  rw [procReap_eq hu hc]
  generalize fdstateFree _ i = k2 at hfd ⊢
  cases hfd with
  | none _ => simp only [setProc, update_idem]
  | less _ _ hp | last _ _ hp => cases hnone.symm.trans hp

theorem dropped_eq (hc : k.current ≠ child) (sp ns : Nat) (m : UserMem) :
      procReap (begun k child sp ns m) child = { setProc k child emptyProc with
      nextPid := k.nextPid + 1, nextSpace := ns, mem := m } := by
  have hb := begun_self k child sp ns m
  rw [procReap_bare (k := begun k child sp ns m) (by rw [hb]; rfl) (by rw [hb]; rfl) hc]
  simp only [begun, setProc, update_idem]

theorem ownTable_child (k : Machine) (child : Fin 8) :
    ∃ p, (ownTable k child).procs child = { p with fdsRetained := true } ∧
      Roused { k.procs child with fdState := some k.nextState } p ∧
      p.lastWaitPid = (k.procs child).lastWaitPid := by
  have hr := retain_rang (fdstateAlloc k child) k.fds
  have hself :
    (fdstateAlloc k child).procs child = { k.procs child with fdState := some k.nextState } :=
  setProc_self
  have hrow := hr.procs child
  have hlast := Woke.last hr child
  have hlast' : ((retain (fdstateAlloc k child) k.fds).procs child).lastWaitPid =
      ((fdstateAlloc k child).procs child).lastWaitPid := hlast
  rw [hself] at hrow hlast'
  exact ⟨_, setProc_self, hrow, hlast'⟩

theorem ownTable_row (hj : j ≠ child) : Roused (k.procs j) ((ownTable k child).procs j) ∧
    ((ownTable k child).procs j).lastWaitPid = (k.procs j).lastWaitPid := by
  have hr := retain_rang (fdstateAlloc k child) k.fds
  have hother : (fdstateAlloc k child).procs j = k.procs j := setProc_ne hj
  have hown : (ownTable k child).procs j = (retain (fdstateAlloc k child) k.fds).procs j :=
    setProc_ne hj
  rw [hown, ← hother]
  exact ⟨hr.procs j, Woke.last hr j⟩

theorem forked_row (hj : j ≠ child) (sp ns : Nat) (m : UserMem) :
    Roused (k.procs j) ((ownChild k child sp ns m).procs j) ∧
      ((ownChild k child sp ns m).procs j).lastWaitPid = (k.procs j).lastWaitPid := by
  have h := ownTable_row (k := begun k child sp ns m) hj
  rwa [begun_ne hj] at h

theorem shared_row (hj : j ≠ child) (sp ns t : Nat) (m : UserMem) (parent : Fin 8) :
    (fdstateShare (begun k child sp ns m) child parent t).procs j = k.procs j :=
  (setProc_ne hj).trans (begun_ne hj sp ns m)

theorem Roused.ready {p p' : Proc} (h : Roused p p') (hr : p.state = .ready) : p'.state = .ready :=
  (h.calm (by rw [hr]; simp)).1.trans hr

theorem finishChild_born {p : Proc} (x : Context) (tls : Tls) (thread : Bool)
    (hb : b.procs child = p) (hu : p.used = true) (hp : p.pid = k.nextPid) (hr : p.state = .ready)
    (hs : p.space.isSome = true) (hf : p.fdState.isSome = true) (ht : p.fdsRetained = true)
    (hl : p.lastWaitPid = 0) : Born k ((finishChild b child x tls thread).1.procs child) ∧
      ((finishChild b child x tls thread).1.procs child).state = .ready := by
  have he : (finishChild b child x tls thread).1.procs child = childOf b p
    (cur b) x tls thread := by
    rw [← hb]
    exact setProc_self
  rw [he]
  refine ⟨⟨⟨?_, fun _ => rfl, hs, hf, ht⟩, hu, hp, hl⟩, hr⟩
  rw [childOf, hr]
  simp

theorem forked_born (child : Fin 8) (sp ns : Nat) (m : UserMem) (x : Context) (tls : Tls)
    (thread : Bool) : (Born k ((forkedBy k child sp ns m x tls thread).procs child) ∧
      ((forkedBy k child sp ns m x tls thread).procs child).state = .ready) ∧
      ((forkedBy k child sp ns m x tls thread).procs child).ppid = (cur k).pid := by
  obtain ⟨p, hp, hrow, hlast⟩ := ownTable_child (begun k child sp ns m) child
  rw [begun_self] at hrow hlast
  have hready := Roused.ready hrow rfl
  refine ⟨finishChild_born x tls thread hp (hrow.used) (hrow.pid) hready ?_ ?_ rfl hlast, ?_⟩
  · rw [hrow.space]
    rfl
  · rw [hrow.fdState]
    rfl
  have he : (forkedBy k child sp ns m x tls thread).procs child =
      childOf _ ((ownChild k child sp ns m).procs child) _ x tls thread := setProc_self
  rw [he, hp]
  exact hrow.ppid

theorem shared_self (child : Fin 8) (sp ns t : Nat) (m : UserMem) (parent : Fin 8) :
    (fdstateShare (begun k child sp ns m) child parent t).procs child =
      { newProc k (cur k).pid with
        space := some sp, fdState := some t,
        fdsRetained := ((begun k child sp ns m).procs parent).fdsRetained } := by
  have he : (fdstateShare (begun k child sp ns m) child parent t).procs child =
    { (begun k child sp ns m).procs child with
        fdState := some t, fdsRetained := ((begun k child sp ns m).procs parent).fdsRetained } :=
          setProc_self
  rw [he, begun_self]

theorem finishChild_other (hj : j ≠ child) (x : Context) (tls : Tls) (thread : Bool) :
    (finishChild b child x tls thread).1.procs j = b.procs j := setProc_ne hj

theorem finishChild_self (b : Machine) (child : Fin 8) (x : Context) (tls : Tls) (thread : Bool) :
    (finishChild b child x tls thread).1.procs child = childOf b (b.procs child)
    (cur b) x tls thread := setProc_self

theorem shared_states {t : Nat} {f : FdState} (hst : k.states t = some f) (child parent : Fin 8)
    (sp ns : Nat) (m : UserMem) : (fdstateShare (begun k child sp ns m) child parent t).states =
    update k.states t (some { f with refs := f.refs + 1 }) := by
  have he : (fdstateShare (begun k child sp ns m) child parent t).states =
      update k.states t ((k.states t).map fun f => { f with refs := f.refs + 1 }) := rfl
  rw [he, hst]
  rfl

theorem procReap_fit {i : Fin 8} (hu : (k.procs i).used = true) (hc : k.current ≠ i) (hj : j ≠ i) :
    Fit (k.procs j) ((procReap k i).procs j) := by
  obtain ⟨k1, hrang, he, -⟩ := procReap_rang hu hc
  have hfit := Rang.fit hrang j
  rw [setProc_ne hj] at hfit
  rw [he, setProc_ne hj]
  exact hfit

theorem forget_fit (p : Proc) : Fit p { p with lastWaitPid := 0 } :=
  ⟨rfl, rfl, rfl, rfl, rfl, rfl, rfl, .inr rfl, .inl rfl⟩

theorem forget_row (k : Machine) : ∀ i, Fit (k.procs i) ((forget k).procs i) :=
  rows_set rfl (forget_fit _) fun _ _ => .refl _

theorem Does.turned (h : Does c k k') (hs : Sound k) (h0 : k.current ≠ 0) (hu : (cur k).used = true)
    (hr : (cur k).state = .running) : Turned k k' := by
  cases h with
  | stored | keyed | answered | moved | jumped => exact .same rfl rfl rfl rfl rfl
  | took j n => exact Rang.turned (Woke.rang (took_woke k j n _))
  | wrote j bs => exact Rang.turned (Woke.rang (wrote_woke k j bs))
  | filed d _ => exact .rang (addWriters_rang (setFiles k d.sys) _) rfl rfl rfl rfl rfl
  | piped d _ =>
    obtain ⟨ps, hps⟩ := createPipe_eq k
    rw [hps]
    exact .rang (addWriters_rang (setFiles { k with pipes := ps } d.sys) _) rfl rfl rfl rfl rfl
  | self p ho => exact .own rfl rfl rfl rfl rfl (Fit.outer ho)
  | resumed =>
    obtain ⟨s, f, he⟩ := sigreturn_eq k
    rw [he]
    exact .own rfl rfl rfl rfl rfl (Fit.outer rfl)
  | segment entry base limit flags out =>
    exact .own rfl rfl rfl rfl rfl ⟨rfl, rfl, rfl, rfl, rfl, rfl, rfl, .inl rfl, .inl rfl⟩
  | signalled pid sig =>
    have hst := procSignalSend_stirred k pid sig.toInt
    exact .fits (fun i => Roused.fit (hst.procs i) (procSignalSend_last k pid sig.toInt i))
      hst.current hst.phase
      hst.launched hst.nextPid
  | refused child hf =>
    exact .slipped hf rfl rfl rfl rfl rfl (le_succ _)
  | dropped child sp ns m hf =>
    rw [dropped_eq (freeSlot_ne hf hu)]
    exact .slipped hf rfl rfl rfl rfl rfl (le_succ _)
  | forked child sp ns m x tls thread hf hx =>
    obtain ⟨hborn, hpp⟩ := forked_born child sp ns m x tls thread
    have hr1 := tabled_rang k child sp ns m
    have hn : (forkedBy k child sp ns m x tls thread).nextPid = k.nextPid + 1 :=
      hr1.nextPid
    refine ⟨⟨child, .born (freeSlot_unused hf) hborn.1 hborn.2 hpp (hn ▸ lt_succ_self _),
      fun j hj => ?_⟩, hr1.current, hr1.phase, hr1.launched, hn ▸ le_succ _⟩
    rw [finishChild_other hj]
    exact Roused.fit (forked_row hj sp ns m).1 (forked_row hj sp ns m).2
  | shared child sp ns t m x tls thread hf ht hx =>
    have hne := freeSlot_ne hf hu
    have hself := shared_self (k := k) child sp ns t m k.current
    have hret : ((begun k child sp ns m).procs k.current).fdsRetained = true := by
      rw [begun_ne hne]
      exact (hs.formed k.current h0 hu).retained
    have hborn := finishChild_born x tls thread hself rfl rfl rfl rfl rfl hret rfl
    refine ⟨⟨child, .born (freeSlot_unused hf) hborn.1 hborn.2 ?_ (lt_succ_self _), fun j hj => ?_⟩,
      rfl, rfl, rfl, le_succ _⟩
    · rw [finishChild_self, hself]
      rfl
    · rw [finishChild_other hj, shared_row hj]
      exact Fit.refl _
  | settled =>
    obtain he | he | ⟨i, hi, hz, he⟩ := reapReported_cases k <;> rw [he]
    · exact .same rfl rfl rfl rfl rfl
    · exact .own rfl rfl rfl rfl rfl (forget_fit _)
    obtain ⟨hui, hpid⟩ := procFind_some hi
    have hc := running_ne hr hz
    have hcur := procReap_current hui hc
    refine ⟨⟨i, .reaped hui hz (hs.told k.current i hu hui hpid) ?_, ?_⟩, hcur,
      procReap_field Machine.phase hui hc fun _ _ => rfl,
      procReap_field Machine.launched hui hc fun _ _ =>
      rfl, (procReap_field Machine.nextPid hui hc fun _ _ => rfl).ge⟩
    · exact (setProc_ne (by rw [hcur]; exact hc.symm)).trans (procReap_self hui hc)
    · exact fun j hj => (procReap_fit hui hc hj).trans (forget_row _ j)
  | waited _ i hi =>
    obtain ⟨⟨hui, hpp⟩, hz⟩ := zombieChild_spec hi
    have hc := running_ne hr hz
    exact ⟨⟨i, .reaped hui hz hpp (procReap_self hui hc),
      fun _ => procReap_fit hui hc⟩, procReap_current hui hc,
      procReap_field Machine.phase hui hc fun _ _ => rfl,
      procReap_field Machine.launched hui hc fun _ _ => rfl,
      (procReap_field Machine.nextPid hui hc fun _ _ => rfl).ge⟩

end

end MuOS.Kernel.ProcTable
