import MuOS.Kernel.Wake

namespace MuOS.Kernel.Stir

open User Descriptors Window State Wake List Option

variable {k k' : Machine} {s : Progress} {a b c : Machine} {v : BitVec 32} {k0 : Machine} {n : Nat}

def core (p : Proc) : Proc :=
  { p with
    state := .free
    ctx := { p.ctx with eax := 0#32 }
    waitKind := .none
    lastWaitPid := 0
    blkHasDeadline := false
    sig := { p.sig with pending := 0#32 }
    alarmTick := 0#32 }

/-- Wakers spare the registers of the others and take no signal back. -/
structure Roused (p p' : Proc) : Prop where
  keeps : core p' = core p
  calm : p.state ≠ .blocked → p'.state = p.state ∧ p'.ctx = p.ctx ∧ p'.waitKind = p.waitKind
  stays : p.state = .blocked → p'.state = .blocked →
    p'.ctx = p.ctx ∧ p'.waitKind = p.waitKind ∧ p'.blkHasDeadline = p.blkHasDeadline
  wakes : p.state = .blocked → p'.state = .blocked ∨ p'.state = .ready
  pends : p.sig.pending &&& p'.sig.pending = p.sig.pending

def noTrace : Trace := ⟨fun _ => [], fun _ => [], [], [], false⟩

/-- The kernel without processes, user memory, pipes, keys, record. -/
def blank (k : Machine) : Machine :=
  { k with
    procs := fun _ => emptyProc
    mem := ⟨fun _ page => page, fun _ => 0#8, fun _ _ _ h => h⟩
    pipes := fun j => { k.pipes j with ring := ⟨0, 0, 0, fun _ => 0#8⟩ }
    keys := []
    trace := noTrace }

/-- What a waker may do. -/
structure Stirred (k k' : Machine) : Prop where
  rest : blank k' = blank k
  procs : ∀ i, Roused (k.procs i) (k'.procs i)

theorem Roused.refl (p : Proc) : Roused p p :=
  ⟨rfl, fun _ => ⟨rfl, rfl, rfl⟩, fun _ _ => ⟨rfl, rfl, rfl⟩, Or.inl, BitVec.and_self⟩

theorem pends_trans {u w : BitVec 32} (h : u &&& v = u) (h' : v &&& w = v) : u &&& w = u := by
  rw [← h, BitVec.and_assoc, h']

theorem pends_or (u v : BitVec 32) : u &&& (u ||| v) = u := by
  ext j
  simp only [BitVec.getElem_and, BitVec.getElem_or]
  cases u[j] <;> rfl

theorem Roused.trans {p q r : Proc} (h : Roused p q) (h' : Roused q r) : Roused p r := by
  constructor
  · exact h'.keeps.trans h.keeps
  · intro hp
    obtain ⟨hs, hc, hw⟩ := h.calm hp
    obtain ⟨hs', hc', hw'⟩ := h'.calm (hs ▸ hp)
    exact ⟨hs'.trans hs, hc'.trans hc, hw'.trans hw⟩
  · intro hp hr
    cases h.wakes hp with
    | inl hq =>
      obtain ⟨hc, hw, hd⟩ := h.stays hp hq
      obtain ⟨hc', hw', hd'⟩ := h'.stays hq hr
      exact ⟨hc'.trans hc, hw'.trans hw, hd'.trans hd⟩
    | inr hq =>
      have hn := (h'.calm (by rw [hq]; simp)).1
      rw [hr, hq] at hn
      cases hn
  · intro hp
    cases h.wakes hp with
    | inl hq => exact h'.wakes hq
    | inr hq =>
      have hn := (h'.calm (by rw [hq]; simp)).1
      exact Or.inr (hn.trans hq)
  · exact pends_trans h.pends h'.pends

theorem Stirred.refl (k : Machine) : Stirred k k := ⟨rfl, fun i => Roused.refl (k.procs i)⟩

theorem Stirred.trans (h : Stirred a b) (h' : Stirred b c) : Stirred a c :=
  ⟨h'.rest.trans h.rest, fun i => (h.procs i).trans (h'.procs i)⟩

section

variable {α : Type} {k k' : Machine} {p p' : Proc}

theorem Roused.field (h : Roused p p') (f : Proc → α) (hf : ∀ p, f (core p) = f p) :
    f p' = f p := by
  rw [← hf p', h.keeps, hf]

section

variable (h : Roused p p')
include h

theorem Roused.used : p'.used = p.used := h.field _ fun _ => rfl
theorem Roused.fdState : p'.fdState = p.fdState := h.field _ fun _ => rfl
theorem Roused.space : p'.space = p.space := h.field _ fun _ => rfl
theorem Roused.pid : p'.pid = p.pid := h.field _ fun _ => rfl
theorem Roused.blkPtr : p'.blkPtr = p.blkPtr := h.field _ fun _ => rfl
theorem Roused.blkLen : p'.blkLen = p.blkLen := h.field _ fun _ => rfl
theorem Roused.ppid : p'.ppid = p.ppid := h.field _ fun _ => rfl
theorem Roused.tls : p'.tls = p.tls := h.field _ fun _ => rfl
theorem Roused.brk : p'.brk = p.brk := h.field _ fun _ => rfl
theorem Roused.exitCode : p'.exitCode = p.exitCode := h.field _ fun _ => rfl
theorem Roused.blkDeadline : p'.blkDeadline = p.blkDeadline := h.field _ fun _ => rfl

end

variable (h : Stirred k k')
include h

theorem Stirred.field (f : Machine → α) (hf : ∀ k, f (blank k) = f k) : f k' = f k := by
  rw [← hf k', h.rest, hf]

theorem Stirred.current : k'.current = k.current := h.field _ fun _ => rfl
theorem Stirred.nextPid : k'.nextPid = k.nextPid := h.field _ fun _ => rfl
theorem Stirred.nextSpace : k'.nextSpace = k.nextSpace := h.field _ fun _ => rfl
theorem Stirred.states : k'.states = k.states := h.field _ fun _ => rfl
theorem Stirred.nextState : k'.nextState = k.nextState := h.field _ fun _ => rfl
theorem Stirred.fds : k'.fds = k.fds := h.field _ fun _ => rfl
theorem Stirred.cwd : k'.cwd = k.cwd := h.field _ fun _ => rfl
theorem Stirred.brk : k'.brk = k.brk := h.field _ fun _ => rfl
theorem Stirred.tls : k'.tls = k.tls := h.field _ fun _ => rfl
theorem Stirred.frame : k'.frame = k.frame := h.field _ fun _ => rfl
theorem Stirred.ticks : k'.ticks = k.ticks := h.field _ fun _ => rfl
theorem Stirred.ram : k'.ram = k.ram := h.field _ fun _ => rfl
theorem Stirred.launched : k'.launched = k.launched := h.field _ fun _ => rfl
theorem Stirred.phase : k'.phase = k.phase := h.field _ fun _ => rfl

theorem Stirred.pipeUsed (j : Fin 8) : (k'.pipes j).used = (k.pipes j).used :=
  h.field (fun k => (k.pipes j).used) fun _ => rfl

theorem Stirred.writers (j : Fin 8) : (k'.pipes j).writers = (k.pipes j).writers :=
  h.field (fun k => (k.pipes j).writers) fun _ => rfl

theorem Stirred.pipeValid (id : Nat) : pipeValid k' id = pipeValid k id := by
  simp only [Wake.pipeValid, h.pipeUsed]

end

section

/-- A blocked request: its memory, buffer and pipes exist. -/
structure Sane (k : Machine) (i : Fin 8) : Prop where
  waits : (k.procs i).waitKind ≠ .none
  space : (k.procs i).space.isSome = true
  buffer : (k.procs i).waitKind = .read →
    userPtrOk (k.procs i).blkPtr.toNat (k.procs i).blkLen.toNat = true
  table : ∀ t, savedTable k (k.procs i) = some t → ∀ fd, (t fd).kind = .pipeRead →
    (Wake.pipeValid k (t fd).pipeId).isSome = true

/-- `eax`: bytes read, a poll's count, 0 at its deadline, -EINTR. -/
inductive Result (k k' : Machine) (i : Fin 8) (v : BitVec 32) : Prop
  | intr (h : v = errnoOf eINTR)
  | read (e : ReadDone) (hw : (k.procs i).waitKind = .read)
    (he : e ∈ k'.trace.reads.drop k.trace.reads.length) (hr : e.reader = i)
    (ht : e.told = v) (hv : v = BitVec.ofNat 32 e.bytes.length)
  | poll (e : PollDone) (hw : (k.procs i).waitKind = .poll)
    (he : e ∈ k'.trace.polls.drop k.trace.polls.length)
    (hr : e.poller = i) (hn : 0 < readyCount e.fds) (hv : v = BitVec.ofNat 32 (readyCount e.fds))
  | timeout (hw : (k.procs i).waitKind = .poll) (hd : (k.procs i).blkHasDeadline = true)
    (hp : passed k.ticks (k.procs i).blkDeadline = true) (hv : v = 0#32)

/-- Wakers that end a call with its result. -/
structure Woke (k k' : Machine) : Prop extends Stirred k k' where
  last : ∀ i, (k'.procs i).lastWaitPid = (k.procs i).lastWaitPid
  reads : k.trace.reads <+: k'.trace.reads
  polls : k.trace.polls <+: k'.trace.polls
  results : ∀ i, Sane k i → (k.procs i).state = .blocked → (k'.procs i).state = .ready →
    (k'.procs i).waitKind = .none ∧ Result k k' i (k'.procs i).ctx.eax

variable {k k' k1 : Machine} {i : Fin 8}

theorem mem_drop_append {α : Type} {l l' : List α} {a : α} (h : l <+: l') :
    a ∈ (l' ++ [a]).drop l.length := by
  rw [drop_append_of_le_length h.length_le]
  exact mem_append_right _ mem_cons_self

theorem Result.later (h : Result k k1 i v) (hr : k1.trace.reads <+: k'.trace.reads)
    (hp : k1.trace.polls <+: k'.trace.polls) : Result k k' i v := by
  cases h with
  | intr h => exact .intr h
  | read e hw he hi ht hv => exact .read e hw ((hr.drop _).subset he) hi ht hv
  | poll e hw he hi hn hv => exact .poll e hw ((hp.drop _).subset he) hi hn hv
  | timeout hw hd hq hv => exact .timeout hw hd hq hv

theorem Result.earlier (h : Result k1 k' i v) (hw : (k1.procs i).waitKind = (k.procs i).waitKind)
    (hd : (k1.procs i).blkHasDeadline = (k.procs i).blkHasDeadline)
    (hl : (k1.procs i).blkDeadline = (k.procs i).blkDeadline)
    (ht : k1.ticks = k.ticks) (hr : k.trace.reads <+: k1.trace.reads)
    (hp : k.trace.polls <+: k1.trace.polls) : Result k k' i v := by
  cases h with
  | intr h => exact .intr h
  | read e hk he hi ht hv =>
    exact .read e (hw ▸ hk) (drop_subset_drop_left _ hr.length_le he) hi ht hv
  | poll e hk he hi hz hv =>
    exact .poll e (hw ▸ hk) (drop_subset_drop_left _ hp.length_le he) hi hz hv
  | timeout hk hdd hq hv =>
    rw [ht, hl] at hq
    exact .timeout (hw ▸ hk) (hd ▸ hdd) hq hv

theorem Stirred.savedTable (h : Stirred k k') (i : Fin 8) :
    savedTable k' (k'.procs i) = savedTable k (k.procs i) := by
  have hf := (h.procs i).fdState
  rw [Wake.savedTable, Wake.savedTable, hf, h.states]

theorem Sane.stirred (hs : Sane k i) (h : Stirred k k')
    (hw : (k'.procs i).waitKind = (k.procs i).waitKind) : Sane k' i := by
  have hp : (k'.procs i).blkPtr = (k.procs i).blkPtr := (h.procs i).blkPtr
  have hl : (k'.procs i).blkLen = (k.procs i).blkLen := (h.procs i).blkLen
  have hsp : (k'.procs i).space = (k.procs i).space := (h.procs i).space
  constructor
  · rw [hw]
    exact hs.waits
  · rw [hsp]
    exact hs.space
  · rw [hw, hp, hl]
    exact hs.buffer
  intro t ht fd hk
  rw [h.savedTable] at ht
  rw [h.pipeValid]
  exact hs.table t ht fd hk

theorem Woke.refl (k : Machine) : Woke k k where
  toStirred := Stirred.refl k
  last := fun _ => rfl
  reads := prefix_rfl
  polls := prefix_rfl
  results := fun i _ hb hr => by
    rw [hb] at hr
    cases hr

theorem Woke.trans (h : Woke k k1) (h' : Woke k1 k') : Woke k k' where
  toStirred := h.toStirred.trans h'.toStirred
  last := fun i => (h'.last i).trans (h.last i)
  reads := h.reads.trans h'.reads
  polls := h.polls.trans h'.polls
  results := by
    intro i hs hb hr
    have hrow := h.procs i
    cases hrow.wakes hb with
    | inl hb1 =>
      obtain ⟨hc, hw, hd⟩ := hrow.stays hb hb1
      obtain ⟨hn, hres⟩ := h'.results i (hs.stirred h.toStirred hw) hb1 hr
      exact ⟨hn, hres.earlier hw hd hrow.blkDeadline h.ticks h.reads h.polls⟩
    | inr hr1 =>
      -- already ready: the rest leaves its registers alone
      obtain ⟨hn, hres⟩ := h.results i hs hb hr1
      obtain ⟨-, hc, hw⟩ := (h'.procs i).calm (by rw [hr1]; simp)
      rw [hw, hc]
      exact ⟨hn, hres.later h'.reads h'.polls⟩

theorem Woke.quiet (hb : blank k' = blank k) (hp : k'.procs = k.procs)
    (hr : k.trace.reads <+: k'.trace.reads) (hq : k.trace.polls <+: k'.trace.polls) :
    Woke k k' where
  rest := hb
  procs := fun i => by
    rw [hp]
    exact Roused.refl _
  last := fun i => by rw [hp]
  reads := hr
  polls := hq
  results := fun i _ hb' hr' => by
    rw [hp, hb'] at hr'
    cases hr'

theorem Stirred.wake {p : Proc} (h : Stirred k k1) (hb : (k.procs i).state = .blocked)
    (hc : core p = core (k1.procs i)) (hp : p.state = .ready)
    (hg : (k1.procs i).sig.pending &&& p.sig.pending = (k1.procs i).sig.pending) :
    Stirred k (setProc k1 i p) := by
  refine ⟨h.rest, rows_set rfl ?_ fun j _ => h.procs j⟩
  exact ⟨hc.trans (h.procs i).keeps, fun hn => absurd hb hn,
    fun _ hs => (by cases hp.symm.trans hs), fun _ => .inr hp, pends_trans (h.procs i).pends hg⟩

theorem Woke.wake {p : Proc} (h : Woke k k1) (hb : (k.procs i).state = .blocked)
    (hc : core p = core (k1.procs i)) (hp : p.state = .ready)
    (hl : p.lastWaitPid = (k1.procs i).lastWaitPid)
    (hg : (k1.procs i).sig.pending &&& p.sig.pending = (k1.procs i).sig.pending)
    (hres : Sane k i → p.waitKind = .none ∧ Result k (setProc k1 i p) i p.ctx.eax) :
    Woke k (setProc k1 i p) := by
  refine ⟨h.toStirred.wake hb hc hp hg, ?_, h.reads, h.polls, fun j hs hbj hr => ?_⟩
  · exact rows_set (P := fun j q => q.lastWaitPid = (k.procs j).lastWaitPid)
      rfl (hl.trans (h.last i)) fun j _ => h.last j
  obtain ⟨rfl, he⟩ | ⟨-, he⟩ := row_set (b := setProc k1 i p) rfl j <;> rw [he] at hr ⊢
  · exact hres hs
  obtain ⟨hn, hv⟩ := h.results j hs hbj hr
  exact ⟨hn, hv.later prefix_rfl prefix_rfl⟩

theorem Woke.note {p : Proc} (hc : core p = core (k.procs i)) (hs : p.state = (k.procs i).state)
    (hx : p.ctx = (k.procs i).ctx) (hw : p.waitKind = (k.procs i).waitKind)
    (hd : p.blkHasDeadline = (k.procs i).blkHasDeadline)
    (hl : p.lastWaitPid = (k.procs i).lastWaitPid)
    (hg : (k.procs i).sig.pending &&& p.sig.pending = (k.procs i).sig.pending) :
    Woke k (setProc k i p) := by
  have hrow : ∀ j, Roused (k.procs j) ((setProc k i p).procs j) :=
    rows_set rfl
      ⟨hc, fun _ => ⟨hs, hx, hw⟩, fun _ _ => ⟨hx, hw, hd⟩, fun hb => Or.inl (hs.trans hb), hg⟩
      fun _ _ => Roused.refl _
  have hstate : ∀ j, ((setProc k i p).procs j).state = (k.procs j).state :=
    rows_set (P := fun j q => q.state = (k.procs j).state) rfl hs fun _ _ => rfl
  refine ⟨⟨rfl, hrow⟩, ?_, prefix_rfl, prefix_rfl, fun j _ hb hr => ?_⟩
  · exact rows_set (P := fun j q => q.lastWaitPid = (k.procs j).lastWaitPid) rfl hl fun _ _ => rfl
  · cases hr.symm.trans ((hstate j).trans hb)

theorem overProcs_woke {f : Machine → Fin 8 → Machine} (hf : ∀ k i, Woke k (f k i)) (k : Machine) :
    Woke k (overProcs k f) := by
  have hl : ∀ (l : List (Fin 8)) k, Woke k (l.foldl f k) := by
    intro l
    induction l with
    | nil => exact Woke.refl
    | cons i l ih => exact fun k => (hf k i).trans (ih (f k i))
  exact hl _ k

end

section

def Pokes (k k' : Machine) : Prop := ∃ m, k' = { k with mem := m }

theorem Pokes.refl (k : Machine) : Pokes k k := ⟨k.mem, rfl⟩

theorem Pokes.trans (h : Pokes a b) (h' : Pokes b c) : Pokes a c := by
  obtain ⟨m, rfl⟩ := h
  obtain ⟨m', rfl⟩ := h'
  exact ⟨m', rfl⟩

theorem Pokes.woke (h : Pokes k k') : Woke k k' := by
  obtain ⟨m, rfl⟩ := h
  exact Woke.quiet rfl rfl prefix_rfl prefix_rfl

theorem Pokes.procs (h : Pokes k k') : k'.procs = k.procs := by
  obtain ⟨m, rfl⟩ := h
  rfl

variable (k : Machine) (p : Proc)

theorem storeFor_pokes (a : BitVec 32) (bs : List (BitVec 8)) : Pokes k (storeFor k p a bs) := by
  rw [storeFor]
  split
  · exact Pokes.refl k
  · exact ⟨_, rfl⟩

theorem procWriteUserU32_pokes (a v : BitVec 32) : Pokes k (procWriteUserU32 k p a v) := by
  rw [procWriteUserU32]
  split
  · exact Pokes.refl k
  · exact storeFor_pokes k p a _

theorem writeWords_pokes (a : BitVec 32) (vs : List (BitVec 32)) :
    Pokes k (writeWords p a vs k) := by
  induction vs generalizing a k with
  | nil => exact Pokes.refl k
  | cons v vs ih => exact (procWriteUserU32_pokes k p a v).trans (ih _ _)

theorem pollEntry_pokes (t : Table) (a : BitVec 32) : Pokes k (pollEntry k p t a).1 := by
  rw [pollEntry]
  split
  · exact Pokes.refl k
  · exact ⟨_, rfl⟩

theorem pollLoop_pokes (t : Table) (ns : List Nat) : Pokes k (pollLoop p t ns k).1 := by
  induction ns generalizing k with
  | nil => exact Pokes.refl k
  | cons n ns ih => exact (pollEntry_pokes k p t _).trans (ih _)

theorem procPollScan_pokes : Pokes k (procPollScan k p).1 := by
  rw [procPollScan]
  split
  · exact Pokes.refl k
  split
  · exact Pokes.refl k
  · exact pollLoop_pokes k p _ _

theorem expireEntries_pokes (ns : List Nat) :
    Pokes k (ns.foldl (fun k n => expireEntry k p n) k) := by
  induction ns generalizing k with
  | nil => exact Pokes.refl k
  | cons n ns ih =>
    refine Pokes.trans ?_ (ih _)
    simp only [expireEntry]
    split
    · exact Pokes.refl k
    · exact ⟨_, rfl⟩

theorem poke_pokes (a : BitVec 32) (bs : List (BitVec 8)) : Pokes k (pokeCur k a bs) := by
  rw [pokeCur]
  split
  · exact Pokes.refl k
  · exact ⟨_, rfl⟩

theorem pokeAll_pokes (out : List (BitVec 32 × List (BitVec 8))) : Pokes k (pokeAll k out) := by
  induction out generalizing k with
  | nil => exact Pokes.refl k
  | cons w out ih => exact (poke_pokes k w.1 w.2).trans (ih _)

theorem pokeAll_eq (out : List (BitVec 32 × List (BitVec 8))) :
    pokeAll k out = { k with mem := (pokeAll k out).mem } := by
  obtain ⟨m, hm⟩ := pokeAll_pokes k out
  rw [hm]

end

section

variable {k : Machine} {i : Fin 8}

theorem sleeps_spec {p : Proc} {w : Wait} (h : sleeps p w = true) :
    isUser p = true ∧ p.state = .blocked ∧ p.waitKind = w := by
  simpa [sleeps, and_assoc] using h

theorem wakePoller_woke (k : Machine) (i : Fin 8) : Woke k (wakePoller k i) := by
  simp only [wakePoller]
  split
  · rename_i hsl
    obtain ⟨-, hb, hw⟩ := sleeps_spec hsl
    have hpk := (procPollScan_pokes k (k.procs i)).woke
    split
    · rename_i hn
      refine Woke.wake ?_ hb rfl rfl rfl BitVec.and_self fun _ => ⟨rfl, ?_⟩
      · exact hpk.trans (Woke.quiet rfl rfl prefix_rfl (prefix_append _ _))
      · exact .poll ⟨i, _⟩ hw (mem_drop_append hpk.polls) rfl hn rfl
    · exact hpk
  · exact Woke.refl k

theorem procWakePollers_woke (k : Machine) : Woke k (procWakePollers k) :=
  overProcs_woke wakePoller_woke k

variable {j : Fin 8} {fill : Nat} {notify : Machine → Machine}

theorem dropFront_woke (k : Machine) (j : Fin 8) (n : Nat) : Woke k (dropFront k j n) := by
  refine Woke.quiet ?_ rfl prefix_rfl prefix_rfl
  have hp : (blank (dropFront k j n)).pipes = (blank k).pipes := by
    funext l
    by_cases hl : l = j
    · subst hl
      simp only [blank, dropFront, setPipe, Function.update_self]
    · simp only [blank, dropFront, setPipe, Function.update_of_ne hl]
  exact congrArg (fun ps => { blank k with pipes := ps }) hp

theorem Sane.reaches (hs : Sane k i) (hw : (k.procs i).waitKind = .read)
    (hn : n < (k.procs i).blkLen.toNat) :
    (procUserPtr k (k.procs i) ((k.procs i).blkPtr + BitVec.ofNat 32 n)).isSome = true := by
  have hb := hs.buffer hw
  obtain ⟨sp, hsp⟩ := isSome_iff_exists.mp hs.space
  obtain ⟨hlo, hhi⟩ := userPtrOk_iff.mp hb
  unfold userBase at hlo
  unfold userEnd at hhi
  have ha : ((k.procs i).blkPtr + BitVec.ofNat 32 n).toNat = (k.procs i).blkPtr.toNat + n := by
    rw [BitVec.toNat_add, BitVec.toNat_ofNat]
    omega
  rw [procUserPtr, if_neg (by unfold userBase userEnd; omega), hsp]
  rfl

theorem Sane.reached (hs : Sane k i) (h : Stirred k k')
    (hw : (k.procs i).waitKind = .read) (hn : n < (k.procs i).blkLen.toNat) :
    (procUserPtr k' (k'.procs i) ((k'.procs i).blkPtr + BitVec.ofNat 32 n)).isSome = true := by
  have hreach := hs.reaches hw hn
  obtain ⟨sp, hspace⟩ := isSome_iff_exists.mp hs.space
  have hp := (h.procs i).blkPtr
  have hsp := (h.procs i).space
  rw [procUserPtr] at hreach ⊢
  rw [hp, hsp, hspace]
  split at hreach
  · cases hreach
  rename_i hin
  rw [if_neg hin]
  rfl

theorem logHanded_woke (k : Machine) (j : Fin 8) (bs : List (BitVec 8)) :
    Woke k (logHanded k j bs) :=
  Woke.quiet rfl rfl prefix_rfl prefix_rfl

theorem storeChunk_woke (k : Machine) (i j : Fin 8) (s : Progress) (chunk : List (BitVec 8)) :
    Woke k (storeChunk k i j s chunk).1 := by
  simp only [storeChunk]
  split
  · exact (storeFor_pokes k _ _ chunk).woke.trans (logHanded_woke _ j chunk)
  · exact Woke.refl k

theorem front_length (k : Machine) (j : Fin 8) (n : Nat) :
    (front k j n).length = min n (k.pipes j).ring.count := by
  rw [front, length_take, Lib.Rings.RingBuf.length_contents]

section

variable (hnt : ∀ k, Woke k (notify k))
include hnt

theorem readLoop_woke (fuel : Nat) (k : Machine) (s : Progress) :
    Woke k (readLoop notify i j fill fuel k s).1 := by
  induction fuel generalizing k s with
  | zero => exact Woke.refl k
  | succ fuel ih =>
    simp only [readLoop]
    split
    · have hd := (dropFront_woke k j (min (fill - s.done) 128)).trans (hnt _)
      split
      · exact hd
      · exact (hd.trans (storeChunk_woke _ i j s _)).trans (ih _ _)
    · exact Woke.refl k

theorem readLoop_stored {fuel : Nat}
    (hk : Woke k0 k) (hs : Sane k0 i) (hw : (k0.procs i).waitKind = .read)
    (hf : fill ≤ (k0.procs i).blkLen.toNat) (hd : s.done = s.stored.length) :
    (readLoop notify i j fill fuel k s).2.done =
    (readLoop notify i j fill fuel k s).2.stored.length := by
  induction fuel generalizing k s with
  | zero => exact hd
  | succ fuel ih =>
    simp only [readLoop]
    split
    · rename_i hlt
      split
      · exact hd
      have hk' := hk.trans ((dropFront_woke k j (min (fill - s.done) 128)).trans (hnt _))
      refine ih (hk'.trans (storeChunk_woke _ i j s _)) ?_
      simp only [storeChunk, hs.reached hk'.toStirred hw (Nat.lt_of_lt_of_le hlt hf), if_true,
        length_append]
      rw [hd]
    · exact hd

omit hnt in
theorem finishRead_woke {pipe : Option (Fin 8)} (h : Woke k0 k)
    (hb : (k0.procs i).state = .blocked) (hw : (k0.procs i).waitKind = .read)
    (hd : Sane k0 i → s.done = s.stored.length) : Woke k0 (finishRead k i pipe s) := by
  refine Woke.wake ?_ hb rfl rfl rfl BitVec.and_self fun hs => ⟨rfl, ?_⟩
  · exact h.trans (Woke.quiet rfl rfl (prefix_append _ _) prefix_rfl)
  · refine .read _ hw (mem_drop_append h.reads) rfl rfl ?_
    exact congrArg (BitVec.ofNat 32) (hd hs)

theorem readPipeFor_woke (hb : (k.procs i).state = .blocked)
    (hw : (k.procs i).waitKind = .read) : Woke k (readPipeFor k notify i j) := by
  simp only [readPipeFor]
  split
  · exact Woke.refl k
  refine finishRead_woke (readLoop_woke hnt _ k _) hb hw fun hs => ?_
  exact readLoop_stored hnt (Woke.refl k) hs hw (Nat.min_le_right _ _) rfl

omit hnt in
theorem readKeyFor_woke (hb : (k.procs i).state = .blocked) (hw : (k.procs i).waitKind = .read)
    (hl : 0 < (k.procs i).blkLen) : Woke k (readKeyFor k i) := by
  simp only [readKeyFor]
  split
  · exact Woke.refl k
  rename_i c rest hkeys
  have hq : Woke k { k with keys := rest } := Woke.quiet rfl rfl prefix_rfl prefix_rfl
  split
  · exact finishRead_woke (hq.trans (storeFor_pokes ..).woke) hb hw fun _ => rfl
  rename_i hno
  refine finishRead_woke hq hb hw fun hs => absurd ?_ hno
  have hreach := hs.reaches hw (show 0 < (k.procs i).blkLen.toNat by omega)
  rw [BitVec.add_zero] at hreach
  exact hreach

theorem procReadCheck_woke (hb : (k.procs i).state = .blocked)
    (hw : (k.procs i).waitKind = .read) : Woke k (procReadCheck k notify i) := by
  simp only [procReadCheck]
  split
  · rename_i t fd ht hfd
    split
    · exact Woke.refl k
    split
    · rename_i hkind
      split
      · rename_i hv
        refine (Woke.refl k).wake hb rfl rfl rfl BitVec.and_self fun hs =>
          absurd (hs.table t ht fd hkind) ?_
        rw [hv]
        simp
      · exact readPipeFor_woke hnt hb hw
    · exact readKeyFor_woke hb hw (by omega)
    · exact readKeyFor_woke hb hw (by omega)
    · exact Woke.refl k
  · exact Woke.refl k

theorem procWakeReaders_woke (k : Machine) : Woke k (procWakeReaders k notify) := by
  refine overProcs_woke (fun k i => ?_) k
  rw [wakeReader]
  split
  · rename_i hsl
    obtain ⟨-, hb, hw⟩ := sleeps_spec hsl
    exact procReadCheck_woke hnt hb hw
  · exact Woke.refl k

end

theorem notifyWith_woke (fuel : Nat) (k : Machine) : Woke k (notifyWith fuel k) := by
  induction fuel generalizing k with
  | zero => exact Woke.refl k
  | succ fuel ih => exact (procWakePollers_woke k).trans (procWakeReaders_woke ih _)

theorem procNotify_woke (k : Machine) : Woke k (procNotify k) := by
  refine Woke.trans ?_ (notifyWith_woke _ _)
  exact Woke.quiet rfl rfl prefix_rfl prefix_rfl

theorem interrupted_woke {p : Proc} (hb : (k.procs i).state = .blocked)
    (hc : core p = core (k.procs i)) (hl : p.lastWaitPid = (k.procs i).lastWaitPid)
    (hg : (k.procs i).sig.pending &&& p.sig.pending = (k.procs i).sig.pending) :
    Woke k (setProc k i (interrupted p)) :=
  (Woke.refl k).wake hb hc rfl hl hg fun _ => ⟨rfl, .intr rfl⟩

theorem ringAlarm_woke (k : Machine) (i : Fin 8) : Woke k (ringAlarm k i) := by
  simp only [ringAlarm]
  split
  · simp only [alarmed]
    split
    · rename_i hb
      exact interrupted_woke hb.1 rfl rfl (pends_or _ _)
    · exact Woke.note rfl rfl rfl rfl rfl rfl (pends_or _ _)
  · exact Woke.refl k

theorem expirePoll_woke (k : Machine) (i : Fin 8) : Woke k (expirePoll k i) := by
  simp only [expirePoll]
  split
  · rename_i h
    obtain ⟨hb, hw, hd, hp⟩ := h
    exact (expireEntries_pokes k _ _).woke.wake hb rfl rfl rfl BitVec.and_self fun _ =>
      ⟨rfl, .timeout hw hd hp rfl⟩
  · exact Woke.refl k

theorem procTickAll_woke (k : Machine) : Woke k (procTickAll k) := by
  refine overProcs_woke (fun k i => ?_) k
  rw [tickOne]
  split
  · exact (ringAlarm_woke k i).trans (expirePoll_woke _ i)
  · exact Woke.refl k

theorem signalOne_woke (sig : Nat) : Woke k (setProc k i (signalOne (k.procs i) sig)) := by
  simp only [signalOne]
  split
  · rename_i hb
    split
    · rename_i hn
      exact (Woke.refl k).wake hb rfl rfl rfl (pends_or _ _) fun hs => absurd hn hs.waits
    · exact interrupted_woke hb rfl rfl (pends_or _ _)
  · exact Woke.note rfl rfl rfl rfl rfl rfl (pends_or _ _)

theorem signalAny_roused (p : Proc) (sig : Nat) : Roused p (signalAny p sig) := by
  rw [signalAny]
  split
  · simp only
    split
    · rename_i hb
      exact ⟨rfl, fun hn => absurd hb hn, fun _ hs => PState.noConfusion hs, fun _ => Or.inr rfl,
        pends_or _ _⟩
    · rename_i hb
      exact ⟨rfl, fun _ => ⟨rfl, rfl, rfl⟩, fun hb' => absurd hb' hb, fun hb' => absurd hb' hb,
        pends_or _ _⟩
  · exact Roused.refl p

theorem procSignalSend_woke (k : Machine) {pid : BitVec 32} (sig : Int)
    (hp : pid ≠ -1#32 ∨ sig = 0) : Woke k (procSignalSend k pid sig).1 := by
  unfold procSignalSend
  split
  · exact Woke.refl k
  split
  · split
    · exact Woke.refl k
    · exact Woke.refl k
  rename_i h0
  split
  · split
    · exact Woke.refl k
    · exact Woke.note rfl rfl rfl rfl rfl rfl (pends_or _ _)
  split
  · rename_i hall
    exact absurd hall (hp.resolve_right h0)
  split
  · exact Woke.refl k
  split
  · exact Woke.refl k
  split
  · exact Woke.refl k
  · exact signalOne_woke _

theorem procSignalSend_stirred (k : Machine) (pid : BitVec 32) (sig : Int) :
    Stirred k (procSignalSend k pid sig).1 := by
  by_cases hp : pid ≠ -1#32 ∨ sig = 0
  · exact (procSignalSend_woke k sig hp).toStirred
  rw [not_or, not_not] at hp
  obtain ⟨rfl, h0⟩ := hp
  unfold procSignalSend
  split
  · exact Stirred.refl k
  exact ⟨rfl, fun i => signalAny_roused _ _⟩

theorem roused_spec {c : Proc} (h : roused k c = some i) : procFind k c.ppid = some i ∧
    (k.procs i).state = .blocked ∧
      ¬ (0 < (k.procs i).waitPid ∧ (k.procs i).waitPid ≠ (c.pid : Int)) := by
  obtain ⟨hf, hc⟩ := filter_eq_some_iff.mp h
  simp only [Bool.and_eq_true, beq_iff_eq, Bool.not_eq_true', Bool.and_eq_false_iff,
    decide_eq_false_iff_not] at hc
  exact ⟨hf, hc.1, fun hn => hc.2.elim (fun h1 => h1 hn.1) fun h2 => h2 hn.2⟩

theorem wakeWaiter_stirred (c : Proc) (hb : (k.procs i).state = .blocked) :
    Stirred k (wakeWaiter k c i) := by
  have hset : ∀ k1 p, Pokes k k1 → core p = core (k.procs i) → p.state = .ready →
      p.sig = (k.procs i).sig → Stirred k (setProc k1 i p) := by
    intro k1 p hpk hc hp hg
    have hrow : k.procs i = k1.procs i := (congrFun hpk.procs i).symm
    refine hpk.woke.toStirred.wake hb ?_ hp ?_
    · exact hc.trans (congrArg core hrow)
    · rw [hg, hrow]
      exact BitVec.and_self
  simp only [wakeWaiter]
  split
  · refine hset _ _ ?_ rfl rfl rfl
    split
    · exact Pokes.refl k
    · exact procWriteUserU32_pokes k ..
  · exact hset _ _ (writeWords_pokes k (k.procs i) (k.procs i).waitInfop (siginfo c)) rfl rfl rfl
  · exact (Stirred.refl k).wake hb rfl rfl BitVec.and_self

theorem procWakeParent_stirred (k : Machine) (c : Proc) : Stirred k (procWakeParent k c) := by
  rw [procWakeParent]
  split
  · exact Stirred.refl k
  rename_i i hi
  exact wakeWaiter_stirred c (roused_spec hi).2.1

end

end MuOS.Kernel.Stir
