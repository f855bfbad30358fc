import MuOS.Kernel.Sleepers

namespace MuOS.Kernel.Ends

open Lib.Runs Fs.RamFs User Descriptors Window Syscall State
open Wake Sched Calls Stir Tables Prims ProcTable Step Phases Layout Counts Holdings Option Finset

variable {k k' k1 : Machine} {t : Nat} {i j : Fin 8} {a : Act} {r : Ram} {mem : UserMem} {cow : Cow}
  {as : List Act} {p : Desc → Bool} {w : World} {v : Table}

def liveTables (k : Machine) : Finset Nat :=
  Finset.univ.biUnion (fun i =>
    if (k.procs i).used && (k.procs i).state != .zombie then (k.procs i).fdState.toFinset else ∅)

def unlinked (r : Ram) (s : Fin 16) : Bool :=
  isUsed (r.tables.files s) && (r.tables.files s).deleted != 0#32

/-- A table only exited processes have holds no write end or file. -/
def Emptied (k : Machine) : Prop :=
  ∀ t ∈ heldTables k, t ∉ liveTables k → ∀ fd, (tableOf k t fd).kind ≠ .pipeWrite ∧
    (tableOf k t fd).kind ≠ .file

/-- A read from the empty pipe `j` returns 0. -/
def ReadsEnd (k : Machine) (j : Fin 8) : Prop :=
  ∀ fd i buf count w out, descIndex fd.toInt = some i → (k.fds i).kind = .pipeRead →
    pipeValid k (k.fds i).pipeId = some j → count ≠ 0#32 → userPtrOk buf.toNat count.toNat = true →
    (sysCall k (.read fd buf count w out)).2 = .ret 0#32

theorem liveTables_subset (k : Machine) : liveTables k ⊆ heldTables k := by
  intro t ht
  simp only [liveTables, mem_biUnion, mem_univ, true_and] at ht
  obtain ⟨i, hi⟩ := ht
  split at hi
  · rename_i hc
    rw [Bool.and_eq_true] at hc
    exact mem_heldTables.mpr ⟨i, hc.1, mem_toFinset.mp hi⟩
  · exact absurd hi (notMem_empty t)

theorem many_none (h : ∀ fd, p (v fd) = false) : many p v = 0 := by
  rw [many_sum]
  exact sum_eq_zero fun fd _ => by rw [h fd]; rfl

theorem Emptied.total (h : Emptied k) (hp : ∀ x : Desc, x.kind ≠ .pipeWrite ∧ x.kind ≠ .file →
    p x = false) :
    ∑ t ∈ heldTables k, many p (tableOf k t) = ∑ t ∈ liveTables k, many p (tableOf k t) := by
  symm
  refine sum_subset (liveTables_subset k) fun t ht hn => ?_
  exact many_none fun fd => hp _ (h t ht hn fd)

theorem readPipe_end {fd : Int} {buf count : BitVec 32} (hz : (k.pipes j).ring.count = 0)
    (hw : (k.pipes j).writers = 0) : (readPipe k j fd buf count).2 = .ret 0#32 := by
  have hf : front k j count.toNat = [] :=
    List.length_eq_zero_iff.mp (by rw [front_length, hz, Nat.min_zero])
  have hw' :
    ((pipeRead (logHanded (pokeCur k buf []) j []) j count.toNat).1.pipes j).writers = 0 := by
    rw [((poke_pokes k buf []).woke.trans (took_woke _ j count.toNat [])).writers]
    exact hw
  simp only [readPipe, hf, hw']
  rfl

/-- What exited processes had open counts no more, if nothing is left to it; and then a blocked
reader that had its table to itself still has a writer that has not exited. -/
theorem exited_not_counted (h : run step (boot r mem cow) as = some k) (he : Emptied k) :
    (∀ j, (k.pipes j).writers = ((∑ t ∈ liveTables k, many (isEnd j) (tableOf k t) : Nat) : Int)) ∧
      (∀ j, ∑ t ∈ liveTables k, many (isEnd j) (tableOf k t) = 0 → (k.pipes j).ring.count = 0 →
      ReadsEnd k j) ∧ (∀ s, unlinked r s = false → unlinked k.ram s = true → 0 < ∑ t ∈ liveTables k,
      many (isOpen s) (tableOf k t)) ∧
      ∀ i, Meets step (fun k _ => sleeps (k.procs i) .read = true → Bystanders.Unshared k i)
        (boot r mem cow) as → ∀ j, awaited k i = some j → 0 < ∑ t ∈ liveTables k,
        many (isEnd j) (tableOf k t) := by
  have hb : InBooks (fun s => unlinked r s = false) k := by
    refine books_run (fun s hs hu => ?_) h
    simpa [unlinked, hu] using hs
  have hends : ∀ j, ∑ t ∈ heldTables k, many (isEnd j) (tableOf k t) = ∑ t ∈ liveTables k,
    many (isEnd j) (tableOf k t) :=
    fun j => he.total fun x hx => isEnd_of_ne hx.1
  have hopens : ∀ s, ∑ t ∈ heldTables k, many (isOpen s) (tableOf k t) = ∑ t ∈ liveTables k,
    many (isOpen s) (tableOf k t) :=
    fun s => he.total fun x hx => isOpen_of_ne hx.2
  have hwriters :
    ∀ j, (k.pipes j).writers =
    ((∑ t ∈ liveTables k, many (isEnd j) (tableOf k t) : Nat) : Int) := by
    intro j
    rw [← hends, ← hb.total]
    exact hb.charged.writers j
  refine ⟨hwriters, fun j hz hc fd i buf count w out hi hk hv hn hp => ?_, fun s hs hu => ?_,
    fun i hm j hj => ?_⟩
  · have hw : (k.pipes j).writers = 0 := by rw [hwriters, hz]; rfl
    simp only [sysCall, doRead, if_neg hn, hp, hi, hk, hv]
    exact readPipe_end hc hw
  · obtain ⟨hused, hdel⟩ : isUsed (k.ram.tables.files s) = true ∧
      (k.ram.tables.files s).deleted ≠ 0#32 := by
      simpa [unlinked] using hu
    have hne := hb.charged.files.gone s hs hused hdel
    rw [hb.charged.files.refs s, hb.total, hopens] at hne
    refine Nat.pos_of_ne_zero fun hz => hne ?_
    rw [hz]
  · obtain ⟨-, hpos⟩ := Sleepers.fed_run h hm j hj
    rw [hwriters j] at hpos
    exact Int.natCast_pos.mp hpos

def childCloses : List Act :=
  [enter, .sys (.pipe 0x08840000#32 noWorld []), .go, .sys (.fork none), .go,
    .sys (.fs (.close 4) noWorld []), .go, .tick, .go, .go, .sys (.fs (.close 4) noWorld []), .go,
    .exit 0#32, .go, .go, .go]

instance (k : Machine) : Decidable (Emptied k) :=
  inferInstanceAs (Decidable (∀ t ∈ heldTables k, _))

theorem exited_not_counted_closed : ∃ k, run step plain childCloses = some k ∧
    (k.procs 2).state = .zombie ∧ Emptied k ∧ (k.pipes 0).used = true ∧ (k.pipes 0).writers = 0 ∧
    ReadsEnd k 0 := by
  obtain ⟨k, hk, hz, he, hu, hsum, hc⟩ : ∃ k, run step plain childCloses = some k ∧
      (k.procs 2).state = .zombie ∧ Emptied k ∧ (k.pipes 0).used = true ∧
      ∑ t ∈ liveTables k, many (isEnd 0) (tableOf k t) = 0 ∧ (k.pipes 0).ring.count = 0 := by
    decide +kernel
  obtain ⟨hw, hread, -⟩ := exited_not_counted hk he
  exact ⟨k, hk, hz, he, hu, by rw [hw 0, hsum]; rfl, hread 0 hsum hc⟩

/-- A child exits with a write end, then its parent reads; a third can run. -/
def childExitsOpen : List Act :=
  [enter, .sys (.fork none), .go, .sys (.pipe 0x08840000#32 noWorld []), .go, .sys (.fork none),
    .go, .sys (.fs (.close 4) noWorld []), .go, .tick, .go, .go, .tick, .go, .go, .exit 0#32, .go,
    .go, .go, .sys (.read 3#32 0x08840000#32 1#32 noWorld []), .go]

theorem reader_waits_for_exited : ∃ k, run step plain childExitsOpen = some k ∧
    (k.procs 3).state = .zombie ∧ (k.pipes 0).writers = 1 ∧ ∑ t ∈ liveTables k,
    many (isEnd 0) (tableOf k t) = 0 ∧ awaited k 1 = some 0 := by
  decide +kernel

section

def isSide (j : Fin 8) (x : Desc) : Bool :=
  (x.kind == .pipeRead || x.kind == .pipeWrite) && x.pipeId == j.val

def HasEnd (k : Machine) (j : Fin 8) : Prop := ∃ t ∈ heldTables k, 0 < many (isSide j) (tableOf k t)

instance (k : Machine) (j : Fin 8) : Decidable (HasEnd k j) :=
  inferInstanceAs (Decidable (∃ t ∈ heldTables k, _))

def freeEntries (v : Table) : Finset (Fin 11) :=
  Finset.univ.filter (fun i => 3 ≤ i.val ∧ (v i).kind = .free)

/-- No pipe loses its last end, and a new one finds two entries. -/
structure Sparing (k : Machine) (a : Act) : Prop where
  ends : ∀ k', step k a = some k' → ∀ j, HasEnd k j → HasEnd k' j
  room : ∀ ptr w out, a = .sys (.pipe ptr w out) → 2 ≤ (freeEntries k.fds).card

variable {c : Call}

theorem Does.pipeUsed (hd : Does c k k') (hs : Shape k) (hb : busy k.phase = true)
    (hc : isPipe c = false) (j : Fin 8) : (k'.pipes j).used = (k.pipes j).used := by
  obtain ⟨h0, hu, hr⟩ := hs.cpu hb
  have hreap : ∀ k1 : Machine, ∀ i, (k1.procs i).used = true → k1.current ≠ i →
      ((procReap k1 i).pipes j).used = (k1.pipes j).used := fun k1 i hui hci =>
    procReap_field (fun k => (k.pipes j).used) hui hci fun _ _ => rfl
  cases hd with
  | stored | keyed | answered | self | moved | jumped | segment | refused | shared => rfl
  | took l n => exact (took_woke k l n _).pipeUsed j
  | wrote l bs => exact (wrote_woke k l bs).pipeUsed j
  | filed d _ => exact (addWriters_rang (setFiles k d.sys) d.pipes).pipeUsed j
  | piped d _ hp => cases hp.symm.trans hc
  | resumed =>
    obtain ⟨s, f, he⟩ := sigreturn_eq k
    rw [he]
    rfl
  | signalled pid sig => exact (procSignalSend_stirred k pid sig.toInt).pipeUsed j
  | dropped child sp ns m hf =>
    rw [dropped_eq (freeSlot_ne hf hu)]
    rfl
  | forked child sp ns m x tls thread hf hx =>
    exact (tabled_rang k child sp ns m).pipeUsed j
  | settled =>
    obtain he | he | ⟨i, hi, hz, he⟩ := reapReported_cases k <;> rw [he]
    · rfl
    · exact hreap k i (procFind_some hi).1 (running_ne hr hz)
  | waited _ i hi =>
    obtain ⟨⟨hui, -⟩, hz⟩ := zombieChild_spec hi
    exact hreap k i hui (running_ne hr hz)

theorem Reaps.pipeUsed (h : Reaps k k') (j : Fin 8) : (k'.pipes j).used = (k.pipes j).used := by
  refine h.keeps (P := fun b => (b.pipes j).used = (k.pipes j).used) rfl fun b i _ ih hu
    _ hc _ => ?_
  rw [← ih]
  exact procReap_field (fun k => (k.pipes j).used) hu hc fun _ _ => rfl

theorem after_pipes (k : Machine) (fl : Flow) : (after k fl).pipes = k.pipes := by cases fl <;> rfl

theorem Stepped.pipeUsed (hst : Stepped k a k') (hs : Shape k)
    (ha : ∀ ptr w out, a ≠ .sys (.pipe ptr w out)) (j : Fin 8) :
    (k'.pipes j).used = (k.pipes j).used := by
  cases hst with
  | compute | exit | fault | sleep | ignored | yield | keep | pick | back | lost | refuse | shell
  | shellKey => rfl
  | call c k1 fl hp hc =>
    have hb := busy_at hp
    have hno : isPipe c = false := by
      cases c with
      | pipe ptr w out => exact absurd rfl (ha ptr w out)
      | _ => rfl
    have hparts := sysCall_parts (k := inCall k) c
    rw [hc] at hparts
    rw [after_pipes]
    refine parts_invariant (I := fun k1 => (k1.pipes j).used = (k.pipes j).used) hs.entered hb
      (fun k2 k3 hsh hbb he hd => ?_) rfl hparts
    exact (Does.pipeUsed hd hsh hbb hno j).trans he
  | tick | idle => exact (ticked_woke k).pipeUsed j
  | key c hp => exact (typed_woke k c).pipeUsed j
  | awake r o hp hf hn => rw [after_pipes]; rfl
  | tableless | spinDone => rw [after_pipes]
  | leave k1 _ _ hd | alarm k1 _ _ hd =>
    obtain ⟨m, eip, sp, eax, sig, rfl⟩ := delivered_notified hd
    rfl
  | die code faulted sys hp => exact (procWakeParent_stirred _ _).pipeUsed j
  | finish l hp =>
    obtain ⟨k1, hreap, hcur, he⟩ := hs.finish_reaps hp
    rw [he]
    exact Reaps.pipeUsed hreap j
  | launch frames l hp ha =>
    exact hs.launch_elim hp frames l rfl (fun _ _ _ _ _ _ _ _ _ _ => rfl) fun _ _ _ _ _ _ => rfl

theorem fdAllocRaw_free (h : 0 < (freeEntries v).card) : (fdAllocRaw v).isSome = true := by
  obtain ⟨i, hi⟩ := card_pos.mp h
  rw [fdAllocRaw, List.find?_isSome]
  refine ⟨i, List.mem_finRange i, ?_⟩
  simpa [freeEntries] using hi

theorem doPipe_made (hj : pipeCreate k = some j) (hr : 2 ≤ (freeEntries k.fds).card) :
    ∃ b, (FileCalls.doPipe (files k) (fsCtx k w) true).sys.fds b = pipeDesc j.val true := by
  obtain ⟨a, ha⟩ := isSome_iff_exists.mp (fdAllocRaw_free (v := k.fds) (by omega))
  have hsub :
    (freeEntries k.fds).erase a ⊆ freeEntries (setDesc k.fds a (pipeDesc j.val false)) := by
    intro i hi
    obtain ⟨hne, hmem⟩ := mem_erase.mp hi
    simp only [freeEntries, mem_filter, mem_univ, true_and] at hmem ⊢
    rw [setDesc_ne hne]
    exact hmem
  have hcard := card_le_card hsub
  have hle := pred_card_le_card_erase (s := freeEntries k.fds) (a := a)
  obtain ⟨b, hb⟩ :=
    isSome_iff_exists.mp (fdAllocRaw_free (v := setDesc k.fds a (pipeDesc j.val false)) (by omega))
  refine ⟨b, ?_⟩
  have hctx : (fsCtx k w).pipeCreate = some j.val := congrArg (Option.map Fin.val) hj
  have hfds : (files k).fds = k.fds := rfl
  simp only [FileCalls.doPipe, hctx, hfds, fdAllocWith, ha, hb, map_some]
  exact setDesc_self

theorem createPipe_used (k : Machine) (l : Fin 8) (h : ((createPipe k).pipes l).used = true) :
    (k.pipes l).used = true ∨ pipeCreate k = some l := by
  rw [createPipe] at h
  split at h
  · exact .inl h
  rename_i j hj
  by_cases he : l = j
  · rw [he]
    exact .inr hj
  · simp only [setPipe, Function.update_of_ne he] at h
    exact .inl h

theorem pipe_has_end {ptr : BitVec 32} {out : Stores} (hst : Stepped k (.sys (.pipe ptr w out)) k')
    (hs' : Shape k') (hb' : InBooks (fun _ => False) k') (hr : 2 ≤ (freeEntries k.fds).card)
    (hu : (k'.pipes j).used = true) : (k.pipes j).used = true ∨ HasEnd k' j := by
  cases hst with
  | call c k1 fl hp hc =>
    simp only [sysCall, Calls.doPipe, failWith] at hc
    split at hc
    · cases hc
      exact .inl hu
    have hfst := congrArg Prod.fst hc
    have hsnd := congrArg Prod.snd hc
    subst hsnd
    have hmade := fun l => createPipe_used (inCall k) l
    have hends := fun hj => doPipe_made (k := inCall k) (j := j) (w := w) hj hr
    generalize FileCalls.doPipe (files (inCall k)) _ true = d at *
    have hrang := addWriters_rang (setFiles (createPipe (inCall k)) d.sys) d.pipes
    generalize addWriters (setFiles (createPipe (inCall k)) d.sys) d.pipes = k2 at *
    obtain ⟨m, hm⟩ := pokeAll_pokes k2 out
    rw [hm] at hfst
    subst hfst
    refine (hmade j ((hrang.pipeUsed j).symm.trans hu)).imp id fun hj => ?_
    obtain ⟨b, hbd⟩ := hends hj
    obtain ⟨t, hl, hst⟩ := hb'.running hs' rfl
    have ht := tables_live hl hst
    refine ⟨t, hb'.held_iff.mpr (by rw [ht]; rfl), ?_⟩
    rw [tableOf, ht, getD_some]
    have hfds : k2.fds b = pipeDesc j.val true := (congrFun hrang.fds b).trans hbd
    refine card_pos.mpr ⟨b, mem_filter.mpr ⟨mem_univ b, ?_⟩⟩
    simp only [after, setPhase, setEax, hfds]
    simp [isSide, pipeDesc]

/-- Pipes run out only while each of them has an end. -/
theorem pipes_run_out (h : run step (boot r mem cow) as = some k)
    (hm : Meets step Sparing (boot r mem cow) as)
    (hc : pipeCreate k = none) (j : Fin 8) : HasEnd k j := by
  have hinv := meets_invariant
    (I := fun k => Shape k ∧ InBooks (fun _ => False) k ∧ ∀ j, (k.pipes j).used = true → HasEnd k j)
    (fun k a k' hi hok ht => ?_)
    ⟨boot_shape r mem cow, boot_books fun _ hf => absurd hf id, fun _ hu => by cases hu⟩ hm h
  · refine hinv.2.2 j ?_
    have hall := List.find?_eq_none.mp hc j (List.mem_finRange j)
    simpa using hall
  obtain ⟨hs, hb, he⟩ := hi
  have hst := step_stepped ht
  have hs' := hs.stepped hst
  have hb' := hb.stepped hs hst
  refine ⟨hs', hb', fun l hu => ?_⟩
  by_cases hold : (k.pipes l).used = true
  · exact hok.ends k' ht l (he l hold)
  by_cases hpipe : ∃ ptr w out, a = .sys (.pipe ptr w out)
  · obtain ⟨ptr, w, out, rfl⟩ := hpipe
    exact (pipe_has_end hst hs' hb' (hok.room ptr w out rfl) hu).resolve_left hold
  · refine absurd ((Stepped.pipeUsed hst hs (fun ptr w out ha => hpipe ⟨ptr, w, out, ha⟩)
      l).symm.trans hu) hold

def makesPipe : Act → Bool
  | .sys c => isPipe c
  | _ => false

def sparing (k : Machine) (a : Act) : Bool :=
  (step k a).all (fun k' => decide (∀ j, HasEnd k j → HasEnd k' j)) &&
    (!makesPipe a || decide (2 ≤ (freeEntries k.fds).card))

theorem sparing_spec (k : Machine) (a : Act) (h : sparing k a = true) : Sparing k a := by
  simp only [sparing, Bool.and_eq_true, Bool.or_eq_true, decide_eq_true_eq] at h
  refine ⟨fun k' hk' => ?_, ?_⟩
  · have hall := h.1
    rw [hk'] at hall
    exact of_decide_eq_true hall
  · rintro ptr w out rfl
    exact h.2.resolve_left (by rintro ⟨⟩)

def fourPipes : List Act := (List.replicate 4 [.sys (.pipe 0x08840000#32 noWorld []), .go]).flatten

def eightPipes : List Act :=
  enter :: fourPipes ++ [.sys (.fork none), .go] ++
    (List.range 8).flatMap (fun n => [.sys (.fs (.close (3 + n)) noWorld []), .go]) ++ fourPipes

theorem pipes_run_out_eight : ∃ k, run step plain eightPipes = some k ∧ pipeCreate k = none ∧
    ∀ j, HasEnd k j := by
  have hm : Meets step Sparing plain eightPipes := checks_meets sparing_spec (by decide +kernel)
  obtain ⟨k, hk, hc⟩ : ∃ k, run step plain eightPipes = some k ∧ pipeCreate k = none := by decide +kernel
  exact ⟨k, hk, hc, pipes_run_out hk hm hc⟩

def opensAndCloses : List Act :=
  enter :: (List.replicate 8 [.sys (.pipe 0x08840000#32 noWorld []), .go,
    .sys (.fs (.close 3) noWorld []), .go, .sys (.fs (.close 4) noWorld []), .go]).flatten

theorem closed_pipes_run_out : ∃ k, run step plain opensAndCloses = some k ∧ pipeCreate k = none ∧
    ∀ j, ¬ HasEnd k j := by
  decide +kernel

end

end MuOS.Kernel.Ends
