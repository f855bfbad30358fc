import MuOS.Kernel.Sleepers

namespace MuOS.Kernel.Streams

open Function User Descriptors Window Lib Runs Rings State Wake Sched Calls Stir Tables Prims
open ProcTable Step Phases Layout Rows Wakers Requests Books Holdings Bystanders Sleepers List
  Bool Option Nat

structure Buffered (p : Proc) : Prop where
  window : userPtrOk p.blkPtr.toNat p.blkLen.toNat = true
  pos : 0 < p.blkLen

/-- A finished pipe read reports the bytes that went to its buffer. -/
def Honest (e : ReadDone) : Prop :=
  e.pipe.isSome = true → e.told.toNat = e.bytes.length ∧ e.inPlace = true

/-- What went into a pipe is handed out, on its way, or still there. -/
structure Flows (k : Machine) (way : Fin 8 → List (BitVec 8)) : Prop where
  order : ∀ j, k.trace.accepted j = k.trace.handed j ++ way j ++ (k.pipes j).ring.contents pipeSize
  sound : ∀ j, (k.pipes j).ring.Sound pipeSize
  drained : ∀ j, way j ≠ [] → (k.pipes j).ring.count = 0
  reads : ∀ e ∈ k.trace.reads, Honest e

def Roomy (k : Machine) : Prop :=
  ∀ i j, awaited k i = some j → 0 < (k.pipes j).ring.count → takesWhole k i j = true

variable {D : Fin 16 → Prop} {k k' k1 : Machine} {i j : Fin 8} {a : Act} {r : Request}
  {o : Otherwise} {p : Proc} {way : Fin 8 → List (BitVec 8)} {s : Progress}

section

variable (h : Buffered p)
include h

theorem Buffered.congr {p' : Proc} (hp : p'.blkPtr = p.blkPtr) (hl : p'.blkLen = p.blkLen) :
    Buffered p' := by
  refine ⟨?_, ?_⟩
  · rw [hp, hl]
    exact h.window
  · rw [hl]
    exact h.pos

theorem Buffered.bounds : userBase ≤ p.blkPtr.toNat ∧ p.blkPtr.toNat < userEnd := by
  have hw := userPtrOk_iff.mp h.window
  have hp := h.pos
  omega

theorem Buffered.reached (hs : p.space.isSome = true) (k : Machine) :
    (procUserPtr k p p.blkPtr).isSome = true := by
  obtain ⟨sp, hsp⟩ := isSome_iff_exists.mp hs
  have hb := h.bounds
  rw [procUserPtr, if_neg (by omega), hsp]
  rfl

theorem Buffered.inPlace (hs : p.space.isSome = true) {n : Nat}
    (hn : p.blkPtr.toNat % 4096 + n ≤ 4096) (k : Machine) :
    storedInPlace k p p.blkPtr n = true := by
  obtain ⟨sp, hsp⟩ := isSome_iff_exists.mp hs
  have hb := h.bounds
  rw [storedInPlace, procUserPtr, if_neg (by omega), hsp]
  refine all_eq_true.mpr fun j hj => beq_iff_eq.mpr ?_
  have hlt := mem_range.mp hj
  have hpage : (p.blkPtr.toNat + j) / 4096 = p.blkPtr.toNat / 4096 := by omega
  have hoff : (p.blkPtr.toNat + j) % 4096 = p.blkPtr.toNat % 4096 + j := by omega
  rw [State.translate, State.translate, hpage, hoff, add_assoc]

end

def Provided (k : Machine) : Prop := ∀ i, sleeps (k.procs i) .read = true → Buffered (k.procs i)

theorem Provided.rows (h : Provided k) (hr : ∀ i, sleeps (k'.procs i) .read = true →
    sleeps (k.procs i) .read = true ∧ (k'.procs i).blkPtr = (k.procs i).blkPtr ∧
    (k'.procs i).blkLen = (k.procs i).blkLen) : Provided k' := by
  intro i hs
  obtain ⟨hold, hp, hl⟩ := hr i hs
  exact (h i hold).congr hp hl

theorem Provided.stirred (h : Provided k) (hs : Stirred k k') : Provided k' :=
  h.rows fun i hsl => ⟨sleeps_roused (hs.procs i) hsl, (hs.procs i).blkPtr, (hs.procs i).blkLen⟩

theorem Provided.but (h : Provided k) (hi : sleeps (k'.procs i) .read = false)
    (hne : ∀ l, l ≠ i → k'.procs l = k.procs l) : Provided k' := by
  intro l hs
  have hl : l ≠ i := by
    rintro rfl
    cases hi.symm.trans hs
  rw [hne l hl] at hs ⊢
  exact h l hs

theorem Roomy.wakens (h : Roomy k) (hw : Woke k k') (hn : Wakens k k') : Roomy k' := by
  intro i j hj hpos
  have hold := Loose.awaited (Woke.loose hw) hj
  have hle := Wakens.count hn j
  have hfit := h i j hold (lt_of_lt_of_le hpos hle)
  have hrow := hw.procs i
  simp only [takesWhole, and_eq_true, decide_eq_true_eq] at hfit ⊢
  rw [hrow.blkLen, hrow.blkPtr, hrow.space]
  exact ⟨by omega, hfit.2⟩

theorem roomy_of_not_crowded (h : isCrowded k = false) : Roomy k := by
  intro i j hj hpos
  have hall := any_eq_false.mp h i (mem_finRange i)
  rw [hj] at hall
  simp only [hpos, decide_true, Bool.true_and, Bool.not_eq_true', Bool.not_eq_false] at hall
  exact hall

section

theorem Flows.same (h : Flows k way) (hp : ∀ j, (k'.pipes j).ring = (k.pipes j).ring)
    (ha : k'.trace.accepted = k.trace.accepted) (hh : k'.trace.handed = k.trace.handed)
    (hr : ∀ e ∈ k'.trace.reads, e ∈ k.trace.reads ∨ Honest e) : Flows k' way := by
  refine ⟨fun j => ?_, fun j => ?_, fun j hj => ?_, fun e he => ?_⟩
  · rw [ha, hh, hp]
    exact h.order j
  · rw [hp]
    exact h.sound j
  · rw [hp]
    exact h.drained j hj
  · exact (hr e he).elim (h.reads e) id

theorem Flows.pokes (h : Flows k way) (hp : Pokes k k') : Flows k' way := by
  obtain ⟨m, rfl⟩ := hp
  exact h.same (fun _ => rfl) rfl rfl fun _ he => .inl he

theorem Flows.finish {pipe : Option (Fin 8)} (h : Flows k way)
    (hs : pipe.isSome = true → s.done = s.stored.length ∧ s.done < 2 ^ 32 ∧ s.inPlace = true) :
    Flows (finishRead k i pipe s) way := by
  refine h.same (fun _ => rfl) rfl rfl fun e he => ?_
  rcases mem_append.mp he with he | he
  · exact .inl he
  rw [mem_singleton.mp he]
  refine .inr fun hp => ?_
  obtain ⟨hd, hl, hin⟩ := hs hp
  refine ⟨?_, hin⟩
  rw [BitVec.toNat_ofNat, mod_eq_of_lt hl, hd]

theorem dropFront_pipe (k : Machine) (j : Fin 8) (n : Nat) : (dropFront k j n).pipes j =
    { k.pipes j with ring := (k.pipes j).ring.drop pipeSize (min n (k.pipes j).ring.count) } :=
  update_self ..

theorem dropFront_other {l : Fin 8} (hl : l ≠ j) (n : Nat) :
    (dropFront k j n).pipes l = k.pipes l :=
  update_of_ne hl ..

theorem Flows.drain {n : Nat} (h : Flows k way) (hw : way j = [])
    (hn : (k.pipes j).ring.count ≤ n) :
    Flows (dropFront k j n) (update way j ((k.pipes j).ring.contents pipeSize)) := by
  have hcount : min n (k.pipes j).ring.count = (k.pipes j).ring.count := by omega
  have hempty : ((dropFront k j n).pipes j).ring.count = 0 := by
    rw [dropFront_pipe, hcount]
    exact Nat.sub_self _
  have hnone : ((dropFront k j n).pipes j).ring.contents pipeSize = [] := by
    rw [← length_eq_zero_iff, RingBuf.length_contents, hempty]
  refine ⟨fun l => ?_, fun l => ?_, fun l hl => ?_, h.reads⟩
  · by_cases hlj : l = j
    · subst hlj
      have ho := h.order l
      rw [hw, append_nil] at ho
      rw [hnone, update_self, append_nil]
      exact ho
    · rw [dropFront_other hlj, update_of_ne hlj]
      exact h.order l
  · by_cases hlj : l = j
    · subst hlj
      rw [dropFront_pipe]
      exact (h.sound l).drop (min_le_right _ _)
    · rw [dropFront_other hlj]
      exact h.sound l
  · by_cases hlj : l = j
    · rw [hlj]
      exact hempty
    · rw [update_of_ne hlj] at hl
      rw [dropFront_other hlj]
      exact h.drained l hl

theorem Flows.arrive {chunk : List (BitVec 8)} (h : Flows k (update way j chunk))
    (hw : way j = []) : Flows (logHanded k j chunk) way := by
  refine ⟨fun l => ?_, h.sound, fun l hl => ?_, h.reads⟩
  · by_cases hlj : l = j
    · subst hlj
      have ho := h.order l
      rw [update_self] at ho
      have hlog : (logHanded k l chunk).trace.handed l = k.trace.handed l ++ chunk := update_self ..
      rw [hlog, hw, append_nil]
      exact ho
    · have ho := h.order l
      rw [update_of_ne hlj] at ho
      have hlog : (logHanded k j chunk).trace.handed l = k.trace.handed l := update_of_ne hlj ..
      rw [hlog]
      exact ho
  · have hlj : l ≠ j := by
      rintro rfl
      exact hl hw
    refine h.drained l ?_
    rw [update_of_ne hlj]
    exact hl

theorem readLoop_done {notify : Machine → Machine} {fill fuel : Nat} (h : ¬ s.done < fill) :
    readLoop notify i j fill fuel k s = (k, s) := by
  cases fuel with
  | zero => rfl
  | succ fuel => rw [readLoop, if_neg h]

/-- The states between the parts of a notification. -/
structure Steady (way : Fin 8 → List (BitVec 8)) (k : Machine) : Prop where
  provided : Provided k
  roomy : Roomy k
  flows : Flows k way

variable {n : Nat}

theorem readPipeFor_flows (hn : ∀ k way, Steady way k → Flows (notifyWith n k) way)
    (h : Steady way k)
    (ha : awaited k i = some j) : Flows (readPipeFor k (notifyWith n) i j) way := by
  have hbuf := h.provided i (awaited_sleeps ha)
  simp only [readPipeFor]
  split
  · exact h.flows
  by_cases hz : (k.pipes j).ring.count = 0
  · have hfill : min (k.pipes j).ring.count (k.procs i).blkLen.toNat = 0 := by omega
    rw [hfill]
    exact h.flows.finish fun _ => ⟨rfl, Nat.two_pow_pos 32, rfl⟩
  have hpos := pos_of_ne_zero hz
  have hfit := h.roomy i j ha hpos
  simp only [takesWhole, and_eq_true, decide_eq_true_eq] at hfit
  obtain ⟨⟨⟨hlen, hchunk⟩, hpage⟩, hspace⟩ := hfit
  have hway : way j = [] := by
    by_contra hne
    exact hz (h.flows.drained j hne)
  have hfill : min (k.pipes j).ring.count (k.procs i).blkLen.toNat = (k.pipes j).ring.count := by omega
  have hfits := (h.flows.sound j).fits
  obtain ⟨fuel, hfuel⟩ := exists_eq_succ_of_ne_zero hz
  rw [hfill]
  generalize hc : (k.pipes j).ring.count = c at *
  subst hfuel
  have hmin : min (fuel.succ - 0) 128 = fuel.succ := by omega
  have hfront : front k j fuel.succ = (k.pipes j).ring.contents pipeSize :=
    take_of_length_le (by rw [RingBuf.length_contents]; exact hc.le)
  have hdrain : Steady (update way j ((k.pipes j).ring.contents pipeSize))
    (dropFront k j fuel.succ) := by
    have hw := dropFront_woke k j fuel.succ
    exact ⟨h.provided.stirred hw.toStirred, h.roomy.wakens hw (Wakes.drained j fuel.succ).wakens,
      h.flows.drain hway hc.le⟩
  have hnext := hn _ _ hdrain
  have hwoke := (dropFront_woke k j fuel.succ).trans (notifyWith_woke n (dropFront k j fuel.succ))
  have hbuf1 := hbuf.congr ((hwoke.procs i).blkPtr) ((hwoke.procs i).blkLen)
  have hspace1 := ((hwoke.procs i).space).symm ▸ hspace
  have hlen1 : ((k.pipes j).ring.contents pipeSize).length = fuel.succ := by
    rw [RingBuf.length_contents, hc]
  simp only [readLoop, hmin, hfront]
  rw [if_pos (succ_pos _), if_neg (by rw [← length_eq_zero_iff, hlen1]; exact succ_ne_zero _)]
  generalize notifyWith n (dropFront k j fuel.succ) = k1 at *
  have haddr : (k1.procs i).blkPtr + BitVec.ofNat 32 0 = (k1.procs i).blkPtr := BitVec.add_zero _
  simp only [storeChunk, haddr, hbuf1.reached hspace1 k1, if_true, hlen1]
  rw [readLoop_done (by simp)]
  have hin : storedInPlace k1 (k1.procs i) (k1.procs i).blkPtr fuel.succ = true := by
    refine hbuf1.inPlace hspace1 ?_ k1
    rw [(hwoke.procs i).blkPtr]
    exact hpage
  have hstored : Flows (storeFor k1 (k1.procs i) (k1.procs i).blkPtr ((k.pipes j).ring.contents pipeSize))
      (update way j ((k.pipes j).ring.contents pipeSize)) := hnext.pokes (storeFor_pokes k1 ..)
  refine (hstored.arrive hway).finish fun _ => ⟨?_, ?_, ?_⟩
  · rw [zero_add, nil_append, hlen1]
  · rw [zero_add]
    exact lt_of_le_of_lt hfits (by decide)
  · exact hin

theorem readKeyFor_flows (h : Flows k way) : Flows (readKeyFor k i) way := by
  simp only [readKeyFor]
  split
  · exact h
  rename_i c rest hkeys
  have hk : Flows { k with keys := rest } way := h.same (fun _ => rfl) rfl rfl fun _ he => .inl he
  split
  · exact (hk.pokes (storeFor_pokes ..)).finish fun hp => by cases hp
  · exact hk.finish fun hp => by cases hp

theorem wakeReader_steady (hn : ∀ k way, Steady way k → Flows (notifyWith n k) way)
    (h : Steady way k) (i : Fin 8) : Steady way (wakeReader k (notifyWith n) i) := by
  by_cases hsl : sleeps (k.procs i) .read = true
  · obtain ⟨-, hb, hw⟩ := sleeps_spec hsl
    have hwoke := procReadCheck_woke (notifyWith_woke n) hb hw
    have hwakens := procReadCheck_wakens (notifyWith_wakens n) k i
    rw [wakeReader, if_pos hsl]
    refine ⟨h.provided.stirred hwoke.toStirred, h.roomy.wakens hwoke hwakens, ?_⟩
    simp only [procReadCheck]
    split
    · rename_i t fd ht hfd
      split
      · exact h.flows
      split
      · rename_i hk
        split
        · exact h.flows.same (fun _ => rfl) rfl rfl fun _ he => .inl he
        rename_i l hv
        exact readPipeFor_flows hn h (awaited_eq hsl ht hfd hk hv)
      · exact readKeyFor_flows h.flows
      · exact readKeyFor_flows h.flows
      · exact h.flows
    · exact h.flows
  · rw [wakeReader, if_neg hsl]
    exact h

theorem wakePoller_flows (h : Flows k way) (i : Fin 8) : Flows (wakePoller k i) way := by
  have hk := h.pokes (procPollScan_pokes k (k.procs i))
  simp only [wakePoller]
  split
  · split
    · exact hk.same (fun _ => rfl) rfl rfl fun _ he => .inl he
    · exact hk.same (fun _ => rfl) rfl rfl fun _ he => .inl he
  · exact h

theorem notifyWith_flows (n : Nat) (k : Machine) (way : Fin 8 → List (BitVec 8))
    (h : Steady way k) : Flows (notifyWith n k) way := by
  induction n generalizing k way with
  | zero => exact h.flows
  | succ n ih =>
    have hpollers : ∀ (l : List (Fin 8)) k, Steady way k → Steady way (l.foldl wakePoller k) := by
      intro l
      induction l with
      | nil => exact fun _ h => h
      | cons i l ihl =>
        refine fun k h => ihl _ ⟨?_, ?_, wakePoller_flows h.flows i⟩
        · exact h.provided.stirred (wakePoller_woke k i).toStirred
        · exact h.roomy.wakens (wakePoller_woke k i) (wakePoller_wakens k i)
    have hreaders : ∀ (l : List (Fin 8)) k, Steady way k →
        Steady way (l.foldl (fun k i => wakeReader k (notifyWith n) i) k) := by
      intro l
      induction l with
      | nil => exact fun _ h => h
      | cons i l ihl => exact fun k h => ihl _ (wakeReader_steady ih h i)
    exact (hreaders _ _ (hpollers _ _ h)).flows

end

/-- The books balance until a notification meets a crowded pipe. -/
structure Ledger (k : Machine) : Prop where
  provided : Provided k
  flows : k.trace.crowded = false → Flows k (fun _ => [])
  blank : ∀ j, (k.pipes j).used = false → k.trace.accepted j = []

section

variable (h : Ledger k)
include h

theorem Ledger.same (hp : Provided k') (hb : banks k' = banks k) : Ledger k' := by
  simp only [banks, Prod.mk.injEq] at hb
  obtain ⟨hpipes, haccepted, hhanded, hreads, hcrowded⟩ := hb
  have hused : ∀ j, (k'.pipes j).used = (k.pipes j).used :=
    fun j => congrArg Prod.fst (congrFun hpipes j)
  have hring : ∀ j, (k'.pipes j).ring = (k.pipes j).ring :=
    fun j => congrArg Prod.snd (congrFun hpipes j)
  refine ⟨hp, fun hc => ?_, fun j hj => ?_⟩
  · refine (h.flows (hcrowded.symm.trans hc)).same hring haccepted hhanded (fun e he => .inl ?_)
    rw [hreads] at he
    exact he
  · rw [haccepted]
    exact h.blank j ((hused j).symm.trans hj)

theorem Ledger.but (hb : banks k' = banks k) (hi : (k'.procs i).state ≠ .blocked)
    (hne : ∀ l, l ≠ i → k'.procs l = k.procs l) : Ledger k' :=
  h.same (h.provided.but (not_sleeps hi) hne) hb

section

variable (hb : banks k' = banks k) (hk : k'.procs = (setProc k i p).procs)
include hb hk

theorem Ledger.set (hp : p.state ≠ .blocked) : Ledger k' := by
  refine h.same (fun l hl => ?_) hb
  obtain ⟨-, he⟩ | ⟨-, he⟩ := row_set hk l <;> rw [he] at hl ⊢
  · exact absurd (sleeps_spec hl).2.1 hp
  · exact h.provided l hl

theorem Ledger.freed (hp : p.used = false) : Ledger k' := by
  refine h.same (fun l hl => ?_) hb
  obtain ⟨-, he⟩ | ⟨-, he⟩ := row_set hk l <;> rw [he] at hl ⊢
  · cases hp.symm.trans (isUser_spec (sleeps_spec hl).1).1
  · exact h.provided l hl

end

theorem Ledger.stirred (hs : Stirred k k') (ha : Aloof k k') : Ledger k' :=
  h.same (h.provided.stirred hs) ha.2

theorem Ledger.notify : Ledger (procNotify k) := by
  have hwoke := procNotify_woke k
  have hwakens := procNotify_wakens k
  refine ⟨h.provided.stirred hwoke.toStirred, fun hc => ?_, fun j hj => ?_⟩
  · have hflag := Wakens.crowded (notifyWith_wakens _ _) hc
    obtain ⟨hc0, hroom⟩ := or_eq_false_iff.mp hflag
    have hflows : Flows { k with trace := { k.trace with crowded := k.trace.crowded || isCrowded k } } _ :=
      (h.flows hc0).same (fun _ => rfl) rfl rfl fun _ he => .inl he
    exact notifyWith_flows _ _ _ ⟨h.provided, roomy_of_not_crowded hroom, hflows⟩
  · have hnotes : (procNotify k).trace.accepted = k.trace.accepted := Wakens.accepted hwakens
    rw [hnotes]
    exact h.blank j ((hwoke.pipeUsed j).symm.trans hj)

theorem Ledger.take (j : Fin 8) (n : Nat) :
    Ledger (dropFront (logHanded k j (front k j n)) j n) := by
  refine ⟨h.provided, fun hc => ?_, fun l hl => ?_⟩
  · have hf := h.flows hc
    refine ⟨fun l => ?_, fun l => ?_, fun l hl => absurd rfl hl, hf.reads⟩
    · by_cases hlj : l = j
      · subst hlj
        have hlog : (dropFront (logHanded k l (front k l n)) l n).trace.handed l = k.trace.handed
          l ++ front k l n :=
          update_self ..
        have hring : ((dropFront (logHanded k l (front k l n)) l n).pipes l).ring.contents pipeSize =
            ((k.pipes l).ring.contents pipeSize).drop n := by
          rw [dropFront_pipe]
          refine (RingBuf.contents_drop _ _).trans ?_
          have hlen : ((k.pipes l).ring.contents pipeSize).length = (k.pipes l).ring.count :=
            RingBuf.length_contents _
          rcases le_total n (k.pipes l).ring.count with hle | hle
          · rw [show min n ((logHanded k l (front k l n)).pipes l).ring.count = n from min_eq_left hle]
            rfl
          rw [show min n ((logHanded k l (front k l n)).pipes l).ring.count = (k.pipes l).ring.count
            from min_eq_right hle]
          refine (drop_of_length_le hlen.le).trans (drop_of_length_le ?_).symm
          rw [hlen]
          exact hle
        have ho := hf.order l
        rw [append_nil] at ho
        rw [hlog, hring, append_nil, append_assoc, front, take_append_drop]
        exact ho
      · have hlog : (dropFront (logHanded k j (front k j n)) j n).trace.handed l = k.trace.handed l :=
          update_of_ne hlj ..
        rw [hlog, dropFront_other hlj]
        exact hf.order l
    · by_cases hlj : l = j
      · subst hlj
        rw [dropFront_pipe]
        exact (hf.sound l).drop (min_le_right _ _)
      · rw [dropFront_other hlj]
        exact hf.sound l
  · have hused := (dropFront_woke (logHanded k j (front k j n)) j n).pipeUsed l
    exact h.blank l (hused.symm.trans hl)

theorem Ledger.append (hu : (k.pipes j).used = true) (bs : List (BitVec 8)) :
    Ledger (appendTo k j (fitting k j bs)) := by
  have hself : (appendTo k j (fitting k j bs)).pipes j =
      { k.pipes j with ring := (k.pipes j).ring.put pipeSize (fitting k j bs) } := update_self ..
  have hother : ∀ l, l ≠ j → (appendTo k j (fitting k j bs)).pipes l = k.pipes l :=
    fun l hl => update_of_ne hl ..
  have hmore : (appendTo k j (fitting k j bs)).trace.accepted j = k.trace.accepted j ++
    fitting k j bs :=
    update_self ..
  have hsame : ∀ l, l ≠ j →
    (appendTo k j (fitting k j bs)).trace.accepted l = k.trace.accepted l := fun l hl =>
    update_of_ne hl ..
  refine ⟨h.provided, fun hc => ?_, fun l hl => ?_⟩
  · have hf := h.flows hc
    have hfit : (k.pipes j).ring.count + (fitting k j bs).length ≤ pipeSize := by
      have hlen : (fitting k j bs).length ≤ pipeSize - (k.pipes j).ring.count := length_take_le _ _
      have hfits := (hf.sound j).fits
      omega
    refine ⟨fun l => ?_, fun l => ?_, fun l hl => absurd rfl hl, hf.reads⟩
    · by_cases hlj : l = j
      · subst hlj
        rw [hself, hmore, hf.order l, RingBuf.contents_put (hf.sound l) hfit, append_assoc]
        rfl
      · rw [hother l hlj, hsame l hlj]
        exact hf.order l
    · by_cases hlj : l = j
      · subst hlj
        rw [hself]
        exact (hf.sound l).put hfit
      · rw [hother l hlj]
        exact hf.sound l
  · have hlj : l ≠ j := by
      rintro rfl
      rw [hself] at hl
      cases hu.symm.trans hl
    rw [hother l hlj] at hl
    rw [hsame l hlj]
    exact h.blank l hl

theorem Ledger.create : Ledger (createPipe k) := by
  rw [createPipe]
  split
  · exact h
  rename_i j hj
  have hfree : (k.pipes j).used = false := pipeCreate_unused hj
  have hself : (setPipe k j freshPipe).pipes j = freshPipe := update_self ..
  have hother : ∀ l, l ≠ j → (setPipe k j freshPipe).pipes l = k.pipes l :=
    fun l hl => update_of_ne hl ..
  refine ⟨h.provided, fun hc => ?_, fun l hl => ?_⟩
  · have hf := h.flows hc
    refine ⟨fun l => ?_, fun l => ?_, fun l hl => absurd rfl hl, hf.reads⟩
    · by_cases hlj : l = j
      · subst hlj
        have ho := hf.order l
        rw [h.blank l hfree, eq_comm, append_eq_nil_iff, append_nil] at ho
        have hacc : (setPipe k l freshPipe).trace.accepted l = [] := h.blank l hfree
        have hhand : (setPipe k l freshPipe).trace.handed l = [] := ho.1
        rw [hacc, hhand, hself]
        rfl
      · rw [hother l hlj]
        exact hf.order l
    · by_cases hlj : l = j
      · subst hlj
        rw [hself]
        exact ⟨zero_le _, rfl⟩
      · rw [hother l hlj]
        exact hf.sound l
  · have hlj : l ≠ j := by
      rintro rfl
      rw [hself] at hl
      cases hl
    rw [hother l hlj] at hl
    exact h.blank l hl

theorem Ledger.writerAdd (id : Nat) (n : Int) : Ledger (pipeWriterAdd k id n) := by
  rw [pipeWriterAdd]
  split
  · exact h
  rename_i j _
  refine Ledger.notify (h.same h.provided ?_)
  have hpipes :
      ∀ l, (((setPipe k j { k.pipes j with writers := max 0 ((k.pipes j).writers + n) }).pipes l).used,
      ((setPipe k j { k.pipes j with writers := max 0 ((k.pipes j).writers + n) }).pipes l).ring) =
      ((k.pipes l).used, (k.pipes l).ring) := by
    intro l
    by_cases hl : l = j
    · subst hl
      simp only [setPipe, update_self]
    · simp only [setPipe, update_of_ne hl]
  rw [banks, funext hpipes]
  rfl

end

theorem Ledger.foldl {α : Type} {f : Machine → α → Machine} (hf : ∀ k a, Ledger k → Ledger (f k a))
    (l : List α) (h : Ledger k) : Ledger (l.foldl f k) := by
  induction l generalizing k with
  | nil => exact h
  | cons a l ih => exact ih (hf k a h)

section

variable (h : Ledger k)
include h

theorem Ledger.addWriters (ds : List (Nat × Int)) : Ledger (addWriters k ds) :=
  Ledger.foldl (f := fun k (d : Nat × Int) => pipeWriterAdd k d.1 d.2)
    (fun _ d hk => hk.writerAdd d.1 d.2) ds h

theorem Ledger.entryRef (d : Desc) : Ledger (entryRef k d) := by
  have hram : ∀ r, Ledger { k with ram := r } := fun r => h.same h.provided rfl
  simp only [Sched.entryRef]
  split
  · exact (hram _).writerAdd _ _
  · exact hram _

theorem Ledger.entryUnref (d : Desc) : Ledger (entryUnref k d) := by
  have hram : ∀ r, Ledger { k with ram := r } := fun r => h.same h.provided rfl
  simp only [Sched.entryUnref]
  split
  · exact (hram _).writerAdd _ _
  · exact hram _

theorem Ledger.retain (t : Table) : Ledger (retain k t) :=
  Ledger.foldl (fun _ fd hk => hk.entryRef (t fd)) _ h

theorem Ledger.release (t : Table) : Ledger (release k t) :=
  Ledger.foldl (fun _ fd hk => hk.entryUnref (t fd)) _ h

theorem Ledger.reap {c : Fin 8} (hu : (k.procs c).used = true) (hc : k.current ≠ c) :
    Ledger (procReap k c) := by
  rw [procReap_eq hu hc]
  have hlost : Ledger (lostAt k c) := by
    refine h.same (h.provided.rows fun i hs => ?_) rfl
    obtain ⟨rfl, he⟩ | ⟨-, he⟩ := row_set (b := setProc k c (lost (k.procs c))) rfl i <;> rw [he] at hs ⊢
    · exact ⟨hs, rfl, rfl⟩
    · exact ⟨hs, rfl, rfl⟩
  have hfreed := fdstateFree_freed (lostAt k c) c
  have hempty : ∀ b, Ledger b → Ledger (setProc b c emptyProc) :=
    fun b hb => hb.set rfl rfl (by rintro ⟨⟩)
  refine hempty _ ?_
  generalize fdstateFree (lostAt k c) c = k1 at hfreed
  have hstate : ∀ b t f, Ledger b → Ledger (setState b t f) :=
    fun b t f hb => hb.same hb.provided rfl
  cases hfreed with
  | none => exact hlost
  | less t f hp hf hr => exact hstate _ _ _ hlost
  | last t f hp hf hr =>
    refine hstate _ _ _ ?_
    split
    · exact hlost.release _
    · exact hlost

end

section

variable {c : Call}

section

variable (h : Ledger k)
include h

theorem Ledger.does (hs : Shape k) (hb : busy k.phase = true) (hd : Does c k k') : Ledger k' := by
  obtain ⟨h0, hu, hr⟩ := hs.cpu hb
  have hcur : (cur k).state ≠ .blocked := by
    rw [hr]
    simp
  cases hd with
  | stored | keyed | moved | jumped => exact h.same h.provided rfl
  | took j n _ => exact (h.take j n).notify
  | answered e ht hp =>
    refine ⟨h.provided, fun hc => ?_, h.blank⟩
    refine (h.flows hc).same (fun _ => rfl) rfl rfl fun e' he => ?_
    rcases mem_append.mp he with he | he
    · exact .inl he
    rw [mem_singleton.mp he]
    exact .inr fun _ => ⟨ht, hp⟩
  | wrote j bs hu => exact (h.append hu bs).notify
  | filed d _ =>
    have hfiles : Ledger (setFiles k d.sys) := h.same h.provided rfl
    exact hfiles.addWriters _
  | piped d _ _ =>
    have hfiles : Ledger (setFiles (createPipe k) d.sys) := h.create.same h.create.provided rfl
    exact hfiles.addWriters _
  | self p ho =>
    have hst : (outer p).state = (outer (cur k)).state := congrArg Proc.state ho
    exact h.set rfl rfl fun hp => hcur (hst.symm.trans hp)
  | resumed =>
    obtain ⟨s, f, he⟩ := sigreturn_eq k
    rw [he]
    exact h.set rfl rfl hcur
  | segment entry base limit flags out =>
    exact h.set rfl rfl hcur
  | signalled pid sig =>
    exact h.stirred (procSignalSend_stirred k pid sig.toInt) (procSignalSend_aloof k pid sig.toInt)
  | refused child hf => exact h.set rfl rfl (by rintro ⟨⟩)
  | dropped child sp ns m hf =>
    rw [dropped_eq (freeSlot_ne hf hu)]
    exact h.set rfl rfl (by rintro ⟨⟩)
  | forked child sp ns m x tls thread hf hx =>
    have halloc : Ledger (tabled k child sp ns m) := by
      refine h.but rfl ?_ fun l hl => (setProc_ne hl).trans (begun_ne hl sp ns m)
      have hself : (tabled k child sp ns m).procs child =
          { (begun k child sp ns m).procs child with
          fdState := some (begun k child sp ns m).nextState } := setProc_self
      rw [hself, begun_self]
      rintro ⟨⟩
    refine (halloc.retain k.fds).but rfl ?_ fun l hl => (setProc_ne hl).trans (setProc_ne hl)
    obtain ⟨p, hp, hrow, -⟩ := ownTable_child (begun k child sp ns m) child
    rw [begun_self] at hrow
    rw [finishChild_self, hp]
    have hready : p.state = .ready := (hrow.calm (by rintro ⟨⟩)).1
    exact fun hb => by cases hready.symm.trans hb
  | shared child sp ns t m x tls thread hf ht hx =>
    refine h.but rfl ?_ fun l hl => (setProc_ne hl).trans ((setProc_ne hl).trans (begun_ne hl sp ns m))
    rw [finishChild_self, shared_self]
    rintro ⟨⟩
  | settled =>
    obtain he | he | ⟨j, hj, hz, he⟩ := reapReported_cases k <;> rw [he]
    · exact h
    · exact h.set rfl rfl hcur
    have hused := (procFind_some hj).1
    have hrow := procReap_cur hused (running_ne hr hz)
    have hstate := (hrow.calm (by rw [hr]; simp)).1
    exact (h.reap hused (running_ne hr hz)).set rfl rfl fun hp => hcur (hstate.symm.trans hp)
  | waited _ j hj =>
    obtain ⟨⟨hused, -⟩, hz⟩ := zombieChild_spec hj
    exact h.reap hused (running_ne hr hz)

theorem Ledger.call (hs : Shape k) (hb : busy k.phase = true) (c : Call) : Ledger (sysCall k c).1 :=
  parts_invariant hs hb (fun _ _ hs1 hb1 hl hd => hl.does hs1 hb1 hd) h (sysCall_parts c)

theorem Ledger.after (fl : Flow) : Ledger (after k fl) := by
  cases fl <;> exact h.same h.provided rfl

theorem Ledger.aside (q : Proc) (hq : q.state ≠ .blocked) : Ledger (aside k q) :=
  h.set (p := q) rfl rfl hq

theorem Ledger.load (j : Fin 8) (ph : Phase) : Ledger (setPhase (schedLoad k j) ph) :=
  h.set rfl rfl (by simp)

theorem Ledger.notified (hr : (cur k).state = .running) (hn : Notified k k') : Ledger k' := by
  obtain ⟨m, eip, sp, eax, sig, rfl⟩ := hn
  refine h.set rfl rfl fun hp => ?_
  cases hr.symm.trans hp

theorem Ledger.reaps (hr : Reaps k k') : Ledger k' := by
  exact hr.keeps h fun _ _ _ ih hu _ hc _ => ih.reap hu hc

end

theorem Buffered.sleeper (ha : Asking k) (hp : k.phase = .blocking r o)
    (hs : sleeps (sleeper k r) .read = true) : Buffered (sleeper k r) := by
  have hkind : r.kind = .read := (sleeps_spec hs).2.2
  have hbuf : ∀ buf count : BitVec 32, count ≠ 0#32 → userPtrOk buf.toNat count.toNat = true →
      userPtrOk buf.toNat count.toInt.toNat = true ∧ 0 < count.toInt := by
    intro buf count hc hok
    have hpos := (userPtrOk_pos hc hok).2
    have hlt := count.isLt
    have hnat : count.toInt.toNat = count.toNat := by
      rw [BitVec.toInt_eq_toNat_cond] at hpos ⊢
      split at hpos <;> omega
    exact ⟨by rw [hnat]; exact hok, hpos⟩
  cases ha r o hp with
  | console _ buf count _ _ _ hc hok
  | pipe _ buf count _ _ _ _ _ hc hok =>
    exact ⟨(hbuf buf count hc hok).1, (hbuf buf count hc hok).2⟩
  | poll | sigsusp | wait4 | waitid => cases hkind

theorem Ledger.stepped (h : Ledger k) (hs : Shape k) (ha : Asking k) (hst : Stepped k a k') :
    Ledger k' := by
  have hphase : ∀ (b : Machine) ph, Ledger b → Ledger (setPhase b ph) :=
    fun b ph hb => hb.same hb.provided rfl
  have htick : Ledger (ticked k) := by
    have hclock : Ledger (counted k) := h.same h.provided rfl
    exact hclock.stirred (ticked_woke k).toStirred (procTickAll_aloof _)
  have hdeliver : ∀ {k1 : Machine} {d : Delivery} ph, busy k.phase = true →
      signalDeliver k = (k1, d) → Ledger (setPhase k1 ph) := by
    intro k1 d ph hb hd
    have hnote := delivered_notified hd
    exact hphase _ _ (h.notified (hs.cpu hb).2.2 hnote)
  cases hst with
  | compute | exit | fault | back | lost | shell | shellKey => exact h.same h.provided rfl
  | call c k1 fl hp hc =>
    have h1 : Ledger (inCall k) := h.same h.provided rfl
    have hs1 := hs.entered
    have hcall := h1.call hs1 (by rw [hp]; rfl) c
    rw [hc] at hcall
    exact hcall.after fl
  | tick hp => exact hphase _ _ htick
  | idle hp hn => exact htick
  | key c hp =>
    rw [typed]
    split
    · have hkeys : Ledger { k with keys := k.keys ++ [c] } := h.same h.provided rfl
      exact hkeys.notify
    · exact h
  | sleep r o j hp hf hj =>
    have haside : Ledger (Phases.aside k (sleeper k r)) := by
      refine h.same (fun i hsl => ?_) rfl
      obtain ⟨-, he⟩ | ⟨-, he⟩ := row_set (b := Phases.aside k (sleeper k r)) rfl i <;> rw [he] at hsl ⊢
      · exact Buffered.sleeper ha hp hsl
      · exact h.provided i hsl
    exact haside.load j _
  | awake r o hp hf hn =>
    have hact : Ledger (stayed k r) :=
      h.set rfl rfl (by rintro ⟨⟩)
    exact hact.after _
  | tableless r o hp hf => exact h.after _
  | leave _ _ hp hd | alarm _ _ hp hd => exact hdeliver _ (by rw [hp]; rfl) hd
  | ignored hp hn => exact hphase k _ h
  | yield j hp hj hne => exact (h.aside (yielder k .ready) (by rintro ⟨⟩)).load j _
  | keep hp => exact hphase _ _ (h.aside (yielder k .running) (by rintro ⟨⟩))
  | die code faulted sys hp =>
    have hact : Ledger { Phases.aside k (exited k code faulted) with active := false } :=
      h.set rfl rfl (by rintro ⟨⟩)
    exact hphase _ _ (hact.stirred (procWakeParent_stirred _ _) (procWakeParent_aloof _ _))
  | pick sys j hp hj => exact h.load j _
  | finish l hp =>
    obtain ⟨k1, hreaps, -, he⟩ := hs.finish_reaps hp
    have h1 : Ledger (halted k) := h.same h.provided rfl
    have h2 := h1.reaps hreaps
    rw [he]
    exact h2.same h2.provided rfl
  | launch frames l hp ha =>
    exact hs.launch_elim hp frames l h (fun j _ _ _ _ _ _ _ _ hu => h.freed rfl rfl hu)
      (fun j b _ _ _ _ => h.set rfl rfl (by rintro ⟨⟩))
  | refuse frames l hp ha => exact h
  | spinDone v takesKey out m hp =>
    have hkeys : Ledger (spun k takesKey m) := h.same h.provided rfl
    exact hkeys.after _

variable {ram : Fs.RamFs.Ram} {mem : UserMem} {cow : Cow} {as : List Act}

end

end MuOS.Kernel.Streams
