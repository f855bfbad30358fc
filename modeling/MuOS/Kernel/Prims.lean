import Mathlib.Logic.Relation
import MuOS.Kernel.Stir
import MuOS.Kernel.Tables
import MuOS.Syscall.References

namespace MuOS.Kernel.Prims

open Function Fs.RamFs User Fds Descriptors Window Syscall Vfs Syscall References State Wake Sched
open Calls Stir Tables
open MuOS.Syscall.FileCalls (FsCall fsCall)

def outer (p : Proc) : Proc :=
  { p with uid := 0#32, gid := 0#32, sig := noSignals, alarmTick := 0#32 }

def begun (k : Machine) (child : Fin 8) (sp ns : Nat) (m : UserMem) : Machine :=
  { setProc k child { newProc k (cur k).pid with space := some sp } with
    nextPid := k.nextPid + 1
    nextSpace := ns
    mem := m }

abbrev tabled (k : Machine) (child : Fin 8) (sp ns : Nat) (m : UserMem) : Machine :=
  fdstateAlloc (begun k child sp ns m) child

variable {k1 : Machine} {i : Fin 8} {want : Int} {j : Fin 8}

theorem tabled_rang (k : Machine) (child : Fin 8) (sp ns : Nat) (m : UserMem) :
    Rang (tabled k child sp ns m) (retain (tabled k child sp ns m) k.fds) := retain_rang _ _

abbrev withTls (k : Machine) (base limit flags : BitVec 32) : Proc :=
  { cur k with tls := ⟨base, limit.setWidth 20, flags⟩ }

abbrev ownChild (k : Machine) (child : Fin 8) (sp ns : Nat) (m : UserMem) : Machine :=
  ownTable (begun k child sp ns m) child

abbrev sharer (k : Machine) (child : Fin 8) (sp ns t : Nat) (m : UserMem) : Machine :=
  fdstateShare (begun k child sp ns m) child k.current t

abbrev forkedBy (k : Machine) (child : Fin 8) (sp ns : Nat) (m : UserMem) (x : Context) (tls : Tls)
    (thread : Bool) : Machine :=
  (finishChild (ownChild k child sp ns m) child x tls thread).1

abbrev sharedBy (k : Machine) (child : Fin 8) (sp ns t : Nat) (m : UserMem) (x : Context)
    (tls : Tls) (thread : Bool) : Machine :=
  (finishChild (sharer k child sp ns t m) child x tls thread).1

/-- The selectors and flags that a new process starts with. -/
structure Begets (k : Machine) (c : Context) (tls : Tls) : Prop where
  flags : c.eflags = k.frame.eflags
  sels : tls = k.tls ∧ (c.fsSel = 0x23#32 ∨ c.fsSel = orDefault k.frame.fs) ∧
    c.gsSel = orDefault k.frame.gs ∨ (∃ base, tls = ⟨base, 0xFFFFF#20, 0x51#32⟩) ∧
    c.fsSel = 0x23#32 ∧ c.gsSel = 0x33#32

def isPipe : Call → Bool
  | .pipe .. => true
  | _ => false

def isSignal : Call → Bool
  | .signal .. | .sigaction .. | .sigprocmask .. | .sigsuspend .. | .sigreturn => true
  | _ => false

def isBreak : Call → Bool
  | .brk .. | .mmap .. | .execve .. => true
  | _ => false

def isFork : Call → Bool
  | .fork .. | .clone .. => true
  | _ => false

/-- The space of a child: the caller's for a thread, else a new one. -/
def Placed (k : Machine) (sp ns : Nat) (thread : Bool) : Prop :=
  k.nextSpace ≤ ns ∧ if thread then (cur k).space = some sp else k.nextSpace ≤ sp ∧ sp < ns

inductive Does : Call → Machine → Machine → Prop
  | stored {c k} (m : UserMem) : Does c k { k with mem := m }
  | keyed {c k} : Does c k { k with keys := k.keys.tail }
  | took {c k} (j : Fin 8) (n : Nat) (hu : (k.pipes j).used = true) :
    Does c k (pipeRead (logHanded k j (front k j n)) j n).1
  | answered {c k} (e : ReadDone) (ht : e.told.toNat = e.bytes.length) (hp : e.inPlace = true) :
    Does c k (logRead k e)
  | wrote {c k} (j : Fin 8) (bs : List (BitVec 8)) (hu : (k.pipes j).used = true) :
    Does c k (pipeWrite k j bs).1
  | filed {c k} (d : Done) (h : ∀ D, Effect D (files k) d) :
    Does c k (addWriters (setFiles k d.sys) d.pipes)
  | piped {c k} (d : Done) (h : ∃ w, d = FileCalls.doPipe (files k) (fsCtx k w) true)
    (hc : isPipe c = true) : Does c k (addWriters (setFiles (createPipe k) d.sys) d.pipes)
  | self {c k} (p : Proc) (h : outer p = outer (cur k))
    (hs : p.sig = (cur k).sig ∨ isSignal c = true) : Does c k (setProc k k.current p)
  | moved {c k} (b : Brk) (hc : isBreak c = true) : Does c k { k with brk := some b }
  | jumped {c k} (eip sp ebx ecx edx esi edi ebp : BitVec 32) :
    Does c k { k with
      active := true
      frame := { k.frame with
        eip := eip, useresp := sp, ebx := ebx, ecx := ecx, edx := edx, esi := esi,
        edi := edi, ebp := ebp } }
  | resumed {k} : Does .sigreturn k (sigreturn k).1
  | segment {k} (entry base limit flags : BitVec 32) (out : Stores) :
    Does (.setThreadArea entry base limit flags out) k
      (setProc { k with tls := ⟨base, limit.setWidth 20, flags⟩ } k.current
        { cur k with tls := ⟨base, limit.setWidth 20, flags⟩ })
  | signalled {k} (pid sig : BitVec 32) : Does (.kill pid sig) k (procSignalSend k pid sig.toInt).1
  | refused {c k} (child : Fin 8) (h : freeSlot k = some child) :
    Does c k (allocFailed k child (cur k).pid)
  | dropped {c k} (child : Fin 8) (sp ns : Nat) (m : UserMem) (h : freeSlot k = some child)
    (hn : k.nextSpace ≤ ns) : Does c k (procReap (begun k child sp ns m) child)
  | forked {c k} (child : Fin 8) (sp ns : Nat) (m : UserMem) (x : Context) (tls : Tls)
    (thread : Bool) (h : freeSlot k = some child) (hx : Begets k x tls) (hp : Placed k sp ns thread)
    (hc : isFork c = true) :
    Does c k (finishChild (ownTable (begun k child sp ns m) child) child x tls thread).1
  | shared {c k} (child : Fin 8) (sp ns t : Nat) (m : UserMem) (x : Context) (tls : Tls)
    (thread : Bool) (h : freeSlot k = some child) (ht : (cur k).fdState = some t)
    (hx : Begets k x tls) (hp : Placed k sp ns thread) (hc : isFork c = true) :
    Does c k
    (finishChild (fdstateShare (begun k child sp ns m) child k.current t) child x tls thread).1
  | settled {c k} : Does c k (reapReported k)
  | waited {c k} (want : Int) (i : Fin 8) (h : findZombieChild k want = some i) :
    Does c k (procReap k i)

abbrev Parts (c : Call) : Machine → Machine → Prop := Relation.ReflTransGen (Does c)

variable {c : Call} {k k' : Machine} {w : World}

theorem sigreturn_eq (k : Machine) :
    ∃ sig f, (sigreturn k).1 =
    { setProc k k.current { cur k with sig := sig } with frame := f } := by
  simp only [sigreturn]
  split
  · refine ⟨(cur k).sig, k.frame, ?_⟩
    simp only [setProc, cur, Function.update_eq_self]
  · split
    · exact ⟨_, k.frame, rfl⟩
    · exact ⟨_, _, rfl⟩

theorem createPipe_eq (k : Machine) : ∃ ps, createPipe k = { k with pipes := ps } := by
  rw [createPipe]
  split
  · exact ⟨k.pipes, rfl⟩
  · exact ⟨_, rfl⟩

theorem Does.parts (h : Does c k k') : Parts c k k' := .single h

theorem pokes_parts (h : Pokes k k') : Parts c k k' := by
  obtain ⟨m, rfl⟩ := h
  exact (Does.stored m).parts

theorem fsStep_parts (x : FsCall) (hp : ∀ ok, x ≠ .pipe ok) (hw : ∀ fd bufs, x ≠ .writev fd bufs) :
    Parts c k (fsStep k w x).1 :=
  (Does.filed _ fun _ => fsCall_effect x hp hw).parts

theorem readConsole_parts (fd : Int) (buf count : BitVec 32) :
    Parts c k (readConsole k fd buf count).1 := by
  rw [readConsole]
  split
  · exact .refl
  rename_i x rest hk
  have hkeys : { k with keys := rest } = { k with keys := k.keys.tail } := by rw [hk]; rfl
  rw [hkeys]
  exact Does.keyed.parts.trans (pokes_parts (poke_pokes ..))

theorem took_parts (h : Pokes k k1) (hu : (k.pipes j).used = true) (n : Nat) :
    Parts c k1 (pipeRead (logHanded k1 j (front k j n)) j n).1 := by
  obtain ⟨m, rfl⟩ := h
  have hu' : (({ k with mem := m } : Machine).pipes j).used = true := hu
  exact (Does.took j n hu').parts

theorem readPipe_parts (hu : (k.pipes j).used = true) (fd : Int) (buf count : BitVec 32) :
    Parts c k (readPipe k j fd buf count).1 := by
  have hpoke := poke_pokes k buf (front k j count.toNat)
  have htook := (pokes_parts hpoke).trans (took_parts (c := c) hpoke hu count.toNat)
  simp only [readPipe]
  split
  · exact htook
  refine htook.trans (Does.answered _ ?_ rfl).parts
  rw [BitVec.toNat_ofNat, Nat.mod_eq_of_lt]
  rw [front_length]
  exact lt_of_le_of_lt (Nat.min_le_left _ _) count.isLt

theorem doRead_parts (fd : Int) (buf count : BitVec 32) (out : Stores) :
    Parts c k (doRead k w fd buf count out).1 := by
  rw [doRead]
  split
  · exact .refl
  split
  · exact .refl
  split
  · exact .refl
  split
  · exact .refl
  · exact readConsole_parts fd buf count
  · exact readConsole_parts fd buf count
  · split
    · exact .refl
    rename_i hj
    exact readPipe_parts (pipeValid_some hj).2 fd buf count
  · refine (fsStep_parts _ ?_ ?_).trans (pokes_parts (pokeAll_pokes _ out))
    · exact fun _ => (by simp)
    · exact fun _ _ => (by simp)

theorem doReadv_parts (fd : Int) (out : Stores) (parts : List (BitVec 32 × BitVec 32))
    (total : BitVec 32) (k : Machine) : Parts c k (doReadv w fd out parts total k).1 := by
  induction parts generalizing total k with
  | nil => exact .refl
  | cons part parts ih =>
    obtain ⟨buf, len⟩ := part
    have hone : Parts c k (doRead k w fd buf len out).1 := doRead_parts fd buf len out
    simp only [doReadv]
    split
    · rename_i k' v heq
      rw [heq] at hone
      split
      · exact hone
      split
      · exact hone
      · exact hone.trans (ih _ _)
    all_goals
      rename_i heq
      rw [heq] at hone
      exact hone

theorem writePipe_parts {id n : Nat} {bs : List (BitVec 8)} (h : writePipe k id bs = some (k', n)) :
    Parts c k k' := by
  obtain ⟨j, hv, hj⟩ := Option.map_eq_some_iff.mp h
  have hk : (pipeWrite k j bs).1 = k' := congrArg Prod.fst hj
  exact hk ▸ (Does.wrote j bs (pipeValid_some hv).2).parts

theorem doWrite_parts (fd : Int) (buf count : BitVec 32) :
    Parts c k (doWrite k w fd buf count).1 := by
  rw [doWrite]
  split
  · exact .refl
  split
  · exact .refl
  split
  · exact .refl
  split
  · split
    · exact .refl
    rename_i hw
    exact writePipe_parts hw
  · exact fsStep_parts _ (fun _ => by simp) fun _ _ => (by simp)

theorem doWritev_parts (fd : Int) (parts : List (BitVec 32 × BitVec 32)) (total : BitVec 32)
    (k : Machine) : Parts c k (doWritev w fd parts total k).1 := by
  induction parts generalizing total k with
  | nil => exact .refl
  | cons part parts ih =>
    simp only [doWritev]
    split
    · exact doWrite_parts fd _ _
    · exact (doWrite_parts fd _ _).trans (ih _ _)

theorem kept_parts {s : Sys} (h : ∀ D, Kept D (files k) s) : Parts c k (setFiles k s) :=
  (Does.filed (answer s 0) fun D => .answer (h D) 0).parts

theorem sendPipe_parts (id : Nat) (slot : Int) (fuel total : Nat) (k : Machine) (off : BitVec 32)
    (count : Nat) : Parts c k (sendPipe w id slot fuel total k off count).1 := by
  induction fuel generalizing total k off with
  | zero => exact .refl
  | succ fuel ih =>
    have htouch : Parts c k { k with ram := fsReadAtTouch k.ram slot off.toNat (w.clock fuel) } :=
      kept_parts fun _ => .of_ram (quiet_keeps (.readAt _ _ 0 _) rfl)
    simp only [sendPipe]
    split
    · exact .refl
    split
    · exact htouch
    split
    · exact htouch
    rename_i hw
    have hwrote := htouch.trans (writePipe_parts hw)
    split
    · exact hwrote
    · exact hwrote.trans (ih ..)

theorem setOffset_parts (fd : Int) (off : BitVec 32) :
    Parts c k { k with fds := userFdSetOffset k.fds fd off } :=
  kept_parts fun D => .offset D (files k) fd off

theorem doSendfile_parts (out inp : Int) (offset : Option (Option (BitVec 32 × BitVec 32)))
    (count : Nat) : Parts c k (doSendfile k w out inp offset count).1 := by
  have hfile :=
    fsStep_parts (c := c) (k := k) (w := w) (.sendfile out inp (offset.map (Option.map Prod.snd)) count)
    (fun _ => by simp) fun _ _ => (by simp)
  rw [doSendfile]
  split
  · exact hfile
  rename_i i _
  split
  · simp only
    split
    · exact .refl
    split
    · exact .refl
    · rename_i a off
      have hsend := sendPipe_parts (c := c) (w := w) (k.fds i).pipeId
        (userFdSlot (entries k.fds) inp) count 0 k off count
      split
      · rename_i heq
        rw [heq] at hsend
        exact hsend
      · rename_i heq
        rw [heq] at hsend
        exact hsend.trans (pokes_parts (poke_pokes ..))
    · have hsend := sendPipe_parts (c := c) (w := w) (k.fds i).pipeId
        (userFdSlot (entries k.fds) inp) count 0 k (userFdOffset k.fds inp) count
      split
      · rename_i heq
        rw [heq] at hsend
        exact hsend
      · rename_i heq
        rw [heq] at hsend
        exact hsend.trans (setOffset_parts _ _)
  · exact hfile

theorem scanEntry_pokes (k : Machine) (a : BitVec 32) : Pokes k (scanEntry k a).1 :=
  poke_pokes k _ _

theorem pollScan_pokes (ptr : BitVec 32) (ns : List Nat) (k : Machine) :
    Pokes k (pollScan ptr ns k).1 := by
  induction ns generalizing k with
  | nil => exact Pokes.refl k
  | cons n ns ih => exact (scanEntry_pokes k _).trans (ih _)

theorem doPoll_parts (ptr nfds timeout : BitVec 32) : Parts c k (doPoll k ptr nfds timeout).1 := by
  rw [doPoll]
  split
  · exact .refl
  split
  · exact .refl
  have hscan := pollScan_pokes ptr (List.range nfds.toNat) k
  simp only
  split
  · exact pokes_parts hscan
  · exact pokes_parts hscan

section

variable {child : Fin 8} {sp : Nat}

theorem procAlloc_self (k : Machine) (child : Fin 8) (ppid : Nat) :
    (procAlloc k child ppid).procs child = newProc k ppid := setProc_self

theorem cowSpace_begun (k : Machine) (child : Fin 8) (sp : Nat) : cowSpace
      (procAlloc k child (cur k).pid) child sp = begun k child k.nextSpace (k.nextSpace + 1)
      (withSpace k.mem k.nextSpace (k.mem.frame sp) (k.mem.apart sp)) := by
  simp only [cowSpace, begun, procAlloc_self]
  simp only [procAlloc, setProc, update_idem]

theorem cloneSpace_begun (flags : BitVec 32) (child : Fin 8) (hs : (cur k).space = some sp) :
    ∃ sp' ns m, cloneSpace (procAlloc k child (cur k).pid) flags child sp = begun k child sp' ns m ∧
      Placed k sp' ns (hasFlag flags cloneVm) := by
  rw [cloneSpace]
  by_cases hv : hasFlag flags cloneVm = true
  · refine ⟨sp, k.nextSpace, k.mem, ?_, Nat.le_refl _, ?_⟩
    · rw [if_pos hv]
      simp only [begun, procAlloc_self]
      simp only [procAlloc, setProc, update_idem]
    · rw [if_pos hv]
      exact hs
  · refine ⟨k.nextSpace, k.nextSpace + 1, withSpace k.mem k.nextSpace (k.mem.frame sp)
      (k.mem.apart sp), ?_, Nat.le_succ _, ?_⟩
    · rw [if_neg hv]
      exact cowSpace_begun k child sp
    · rw [if_neg hv]
      exact ⟨Nat.le_refl _, Nat.lt_succ_self _⟩

section

variable (k) (child)

theorem procReap_begun :
    procReap (procAlloc k child (cur k).pid) child = procReap
    (begun k child 0 k.nextSpace k.mem) child := by
  have hlost : setProc (procAlloc k child (cur k).pid) child
      { (procAlloc k child (cur k).pid).procs child with space := none } =
      setProc (begun k child 0 k.nextSpace k.mem) child
        { (begun k child 0 k.nextSpace k.mem).procs child with space := none } := by
    have hb :
      (begun k child 0 k.nextSpace k.mem).procs child = { newProc k (cur k).pid with space := some 0 } :=
      setProc_self
    rw [procAlloc_self, hb]
    simp only [begun, procAlloc, setProc, update_idem]
  have hu : ((procAlloc k child (cur k).pid).procs child).used = true := by
    rw [procAlloc_self]
    rfl
  have hu' : ((begun k child 0 k.nextSpace k.mem).procs child).used = true := by
    have hb :
      (begun k child 0 k.nextSpace k.mem).procs child = { newProc k (cur k).pid with space := some 0 } :=
      setProc_self
    rw [hb]
    rfl
  rw [procReap, procReap, if_pos hu, if_pos hu', hlost]

theorem ownTable_frame : (ownTable k child).frame = k.frame :=
  (retain_rang (fdstateAlloc k child) k.fds).frame

theorem ownTable_tls : (ownTable k child).tls = k.tls :=
  (retain_rang (fdstateAlloc k child) k.fds).tls

end

section

variable (hf : k1.frame = k.frame) (ht : k1.tls = k.tls)
include hf ht

theorem begets_fork : Begets k (forkCtx k1) k1.tls := by
  have hx : forkCtx k1 = forkCtx k := by rw [forkCtx, forkCtx, hf]
  rw [hx, ht]
  exact ⟨rfl, .inl ⟨rfl, .inr rfl, rfl⟩⟩

theorem begets_clone (flags stack base : BitVec 32) :
    Begets k (cloneCtx k1 flags stack) (cloneTls k1 flags base) := by
  have hx : cloneCtx k1 flags stack = cloneCtx k flags stack := by rw [cloneCtx, cloneCtx, hf]
  have hl : cloneTls k1 flags base = cloneTls k flags base := by rw [cloneTls, cloneTls, ht]
  rw [hx, hl]
  refine ⟨rfl, ?_⟩
  by_cases hs : hasFlag flags cloneSettls = true
  · refine .inr ⟨⟨base, ?_⟩, rfl, ?_⟩
    · rw [cloneTls, if_pos hs]
    · simp only [cloneCtx, if_pos hs]
  · refine .inl ⟨?_, .inl rfl, ?_⟩
    · rw [cloneTls, if_neg hs]
    · simp only [cloneCtx, if_neg hs]

end

theorem begun_table {ns t : Nat} {m : UserMem}
    (h : (cur (begun k child sp ns m)).fdState = some t) : (cur k).fdState = some t := by
  by_cases hc : k.current = child
  · have hp : cur (begun k child sp ns m) = { newProc k (cur k).pid with space := some sp } := by
      subst hc
      exact setProc_self
    rw [hp] at h
    exact absurd h (by simp [newProc, emptyProc])
  · have hp : cur (begun k child sp ns m) = cur k := setProc_ne hc
    rw [← hp]
    exact h

theorem begets_own_fork (child : Fin 8) (sp ns : Nat) (m : UserMem) :
    Begets k (forkCtx (ownChild k child sp ns m)) (ownChild k child sp ns m).tls :=
  begets_fork (ownTable_frame (begun k child sp ns m) child)
    (ownTable_tls (begun k child sp ns m) child)

theorem doFork_parts (hc : isFork c = true) (short : Option Shortage) :
    Parts c k (doFork k short).1 := by
  rw [doFork]
  split
  · exact .refl
  rename_i child hfree
  split
  · exact (Does.refused child hfree).parts
  split
  · rw [procReap_begun]
    exact (Does.dropped child _ _ _ hfree (Nat.le_refl _)).parts
  simp only [cowSpace_begun]
  split
  · rw [procReap_begun]
    exact (Does.dropped child _ _ _ hfree (Nat.le_refl _)).parts
  split
  · exact (Does.dropped child _ _ _ hfree (Nat.le_succ _)).parts
  have hp : Placed k k.nextSpace (k.nextSpace + 1) false :=
    ⟨Nat.le_succ _, Nat.le_refl _, Nat.lt_succ_self _⟩
  exact (Does.forked child _ _ _ _ _ _ hfree (begets_own_fork child ..) hp hc).parts

theorem tellTids_pokes (k : Machine) (flags ptid ctid : BitVec 32) (child : Fin 8) :
    Pokes k (tellTids k flags ptid ctid child) := by
  have hfirst : ∀ v, Pokes k (if ptid ≠ 0#32 ∧ userPtrOk ptid.toNat 4 then pokeCur k ptid v
    else k) := by
    intro v
    split
    · exact poke_pokes k _ _
    · exact .refl k
  simp only [tellTids]
  split
  · split
    · exact (hfirst _).trans (poke_pokes ..)
    · exact (hfirst _).trans (storeFor_pokes ..)
  · exact hfirst _

theorem doClone_parts (hc : isFork c = true) (flags stack ptid tls ctid : BitVec 32)
    (short : Option Shortage) : Parts c k (doClone k flags stack ptid tls ctid short).1 := by
  rw [doClone]
  split
  · exact .refl
  rename_i child hfree
  split
  · exact (Does.refused child hfree).parts
  split
  · rw [procReap_begun]
    exact (Does.dropped child _ _ _ hfree (Nat.le_refl _)).parts
  rename_i sp hsp
  obtain ⟨sp', ns, m, hb, hp⟩ := cloneSpace_begun flags child hsp
  simp only [hb]
  split
  · rw [procReap_begun]
    exact (Does.dropped child _ _ _ hfree (Nat.le_refl _)).parts
  split
  · exact (Does.dropped child _ _ _ hfree hp.1).parts
  rw [cloneTable]
  split
  · exact (Does.dropped child _ _ _ hfree hp.1).parts
  rename_i c1 hsome
  refine Relation.ReflTransGen.trans ?_ (pokes_parts (tellTids_pokes ..))
  split at hsome
  · obtain ⟨t, ht, rfl⟩ := Option.map_eq_some_iff.mp hsome
    have hx : Begets k (cloneCtx (fdstateShare (begun k child sp' ns m) child k.current t) flags stack)
        (cloneTls (fdstateShare (begun k child sp' ns m) child k.current t) flags tls) :=
      begets_clone rfl rfl flags stack tls
    exact (Does.shared child sp' ns t m _ _ _ hfree (begun_table ht) hx hp hc).parts
  · cases hsome
    have hx : Begets k (cloneCtx (ownTable (begun k child sp' ns m) child) flags stack)
        (cloneTls (ownTable (begun k child sp' ns m) child) flags tls) :=
      begets_clone (k := k) (ownTable_frame (begun k child sp' ns m) child)
        (ownTable_tls (begun k child sp' ns m) child) flags stack tls
    exact (Does.forked child sp' ns m _ _ _ hfree hx hp hc).parts

end

theorem findZombieChild_pokes (h : Pokes k k') (want : Int) :
    findZombieChild k' want = findZombieChild k want := by
  obtain ⟨m, rfl⟩ := h
  rfl

theorem findZombieChild_some (h : findZombieChild k want = some i) :
    isChild k want (k.procs i) = true ∧ (k.procs i).state = .zombie := by
  have hp := List.find?_some h
  simpa using hp

theorem zombieChild_spec (h : findZombieChild k want = some i) :
    ((k.procs i).used = true ∧ (k.procs i).ppid = (cur k).pid) ∧ (k.procs i).state = .zombie := by
  obtain ⟨hch, hz⟩ := findZombieChild_some h
  simp only [isChild, Bool.and_eq_true, beq_iff_eq] at hch
  exact ⟨hch.1, hz⟩

def forget (k : Machine) : Machine := setProc k k.current { cur k with lastWaitPid := 0 }

inductive Settled (k : Machine) : Machine → Prop
  | none (h : (cur k).lastWaitPid = 0) : Settled k k
  | kept (h : ∀ i, procFind k (cur k).lastWaitPid = some i → (k.procs i).state ≠ .zombie) :
    Settled k (forget k)
  | reaped (i : Fin 8) (h : procFind k (cur k).lastWaitPid = some i)
    (hz : (k.procs i).state = .zombie) : Settled k (forget (procReap k i))

theorem reapReported_settled (k : Machine) : Settled k (reapReported k) := by
  rw [reapReported]
  split
  · rename_i h
    exact .none h
  split
  · rename_i h
    exact .kept fun i hi => by cases h.symm.trans hi
  rename_i i hi
  split
  · rename_i hz
    exact .reaped i hi hz
  rename_i hz
  refine .kept fun j hj => ?_
  rw [← Option.some.inj (hi.symm.trans hj)]
  exact hz

theorem reapReported_cases (k : Machine) : reapReported k = k ∨ reapReported k = forget k ∨
    ∃ i, procFind k (cur k).lastWaitPid = some i ∧ (k.procs i).state = .zombie ∧
    reapReported k = forget (procReap k i) := by
  have hset := reapReported_settled k
  generalize reapReported k = k1 at hset
  cases hset with
  | none => exact .inl rfl
  | kept => exact .inr (.inl rfl)
  | reaped i h hz => exact .inr (.inr ⟨i, h, hz, rfl⟩)

theorem running_ne (hr : (cur k).state = .running) (hz : (k.procs i).state = .zombie) :
    k.current ≠ i := by
  intro he
  rw [cur, he, hz] at hr
  cases hr

theorem waitOr_parts (want : Int) (nohang : Bool) (r : Request) :
    Parts c k (waitOr k want nohang r).1 := by
  rw [waitOr]
  split
  · exact .refl
  split
  · exact .refl
  · exact .refl

theorem waited_parts {want : Int} (hk : Pokes k k1) (h : findZombieChild k want = some i) :
    Parts c k (procReap k1 i) := by
  refine (pokes_parts hk).trans (Does.waited want i ?_).parts
  rw [findZombieChild_pokes hk]
  exact h

theorem doWait4_parts (pid status options : BitVec 32) :
    Parts c k (doWait4 k pid status options).1 := by
  rw [doWait4]
  split
  · exact .refl
  refine Does.settled.parts.trans ?_
  simp only
  split
  · rename_i i hi
    refine waited_parts ?_ hi
    split
    · exact .refl _
    · exact poke_pokes ..
  · exact waitOr_parts ..

theorem doWaitid_parts (idtype id infop options : BitVec 32) :
    Parts c k (doWaitid k idtype id infop options).1 := by
  rw [doWaitid]
  split
  · exact .refl
  refine (pokes_parts (poke_pokes k infop (List.replicate 128 0#8))).trans
    (Does.settled.parts.trans ?_)
  simp only
  split
  · rename_i i hi
    exact waited_parts (poke_pokes ..) hi
  · exact waitOr_parts ..

theorem self_parts (p : Proc) (h : outer p = outer (cur k)) (hs : p.sig = (cur k).sig) :
    Parts c k (setProc k k.current p) := (Does.self p h (.inl hs)).parts

section

variable (hc : isSignal c = true)
include hc

theorem setSignals_parts (s : Signals) : Parts c k (setSignals k s) :=
  (Does.self { cur k with sig := s } rfl (.inr hc)).parts

theorem setAction_parts {sig handler flags restorer old : BitVec 32}
    (h : setAction k sig handler flags restorer = some (k', old)) : Parts c k k' := by
  rw [setAction] at h
  split at h
  · cases h
  obtain ⟨rfl, -⟩ := Prod.mk.inj (Option.some.inj h)
  exact setSignals_parts hc _

theorem doSignal_parts (sig handler : BitVec 32) : Parts c k (doSignal k sig handler).1 := by
  rw [doSignal]
  split
  · exact .refl
  rename_i h
  exact setAction_parts hc h

theorem doSigaction_parts (sig handler flags restorer : BitVec 32) (out : Stores) :
    Parts c k (doSigaction k sig handler flags restorer out).1 := by
  have hp := pokes_parts (c := c) (pokeAll_pokes k out)
  rw [doSigaction]
  split
  · exact hp
  rename_i h
  exact hp.trans (setAction_parts hc h)

theorem doSigprocmask_parts (how set : BitVec 32) (out : Stores) :
    Parts c k (doSigprocmask k how set out).1 := by
  have hp := pokes_parts (c := c) (pokeAll_pokes k out)
  simp only [doSigprocmask]
  repeat' split
  all_goals first | exact hp.trans (setSignals_parts hc _) | exact hp

theorem doSigsuspend_parts (mask : Option (BitVec 32)) : Parts c k (doSigsuspend k mask).1 := by
  simp only [doSigsuspend.eq_def]
  cases mask with
  | none =>
    simp only
    split
    · exact .refl
    · exact .refl
  | some v =>
    simp only
    split
    · exact setSignals_parts hc _
    · exact setSignals_parts hc _

end

section

variable (hc : isBreak c = true)
include hc

theorem doBrk_parts (addr : BitVec 32) : Parts c k (doBrk k addr).1 := by
  simp only [doBrk]
  split
  · exact .refl
  split
  · exact .refl
  · exact (Does.moved _ hc).parts

theorem imageBrk_parts (imageEnd : Nat) :
    Parts c k { k with brk := (imageBrk imageEnd).or k.brk } := by
  cases imageBrk imageEnd with
  | none => exact .refl
  | some b => exact (Does.moved b hc).parts

theorem doExecve_parts (e : Exec) : Parts c k (doExecve k e).1 := by
  cases e with
  | refused code out => exact pokes_parts (pokeAll_pokes k out)
  | noRoom imageEnd out =>
    exact (imageBrk_parts hc imageEnd).trans (pokes_parts (pokeAll_pokes _ out))
  | entered imageEnd entry sp out =>
    obtain ⟨m, hm⟩ := pokeAll_pokes { k with brk := (imageBrk imageEnd).or k.brk, active := true } out
    simp only [doExecve, hm]
    refine (imageBrk_parts hc imageEnd).trans ((Does.stored m).parts.trans ?_)
    exact (Does.jumped entry sp 0#32 0#32 0#32 0#32 0#32 0#32).parts

end

theorem sysCall_parts (c : Call) : Parts c k (sysCall k c).1 := by
  cases c with
  | fs x w out =>
    simp only [sysCall, plainCall]
    split
    · rename_i hplain
      refine (fsStep_parts x ?_ ?_).trans (pokes_parts (pokeAll_pokes _ out))
      · rintro ok rfl
        cases hplain
      · rintro fd bufs rfl
        cases hplain
    · exact .refl
  | pipe ptr w out =>
    simp only [sysCall, Calls.doPipe]
    split
    · exact .refl
    · exact (Does.piped _ ⟨w, rfl⟩ rfl).parts.trans (pokes_parts (pokeAll_pokes _ out))
  | read fd buf count w out => exact doRead_parts _ buf count out
  | readv fd parts w out => exact doReadv_parts _ out parts _ k
  | write fd buf count w => exact doWrite_parts _ buf count
  | writev fd parts w => exact doWritev_parts _ parts _ k
  | sendfile out inp offset count w => exact doSendfile_parts _ _ offset _
  | poll ptr nfds timeout => exact doPoll_parts ptr nfds timeout
  | fork short => exact doFork_parts rfl short
  | clone flags stack ptid tls ctid short => exact doClone_parts rfl flags stack ptid tls ctid short
  | wait4 pid status options => exact doWait4_parts pid status options
  | waitid idtype id infop options => exact doWaitid_parts idtype id infop options
  | kill pid sig => exact (Does.signalled pid sig).parts
  | signal sig handler => exact doSignal_parts rfl sig handler
  | sigaction sig handler flags restorer out =>
    exact doSigaction_parts rfl sig handler flags restorer out
  | sigprocmask how set out => exact doSigprocmask_parts rfl how set out
  | sigsuspend mask => exact doSigsuspend_parts rfl mask
  | sigreturn =>
    simp only [sysCall, doSigreturn]
    split
    · exact Does.resumed.parts
    · exact Does.resumed.parts
  | alarm sec =>
    simp only [sysCall, doAlarm]
    split
    · exact .refl
    · exact self_parts _ rfl rfl
  | setuid uid =>
    simp only [sysCall, doSetuid]
    split
    · exact .refl
    · exact self_parts _ rfl rfl
  | setgid gid =>
    simp only [sysCall, doSetgid]
    split
    · exact .refl
    · exact self_parts _ rfl rfl
  | brk addr => exact doBrk_parts rfl addr
  | mmap len bad out =>
    simp only [sysCall, doMmapAnon]
    split
    · exact .refl
    split
    · exact (Does.moved _ rfl).parts.trans (pokes_parts (pokeAll_pokes _ out))
    · exact (Does.moved _ rfl).parts.trans (pokes_parts (pokeAll_pokes _ out))
  | setThreadArea entry base limit flags out =>
    simp only [sysCall, doSetThreadArea]
    split
    · exact .refl
    · exact (Does.segment entry base limit flags out).parts.trans (pokes_parts (pokeAll_pokes _ out))
  | execve e => exact doExecve_parts rfl e
  | getdents fd offset v out =>
    exact (setOffset_parts _ _).trans (pokes_parts (pokeAll_pokes _ out))
  | sleep => exact .refl
  | other v out => exact pokes_parts (pokeAll_pokes k out)

end MuOS.Kernel.Prims
