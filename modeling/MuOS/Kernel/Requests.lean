import Mathlib.Algebra.Order.BigOperators.Group.List
import Mathlib.Algebra.Order.Ring.Nat
import MuOS.Kernel.Wakers

namespace MuOS.Kernel.Requests

open Function Prod User Descriptors Window State Wake Sched Calls Stir
open Prims ProcTable Step Phases Layout Wakers List

inductive Blocks (k : Machine) : Request → Prop
  | console (fd : Int) (buf count : BitVec 32) (n : Fin 11) (hn : descIndex fd = some n)
    (hk : (k.fds n).kind = .stdin ∨ (k.fds n).kind = .devConsole) (hc : count ≠ 0#32)
    (hp : userPtrOk buf.toNat count.toNat = true) (he : k.keys = []) :
    Blocks k ⟨.read, buf, count.toInt, 0#32, false, fd⟩
  | pipe (fd : Int) (buf count : BitVec 32) (n : Fin 11) (j : Fin 8) (hn : descIndex fd = some n)
    (hk : (k.fds n).kind = .pipeRead) (hj : pipeValid k (k.fds n).pipeId = some j)
    (hc : count ≠ 0#32) (hp : userPtrOk buf.toNat count.toNat = true)
    (he : (k.pipes j).ring.count = 0) (hw : 0 < (k.pipes j).writers) :
    Blocks k ⟨.read, buf, count.toInt, 0#32, false, fd⟩
  | poll (ptr nfds deadline : BitVec 32) (hasDeadline : Bool) (hn : nfds.toNat ≤ 1024) :
    Blocks k ⟨.poll, ptr, nfds.toInt, deadline, hasDeadline, -1⟩
  | sigsusp : Blocks k ⟨.sigsusp, 0#32, 0, 0#32, false, -1⟩
  | wait4 (pid status : BitVec 32) (hp : status ≠ 0#32 → userPtrOk status.toNat 4 = true) :
    Blocks k ⟨.wait4, status, pid.toInt, 0#32, false, -1⟩
  | waitid (want : Int) (infop : BitVec 32) (hp : userPtrOk infop.toNat 128 = true) :
    Blocks k ⟨.waitid, infop, want, 0#32, false, -1⟩

variable {k k' k1 : Machine} {c : Call} {w : World} {r : Request} {o : Otherwise}
  {a : Act} {fl : Flow}

theorem dropFront_count (k : Machine) (j l : Fin 8) (n : Nat) :
    ((dropFront k j n).pipes l).ring.count ≤ (k.pipes l).ring.count := by
  by_cases hl : l = j
  · subst hl
    have he : (dropFront k l n).pipes l =
        { k.pipes l with ring := (k.pipes l).ring.drop pipeSize (min n (k.pipes l).ring.count) } :=
        update_self ..
    rw [he]
    exact Nat.sub_le _ _
  · have he : (dropFront k j n).pipes l = k.pipes l := update_of_ne hl ..
    rw [he]

theorem Wakens.count (h : Wakens k k') (l : Fin 8) :
    (k'.pipes l).ring.count ≤ (k.pipes l).ring.count := by
  induction h with
  | refl => exact le_rfl
  | tail _ hs ih =>
    refine le_trans ?_ ih
    cases hs with
    | drained j n => exact dropFront_count _ j l n
    | _ => exact le_rfl

theorem readPipe_blocks {j : Fin 8} {fd : Int} {buf count : BitVec 32} {n : Fin 11}
    (hn : descIndex fd = some n) (hk : (k.fds n).kind = .pipeRead)
    (hj : pipeValid k (k.fds n).pipeId = some j) (hc : count ≠ 0#32)
    (hp : userPtrOk buf.toNat count.toNat = true)
    (h : readPipe k j fd buf count = (k', .block r o)) : Blocks k' r := by
  simp only [readPipe] at h
  split at h
  · rename_i he
    obtain ⟨rfl, hb⟩ := mk.inj h
    cases hb
    have hpk := (poke_pokes k buf (front k j count.toNat)).woke
    have hwoke := hpk.trans (took_woke _ j count.toNat (front k j count.toNat))
    refine .pipe fd buf count n j hn ?_ ?_ hc hp ?_ he.2
    · rw [hwoke.fds]
      exact hk
    · rw [hwoke.fds, hwoke.pipeValid]
      exact hj
    have hempty : (k.pipes j).ring.count = 0 := by
      have hlen := front_length k j count.toNat
      rw [he.1, length_nil] at hlen
      have hpos : count.toNat ≠ 0 := fun h0 => hc (BitVec.eq_of_toNat_eq h0)
      omega
    have hle := (Wakens.count (procNotify_wakens _) j).trans
      (dropFront_count (logHanded (pokeCur k buf (front k j count.toNat)) j (front k j count.toNat))
      j j count.toNat)
    have hsame :
      ((logHanded (pokeCur k buf (front k j count.toNat)) j (front k j count.toNat)).pipes j) =
      k.pipes j := by
      obtain ⟨m, hm⟩ := poke_pokes k buf (front k j count.toNat)
      rw [hm]
      rfl
    rw [hsame, hempty] at hle
    exact Nat.le_zero.mp hle
  · cases (mk.inj h).2

theorem doRead_blocks {fd : Int} {buf count : BitVec 32} {out : Stores}
    (h : doRead k w fd buf count out = (k', .block r o)) : Blocks k' r := by
  have hret : ∀ {k1 : Machine} {v : BitVec 32}, (k1, Flow.ret v) = (k', Flow.block r o) →
    Blocks k' r :=
    fun he => Calls.Flow.noConfusion (mk.inj he).2
  have hconsole : ∀ n, descIndex fd = some n → (k.fds n).kind = .stdin ∨
      (k.fds n).kind = .devConsole → count ≠ 0#32 →
      userPtrOk buf.toNat count.toNat = true → readConsole k fd buf count = (k', .block r o) →
      Blocks k' r := by
    intro n hn hk hc hp he
    simp only [readConsole] at he
    split at he
    · rename_i hkeys
      obtain ⟨rfl, hb⟩ := mk.inj he
      cases hb
      exact .console fd buf count n hn hk hc hp hkeys
    · exact hret he
  simp only [doRead, failWith] at h
  split at h
  · exact hret h
  rename_i hc
  split at h
  · exact hret h
  rename_i hp
  have hp' : userPtrOk buf.toNat count.toNat = true := by simpa using hp
  split at h
  · exact hret h
  rename_i n hn
  split at h
  · exact hret h
  · rename_i hk
    exact hconsole n hn (.inl hk) hc hp' h
  · rename_i hk
    exact hconsole n hn (.inr hk) hc hp' h
  · rename_i hk
    split at h
    · exact hret h
    rename_i j hj
    exact readPipe_blocks hn hk hj hc hp' h
  · exact hret h

theorem doReadv_blocks {fd : Int} {out : Stores} (parts : List (BitVec 32 × BitVec 32))
    (total : BitVec 32) (k : Machine) (h : doReadv w fd out parts total k = (k', .block r o)) :
    Blocks k' r := by
  induction parts generalizing total k with
  | nil => cases (mk.inj h).2
  | cons part parts ih =>
    obtain ⟨buf, len⟩ := part
    simp only [doReadv] at h
    split at h
    · split at h
      · cases (mk.inj h).2
      split at h
      · cases (mk.inj h).2
      · exact ih _ _ h
    · rename_i k1 r1 v hd
      obtain ⟨rfl, hb⟩ := mk.inj h
      cases hb
      exact doRead_blocks hd
    · rename_i k1 r1 hd
      obtain ⟨rfl, hb⟩ := mk.inj h
      cases hb
      exact doRead_blocks hd
    · cases (mk.inj h).2

theorem doPoll_blocks {ptr nfds timeout : BitVec 32}
    (h : doPoll k ptr nfds timeout = (k', .block r o)) : Blocks k' r := by
  simp only [doPoll, failWith] at h
  split at h
  · cases (mk.inj h).2
  rename_i hn
  split at h
  · cases (mk.inj h).2
  split at h
  · cases (mk.inj h).2
  rename_i hz
  obtain ⟨rfl, hb⟩ := mk.inj h
  obtain ⟨rfl, -⟩ := Flow.block.inj hb
  exact .poll ptr nfds _ _ (Nat.not_lt.mp hn)

theorem waitOr_blocks {want : Int} {nohang : Bool} {q : Request}
    (h : waitOr k want nohang q = (k', .block r o)) : k' = k ∧ r = q := by
  simp only [waitOr, failWith] at h
  split at h
  · cases (mk.inj h).2
  split at h
  · cases (mk.inj h).2
  obtain ⟨rfl, hb⟩ := mk.inj h
  obtain ⟨rfl, -⟩ := Flow.block.inj hb
  exact ⟨rfl, rfl⟩

theorem doWait4_blocks {pid status options : BitVec 32}
    (h : doWait4 k pid status options = (k', .block r o)) : Blocks k' r := by
  simp only [doWait4, failWith] at h
  split at h
  · cases (mk.inj h).2
  rename_i hp
  split at h
  · cases (mk.inj h).2
  obtain ⟨rfl, rfl⟩ := waitOr_blocks h
  refine .wait4 pid status fun hne => ?_
  simpa [hne] using hp

theorem doWaitid_blocks {idtype id infop options : BitVec 32}
    (h : doWaitid k idtype id infop options = (k', .block r o)) : Blocks k' r := by
  simp only [doWaitid, failWith] at h
  split at h
  · cases (mk.inj h).2
  rename_i hp
  split at h
  · cases (mk.inj h).2
  obtain ⟨rfl, rfl⟩ := waitOr_blocks h
  exact .waitid _ infop (by simpa using hp)

theorem doSigsuspend_blocks {mask : Option (BitVec 32)}
    (h : doSigsuspend k mask = (k', .block r o)) : Blocks k' r := by
  have hend : ∀ k, (if signalPending k then failWith k eINTR else
      (k, .block ⟨.sigsusp, 0#32, 0, 0#32, false, -1⟩ .spin)) = (k', .block r o) → Blocks k' r := by
    intro k h
    split at h
    · cases (mk.inj h).2
    obtain ⟨-, hb⟩ := mk.inj h
    obtain ⟨rfl, -⟩ := Flow.block.inj hb
    exact .sigsusp
  cases mask with
  | none => exact hend k h
  | some v => exact hend _ h

theorem sysCall_returns (c : Call) (h : ∀ fd buf count w out, c ≠ .read fd buf count w out)
    (hv : ∀ fd parts w out, c ≠ .readv fd parts w out)
    (hp : ∀ ptr nfds timeout, c ≠ .poll ptr nfds timeout)
    (h4 : ∀ pid status options, c ≠ .wait4 pid status options)
    (hi : ∀ idtype id infop options, c ≠ .waitid idtype id infop options)
    (hs : ∀ mask, c ≠ .sigsuspend mask) : (∃ v, (sysCall k c).2 = .ret v) ∨
    (sysCall k c).2 = .spin := by
  cases c with
  | read fd buf count w out => exact absurd rfl (h fd buf count w out)
  | readv fd parts w out => exact absurd rfl (hv fd parts w out)
  | poll ptr nfds timeout => exact absurd rfl (hp ptr nfds timeout)
  | wait4 pid status options => exact absurd rfl (h4 pid status options)
  | waitid idtype id infop options => exact absurd rfl (hi idtype id infop options)
  | sigsuspend mask => exact absurd rfl (hs mask)
  | fs | pipe | fork | clone | signal | sigaction | sigprocmask | sigreturn | alarm | setuid
  | setgid | brk | mmap
  | setThreadArea =>
    simp only [sysCall, plainCall, Calls.doPipe, doFork, doClone, finishChild, doSignal,
      doSigaction, doSigprocmask, doSigreturn, doAlarm, doSetuid, doSetgid, doBrk, doMmapAnon,
      doSetThreadArea, failWith]
    repeat' split
    all_goals exact .inl ⟨_, rfl⟩
  | execve e => cases e <;> exact .inl ⟨_, rfl⟩
  | write | writev | sendfile | kill | getdents | other => exact .inl ⟨_, rfl⟩
  | sleep => exact .inr rfl

theorem sysCall_blocks (h : sysCall k c = (k', .block r o)) : Blocks k' r := by
  have hret : (∃ v, (sysCall k c).2 = .ret v) ∨ (sysCall k c).2 = .spin → Blocks k' r := by
    rw [h]
    rintro (⟨v, hv⟩ | hv)
    · cases hv
    · cases hv
  cases c with
  | read fd buf count w out => exact doRead_blocks h
  | readv fd parts w out => exact doReadv_blocks parts _ k h
  | poll ptr nfds timeout => exact doPoll_blocks h
  | wait4 pid status options => exact doWait4_blocks h
  | waitid idtype id infop options => exact doWaitid_blocks h
  | sigsuspend mask => exact doSigsuspend_blocks h
  | _ => exact hret (sysCall_returns _ (by simp) (by simp) (by simp) (by simp) (by simp) (by simp))

def Asking (k : Machine) : Prop := ∀ r o, k.phase = .blocking r o → Blocks k r

theorem takesIrq_ne {ph : Phase} (h : takesIrq ph = true) (r : Request) (o : Otherwise) :
    ph ≠ .blocking r o := by
  rintro rfl
  cases h

theorem after_asking (h : sysCall k c = (k1, fl)) : Asking (after k1 fl) := by
  intro r o hph
  cases fl with
  | ret | spin => cases hph
  | block r' o' =>
    cases hph
    -- the phase does not matter to what was found
    cases sysCall_blocks h with
    | console fd buf count n hn hk hc hp he => exact .console fd buf count n hn hk hc hp he
    | pipe fd buf count n j hn hk hj hc hp he hw => exact .pipe fd buf count n j hn hk hj hc hp he hw
    | poll ptr nfds deadline hasDeadline hn => exact .poll ptr nfds deadline hasDeadline hn
    | sigsusp => exact .sigsusp
    | wait4 pid status hp => exact .wait4 pid status hp
    | waitid want infop hp => exact .waitid want infop hp

theorem onward_ne (d : Delivery) {ph : Phase} (h : ∀ r o, ph ≠ .blocking r o) (r : Request)
    (o : Otherwise) : onward d ph ≠ .blocking r o := by
  cases d with
  | exit => rintro ⟨⟩
  | _ => exact h r o

theorem tickEnd_ne (k : Machine) (d : Delivery) (r : Request) (o : Otherwise) :
    tickEnd k d ≠ .blocking r o := by
  cases d with
  | handled =>
    simp only [tickEnd]
    split <;> simp
  | _ => rintro ⟨⟩

theorem instead_asking (o : Otherwise) : Asking (after k (instead o)) := by
  intro r o' hp
  cases o <;> cases hp

theorem stepped_asking (hs : Shape k) (h : Stepped k a k') : Asking k' := by
  have hnone : (∀ r o, k'.phase ≠ .blocking r o) → Asking k' :=
    fun hne r o hp => absurd hp (hne r o)
  cases h with
  | call c k1 fl hp hc => exact after_asking hc
  | compute _ _ _ hp | refuse _ _ hp | shell _ hp
  | shellKey hp => exact hnone fun _ _ h => by cases hp.symm.trans h
  | idle hp hn =>
    refine hnone fun r o h => ?_
    exact takesIrq_ne hp r o ((ticked_woke k).phase.symm.trans h)
  | key c hp =>
    refine hnone fun r o h => ?_
    exact takesIrq_ne hp r o ((typed_woke k c).phase.symm.trans h)
  | awake _ o | tableless _ o => exact instead_asking o
  | leave k1 d hp hd => exact hnone (onward_ne d fun _ _ => by simp)
  | alarm k1 d hp hd => exact hnone (onward_ne d (tickEnd_ne k1 d))
  | pick sys i hp hi => cases sys <;> exact hnone fun _ _ => by rintro ⟨⟩
  | launch frames l hp ha =>
    exact hs.launch_elim hp frames l (fun _ _ h => by cases hp.symm.trans h)
      (fun _ _ _ _ _ _ _ _ _ _ _ _ h => by cases hp.symm.trans h) fun _ _ _ _ _ _ _ _ h => by cases h
  | _ => exact hnone fun _ _ => by rintro ⟨⟩

end MuOS.Kernel.Requests
