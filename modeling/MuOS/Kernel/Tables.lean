import MuOS.Kernel.Calls
import MuOS.Kernel.Stir

namespace MuOS.Kernel.Tables

open Function Fs.RamFs User.Descriptors State Wake Sched Calls Stir List

def withCounts (k c : Machine) : Machine :=
  { k with ram := c.ram, pipes := fun j => { k.pipes j with writers := (c.pipes j).writers } }

def Rang (k k' : Machine) : Prop := Woke (withCounts k k') k'

variable {k k' k1 k2 : Machine}

theorem withCounts_stirred (h : Stirred k1 k') (k : Machine) :
    withCounts k k' = withCounts k k1 := by
  have hw : (fun j => { k.pipes j with writers := (k'.pipes j).writers }) =
      fun j => { k.pipes j with writers := (k1.pipes j).writers } := by
    funext j
    rw [h.writers]
  rw [withCounts, withCounts, h.ram, hw]

theorem Woke.withCounts (h : Woke k k') (c : Machine) :
    Woke (withCounts k c) (withCounts k' c) where
  rest := congrArg (fun k => Tables.withCounts k c) h.rest
  procs := h.procs
  last := h.last
  reads := h.reads
  polls := h.polls
  results := fun i hs hb hr => by
    obtain ⟨hn, hres⟩ := h.results i ⟨hs.waits, hs.space, hs.buffer, hs.table⟩ hb hr
    have hpast : Result (Tables.withCounts k c) k' i (k'.procs i).ctx.eax :=
      hres.earlier rfl rfl rfl rfl prefix_rfl prefix_rfl
    exact ⟨hn, hpast.later prefix_rfl prefix_rfl⟩

theorem Rang.refl (k : Machine) : Rang k k := Woke.refl k

theorem Woke.rang (h : Woke k k') : Rang k k' := by
  rw [Rang, withCounts_stirred h.toStirred]
  exact h

theorem Rang.trans (h : Rang k k1) (h' : Rang k1 k') : Rang k k' := by
  have hc := Woke.withCounts h k'
  exact Woke.trans hc h'

theorem Rang.of_counts (he : withCounts k k1 = k1) (h : Woke k1 k') : Rang k k' := by
  rw [Rang, withCounts_stirred h.toStirred, he]
  exact h

section

variable {α : Type} (h : Rang k k')
include h

theorem Rang.field (f : Machine → α) (hf : ∀ k, f (blank k) = f k)
    (hc : ∀ k c, f (withCounts k c) = f k) : f k' = f k := (h.toStirred.field f hf).trans (hc k k')

theorem Rang.procs (i : Fin 8) : Roused (k.procs i) (k'.procs i) := h.toStirred.procs i

theorem Rang.current : k'.current = k.current := h.toStirred.current
theorem Rang.nextPid : k'.nextPid = k.nextPid := h.toStirred.nextPid
theorem Rang.nextSpace : k'.nextSpace = k.nextSpace := h.toStirred.nextSpace
theorem Rang.states : k'.states = k.states := h.toStirred.states
theorem Rang.nextState : k'.nextState = k.nextState := h.toStirred.nextState
theorem Rang.fds : k'.fds = k.fds := h.toStirred.fds
theorem Rang.cwd : k'.cwd = k.cwd := h.toStirred.cwd
theorem Rang.brk : k'.brk = k.brk := h.toStirred.brk
theorem Rang.tls : k'.tls = k.tls := h.toStirred.tls
theorem Rang.frame : k'.frame = k.frame := h.toStirred.frame
theorem Rang.launched : k'.launched = k.launched := h.toStirred.launched
theorem Rang.phase : k'.phase = k.phase := h.toStirred.phase

theorem Rang.pipeUsed (j : Fin 8) : (k'.pipes j).used = (k.pipes j).used :=
  h.field (fun k => (k.pipes j).used) (fun _ => rfl) fun _ _ => rfl

end

theorem pipeValid_some {id : Nat} {j : Fin 8} (h : pipeValid k id = some j) : id = j.val ∧
    (k.pipes j).used = true := by
  simp only [pipeValid] at h
  split at h
  · split at h
    · rename_i hu
      cases h
      exact ⟨rfl, hu⟩
    · cases h
  · cases h

section

variable (k)

theorem setWriters_counts (j : Fin 8) (n : Int) :
    withCounts k (setPipe k j { k.pipes j with writers := n }) = setPipe k j
    { k.pipes j with writers := n } := by
  have hp :
      (fun l => { k.pipes l with
      writers := (update k.pipes j { k.pipes j with writers := n } l).writers }) =
      update k.pipes j { k.pipes j with writers := n } := by
    funext l
    by_cases hl : l = j
    · subst hl
      rw [update_self]
    · rw [update_of_ne hl]
  simp only [withCounts, setPipe, hp]

theorem pipeWriterAdd_rang (id : Nat) (n : Int) : Rang k (pipeWriterAdd k id n) := by
  rw [pipeWriterAdd]
  split
  · exact Rang.refl k
  · exact Rang.of_counts (setWriters_counts k _ _) (procNotify_woke _)

theorem setRam_rang (r : Ram) : Rang k { k with ram := r } := Rang.of_counts rfl (Woke.refl _)

theorem addWriters_rang (ds : List (Nat × Int)) : Rang k (addWriters k ds) := by
  induction ds generalizing k with
  | nil => exact Rang.refl k
  | cons d ds ih => exact (pipeWriterAdd_rang k d.1 d.2).trans (ih _)

theorem entryRef_rang (d : Desc) : Rang k (entryRef k d) := by
  simp only [entryRef]
  split
  · exact (setRam_rang k _).trans (pipeWriterAdd_rang ..)
  · exact setRam_rang k _

theorem entryUnref_rang (d : Desc) : Rang k (entryUnref k d) := by
  simp only [entryUnref]
  split
  · exact (setRam_rang k _).trans (pipeWriterAdd_rang ..)
  · exact setRam_rang k _

end

theorem foldl_rang {α : Type} {f : Machine → α → Machine} (hf : ∀ k a, Rang k (f k a)) (l : List α)
    (k : Machine) : Rang k (l.foldl f k) := by
  induction l generalizing k with
  | nil => exact Rang.refl k
  | cons a l ih => exact (hf k a).trans (ih _)

theorem retain_rang (k : Machine) (t : Table) : Rang k (retain k t) :=
  foldl_rang (fun k i => entryRef_rang k (t i)) _ k

theorem release_rang (k : Machine) (t : Table) : Rang k (release k t) :=
  foldl_rang (fun k i => entryUnref_rang k (t i)) _ k

section

inductive Freed (k : Machine) (p : Proc) : Machine → Prop
  | none (h : p.fdState.bind k.states = none) : Freed k p k
  | less (t : Nat) (f : FdState) (hp : p.fdState = some t) (hf : k.states t = some f)
    (hr : 1 < f.refs) : Freed k p (setState k t (some { f with refs := f.refs - 1 }))
  | last (t : Nat) (f : FdState) (hp : p.fdState = some t) (hf : k.states t = some f)
    (hr : f.refs ≤ 1) :
    Freed k p (setState (if p.fdsRetained then release k f.table else k) t Option.none)

theorem fdstateFree_freed (k : Machine) (i : Fin 8) : Freed k (k.procs i) (fdstateFree k i) := by
  rw [fdstateFree]
  split
  · rename_i h
    exact .none (by rw [h]; rfl)
  rename_i t ht
  split
  · rename_i h
    exact .none (by rw [ht]; exact h)
  rename_i f hf
  split
  · rename_i hr
    exact .less t f ht hf hr
  · rename_i hr
    exact .last t f ht hf (Nat.not_lt.mp hr)

theorem Freed.rang {p : Proc} (h : Freed k p k') :
    ∃ k1, Rang k k1 ∧ k' = { k1 with states := k'.states } ∧ ∀ t, p.fdState ≠ some t →
    k'.states t = k.states t := by
  cases h with
  | none h => exact ⟨k, .refl k, rfl, fun _ _ => rfl⟩
  | less t f hp hf hr =>
    refine ⟨k, .refl k, rfl, fun t' ht => ?_⟩
    have hne : t' ≠ t := fun he => ht (he ▸ hp)
    exact update_of_ne hne ..
  | last t f hp hf hr =>
    have hk : Rang k (if p.fdsRetained then release k f.table else k) := by
      split
      · exact release_rang k _
      · exact .refl k
    refine ⟨_, hk, rfl, fun t' ht => ?_⟩
    have hne : t' ≠ t := fun he => ht (he ▸ hp)
    rw [← hk.states]
    exact update_of_ne hne ..

def lost (p : Proc) : Proc := { p with space := none }

abbrev lostAt (k : Machine) (i : Fin 8) : Machine := setProc k i (lost (k.procs i))

theorem procReap_eq {i : Fin 8} (hu : (k.procs i).used = true) (hc : k.current ≠ i) :
    procReap k i = setProc (fdstateFree (lostAt k i) i) i emptyProc := by
  have hf := fdstateFree_freed (lostAt k i) i
  obtain ⟨k1, hr, he, -⟩ := hf.rang
  have hcur : (fdstateFree (lostAt k i) i).current = k.current := by
    rw [he]
    exact hr.current
  rw [procReap, if_pos hu]
  simp only
  rw [if_neg (by rw [← lost, hcur]; exact hc)]
  rfl

variable {i j : Fin 8}

section

variable (hu : (k.procs i).used = true) (hc : k.current ≠ i)
include hu hc

theorem procReap_rang : ∃ k1, Rang (lostAt k i) k1 ∧
      procReap k i = setProc { k1 with states := (procReap k i).states } i emptyProc ∧
      ∀ t, (k.procs i).fdState ≠ some t → (procReap k i).states t = k.states t := by
  have hf := fdstateFree_freed (lostAt k i) i
  rw [setProc_self] at hf
  obtain ⟨k1, hr, he, ht⟩ := hf.rang
  rw [procReap_eq hu hc]
  exact ⟨k1, hr, congrArg (fun k => setProc k i emptyProc) he, ht⟩

theorem procReap_self : (procReap k i).procs i = emptyProc := by
  rw [procReap_eq hu hc, setProc_self]

theorem procReap_other (hj : j ≠ i) : Roused (k.procs j) ((procReap k i).procs j) := by
  obtain ⟨k1, hr, he, -⟩ := procReap_rang hu hc
  have hrow := hr.procs j
  rw [setProc_ne hj] at hrow
  rw [he, setProc_ne hj]
  exact hrow

omit hu hc in
theorem procReap_field {α : Type} (f : Machine → α) (hu : (k.procs i).used = true)
    (hc : k.current ≠ i)
    (hf : ∀ k c : Machine, f { withCounts (blank k) c with states := c.states } = f k) :
    f (procReap k i) = f k := by
  obtain ⟨k1, hr, he, -⟩ := procReap_rang hu hc
  have hrest := congrArg (fun b => { withCounts b k with states := k.states }) hr.toStirred.rest
  rw [he, ← hf _ k, ← hf k k]
  exact congrArg f hrest

theorem procReap_current : (procReap k i).current = k.current :=
  procReap_field _ hu hc fun _ _ => rfl

theorem procReap_cur : Roused (cur k) (cur (procReap k i)) := by
  rw [cur, cur, procReap_current hu hc]
  exact procReap_other hu hc hc

end

end

end MuOS.Kernel.Tables
