import Mathlib.Order.Defs.Unbundled
import Mathlib.Tactic.Common

namespace MuOS.Lib.Programs

variable {σ α β : Type} {s : σ} {b : Bool}

/-- Programs over a state that may give up, keeping what they did. -/
def Prog (σ α : Type) : Type := σ → Option α × σ

def Prog.next (p : Prog σ α) (f : α → Prog σ β) : Prog σ β := fun s =>
  match p s with
  | (some a, t) => f a t
  | (none, t) => (none, t)

instance : Monad (Prog σ) where
  pure a := fun s => (some a, s)
  bind := Prog.next

def giveUp : Prog σ α := fun s => (none, s)

def look (f : σ → α) : Prog σ α := fun s => (some (f s), s)

def put (f : σ → σ) : Prog σ Unit := fun s => (some (), f s)

def onlyIf (b : Bool) (p : Prog σ Unit) : Prog σ Unit := if b then p else pure ()

def each (f : α → Prog σ Unit) : List α → Prog σ Unit
  | [] => pure ()
  | x :: xs => do
    f x
    each f xs

theorem bind_apply (p : Prog σ α) (f : α → Prog σ β) (s : σ) : (p >>= f) s = match p s with
      | (some a, t) => f a t
      | (none, t) => (none, t) := rfl

section

variable {R : σ → σ → Prop} {p : Prog σ α} {f : α → Prog σ β}

/-- Whatever becomes of the program, its effect is in `R`. -/
def Keeps (R : σ → σ → Prop) (p : Prog σ α) : Prop := ∀ s, R s (p s).2

theorem bind_keeps [IsTrans σ R] (hp : R s (p s).2)
    (hf : ∀ a t, p s = (some a, t) → R t (f a t).2) : R s ((p >>= f) s).2 := by
  rw [bind_apply]
  generalize hx : p s = x at hp
  obtain ⟨o, t⟩ := x
  cases o with
  | none => exact hp
  | some a => exact IsTrans.trans _ _ _ hp (hf a t hx)

/-- What is looked at is known afterwards. -/
theorem look_keeps {g : σ → α} (h : R s (f (g s) s).2) : R s ((look g >>= f) s).2 := h

theorem Keeps.bind [IsTrans σ R] (hp : Keeps R p) (hf : ∀ a, Keeps R (f a)) : Keeps R (p >>= f) :=
  fun s => bind_keeps (hp s) fun a t _ => hf a t

theorem Keeps.put {g : σ → σ} (h : ∀ s, R s (g s)) : Keeps R (put g) := h

variable [Std.Refl R]

theorem Keeps.pure (a : α) : Keeps R (Pure.pure a : Prog σ α) := fun s => Std.Refl.refl s

theorem Keeps.giveUp : Keeps R (giveUp : Prog σ α) := fun s => Std.Refl.refl s

theorem Keeps.look (g : σ → α) : Keeps R (look g) := fun s => Std.Refl.refl s

theorem onlyIf_keeps {p : Prog σ Unit} (h : b = true → R s (p s).2) : R s (onlyIf b p s).2 := by
  cases b with
  | true => exact h rfl
  | false => exact Std.Refl.refl s

theorem Keeps.onlyIf {p : Prog σ Unit} (h : b = true → Keeps R p) : Keeps R (onlyIf b p) :=
  fun s => onlyIf_keeps fun hb => h hb s

theorem Keeps.each [IsTrans σ R] {g : α → Prog σ Unit} {l : List α} (h : ∀ x ∈ l, Keeps R (g x)) :
    Keeps R (each g l) := by
  induction l with
  | nil => exact .pure ()
  | cons x xs ih =>
    refine .bind (h x List.mem_cons_self) fun _ => ih fun y hy => h y (List.mem_cons_of_mem _ hy)

end

end MuOS.Lib.Programs
