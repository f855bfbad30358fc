import MuOS.Lib.Memory
import MuOS.Lib.Spans

namespace MuOS.Lib.Accesses

open Memory Spans List Nat

/-- A program touches its input, the memory, or its result's arrays. -/
inductive Access
  | fetch (s : Span)
  | read (s : Span)
  | write (s : Span)
  | note (s : Span)
deriving DecidableEq

def Access.Writes (x : Nat) : Access → Prop
  | .write s => s.Has x
  | _ => False

/-- The memory, and what was touched, last first. -/
structure Store where
  mem : Mem
  log : List Access

def Prog (ε α : Type) : Type := Store → Except ε α × Store

variable {ε α β : Type} {body : Nat → β → Prog ε (ForInStep β)} {a : Nat} {f : α → Prog ε β} {b : β}
  {q : Prog ε β} {k : Nat} {v : α}

def Prog.next (p : Prog ε α) (f : α → Prog ε β) : Prog ε β := fun s =>
  match p s with
  | (.ok v, t) => f v t
  | (.error e, t) => (.error e, t)

instance : Monad (Prog ε) where
  pure v := fun s => (.ok v, s)
  bind := Prog.next

def Prog.mapError {ε' : Type} (p : Prog ε α) (f : ε → ε') : Prog ε' α := fun s =>
  match p s with
  | (.ok v, t) => (.ok v, t)
  | (.error e, t) => (.error (f e), t)

def check (b : Bool) (e : ε) : Prog ε Unit := fun s => (if b then .ok () else .error e, s)

def fail (e : ε) : Prog ε α := fun s => (.error e, s)

/-- `n` bytes of the input from `a` on. -/
def fetch (input : List (BitVec 8)) (a n : Nat) : Prog ε (List (BitVec 8)) := fun s =>
  (.ok ((input.drop a).take n), { s with log := .fetch ⟨a, a + n⟩ :: s.log })

def load16 (a : Nat) : Prog ε (BitVec 16) := fun s =>
  (.ok (rd16 s.mem a), { s with log := .read ⟨a, a + 2⟩ :: s.log })

def load32 (a : Nat) : Prog ε (BitVec 32) := fun s =>
  (.ok (rd32 s.mem a), { s with log := .read ⟨a, a + 4⟩ :: s.log })

def store32 (a : Nat) (v : BitVec 32) : Prog ε Unit := fun s =>
  (.ok (), ⟨wr32 s.mem a v, .write ⟨a, a + 4⟩ :: s.log⟩)

def put (bs : List (BitVec 8)) (a : Nat) : Prog ε Unit := fun s =>
  (.ok (), ⟨fun x => if a ≤ x ∧ x < a + bs.length then bs.getD (x - a) 0#8 else s.mem x,
    .write ⟨a, a + bs.length⟩ :: s.log⟩)

def fill (a n : Nat) : Prog ε Unit := fun s =>
  (.ok (), ⟨fun x => if a ≤ x ∧ x < a + n then 0#8 else s.mem x, .write ⟨a, a + n⟩ :: s.log⟩)

/-- A store into an array of the result, kept by the program. -/
def note (a n : Nat) : Prog ε Unit := fun s => (.ok (), { s with log := .note ⟨a, a + n⟩ :: s.log })

def loop (body : Nat → β → Prog ε (ForInStep β)) : Nat → Nat → β → Prog ε β
  | 0, _, b => pure b
  | n + 1, i, b => do
    match ← body i b with
    | .done b => pure b
    | .yield b => loop body n (i + 1) b

section

/-- At most `n` accesses, all allowed; the result satisfies `Q`. -/
def Confined (ok : Access → Prop) (n : Nat) (p : Prog ε α) (Q : α → Prop) : Prop :=
  ∀ s, ∃ log, (p s).2.log = log ++ s.log ∧ log.length ≤ n ∧ (∀ a ∈ log, ok a) ∧
    (∀ x, (∀ a ∈ log, ¬ a.Writes x) → (p s).2.mem x = s.mem x) ∧ ∀ v, (p s).1 = .ok v → Q v

variable {ok : Access → Prop} {m n : Nat} {p : Prog ε α} {Q Q' : α → Prop} {R : β → Prop}

theorem Confined.mono (h : Confined ok m p Q) (hn : m ≤ n) (hq : ∀ v, Q v → Q' v) :
    Confined ok n p Q' := by
  intro s
  obtain ⟨log, hlog, hlen, hok, hmem, hv⟩ := h s
  exact ⟨log, hlog, Nat.le_trans hlen hn, hok, hmem, fun v hr => hq v (hv v hr)⟩

theorem Confined.allow {ok' : Access → Prop} (h : Confined ok n p Q) (hok : ∀ a, ok a → ok' a) :
    Confined ok' n p Q := by
  intro s
  obtain ⟨log, hlog, hlen, hall, hmem, hv⟩ := h s
  exact ⟨log, hlog, hlen, fun a ha => hok a (hall a ha), hmem, hv⟩

theorem Confined.returns (h : Confined ok n p Q) {s : Store} (hv : (p s).1 = .ok v) : Q v := by
  obtain ⟨-, -, -, -, -, hq⟩ := h s
  exact hq v hv

theorem Confined.pure (h : Q v) : Confined ok n (Pure.pure v : Prog ε α) Q := by
  intro s
  refine ⟨[], rfl, zero_le _, fun a ha => absurd ha not_mem_nil, fun _ _ => rfl, fun w hw => ?_⟩
  cases hw
  exact h

theorem Confined.fail (e : ε) : Confined ok n (fail e : Prog ε α) Q := by
  intro s
  refine ⟨[], rfl, zero_le _, fun a ha => absurd ha not_mem_nil, fun _ _ => rfl, fun w hw => ?_⟩
  cases hw

theorem Confined.check (b : Bool) (e : ε) : Confined ok 0 (check b e) (fun _ => b = true) := by
  intro s
  refine ⟨[], rfl, Nat.le_refl _, fun a ha => absurd ha not_mem_nil, fun _ _ => rfl, fun w hw => ?_⟩
  cases b with
  | true => rfl
  | false => cases hw

theorem Confined.bind (hp : Confined ok m p Q) (hf : ∀ v, Q v → Confined ok n (f v) R) :
    Confined ok (m + n) (p >>= f) R := by
  intro s
  obtain ⟨log, hlog, hlen, hok, hmem, hv⟩ := hp s
  have hrun : (p >>= f) s = Prog.next p f s := rfl
  rw [hrun, Prog.next]
  generalize p s = r at hlog hmem hv
  obtain ⟨o, t⟩ := r
  cases o with
  | error e =>
    refine ⟨log, hlog, Nat.le_trans hlen (Nat.le_add_right _ _), hok, hmem, fun w hw => ?_⟩
    cases hw
  | ok v =>
    obtain ⟨log', hlog', hlen', hok', hmem', hv'⟩ := hf v (hv v rfl) t
    refine ⟨log' ++ log, ?_, ?_, fun a ha => ?_, fun x hx => ?_, hv'⟩
    · rw [hlog', hlog, append_assoc]
    · rw [length_append, Nat.add_comm]
      exact Nat.add_le_add hlen hlen'
    · obtain ha | ha := mem_append.mp ha
      · exact hok' a ha
      · exact hok a ha
    · rw [hmem' x fun a ha => hx a (mem_append_left _ ha)]
      exact hmem x fun a ha => hx a (mem_append_right _ ha)

theorem Confined.after_check {b : Bool} {e : ε} {f : Unit → Prog ε β}
    (h : b = true → Confined ok n (f ()) R) : Confined ok n (Accesses.check b e >>= f) R := by
  have hcheck : Confined ok 0 (Accesses.check b e : Prog ε Unit) (fun _ => b = true) := .check b e
  have hbind := hcheck.bind fun _ hb => h hb
  rw [Nat.zero_add] at hbind
  exact hbind

theorem Confined.after_one (hp : Confined ok 1 p Q) (hf : ∀ v, Q v → Confined ok n (f v) R) :
    Confined ok (n + 1) (p >>= f) R := by
  rw [Nat.add_comm]
  exact hp.bind hf

theorem Confined.one {a : Access} {q : Prog ε α} (ha : ok a)
    (h : ∀ s, (q s).2.log = a :: s.log ∧ (∀ x, ¬ a.Writes x → (q s).2.mem x = s.mem x) ∧
    ∀ v, (q s).1 = .ok v → Q v) : Confined ok 1 q Q := by
  intro s
  obtain ⟨hlog, hmem, hv⟩ := h s
  refine ⟨[a], hlog, Nat.le_refl _, fun b hb => ?_, fun x hx => hmem x (hx a mem_cons_self), hv⟩
  rw [mem_singleton.mp hb]
  exact ha

theorem Confined.fetch {input : List (BitVec 8)} (h : ok (.fetch ⟨a, a + k⟩)) :
    Confined ok 1 (fetch input a k : Prog ε _) (fun bs => bs = (input.drop a).take k) := by
  refine .one h fun _ => ⟨rfl, fun _ _ => rfl, fun bs hbs => ?_⟩
  cases hbs
  rfl

theorem Confined.load16 (h : ok (.read ⟨a, a + 2⟩)) :
    Confined ok 1 (load16 a : Prog ε _) (fun _ => True) :=
  .one h fun _ => ⟨rfl, fun _ _ => rfl, fun _ _ => trivial⟩

theorem Confined.load32 (h : ok (.read ⟨a, a + 4⟩)) :
    Confined ok 1 (load32 a : Prog ε _) (fun _ => True) :=
  .one h fun _ => ⟨rfl, fun _ _ => rfl, fun _ _ => trivial⟩

theorem Confined.note (h : ok (.note ⟨a, a + k⟩)) :
    Confined ok 1 (note a k : Prog ε _) (fun _ => True) :=
  .one h fun _ => ⟨rfl, fun _ _ => rfl, fun _ _ => trivial⟩

theorem Confined.store32 (v : BitVec 32) (h : ok (.write ⟨a, a + 4⟩)) :
    Confined ok 1 (store32 a v : Prog ε _) (fun _ => True) := by
  refine .one h fun s => ⟨rfl, fun x hx => wr32_of_apart s.mem v ?_, fun _ _ => trivial⟩
  simp only [Access.Writes, Span.Has] at hx
  omega

theorem Confined.put {bs : List (BitVec 8)} (h : ok (.write ⟨a, a + bs.length⟩)) :
    Confined ok 1 (put bs a : Prog ε _) (fun _ => True) :=
  .one h fun _ => ⟨rfl, fun _ hx => if_neg hx, fun _ _ => trivial⟩

theorem Confined.fill (h : ok (.write ⟨a, a + k⟩)) :
    Confined ok 1 (fill a k : Prog ε _) (fun _ => True) :=
  .one h fun _ => ⟨rfl, fun _ hx => if_neg hx, fun _ _ => trivial⟩

/-- The invariant of the next round, or the result. -/
def Round (I : Nat → β → Prop) (R : β → Prop) (j : Nat) : ForInStep β → Prop
  | .done b => R b
  | .yield b => I (j + 1) b

theorem Confined.loop {I : Nat → β → Prop} {k i : Nat}
    (hbody : ∀ j b, j < i + k → I j b → Confined ok n (body j b) (Round I R j))
    (hend : ∀ b, I (i + k) b → R b)
    (hb : I i b) : Confined ok (k * n) (Accesses.loop body k i b) R := by
  induction k generalizing i b with
  | zero => exact .pure (hend b hb)
  | succ k ih =>
    have hi : i + 1 + k = i + (k + 1) := by omega
    rw [Nat.succ_mul, Nat.add_comm (k * n)]
    refine .bind (hbody i b (by omega) hb) fun r hr => ?_
    cases r with
    | done b => exact .pure hr
    | yield b => exact ih (fun j b hj => hbody j b (hi ▸ hj)) (hi ▸ hend) hr

theorem Confined.loop_any {k i : Nat}
    (hbody : ∀ j b, j < i + k → Confined ok n (body j b) (fun _ => True)) :
    Confined ok (k * n) (Accesses.loop body k i b) (fun _ => True) := by
  refine .loop (I := fun _ _ => True)
    (fun j b hj _ => (hbody j b hj).mono (Nat.le_refl _) fun r _ => ?_) (fun _ _ => trivial) trivial
  cases r with
  | done | yield => trivial

theorem Confined.mapError {ε' : Type} (h : Confined ok n p Q) (f : ε → ε') :
    Confined ok n (p.mapError f) Q := by
  intro s
  obtain ⟨log, hlog, hlen, hok, hmem, hv⟩ := h s
  rw [Prog.mapError]
  generalize p s = r at hlog hmem hv
  obtain ⟨o, t⟩ := r
  cases o with
  | ok v =>
    refine ⟨log, hlog, hlen, hok, hmem, fun w hw => ?_⟩
    cases hw
    exact hv v rfl
  | error e =>
    refine ⟨log, hlog, hlen, hok, hmem, fun w hw => ?_⟩
    cases hw

/-- Both programs fail with the same error or return related values. -/
def Agree (R : α → β → Prop) (p : Prog ε α) (q : Prog ε β) : Prop := ∀ s t,
  (∃ e, (p s).1 = .error e ∧ (q t).1 = .error e) ∨ ∃ a b, (p s).1 = .ok a ∧ (q t).1 = .ok b ∧ R a b

theorem Agree.returns {R : α → β → Prop} (h : ∀ s t, ∃ a b, (p s).1 = .ok a ∧
    (q t).1 = .ok b ∧ R a b) :
    Agree R p q := fun s t => .inr (h s t)

theorem Agree.check (b : Bool) (e : ε) : Agree Eq (Accesses.check b e) (Accesses.check b e) := by
  intro s t
  cases b with
  | false => exact .inl ⟨e, rfl, rfl⟩
  | true => exact .inr ⟨(), (), rfl, rfl, rfl⟩

theorem Agree.pure {R : α → β → Prop} {a : α} (h : R a b) :
    Agree R (Pure.pure a : Prog ε α) (Pure.pure b) :=
  .returns fun _ _ => ⟨a, b, rfl, rfl, h⟩

theorem Agree.bind {γ δ : Type} {R : α → β → Prop} {S : γ → δ → Prop} {f : α → Prog ε γ}
    {g : β → Prog ε δ} (hp : Agree R p q) (hf : ∀ a b, R a b → Agree S (f a) (g b)) :
    Agree S (p >>= f) (q >>= g) := by
  intro s t
  have h := hp s t
  simp only [Bind.bind, Prog.next]
  generalize p s = x at h
  generalize q t = y at h
  obtain ⟨x, s⟩ := x
  obtain ⟨y, t⟩ := y
  obtain ⟨e, rfl, rfl⟩ | ⟨a, b, rfl, rfl, hab⟩ := h
  · exact .inl ⟨e, rfl, rfl⟩
  · exact hf a b hab s t

theorem Agree.loop {f g : Nat → β → Prog ε (ForInStep β)} (h : ∀ j b, Agree Eq (f j b) (g j b))
    (k i : Nat) (b : β) : Agree Eq (Accesses.loop f k i b) (Accesses.loop g k i b) := by
  induction k generalizing i b with
  | zero => exact .pure rfl
  | succ k ih =>
    refine .bind (h i b) ?_
    rintro r _ rfl
    cases r with
    | done b => exact .pure rfl
    | yield b => exact ih (i + 1) b

end

end MuOS.Lib.Accesses
