import MuOS.User.Elf

namespace MuOS.User.ElfChecks

open Lib.Accesses Elf

variable (image : Image) (eh : Ehdr) (bias base limit : BitVec 32)

theorem parse_agrees : Agree Eq (elfParse image) (elfParse image) := by
  refine .bind (.check _ _) fun _ _ _ => .bind (.returns fun _ _ => ⟨_, _, rfl, rfl, rfl⟩) ?_
  rintro bs _ rfl
  iterate 8 refine .bind (.check _ _) fun _ _ _ => ?_
  exact .pure rfl

theorem bias_agrees : Agree Eq (elfLoadBias image eh base) (elfLoadBias image eh base) := by
  rw [elfLoadBias]
  split
  · exact .pure rfl
  refine .bind (.loop (fun j b => .returns fun _ _ => ⟨_, _, rfl, rfl, rfl⟩) _ _ _) ?_
  rintro v _ rfl
  exact .pure rfl

/-- Copying and clearing do not fail, and nothing is read back. -/
theorem segment_agrees (i : Nat) (m : Mapped) :
    Agree Eq (mapSegment image eh bias base limit i m)
    (validateSegment image eh bias base limit i m) := by
  refine .bind (.returns fun _ _ => ⟨_, _, rfl, rfl, rfl⟩) ?_
  rintro ph _ rfl
  split
  · exact .pure rfl
  have hcheck : Agree Eq (checkSegment image ph bias base limit)
    (checkSegment image ph bias base limit) :=
    .bind (.check _ _) fun _ _ _ => .bind (.check _ _) fun _ _ _ =>
      .bind (.check _ _) fun _ _ _ => .check _ _
  refine .bind hcheck fun _ _ _ => .returns fun s t => ⟨_, _, ?_, rfl, rfl⟩
  simp only [copyIn, clearRest]
  split <;> split <;> rfl

def ends (info : LoadInfo) : BitVec 32 × BitVec 32 := (info.entry, info.imageEnd)

theorem describe_agrees (i : Nat) (x : LoadInfo × BitVec 32) :
    Agree (fun r e => ∃ y, r = .yield y ∧ ends y.1 = e) (describeSegment image eh bias i x)
    (pure (ends x.1)) := by
  refine Agree.bind (q := pure (ends x.1)) (g := pure) (R := fun _ e => ends x.1 = e)
    (.returns fun _ _ => ⟨_, _, rfl, rfl, rfl⟩) ?_
  rintro ph _ rfl
  refine Agree.bind (q := pure (ends x.1)) (g := pure) (R := fun info e => ends info = e) ?_ ?_
  · rw [noteInterp]
    split
    · exact .returns fun _ _ => ⟨_, _, rfl, rfl, rfl⟩
    · exact .pure rfl
  · rintro info _ rfl
    split
    · exact .pure ⟨_, rfl, rfl⟩
    · exact .pure ⟨_, rfl, rfl⟩

theorem described_agrees (k i : Nat) (x : LoadInfo × BitVec 32) :
    Agree (fun y e => ends y.1 = e) (loop (describeSegment image eh bias) k i x)
    (pure (ends x.1)) := by
  induction k generalizing i x with
  | zero => exact .pure rfl
  | succ k ih =>
    refine Agree.bind (g := pure) (describe_agrees image eh bias i x) ?_
    rintro _ _ ⟨y, rfl, rfl⟩
    exact ih (i + 1) y

/-- Validation and mapping come to the same result, from whatever memory they start. -/
theorem validate_as_map (s t : Store) : (elf32Validate image base limit s).1 =
      (elfMapSegments image base limit t).1.map fun x => ends x.1 := by
  have h : Agree (fun x e => ends x.1 = e) (elfMapSegments image base limit)
    (elf32Validate image base limit) := by
    refine .bind (parse_agrees image) ?_
    rintro eh _ rfl
    refine .bind (bias_agrees image eh base) ?_
    rintro bias _ rfl
    refine .bind (.loop (segment_agrees image eh bias base limit) _ _ _) ?_
    rintro m _ rfl
    exact .bind (.check _ _) fun _ _ _ => .bind (.check _ _) fun _ _ _ =>
      described_agrees image eh bias _ _ _
  obtain ⟨e, h1, h2⟩ | ⟨x, e, h1, h2, rfl⟩ := h t s <;> rw [h1, h2] <;> rfl

end MuOS.User.ElfChecks
