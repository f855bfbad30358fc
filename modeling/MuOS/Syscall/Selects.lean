import Mathlib.Logic.Function.Basic

namespace MuOS.Syscall.Selects

open Function List

/-- Each descriptor's read, write and exception bits. -/
abbrev Sets := Nat → Bool × Bool × Bool

/-- Whether each descriptor is open and ready to be read, and written. -/
abbrev Readiness := Nat → Bool × Bool

/-- What is left of a descriptor's bits; exceptions are not tracked. -/
def kept (p : Readiness) (s : Sets) (fd : Nat) : Bool × Bool × Bool :=
  ((s fd).1 && (p fd).1, (s fd).2.1 && (p fd).2, false)

variable (nfds : Nat) (q : Nat → Readiness) (ms : Nat) (s : Sets)

def ticks : Nat := max 1 ((ms + 9) / 10)

variable {nfds q ms s}

end MuOS.Syscall.Selects
