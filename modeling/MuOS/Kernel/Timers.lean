import MuOS.Kernel.Layout

namespace MuOS.Kernel.Timers

open Lib.Runs State Wake Sched Calls Step Phases Layout BitVec

variable (k : Machine) (sec : BitVec 32)

/-- The machine `n` ticks after `alarm`, if nothing else happens. -/
def later (n : Nat) : Machine := { (doAlarm k sec).1 with ticks := k.ticks + BitVec.ofNat 32 n }

/-- `proc_tick_all` raises the signal at that tick; else it leaves the caller as it is. -/
def Rings (n : Nat) : Prop := tickOne (later k sec n) k.current ≠ later k sec n

section

variable {k sec} (hu : (cur k).used = true) (hpid : (cur k).pid ≠ 1)
include hu hpid

end

variable {k sec} {r : Fs.RamFs.Ram} {mem : UserMem} {cow : Cow} {as : List Act}

end MuOS.Kernel.Timers
