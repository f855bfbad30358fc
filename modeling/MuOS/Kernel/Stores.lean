import MuOS.Kernel.Stir

namespace MuOS.Kernel.Stores

open Lib.Patches User.Window State Wake List Nat BitVec

variable {m : UserMem} {sp a b : Nat} {bs : List (BitVec 8)} {j : Nat} {phys : Nat}

section

variable (k : Machine)

end

end MuOS.Kernel.Stores
