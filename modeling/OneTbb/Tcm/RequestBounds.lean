import Mathlib.Algebra.Order.BigOperators.Group.List
import OneTbb.Tcm.Conservation

/-!
# Thread composability manager: the bounds of constrained requests

`sum_constraints_bounds` guards each addition of a minimum, and each addition of a maximum
that the client gave. A maximum left to the manager is added without a guard, and the sum of
the minima is not compared with the maximum of the request.
-/

namespace OneTbb.Tcm

open List

variable {P : Platform} {req : PermitRequest} {c : CpuConstraints} {cs : List CpuConstraints}
  {m a b sumMin : Int} {r : Int × Int}

end OneTbb.Tcm
