import Mathlib.Algebra.Order.BigOperators.Group.List
import Mathlib.Data.List.Sort
import OneTbb.Tcm.Minimum

/-!
# The number of permits a request takes from

`negotiate` asks the stakeholders that can give the least first, and idle ones before active
ones, so more permits change than necessary. It changes no more than that exactly if, whenever
some stakeholders cover the amount, as many of those that are asked first cover it too.
-/

namespace OneTbb.Tcm

open List

open OneTbb.Tcm.Distribution

variable {P : Platform} {out : Set Handle} {st : State} {h : Handle}

end OneTbb.Tcm
