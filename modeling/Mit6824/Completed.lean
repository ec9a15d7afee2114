import Mathlib.Data.List.Nodup
import Mathlib.Data.Int.Order.Basic
import Mit6824.Linear

/-!
Histories in which every call has returned, and what is written down of them.

A record has each call with its result and with a time before its invocation and a time after its
return. The clock goes on with the history.
-/

namespace Mit6824.Completed

open Mit6824.Linear

variable {I Op R σ : Type*} {h : List (Event I Op R)}

section Calls

variable [DecidableEq I]

end Calls

/-! ### Times -/

end Mit6824.Completed
