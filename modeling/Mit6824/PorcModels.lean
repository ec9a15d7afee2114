import Mit6824.MrWorker
import Mit6824.PorcChecker

/-!
The model of the key/value services that their histories are checked with (`models/kv.go`).
-/

namespace Mit6824.PorcModels

open Mit6824.GoData Mit6824.MapOrder Mit6824.MrWorker Mit6824.PorcChecker

/-- `op` is 0 for get, 1 for put, 2 for append. -/
structure KvInput where
  op : UInt8
  key : GoString
  value : GoString
  deriving DecidableEq

structure KvOutput where
  value : GoString
  deriving DecidableEq

abbrev KvOperation := Operation KvInput KvOutput

def byKey (history : List KvOperation) : GoMap GoString (List KvOperation) :=
  history.foldl (fun m v => m.insert v.input.key ((m.lookup v.input.key).getD [] ++ [v])) ∅

/-- The keys of the map are sorted, so the order in which they are visited does not matter. -/
def kvPartition (history : List KvOperation) : List (List KvOperation) :=
  let m := byKey history
  let keys := Order.ascending.visit m.keys
  keys.map fun k => (m.lookup k).getD []

/-- The state is the value of a single key. -/
def kvStep (state : GoString) (inp : KvInput) (out : KvOutput) : Bool × GoString :=
  if inp.op = 0 then (out.value = state, state)
  else if inp.op = 1 then (true, inp.value)
  else (true, state ++ inp.value)

def kvModel : Model GoString KvInput KvOutput where
  partition := some kvPartition
  init := []
  step := kvStep
  equal := none

end Mit6824.PorcModels
