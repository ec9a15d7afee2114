import Mathlib.Data.List.Sort
import Mathlib.Data.Int.Order.Basic
import Mit6824.LinkedList
import Mit6824.MapOrder
import Mit6824.PorcBitset

/-!
The checker of linearizability (`porcupine/model.go`, `porcupine/checker.go`).

Nodes are addressed by the index of their entry, and the head of the list by the number of the
entries. The fields of a node that never change are in one table and the links in another.
-/

namespace Mit6824.PorcChecker

open Mit6824.LinkedList Mit6824.MapOrder Mit6824.PorcBitset Function

variable {σ ι ο : Type}

structure Operation (ι ο : Type) where
  clientId : ℕ
  input : ι
  call : ℤ
  output : ο
  ret : ℤ
  deriving DecidableEq

structure Model (σ ι ο : Type) where
  partition : Option (List (Operation ι ο) → List (List (Operation ι ο)))
  init : σ
  step : σ → ι → ο → Bool × σ
  equal : Option (σ → σ → Bool)

def noPartition (history : List (Operation ι ο)) : List (List (Operation ι ο)) := [history]

def shallowEqual [DecidableEq σ] (state1 state2 : σ) : Bool := state1 = state2

def fillDefault [DecidableEq σ] (model : Model σ ι ο) : Model σ ι ο :=
  { model with
    partition := some (model.partition.getD noPartition)
    equal := some (model.equal.getD shallowEqual) }

/-! ### Entries -/

inductive EntryKind
  | callEntry
  | returnEntry
  deriving DecidableEq

structure Entry (ι ο : Type) where
  kind : EntryKind
  value : ι ⊕ ο
  id : ℕ
  time : ℤ
  clientId : ℕ
  deriving DecidableEq

/-- By time, and calls before returns of the same time. -/
def less (a b : Entry ι ο) : Bool :=
  if a.time ≠ b.time then a.time < b.time else a.kind = .callEntry ∧ b.kind = .returnEntry

/-- `sort.Sort(byTime(..))`: the order among entries that are not less is left open. -/
structure Sorter (ι ο : Type) where
  sort : List (Entry ι ο) → List (Entry ι ο)
  perm : ∀ l, (sort l).Perm l
  sorted : ∀ l, (sort l).Pairwise fun a b => ¬ less b a

lemma not_less_iff {a b : Entry ι ο} : ¬ less b a ↔
    a.time < b.time ∨ a.time = b.time ∧ (a.kind = .callEntry ∨ b.kind = .returnEntry) := by
  unfold less
  by_cases h : b.time = a.time
  · cases ha : a.kind <;> cases hb : b.kind <;> simp [h]
  · have : b.time ≠ a.time → (¬ b.time < a.time ↔ a.time < b.time) := fun _ => by omega
    simp [h, this h, Ne.symm h]

def insertionSorter : Sorter ι ο where
  sort := List.insertionSort fun a b => ¬ less b a
  perm := List.perm_insertionSort _
  sorted :=
    have : Std.Total fun a b : Entry ι ο => ¬ less b a :=
      ⟨fun a b => by
        rw [not_less_iff, not_less_iff]
        cases a.kind <;> cases b.kind <;> simp <;> omega⟩
    have : IsTrans (Entry ι ο) fun a b => ¬ less b a :=
      ⟨fun a b c => by
        rw [not_less_iff, not_less_iff, not_less_iff]
        cases a.kind <;> cases b.kind <;> cases c.kind <;> simp <;> omega⟩
    List.pairwise_insertionSort _

/-- The entries of the operations, of which the first has the number `id`. -/
def entriesFrom : ℕ → List (Operation ι ο) → List (Entry ι ο)
  | _, [] => []
  | id, elem :: history =>
    ⟨.callEntry, .inl elem.input, id, elem.call, elem.clientId⟩ ::
      ⟨.returnEntry, .inr elem.output, id, elem.ret, elem.clientId⟩ :: entriesFrom (id + 1) history

def makeEntries (sorter : Sorter ι ο) (history : List (Operation ι ο)) : List (Entry ι ο) :=
  sorter.sort (entriesFrom 0 history)

/-! ### Nodes -/

/-- A node without its links: a call has a match, its return. -/
structure Node (ι ο : Type) where
  value : ι ⊕ ο
  matched : Option ℕ
  id : ℕ
  deriving DecidableEq

def insertBefore (L : Links ℕ) (n : ℕ) (mark : Option ℕ) : Links ℕ :=
  match mark with
  | none => L
  | some m =>
    let beforeMark := L.prev m
    let L := (L.setPrev m (some n)).setNext n (some m)
    match beforeMark with
    | none => L
    | some b => (L.setPrev n (some b)).setNext b (some n)

/-- The number of nodes from one on, of at most `k`. -/
def length (L : Links ℕ) : ℕ → Option ℕ → ℕ
  | k + 1, some n => length L k (L.next n) + 1
  | _, _ => 0

/-- A list of nodes that is being made from its end. -/
structure Chain (ι ο : Type) where
  nodes : List (Node ι ο)
  links : Links ℕ
  root : Option ℕ
  matchOf : ℕ → Option ℕ

/-- The nodes of the entries, of which the first has the address `i`. -/
def chainFrom : ℕ → List (Entry ι ο) → Chain ι ο
  | _, [] => ⟨[], Links.empty, none, fun _ => none⟩
  | i, elem :: entries =>
    let c := chainFrom (i + 1) entries
    match elem.kind with
    | .returnEntry =>
      ⟨⟨elem.value, none, elem.id⟩ :: c.nodes, insertBefore c.links i c.root, some i,
        update c.matchOf elem.id (some i)⟩
    | .callEntry =>
      ⟨⟨elem.value, c.matchOf elem.id, elem.id⟩ :: c.nodes, insertBefore c.links i c.root, some i,
        c.matchOf⟩

def makeLinkedEntries (entries : List (Entry ι ο)) : Chain ι ο := chainFrom 0 entries

/-- A call and its return are taken out of the list. The call is not the last entry; of the
return this is checked. -/
def lift (nodes : List (Node ι ο)) (L : Links ℕ) (entry : ℕ) : Option (Links ℕ) := do
  let L ← L.detachInner entry
  let node ← nodes[entry]?
  let matched ← node.matched
  L.detach matched

def unlift (nodes : List (Node ι ο)) (L : Links ℕ) (entry : ℕ) : Option (Links ℕ) := do
  let node ← nodes[entry]?
  let matched ← node.matched
  let L ← L.attach matched
  L.attachInner entry

/-! ### The search -/

structure CacheEntry (σ : Type) where
  linearized : Bitset
  state : σ

def cacheContains [DecidableEq σ] (model : Model σ ι ο) (cache : BitVec 64 → List (CacheEntry σ))
    (entry : CacheEntry σ) : Bool :=
  (cache entry.linearized.hash).any fun elem =>
    entry.linearized.equals elem.linearized &&
      (model.equal.getD shallowEqual) entry.state elem.state

/-- For each operation the longest sequence found with it. -/
abbrev Longest := List (Option (List ℕ))

/-- The variables of the loop of `checkSingle`. The stack `calls` has its top first. -/
structure Search (σ : Type) where
  links : Links ℕ
  entry : Option ℕ
  state : σ
  linearized : Bitset
  cache : BitVec 64 → List (CacheEntry σ)
  calls : List (ℕ × σ)
  longest : Longest

inductive Outcome (σ : Type)
  | running (st : Search σ)
  | returned (ok : Bool) (longest : Longest)

section Loop

variable [DecidableEq σ] (model : Model σ ι ο) (computePartial : Bool) (nodes : List (Node ι ο))

/-- The values are of the types that `Step` expects them to be of. -/
def callStep (state : σ) (input output : ι ⊕ ο) : Option (Bool × σ) :=
  match input, output with
  | .inl i, .inr o => some (model.step state i o)
  | _, _ => none

def seqOf (calls : List (ℕ × σ)) : Option (List ℕ) :=
  calls.reverse.mapM fun v => nodes[v.1]?.map Node.id

def improve (seq : List ℕ) (longest : Longest) (id : ℕ) : Option Longest :=
  match longest[id]? with
  | none => none
  | some none => some (longest.set id (some seq))
  | some (some old) => some (if seq.length > old.length then longest.set id (some seq) else longest)

def notePartial (calls : List (ℕ × σ)) (longest : Longest) : Option Longest :=
  if computePartial then do
    let seq ← seqOf nodes calls
    seq.foldlM (improve seq) longest
  else
    some longest

/-- At a return entry the last call is taken back. -/
def backtrack (st : Search σ) : Option (Outcome σ) :=
  match st.calls with
  | [] => some (.returned false st.longest)
  | (entry, state) :: calls => do
    let longest ← notePartial computePartial nodes st.calls st.longest
    let node ← nodes[entry]?
    let linearized ← st.linearized.clear node.id
    let links ← unlift nodes st.links entry
    return .running { st with
      links := links, entry := links.next entry, state := state, linearized := linearized,
      calls := calls, longest := longest }

/-- At a call entry the call is made, if it can be and it leads to what has not been seen. -/
def advance (st : Search σ) (entry : ℕ) (node : Node ι ο) (matching : Node ι ο) :
    Option (Outcome σ) := do
  let (ok, newState) ← callStep model st.state node.value matching.value
  if ok then
    let newLinearized ← st.linearized.set node.id
    let newCacheEntry := ⟨newLinearized, newState⟩
    if cacheContains model st.cache newCacheEntry then
      return .running { st with entry := st.links.next entry }
    else
      let hash := newLinearized.hash
      let links ← lift nodes st.links entry
      return .running { st with
        links := links, entry := links.next nodes.length, state := newState,
        linearized := newLinearized,
        cache := update st.cache hash (st.cache hash ++ [newCacheEntry]),
        calls := (entry, st.state) :: st.calls }
  else
    return .running { st with entry := st.links.next entry }

/-- One round of the loop; nothing is a panic. -/
def iteration (kill : Bool) (st : Search σ) : Option (Outcome σ) :=
  if st.links.next nodes.length = none then do
    let seq ← seqOf nodes st.calls
    return .returned true (st.longest.map fun _ => some seq)
  else if kill then
    some (.returned false st.longest)
  else do
    let entry ← st.entry
    let node ← nodes[entry]?
    match node.matched with
    | some m => do
      let matching ← nodes[m]?
      advance model nodes st entry node matching
    | none => backtrack computePartial nodes st

def loop : ℕ → Search σ → Except Stop (Bool × Longest)
  | 0, _ => .error .running
  | k + 1, st =>
    match iteration model computePartial nodes false st with
    | none => .error .panicked
    | some (.returned ok longest) => .ok (ok, longest)
    | some (.running st) => loop k st

end Loop

/-- What `checkSingle` has before its loop. -/
def startSearch (model : Model σ ι ο) (history : List (Entry ι ο)) : Search σ :=
  let c := makeLinkedEntries history
  let n := length c.links history.length c.root / 2
  { links := insertBefore c.links history.length c.root
    entry := c.root
    state := model.init
    linearized := newBitset n
    cache := fun _ => []
    calls := []
    longest := List.replicate n none }

def checkSingle [DecidableEq σ] (model : Model σ ι ο) (history : List (Entry ι ο))
    (computePartial : Bool) (rounds : ℕ) : Except Stop (Bool × Longest) :=
  loop model computePartial (makeLinkedEntries history).nodes rounds (startSearch model history)

end Mit6824.PorcChecker
