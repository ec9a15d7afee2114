import Mit6824.TermLog

/-!
The log of one server (`raft/log.go`): a slice of entries whose first one has index `index0`.

Reads and cuts that leave the slice stop the server, as does a failed assertion; the operations
return what they would have computed or how they stopped.
-/

namespace Mit6824.RaftLog

open Mit6824.TermLog

inductive Panic
  | assertion (msg : String)
  | indexOutOfRange
  | decodeError
  deriving DecidableEq, Repr

/-- `Assert` of `raft/util.go`. -/
def assert (expect : Prop) [Decidable expect] (msg : String) : Except Panic Unit :=
  if expect then .ok () else .error (.assertion msg)

/-- A log entry. The type `C` is that of all values an `interface{}` can hold, and its default
is `nil`. -/
structure Entry (C : Type) where
  term : ℕ
  command : C
  deriving DecidableEq, Repr

instance {C : Type} : Termed (Entry C) := ⟨Entry.term⟩

structure Log (C : Type) where
  entries : List (Entry C)
  index0 : ℕ
  deriving DecidableEq, Repr

variable {C : Type}

def makeLog [Inhabited C] (len start : ℕ) : Log C := ⟨List.replicate len ⟨0, default⟩, start⟩

namespace Log

def append (l : Log C) (a : List (Entry C)) : Log C := { l with entries := l.entries ++ a }

/-- The loop of `place`: overwrite from `i` on while both slices last. Returns the entries, the
final `i`, and what is left of `a`. -/
def overlap (es : List (Entry C)) (i : ℕ) :
    List (Entry C) → List (Entry C) × ℕ × List (Entry C)
  | [] => (es, i, [])
  | x :: a => if i < es.length then overlap (es.set i x) (i + 1) a else (es, i, x :: a)

def place (l : Log C) (index : ℕ) (a : List (Entry C)) : Except Panic (Log C) := do
  assert (l.index0 ≤ index) s!"place index={index}, l.index0={l.index0}\n"
  let (es, i, rest) := overlap l.entries (index - l.index0) a
  let entries := es ++ rest
  let i := i + rest.length
  match entries[i]? with
  | none => return { l with entries }
  | some next =>
    -- `entries[i-1]` is read whenever `entries[i]` is
    match i, entries[i - 1]? with
    | _ + 1, some last =>
      if last.term > next.term then return { l with entries := entries.take i }
      else return { l with entries }
    | _, _ => throw .indexOutOfRange

def start (l : Log C) : ℕ := l.index0

def entry (l : Log C) (index : ℕ) : Except Panic (Entry C) := do
  assert (l.index0 ≤ index) s!"entry index={index}, l.index0={l.index0}\n"
  match l.entries[index - l.index0]? with
  | none => throw .indexOutOfRange
  | some e => return e

def lastIndex (l : Log C) : ℕ := l.index0 + l.entries.length - 1

def lastEntry (l : Log C) : Except Panic (Entry C) := l.entry l.lastIndex

def slice (l : Log C) (index : ℕ) : Except Panic (List (Entry C)) :=
  if l.index0 ≤ index ∧ index - l.index0 ≤ l.entries.length then
    .ok (l.entries.drop (index - l.index0))
  else .error .indexOutOfRange

def cutOffHead (l : Log C) (index : ℕ) : Except Panic (Log C) :=
  if l.index0 ≤ index ∧ index - l.index0 ≤ l.entries.length then
    .ok ⟨l.entries.drop (index - l.index0), index⟩
  else .error .indexOutOfRange

/-- Go allows a cut above the length that is within the capacity of the slice; here it is out of
range, too. -/
def cutOffTail (l : Log C) (index : ℕ) : Except Panic (Log C) :=
  if index = l.index0 then
    if 1 ≤ l.entries.length then .ok { l with entries := l.entries.take 1 }
    else .error .indexOutOfRange
  else if l.index0 ≤ index ∧ index - l.index0 ≤ l.entries.length then
    .ok { l with entries := l.entries.take (index - l.index0) }
  else .error .indexOutOfRange

end Log

end Mit6824.RaftLog
