import Mathlib.Logic.Equiv.List
import Mit6824.Labgob
import Mit6824.RaftLog

/-!
One Raft server (`raft/raft.go`, `raft/persister.go`): its state, what it keeps in stable
storage, and how it starts.

Each function is the code run under the lock `rf.mu`. The value `-1` of `votedFor` and
`leaderId` is `none`, and so are `nextIndex` and `matchIndex` before they are first made.
-/

namespace Mit6824.RaftState

open Mit6824.Labgob Mit6824.RaftLog

inductive RoleT
  | leader
  | follower
  | candidate
  deriving DecidableEq, Repr

/-- What `stateBytes` writes, in its order. -/
structure Persisted (n : ℕ) (C : Type) where
  currentTerm : ℕ
  votedFor : Option (Fin n)
  entries : List (Entry C)
  snapshotIndex : ℕ
  snapshotTerm : ℕ

instance {C : Type} [Encodable C] : Encodable (Entry C) :=
  Encodable.ofEquiv (ℕ × C)
    ⟨fun e => (e.term, e.command), fun p => ⟨p.1, p.2⟩, fun _ => rfl, fun _ => rfl⟩

instance {n : ℕ} {C : Type} [Encodable C] : Encodable (Persisted n C) :=
  Encodable.ofEquiv (ℕ × Option (Fin n) × List (Entry C) × ℕ × ℕ)
    ⟨fun p => (p.currentTerm, p.votedFor, p.entries, p.snapshotIndex, p.snapshotTerm),
      fun p => ⟨p.1, p.2.1, p.2.2.1, p.2.2.2.1, p.2.2.2.2⟩, fun _ => rfl, fun _ => rfl⟩

structure Persister where
  raftstate : Bytes
  snapshot : Bytes
  deriving DecidableEq, Repr

def makePersister : Persister := ⟨[], []⟩

structure Raft (n : ℕ) (C : Type) where
  persister : Persister
  me : Fin n
  currentTerm : ℕ
  votedFor : Option (Fin n)
  log : Log C
  snapshotTerm : ℕ
  snapshotIndex : ℕ
  snapshot : Bytes
  commitIndex : ℕ
  lastApplied : ℕ
  nextIndex : Option (Fin n → ℕ)
  matchIndex : Option (Fin n → ℕ)
  role : RoleT
  leaderId : Option (Fin n)

variable {n : ℕ} {C : Type}

def persisted (rf : Raft n C) : Persisted n C :=
  ⟨rf.currentTerm, rf.votedFor, rf.log.entries, rf.snapshotIndex, rf.snapshotTerm⟩

/-- The record `Make` fills in before it reads the persister. -/
def blank [Inhabited C] (me : Fin n) (persister : Persister) : Raft n C where
  persister := persister
  me := me
  currentTerm := 0
  votedFor := none
  log := makeLog 1 0
  snapshotTerm := 0
  snapshotIndex := 0
  snapshot := []
  commitIndex := 0
  lastApplied := 0
  nextIndex := none
  matchIndex := none
  role := .follower
  leaderId := none

section Persist

variable [Coded (Persisted n C)]

def stateBytes (rf : Raft n C) : Bytes := encode (persisted rf)

def persist (rf : Raft n C) : Raft n C :=
  { rf with persister := ⟨stateBytes rf, rf.snapshot⟩ }

/-- Saves the state and leaves the saved snapshot alone (spelled as in the source). -/
def persistSate (rf : Raft n C) : Raft n C :=
  { rf with persister := { rf.persister with raftstate := stateBytes rf } }

def readPersist (rf : Raft n C) (data : Bytes) : Except Panic (Raft n C) :=
  if data.length < 1 then .ok rf
  else
    match (decode data : Option (Persisted n C)) with
    | none => .error .decodeError
    | some p =>
      .ok { rf with
        currentTerm := p.currentTerm
        votedFor := p.votedFor
        log := ⟨p.entries, p.snapshotIndex⟩
        snapshotIndex := p.snapshotIndex
        snapshotTerm := p.snapshotTerm }

def stepDown (rf : Raft n C) (term : ℕ) : Raft n C :=
  persistSate { rf with currentTerm := term, role := .follower, votedFor := none }

/-- Returns the server, the index and term of the command, and whether it leads. -/
def start (rf : Raft n C) (command : C) : Raft n C × ℕ × ℕ × Bool :=
  if rf.role = .leader then
    let log := rf.log.append [⟨rf.currentTerm, command⟩]
    (persistSate { rf with log }, log.lastIndex, rf.currentTerm, true)
  else (rf, 0, rf.currentTerm, false)

def make [Inhabited C] (me : Fin n) (persister : Persister) : Except Panic (Raft n C) := do
  let rf ← readPersist (blank me persister) persister.raftstate
  return { rf with snapshot := persister.snapshot }

end Persist

end Mit6824.RaftState
