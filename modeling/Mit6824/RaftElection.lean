import Mit6824.RaftState

/-!
Elections (`raft/leader_election.go`).

`leaderElection` releases the lock while it counts votes. It is cut there: `leaderElection` is
the part before, an `Election` is what a run of it holds while it counts, `countVote` is one
turn of the loop in `countVotes`, and `finishElection` is the part after.
-/

namespace Mit6824.RaftElection

open Mit6824.Labgob Mit6824.RaftLog Mit6824.RaftState

structure RequestVoteArgs (n : ℕ) where
  term : ℕ
  candidateId : Fin n
  lastLogIndex : ℕ
  lastLogTerm : ℕ
  deriving DecidableEq, Repr

structure RequestVoteReply where
  term : ℕ
  voteGranted : Bool
  deriving DecidableEq, Repr

/-- The variables of `countVotes`, and whether it has left its loop by `break`. -/
structure Election where
  count : ℕ
  i : ℕ
  broken : Bool
  deriving DecidableEq, Repr

variable {n : ℕ} {C : Type}

def majority (n : ℕ) : ℕ := n / 2 + 1

def Election.begin : Election := ⟨1, 0, false⟩

/-- The loop of `countVotes` takes another turn. -/
def Election.counting (n : ℕ) (e : Election) : Prop :=
  e.broken = false ∧ e.count < majority n ∧ e.i < n - 1

instance (n : ℕ) (e : Election) : Decidable (e.counting n) :=
  inferInstanceAs (Decidable (e.broken = false ∧ e.count < majority n ∧ e.i < n - 1))

def becomeLeader (rf : Raft n C) : Raft n C :=
  { rf with
    leaderId := some rf.me
    role := .leader
    nextIndex := some fun _ => rf.log.lastIndex + 1
    matchIndex := some fun _ => 0 }

/-- The rest of `leaderElection` for an election of the given term. -/
def finishElection (rf : Raft n C) (term : ℕ) (e : Election) : Raft n C :=
  if rf.currentTerm = term ∧ rf.role = .candidate ∧ e.count ≥ majority n then becomeLeader rf
  else rf

section Persist

variable [Coded (Persisted n C)]

def adoptTerm (rf : Raft n C) (term : ℕ) : Raft n C :=
  if term > rf.currentTerm then stepDown rf term else rf

def requestVote (rf : Raft n C) (args : RequestVoteArgs n) :
    Except Panic (Raft n C × RequestVoteReply) := do
  let reply : RequestVoteReply := ⟨rf.currentTerm, false⟩
  if args.term < rf.currentTerm then return (rf, reply)
  let rf := adoptTerm rf args.term
  if rf.votedFor = none ∨ rf.votedFor = some args.candidateId then
    let last ← rf.log.lastEntry
    if args.lastLogTerm > last.term ∨
        (args.lastLogTerm = last.term ∧ args.lastLogIndex ≥ rf.log.lastIndex) then
      return (persistSate { rf with votedFor := some args.candidateId },
        { reply with voteGranted := true })
    else return (rf, reply)
  else return (rf, reply)

/-- The server once its election timer has run out, and what it asks of its peers. A leader
starts no election. -/
def leaderElection (rf : Raft n C) : Except Panic (Raft n C × Option (RequestVoteArgs n)) := do
  let rf := if rf.role = .follower then { rf with role := .candidate } else rf
  if rf.role = .candidate then
    let rf := persistSate { rf with currentTerm := rf.currentTerm + 1, votedFor := some rf.me }
    let last ← rf.log.lastEntry
    return (rf, some ⟨rf.currentTerm, rf.me, rf.log.lastIndex, last.term⟩)
  else return (rf, none)

/-- One turn, on a reply or on `nil`. -/
def countVote (rf : Raft n C) (e : Election) (reply : Option RequestVoteReply) :
    Raft n C × Election :=
  match reply with
  | none => (rf, { e with i := e.i + 1 })
  | some reply =>
    if reply.voteGranted then (rf, { e with count := e.count + 1, i := e.i + 1 })
    else if reply.term > rf.currentTerm then
      (stepDown rf reply.term, { e with broken := true })
    else (rf, { e with i := e.i + 1 })

end Persist

end Mit6824.RaftElection
