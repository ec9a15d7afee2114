import Mit6824.RaftState

/-!
The applier (`raft/applier.go`): one turn chooses a message under the lock, sends it on
`applyCh` without the lock, and takes the lock again to record what was applied.
-/

namespace Mit6824.RaftApplier

open Mit6824.Labgob Mit6824.RaftLog Mit6824.RaftState

/-- `ApplyMsg` with `CommandValid` or with `SnapshotValid` set. -/
inductive ApplyMsg (C : Type)
  | command (command : C) (commandIndex : ℕ)
  | snapshot (snapshot : Bytes) (snapshotTerm snapshotIndex : ℕ)
  deriving DecidableEq, Repr

/-- Where the applier is in its turn. -/
inductive Applier (C : Type)
  | waiting
  | sending (msg : ApplyMsg C)
  | sent (msg : ApplyMsg C)
  deriving DecidableEq, Repr

variable {n : ℕ} {C : Type}

/-- The last index the message brings the service to. -/
def ApplyMsg.index : ApplyMsg C → ℕ
  | .command _ i => i
  | .snapshot _ _ i => i

/-- The message the applier takes up, if it has not to wait. -/
def nextMsg (rf : Raft n C) : Except Panic (Option (ApplyMsg C)) := do
  if rf.snapshotIndex > rf.lastApplied then
    return some (.snapshot rf.snapshot rf.snapshotTerm rf.snapshotIndex)
  else if rf.lastApplied < rf.commitIndex then
    let e ← rf.log.entry (rf.lastApplied + 1)
    return some (.command e.command (rf.lastApplied + 1))
  else return none

/-- What it records once the message is sent. -/
def recordApplied (rf : Raft n C) : ApplyMsg C → Raft n C
  | .snapshot _ _ snapshotIndex =>
    if snapshotIndex > rf.lastApplied then
      { rf with
        lastApplied := snapshotIndex
        commitIndex := if snapshotIndex > rf.commitIndex then snapshotIndex else rf.commitIndex }
    else rf
  | .command _ commandIndex =>
    if commandIndex ≥ rf.lastApplied + 1 then { rf with lastApplied := commandIndex } else rf

end Mit6824.RaftApplier
