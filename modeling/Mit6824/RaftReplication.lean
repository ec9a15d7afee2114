import Mit6824.Quorum
import Mit6824.RaftState

/-!
Log replication (`raft/log_replication.go`) and compaction (`raft/log_compaction.go`).

`sendAppendEntries` and `sendInstallSnapshot` are the parts that run once the call has
returned with a reply.
-/

namespace Mit6824.RaftReplication

open Mit6824.Labgob Mit6824.Quorum Mit6824.RaftLog Mit6824.RaftState

structure AppendEntriesArgs (n : ℕ) (C : Type) where
  term : ℕ
  leaderId : Fin n
  prevLogIndex : ℕ
  prevLogTerm : ℕ
  entries : List (Entry C)
  leaderCommitIndex : ℕ
  deriving DecidableEq, Repr

structure AppendEntriesReply where
  term : ℕ
  conflictTerm : ℕ
  conflictIndex : ℕ
  success : Bool
  deriving DecidableEq, Repr

structure InstallSnapshotArgs (n : ℕ) where
  term : ℕ
  leaderId : Fin n
  lastIncludedIndex : ℕ
  lastIncludedTerm : ℕ
  data : Bytes
  deriving DecidableEq, Repr

structure InstallSnapshotReply where
  term : ℕ
  deriving DecidableEq, Repr

variable {n : ℕ} {C : Type}

def followerCommit (rf : Raft n C) (leaderCommitIndex : ℕ) : Raft n C :=
  if leaderCommitIndex > rf.commitIndex then
    { rf with commitIndex := min leaderCommitIndex rf.log.lastIndex }
  else rf

section Handlers

variable [Coded (Persisted n C)]

/-- What both handlers do first with a request whose term is not out of date. -/
def heardFrom (rf : Raft n C) (term : ℕ) (leaderId : Fin n) : Raft n C :=
  let rf := { rf with leaderId := some leaderId }
  if term > rf.currentTerm ∨ rf.role = .candidate then stepDown rf term else rf

/-- The branches of `AppendEntries` after the term checks. -/
def placeEntries (rf : Raft n C) (args : AppendEntriesArgs n C) (reply : AppendEntriesReply) :
    Except Panic (Raft n C × AppendEntriesReply) := do
  if args.prevLogIndex > rf.log.lastIndex then
    let last ← rf.log.lastEntry
    return (rf, { reply with
      conflictTerm := last.term, conflictIndex := rf.log.lastIndex, success := false })
  else if args.prevLogIndex < rf.snapshotIndex then
    let i := rf.snapshotIndex - args.prevLogIndex - 1
    match args.entries[i]? with
    | none => return (rf, { reply with success := true })
    | some e =>
      assert (e.term = rf.snapshotTerm)
        s!"args.Entries[i].Term={e.term} ,rf.snapshotTerm={rf.snapshotTerm}"
      let log ← rf.log.place rf.snapshotIndex (args.entries.drop i)
      return (followerCommit (persistSate { rf with log }) args.leaderCommitIndex,
        { reply with success := true })
  else
    let prev ← rf.log.entry args.prevLogIndex
    if prev.term ≠ args.prevLogTerm then
      let log ← rf.log.cutOffTail args.prevLogIndex
      return (persistSate { rf with log }, { reply with
        conflictTerm := prev.term, conflictIndex := args.prevLogIndex, success := false })
    else
      let log ← rf.log.place (args.prevLogIndex + 1) args.entries
      return (followerCommit (persistSate { rf with log }) args.leaderCommitIndex,
        { reply with success := true })

def appendEntries (rf : Raft n C) (args : AppendEntriesArgs n C) :
    Except Panic (Raft n C × AppendEntriesReply) :=
  let reply : AppendEntriesReply := ⟨rf.currentTerm, 0, 0, false⟩
  if args.term < rf.currentTerm then .ok (rf, reply)
  else placeEntries (heardFrom rf args.term args.leaderId) args reply

/-- What `InstallSnapshot` does with a snapshot that is ahead of the server. -/
def replaceLog [Inhabited C] (rf : Raft n C) (args : InstallSnapshotArgs n) :
    Except Panic (Raft n C) := do
  let log ←
    if rf.log.lastIndex > args.lastIncludedIndex then rf.log.cutOffHead args.lastIncludedIndex
    else pure ⟨[⟨args.lastIncludedTerm, default⟩], args.lastIncludedIndex⟩
  return persist { rf with
    log
    snapshotIndex := args.lastIncludedIndex
    snapshotTerm := args.lastIncludedTerm
    snapshot := args.data }

def installSnapshot [Inhabited C] (rf : Raft n C) (args : InstallSnapshotArgs n) :
    Except Panic (Raft n C × InstallSnapshotReply) :=
  let reply : InstallSnapshotReply := ⟨rf.currentTerm⟩
  if args.term < rf.currentTerm then .ok (rf, reply)
  else
    let rf := heardFrom rf args.term args.leaderId
    if rf.snapshotIndex ≥ args.lastIncludedIndex ∨ rf.lastApplied ≥ args.lastIncludedIndex then
      .ok (rf, reply)
    else do
      let rf ← replaceLog rf args
      return (rf, reply)

/-- The service has all commands up to `index` in the snapshot. -/
def snapshot (rf : Raft n C) (index : ℕ) (data : Bytes) : Except Panic (Raft n C) := do
  if index ≤ rf.snapshotIndex then return rf
  let e ← rf.log.entry index
  let log ← rf.log.cutOffHead index
  return persist { rf with snapshot := data, snapshotTerm := e.term, snapshotIndex := index, log }

end Handlers

/-! ### The leader -/

/-- Reads an array that is made when the server first becomes leader. -/
def atPeer (f : Option (Fin n → ℕ)) (server : Fin n) : Except Panic ℕ :=
  match f with
  | none => .error .indexOutOfRange
  | some f => .ok (f server)

def setPeer (f : Option (Fin n → ℕ)) (server : Fin n) (v : ℕ) : Option (Fin n → ℕ) :=
  f.map fun f => Function.update f server v

def getSortedMatchIndex (rf : Raft n C) : Except Panic (List ℕ) :=
  match rf.matchIndex with
  | none => .error .indexOutOfRange
  | some f => .ok (sorted (Function.update f rf.me rf.log.lastIndex))

def leaderCommit (rf : Raft n C) : Except Panic (Raft n C) := do
  let serverMatchedIndex ← getSortedMatchIndex rf
  match serverMatchedIndex[(n + 1) / 2 - 1]?, serverMatchedIndex[0]? with
  | some commitIndex, some least =>
    if commitIndex ≤ rf.snapshotIndex then return rf
    let e ← rf.log.entry commitIndex
    if (e.term = rf.currentTerm ∨ commitIndex = least) ∧ commitIndex > rf.commitIndex then
      return { rf with commitIndex }
    else return rf
  | _, _ => throw .indexOutOfRange

/-- The loop of `sendAppendEntries` that steps over the entries of one term. -/
def stepOver (l : Log C) (term : ℕ) : ℕ → Except Panic ℕ
  | 0 => do
    let _ ← l.entry 0
    return 0
  | i + 1 => do
    let e ← l.entry (i + 1)
    if e.term = term ∧ i + 1 > l.start then stepOver l term i else return i + 1

/-- Where to go on after a conflict the follower has reported. -/
def rollBack (rf : Raft n C) (reply : AppendEntriesReply) : Except Panic ℕ := do
  if reply.conflictIndex < rf.snapshotIndex then return reply.conflictIndex + 1
  let e ← rf.log.entry reply.conflictIndex
  if e.term = reply.conflictTerm then return reply.conflictIndex + 1
  else
    let newNextIndex ← stepOver rf.log e.term reply.conflictIndex
    return newNextIndex + 1

inductive Send (n : ℕ) (C : Type)
  | appendEntries (args : AppendEntriesArgs n C)
  | installSnapshot (args : InstallSnapshotArgs n)

/-- One turn of the loop of `leaderLogReplication`. -/
def replicate (rf : Raft n C) (peerId : Fin n) : Except Panic (Send n C) := do
  let nextIndex ← atPeer rf.nextIndex peerId
  let matchIndex ← atPeer rf.matchIndex peerId
  -- an `int`: the assertion excludes `-1`
  let before : ℤ := nextIndex - 1
  assert (matchIndex ≤ before)
    s!"leaderLogReplication, rf.matchIndex[{peerId}]={matchIndex}, prevLogIndex={before}"
  let prevLogIndex := nextIndex - 1
  if prevLogIndex < rf.snapshotIndex then
    return .installSnapshot
      ⟨rf.currentTerm, rf.me, rf.snapshotIndex, rf.snapshotTerm, rf.snapshot⟩
  else
    let prev ← rf.log.entry prevLogIndex
    let entries ← rf.log.slice (prevLogIndex + 1)
    return .appendEntries
      ⟨rf.currentTerm, rf.me, prevLogIndex, prev.term, entries, rf.commitIndex⟩

def leaderLogReplication (rf : Raft n C) : Except Panic (List (Fin n × Send n C)) :=
  ((List.finRange n).filter fun peerId => peerId ≠ rf.me).mapM fun peerId => do
    let m ← replicate rf peerId
    return (peerId, m)

/-! ### Replies -/

variable [Coded (Persisted n C)]

def sendAppendEntries (rf : Raft n C) (server : Fin n) (args : AppendEntriesArgs n C)
    (reply : AppendEntriesReply) : Except Panic (Raft n C) := do
  if args.term ≠ rf.currentTerm ∨ rf.role ≠ .leader then return rf
  if reply.success then
    let oldMatchIndex ← atPeer rf.matchIndex server
    let matchIndex := args.prevLogIndex + args.entries.length
    if oldMatchIndex < matchIndex then
      let rf ← leaderCommit { rf with matchIndex := setPeer rf.matchIndex server matchIndex }
      return { rf with nextIndex := setPeer rf.nextIndex server (matchIndex + 1) }
    else return { rf with nextIndex := setPeer rf.nextIndex server (oldMatchIndex + 1) }
  else if reply.term > rf.currentTerm then return stepDown rf reply.term
  else
    let newNextIndex ← rollBack rf reply
    let matchIndex ← atPeer rf.matchIndex server
    let nextIndex := setPeer rf.nextIndex server (max (matchIndex + 1) newNextIndex)
    return { rf with nextIndex }

def sendInstallSnapshot (rf : Raft n C) (server : Fin n) (args : InstallSnapshotArgs n)
    (reply : InstallSnapshotReply) : Except Panic (Raft n C) := do
  if args.term ≠ rf.currentTerm then return rf
  if reply.term > rf.currentTerm then return stepDown rf reply.term
  let matchIndex ← atPeer rf.matchIndex server
  if matchIndex < args.lastIncludedIndex then
    return { rf with
      matchIndex := setPeer rf.matchIndex server args.lastIncludedIndex
      nextIndex := setPeer rf.nextIndex server (args.lastIncludedIndex + 1) }
  else return rf

end Mit6824.RaftReplication
