import Mit6824.RaftBranches
import Mit6824.RaftCluster
import Mit6824.RaftDurable

/-!
The cluster as a run of the protocol without messages.

`Sim K c a` relates a cluster to a state of the protocol. Every server mirrors its abstract
self, whose log is not compacted; every call carries what its receiver may rely on; and all
that was ever snapshotted, applied or acknowledged is a decided prefix. Under `K` the log of a
server also continues the very prefix its snapshot covers, which the code alone does not
ensure.
-/

namespace Mit6824.RaftSim

open Mit6824.Labgob Mit6824.Quorum Mit6824.TermLog Mit6824.Repl
open Mit6824.RaftLog Mit6824.RaftState Mit6824.RaftElection Mit6824.RaftReplication
open Mit6824.RaftApplier Mit6824.RaftCluster Function

variable {n : ℕ} {C : Type}

/-- The state of the protocol that a cluster mirrors. -/
abbrev Abs (n : ℕ) (C : Type) := Repl.State (Fin n) (Entry C)

def commands (l : List (Entry C)) : List C := l.map Entry.command

/-- The prefix up to `index` is decided by term `t`, and the data is a snapshot of it that a
service took. -/
def Shot [Coded (List C)] (taken : List (TakenSnapshot n C)) (a : Abs n C) (t index term : ℕ)
    (data : Bytes) : Prop :=
  ∃ l, Decided a t l ∧ l.length = index ∧ lastTerm l = term ∧ (0 < index →
    data = encode (commands l) ∧ ∃ r ∈ taken, r.index = index ∧ r.commands = commands l)

/-- The message brings the service of a server in term `t` to a decided prefix. -/
def MsgOk [Coded (List C)] (taken : List (TakenSnapshot n C)) (a : Abs n C) (t : ℕ) :
    ApplyMsg C → Prop
  | .command cmd index =>
    ∃ l, Decided a t l ∧ l.length = index ∧ ∃ x, commands l = x ++ [cmd]
  | .snapshot data term index => 0 < index ∧ Shot taken a t index term data

/-! ### Servers -/

/-- The server's fields are those of its abstract self. -/
structure Mirror (a : Abs n C) (i : Fin n) (rf : Raft n C) : Prop where
  me : rf.me = i
  term : a.term i = rf.currentTerm
  held : a.held i = rf.votedFor
  cand : a.cand i ↔ rf.role = .candidate
  lead : rf.role = .leader → a.lead rf.currentTerm = some i
  snap : a.snap i = rf.snapshotIndex
  index0 : rf.log.index0 = rf.snapshotIndex
  log : Retains rf.log (a.log i)

/-- What the leader of term `t` knows of a peer. -/
structure Peer (a : Abs n C) (t : ℕ) (p : Fin n) (next mtch : ℕ) : Prop where
  aligned : next ≤ a.base t → Aligned a p t
  acked : mtch ≤ a.ack p t ∨ ∃ l, Decided a t l ∧ mtch ≤ l.length
  covers : 0 < mtch → Covers a p t mtch

def Leading (a : Abs n C) (i : Fin n) (rf : Raft n C) : Prop :=
  rf.role = .leader → ∃ next mtch, rf.nextIndex = some next ∧ rf.matchIndex = some mtch ∧
    ∀ p, mtch p < next p ∧ next p ≤ (a.llog rf.currentTerm).length + 1 ∧
      (p ≠ i → Peer a rf.currentTerm p (next p) (mtch p))

/-- The commit index is that of a decided prefix, which the server has in its log or has
compacted. -/
def CommitOk (a : Abs n C) (i : Fin n) (rf : Raft n C) : Prop :=
  ∃ l, Decided a rf.currentTerm l ∧ l.length = rf.commitIndex ∧
    (l <+: a.log i ∨ rf.commitIndex ≤ rf.snapshotIndex)

/-- A message the applier has chosen: it is the next one, and what it brings is committed or
compacted. -/
def Chosen (rf : Raft n C) : ApplyMsg C → Prop
  | .command _ index => index = rf.lastApplied + 1 ∧ index ≤ rf.commitIndex
  | .snapshot _ _ index => rf.lastApplied < index ∧ index ≤ rf.snapshotIndex

/-- The service holds a decided prefix, up to the last index that was sent to it. -/
structure Serving [Coded (List C)] (taken : List (TakenSnapshot n C)) (a : Abs n C)
    (sv : Server n C) : Prop where
  service : ∃ d, Decided a sv.raft.currentTerm d ∧ sv.service = commands d
  waiting : sv.applier = .waiting → sv.service.length = sv.raft.lastApplied
  sending : ∀ m, sv.applier = .sending m → sv.service.length = sv.raft.lastApplied ∧
    Chosen sv.raft m ∧ MsgOk taken a sv.raft.currentTerm m
  sent : ∀ m, sv.applier = .sent m → sv.service.length = m.index ∧ Chosen sv.raft m

section ServerOk

variable [Coded (Persisted n C)] [Inhabited C] [Coded (List C)]

structure ServerOk (K : Prop) (taken : List (TakenSnapshot n C)) (a : Abs n C) (i : Fin n)
    (sv : Server n C) : Prop where
  mirror : Mirror a i sv.raft
  durable : Durable sv.raft
  shot : Shot taken a sv.raft.currentTerm sv.raft.snapshotIndex sv.raft.snapshotTerm
    sv.raft.snapshot
  coherent : K → Decided a sv.raft.currentTerm ((a.log i).take sv.raft.snapshotIndex)
  commit : CommitOk a i sv.raft
  applied : sv.raft.lastApplied ≤ sv.raft.commitIndex
  leading : Leading a i sv.raft
  serving : Serving taken a sv

end ServerOk

/-! ### Calls -/

structure VoteOk (a : Abs n C) (call : Call n (RequestVoteArgs n) RequestVoteReply) : Prop where
  cand : call.args.candidateId = call.src
  ne : call.src ≠ call.dst
  stood : a.vote call.src call.args.term call.src
  lastIndex : call.args.lastLogIndex = (a.clog call.args.term call.src).length
  lastTerm : call.args.lastLogTerm = lastTerm (a.clog call.args.term call.src)
  granted : ∀ r, call.reply = some r → r.voteGranted = true →
    a.vote call.dst call.args.term call.src

/-- The index of the last entry a request brings. -/
def upTo (args : AppendEntriesArgs n C) : ℕ := args.prevLogIndex + args.entries.length

structure AppendOk (a : Abs n C)
    (call : Call n (AppendEntriesArgs n C) AppendEntriesReply) : Prop where
  lead : a.lead call.args.term = some call.src
  ne : call.src ≠ call.dst
  prevTerm : call.args.prevLogTerm = termAt (a.llog call.args.term) call.args.prevLogIndex
  entries : (a.llog call.args.term).take call.args.prevLogIndex ++ call.args.entries =
    (a.llog call.args.term).take (upTo call.args)
  le : upTo call.args ≤ (a.llog call.args.term).length
  base_le : a.base call.args.term ≤ upTo call.args
  commit : ∃ l, Decided a call.args.term l ∧ l.length = call.args.leaderCommitIndex ∧
    l.length ≤ upTo call.args
  aligned : call.args.prevLogIndex < a.base call.args.term → Aligned a call.dst call.args.term
  success : ∀ r, call.reply = some r → r.success = true →
    (upTo call.args ≤ a.ack call.dst call.args.term ∨
      ∃ l, Decided a call.args.term l ∧ upTo call.args ≤ l.length) ∧
    Covers a call.dst call.args.term (upTo call.args)
  conflict : ∀ r, call.reply = some r → r.success = false → r.term ≤ call.args.term →
    r.conflictIndex ≤ call.args.prevLogIndex ∧
      (r.conflictIndex ≤ a.base call.args.term → Aligned a call.dst call.args.term)

structure SnapshotOk [Coded (List C)] (taken : List (TakenSnapshot n C)) (a : Abs n C)
    (call : Call n (InstallSnapshotArgs n) InstallSnapshotReply) : Prop where
  lead : a.lead call.args.term = some call.src
  ne : call.src ≠ call.dst
  pos : 0 < call.args.lastIncludedIndex
  shot : Shot taken a call.args.term call.args.lastIncludedIndex call.args.lastIncludedTerm
    call.args.data
  aligned : call.args.lastIncludedIndex < a.base call.args.term →
    Aligned a call.dst call.args.term
  covers : ∀ r, call.reply = some r → r.term ≤ call.args.term →
    Covers a call.dst call.args.term call.args.lastIncludedIndex

/-- A server that made the call and is still in its term still leads. -/
def StillLeads (sv : Server n C) (call : Call n (InstallSnapshotArgs n) InstallSnapshotReply) :
    Prop :=
  call.epoch ≤ sv.epoch ∧ (call.epoch = sv.epoch →
    call.args.term = sv.raft.currentTerm → sv.raft.role = .leader)

/-- What makes two vote calls the same. -/
def voteKey (call : Call n (RequestVoteArgs n) RequestVoteReply) : Fin n × ℕ × Fin n :=
  (call.src, call.args.term, call.dst)

/-- The votes counted for server `s` in term `t` were cast, by servers whose calls are closed. -/
def ElectionOk (a : Abs n C) (calls : List (Call n (RequestVoteArgs n) RequestVoteReply))
    (s : Fin n) (t : ℕ) (e : Election) : Prop :=
  a.vote s t s ∧ ∃ V : Finset (Fin n), s ∉ V ∧ e.count = V.card + 1 ∧ ∀ v ∈ V, a.vote v t s ∧
    ∀ call ∈ calls, voteKey call = (s, t, v) → call.waiting = false

/-- Every entry a leader appended to its log is on record with all that was before it. -/
def Recorded (started : List (Started C)) (a : Abs n C) : Prop :=
  ∀ t, Elected a t → ∀ j, a.base t < j → j ≤ (a.llog t).length →
    ⟨t, commands ((a.llog t).take j)⟩ ∈ started

variable [Coded (Persisted n C)] [Inhabited C] [Coded (List C)]

structure Sim (K : Prop) (c : Cluster n C) (a : Abs n C) : Prop where
  inv : Inv a
  server : ∀ i, ServerOk K c.taken a i (c.servers i)
  votes : ∀ call ∈ c.voteCalls, VoteOk a call
  keys : (c.voteCalls.map voteKey).Nodup
  elections : ∀ s t e, (c.servers s).elections t = some e → ElectionOk a c.voteCalls s t e
  appends : ∀ call ∈ c.appendCalls, AppendOk a call
  snapshots : ∀ call ∈ c.snapshotCalls, SnapshotOk c.taken a call
  leads : ∀ call ∈ c.snapshotCalls, StillLeads (c.servers call.src) call
  delivered : ∀ d ∈ c.delivered, ∃ t, MsgOk c.taken a t d.msg
  started : Recorded c.started a

end Mit6824.RaftSim
