import Mit6824.RaftApplier
import Mit6824.RaftElection
import Mit6824.RaftReplication
import Mit6824.Runs

/-!
A cluster of Raft servers, the calls between them, and the services they deliver to.

One action is what one goroutine does from taking the lock `rf.mu` to releasing it. A call runs
its handler at most once, at any time after it was made; its reply is taken up at most once, or
never. A server crashes between two actions, or inside a handler after `stepDown` has saved,
and starts again from its persister: what its goroutines were doing is lost, calls it made
earlier can still reach their handlers.

The service keeps the list of commands delivered to it and makes snapshots of that list. The
cluster also remembers what was delivered, the snapshots the services took, and the commands
of a leader each time `Start` extended its log.
-/

namespace Mit6824.RaftCluster

open Mit6824.Labgob Mit6824.RaftLog Mit6824.RaftState Mit6824.RaftElection
open Mit6824.RaftReplication Mit6824.RaftApplier Function

structure Server (n : ℕ) (C : Type) where
  raft : Raft n C
  /-- How often the server has been restarted. -/
  epoch : ℕ
  /-- The elections that are counting votes, by their term. -/
  elections : ℕ → Option Election
  applier : Applier C
  /-- The commands the service has been delivered since the server started. -/
  service : List C

/-- A remote call and the epoch of its caller. -/
structure Call (n : ℕ) (A R : Type) where
  src : Fin n
  epoch : ℕ
  dst : Fin n
  args : A
  reply : Option R
  /-- The caller has not gone on yet. -/
  waiting : Bool

structure Delivery (n : ℕ) (C : Type) where
  server : Fin n
  epoch : ℕ
  msg : ApplyMsg C

/-- A snapshot that a service took: it had been delivered these commands up to the index. -/
structure TakenSnapshot (n : ℕ) (C : Type) where
  server : Fin n
  index : ℕ
  commands : List C

/-- All commands of a leader's log after an entry of its term was appended. -/
structure Started (C : Type) where
  term : ℕ
  commands : List C

structure Cluster (n : ℕ) (C : Type) where
  servers : Fin n → Server n C
  voteCalls : List (Call n (RequestVoteArgs n) RequestVoteReply)
  appendCalls : List (Call n (AppendEntriesArgs n C) AppendEntriesReply)
  snapshotCalls : List (Call n (InstallSnapshotArgs n) InstallSnapshotReply)
  delivered : List (Delivery n C)
  taken : List (TakenSnapshot n C)
  started : List (Started C)

inductive Action (n : ℕ) (C : Type)
  | start (s : Fin n) (command : C)
  | snapshot (s : Fin n) (index : ℕ)
  | leaderElection (s : Fin n)
  | requestVote (k : ℕ)
  | countVote (k : ℕ)
  | voteFailed (k : ℕ)
  | finishElection (s : Fin n) (term : ℕ)
  | leaderHeartbeat (s : Fin n)
  | appendEntries (k : ℕ)
  | sendAppendEntries (k : ℕ)
  | installSnapshot (k : ℕ)
  | sendInstallSnapshot (k : ℕ)
  | choose (s : Fin n)
  | deliver (s : Fin n)
  | record (s : Fin n)
  | crash (s : Fin n)
  | crashRequestVote (k : ℕ)
  | crashAppendEntries (k : ℕ)
  | crashInstallSnapshot (k : ℕ)

variable {n : ℕ} {C : Type}

def Server.setRaft (sv : Server n C) (rf : Raft n C) : Server n C := { sv with raft := rf }

def Cluster.setServer (c : Cluster n C) (s : Fin n) (sv : Server n C) : Cluster n C :=
  { c with servers := update c.servers s sv }

def Cluster.setRaft (c : Cluster n C) (s : Fin n) (rf : Raft n C) : Cluster n C :=
  c.setServer s ((c.servers s).setRaft rf)

def Call.answer {A R : Type} (call : Call n A R) (r : R) : Call n A R :=
  { call with reply := some r }

def Call.close {A R : Type} (call : Call n A R) : Call n A R := { call with waiting := false }

/-- The reply of a call whose caller waits for it and is still up. -/
def Cluster.replyOf (c : Cluster n C) {A R : Type} (call : Call n A R) : Option R :=
  if call.waiting ∧ call.epoch = (c.servers call.src).epoch then call.reply else none

def peersOf (s : Fin n) : List (Fin n) := (List.finRange n).filter fun p => p ≠ s

def callTo {A R : Type} (s : Fin n) (epoch : ℕ) (args : A) (p : Fin n) : Call n A R :=
  ⟨s, epoch, p, args, none, true⟩

def Server.boot (rf : Raft n C) (epoch : ℕ) : Server n C :=
  ⟨rf, epoch, fun _ => none, .waiting, []⟩

section Init

variable [Inhabited C]

def Cluster.init : Cluster n C where
  servers := fun s => .boot (blank s makePersister) 0
  voteCalls := []
  appendCalls := []
  snapshotCalls := []
  delivered := []
  taken := []
  started := []

end Init

def Cluster.send (c : Cluster n C) (s : Fin n) (ms : List (Fin n × Send n C)) : Cluster n C :=
  let epoch := (c.servers s).epoch
  { c with
    appendCalls := c.appendCalls ++ ms.filterMap fun (p, m) =>
      match m with
      | .appendEntries args => some (callTo s epoch args p)
      | .installSnapshot _ => none
    snapshotCalls := c.snapshotCalls ++ ms.filterMap fun (p, m) =>
      match m with
      | .appendEntries _ => none
      | .installSnapshot args => some (callTo s epoch args p) }

section Service

variable [Coded (List C)]

/-- The commands in the snapshot of a server, which has none at index `0`. -/
def snapshotCommands (rf : Raft n C) : List C :=
  if rf.snapshotIndex = 0 then [] else (decode rf.snapshot : Option (List C)).getD []

/-- All commands a server has: those of its snapshot and those of its log above it. -/
def commandsOf (rf : Raft n C) : List C :=
  snapshotCommands rf ++ (rf.log.entries.drop 1).map Entry.command

def serve (service : List C) : ApplyMsg C → Except Panic (List C)
  | .command command _ => .ok (service ++ [command])
  | .snapshot data _ _ =>
    match (decode data : Option (List C)) with
    | none => .error .decodeError
    | some commands => .ok commands

end Service

variable [Coded (Persisted n C)]

def Cluster.restart [Inhabited C] (c : Cluster n C) (s : Fin n) (p : Persister) :
    Except Panic (Cluster n C) := do
  let rf ← make s p
  return c.setServer s (.boot rf ((c.servers s).epoch + 1))

/-- The election of the call takes a turn on the given reply and the call is closed. -/
def Cluster.turn (c : Cluster n C) (k : ℕ) (call : Call n (RequestVoteArgs n) RequestVoteReply)
    (reply : Option RequestVoteReply) : Option (Cluster n C) :=
  let sv := c.servers call.src
  match sv.elections call.args.term with
  | none => none
  | some e =>
    if e.counting n then
      let (rf, e) := RaftElection.countVote sv.raft e reply
      some { c.setServer call.src { sv with
          raft := rf, elections := update sv.elections call.args.term (some e) } with
        voteCalls := c.voteCalls.set k call.close }
    else none

variable [Inhabited C] [Coded (List C)]

/-- One action: `none` when it cannot be taken, an error when it stops the server. -/
def step (c : Cluster n C) : Action n C → Option (Except Panic (Cluster n C))
  | .start s command =>
    let (rf, _, term, isLeader) := RaftState.start (c.servers s).raft command
    if isLeader then
      some (.ok { c.setRaft s rf with started := ⟨term, commandsOf rf⟩ :: c.started })
    else some (.ok c)
  | .snapshot s index =>
    let sv := c.servers s
    if index ≤ sv.service.length then some do
      let commands := sv.service.take index
      let rf ← RaftReplication.snapshot sv.raft index (encode commands)
      return { c.setRaft s rf with taken := ⟨s, index, commands⟩ :: c.taken }
    else none
  | .leaderElection s => some do
    let sv := c.servers s
    let (rf, args) ← RaftElection.leaderElection sv.raft
    match args with
    | none => return c.setRaft s rf
    | some args =>
      let elections := update sv.elections args.term (some .begin)
      return { c.setServer s { sv with raft := rf, elections } with
        voteCalls := c.voteCalls ++ (peersOf s).map (callTo s sv.epoch args) }
  | .requestVote k =>
    match c.voteCalls[k]? with
    | none => none
    | some call =>
      if call.reply.isNone then some do
        let (rf, reply) ← RaftElection.requestVote (c.servers call.dst).raft call.args
        return { c.setRaft call.dst rf with
          voteCalls := c.voteCalls.set k (call.answer reply) }
      else none
  | .countVote k =>
    match c.voteCalls[k]? with
    | none => none
    | some call =>
      match c.replyOf call with
      | none => none
      | some reply => (c.turn k call (some reply)).map .ok
  | .voteFailed k =>
    match c.voteCalls[k]? with
    | none => none
    | some call =>
      if call.waiting ∧ call.epoch = (c.servers call.src).epoch then
        (c.turn k call none).map .ok
      else none
  | .finishElection s term =>
    let sv := c.servers s
    match sv.elections term with
    | none => none
    | some e =>
      if e.counting n then none
      else
        let rf := RaftElection.finishElection sv.raft term e
        some (.ok (c.setServer s { sv with
          raft := rf, elections := update sv.elections term none }))
  | .leaderHeartbeat s =>
    let rf := (c.servers s).raft
    if rf.role = .leader then some do
      let ms ← leaderLogReplication rf
      return c.send s ms
    else none
  | .appendEntries k =>
    match c.appendCalls[k]? with
    | none => none
    | some call =>
      if call.reply.isNone then some do
        let (rf, reply) ← RaftReplication.appendEntries (c.servers call.dst).raft call.args
        return { c.setRaft call.dst rf with
          appendCalls := c.appendCalls.set k (call.answer reply) }
      else none
  | .sendAppendEntries k =>
    match c.appendCalls[k]? with
    | none => none
    | some call =>
      match c.replyOf call with
      | none => none
      | some reply => some do
        let rf ← RaftReplication.sendAppendEntries (c.servers call.src).raft call.dst call.args
          reply
        return { c.setRaft call.src rf with appendCalls := c.appendCalls.set k call.close }
  | .installSnapshot k =>
    match c.snapshotCalls[k]? with
    | none => none
    | some call =>
      if call.reply.isNone then some do
        let (rf, reply) ← RaftReplication.installSnapshot (c.servers call.dst).raft call.args
        return { c.setRaft call.dst rf with
          snapshotCalls := c.snapshotCalls.set k (call.answer reply) }
      else none
  | .sendInstallSnapshot k =>
    match c.snapshotCalls[k]? with
    | none => none
    | some call =>
      match c.replyOf call with
      | none => none
      | some reply => some do
        let rf ← RaftReplication.sendInstallSnapshot (c.servers call.src).raft call.dst
          call.args reply
        return { c.setRaft call.src rf with snapshotCalls := c.snapshotCalls.set k call.close }
  | .choose s =>
    let sv := c.servers s
    match sv.applier with
    | .waiting => some do
      match ← nextMsg sv.raft with
      | none => return c
      | some msg => return c.setServer s { sv with applier := .sending msg }
    | _ => none
  | .deliver s =>
    let sv := c.servers s
    match sv.applier with
    | .sending msg => some do
      let service ← serve sv.service msg
      return { c.setServer s { sv with applier := .sent msg, service } with
        delivered := ⟨s, sv.epoch, msg⟩ :: c.delivered }
    | _ => none
  | .record s =>
    let sv := c.servers s
    match sv.applier with
    | .sent msg =>
      some (.ok (c.setServer s { sv with
        raft := recordApplied sv.raft msg, applier := .waiting }))
    | _ => none
  | .crash s => some (c.restart s (c.servers s).raft.persister)
  | .crashRequestVote k =>
    match c.voteCalls[k]? with
    | none => none
    | some call =>
      let rf := (c.servers call.dst).raft
      if call.reply.isNone ∧ rf.currentTerm ≤ call.args.term then
        some (c.restart call.dst (adoptTerm rf call.args.term).persister)
      else none
  | .crashAppendEntries k =>
    match c.appendCalls[k]? with
    | none => none
    | some call =>
      let rf := (c.servers call.dst).raft
      if call.reply.isNone ∧ rf.currentTerm ≤ call.args.term then
        some (c.restart call.dst (heardFrom rf call.args.term call.args.leaderId).persister)
      else none
  | .crashInstallSnapshot k =>
    match c.snapshotCalls[k]? with
    | none => none
    | some call =>
      let rf := (c.servers call.dst).raft
      if call.reply.isNone ∧ rf.currentTerm ≤ call.args.term then
        some (c.restart call.dst (heardFrom rf call.args.term call.args.leaderId).persister)
      else none

/-- An action in which no server stops. -/
def advance (c : Cluster n C) (act : Action n C) : Option (Cluster n C) :=
  match step c act with
  | some (.ok c') => some c'
  | _ => none

lemma advance_eq_some_iff {c c' : Cluster n C} {act : Action n C} :
    advance c act = some c' ↔ step c act = some (.ok c') := by
  unfold advance
  split
  · next c₁ hs => rw [hs, Option.some.injEq, Option.some.injEq, Except.ok.injEq]
  · next hno => exact ⟨fun h => (nomatch h), fun h => absurd h (hno c')⟩

end Mit6824.RaftCluster
