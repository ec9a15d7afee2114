import Mit6824.CtrlConfig
import Mit6824.Sessions

/-!
The shard controller (`shardctrler/server.go`): the configurations it has published, the last
number of each client, the first part of a handler, and what the applier does with a command.

A map is a reference. So the `Groups` of a configuration are an address here, under which a map
stands: a change works on a copy at an address of its own, but for the first `Join`, whose
configuration takes over the map of the command.
-/

namespace Mit6824.CtrlServer

open Mit6824.GoData Mit6824.MapOrder Mit6824.CtrlConfig Mit6824.Sessions
open Mit6824.ShardServer (NShards Shard)

/-! ### Commands -/

/-- `JoinArgs`, `LeaveArgs` and `MoveArgs` without the client and its number. -/
inductive Change
  | join (groups : GoMap Gid (List GoString))
  | leave (gids : List Gid)
  | move (shard : ℤ) (gid : Gid)
  deriving DecidableEq

inductive Command
  | change (ch : Change)
  | query (num : ℤ)
  deriving DecidableEq

structure Op where
  command : Command
  seqNum : ℕ
  clientId : ℕ
  deriving DecidableEq

instance : Numbered ℕ Op := ⟨Op.clientId, Op.seqNum⟩

@[simp] lemma client_eq (op : Op) : client op = op.clientId := rfl

@[simp] lemma seq_eq (op : Op) : seq op = op.seqNum := rfl

def Op.isChange (op : Op) : Bool :=
  match op.command with
  | .change _ => true
  | .query _ => false

/-- What the applier does with the copy of the latest configuration. -/
def Change.exec (passes : ℕ) (config : Config) : Change → Prog Gid Config
  | join groups =>
    if config.num = 0 then { config with groups := groups }.resetShards passes
    else config.joinGroups groups
  | leave gids => config.removeGroups gids
  | move shard gid => config.moveShard shard gid

/-! ### The server -/

/-- A `Config` as it lies in memory. -/
structure Entry where
  num : ℕ
  shards : Shard → Gid
  groups : ℕ
  deriving DecidableEq

/-- `maps` are the maps in memory by address; `clientsStatus` maps a client to its
`lastSeqNum`. -/
structure ShardCtrler where
  maps : List (GoMap Gid (List GoString))
  entries : List Entry
  clientsStatus : GoMap ℕ ℕ
  deriving DecidableEq

def boot : ShardCtrler := ⟨[∅], [⟨0, fun _ => 0, 0⟩], ∅⟩

namespace ShardCtrler

/-- The configuration that an entry stands for. -/
def read (sc : ShardCtrler) (e : Entry) : Config := ⟨e.num, e.shards, (sc.maps[e.groups]?).getD ∅⟩

def alloc (sc : ShardCtrler) (m : GoMap Gid (List GoString)) : ShardCtrler × ℕ :=
  ({ sc with maps := sc.maps ++ [m] }, sc.maps.length)

def write (sc : ShardCtrler) (ref : ℕ) (m : GoMap Gid (List GoString)) : ShardCtrler :=
  { sc with maps := sc.maps.set ref m }

def append (sc : ShardCtrler) (e : Entry) : ShardCtrler :=
  { sc with entries := sc.entries ++ [{ e with num := sc.entries.length }] }

def getLatestConfig (sc : ShardCtrler) : Prog Gid Entry :=
  match sc.entries.getLast? with
  | some e => return e
  | none => throw .panicked

def getConfig (sc : ShardCtrler) (index : ℤ) : Option Entry :=
  if 0 ≤ index ∧ index < sc.entries.length then sc.entries[index.toNat]?
  else sc.entries.getLast?

def done (sc : ShardCtrler) (clientId seqNum : ℕ) : Prop :=
  mark sc.clientsStatus clientId ≥ seqNum

instance (sc : ShardCtrler) (clientId seqNum : ℕ) : Decidable (sc.done clientId seqNum) :=
  Nat.decLe _ _

def updateSeqNum (sc : ShardCtrler) (clientId seqNum : ℕ) : ShardCtrler :=
  { sc with clientsStatus := sc.clientsStatus.insert clientId seqNum }

def getClientStatus (sc : ShardCtrler) (clientId : ℕ) : ShardCtrler :=
  { sc with clientsStatus := touch sc.clientsStatus clientId }

/-- The map at the address is what the methods of the configuration have made of it. -/
def publish (sc : ShardCtrler) (ref : ℕ) (config : Config) : ShardCtrler :=
  (sc.write ref config.groups).append ⟨config.num, config.shards, ref⟩

/-- The branches of the applier for `Join`, `Leave` and `Move`, up to `updateSeqNum`. -/
def applyChange (passes : ℕ) (sc : ShardCtrler) (ch : Change) : Prog Gid ShardCtrler := do
  let config ← (sc.read (← sc.getLatestConfig)).clone
  let (sc, ref) := sc.alloc config.groups
  match ch with
  | .join groups =>
    if config.num = 0 then
      let (sc, ref) := sc.alloc groups
      let config ← { config with groups := groups }.resetShards passes
      return sc.publish ref config
    else
      let config ← config.joinGroups groups
      return sc.publish ref config
  | .leave gids =>
    let config ← config.removeGroups gids
    return sc.publish ref config
  | .move shard gid =>
    let config ← config.moveShard shard gid
    return sc.publish ref config

/-- The first part of a branch, which leaves the number of the client for later. -/
def execute (passes : ℕ) (sc : ShardCtrler) (op : Op) : Prog Gid ShardCtrler :=
  match op.command with
  | .change ch => sc.applyChange passes ch
  | .query _ => return sc

def applyOp (passes : ℕ) (sc : ShardCtrler) (op : Op) : Prog Gid ShardCtrler := do
  let sc := sc.getClientStatus op.clientId
  if sc.done op.clientId op.seqNum then
    return sc
  else
    let sc ← sc.execute passes op
    return sc.updateSeqNum op.clientId op.seqNum

def applyAll (passes : ℕ) (sc : ShardCtrler) (log : List Op) : Prog Gid ShardCtrler := do
  let mut sc := sc
  for op in log do
    sc ← sc.applyOp passes op
  return sc

end ShardCtrler

/-! ### Handlers -/

/-- Where `operate` gets to while it holds the client's lock. -/
inductive Operate
  | done
  | started
  | wrongLeader
  deriving DecidableEq, Repr

/-- `operate` up to its return or its wait; `isLeader` is what `Start` answers. -/
def ShardCtrler.operate (sc : ShardCtrler) (op : Op) (isLeader : Bool) : ShardCtrler × Operate :=
  let sc := sc.getClientStatus op.clientId
  if sc.done op.clientId op.seqNum then (sc, .done)
  else if isLeader then (sc, .started)
  else (sc, .wrongLeader)

end Mit6824.CtrlServer
