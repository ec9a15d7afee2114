import Mit6824.ShardProtocol

/-!
The sharded service (`shardkv`): clerks, groups of servers, their calls, and the configurations
that the controller publishes.

Raft is taken as what its safety makes of it: one log for each group that only grows, of which
every server of the group is delivered a prefix, command by command or in snapshots of other
servers at higher indexes. A command that a server has started may enter the log at any later
time, or never. A `Query` is answered from the configurations published when it is executed.

One action is what one goroutine does while it holds a lock, or up to its next wait. A request is
sent to any servers of a group any number of times until its sender goes on; each call runs its
handler at most once, at any later time, and its reply is taken up at most once, or never. What a
server has sent outlives the server; its goroutines end when it restarts. Any server may take
itself for the leader at any time.
-/

namespace Mit6824.ShardSystem

open Mit6824.GoData Mit6824.Labgob Mit6824.ShardServer Mit6824.ShardProtocol Function

/-! ### The poller of a server -/

/-- Where the goroutines are that migrate the shards of one other group. -/
inductive Task
  | init
  | getting (seqNum : ℕ)
  | got (shards : GoMap Shard Data) (clientSeqNumMap : GoMap ClientId ℕ)
  | putting (args : PutShardsArgs)
  | put
  | deleting (seqNum : ℕ)
  | deleted
  deriving DecidableEq

/-- Where `changeConfig` is. -/
inductive Proc
  | idle
  | polled (oldConfig : Config)
  /-- `Query` has been executed and will return the configuration. -/
  | queried (oldConfig config : Config)
  | migrating (oldConfig newConfig : Config) (tasks : ℕ → Task)
  | setting (newConfig : Config) (seqNum : ℕ)
  /-- An assertion has failed. -/
  | failed

/-- What `changeConfig` migrates: nothing before the first configuration. -/
def migrationPlan (gid : ℕ) (oldConfig newConfig : Config) : GoMap ℕ (List Shard) :=
  if oldConfig.num > 0 then getMigrationFromGroupShardsMap gid oldConfig newConfig else ∅

inductive Reply
  | reply (err : Err)
  | getReply (err : Err) (value : GoString)
  | getShardsReply (err : Err) (shards : GoMap Shard Data) (clientSeqNumMap : GoMap ClientId ℕ)
  deriving DecidableEq

def Reply.err : Reply → Err
  | reply err => err
  | getReply err _ => err
  | getShardsReply err _ _ => err

namespace Task

def isGot : Task → Bool
  | got _ _ => true
  | _ => false

def isPutting : Task → Bool
  | putting _ => true
  | _ => false

/-- The next request, under a new number. -/
def issue (gid num seqNum : ℕ) (clientId : ClientId) (o : ℕ) (shards : List Shard) :
    Task → Option (Issue × Task)
  | init => some (⟨o, num, .getShards ⟨num, shards, seqNum, clientId⟩⟩, getting seqNum)
  | got shards clientSeqNumMap =>
    let args := ⟨shards, clientSeqNumMap, seqNum, clientId⟩
    some (⟨gid, num, .putShards args⟩, putting args)
  | put => some (⟨o, num, .deleteShards ⟨num, shards, seqNum, clientId⟩⟩, deleting seqNum)
  | _ => none

/-- The request that `callOtherGroup` is sending, and the group it is for. -/
def outstanding (gid num : ℕ) (clientId : ClientId) (o : ℕ) (shards : List Shard) :
    Task → Option (ℕ × Op)
  | getting seqNum => some (o, .getShards ⟨num, shards, seqNum, clientId⟩)
  | putting args => some (gid, .putShards args)
  | deleting seqNum => some (o, .deleteShards ⟨num, shards, seqNum, clientId⟩)
  | _ => none

/-- `callOtherGroup` returns. -/
def receive : Task → Reply → Option Task
  | getting _, .getShardsReply _ shards clientSeqNumMap => some (got shards clientSeqNumMap)
  | putting _, .reply _ => some put
  | deleting _, .reply _ => some deleted
  | _, _ => none

end Task

namespace Proc

/-- The next request for the migration from a group, one `PUT_SHARDS` at a time, or the
`SET_CONFIG` when all are done. -/
def issue (gid seqNum : ℕ) (clientId : ClientId) (o : ℕ) : Proc → Option (Issue × Proc)
  | migrating oldConfig newConfig tasks =>
    let groupShardsMap := migrationPlan gid oldConfig newConfig
    match groupShardsMap.lookup o with
    | some shards =>
      if (tasks o).isGot ∧ ∃ o' ∈ groupShardsMap.keys, (tasks o').isPutting then none
      else
        match (tasks o).issue gid newConfig.num seqNum clientId o shards with
        | some (r, task) => some (r, migrating oldConfig newConfig (update tasks o task))
        | none => none
    | none =>
      if o = gid ∧ ∀ o' ∈ groupShardsMap.keys, tasks o' = .deleted then
        some (⟨gid, newConfig.num, .setConfig ⟨newConfig, seqNum, clientId⟩⟩,
          setting newConfig seqNum)
      else none
  | _ => none

def outstanding (gid : ℕ) (clientId : ClientId) (o : ℕ) : Proc → Option (ℕ × Op)
  | migrating oldConfig newConfig tasks =>
    match (migrationPlan gid oldConfig newConfig).lookup o with
    | some shards => (tasks o).outstanding gid newConfig.num clientId o shards
    | none => none
  | setting newConfig seqNum =>
    if o = gid then some (gid, .setConfig ⟨newConfig, seqNum, clientId⟩) else none
  | _ => none

def receive (o : ℕ) (reply : Reply) : Proc → Option Proc
  | migrating oldConfig newConfig tasks =>
    match (tasks o).receive reply with
    | some task => some (migrating oldConfig newConfig (update tasks o task))
    | none => none
  | setting _ _ => some idle
  | _ => none

end Proc

/-! ### Servers -/

inductive Phase
  | idle
  /-- The store has the effect of the command or the snapshot. These numbers are still to be
  raised, those that come along and then the one of the command. -/
  | marking (rest : GoMap ClientId ℕ) (own : Option (ClientId × ℕ))
  deriving DecidableEq

structure Server where
  kv : ShardKV
  /-- How often the server has been restarted. -/
  epoch : ℕ
  /-- How many commands the store has the effect of. -/
  applied : ℕ
  phase : Phase
  proc : Proc

structure Group where
  log : List Op
  /-- The commands that have been started and are not in the log. -/
  started : List Op
  snapshots : List (ℕ × Bytes)
  servers : ℕ → Server

def Server.boot (gid me epoch : ℕ) : Server :=
  ⟨ShardServer.boot gid (.server gid me epoch), epoch, 0, .idle, .idle⟩

/-- What the goroutines of a server do by themselves. -/
inductive Internal
  | apply
  | mark (clientId : ClientId)
  | note
  | install (k : ℕ)
  | restart
  | poll
  | query
  | begin
  deriving DecidableEq

namespace Server

/-- `applyOp` up to the numbers. -/
def apply (sv : Server) (op : Op) : Server :=
  let kv := sv.kv.getClientStatus op.clientId
  if kv.done op.clientId op.seqNum then { sv with kv := kv, applied := sv.applied + 1 }
  else
    let (kv, err) := kv.exec op
    if err = .errWrongGroup then { sv with kv := kv, applied := sv.applied + 1 }
    else { sv with
      kv := kv
      applied := sv.applied + 1
      phase := .marking op.merged (some (op.clientId, op.seqNum)) }

def note (sv : Server) (own : Option (ClientId × ℕ)) : Server :=
  { sv with
    kv := match own with
      | some (clientId, seqNum) => sv.kv.updateSeqNum clientId seqNum
      | none => sv.kv
    phase := .idle }

/-- `applySnap` up to the numbers. -/
def install (sv : Server) (index : ℕ) (store : Shard → Data) (config : Config)
    (clientSeqNumMap : GoMap ClientId ℕ) : Server :=
  { sv with
    kv := sv.kv.setStore store config
    applied := index
    phase := .marking clientSeqNumMap none }

/-- `changeConfig` once the next configuration is there. -/
def begin (sv : Server) (oldConfig newConfig : Config) : Server :=
  let kv := { sv.kv with nextConfig := newConfig }
  if newConfig.num = oldConfig.num then { sv with kv := kv, proc := .idle }
  else if newConfig.num ∈ kv.configInPrecessing then { sv with kv := kv, proc := .idle }
  else
    { sv with
      kv := { kv with configInPrecessing := insert newConfig.num kv.configInPrecessing }
      proc := if newConfig.num > oldConfig.num then .migrating oldConfig newConfig fun _ => .init
        else .failed }

variable [Coded (ℕ × (Shard → Data) × Config × GoMap ClientId ℕ)]

def step (configs : List Config) (gr : Group) (gid me : ℕ) (sv : Server) :
    Internal → Option Server
  | .apply =>
    match sv.phase, gr.log[sv.applied]? with
    | .idle, some op => some (sv.apply op)
    | _, _ => none
  | .mark clientId =>
    match sv.phase with
    | .marking rest own =>
      match rest.lookup clientId with
      | some seqNum => some { sv with
          kv := sv.kv.updateSeqNum clientId seqNum
          phase := .marking (rest.erase clientId) own }
      | none => none
    | .idle => none
  | .note =>
    match sv.phase with
    | .marking rest own => if rest = ∅ then some (sv.note own) else none
    | .idle => none
  | .install k =>
    match gr.snapshots[k]? with
    | none => none
    | some (index, bytes) =>
      if sv.phase = .idle ∧ sv.applied < index then
        match decodeSnap bytes index with
        | .error _ => none
        | .ok (store, config, clientSeqNumMap) =>
          some (sv.install index store config clientSeqNumMap)
      else none
  | .restart => some (boot gid me (sv.epoch + 1))
  | .poll =>
    -- gid `0` is no group
    match sv.proc with
    | .idle => if gid ≠ 0 then some { sv with proc := .polled sv.kv.config } else none
    | _ => none
  | .query =>
    match sv.proc with
    | .polled oldConfig =>
      if sv.kv.nextConfig.num ≤ oldConfig.num then
        match configs[oldConfig.num + 1]?, configs.getLast? with
        | some config, _ => some { sv with proc := .queried oldConfig config }
        | none, some config => some { sv with proc := .queried oldConfig config }
        | none, none => none
      else none
    | _ => none
  | .begin =>
    match sv.proc with
    | .polled oldConfig =>
      if sv.kv.nextConfig.num ≤ oldConfig.num then none
      else some (sv.begin oldConfig sv.kv.nextConfig)
    | .queried oldConfig config => some (sv.begin oldConfig config)
    | _ => none

end Server

/-! ### Handlers -/

inductive Stage
  | sent
  /-- `GetShards` has seen the configuration. -/
  | passed (epoch : ℕ)
  | waiting (epoch : ℕ)
  /-- `operate` has returned `OK`. -/
  | granted (epoch : ℕ)
  /-- `GetShards` has the shards and not yet the numbers. -/
  | read (epoch : ℕ) (shards : GoMap Shard Data)
  | replied (reply : Reply) (place : ℕ)
  deriving DecidableEq

structure Call where
  gid : ℕ
  server : ℕ
  op : Op
  stage : Stage

inductive Handling
  | pass
  | operate (isLeader : Bool)
  | wake
  | answer
  | finish
  deriving DecidableEq

/-- What a handler leaves: its server, its stage, and the command that it has started. -/
structure Handled where
  kv : ShardKV
  stage : Stage
  started : List Op

/-- The answer of a server that is not the leader. -/
def Op.refusal : Op → Reply
  | .get _ => .getReply .errWrongLeader []
  | .getShards _ => .getShardsReply .errWrongLeader ∅ ∅
  | _ => .reply .errWrongLeader

/-- A call whose handler can enter `operate`. -/
def Ready (epoch : ℕ) (op : Op) (stage : Stage) : Prop :=
  match op with
  | .getShards _ => stage = .passed epoch
  | _ => stage = .sent

instance (epoch : ℕ) : ∀ op stage, Decidable (Ready epoch op stage)
  | .getShards _, stage => inferInstanceAs (Decidable (stage = .passed epoch))
  | .putAppend _, stage | .get _, stage | .putShards _, stage | .deleteShards _, stage
  | .setConfig _, stage => inferInstanceAs (Decidable (stage = .sent))

namespace Server

def operate (sv : Server) (op : Op) (isLeader : Bool) : Handled :=
  let (kv, r) := sv.kv.operate op isLeader
  match r with
  | .done => ⟨kv, .granted sv.epoch, []⟩
  | .started => ⟨kv, .waiting sv.epoch, [op]⟩
  | .wrongLeader => ⟨kv, .replied (Op.refusal op) sv.applied, []⟩

/-- What a handler does once `operate` has returned `OK`. -/
def answer (sv : Server) : Op → Stage
  | .get args =>
    let (value, err) := sv.kv.get args.key
    .replied (.getReply err value) sv.applied
  | .getShards args => .read sv.epoch (sv.kv.getShards args.shards)
  | _ => .replied (.reply .ok) sv.applied

def handle (sv : Server) (op : Op) (stage : Stage) : Handling → Option Handled
  | .pass =>
    match op with
    | .getShards args =>
      if stage = .sent ∧ ¬ sv.kv.config.num < args.configNum then
        some ⟨sv.kv, .passed sv.epoch, []⟩
      else none
    | _ => none
  | .operate isLeader => if Ready sv.epoch op stage then some (sv.operate op isLeader) else none
  | .wake =>
    if stage = .waiting sv.epoch ∧ sv.kv.done op.clientId op.seqNum then
      some ⟨sv.kv, .granted sv.epoch, []⟩
    else none
  | .answer => if stage = .granted sv.epoch then some ⟨sv.kv, sv.answer op, []⟩ else none
  | .finish =>
    match stage with
    | .read epoch shards =>
      if epoch = sv.epoch then
        some ⟨sv.kv, .replied (.getShardsReply .ok shards sv.kv.clientStatusMap) sv.applied, []⟩
      else none
    | _ => none

end Server

/-! ### The system -/

structure Clerk where
  seqNum : ℕ
  /-- The operations that have not returned. -/
  open_ : List Op

inductive Request
  | get (key : GoString)
  | putAppend (key value : GoString) (op : PutAppendOp)
  deriving DecidableEq

def Clerk.next (ck : Clerk) (clientId : ℕ) : Request → Op
  | .get key => .get ⟨key, ck.seqNum + 1, .clerk clientId⟩
  | .putAppend key value op => .putAppend ⟨key, value, op, ck.seqNum + 1, .clerk clientId⟩

/-- `asked` and `issued` record the operations of clerks and the requests of servers; no action
looks at them. -/
structure System where
  configs : List Config
  groups : ℕ → Group
  clerks : ℕ → Clerk
  calls : List Call
  asked : List Op
  issued : List Issue

inductive Action
  | publish (config : Config)
  | invoke (clientId : ℕ) (request : Request)
  | send (clientId i gid j : ℕ)
  | return (k : ℕ)
  | call (k : ℕ) (h : Handling)
  | commit (gid i : ℕ)
  | snapshot (gid i : ℕ)
  | server (gid i : ℕ) (a : Internal)
  | issue (gid i o : ℕ)
  | request (gid i o j : ℕ)
  | receive (gid i o k : ℕ)
  deriving DecidableEq

namespace System

def init : System where
  configs := [.initial]
  groups := fun gid => ⟨[], [], [], fun me => .boot gid me 0⟩
  clerks := fun _ => ⟨0, []⟩
  calls := []
  asked := []
  issued := []

def server (x : System) (gid i : ℕ) : Server := (x.groups gid).servers i

def setServer (x : System) (gid i : ℕ) (sv : Server) : System :=
  let gr := x.groups gid
  { x with groups := update x.groups gid { gr with servers := update gr.servers i sv } }

end System

variable [Coded (ℕ × (Shard → Data) × Config × GoMap ClientId ℕ)]

/-- One action; `none` if it is not possible. -/
def step (x : System) : Action → Option System
  | .publish config => do
    guard (config.num = x.configs.length)
    return { x with configs := x.configs ++ [config] }
  | .invoke clientId request =>
    let ck := x.clerks clientId
    let op := ck.next clientId request
    some { x with
      clerks := update x.clerks clientId ⟨ck.seqNum + 1, ck.open_ ++ [op]⟩
      asked := x.asked ++ [op] }
  | .send clientId i gid j => do
    let op ← (x.clerks clientId).open_[i]?
    return { x with calls := x.calls ++ [⟨gid, j, op, .sent⟩] }
  | .return k => do
    let call ← x.calls[k]?
    let .replied reply _ := call.stage | none
    let .clerk clientId := call.op.clientId | none
    let ck := x.clerks clientId
    guard (reply.err = .ok ∧ call.op ∈ ck.open_)
    return { x with
      clerks := update x.clerks clientId { ck with open_ := ck.open_.erase call.op } }
  | .call k h => do
    let call ← x.calls[k]?
    let sv := x.server call.gid call.server
    let r ← sv.handle call.op call.stage h
    let gr := x.groups call.gid
    return { x with
      groups := update x.groups call.gid
        { gr with
          servers := update gr.servers call.server { sv with kv := r.kv }
          started := gr.started ++ r.started }
      calls := x.calls.set k { call with stage := r.stage } }
  | .commit gid i => do
    let gr := x.groups gid
    let op ← gr.started[i]?
    return { x with
      groups := update x.groups gid
        { gr with log := gr.log ++ [op], started := gr.started.eraseIdx i } }
  | .snapshot gid i => do
    let gr := x.groups gid
    let sv := gr.servers i
    guard (sv.phase = .idle)
    return { x with
      groups := update x.groups gid
        { gr with snapshots := gr.snapshots ++ [(sv.applied, sv.kv.snapshot sv.applied)] } }
  | .server gid i a => do
    let sv ← (x.server gid i).step x.configs (x.groups gid) gid i a
    return x.setServer gid i sv
  | .issue gid i o => do
    let sv := x.server gid i
    let (r, proc) ← sv.proc.issue gid (sv.kv.seqNum + 1) sv.kv.clientId o
    let kv := { sv.kv with seqNum := sv.kv.seqNum + 1 }
    return { x.setServer gid i { sv with kv := kv, proc := proc } with issued := x.issued ++ [r] }
  | .request gid i o j => do
    let sv := x.server gid i
    let (dst, op) ← sv.proc.outstanding gid sv.kv.clientId o
    return { x with calls := x.calls ++ [⟨dst, j, op, .sent⟩] }
  | .receive gid i o k => do
    let sv := x.server gid i
    let call ← x.calls[k]?
    let .replied reply _ := call.stage | none
    guard (sv.proc.outstanding gid sv.kv.clientId o = some (call.gid, call.op))
    guard (reply.err ≠ .errWrongLeader)
    let proc ← sv.proc.receive o reply
    return x.setServer gid i { sv with proc := proc }

@[grind intro]
inductive Steps (x : System) : Action → System → Prop
  | publish {config : Config} (hnum : config.num = x.configs.length) :
      Steps x (.publish config) { x with configs := x.configs ++ [config] }
  | invoke (n : ℕ) (request : Request) : Steps x (.invoke n request) { x with
      clerks := update x.clerks n
        ⟨(x.clerks n).seqNum + 1, (x.clerks n).open_ ++ [(x.clerks n).next n request]⟩
      asked := x.asked ++ [(x.clerks n).next n request] }
  | send {n i gid j : ℕ} {op : Op} (hop : (x.clerks n).open_[i]? = some op) :
      Steps x (.send n i gid j) { x with calls := x.calls ++ [⟨gid, j, op, .sent⟩] }
  | return {k n place : ℕ} {call : Call} {reply : Reply} (hk : x.calls[k]? = some call)
      (hstage : call.stage = .replied reply place) (hc : call.op.clientId = .clerk n)
      (hok : reply.err = .ok) : Steps x (.return k) { x with
        clerks := update x.clerks n
          { x.clerks n with open_ := (x.clerks n).open_.erase call.op } }
  | call {k : ℕ} {h : Handling} {call : Call} {r : Handled} (hk : x.calls[k]? = some call)
      (hr : (x.server call.gid call.server).handle call.op call.stage h = some r) :
      Steps x (.call k h) { x with
        groups := update x.groups call.gid { x.groups call.gid with
          servers := update (x.groups call.gid).servers call.server
            { x.server call.gid call.server with kv := r.kv }
          started := (x.groups call.gid).started ++ r.started }
        calls := x.calls.set k { call with stage := r.stage } }
  | commit {gid i : ℕ} {op : Op} (hop : (x.groups gid).started[i]? = some op) :
      Steps x (.commit gid i) { x with
        groups := update x.groups gid { x.groups gid with
          log := (x.groups gid).log ++ [op]
          started := (x.groups gid).started.eraseIdx i } }
  | snapshot {gid i : ℕ} (hphase : ((x.groups gid).servers i).phase = .idle) :
      Steps x (.snapshot gid i) { x with
        groups := update x.groups gid { x.groups gid with
          snapshots := (x.groups gid).snapshots ++ [(((x.groups gid).servers i).applied,
            ((x.groups gid).servers i).kv.snapshot ((x.groups gid).servers i).applied)] } }
  | server {gid i : ℕ} {a : Internal} {sv : Server}
      (hsv : (x.server gid i).step x.configs (x.groups gid) gid i a = some sv) :
      Steps x (.server gid i a) (x.setServer gid i sv)
  | issue {gid i o : ℕ} {r : Issue} {proc : Proc}
      (hr : (x.server gid i).proc.issue gid ((x.server gid i).kv.seqNum + 1)
        (x.server gid i).kv.clientId o = some (r, proc)) :
      Steps x (.issue gid i o) { x.setServer gid i { x.server gid i with
        kv := { (x.server gid i).kv with seqNum := (x.server gid i).kv.seqNum + 1 }
        proc := proc } with issued := x.issued ++ [r] }
  | request {gid i o j dst : ℕ} {op : Op}
      (hout : (x.server gid i).proc.outstanding gid (x.server gid i).kv.clientId o =
        some (dst, op)) :
      Steps x (.request gid i o j) { x with calls := x.calls ++ [⟨dst, j, op, .sent⟩] }
  | receive {gid i o k place : ℕ} {call : Call} {reply : Reply} {proc : Proc}
      (hk : x.calls[k]? = some call) (hstage : call.stage = .replied reply place)
      (hout : (x.server gid i).proc.outstanding gid (x.server gid i).kv.clientId o =
        some (call.gid, call.op)) (herr : reply.err ≠ .errWrongLeader)
      (hproc : (x.server gid i).proc.receive o reply = some proc) :
      Steps x (.receive gid i o k) (x.setServer gid i { x.server gid i with proc := proc })

lemma steps_of_step {x x' : System} {act : Action} (hs : step x act = some x') :
    Steps x act x' := by
  cases act <;> simp only [step, Option.bind_eq_bind, Option.bind_eq_some_iff,
    Option.guard_eq_some', exists_const, Option.pure_def, Option.some.injEq] at hs <;>
    grind [Option.bind_eq_some_iff, Option.guard_eq_some']

/-! ### Sequences of actions -/

/-- Groups of one server each. -/
def members (gids : List ℕ) : GoMap ℕ (List GoString) :=
  gids.foldl (fun groups gid => Finmap.insert gid [[0]] groups) ∅

/-- The configuration that the controller has once groups `1` and `2` have joined and a shard has
been moved. -/
def paired (shard : Shard) (num gid : ℕ) : Config :=
  ⟨num, fun s => if s = shard then gid else s % 2 + 1, members [1, 2]⟩

/-- A call is executed and answered at the first server of its group. -/
def serve (g k : ℕ) : List Action :=
  [.call k (.operate true), .commit g 0, .server g 0 .apply, .server g 0 .note, .call k .wake,
    .call k .answer]

/-- The first server of a group takes its group to the next configuration, if there is nothing to
migrate. -/
def changeConfig (g k : ℕ) : List Action := List.flatten
  [[.server g 0 .poll, .server g 0 .query, .server g 0 .begin, .issue g 0 g, .request g 0 g 0],
    serve g k, [.receive g 0 g k]]

end Mit6824.ShardSystem
