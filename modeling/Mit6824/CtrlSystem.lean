import Mathlib.Data.Option.Basic
import Mathlib.Logic.Function.Basic
import Mit6824.CtrlServer
import Mit6824.Runs

/-!
The controller as a service (`shardctrler`): clerks, their calls, the servers, and the log.

Raft is taken as what its safety makes of it: one log that only grows, of which every server is
delivered a prefix. The controller keeps no snapshots, so a server that restarts begins with the
log again. As in the key/value service, one action is what one goroutine does while it holds a
lock, a clerk sends a request to any servers any number of times, and the system remembers the
invocations and returns of the clerks with their places in the log.

The reply of a `Query` has a reference to the map of the configuration. It is encoded later, from
what the map is then.
-/

namespace Mit6824.CtrlSystem

open Mit6824.MapOrder Mit6824.CtrlConfig Mit6824.CtrlServer Function

inductive Phase
  | idle
  /-- The command is executed, the status of the client has not its number yet. -/
  | noting (op : Op)
  | panicked
  deriving DecidableEq

structure Server where
  sc : ShardCtrler
  /-- How often the server has been restarted. -/
  epoch : ℕ
  /-- How many commands have been executed. -/
  applied : ℕ
  phase : Phase

/-- `Reply` and `QueryReply`. -/
inductive Reply
  | wrongLeader
  | ok
  | config (c : Config)
  deriving DecidableEq

inductive Stage
  | sent
  | waiting (epoch : ℕ)
  | granted (epoch : ℕ)
  /-- A `Query` has its configuration. -/
  | holding (epoch : ℕ) (e : Entry) (place : ℕ)
  | replied (reply : Reply) (place : ℕ)
  deriving DecidableEq

structure Call (n : ℕ) where
  op : Op
  server : Fin n
  stage : Stage

structure Clerk where
  seqNum : ℕ
  /-- The operations that have not returned. -/
  open_ : List Op

inductive Moment
  | invoked (op : Op) (place : ℕ)
  | returned (op : Op) (reply : Reply) (place : ℕ)
  deriving DecidableEq

structure System (n : ℕ) where
  log : List Op
  /-- The commands that have been started and are not in the log. -/
  started : List Op
  servers : Fin n → Server
  clerks : ℕ → Clerk
  calls : List (Call n)
  history : List Moment

inductive Action (n : ℕ)
  | invoke (clientId : ℕ) (command : Command)
  | send (clientId i : ℕ) (s : Fin n)
  | handle (k : ℕ) (isLeader : Bool)
  | wake (k : ℕ)
  | answer (k : ℕ)
  | encode (k : ℕ)
  | return (k : ℕ)
  | commit (i : ℕ)
  | apply (s : Fin n) (passes : ℕ) (orders : ℕ → Order Gid)
  | note (s : Fin n)
  | restart (s : Fin n)

def Server.boot (epoch : ℕ) : Server := ⟨CtrlServer.boot, epoch, 0, .idle⟩

variable {n : ℕ}

def System.init : System n where
  log := []
  started := []
  servers := fun _ => .boot 0
  clerks := fun _ => ⟨0, []⟩
  calls := []
  history := []

def Clerk.next (ck : Clerk) (clientId : ℕ) (command : Command) : Op :=
  ⟨command, ck.seqNum + 1, clientId⟩

def System.setServer (x : System n) (s : Fin n) (sv : Server) : System n :=
  { x with servers := update x.servers s sv }

def System.setStage (x : System n) (k : ℕ) (call : Call n) (stage : Stage) : System n :=
  { x with calls := x.calls.set k { call with stage := stage } }

def System.handle (x : System n) (k : ℕ) (call : Call n) (isLeader : Bool) : System n :=
  let sv := x.servers call.server
  let (sc, r) := sv.sc.operate call.op isLeader
  let x := x.setServer call.server { sv with sc := sc }
  match r with
  | .done => x.setStage k call (.granted sv.epoch)
  | .started => { x with started := x.started ++ [call.op] }.setStage k call (.waiting sv.epoch)
  | .wrongLeader => x.setStage k call (.replied .wrongLeader sv.applied)

/-- What a handler does once `operate` has returned `true`. -/
def Server.answer (sv : Server) (op : Op) : Option Stage :=
  match op.command with
  | .change _ => some (.replied .ok sv.applied)
  | .query num => (sv.sc.getConfig num).map fun e => .holding sv.epoch e sv.applied

/-- The applier takes a command, up to `updateSeqNum`; `none` if it is still in a loop. -/
def Server.apply (sv : Server) (op : Op) (passes : ℕ) (orders : ℕ → Order Gid) : Option Server :=
  let sc := sv.sc.getClientStatus op.clientId
  if sc.done op.clientId op.seqNum then some { sv with sc := sc, applied := sv.applied + 1 }
  else
    match (sc.execute passes op).outcome orders with
    | .ok sc => some { sv with sc := sc, applied := sv.applied + 1, phase := .noting op }
    | .error .panicked => some { sv with sc := sc, phase := .panicked }
    | .error .running => none

def step (x : System n) : Action n → Option (System n)
  | .invoke clientId command =>
    let ck := x.clerks clientId
    let op := ck.next clientId command
    some { x with
      clerks := update x.clerks clientId ⟨ck.seqNum + 1, ck.open_ ++ [op]⟩
      history := x.history ++ [.invoked op x.log.length] }
  | .send clientId i s => do
    let op ← (x.clerks clientId).open_[i]?
    return { x with calls := x.calls ++ [⟨op, s, .sent⟩] }
  | .handle k isLeader => do
    let call ← x.calls[k]?
    guard (call.stage = .sent ∧ (x.servers call.server).phase ≠ .panicked)
    return x.handle k call isLeader
  | .wake k => do
    let call ← x.calls[k]?
    let sv := x.servers call.server
    guard (call.stage = .waiting sv.epoch ∧ sv.phase ≠ .panicked)
    guard (sv.sc.done call.op.clientId call.op.seqNum)
    return x.setStage k call (.granted sv.epoch)
  | .answer k => do
    let call ← x.calls[k]?
    let sv := x.servers call.server
    guard (call.stage = .granted sv.epoch ∧ sv.phase ≠ .panicked)
    let stage ← sv.answer call.op
    return x.setStage k call stage
  | .encode k => do
    let call ← x.calls[k]?
    let sv := x.servers call.server
    let .holding epoch e place := call.stage | none
    guard (epoch = sv.epoch ∧ sv.phase ≠ .panicked)
    return x.setStage k call (.replied (.config (sv.sc.read e)) place)
  | .return k => do
    let call ← x.calls[k]?
    let .replied reply place := call.stage | none
    let ck := x.clerks call.op.clientId
    guard (reply ≠ .wrongLeader ∧ call.op ∈ ck.open_)
    return { x with
      clerks := update x.clerks call.op.clientId { ck with open_ := ck.open_.erase call.op }
      history := x.history ++ [.returned call.op reply place] }
  | .commit i => do
    let op ← x.started[i]?
    return { x with log := x.log ++ [op], started := x.started.eraseIdx i }
  | .apply s passes orders => do
    let sv := x.servers s
    guard (sv.phase = .idle)
    let op ← x.log[sv.applied]?
    let sv ← sv.apply op passes orders
    return x.setServer s sv
  | .note s => do
    let sv := x.servers s
    let .noting op := sv.phase | none
    return x.setServer s { sv with
      sc := sv.sc.updateSeqNum op.clientId op.seqNum
      phase := .idle }
  | .restart s => some (x.setServer s (.boot ((x.servers s).epoch + 1)))

@[grind intro]
inductive Steps (x : System n) : Action n → System n → Prop
  | invoke (c : ℕ) (command : Command) : Steps x (.invoke c command) { x with
      clerks := update x.clerks c
        ⟨(x.clerks c).seqNum + 1, (x.clerks c).open_ ++ [(x.clerks c).next c command]⟩
      history := x.history ++ [.invoked ((x.clerks c).next c command) x.log.length] }
  | send {c i : ℕ} {s : Fin n} {op : Op} (hop : (x.clerks c).open_[i]? = some op) :
      Steps x (.send c i s) { x with calls := x.calls ++ [⟨op, s, .sent⟩] }
  | handle {k : ℕ} {isLeader : Bool} {call : Call n} (hcall : x.calls[k]? = some call) :
      Steps x (.handle k isLeader) (x.handle k call isLeader)
  | wake {k : ℕ} {call : Call n} (hcall : x.calls[k]? = some call)
      (hdone : (x.servers call.server).sc.done call.op.clientId call.op.seqNum) :
      Steps x (.wake k) (x.setStage k call (.granted (x.servers call.server).epoch))
  | answer {k : ℕ} {call : Call n} {stage : Stage} (hcall : x.calls[k]? = some call)
      (hstage : call.stage = .granted (x.servers call.server).epoch)
      (hans : (x.servers call.server).answer call.op = some stage) :
      Steps x (.answer k) (x.setStage k call stage)
  | encode {k place : ℕ} {call : Call n} {e : Entry} (hcall : x.calls[k]? = some call)
      (hstage : call.stage = .holding (x.servers call.server).epoch e place) :
      Steps x (.encode k) (x.setStage k call
        (.replied (.config ((x.servers call.server).sc.read e)) place))
  | return {k place : ℕ} {call : Call n} {reply : Reply} (hcall : x.calls[k]? = some call)
      (hstage : call.stage = .replied reply place) (hreply : reply ≠ .wrongLeader) :
      Steps x (.return k) { x with
        clerks := update x.clerks call.op.clientId { x.clerks call.op.clientId with
          open_ := (x.clerks call.op.clientId).open_.erase call.op }
        history := x.history ++ [.returned call.op reply place] }
  | commit {i : ℕ} {op : Op} (hop : x.started[i]? = some op) :
      Steps x (.commit i) { x with log := x.log ++ [op], started := x.started.eraseIdx i }
  | apply {s : Fin n} {passes : ℕ} {orders : ℕ → Order Gid} {op : Op} {sv : Server}
      (hphase : (x.servers s).phase = .idle) (hop : x.log[(x.servers s).applied]? = some op)
      (happly : (x.servers s).apply op passes orders = some sv) :
      Steps x (.apply s passes orders) (x.setServer s sv)
  | note {s : Fin n} {op : Op} (hphase : (x.servers s).phase = .noting op) :
      Steps x (.note s) (x.setServer s { x.servers s with
        sc := (x.servers s).sc.updateSeqNum op.clientId op.seqNum
        phase := .idle })
  | restart (s : Fin n) :
      Steps x (.restart s) (x.setServer s (.boot ((x.servers s).epoch + 1)))

lemma steps_of_step {x x' : System n} {act : Action n} (hs : step x act = some x') :
    Steps x act x' := by
  cases act <;> grind [step, Option.bind_eq_bind, Option.bind_eq_some_iff,
    Option.guard_eq_some', Option.pure_def]

end Mit6824.CtrlSystem
