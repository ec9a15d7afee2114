import Mit6824.KvServer
import Mit6824.Linear
import Mit6824.LogService

/-!
The key/value service (`kvraft`): clerks, their calls, the servers, and the log.

One action is what one goroutine does while it holds a lock. A clerk sends a request to any
servers any number of times until it goes on; each call runs its handler at most once, at any
later time, and its reply is taken up at most once, or never. A handler ends when its server
restarts.

In `System` Raft is taken as what its safety makes of it: one log that only grows, of which every
server is delivered a prefix, command by command or in snapshots of other servers at higher
indexes. A command that a server has started may enter the log at any later time, or never. The
system also remembers the invocations and returns of the clerks, each with a place in the log:
where the log ended at an invocation, and how much of it the answering server had applied at a
return.
-/

namespace Mit6824.KvSystem

open Mit6824.GoData Mit6824.Labgob Mit6824.Sessions Mit6824.KvServer Mit6824.Linear
open Mit6824.LogService (Label)
open Function

inductive Phase
  | idle
  /-- The store has the effect of the command, the status of the client not yet its number. -/
  | noting (op : Op)
  /-- The store is the one of a snapshot; these numbers are still to be restored. -/
  | restoring (rest : GoMap ℕ ℕ)
  deriving DecidableEq

structure Server where
  kv : KVServer
  /-- How often the server has been restarted. -/
  epoch : ℕ
  /-- How many commands the store has the effect of. -/
  applied : ℕ
  phase : Phase

inductive Stage
  | sent
  | waiting (epoch : ℕ)
  | granted (epoch : ℕ)
  | replied (reply : Reply) (place : ℕ)
  deriving DecidableEq

structure Call (n : ℕ) where
  op : Op
  server : Fin n
  stage : Stage

structure Clerk where
  seqNum : ℕ
  /-- The operations that have not returned. -/
  open_ : List Op

/-! ### Servers and clerks -/

/-- The servers, the clerks and their calls. -/
structure App (n : ℕ) where
  servers : Fin n → Server
  clerks : ℕ → Clerk
  calls : List (Call n)

/-- What they do. A command comes with its index, a snapshot with that of its last command. -/
inductive Act (n : ℕ)
  | invoke (clientId : ℕ) (type : OpType) (key value : GoString)
  | send (clientId i : ℕ) (s : Fin n)
  | handle (k : ℕ) (isLeader : Bool)
  | wake (k : ℕ)
  | answer (k : ℕ)
  | return (k : ℕ)
  | apply (s : Fin n) (op : Op) (index : ℕ)
  | note (s : Fin n)
  | snapshot (s : Fin n)
  | install (s : Fin n) (data : Bytes) (index : ℕ)
  | restore (s : Fin n) (clientId : ℕ)
  | restored (s : Fin n)
  | restart (s : Fin n)

/-- What the log, or a clerk, sees of an action. -/
inductive Sight (n : ℕ)
  | nothing
  | log (label : Label (Fin n) Op Bytes)
  | invoked (op : Op)
  | returned (op : Op) (value : GoString) (place : ℕ)

def Server.boot (epoch : ℕ) : Server := ⟨KvServer.boot, epoch, 0, .idle⟩

/-- The first half of `applyOp`. -/
def Server.apply (sv : Server) (op : Op) (index : ℕ) : Server :=
  let kv := sv.kv.getClientStatus op.clientId
  if kv.done op.clientId op.seqNum then { sv with kv := kv, applied := index }
  else { sv with kv := kv.execute op, applied := index, phase := .noting op }

/-- The second half of `applyOp`. -/
def Server.note (sv : Server) (op : Op) : Server :=
  { sv with kv := sv.kv.updateSeqNum op.clientId op.seqNum, phase := .idle }

def Server.install (sv : Server) (index : ℕ) (data : Data) (clientSeqNumMap : GoMap ℕ ℕ) :
    Server :=
  { sv with
    kv := { sv.kv with store := data }
    applied := index
    phase := .restoring clientSeqNumMap }

def Server.restore (sv : Server) (rest : GoMap ℕ ℕ) (clientId seqNum : ℕ) : Server :=
  { sv with
    kv := sv.kv.updateSeqNum clientId seqNum
    phase := .restoring (rest.erase clientId) }

/-- The operation of a clerk that allocates its next number. -/
def Clerk.next (ck : Clerk) (clientId : ℕ) (type : OpType) (key value : GoString) : Op :=
  ⟨type, key, value, ck.seqNum + 1, clientId⟩

variable {n : ℕ}

namespace App

def init : App n where
  servers := fun _ => .boot 0
  clerks := fun _ => ⟨0, []⟩
  calls := []

def setServer (e : App n) (s : Fin n) (sv : Server) : App n :=
  { e with servers := update e.servers s sv }

def setStage (e : App n) (k : ℕ) (call : Call n) (stage : Stage) : App n :=
  { e with calls := e.calls.set k { call with stage := stage } }

def visit (e : App n) (call : Call n) : App n :=
  e.setServer call.server { e.servers call.server with
    kv := (e.servers call.server).kv.getClientStatus call.op.clientId }

/-- The handler runs up to its return, its wait or its refusal. It calls `Start` if the operation
is not done. -/
def handle (e : App n) (k : ℕ) (call : Call n) (isLeader : Bool) : App n × Sight n :=
  let sv := e.servers call.server
  let (kv, r) := sv.kv.operate call.op isLeader
  let e := e.setServer call.server { sv with kv := kv }
  match r with
  | .done => (e.setStage k call (.granted sv.epoch), .nothing)
  | .started =>
    (e.setStage k call (.waiting sv.epoch), .log (.start call.server call.op isLeader))
  | .wrongLeader =>
    (e.setStage k call (.replied ⟨.wrongLeader, []⟩ sv.applied),
      .log (.start call.server call.op isLeader))

variable [Coded (ℕ × Data × GoMap ℕ ℕ)]

/-- One action, and what is seen of it; `none` if it is not possible. -/
def step (e : App n) : Act n → Option (App n × Sight n)
  | .invoke clientId type key value =>
    let ck := e.clerks clientId
    let op := ck.next clientId type key value
    some ({ e with clerks := update e.clerks clientId ⟨ck.seqNum + 1, ck.open_ ++ [op]⟩ },
      .invoked op)
  | .send clientId i s => do
    let op ← (e.clerks clientId).open_[i]?
    return ({ e with calls := e.calls ++ [⟨op, s, .sent⟩] }, .nothing)
  | .handle k isLeader => do
    let call ← e.calls[k]?
    guard (call.stage = .sent)
    return e.handle k call isLeader
  | .wake k => do
    let call ← e.calls[k]?
    let sv := e.servers call.server
    guard (call.stage = .waiting sv.epoch ∧ sv.kv.done call.op.clientId call.op.seqNum)
    return (e.setStage k call (.granted sv.epoch), .nothing)
  | .answer k => do
    let call ← e.calls[k]?
    let sv := e.servers call.server
    guard (call.stage = .granted sv.epoch)
    return (e.setStage k call (.replied (sv.kv.reply call.op) sv.applied), .nothing)
  | .return k => do
    let call ← e.calls[k]?
    let .replied ⟨.ok, value⟩ place := call.stage | none
    let ck := e.clerks call.op.clientId
    guard (call.op ∈ ck.open_)
    return ({ e with
      clerks := update e.clerks call.op.clientId { ck with open_ := ck.open_.erase call.op } },
      .returned call.op value place)
  | .apply s op index => do
    let sv := e.servers s
    guard (sv.phase = .idle)
    return (e.setServer s (sv.apply op index), .log (.command s op index))
  | .note s => do
    let sv := e.servers s
    let .noting op := sv.phase | none
    return (e.setServer s (sv.note op), .nothing)
  | .snapshot s => do
    let sv := e.servers s
    guard (sv.phase = .idle)
    return (e, .log (.snapshot s sv.applied (sv.kv.snapshot sv.applied)))
  | .install s data index => do
    -- a snapshot that cannot be read ends the process
    let sv := e.servers s
    guard (sv.phase = .idle)
    let .ok (store, clientSeqNumMap) := decodeSnap data index | none
    return (e.setServer s (sv.install index store clientSeqNumMap), .log (.restore s data index))
  | .restore s clientId => do
    let sv := e.servers s
    let .restoring rest := sv.phase | none
    let seqNum ← rest.lookup clientId
    return (e.setServer s (sv.restore rest clientId seqNum), .nothing)
  | .restored s => do
    let sv := e.servers s
    guard (sv.phase = .restoring ∅)
    return (e.setServer s { sv with phase := .idle }, .nothing)
  | .restart s => some (e.setServer s (.boot ((e.servers s).epoch + 1)), .log (.restart s))

@[grind intro]
inductive Acts (e : App n) : Act n → App n → Sight n → Prop
  | invoke (c : ℕ) (type : OpType) (key value : GoString) :
      Acts e (.invoke c type key value) { e with
        clerks := update e.clerks c
          ⟨(e.clerks c).seqNum + 1, (e.clerks c).open_ ++ [(e.clerks c).next c type key value]⟩ }
        (.invoked ((e.clerks c).next c type key value))
  | send {c i : ℕ} {s : Fin n} {op : Op} (hop : (e.clerks c).open_[i]? = some op) :
      Acts e (.send c i s) { e with calls := e.calls ++ [⟨op, s, .sent⟩] } .nothing
  | done {k : ℕ} {isLeader : Bool} {call : Call n} (hcall : e.calls[k]? = some call)
      (hdone : ((e.visit call).servers call.server).kv.done call.op.clientId call.op.seqNum) :
      Acts e (.handle k isLeader)
        ((e.visit call).setStage k call (.granted (e.servers call.server).epoch)) .nothing
  | started {k : ℕ} {call : Call n} (hcall : e.calls[k]? = some call) :
      Acts e (.handle k true)
        ((e.visit call).setStage k call (.waiting (e.servers call.server).epoch))
        (.log (.start call.server call.op true))
  | refused {k : ℕ} {call : Call n} (hcall : e.calls[k]? = some call) :
      Acts e (.handle k false) ((e.visit call).setStage k call
        (.replied ⟨.wrongLeader, []⟩ (e.servers call.server).applied))
        (.log (.start call.server call.op false))
  | wake {k : ℕ} {call : Call n} (hcall : e.calls[k]? = some call)
      (hdone : (e.servers call.server).kv.done call.op.clientId call.op.seqNum) :
      Acts e (.wake k) (e.setStage k call (.granted (e.servers call.server).epoch)) .nothing
  | answer {k : ℕ} {call : Call n} (hcall : e.calls[k]? = some call)
      (hstage : call.stage = .granted (e.servers call.server).epoch) :
      Acts e (.answer k) (e.setStage k call (.replied
        ((e.servers call.server).kv.reply call.op) (e.servers call.server).applied)) .nothing
  | return {k place : ℕ} {call : Call n} {value : GoString} (hcall : e.calls[k]? = some call)
      (hstage : call.stage = .replied ⟨.ok, value⟩ place)
      (hopen : call.op ∈ (e.clerks call.op.clientId).open_) :
      Acts e (.return k) { e with
        clerks := update e.clerks call.op.clientId { e.clerks call.op.clientId with
          open_ := (e.clerks call.op.clientId).open_.erase call.op } }
        (.returned call.op value place)
  | apply {s : Fin n} (op : Op) (index : ℕ) (hphase : (e.servers s).phase = .idle) :
      Acts e (.apply s op index) (e.setServer s ((e.servers s).apply op index))
        (.log (.command s op index))
  | note {s : Fin n} {op : Op} (hphase : (e.servers s).phase = .noting op) :
      Acts e (.note s) (e.setServer s ((e.servers s).note op)) .nothing
  | snapshot {s : Fin n} (hphase : (e.servers s).phase = .idle) :
      Acts e (.snapshot s) e (.log (.snapshot s (e.servers s).applied
        ((e.servers s).kv.snapshot (e.servers s).applied)))
  | install {s : Fin n} {index : ℕ} {bytes : Bytes} {data : Data} {clientSeqNumMap : GoMap ℕ ℕ}
      (hdecode : decodeSnap bytes index = .ok (data, clientSeqNumMap)) :
      Acts e (.install s bytes index)
        (e.setServer s ((e.servers s).install index data clientSeqNumMap))
        (.log (.restore s bytes index))
  | restore {s : Fin n} {c seqNum : ℕ} {rest : GoMap ℕ ℕ}
      (hphase : (e.servers s).phase = .restoring rest) (hrest : rest.lookup c = some seqNum) :
      Acts e (.restore s c) (e.setServer s ((e.servers s).restore rest c seqNum)) .nothing
  | restored {s : Fin n} (hphase : (e.servers s).phase = .restoring ∅) :
      Acts e (.restored s) (e.setServer s { e.servers s with phase := .idle }) .nothing
  | restart (s : Fin n) :
      Acts e (.restart s) (e.setServer s (.boot ((e.servers s).epoch + 1))) (.log (.restart s))

lemma acts_handle {e : App n} {k : ℕ} {call : Call n} (hcall : e.calls[k]? = some call)
    (isLeader : Bool) : Acts e (.handle k isLeader) (e.handle k call isLeader).1
      (e.handle k call isLeader).2 := by
  unfold handle KVServer.operate
  dsimp only
  by_cases hdone : ((e.servers call.server).kv.getClientStatus call.op.clientId).done
      call.op.clientId call.op.seqNum
  · rw [if_pos hdone]
    refine .done hcall ?_
    show (update e.servers call.server _ call.server).kv.done _ _
    rwa [update_self]
  · rw [if_neg hdone]
    cases isLeader with
    | true => exact .started hcall
    | false => exact .refused hcall

lemma acts_of_step {e e' : App n} {act : Act n} {seen : Sight n}
    (hs : e.step act = some (e', seen)) : Acts e act e' seen := by
  cases act <;> grind [step, acts_handle, Option.bind_eq_bind, Option.bind_eq_some_iff,
    Option.guard_eq_some', Option.pure_def]

end App

/-- A clerk invokes an operation when its last one has returned. -/
def OneAtATime (e : App n) : Act n → Prop
  | .invoke c _ _ _ => (e.clerks c).open_ = []
  | _ => True

instance (e : App n) : ∀ act, Decidable (OneAtATime e act)
  | .invoke c _ _ _ => inferInstanceAs (Decidable ((e.clerks c).open_ = []))
  | .send .. | .handle .. | .wake _ | .answer _ | .return _ | .apply .. | .note _ | .snapshot _
  | .install .. | .restore .. | .restored _ | .restart _ => .isTrue trivial

/-! ### The service with a log -/

inductive Moment
  | invoked (op : Op) (place : ℕ)
  | returned (op : Op) (value : GoString) (place : ℕ)
  deriving DecidableEq

/-- Calls are told apart by client and number. -/
def Moment.event : Moment → Event (ℕ × ℕ) Op GoString
  | .invoked op _ => .inv (op.clientId, op.seqNum) op
  | .returned op value _ => .ret (op.clientId, op.seqNum) value

structure System (n : ℕ) extends App n where
  log : List Op
  /-- The commands that have been started and are not in the log. -/
  started : List Op
  snapshots : List (ℕ × Bytes)
  history : List Moment

inductive Action (n : ℕ)
  | commit (i : ℕ)
  | act (a : Act n)

namespace System

def init : System n where
  toApp := .init
  log := []
  started := []
  snapshots := []
  history := []

/-- The log has what a server takes from it: its next command, or a snapshot beyond it. -/
def Provides (x : System n) : Sight n → Prop
  | .log (.command s op index) =>
    x.log[(x.servers s).applied]? = some op ∧ index = (x.servers s).applied + 1
  | .log (.restore s data index) => (index, data) ∈ x.snapshots ∧ (x.servers s).applied < index
  | _ => True

instance (x : System n) : ∀ seen, Decidable (x.Provides seen)
  | .log (.command ..) | .log (.restore ..) => inferInstanceAs (Decidable (_ ∧ _))
  | .nothing | .invoked _ | .returned .. | .log (.start ..) | .log (.snapshot ..)
  | .log (.restart _) => .isTrue trivial

/-- What an action leaves in the log, or in the history. -/
def after (x : System n) (e : App n) : Sight n → System n
  | .log (.start _ op true) => { x with toApp := e, started := x.started ++ [op] }
  | .log (.snapshot _ index data) =>
    { x with toApp := e, snapshots := x.snapshots ++ [(index, data)] }
  | .invoked op => { x with
      toApp := e
      history := x.history ++ [.invoked op x.log.length] }
  | .returned op value place => { x with
      toApp := e
      history := x.history ++ [.returned op value place] }
  | _ => { x with toApp := e }

def setServer (x : System n) (s : Fin n) (sv : Server) : System n :=
  { x with toApp := x.toApp.setServer s sv }

def setStage (x : System n) (k : ℕ) (call : Call n) (stage : Stage) : System n :=
  { x with toApp := x.toApp.setStage k call stage }

def events (x : System n) : List (Event (ℕ × ℕ) Op GoString) := x.history.map Moment.event

end System

variable [Coded (ℕ × Data × GoMap ℕ ℕ)]

def step (x : System n) : Action n → Option (System n)
  | .commit i => do
    let op ← x.started[i]?
    return { x with log := x.log ++ [op], started := x.started.eraseIdx i }
  | .act a => do
    let (e, seen) ← x.toApp.step a
    guard (x.Provides seen)
    return x.after e seen

lemma step_commit_iff {x x' : System n} {i : ℕ} : step x (.commit i) = some x' ↔
    ∃ op, x.started[i]? = some op ∧
      { x with log := x.log ++ [op], started := x.started.eraseIdx i } = x' := by
  simp [step, Option.bind_eq_some_iff]

lemma step_act_iff {x x' : System n} {a : Act n} : step x (.act a) = some x' ↔
    ∃ e seen, x.toApp.step a = some (e, seen) ∧ x.Provides seen ∧ x.after e seen = x' := by
  simp only [step, Option.bind_eq_bind, Option.bind_eq_some_iff, Option.guard_eq_some',
    exists_const, Option.pure_def, Option.some.injEq, Prod.exists]

end Mit6824.KvSystem
