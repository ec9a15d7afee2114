import Mit6824.GoData
import Mit6824.Labgob
import Mit6824.Sessions

/-!
The key/value server (`kvraft/server.go`): its store, the last number of each client, the first
part of a handler, and what the applier does with a command and with a snapshot.
-/

namespace Mit6824.KvServer

open Mit6824.GoData Mit6824.Labgob Mit6824.Sessions

inductive OpType
  | put
  | append
  | get
  deriving DecidableEq, Repr

structure Op where
  type : OpType
  key : GoString
  value : GoString
  seqNum : ℕ
  clientId : ℕ
  deriving DecidableEq, Repr

instance : Numbered ℕ Op := ⟨Op.clientId, Op.seqNum⟩

@[simp] lemma client_eq (op : Op) : client op = op.clientId := rfl

@[simp] lemma seq_eq (op : Op) : seq op = op.seqNum := rfl

abbrev Data := GoMap GoString GoString

/-! ### The store -/

/-- `Store.get`: the value, the empty string if there is none, and whether there is one. -/
def storeGet (data : Data) (key : GoString) : GoString × Bool :=
  match data.lookup key with
  | some value => (value, true)
  | none => ([], false)

def storePut (data : Data) (key value : GoString) : Data := data.insert key value

def storeAppend (data : Data) (key value : GoString) : Data :=
  match data.lookup key with
  | some val => data.insert key (val ++ value)
  | none => data.insert key value

/-! ### The server -/

/-- `clientsStatus` maps a client to its `lastSeqNum`. -/
structure KVServer where
  store : Data
  clientsStatus : GoMap ℕ ℕ
  deriving DecidableEq

def boot : KVServer := ⟨∅, ∅⟩

namespace KVServer

def done (kv : KVServer) (clientId seqNum : ℕ) : Prop :=
  mark kv.clientsStatus clientId ≥ seqNum

instance (kv : KVServer) (clientId seqNum : ℕ) : Decidable (kv.done clientId seqNum) :=
  Nat.decLe _ _

def updateSeqNum (kv : KVServer) (clientId seqNum : ℕ) : KVServer :=
  { kv with clientsStatus := kv.clientsStatus.insert clientId seqNum }

def getClientStatus (kv : KVServer) (clientId : ℕ) : KVServer :=
  { kv with clientsStatus := touch kv.clientsStatus clientId }

end KVServer

inductive Err
  | ok
  | wrongLeader
  deriving DecidableEq, Repr

/-- `GetReply`; a `PutAppendReply` has no value. -/
structure Reply where
  err : Err
  value : GoString
  deriving DecidableEq, Repr

/-- Where `operate` gets to while it holds the client's lock. -/
inductive Operate
  | done
  | started
  | wrongLeader
  deriving DecidableEq, Repr

namespace KVServer

/-- `operate` up to its return or its wait; `isLeader` is what `Start` answers. -/
def operate (kv : KVServer) (op : Op) (isLeader : Bool) : KVServer × Operate :=
  let kv := kv.getClientStatus op.clientId
  if kv.done op.clientId op.seqNum then (kv, .done)
  else if isLeader then (kv, .started)
  else (kv, .wrongLeader)

/-- What `Get` and `PutAppend` answer once `operate` has returned `true`. -/
def reply (kv : KVServer) (op : Op) : Reply :=
  match op.type with
  | .get => ⟨.ok, (storeGet kv.store op.key).1⟩
  | _ => ⟨.ok, []⟩

end KVServer

/-! ### The applier -/

def exec (data : Data) (op : Op) : Data :=
  match op.type with
  | .put => storePut data op.key op.value
  | .append => storeAppend data op.key op.value
  | .get => data

/-- A failure that ends the process. -/
inductive Fatal
  | nilSnapshot
  | decodeError
  | indexMismatch
  deriving DecidableEq, Repr

namespace KVServer

/-- The first part of `applyOp`, which leaves the number of the client for later. -/
def execute (kv : KVServer) (op : Op) : KVServer := { kv with store := exec kv.store op }

def applyOp (kv : KVServer) (op : Op) : KVServer :=
  let kv := kv.getClientStatus op.clientId
  if kv.done op.clientId op.seqNum then kv
  else (kv.execute op).updateSeqNum op.clientId op.seqNum

variable [Coded (ℕ × Data × GoMap ℕ ℕ)]

def snapshot (kv : KVServer) (logIndex : ℕ) : Bytes :=
  encode (logIndex, kv.store, kv.clientsStatus)

end KVServer

variable [Coded (ℕ × Data × GoMap ℕ ℕ)]

/-- What `applySnap` reads off a snapshot, which is `none` if it is nil; an index of `-1` is not
compared. -/
def decodeSnap (snapshot : Option Bytes) (index : ℤ) : Except Fatal (Data × GoMap ℕ ℕ) :=
  match snapshot with
  | none => throw .nilSnapshot
  | some bytes =>
    match (decode bytes : Option (ℕ × Data × GoMap ℕ ℕ)) with
    | none => throw .decodeError
    | some (lastIncludedIndex, data, clientSeqNumMap) =>
      if index ≠ -1 ∧ index ≠ lastIncludedIndex then throw .indexMismatch
      else return (data, clientSeqNumMap)

/-- Every client of the snapshot is given its number; no other status is touched. -/
def KVServer.applySnap (kv : KVServer) (snapshot : Option Bytes) (index : ℤ) :
    Except Fatal KVServer := do
  let (data, clientSeqNumMap) ← decodeSnap snapshot index
  return { store := data, clientsStatus := clientSeqNumMap ∪ kv.clientsStatus }

@[simp] lemma decodeSnap_snapshot (kv : KVServer) (k : ℕ) :
    decodeSnap (kv.snapshot k) k = .ok (kv.store, kv.clientsStatus) := by
  unfold decodeSnap KVServer.snapshot
  dsimp only
  rw [decode_encode]
  simp
  rfl

end Mit6824.KvServer
