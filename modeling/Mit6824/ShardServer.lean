import Mathlib.Data.Fintype.Pi
import Mathlib.Logic.Encodable.Pi
import Mathlib.Tactic.DeriveEncodable
import Mit6824.GoData
import Mit6824.Labgob

/-!
The sharded key/value server (`shardkv/server.go`): the store of its shards, the configuration
it has adopted, the last number of each client, the first part of a handler, what the applier
does with a command and with a snapshot, and which shards a server asks other groups for.
-/

namespace Mit6824.ShardServer

open Mit6824.GoData Mit6824.Labgob Function

/-! ### Configurations (`shardctrler/common.go`) -/

abbrev NShards : ℕ := 10

abbrev Shard := Fin NShards

instance : NeZero NShards := ⟨by decide⟩

instance : LawfulBEq Shard := inferInstance

/-- A configuration as the groups keep it, with natural numbers for gids. `CtrlConfig.Config` is the
type of the source; `ShardPlans.Copy` says when this is a copy of such a configuration. -/
structure Config where
  num : ℕ
  shards : Shard → ℕ
  groups : GoMap ℕ (List GoString)
  deriving DecidableEq

instance : Encodable Config :=
  Encodable.ofLeftInverse (fun c => (c.num, c.shards, c.groups)) (fun t => ⟨t.1, t.2.1, t.2.2⟩)
    fun _ => rfl

def Config.initial : Config := ⟨0, fun _ => 0, ∅⟩

/-- What `GetGroupShardsMap` has under a gid; a gid that is not there has the nil slice. -/
def Config.groupShards (config : Config) (gid : ℕ) : List Shard :=
  (List.finRange NShards).filter fun shard => config.shards shard = gid

@[simp] lemma Config.mem_groupShards {config : Config} {gid : ℕ} {shard : Shard} :
    shard ∈ config.groupShards gid ↔ config.shards shard = gid := by
  simp [Config.groupShards]

/-! ### Requests (`shardkv/common.go`) -/

/-- Clerks and servers draw their `ClientId` at random when they start: no two are the same, and
a server that starts again has another. -/
inductive ClientId
  | clerk (n : ℕ)
  | server (gid me epoch : ℕ)
  deriving DecidableEq, Encodable

abbrev Data := GoMap GoString GoString

inductive Err
  | ok
  | errNoKey
  | errWrongGroup
  | errWrongLeader
  deriving DecidableEq, Repr

inductive PutAppendOp
  | put
  | append
  deriving DecidableEq, Repr

structure PutAppendArgs where
  key : GoString
  value : GoString
  op : PutAppendOp
  seqNum : ℕ
  clientId : ClientId
  deriving DecidableEq

structure GetArgs where
  key : GoString
  seqNum : ℕ
  clientId : ClientId
  deriving DecidableEq

structure GetShardsArgs where
  configNum : ℕ
  shards : List Shard
  seqNum : ℕ
  clientId : ClientId
  deriving DecidableEq

structure PutShardsArgs where
  shards : GoMap Shard Data
  clientSeqNumMap : GoMap ClientId ℕ
  seqNum : ℕ
  clientId : ClientId
  deriving DecidableEq

structure SetConfigArgs where
  config : Config
  seqNum : ℕ
  clientId : ClientId
  deriving DecidableEq

structure DeleteShardsArgs where
  configNum : ℕ
  shards : List Shard
  seqNum : ℕ
  clientId : ClientId
  deriving DecidableEq

/-- Commands; the type of a `PutAppend` is the `Op` of its arguments. -/
inductive Op
  | putAppend (args : PutAppendArgs)
  | get (args : GetArgs)
  | getShards (args : GetShardsArgs)
  | putShards (args : PutShardsArgs)
  | deleteShards (args : DeleteShardsArgs)
  | setConfig (args : SetConfigArgs)
  deriving DecidableEq

namespace Op

def clientId : Op → ClientId
  | putAppend args => args.clientId
  | get args => args.clientId
  | getShards args => args.clientId
  | putShards args => args.clientId
  | deleteShards args => args.clientId
  | setConfig args => args.clientId

def seqNum : Op → ℕ
  | putAppend args => args.seqNum
  | get args => args.seqNum
  | getShards args => args.seqNum
  | putShards args => args.seqNum
  | deleteShards args => args.seqNum
  | setConfig args => args.seqNum

end Op

/-- Which shard is a key in? -/
def key2shard (key : GoString) : Shard :=
  match key with
  | [] => Fin.ofNat NShards 0
  | b :: _ => Fin.ofNat NShards b.toNat

/-! ### The server -/

/-- `clientStatusMap` maps a client to its `lastSeqNum`, `configInPrecessing` has the numbers of
the configurations that the server has begun to move to. -/
structure ShardKV where
  gid : ℕ
  config : Config
  nextConfig : Config
  store : Shard → Data
  clientStatusMap : GoMap ClientId ℕ
  seqNum : ℕ
  clientId : ClientId
  configInPrecessing : Finset ℕ

def boot (gid : ℕ) (clientId : ClientId) : ShardKV where
  gid := gid
  config := .initial
  nextConfig := .initial
  store := fun _ => ∅
  clientStatusMap := ∅
  seqNum := 0
  clientId := clientId
  configInPrecessing := ∅

namespace ShardKV

def done (kv : ShardKV) (clientId : ClientId) (seqNum : ℕ) : Prop :=
  mark kv.clientStatusMap clientId ≥ seqNum

instance (kv : ShardKV) (clientId : ClientId) (seqNum : ℕ) : Decidable (kv.done clientId seqNum) :=
  Nat.decLe _ _

/-- The number of a client is never lowered. -/
def updateSeqNum (kv : ShardKV) (clientId : ClientId) (seqNum : ℕ) : ShardKV :=
  { kv with clientStatusMap := raise kv.clientStatusMap clientId seqNum }

def putClientSeqNumMap (kv : ShardKV) (clientSeqNumMap : GoMap ClientId ℕ) : ShardKV :=
  { kv with clientStatusMap := merge kv.clientStatusMap clientSeqNumMap }

def getClientStatus (kv : ShardKV) (clientId : ClientId) : ShardKV :=
  { kv with clientStatusMap := touch kv.clientStatusMap clientId }

/-! ### The store -/

def get (kv : ShardKV) (key : GoString) : GoString × Err :=
  let shard := key2shard key
  if kv.gid ≠ kv.config.shards shard then ([], .errWrongGroup)
  else
    match (kv.store shard).lookup key with
    | none => ([], .errNoKey)
    | some value => (value, .ok)

def put (kv : ShardKV) (key value : GoString) : ShardKV × Err :=
  let shard := key2shard key
  if kv.gid ≠ kv.config.shards shard then (kv, .errWrongGroup)
  else ({ kv with store := update kv.store shard ((kv.store shard).insert key value) }, .ok)

def append (kv : ShardKV) (key value : GoString) : ShardKV × Err :=
  let shard := key2shard key
  if kv.gid ≠ kv.config.shards shard then (kv, .errWrongGroup)
  else
    let data := match (kv.store shard).lookup key with
      | some val => (kv.store shard).insert key (val ++ value)
      | none => (kv.store shard).insert key value
    ({ kv with store := update kv.store shard data }, .ok)

def setStore (kv : ShardKV) (store : Shard → Data) (config : Config) : ShardKV :=
  { kv with store := store, config := config }

/-- Shards that the group has already are skipped, the others are taken at once. -/
def putShards (kv : ShardKV) (shards : GoMap Shard Data) : ShardKV :=
  { kv with
    store := fun shard =>
      match shards.lookup shard with
      | some data => if kv.config.shards shard = kv.gid then kv.store shard else data
      | none => kv.store shard
    config := { kv.config with
      shards := fun shard => if shard ∈ shards then kv.gid else kv.config.shards shard } }

def getShards (kv : ShardKV) (shards : List Shard) : GoMap Shard Data :=
  shards.foldl (fun data shard => data.insert shard (kv.store shard)) ∅

/-- The number of the configuration is not looked at, the configuration that this server is
moving to is. -/
def deleteShards (kv : ShardKV) (_configNum : ℕ) (shards : List Shard) : ShardKV :=
  { kv with
    store := fun shard =>
      if shard ∈ shards ∧ kv.config.shards shard ≠ kv.gid ∧ kv.nextConfig.shards shard ≠ kv.gid
      then ∅ else kv.store shard }

def setConfig (kv : ShardKV) (config : Config) : ShardKV :=
  if config.num > kv.config.num then { kv with config := config } else kv

end ShardKV

/-! ### Handlers -/

/-- Where `operate` gets to while it holds the client's lock. -/
inductive Operate
  | done
  | started
  | wrongLeader
  deriving DecidableEq, Repr

/-- `operate` up to its return or its wait; `isLeader` is what `Start` answers. -/
def ShardKV.operate (kv : ShardKV) (op : Op) (isLeader : Bool) : ShardKV × Operate :=
  let kv := kv.getClientStatus op.clientId
  if kv.done op.clientId op.seqNum then (kv, .done)
  else if isLeader then (kv, .started)
  else (kv, .wrongLeader)

/-! ### The applier -/

/-- The numbers that a command brings along. -/
def Op.merged : Op → GoMap ClientId ℕ
  | .putShards args => args.clientSeqNumMap
  | _ => ∅

/-- A failure that ends the process. -/
inductive Fatal
  | nilSnapshot
  | decodeError
  | indexMismatch
  deriving DecidableEq, Repr

namespace ShardKV

def exec (kv : ShardKV) : Op → ShardKV × Err
  | .putAppend args =>
    match args.op with
    | .put => kv.put args.key args.value
    | .append => kv.append args.key args.value
  | .get args => (kv, (kv.get args.key).2)
  | .getShards _ => (kv, .ok)
  | .putShards args => (kv.putShards args.shards, .ok)
  | .deleteShards args => (kv.deleteShards args.configNum args.shards, .ok)
  | .setConfig args => (kv.setConfig args.config, .ok)

/-- A command that is refused leaves no number. -/
def applyOp (kv : ShardKV) (op : Op) : ShardKV :=
  let kv := kv.getClientStatus op.clientId
  if kv.done op.clientId op.seqNum then kv
  else
    let (kv, err) := kv.exec op
    if err = .errWrongGroup then kv
    else (kv.putClientSeqNumMap op.merged).updateSeqNum op.clientId op.seqNum

variable [Coded (ℕ × (Shard → Data) × Config × GoMap ClientId ℕ)]

def snapshot (kv : ShardKV) (logIndex : ℕ) : Bytes :=
  encode (logIndex, kv.store, kv.config, kv.clientStatusMap)

end ShardKV

section

variable [Coded (ℕ × (Shard → Data) × Config × GoMap ClientId ℕ)]

/-- What `applySnap` reads off a snapshot, which is `none` if it is nil; an index of `-1` is not
compared. -/
def decodeSnap (snapshot : Option Bytes) (index : ℤ) :
    Except Fatal ((Shard → Data) × Config × GoMap ClientId ℕ) :=
  match snapshot with
  | none => throw .nilSnapshot
  | some bytes =>
    match (decode bytes : Option (ℕ × (Shard → Data) × Config × GoMap ClientId ℕ)) with
    | none => throw .decodeError
    | some (lastIncludedIndex, rest) =>
      if index ≠ -1 ∧ index ≠ lastIncludedIndex then throw .indexMismatch
      else return rest

/-- The store and the configuration are replaced, the numbers are raised. -/
def ShardKV.applySnap (kv : ShardKV) (snapshot : Option Bytes) (index : ℤ) :
    Except Fatal ShardKV := do
  let (store, config, clientSeqNumMap) ← decodeSnap snapshot index
  return (kv.setStore store config).putClientSeqNumMap clientSeqNumMap

@[simp] lemma decodeSnap_snapshot (kv : ShardKV) (k : ℕ) :
    decodeSnap (kv.snapshot k) k = .ok (kv.store, kv.config, kv.clientStatusMap) := by
  unfold decodeSnap ShardKV.snapshot
  dsimp only
  rw [decode_encode]
  simp
  rfl

end

/-! ### Migration -/

/-- The shards that the new configuration gives to the group, under the groups that have them. This
is what the function returns; its loops and its assertion are in
`ShardMigration.getMigrationFromGroupShardsMap`, and `ShardMigration.migration_copy` says that the
two agree. -/
def getMigrationFromGroupShardsMap (gid : ℕ) (oldConfig newConfig : Config) :
    GoMap ℕ (List Shard) :=
  let migrationShards := (newConfig.groupShards gid).filter
    fun newSd => newSd ∉ oldConfig.groupShards gid
  migrationShards.foldl (fun m shard =>
    let from_ := oldConfig.shards shard
    if from_ ≠ 0 then m.insert from_ ((m.lookup from_).getD [] ++ [shard]) else m) ∅

lemma lookup_foldl_migration (oldConfig : Config) (gid : ℕ) (l : List Shard)
    (m : GoMap ℕ (List Shard)) :
    (l.foldl (fun m shard =>
      let from_ := oldConfig.shards shard
      if from_ ≠ 0 then m.insert from_ ((m.lookup from_).getD [] ++ [shard]) else m) m).lookup gid =
    if l.filter (fun s => oldConfig.shards s = gid ∧ gid ≠ 0) = [] then m.lookup gid
    else some ((m.lookup gid).getD [] ++
      l.filter fun s => oldConfig.shards s = gid ∧ gid ≠ 0) := by
  induction l generalizing m with
  | nil => simp
  | cons shard l ih =>
    rw [List.foldl_cons, ih]
    by_cases h0 : oldConfig.shards shard = 0
    · by_cases hg : gid = 0
      · simp [h0, hg]
      · simp [h0, hg, Ne.symm hg]
    · by_cases hs : oldConfig.shards shard = gid
      · subst hs
        simp only [ne_eq, h0, not_false_eq_true, if_true, Finmap.lookup_insert, and_true,
          Option.getD_some, List.filter_cons, decide_true, List.append_assoc, List.cons_append,
          List.nil_append, reduceCtorEq, if_false]
        split
        · next hl => simp [hl]
        · rfl
      · simp only [ne_eq, h0, not_false_eq_true, if_true,
          Finmap.lookup_insert_of_ne _ (Ne.symm hs)]
        simp [hs]

lemma lookup_migration {gid from_ : ℕ} {oldConfig newConfig : Config} {shards : List Shard}
    (h : (getMigrationFromGroupShardsMap gid oldConfig newConfig).lookup from_ = some shards) :
    from_ ≠ 0 ∧ from_ ≠ gid ∧ ∀ s, s ∈ shards ↔
      newConfig.shards s = gid ∧ oldConfig.shards s = from_ := by
  unfold getMigrationFromGroupShardsMap at h
  rw [lookup_foldl_migration, Finmap.lookup_empty] at h
  split at h
  · cases h
  · next hne =>
    obtain rfl := Option.some.inj h
    obtain ⟨s, hs⟩ := List.exists_mem_of_ne_nil _ hne
    simp only [List.mem_filter, Config.mem_groupShards, decide_eq_true_eq] at hs
    obtain ⟨⟨-, hold⟩, hfrom, h0⟩ := hs
    have hgid : from_ ≠ gid := hfrom ▸ hold
    refine ⟨h0, hgid, fun s => ?_⟩
    simp only [Option.getD_none, List.nil_append, List.mem_filter, Config.mem_groupShards,
      decide_eq_true_eq]
    constructor
    · rintro ⟨⟨hnew, -⟩, hs, -⟩
      exact ⟨hnew, hs⟩
    · rintro ⟨hnew, hs⟩
      exact ⟨⟨hnew, hs ▸ hgid⟩, hs, h0⟩

lemma exists_mem_migration {gid from_ : ℕ} {oldConfig newConfig : Config} {shards : List Shard}
    (h : (getMigrationFromGroupShardsMap gid oldConfig newConfig).lookup from_ = some shards) :
    ∃ s, s ∈ shards := by
  unfold getMigrationFromGroupShardsMap at h
  rw [lookup_foldl_migration, Finmap.lookup_empty] at h
  split at h
  · cases h
  · next hne =>
    obtain rfl := Option.some.inj h
    exact List.exists_mem_of_ne_nil _ hne

lemma exists_lookup_migration {gid : ℕ} {oldConfig newConfig : Config} {s : Shard}
    (hnew : newConfig.shards s = gid) (hold : oldConfig.shards s ≠ gid)
    (h0 : oldConfig.shards s ≠ 0) :
    ∃ shards, (getMigrationFromGroupShardsMap gid oldConfig newConfig).lookup
      (oldConfig.shards s) = some shards ∧ s ∈ shards := by
  unfold getMigrationFromGroupShardsMap
  rw [lookup_foldl_migration, Finmap.lookup_empty]
  have hs : s ∈ ((newConfig.groupShards gid).filter fun newSd =>
      newSd ∉ oldConfig.groupShards gid).filter fun s' =>
        oldConfig.shards s' = oldConfig.shards s ∧ oldConfig.shards s ≠ 0 := by
    simp [hnew, hold, h0]
  rw [if_neg (List.ne_nil_of_mem hs)]
  exact ⟨_, rfl, by simpa using hs⟩

lemma lookup_getShards (kv : ShardKV) (shards : List Shard) (s : Shard) :
    (kv.getShards shards).lookup s = if s ∈ shards then some (kv.store s) else none := by
  have hfold : ∀ (l : List Shard) (m : GoMap Shard Data),
      (l.foldl (fun data shard => data.insert shard (kv.store shard)) m).lookup s =
        if s ∈ l then some (kv.store s) else m.lookup s := by
    intro l
    induction l with
    | nil => simp
    | cons shard l ih =>
      intro m
      rw [List.foldl_cons, ih]
      by_cases hs : s = shard
      · subst hs
        simp
      · simp [hs, Finmap.lookup_insert_of_ne]
  rw [ShardKV.getShards, hfold, Finmap.lookup_empty]

end Mit6824.ShardServer
