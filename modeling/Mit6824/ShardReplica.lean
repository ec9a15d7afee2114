import Mit6824.ShardServer

/-!
What the log of a group makes of its servers.

The configuration and the numbers are functions of the log. The store is not: `deleteShards` also
looks at the configuration that a server is about to move to, which is its own affair. A group's
state therefore keeps the content of every shard as if nothing were deleted, and says what may
have become of it.
-/

namespace Mit6824.ShardReplica

open Mit6824.GoData Mit6824.Labgob Mit6824.ShardServer Function

/-! ### The state of a group -/

/-- What the commands that delete a shard may have done to its content. -/
inductive Trace
  /-- Every server has the content. -/
  | kept
  /-- Some servers may have erased it. -/
  | maybe
  /-- The shard was given to the group after some servers may have erased it. -/
  | lost
  deriving DecidableEq

namespace Trace

def delete : Trace → Trace
  | kept => maybe
  | t => t

def gain : Trace → Trace
  | maybe => lost
  | t => t

end Trace

structure GroupState where
  config : Config
  marks : ClientId → ℕ
  store : Shard → Data
  trace : Shard → Trace

/-- The group does not have the shard of the key. -/
def Refused (gid : ℕ) (config : Config) : Op → Prop
  | .putAppend args => config.shards (key2shard args.key) ≠ gid
  | .get args => config.shards (key2shard args.key) ≠ gid
  | _ => False

instance (gid : ℕ) (config : Config) : ∀ op, Decidable (Refused gid config op)
  | .putAppend args => inferInstanceAs (Decidable (config.shards (key2shard args.key) ≠ gid))
  | .get args => inferInstanceAs (Decidable (config.shards (key2shard args.key) ≠ gid))
  | .getShards _ | .putShards _ | .deleteShards _ | .setConfig _ => .isFalse id

/-- The configuration after a command that is executed. -/
def adopt (gid : ℕ) (config : Config) : Op → Config
  | .putShards args => { config with
      shards := fun s => if s ∈ args.shards then gid else config.shards s }
  | .setConfig args => if config.num < args.config.num then args.config else config
  | _ => config

def PutAppendArgs.write (args : PutAppendArgs) (data : Data) : Data :=
  match args.op, data.lookup args.key with
  | .append, some val => data.insert args.key (val ++ args.value)
  | _, _ => data.insert args.key args.value

/-- The contents after a command that is executed, if nothing is deleted. -/
def keep (gid : ℕ) (config : Config) (store : Shard → Data) : Op → Shard → Data
  | .putAppend args => update store (key2shard args.key)
      (PutAppendArgs.write args (store (key2shard args.key)))
  | .putShards args => fun s =>
      match args.shards.lookup s with
      | some data => if config.shards s = gid then store s else data
      | none => store s
  | _ => store

/-- What may have become of the contents after a command that is executed. -/
def follow (gid : ℕ) (config : Config) (trace : Shard → Trace) : Op → Shard → Trace
  | .putShards args => fun s =>
      if s ∈ args.shards ∧ config.shards s ≠ gid then .kept else trace s
  | .deleteShards args => fun s =>
      if s ∈ args.shards ∧ config.shards s ≠ gid then (trace s).delete else trace s
  | .setConfig args => fun s =>
      if config.num < args.config.num ∧ args.config.shards s = gid ∧ config.shards s ≠ gid
      then (trace s).gain else trace s
  | _ => trace

/-- The numbers after a command that is executed. -/
def bump (marks : ClientId → ℕ) (op : Op) (c : ClientId) : ℕ :=
  max (max (marks c) (mark op.merged c)) (if c = op.clientId then op.seqNum else 0)

namespace GroupState

def initial : GroupState := ⟨.initial, fun _ => 0, fun _ => ∅, fun _ => .kept⟩

/-- The command is neither done before nor refused. -/
def Executes (gid : ℕ) (st : GroupState) (op : Op) : Prop :=
  st.marks op.clientId < op.seqNum ∧ ¬ Refused gid st.config op

instance (gid : ℕ) (st : GroupState) (op : Op) : Decidable (st.Executes gid op) :=
  inferInstanceAs (Decidable (_ ∧ _))

def apply (gid : ℕ) (st : GroupState) (op : Op) : GroupState :=
  if st.Executes gid op then
    { config := adopt gid st.config op
      marks := bump st.marks op
      store := keep gid st.config st.store op
      trace := follow gid st.config st.trace op }
  else st

end GroupState

def state (gid : ℕ) (log : List Op) : GroupState := log.foldl (GroupState.apply gid) .initial

variable {gid : ℕ} {st : GroupState} {log p q : List Op} {op : Op} {s : Shard}

@[simp] lemma state_nil : state gid [] = .initial := rfl

@[simp] lemma state_snoc (gid : ℕ) (log : List Op) (op : Op) :
    state gid (log ++ [op]) = (state gid log).apply gid op := by
  unfold state
  rw [List.foldl_append, List.foldl_cons, List.foldl_nil]

namespace GroupState

lemma apply_of_not (h : ¬ st.Executes gid op) : st.apply gid op = st := if_neg h

lemma apply_of_executes (h : st.Executes gid op) :
    st.apply gid op =
      { config := adopt gid st.config op
        marks := bump st.marks op
        store := keep gid st.config st.store op
        trace := follow gid st.config st.trace op } := if_pos h

lemma num_le_adopt (gid : ℕ) (config : Config) (op : Op) :
    config.num ≤ (adopt gid config op).num := by
  cases op with
  | setConfig args =>
    unfold adopt
    dsimp only
    split
    · next h => exact h.le
    · exact le_rfl
  | _ => exact le_rfl

lemma num_le_apply (gid : ℕ) (st : GroupState) (op : Op) :
    st.config.num ≤ (st.apply gid op).config.num := by
  unfold apply
  split
  · exact num_le_adopt gid st.config op
  · exact le_rfl

lemma marks_le_apply (gid : ℕ) (st : GroupState) (op : Op) (c : ClientId) :
    st.marks c ≤ (st.apply gid op).marks c := by
  unfold apply
  split
  · exact (le_max_left _ _).trans (le_max_left _ _)
  · exact le_rfl

lemma seqNum_le_apply (h : st.Executes gid op) :
    op.seqNum ≤ (st.apply gid op).marks op.clientId := by
  rw [apply_of_executes h]
  show op.seqNum ≤ bump st.marks op op.clientId
  unfold bump
  rw [if_pos rfl]
  exact le_max_right _ _

/-- What a command does to a shard that the group does not have: nothing, it takes the shard, it
may delete what is left of it, or it is a configuration that gives the shard to the group. -/
inductive Unowned (gid : ℕ) (st : GroupState) (s : Shard) : Op → Prop
  | same {op : Op} (hown : (st.apply gid op).config.shards s ≠ gid)
      (hstore : (st.apply gid op).store s = st.store s)
      (htrace : (st.apply gid op).trace s = st.trace s) : Unowned gid st s op
  | put {args : PutShardsArgs} (hex : st.Executes gid (.putShards args)) (hs : s ∈ args.shards)
      (hown : (st.apply gid (.putShards args)).config.shards s = gid)
      (hnum : (st.apply gid (.putShards args)).config.num = st.config.num)
      (htrace : (st.apply gid (.putShards args)).trace s = .kept) :
      Unowned gid st s (.putShards args)
  | delete {args : DeleteShardsArgs} (hex : st.Executes gid (.deleteShards args))
      (hs : s ∈ args.shards) (hconfig : (st.apply gid (.deleteShards args)).config = st.config)
      (hstore : (st.apply gid (.deleteShards args)).store s = st.store s)
      (htrace : (st.apply gid (.deleteShards args)).trace s = (st.trace s).delete) :
      Unowned gid st s (.deleteShards args)
  | gain {args : SetConfigArgs} (hex : st.Executes gid (.setConfig args))
      (hlt : st.config.num < args.config.num) (hs : args.config.shards s = gid)
      (hconfig : (st.apply gid (.setConfig args)).config = args.config)
      (htrace : (st.apply gid (.setConfig args)).trace s = (st.trace s).gain) :
      Unowned gid st s (.setConfig args)

lemma unowned_cases (op : Op) (h : st.config.shards s ≠ gid) : Unowned gid st s op := by
  by_cases hex : st.Executes gid op
  · have happly := apply_of_executes hex
    cases op with
    | putAppend args =>
      have hkey : s ≠ key2shard args.key := fun hs => hex.2 fun hk => h (hs ▸ hk)
      exact .same (by rw [happly]; exact h) (by rw [happly]; exact update_of_ne hkey _ _)
        (by rw [happly]; rfl)
    | putShards args =>
      by_cases hs : s ∈ args.shards
      · exact .put hex hs (by rw [happly]; exact if_pos hs) (by rw [happly]; rfl)
          (by rw [happly]; exact if_pos ⟨hs, h⟩)
      · refine .same ?_ ?_ ?_
        · rw [happly]
          simp only [adopt, if_neg hs]
          exact h
        · rw [happly]
          simp only [keep, Finmap.lookup_eq_none.mpr hs]
        · rw [happly]
          exact if_neg fun hc => hs hc.1
    | deleteShards args =>
      by_cases hs : s ∈ args.shards
      · exact .delete hex hs (by rw [happly]; rfl) (by rw [happly]; rfl)
          (by rw [happly]; exact if_pos ⟨hs, h⟩)
      · exact .same (by rw [happly]; exact h) (by rw [happly]; rfl)
          (by rw [happly]; exact if_neg fun hc => hs hc.1)
    | setConfig args =>
      by_cases hlt : st.config.num < args.config.num
      · have hconfig : (st.apply gid (.setConfig args)).config = args.config := by
          rw [happly]
          exact if_pos hlt
        by_cases hs : args.config.shards s = gid
        · exact .gain hex hlt hs hconfig (by rw [happly]; exact if_pos ⟨hlt, hs, h⟩)
        · exact .same (by rw [hconfig]; exact hs) (by rw [happly]; rfl)
            (by rw [happly]; exact if_neg fun hc => hs hc.2.1)
      · refine .same ?_ (by rw [happly]; rfl) (by rw [happly]; exact if_neg fun hc => hlt hc.1)
        rw [happly]
        simp only [adopt, if_neg hlt]
        exact h
    | get args => exact .same (by rw [happly]; exact h) (by rw [happly]; rfl) (by rw [happly]; rfl)
    | getShards args =>
      exact .same (by rw [happly]; exact h) (by rw [happly]; rfl) (by rw [happly]; rfl)
  · have happly := apply_of_not hex
    exact .same (by rw [happly]; exact h) (by rw [happly]) (by rw [happly])

/-- A shard that the group has goes with a new configuration only, and nothing deletes it. -/
lemma owned_cases (op : Op) (h : st.config.shards s = gid) :
    (st.apply gid op).trace s = st.trace s ∧
      ((st.apply gid op).config.shards s = gid ∨
        st.config.num < (st.apply gid op).config.num) := by
  by_cases hex : st.Executes gid op
  · rw [apply_of_executes hex]
    cases op with
    | putShards args =>
      refine ⟨if_neg fun hc => hc.2 h, Or.inl ?_⟩
      show (if s ∈ args.shards then gid else st.config.shards s) = gid
      rw [h, ite_self]
    | deleteShards args => exact ⟨if_neg fun hc => hc.2 h, Or.inl h⟩
    | setConfig args =>
      refine ⟨if_neg fun hc => hc.2.2 h, ?_⟩
      simp only [adopt]
      split
      · next hlt => exact Or.inr hlt
      · exact Or.inl h
    | _ => exact ⟨rfl, Or.inl h⟩
  · rw [apply_of_not hex]
    exact ⟨rfl, Or.inl h⟩

end GroupState

open GroupState

/-- What a longer log keeps: a relation between states that every command keeps. -/
lemma state_rel {R : GroupState → GroupState → Prop} (refl : ∀ st, R st st)
    (trans : ∀ a b c, R a b → R b c → R a c) (happly : ∀ st op, R st (st.apply gid op))
    (h : p <+: q) : R (state gid p) (state gid q) := by
  obtain ⟨r, rfl⟩ := h
  induction r using List.reverseRecOn with
  | nil => rw [List.append_nil]; exact refl _
  | append_singleton r op ih =>
    rw [← List.append_assoc, state_snoc]
    exact trans _ _ _ ih (happly _ op)

lemma num_mono (h : p <+: q) : (state gid p).config.num ≤ (state gid q).config.num :=
  state_rel (R := fun a b => a.config.num ≤ b.config.num) (fun _ => le_rfl)
    (fun _ _ _ => le_trans) (fun st op => num_le_apply gid st op) h

lemma marks_mono (h : p <+: q) (c : ClientId) : (state gid p).marks c ≤ (state gid q).marks c :=
  state_rel (R := fun a b => a.marks c ≤ b.marks c) (fun _ => le_rfl)
    (fun _ _ _ => le_trans) (fun st op => marks_le_apply gid st op c) h

/-- Only a new configuration takes a shard from a group. -/
lemma owned_mono (h : p <+: q) (hown : (state gid p).config.shards s = gid)
    (hnum : (state gid q).config.num = (state gid p).config.num) :
    (state gid q).config.shards s = gid := by
  refine (state_rel (R := fun a b => a.config.num ≤ b.config.num ∧ (a.config.shards s = gid →
    b.config.num = a.config.num → b.config.shards s = gid)) (fun _ => ⟨le_rfl, fun h _ => h⟩)
    (fun a b c hab hbc => ⟨hab.1.trans hbc.1, fun ha hn => ?_⟩)
    (fun st op => ⟨num_le_apply gid st op, fun ha hn => ?_⟩) h).2 hown hnum
  · have hb : b.config.num = a.config.num := le_antisymm (hn ▸ hbc.1) hab.1
    exact hbc.2 (hab.2 ha hb) (hn.trans hb.symm)
  · exact (owned_cases op ha).2.resolve_right (by omega)

/-- What may have been erased is not the group's. -/
lemma not_owned_of_maybe (h : (state gid log).trace s = .maybe) :
    (state gid log).config.shards s ≠ gid := by
  induction log using List.reverseRecOn with
  | nil => cases h
  | append_singleton log op ih =>
    rw [state_snoc] at h ⊢
    by_cases hown : (state gid log).config.shards s = gid
    · rw [(owned_cases op hown).1] at h
      exact absurd hown (ih h)
    · cases unowned_cases op hown with
      | same hown' => exact hown'
      | put _ _ _ _ htrace =>
        rw [htrace] at h
        cases h
      | delete _ _ hconfig =>
        rw [hconfig]
        exact hown
      | gain _ _ _ _ htrace =>
        rw [htrace] at h
        cases ht : (state gid log).trace s <;> rw [ht] at h <;> cases h

/-! ### Servers -/

/-- What a server of the group can be after the commands of a log, if every command it applies
meets a condition. It may also make statuses of clients, set the configuration it moves to and
draw numbers at any time, and restore a snapshot that another server took on the way
(`applySnap_snapshot`). -/
inductive ReplicaIf (ok : ShardKV → Op → Prop) (gid : ℕ) : List Op → ShardKV → Prop
  | boot (clientId : ClientId) : ReplicaIf ok gid [] (boot gid clientId)
  | local {log : List Op} {kv kv' : ShardKV} : ReplicaIf ok gid log kv → kv'.gid = kv.gid →
      kv'.config = kv.config → kv'.store = kv.store →
      (∀ c, mark kv'.clientStatusMap c = mark kv.clientStatusMap c) → ReplicaIf ok gid log kv'
  | applyOp {log : List Op} {kv : ShardKV} (op : Op) : ReplicaIf ok gid log kv → ok kv op →
      ReplicaIf ok gid (log ++ [op]) (kv.applyOp op)
  | applySnap {log rest : List Op} {kv kv' : ShardKV} : ReplicaIf ok gid log kv →
      ReplicaIf ok gid (log ++ rest) kv' → ReplicaIf ok gid (log ++ rest)
        ((kv.setStore kv'.store kv'.config).putClientSeqNumMap kv'.clientStatusMap)

abbrev Replica : ℕ → List Op → ShardKV → Prop := ReplicaIf fun _ _ => True

lemma applySnap_snapshot [Coded (ℕ × (Shard → Data) × Config × GoMap ClientId ℕ)]
    (kv kv' : ShardKV) (k : ℕ) : kv.applySnap (kv'.snapshot k) k =
      .ok ((kv.setStore kv'.store kv'.config).putClientSeqNumMap kv'.clientStatusMap) := by
  unfold ShardKV.applySnap
  rw [decodeSnap_snapshot]
  rfl

/-- The content that a server has of a shard. -/
def Fits : Trace → Data → Data → Prop
  | .kept, data, data' => data' = data
  | .maybe, data, data' => data' = data ∨ data' = ∅
  | .lost, _, _ => True

/-- The server has the configuration and the numbers of the group, and the contents as far as
they are known. -/
structure Tracks (gid : ℕ) (st : GroupState) (kv : ShardKV) : Prop where
  gid : kv.gid = gid
  config : kv.config = st.config
  mark : ∀ c, mark kv.clientStatusMap c = st.marks c
  store : ∀ s, Fits (st.trace s) (st.store s) (kv.store s)

variable {kv kv' : ShardKV} {ok : ShardKV → Op → Prop}

lemma exec_putAppend (kv : ShardKV) (args : PutAppendArgs) :
    kv.exec (.putAppend args) =
      if kv.gid ≠ kv.config.shards (key2shard args.key) then (kv, .errWrongGroup)
      else ({ kv with
        store := update kv.store (key2shard args.key)
          (PutAppendArgs.write args (kv.store (key2shard args.key))) }, .ok) := by
  obtain ⟨key, value, op, seqNum, clientId⟩ := args
  cases op with
  | put => rfl
  | append =>
    show kv.append key value = _
    unfold ShardKV.append PutAppendArgs.write
    dsimp only
    cases (kv.store (key2shard key)).lookup key <;> rfl

/-- Only a command on a shard that the group does not have is refused. -/
lemma exec_err (kv : ShardKV) (op : Op) :
    (kv.exec op).2 = .errWrongGroup ↔ Refused kv.gid kv.config op := by
  cases op with
  | putAppend args =>
    rw [exec_putAppend, Refused]
    split
    · next h => simp [Ne.symm h]
    · next h => simp [(not_not.mp h).symm]
  | get args =>
    simp only [ShardKV.exec, Refused, ShardKV.get]
    split
    · next h => simp [Ne.symm h]
    · next h => split <;> simp [(not_not.mp h).symm]
  | _ => simp [ShardKV.exec, Refused]

lemma exec_eq_self (h : Refused kv.gid kv.config op) : (kv.exec op).1 = kv := by
  cases op with
  | putAppend args => rw [exec_putAppend, if_pos (Ne.symm h)]
  | get args => rfl
  | _ => exact absurd h id

lemma exec_frame (kv : ShardKV) (op : Op) : (kv.exec op).1.gid = kv.gid ∧
    (kv.exec op).1.nextConfig = kv.nextConfig ∧
    (kv.exec op).1.clientStatusMap = kv.clientStatusMap ∧
    (kv.exec op).1.seqNum = kv.seqNum ∧ (kv.exec op).1.clientId = kv.clientId ∧
    (kv.exec op).1.configInPrecessing = kv.configInPrecessing := by
  cases op with
  | putAppend args =>
    rw [exec_putAppend]
    split <;> exact ⟨rfl, rfl, rfl, rfl, rfl, rfl⟩
  | setConfig args =>
    simp only [ShardKV.exec, ShardKV.setConfig]
    split <;> exact ⟨rfl, rfl, rfl, rfl, rfl, rfl⟩
  | _ => exact ⟨rfl, rfl, rfl, rfl, rfl, rfl⟩

lemma exec_config (kv : ShardKV) (op : Op) :
    (kv.exec op).1.config = adopt kv.gid kv.config op := by
  cases op with
  | putAppend args =>
    rw [exec_putAppend]
    split <;> rfl
  | setConfig args =>
    simp only [ShardKV.exec, ShardKV.setConfig, adopt, gt_iff_lt]
    split <;> rfl
  | _ => rfl

/-- The store of a server is the one of the group, but for what it erases. -/
lemma exec_store (kv : ShardKV) (h : ¬ Refused kv.gid kv.config op)
    (hdel : ∀ args, op ≠ .deleteShards args) :
    (kv.exec op).1.store = keep kv.gid kv.config kv.store op := by
  cases op with
  | putAppend args => rw [exec_putAppend, if_neg fun hne => h (Ne.symm hne)]; rfl
  | deleteShards args => exact absurd rfl (hdel args)
  | setConfig args =>
    simp only [ShardKV.exec, ShardKV.setConfig, keep]
    split <;> rfl
  | _ => rfl

lemma applyOp_of_not (h : mark kv.clientStatusMap op.clientId ≥ op.seqNum ∨
    Refused kv.gid kv.config op) : kv.applyOp op = kv.getClientStatus op.clientId := by
  unfold ShardKV.applyOp
  dsimp only
  split
  · rfl
  · next hdone =>
    have href : Refused kv.gid kv.config op := h.resolve_left fun hle => hdone (by
      show mark (touch _ _) _ ≥ _
      rwa [mark_touch])
    have hexec : Refused (kv.getClientStatus op.clientId).gid
      (kv.getClientStatus op.clientId).config op := href
    rw [if_pos ((exec_err _ _).mpr hexec), exec_eq_self hexec]

lemma applyOp_of_executes (hdone : mark kv.clientStatusMap op.clientId < op.seqNum)
    (href : ¬ Refused kv.gid kv.config op) :
    kv.applyOp op = ((((kv.getClientStatus op.clientId).exec op).1.putClientSeqNumMap
      op.merged).updateSeqNum op.clientId op.seqNum) := by
  unfold ShardKV.applyOp
  dsimp only
  rw [if_neg, if_neg]
  · exact fun h => href ((exec_err (kv.getClientStatus op.clientId) op).mp h)
  · show ¬ mark (touch _ _) _ ≥ _
    rw [mark_touch]
    omega

lemma Fits.delete {t : Trace} {data data' : Data} (h : Fits t data data') :
    Fits t.delete data data' ∧ Fits t.delete data ∅ := by
  cases t with
  | kept => exact ⟨Or.inl h, Or.inr rfl⟩
  | maybe => exact ⟨h, Or.inr rfl⟩
  | lost => exact ⟨trivial, trivial⟩

lemma Fits.gain {t : Trace} {data data' : Data} (h : Fits t data data') :
    Fits t.gain data data' := by
  cases t with
  | kept => exact h
  | maybe => trivial
  | lost => trivial

lemma Tracks.local (h : Tracks gid st kv) (hgid : kv'.gid = kv.gid)
    (hconfig : kv'.config = kv.config) (hstore : kv'.store = kv.store)
    (hmark : ∀ c, GoData.mark kv'.clientStatusMap c = GoData.mark kv.clientStatusMap c) :
    Tracks gid st kv' :=
  ⟨hgid.trans h.gid, hconfig.trans h.config, fun c => (hmark c).trans (h.mark c),
    by rw [hstore]; exact h.store⟩

lemma Tracks.exec_store (h : Tracks gid st kv)
    (hmaybe : ∀ s, st.trace s = .maybe → st.config.shards s ≠ gid)
    (href : ¬ Refused gid st.config op) (s : Shard) :
    Fits (follow gid st.config st.trace op s) (keep gid st.config st.store op s)
      ((kv.exec op).1.store s) := by
  have hs := h.store s
  have hkv : ¬ Refused kv.gid kv.config op := by rw [h.gid, h.config]; exact href
  cases op with
  | putAppend args =>
    rw [ShardReplica.exec_store kv hkv (by simp), h.gid, h.config]
    simp only [follow, keep]
    by_cases hk : s = key2shard args.key
    · subst hk
      rw [update_self, update_self]
      -- a shard that the group has is kept or lost
      cases ht : st.trace (key2shard args.key) with
      | kept => rw [ht] at hs; exact congrArg _ hs
      | maybe => exact absurd (not_not.mp href) (hmaybe _ ht)
      | lost => trivial
    · rwa [update_of_ne hk, update_of_ne hk]
  | putShards args =>
    rw [ShardReplica.exec_store kv hkv (by simp), h.gid, h.config]
    simp only [follow, keep]
    cases hl : args.shards.lookup s with
    | none =>
      rw [if_neg fun hm => Finmap.lookup_eq_none.mp hl hm.1]
      exact hs
    | some data =>
      by_cases hown : st.config.shards s = gid
      · dsimp only
        rw [if_pos hown, if_pos hown, if_neg fun hm => hm.2 hown]
        exact hs
      · dsimp only
        rw [if_neg hown, if_neg hown, if_pos ⟨Finmap.mem_of_lookup_eq_some hl, hown⟩]
        rfl
  | deleteShards args =>
    simp only [follow, keep, ShardKV.exec, ShardKV.deleteShards]
    by_cases hin : s ∈ args.shards ∧ st.config.shards s ≠ gid
    · rw [if_pos hin]
      split
      · exact hs.delete.2
      · exact hs.delete.1
    · rw [if_neg hin, if_neg fun hd => hin ⟨hd.1, by rw [← h.gid, ← h.config]; exact hd.2.1⟩]
      exact hs
  | setConfig args =>
    rw [ShardReplica.exec_store kv hkv (by simp)]
    simp only [follow, keep]
    split
    · exact hs.gain
    · exact hs
  | _ => exact hs

lemma Tracks.applyOp_of_not (h : Tracks gid st kv) (hex : ¬ st.Executes gid op) :
    kv.applyOp op = kv.getClientStatus op.clientId := by
  refine ShardReplica.applyOp_of_not ?_
  rw [h.mark, h.gid, h.config]
  by_cases hlt : st.marks op.clientId < op.seqNum
  · exact Or.inr (not_not.mp fun hn => hex ⟨hlt, hn⟩)
  · exact Or.inl (Nat.not_lt.mp hlt)

lemma Tracks.applyOp_of_executes (h : Tracks gid st kv) (hex : st.Executes gid op) :
    kv.applyOp op = ((((kv.getClientStatus op.clientId).exec op).1.putClientSeqNumMap
      op.merged).updateSeqNum op.clientId op.seqNum) :=
  ShardReplica.applyOp_of_executes (by rw [h.mark]; exact hex.1)
    (by rw [h.gid, h.config]; exact hex.2)

lemma Tracks.touch (h : Tracks gid st kv) (c : ClientId) : Tracks gid st (kv.getClientStatus c) :=
  h.local rfl rfl rfl fun _ => mark_touch _ _ _

lemma Tracks.applyOp (h : Tracks gid st kv)
    (hmaybe : ∀ s, st.trace s = .maybe → st.config.shards s ≠ gid) (op : Op) :
    Tracks gid (st.apply gid op) (kv.applyOp op) := by
  have hkv := h.touch op.clientId
  by_cases hex : st.Executes gid op
  · rw [apply_of_executes hex, h.applyOp_of_executes hex]
    obtain ⟨fgid, -, fmap, -⟩ := exec_frame (kv.getClientStatus op.clientId) op
    refine ⟨fgid.trans hkv.gid, ?_, fun c => ?_, hkv.exec_store hmaybe hex.2⟩
    · show ((kv.getClientStatus op.clientId).exec op).1.config = _
      rw [exec_config, hkv.gid, hkv.config]
    · show GoData.mark (raise (merge _ _) _ _) c = bump st.marks op c
      rw [mark_raise, fmap, mark_merge, mark_merge, hkv.mark, hkv.mark, bump]
      split
      · next hc => rw [hc]
      · rw [max_eq_left (Nat.zero_le _)]
  · rw [apply_of_not hex, h.applyOp_of_not hex]
    exact hkv

/-- **A server has the state of its log.** -/
theorem ReplicaIf.tracks (h : ReplicaIf ok gid log kv) : Tracks gid (state gid log) kv := by
  induction h with
  | boot clientId => exact ⟨rfl, rfl, fun _ => rfl, fun _ => rfl⟩
  | «local» _ hgid hconfig hstore hmark ih => exact ih.local hgid hconfig hstore hmark
  | applyOp op _ _ ih =>
    rw [state_snoc]
    exact ih.applyOp (fun _ => not_owned_of_maybe) op
  | @applySnap log rest kv kv' _ _ ih ih' =>
    refine ⟨ih.gid, ih'.config, fun c => ?_, ih'.store⟩
    show GoData.mark (merge _ _) c = _
    have hle : (state gid log).marks c ≤ (state gid (log ++ rest)).marks c :=
      marks_mono (List.prefix_append log rest) c
    rw [mark_merge, ih'.mark]
    show max (GoData.mark kv.clientStatusMap c) _ = _
    rw [ih.mark]
    exact max_eq_right hle

/-- The commands of a log, applied one after the other by a server that never leads. -/
def replay (gid : ℕ) (log : List Op) : ShardKV :=
  log.foldl ShardKV.applyOp (boot gid (.server gid 0 0))

@[simp] lemma replay_snoc (gid : ℕ) (log : List Op) (op : Op) :
    replay gid (log ++ [op]) = (replay gid log).applyOp op := by
  unfold replay
  rw [List.foldl_append, List.foldl_cons, List.foldl_nil]

lemma replica_replay (gid : ℕ) (log : List Op) : Replica gid log (replay gid log) := by
  induction log using List.reverseRecOn with
  | nil => exact .boot _
  | append_singleton log op ih =>
    rw [replay_snoc]
    exact ih.applyOp op trivial

end Mit6824.ShardReplica
