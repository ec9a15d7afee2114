import Mit6824.ShardSystem

/-!
A shard that a group has changes by the writes of clients only.

As long as no newer configuration gives the shard away, `putShards` skips it, `deleteShards` leaves
it, and an older configuration is not adopted, whichever leader has sent the command and under
whatever number. So the content on a server is the content that it started from, with the writes
that were executed since, in the order of the log. A server may start from what it has applied
itself or from the snapshot of another one.
-/

namespace Mit6824.ShardWrites

open Mit6824.GoData Mit6824.ShardServer Mit6824.ShardReplica Mit6824.ShardReplica.GroupState
open Mit6824.ShardSystem Function

/-- The command is a newer configuration that gives the shard to another group. -/
def GivesAway (gid : ℕ) (st : GroupState) (s : Shard) : Op → Prop
  | .setConfig args => st.Executes gid (.setConfig args) ∧ st.config.num < args.config.num ∧
      args.config.shards s ≠ gid
  | _ => False

instance (gid : ℕ) (st : GroupState) (s : Shard) : ∀ op, Decidable (GivesAway gid st s op)
  | .setConfig _ => inferInstanceAs (Decidable (_ ∧ _ ∧ _))
  | .putAppend _ | .get _ | .getShards _ | .putShards _ | .deleteShards _ => .isFalse id

/-- The command if it is a write to the shard that is executed. -/
def writes (gid : ℕ) (st : GroupState) (s : Shard) : Op → List PutAppendArgs
  | .putAppend args =>
    if st.Executes gid (.putAppend args) ∧ key2shard args.key = s then [args] else []
  | _ => []

/-- The writes to the shard that are executed after a log, in their order. -/
def executed (gid : ℕ) (s : Shard) (p : List Op) : List Op → List PutAppendArgs
  | [] => []
  | op :: q => writes gid (state gid p) s op ++ executed gid s (p ++ [op]) q

def writeAll (data : Data) (l : List PutAppendArgs) : Data :=
  l.foldl (fun data args => PutAppendArgs.write args data) data

variable {gid : ℕ} {st : GroupState} {s : Shard} {p q : List Op} {op : Op} {kv kv₀ kv' : ShardKV}

lemma executed_snoc (p q : List Op) (op : Op) :
    executed gid s p (q ++ [op]) = executed gid s p q ++ writes gid (state gid (p ++ q)) s op := by
  induction q generalizing p with
  | nil => simp [executed]
  | cons op' q ih =>
    rw [List.cons_append, executed, ih, executed, List.append_assoc, List.append_assoc]
    rfl

lemma writeAll_append (data : Data) (l l' : List PutAppendArgs) :
    writeAll data (l ++ l') = writeAll (writeAll data l) l' := List.foldl_append

/-! ### One command -/

lemma owned_apply (hown : st.config.shards s = gid) (hkeep : ¬ GivesAway gid st s op) :
    (st.apply gid op).config.shards s = gid := by
  by_cases hex : st.Executes gid op
  · rw [apply_of_executes hex]
    cases op with
    | putShards args =>
      show (if s ∈ args.shards then gid else st.config.shards s) = gid
      rw [hown, ite_self]
    | setConfig args =>
      show (if st.config.num < args.config.num then args.config else st.config).shards s = gid
      split
      · next hlt => exact not_not.mp fun hne => hkeep ⟨hex, hlt, hne⟩
      · exact hown
    | _ => exact hown
  · rw [apply_of_not hex]
    exact hown

/-- **One command.** It changes the content of a shard that the group has if and only if it is a
write to it that is executed. -/
lemma applyOp_store (h : Tracks gid st kv) (hown : st.config.shards s = gid) (op : Op) :
    (kv.applyOp op).store s = writeAll (kv.store s) (writes gid st s op) := by
  by_cases hex : st.Executes gid op
  · have hkv := h.touch op.clientId
    have href : ¬ Refused (kv.getClientStatus op.clientId).gid
        (kv.getClientStatus op.clientId).config op := by
      rw [hkv.gid, hkv.config]
      exact hex.2
    rw [h.applyOp_of_executes hex]
    show ((kv.getClientStatus op.clientId).exec op).1.store s = _
    cases op with
    | putAppend args =>
      rw [exec_store _ href (by simp)]
      simp only [keep, writes]
      by_cases hk : key2shard args.key = s
      · subst hk
        rw [update_self, if_pos ⟨hex, rfl⟩]
        rfl
      · rw [update_of_ne (Ne.symm hk), if_neg fun hc => hk hc.2]
        rfl
    | putShards args =>
      rw [exec_store _ href (by simp), hkv.gid, hkv.config]
      simp only [keep, if_pos hown]
      split <;> rfl
    | deleteShards args =>
      -- the group has the shard, whatever configuration the server moves to
      have hown' : (kv.getClientStatus args.clientId).config.shards s =
          (kv.getClientStatus args.clientId).gid := by
        show kv.config.shards s = kv.gid
        rw [h.config, h.gid, hown]
      exact if_neg fun hdel => hdel.2.1 hown'
    | setConfig args =>
      rw [exec_store _ href (by simp)]
      rfl
    | get args => rfl
    | getShards args => rfl
  · have hnone : writes gid st s op = [] := by
      cases op with
      | putAppend args => exact if_neg fun hc => hex hc.1
      | _ => rfl
    rw [hnone, h.applyOp_of_not hex]
    rfl

/-! ### Runs -/

/-- The server has its state from another one after some commands: it is that server and has
applied them, or it has restored a snapshot of such a server. -/
inductive Descends (gid : ℕ) (p : List Op) (kv₀ : ShardKV) : List Op → ShardKV → Prop
  | refl : Descends gid p kv₀ [] kv₀
  | local {q : List Op} {kv kv' : ShardKV} : Descends gid p kv₀ q kv → kv'.gid = kv.gid →
      kv'.config = kv.config → kv'.store = kv.store →
      (∀ c, mark kv'.clientStatusMap c = mark kv.clientStatusMap c) → Descends gid p kv₀ q kv'
  | applyOp {q : List Op} {kv : ShardKV} (op : Op) : Descends gid p kv₀ q kv →
      Descends gid p kv₀ (q ++ [op]) (kv.applyOp op)
  | applySnap {q log rest : List Op} {kv kv' : ShardKV} : Descends gid p kv₀ q kv' →
      Replica gid log kv → log ++ rest = p ++ q → Descends gid p kv₀ q
        ((kv.setStore kv'.store kv'.config).putClientSeqNumMap kv'.clientStatusMap)

lemma Descends.replica (h₀ : Replica gid p kv₀) (h : Descends gid p kv₀ q kv) :
    Replica gid (p ++ q) kv := by
  induction h with
  | refl => rwa [List.append_nil]
  | «local» _ hgid hconfig hstore hmark ih => exact ih.local hgid hconfig hstore hmark
  | applyOp op _ ih =>
    rw [← List.append_assoc]
    exact ih.applyOp op trivial
  | applySnap _ hkv hlog ih =>
    rw [← hlog] at ih ⊢
    exact .applySnap hkv ih

/-- Every server that has applied a log has its state from one that had applied a part of it. -/
lemma exists_descends (h : Replica gid (p ++ q) kv') :
    ∃ kv, Replica gid p kv ∧ Descends gid p kv q kv' := by
  generalize hlog : p ++ q = log at h
  induction h generalizing q with
  | boot clientId =>
    obtain ⟨rfl, rfl⟩ := List.append_eq_nil_iff.mp hlog
    exact ⟨_, .boot clientId, .refl⟩
  | «local» _ hgid hconfig hstore hmark ih =>
    obtain ⟨kv, hkv, hd⟩ := ih hlog
    exact ⟨kv, hkv, hd.local hgid hconfig hstore hmark⟩
  | @applyOp log kv₁ op h _ ih =>
    rcases List.eq_nil_or_concat q with rfl | ⟨q, op', rfl⟩
    · rw [List.append_nil] at hlog
      subst hlog
      exact ⟨_, h.applyOp op trivial, .refl⟩
    · rw [List.concat_eq_append, ← List.append_assoc] at hlog
      obtain ⟨hlog', hop⟩ := List.append_inj' hlog rfl
      obtain rfl := (List.cons.inj hop).1
      obtain ⟨kv, hkv, hd⟩ := ih hlog'
      rw [List.concat_eq_append]
      exact ⟨kv, hkv, hd.applyOp op'⟩
  | applySnap hkv _ _ ih =>
    obtain ⟨kv, hkv', hd⟩ := ih hlog
    exact ⟨kv, hkv', hd.applySnap hkv hlog.symm⟩

def KeepsShard (gid : ℕ) (s : Shard) (p q : List Op) : Prop :=
  ∀ r op, r ++ [op] <+: q → ¬ GivesAway gid (state gid (p ++ r)) s op

lemma keepsShard_nil : KeepsShard gid s p [] := fun r op hr => by simp at hr

lemma keepsShard_cons :
    KeepsShard gid s p (op :: q) ↔
      ¬ GivesAway gid (state gid p) s op ∧ KeepsShard gid s (p ++ [op]) q := by
  constructor
  · intro h
    refine ⟨by simpa using h [] op ⟨q, rfl⟩, fun r op' hr => ?_⟩
    have := h (op :: r) op' (List.cons_prefix_cons.mpr ⟨rfl, hr⟩)
    rwa [List.append_assoc]
  · rintro ⟨hop, h⟩ r op' hr
    cases r with
    | nil =>
      obtain rfl := (List.cons_prefix_cons.mp hr).1
      rwa [List.append_nil]
    | cons op₀ r =>
      obtain ⟨rfl, hr'⟩ := List.cons_prefix_cons.mp hr
      have := h r op' hr'
      rwa [List.append_assoc] at this

instance decidableKeepsShard (gid : ℕ) (s : Shard) : ∀ p q, Decidable (KeepsShard gid s p q)
  | _, [] => .isTrue keepsShard_nil
  | p, op :: q =>
    have := decidableKeepsShard gid s (p ++ [op]) q
    decidable_of_iff _ keepsShard_cons.symm

lemma KeepsShard.left (h : KeepsShard gid s p (q ++ [op])) : KeepsShard gid s p q :=
  fun r op' hr => h r op' (hr.trans (List.prefix_append q [op]))

lemma KeepsShard.owned (h : KeepsShard gid s p q) (hown : (state gid p).config.shards s = gid) :
    (state gid (p ++ q)).config.shards s = gid := by
  induction q using List.reverseRecOn with
  | nil => rwa [List.append_nil]
  | append_singleton q op ih =>
    rw [← List.append_assoc, state_snoc]
    exact owned_apply (ih h.left) (h q op List.prefix_rfl)

lemma Descends.store (h₀ : Replica gid p kv₀) (hown : (state gid p).config.shards s = gid)
    (h : Descends gid p kv₀ q kv) (hkeep : KeepsShard gid s p q) :
    kv.store s = writeAll (kv₀.store s) (executed gid s p q) := by
  induction h with
  | refl => rfl
  | «local» _ _ _ hstore _ ih =>
    rw [hstore]
    exact ih hkeep
  | @applyOp q kv op hd ih =>
    rw [applyOp_store (hd.replica h₀).tracks (hkeep.left.owned hown) op, ih hkeep.left,
      executed_snoc, writeAll_append]
  | applySnap _ _ _ ih => exact ih hkeep

/-- **A shard that the group has changes by writes only.** After a log the group has the shard, and
the commands that follow do not give it away. Then the group still has it, and a server has the
content that it started from with the writes to the shard that have been executed since; and every
server started from one that had applied the log, itself or by a snapshot. -/
theorem owned_shard_writes (gid : ℕ) (p q : List Op) (s : Shard)
    (hown : (state gid p).config.shards s = gid) (hkeep : KeepsShard gid s p q) :
    (∀ kv', Replica gid (p ++ q) kv' → ∃ kv, Replica gid p kv ∧ Descends gid p kv q kv') ∧
      ∀ kv kv', Replica gid p kv → Descends gid p kv q kv' →
        kv.config.shards s = gid ∧ kv'.config.shards s = gid ∧
          kv'.store s = writeAll (kv.store s) (executed gid s p q) := by
  refine ⟨fun kv' => exists_descends, fun kv kv' hkv hd => ⟨?_, ?_, hd.store hkv hown hkeep⟩⟩
  · rw [hkv.tracks.config]
    exact hown
  · rw [(hd.replica hkv).tracks.config]
    exact hkeep.owned hown

lemma descends_replay (gid : ℕ) (p q : List Op) :
    Descends gid p (replay gid p) q (replay gid (p ++ q)) := by
  induction q using List.reverseRecOn with
  | nil =>
    rw [List.append_nil]
    exact .refl
  | append_singleton q op ih =>
    rw [← List.append_assoc, replay_snoc]
    exact ih.applyOp op

/-- Group `2` has shard `7`, gives it away, and gets it back with nothing in it. -/
def givenBack : List Op := [
  .setConfig ⟨paired 7 1 2, 1, .server 2 0 0⟩,
  .setConfig ⟨paired 7 2 1, 2, .server 2 0 0⟩,
  .putShards ⟨Finmap.insert 7 ∅ ∅, ∅, 4, .server 2 0 0⟩,
  .setConfig ⟨paired 7 3 2, 6, .server 2 0 0⟩]

/-- Two writes to a key, the first one twice, among what another leader repeats of the migration,
a deletion that comes late and a configuration that is not new. -/
def repeated (key : GoString) : List Op := [
  .putAppend ⟨key, [1], .put, 1, .clerk 0⟩,
  .putShards ⟨Finmap.insert (key2shard key) ∅ ∅, ∅, 4, .server 2 1 0⟩,
  .deleteShards ⟨2, [key2shard key], 5, .server 1 0 0⟩,
  .putAppend ⟨key, [1], .put, 1, .clerk 0⟩,
  .setConfig ⟨paired 7 2 1, 5, .server 2 1 0⟩,
  .putAppend ⟨key, [2], .append, 2, .clerk 0⟩]

theorem owned_shard_writes_repeated :
    (replay 2 (givenBack ++ repeated [7])).store (key2shard [7]) = Finmap.insert [7] [1, 2] ∅ := by
  obtain ⟨-, h⟩ := owned_shard_writes 2 givenBack (repeated [7]) (key2shard [7])
    (by decide +kernel) (by decide +kernel)
  obtain ⟨-, -, hstore⟩ :=
    h _ _ (replica_replay 2 givenBack) (descends_replay 2 givenBack (repeated [7]))
  rw [hstore]
  decide +kernel

end Mit6824.ShardWrites
