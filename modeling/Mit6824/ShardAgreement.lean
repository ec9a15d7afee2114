import Mit6824.ShardSystem

/-!
Agreement of the servers of a group.

Servers that have applied the same commands have the same configuration and the same numbers.
Their stores agree if the configuration that a server moves to never decides whether it deletes
something.
-/

namespace Mit6824.ShardAgreement

open Mit6824.GoData Mit6824.ShardServer Mit6824.ShardReplica Mit6824.ShardSystem Mit6824.Runs
open Function

/-- A server that executes a `DELETE_SHARDS` has nothing of the shards that its configuration does
not give to its group but the one it moves to does. -/
def Undivided (kv : ShardKV) : Op → Prop
  | .deleteShards args => ¬ kv.done args.clientId args.seqNum → ∀ s ∈ args.shards,
      kv.config.shards s ≠ kv.gid → kv.nextConfig.shards s = kv.gid → kv.store s = ∅
  | _ => True

variable {gid : ℕ} {log : List Op} {kv kv' : ShardKV} {op : Op}

lemma exec_nextConfig (kv : ShardKV) (op : Op) : (kv.applyOp op).nextConfig = kv.nextConfig := by
  by_cases hdone : mark kv.clientStatusMap op.clientId < op.seqNum
  · by_cases href : Refused kv.gid kv.config op
    · rw [applyOp_of_not (Or.inr href)]; rfl
    · rw [applyOp_of_executes hdone href]
      exact (exec_frame _ op).2.1
  · rw [applyOp_of_not (Or.inl (Nat.not_lt.mp hdone))]; rfl

lemma replay_nextConfig (gid : ℕ) (log : List Op) : (replay gid log).nextConfig = .initial := by
  induction log using List.reverseRecOn with
  | nil => rfl
  | append_singleton log op ih => rw [replay_snoc, exec_nextConfig, ih]

lemma applyOp_store (hgid : kv.gid = kv'.gid) (hconfig : kv.config = kv'.config)
    (hmark : ∀ c, mark kv.clientStatusMap c = mark kv'.clientStatusMap c)
    (hstore : kv.store = kv'.store) (hok : Undivided kv op)
    (hnext : ∀ s, kv'.nextConfig.shards s ≠ kv'.gid) :
    (kv.applyOp op).store = (kv'.applyOp op).store := by
  by_cases hdone : mark kv.clientStatusMap op.clientId < op.seqNum
  · by_cases href : Refused kv.gid kv.config op
    · rw [applyOp_of_not (Or.inr href), applyOp_of_not (Or.inr (hgid ▸ hconfig ▸ href))]
      exact hstore
    · have href' : ¬ Refused kv'.gid kv'.config op := hgid ▸ hconfig ▸ href
      rw [applyOp_of_executes hdone href, applyOp_of_executes (hmark _ ▸ hdone) href']
      show ((kv.getClientStatus op.clientId).exec op).1.store =
        ((kv'.getClientStatus op.clientId).exec op).1.store
      by_cases hdel : ∃ args, op = .deleteShards args
      · obtain ⟨args, rfl⟩ := hdel
        funext s
        show (if s ∈ args.shards ∧ kv.config.shards s ≠ kv.gid ∧ kv.nextConfig.shards s ≠ kv.gid
            then ∅ else kv.store s) =
          if s ∈ args.shards ∧ kv'.config.shards s ≠ kv'.gid ∧ kv'.nextConfig.shards s ≠ kv'.gid
            then ∅ else kv'.store s
        have hnext' := hnext s
        rw [← hgid] at hnext' ⊢
        rw [← hconfig, ← hstore]
        by_cases hs : s ∈ args.shards ∧ kv.config.shards s ≠ kv.gid
        · have hr : s ∈ args.shards ∧ kv.config.shards s ≠ kv.gid ∧
              kv'.nextConfig.shards s ≠ kv.gid := ⟨hs.1, hs.2, hnext'⟩
          rw [if_pos hr]
          split
          · rfl
          · next hn =>
            have hgain : kv.nextConfig.shards s = kv.gid :=
              not_not.mp fun hne => hn ⟨hs.1, hs.2, hne⟩
            exact hok (Nat.not_le.mpr hdone) s hs.1 hs.2 hgain
        · rw [if_neg fun h => hs ⟨h.1, h.2.1⟩, if_neg fun h => hs ⟨h.1, h.2.1⟩]
      · have hne : ∀ args, op ≠ .deleteShards args := fun args h => hdel ⟨args, h⟩
        have hkeep : keep kv.gid kv.config kv.store op = keep kv'.gid kv'.config kv'.store op := by
          rw [hgid, hconfig, hstore]
        have hl := exec_store (kv.getClientStatus op.clientId) href hne
        have hr := exec_store (kv'.getClientStatus op.clientId) href' hne
        exact hl.trans (hkeep.trans hr.symm)
  · have hdone' := Nat.not_lt.mp hdone
    rw [applyOp_of_not (Or.inl hdone'), applyOp_of_not (Or.inl (hmark _ ▸ hdone'))]
    exact hstore

lemma store_eq_replay (hg : gid ≠ 0) (h : ReplicaIf Undivided gid log kv) :
    kv.store = (replay gid log).store := by
  induction h with
  | boot clientId => rfl
  | «local» _ _ _ hstore _ ih => exact hstore.trans ih
  | @applyOp log kv op h hok ih =>
    rw [replay_snoc]
    have hr := (replica_replay gid log).tracks
    have hk := h.tracks
    refine applyOp_store (hk.gid.trans hr.gid.symm) (hk.config.trans hr.config.symm)
      (fun c => (hk.mark c).trans (hr.mark c).symm) ih hok fun s => ?_
    rw [replay_nextConfig, hr.gid]
    exact Ne.symm hg
  | applySnap _ _ _ ih' => exact ih'

lemma undivided_replay (hg : gid ≠ 0) (log : List Op) :
    ReplicaIf Undivided gid log (replay gid log) := by
  induction log using List.reverseRecOn with
  | nil => exact .boot _
  | append_singleton log op ih =>
    rw [replay_snoc]
    refine ih.applyOp op ?_
    cases op with
    | deleteShards args =>
      intro _ s _ _ hnext
      rw [replay_nextConfig, ih.tracks.gid] at hnext
      exact absurd hnext.symm hg
    | _ => trivial

/-- **Replica agreement.** Two servers of a group that have applied the same commands, one by one or
from a snapshot on, have the same configuration, the same numbers and the same stores, if every
`DELETE_SHARDS` that one of them executed met the condition. -/
theorem replicas_agree (gid : ℕ) (hg : gid ≠ 0) (log : List Op) (kv kv' : ShardKV)
    (h : ReplicaIf Undivided gid log kv) (h' : ReplicaIf Undivided gid log kv') :
    (∀ s, kv.store s = kv'.store s) ∧ kv.config = kv'.config ∧
      ∀ c, mark kv.clientStatusMap c = mark kv'.clientStatusMap c := by
  refine ⟨fun s => ?_, h.tracks.config.trans h'.tracks.config.symm, fun c => ?_⟩
  · rw [store_eq_replay hg h, store_eq_replay hg h']
  · rw [h.tracks.mark, h'.tracks.mark]

/-! ### Where servers differ -/

/-- Group `2` has shard `7`, is written to, and gives the shard away; its new group deletes it. -/
def written : List Op :=
  [.setConfig ⟨paired 7 1 2, 1, .server 2 0 0⟩, .putAppend ⟨[97], [1], .put, 1, .clerk 1⟩,
    .setConfig ⟨paired 7 2 1, 2, .server 2 0 0⟩]

def deletion : Op := .deleteShards ⟨2, [7], 3, .server 1 0 0⟩

/-- A server that has restarted and restored a snapshot before the shard is deleted. -/
def restored : ShardKV :=
  ((boot 2 (.server 2 1 1)).setStore (replay 2 written).store
    (replay 2 written).config).putClientSeqNumMap (replay 2 written).clientStatusMap

theorem replicas_agree_deleted :
    (restored.applyOp deletion).store 7 = (replay 2 (written ++ [deletion])).store 7 ∧
      restored.store 7 ≠ (restored.applyOp deletion).store 7 := by
  have hg : 2 ≠ 0 := by decide
  have hrestored : ReplicaIf Undivided 2 written restored :=
    .applySnap (.boot _) (undivided_replay hg written)
  have hdel : Undivided restored deletion := by
    intro _ s _ _ hnext
    have h20 : (0 : ℕ) = 2 := hnext
    cases h20
  refine ⟨(replicas_agree 2 hg _ _ _ (hrestored.applyOp deletion hdel)
    (undivided_replay hg _)).1 7, ?_⟩
  decide +kernel

/-- Group `2` has shard `7`, is written to, and gives the shard to group `1`, which takes it. The
next configuration gives it back: server `0` of group `2` has begun to move there when it executes
the `DELETE_SHARDS` of group `1`, server `1` has never led. -/
def aboutToReturn : List Action :=
  let apply := [.server 2 1 .apply, .server 2 1 .note]
  List.flatten
    [[.publish (paired 7 1 2)], changeConfig 1 0, changeConfig 2 1,
      [.invoke 1 (.putAppend [97] [1] .put), .send 1 0 2 0], serve 2 2,
      [.publish (paired 7 2 1)], changeConfig 2 3,
      -- group `1` takes the shard
      [.server 1 0 .poll, .server 1 0 .query, .server 1 0 .begin, .issue 1 0 2, .request 1 0 2 0,
        .call 4 .pass], serve 2 4, [.call 4 .finish, .receive 1 0 2 4, .issue 1 0 2,
        .request 1 0 2 0, .call 5 (.operate true), .commit 1 0, .server 1 0 .apply,
        .server 1 0 (.mark (.server 2 0 0)), .server 1 0 (.mark (.clerk 1)),
        .server 1 0 (.mark (.server 1 0 0)), .server 1 0 .note, .call 5 .wake, .call 5 .answer,
        .receive 1 0 2 5, .issue 1 0 2,
      -- server `0` of group `2` begins to move on
        .publish (paired 7 3 2), .server 2 0 .poll, .server 2 0 .query, .server 2 0 .begin,
        .request 1 0 2 0], serve 2 6, apply, apply, apply, apply, apply]

/-- Both servers have applied the same commands, one has the shard and one has not. -/
theorem replicas_differ :
    ∃ x, Reaches step System.init x ∧ (x.server 2 0).phase = .idle ∧ (x.server 2 1).phase = .idle ∧
      (x.server 2 0).applied = 5 ∧ (x.server 2 1).applied = 5 ∧
      ((x.server 2 0).kv.store 7).lookup [97] = some [1] ∧ (x.server 2 1).kv.store 7 = ∅ := by
  have hrun : (run step System.init aboutToReturn).map (fun x => decide
      ((x.server 2 0).phase = .idle ∧ (x.server 2 1).phase = .idle ∧
        (x.server 2 0).applied = 5 ∧ (x.server 2 1).applied = 5 ∧
        ((x.server 2 0).kv.store 7).lookup [97] = some [1] ∧ (x.server 2 1).kv.store 7 = ∅)) =
      some true := by
    decide +kernel
  obtain ⟨x, hx, hd⟩ := Option.map_eq_some_iff.mp hrun
  exact ⟨x, reaches_of_run hx, of_decide_eq_true hd⟩

end Mit6824.ShardAgreement
