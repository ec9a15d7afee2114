import Mit6824.ShardContent
import Mit6824.ShardDedup
import Mit6824.ShardRefine

/-!
Safety of the sharded service: who serves a shard, what becomes of its content when it is handed
over, which answers of servers to servers are true, and which operations of clerks are done.
-/

namespace Mit6824.ShardSafety

open Mit6824.GoData Mit6824.Labgob Mit6824.ShardServer Mit6824.ShardReplica
open Mit6824.ShardProtocol Mit6824.ShardSystem Mit6824.ShardSteps Mit6824.ShardRefine
open Mit6824.ShardOwners Mit6824.ShardAcks Mit6824.ShardContent Mit6824.ShardDedup Mit6824.Runs

/-- Shards are taken for the next configuration only, and from gid `0` only when the groups that
had them have moved on. -/
def TakenInOrder (w : World) (ev : Event) : Prop := LatePutsIdle w ev ∧ FormerOwnersMoved w ev

instance (w : World) (ev : Event) : Decidable (TakenInOrder w ev) :=
  inferInstanceAs (Decidable (_ ∧ _))

/-- Hand-offs do not overtake one another. -/
def HandedInOrder (w : World) (ev : Event) : Prop :=
  TakenInOrder w ev ∧ MergesKeepLine w ev ∧ LateDeletesIdle w ev ∧ ZeroGainsKept w ev

instance (w : World) (ev : Event) : Decidable (HandedInOrder w ev) :=
  inferInstanceAs (Decidable (_ ∧ _))

/-- A clerk has one operation at a time. -/
def Sequential (x : System) : Action → Prop
  | .invoke clientId _ => (x.clerks clientId).open_ = []
  | _ => True

instance (x : System) : ∀ act, Decidable (Sequential x act)
  | .invoke clientId _ => inferInstanceAs (Decidable ((x.clerks clientId).open_ = []))
  | .publish _ | .send _ _ _ _ | .return _ | .call _ _ | .commit _ _ | .snapshot _ _
  | .server _ _ _ | .issue _ _ _ | .request _ _ _ _ | .receive _ _ _ _ => .isTrue trivial

section

variable [Coded (ℕ × (Shard → Data) × Config × GoMap ClientId ℕ)] {x : System}

lemma owners_of_reaches (hr : ReachesIf step (OnEvents TakenInOrder) System.init x) :
    Inv x ∧ Owners (world x) :=
  inv_of_reaches (fun _ _ _ h => h) owners_init
    (fun _ _ hw ho hP hrule => ho.next hw hrule hP.1 hP.2) hr

lemma acks_of_reaches (hr : ReachesIf step (OnEvents MergesKeepLine) System.init x) :
    Inv x ∧ Acks (world x) :=
  inv_of_reaches (fun _ _ _ h => h) acks_init
    (fun _ _ hw ha hP hrule => ha.next hw hrule hP) hr

lemma content_of_reaches (hr : ReachesIf step (OnEvents HandedInOrder) System.init x) :
    Inv x ∧ Owners (world x) ∧ Acks (world x) ∧ Content (world x) := by
  refine inv_of_reaches (I := fun w => Owners w ∧ Acks w ∧ Content w) (fun _ _ _ h => h)
    ⟨owners_init, acks_init, content_init⟩ (fun w ev hw hi hP hrule => ?_) hr
  obtain ⟨ho, ha, hc⟩ := hi
  obtain ⟨⟨hput, hset⟩, hmerge, hdel, hzero⟩ := hP
  exact ⟨ho.next hw hrule hput hset, ha.next hw hrule hmerge,
    hc.next ha ho hw hrule hput hdel hzero⟩

/-- A clerk with nothing open has nothing but done operations behind it. -/
lemma asksInTurn_of_sequential {act : Action} (hi : Inv x) (h : Sequential x act) :
    OnEvents AsksInTurn x act := by
  intro ev hev
  cases act with
  | invoke n request =>
    obtain rfl := Option.some.inj hev
    obtain ⟨hc, hs, -⟩ := next_spec (x.clerks n) n request
    intro m h0 hm
    rw [hs] at hm
    rw [hc]
    refine ((hi.clerks n).numbers m h0 (by omega)).resolve_right ?_
    rintro ⟨op, hop, -⟩
    have hnil : (x.clerks n).open_ = [] := h
    rw [hnil] at hop
    cases hop
  | publish config =>
    obtain rfl := Option.some.inj hev
    trivial
  | commit g k =>
    obtain ⟨op, -, rfl⟩ := Option.map_eq_some_iff.mp hev
    trivial
  | issue g i o =>
    obtain ⟨t, -, rfl⟩ := Option.map_eq_some_iff.mp hev
    trivial
  | _ => cases hev

lemma dedup_of_reaches (hr : ReachesIf step Sequential System.init x) :
    Inv x ∧ Dedup (world x) :=
  inv_of_reaches (fun _ _ hi h => asksInTurn_of_sequential hi h) dedup_init
    (fun _ _ hw hd hP hrule => hd.next hw hrule hP) hr

end

/-! ### Runs -/

/-- Group `1` has shard `0`, is written to, and hands the shard over to group `2`, which it is
moved to. -/
def handOff : List Action :=
  List.flatten
    [[.publish (paired 0 1 1)], changeConfig 1 0, changeConfig 2 1,
      [.invoke 1 (.putAppend [100] [1] .put), .send 1 0 1 0], serve 1 2,
      [.return 2, .publish (paired 0 2 2)], changeConfig 1 3,
      -- `GET_SHARDS`
      [.server 2 0 .poll, .server 2 0 .query, .server 2 0 .begin, .issue 2 0 1, .request 2 0 1 0,
        .call 4 .pass], serve 1 4, [.call 4 .finish, .receive 2 0 1 4,
      -- `PUT_SHARDS`
        .issue 2 0 1, .request 2 0 1 0, .call 5 (.operate true), .commit 2 0, .server 2 0 .apply,
        .server 2 0 (.mark (.server 1 0 0)), .server 2 0 (.mark (.clerk 1)),
        .server 2 0 (.mark (.server 2 0 0)), .server 2 0 .note, .call 5 .wake, .call 5 .answer,
        .receive 2 0 1 5,
      -- `DELETE_SHARDS`
        .issue 2 0 1, .request 2 0 1 0], serve 1 6, [.receive 2 0 1 6,
      -- `SET_CONFIG`
        .issue 2 0 2, .request 2 0 2 0], serve 2 7]

/-- All groups leave and another one joins. Group `1` has not heard of it when group `2` gets the
shards, which were at gid `0`. -/
def leaveAndJoin : List Action :=
  List.flatten
    [[.publish ⟨1, fun _ => 1, members [1]⟩, .publish ⟨2, fun _ => 0, ∅⟩,
      .publish ⟨3, fun _ => 2, members [2]⟩], changeConfig 1 0, changeConfig 2 1, changeConfig 2 2,
      changeConfig 2 3]

/-- The tables after groups `1`, `2`, `4` and `5` have joined, and after group `3` has. -/
def joinedFour : Config := ⟨1, fun s => [1, 2, 4, 5].getD (s % 4) 0, members [1, 2, 4, 5]⟩

def joinedFive : Config :=
  ⟨2, fun s => if s.val < 2 then 3 else [1, 2, 4, 5].getD (s % 4) 0, members [1, 2, 3, 4, 5]⟩

/-- Group `1` has shard `0`, group `2` has shard `1`, group `1` is written to, and group `3` joins
and gets both shards. Its server `0` has shard `0` of group `1`, issues its `PUT_SHARDS` under
number `3`, and then asks group `2` under number `4`. Server `1` puts shard `1` of group `2` first,
and with it number `4` of server `0`: the `PUT_SHARDS` of shard `0` is taken for done. -/
def overtaken : List Action :=
  List.flatten
    [[.publish joinedFour], changeConfig 1 0, changeConfig 2 1, changeConfig 3 2,
      [.invoke 1 (.putAppend [100] [1] .put), .send 1 0 1 0], serve 1 3,
      [.publish joinedFive], changeConfig 1 4, changeConfig 2 5,
      -- server `0` has asked both groups
      [.server 3 0 .poll, .server 3 0 .query, .server 3 0 .begin, .issue 3 0 1, .request 3 0 1 0,
        .call 6 .pass], serve 1 6, [.call 6 .finish, .receive 3 0 1 6, .issue 3 0 1, .issue 3 0 2,
        .request 3 0 2 0, .call 7 .pass], serve 2 7,
      -- server `1` asks group `2` and puts the shard
      [.call 7 .finish, .server 3 1 .apply, .server 3 1 .note, .server 3 1 .poll,
        .server 3 1 .query, .server 3 1 .begin, .issue 3 1 2, .request 3 1 2 0, .call 8 .pass],
      serve 2 8, [.call 8 .finish, .receive 3 1 2 8, .issue 3 1 2, .request 3 1 2 1,
        .call 9 (.operate true), .commit 3 0, .server 3 0 .apply,
        .server 3 0 (.mark (.server 2 0 0)), .server 3 0 (.mark (.server 3 0 0)),
        .server 3 0 (.mark (.server 3 1 0)), .server 3 0 .note,
      -- the `PUT_SHARDS` of server `0`
        .request 3 0 1 0, .call 10 (.operate true), .call 10 .answer, .receive 3 0 1 10]]

/-- Server `0` goes on and has shard `0` deleted at group `1`. -/
def overtakenDelete : List Action :=
  List.flatten [overtaken, [.issue 3 0 1, .request 3 0 1 0], serve 1 11]

/-- It finishes with group `2` and takes its group to the new configuration. -/
def overtakenSet : List Action := List.flatten
  [overtakenDelete, [.receive 3 0 1 11, .receive 3 0 2 7, .issue 3 0 2, .request 3 0 2 0,
    .call 12 (.operate true), .commit 3 0, .server 3 0 .apply, .server 3 0 (.mark (.server 2 0 0)),
    .server 3 0 (.mark (.server 3 0 0)), .server 3 0 .note, .call 12 .wake, .call 12 .answer,
    .receive 3 0 2 12, .issue 3 0 2, .request 3 0 2 0], serve 2 13,
    [.receive 3 0 2 13, .issue 3 0 3, .request 3 0 3 0], serve 3 14]

def putsShard (s : Shard) : Op → Bool
  | .putShards args => decide (s ∈ args.shards)
  | _ => false

lemma prefix_take_snoc {log : List Op} {k : ℕ} {op : Op} (h : log[k]? = some op) :
    log.take k ++ [op] <+: log := by
  rw [← take_succ_of_getElem? h]
  exact List.take_prefix _ _

/-! ### Results -/

/-- **One serving group.** In every run whose actions take shards in order, servers of two groups
that have applied the logs of their groups do not both have a shard. -/
theorem one_serving_group [Coded (ℕ × (Shard → Data) × Config × GoMap ClientId ℕ)] (x : System)
    (hr : ReachesIf step (OnEvents TakenInOrder) System.init x) (s : Shard) (g h : ℕ)
    (hg : g ≠ 0) (hh : h ≠ 0) (kv kv' : ShardKV) (hkv : Replica g (x.groups g).log kv)
    (hkv' : Replica h (x.groups h).log kv')
    (hs : kv.config.shards s = g) (hs' : kv'.config.shards s = h) : g = h := by
  obtain ⟨-, ho⟩ := owners_of_reaches hr
  rw [hkv.tracks.config] at hs
  rw [hkv'.tracks.config] at hs'
  exact ho.unique hg hh hs hs'

theorem one_serving_group_taken :
    ∃ x, ReachesIf step (OnEvents TakenInOrder) System.init x ∧
      (x.server 2 0).kv.config.shards 0 = 2 ∧
      ∀ kv, Replica 1 (x.groups 1).log kv → kv.config.shards 0 ≠ 1 := by
  have hrun : (runIf step (OnEvents TakenInOrder) System.init handOff).map (fun x =>
      ((x.server 2 0).kv.config.shards 0, (replay 2 (x.groups 2).log).config.shards 0)) =
      some (2, 2) := by
    decide +kernel
  obtain ⟨x, hx, hd⟩ := Option.map_eq_some_iff.mp hrun
  obtain ⟨hserver, hreplay⟩ := Prod.mk.inj hd
  have hr := reachesIf_of_runIf hx
  refine ⟨x, hr, hserver, fun kv hkv hs => ?_⟩
  have h12 := one_serving_group x hr 0 1 2 (by decide) (by decide) kv _ hkv (replica_replay 2 _) hs
    hreplay
  exact absurd h12 (by decide)

/-- Both groups serve all shards. -/
theorem two_serving_groups :
    ∃ x, Reaches step System.init x ∧
      (x.server 1 0).applied = (x.groups 1).log.length ∧
      (x.server 2 0).applied = (x.groups 2).log.length ∧
      ∀ s, (x.server 1 0).kv.config.shards s = 1 ∧ (x.server 2 0).kv.config.shards s = 2 := by
  have hrun : (run step System.init leaveAndJoin).map (fun x => decide
      ((x.server 1 0).applied = (x.groups 1).log.length ∧
        (x.server 2 0).applied = (x.groups 2).log.length ∧
        ∀ s, (x.server 1 0).kv.config.shards s = 1 ∧ (x.server 2 0).kv.config.shards s = 2)) =
      some true := by
    decide +kernel
  obtain ⟨x, hx, hd⟩ := Option.map_eq_some_iff.mp hrun
  exact ⟨x, reaches_of_run hx, of_decide_eq_true hd⟩

/-- **Exact hand-off.** In every run in which hand-offs do not overtake one another: when a server
of a group starts to have a shard, the configuration it had gives the shard to no group, or it
gives the shard to another group and the next one to this group, and the server has the content
that every server of the other group had when it went from the one to the other. -/
theorem hand_off_exact [Coded (ℕ × (Shard → Data) × Config × GoMap ClientId ℕ)] (x : System)
    (hr : ReachesIf step (OnEvents HandedInOrder) System.init x) (s : Shard) (h : ℕ)
    (p : List Op) (op : Op) (hp : p ++ [op] <+: (x.groups h).log) (kv : ShardKV)
    (hkv : Replica h p kv) (hbefore : kv.config.shards s ≠ h)
    (hafter : (kv.applyOp op).config.shards s = h) :
    (world x).Assigns kv.config.num s 0 ∨
    ∃ g, g ≠ 0 ∧ g ≠ h ∧ (world x).Assigns kv.config.num s g ∧
      (world x).Assigns (kv.config.num + 1) s h ∧
      ∃ q op', q ++ [op'] <+: (x.groups g).log ∧ ∀ kv', Replica g q kv' →
        kv'.config.num = kv.config.num ∧ (kv'.applyOp op').config.num = kv.config.num + 1 ∧
          (kv.applyOp op).store s = kv'.store s := by
  obtain ⟨hi, -, -, hc⟩ := content_of_reaches hr
  have hkv1 : Replica h (p ++ [op]) (kv.applyOp op) := hkv.applyOp op trivial
  rw [hkv1.tracks.config] at hafter
  rw [hkv.tracks.config] at hbefore ⊢
  rcases hc.takes hi.sound hp hbefore hafter with
    hzero | ⟨g, v, hpass, hv, q, op', hq, hn, hn1, hv'⟩
  · exact Or.inl hzero
  · refine Or.inr ⟨g, hpass.from_ne_zero, hpass.ne, hpass.before, hpass.after, q, op', hq,
      fun kv' hkv' => ?_⟩
    have hkv1' : Replica g (q ++ [op']) (kv'.applyOp op') := hkv'.applyOp op' trivial
    rw [hkv'.tracks.config, hkv1'.tracks.config, hv kv hkv, hv' kv' hkv']
    exact ⟨hn, hn1, rfl⟩

theorem hand_off_exact_put :
    ∃ x, ReachesIf step (OnEvents HandedInOrder) System.init x ∧
      ((x.server 2 0).kv.store 0).lookup [100] = some [1] ∧
      ∃ g q, q <+: (x.groups g).log ∧
        ∀ kv, Replica g q kv → (kv.store 0).lookup [100] = some [1] := by
  have hrun : (runIf step (OnEvents HandedInOrder) System.init handOff).map (fun x =>
      let kv := replay 2 ((x.groups 2).log.take 1)
      let kv' := replay 2 ((x.groups 2).log.take 2)
      decide ((x.groups 2).log[1]?.isSome ∧ ((x.server 2 0).kv.store 0).lookup [100] = some [1] ∧
        x.configs[1]?.map (·.shards 0) = some 1 ∧ kv.config.num = 1 ∧ kv.config.shards 0 = 1 ∧
        kv'.config.shards 0 = 2 ∧ (kv'.store 0).lookup [100] = some [1])) = some true := by
    decide +kernel
  obtain ⟨x, hx, hd⟩ := Option.map_eq_some_iff.mp hrun
  obtain ⟨hsome, hstore, hconfig, hnum, hbefore, hafter, hnew⟩ := of_decide_eq_true hd
  obtain ⟨op, hop⟩ := Option.isSome_iff_exists.mp hsome
  have hr := reachesIf_of_runIf hx
  have hsnoc : (replay 2 ((x.groups 2).log.take 1)).applyOp op =
      replay 2 ((x.groups 2).log.take 2) := by
    rw [← replay_snoc, ← take_succ_of_getElem? hop]
  refine ⟨x, hr, hstore, ?_⟩
  rcases hand_off_exact x hr 0 2 _ op (prefix_take_snoc hop) _ (replica_replay 2 _)
    (by rw [hbefore]; decide) (by rw [hsnoc, hafter]) with ⟨c, hc, hzero⟩ |
    ⟨g, -, -, -, -, q, op', hq, hkv⟩
  · rw [hnum] at hc
    have hc : x.configs[1]? = some c := hc
    rw [hc] at hconfig
    exact absurd (hzero.symm.trans (Option.some.inj hconfig)) (by decide)
  · refine ⟨g, q, (List.prefix_append _ _).trans hq, fun kv h => ?_⟩
    rw [← (hkv kv h).2.2, hsnoc, hnew]

/-- Group `3` starts to have shard `0` with nothing in it. -/
theorem handed_over_empty :
    ∃ x, Reaches step System.init x ∧ ∃ p op q op', p ++ [op] <+: (x.groups 3).log ∧
      q ++ [op'] <+: (x.groups 1).log ∧
      (replay 3 p).config.num = 1 ∧ (replay 3 p).config.shards 0 = 1 ∧
      ((replay 3 p).applyOp op).config.shards 0 = 3 ∧ ((replay 3 p).applyOp op).store 0 = ∅ ∧
      (replay 1 q).config.num = 1 ∧ ((replay 1 q).applyOp op').config.num = 2 ∧
      ((replay 1 q).store 0).lookup [100] = some [1] := by
  have hrun : (run step System.init overtakenSet).map (fun x =>
      let kv := replay 3 ((x.groups 3).log.take 3)
      let kv' := replay 3 ((x.groups 3).log.take 4)
      let old := replay 1 ((x.groups 1).log.take 2)
      decide ((x.groups 3).log[3]?.isSome ∧ (x.groups 1).log[2]?.isSome ∧ kv.config.num = 1 ∧
        kv.config.shards 0 = 1 ∧ kv'.config.shards 0 = 3 ∧ kv'.store 0 = ∅ ∧ old.config.num = 1 ∧
        (replay 1 ((x.groups 1).log.take 3)).config.num = 2 ∧
        (old.store 0).lookup [100] = some [1])) = some true := by
    decide +kernel
  obtain ⟨x, hx, hd⟩ := Option.map_eq_some_iff.mp hrun
  obtain ⟨hsome, hsome', hrest⟩ := of_decide_eq_true hd
  obtain ⟨op, hop⟩ := Option.isSome_iff_exists.mp hsome
  obtain ⟨op', hop'⟩ := Option.isSome_iff_exists.mp hsome'
  refine ⟨x, reaches_of_run hx, _, op, _, op', prefix_take_snoc hop, prefix_take_snoc hop', ?_⟩
  rw [← replay_snoc, ← replay_snoc, ← take_succ_of_getElem? hop, ← take_succ_of_getElem? hop']
  exact hrest

/-- **Only what is handed over is erased.** In every run in which hand-offs do not overtake one
another: what a server erases on a `DELETE_SHARDS` has been taken, by a `PUT_SHARDS` in the log of
the group that the shard went to when the server's group last lost it. This holds in the state in
which the `DELETE_SHARDS` is the last command of its log, so the `PUT_SHARDS` came first. -/
theorem erased_handed_over [Coded (ℕ × (Shard → Data) × Config × GoMap ClientId ℕ)] (x : System)
    (hr : ReachesIf step (OnEvents HandedInOrder) System.init x) (s : Shard) (g : ℕ)
    (q : List Op) (args : DeleteShardsArgs) (hq : q ++ [.deleteShards args] <+: (x.groups g).log)
    (kv : ShardKV) (hkv : Replica g q kv) (hne : kv.store s ≠ ∅)
    (hempty : (kv.applyOp (.deleteShards args)).store s = ∅) :
    ∃ n h, n + 1 ≤ kv.config.num ∧ h ≠ 0 ∧ h ≠ g ∧ (world x).Assigns n s g ∧
      (world x).Assigns (n + 1) s h ∧
      (∀ e, n + 1 ≤ e → e ≤ kv.config.num → ¬ (world x).Assigns e s g) ∧
      ∃ p args', p ++ [.putShards args'] <+: (x.groups h).log ∧
        args'.shards.lookup s = some (kv.store s) ∧
        ∀ kv', Replica h p kv' → kv'.config.shards s ≠ h ∧
          (kv'.applyOp (.putShards args')).store s = kv.store s := by
  obtain ⟨hi, -, ha, hc⟩ := content_of_reaches hr
  obtain ⟨n, h, hn, hpass, hnot, p, args', hp, hex, hown, hv⟩ :=
    hc.erases ha hi.sound hq hkv hne hempty
  rw [← hkv.tracks.config] at hn hnot
  refine ⟨n, h, hn, hpass.to_ne_zero, hpass.ne.symm, hpass.before, hpass.after, hnot, p, args', hp,
    hv, fun kv' hkv' => ⟨?_, store_of_put hkv' hex hown hv⟩⟩
  rw [hkv'.tracks.config]
  exact hown

theorem erased_handed_over_deleted :
    ∃ x, ReachesIf step (OnEvents HandedInOrder) System.init x ∧
      (x.groups 1).log[4]? = some (.deleteShards ⟨2, [0], 4, .server 2 0 0⟩) ∧
      ∃ h p args, p ++ [.putShards args] <+: (x.groups h).log ∧
        args.shards.lookup 0 = some ((replay 1 ((x.groups 1).log.take 4)).store 0) := by
  have hrun : (runIf step (OnEvents HandedInOrder) System.init handOff).map (fun x => decide
      ((x.groups 1).log[4]? = some (.deleteShards ⟨2, [0], 4, .server 2 0 0⟩) ∧
        (replay 1 ((x.groups 1).log.take 4)).store 0 ≠ ∅ ∧
        (replay 1 ((x.groups 1).log.take 5)).store 0 = ∅)) = some true := by
    decide +kernel
  obtain ⟨x, hx, hd⟩ := Option.map_eq_some_iff.mp hrun
  obtain ⟨hop, hne, hempty⟩ := of_decide_eq_true hd
  have hr := reachesIf_of_runIf hx
  rw [take_succ_of_getElem? hop, replay_snoc] at hempty
  obtain ⟨n, h, -, -, -, -, -, -, p, args, hp, hv, -⟩ := erased_handed_over x hr 0 1 _ _
    (prefix_take_snoc hop) _ (replica_replay 1 _) hne hempty
  exact ⟨x, hr, hop, h, p, args, hp, hv⟩

/-- Group `1` erases shard `0`, and group `3`, which it went to, has not taken it. -/
theorem erased_not_handed_over :
    ∃ x, Reaches step System.init x ∧ x.configs[1]?.map (·.shards 0) = some 1 ∧
      x.configs[2]?.map (·.shards 0) = some 3 ∧
      ∃ q args, q ++ [.deleteShards args] <+: (x.groups 1).log ∧
        (replay 1 q).config.num = 2 ∧ ((replay 1 q).store 0).lookup [100] = some [1] ∧
        ((replay 1 q).applyOp (.deleteShards args)).store 0 = ∅ ∧
        ∀ args', .putShards args' ∈ (x.groups 3).log → 0 ∉ args'.shards := by
  have hrun : (run step System.init overtakenDelete).map (fun x =>
      let kv := replay 1 ((x.groups 1).log.take 4)
      decide (x.configs[1]?.map (·.shards 0) = some 1 ∧ x.configs[2]?.map (·.shards 0) = some 3 ∧
        (x.groups 1).log[4]? = some (.deleteShards ⟨2, [0], 5, .server 3 0 0⟩) ∧
        kv.config.num = 2 ∧ (kv.store 0).lookup [100] = some [1] ∧
        (replay 1 ((x.groups 1).log.take 5)).store 0 = ∅ ∧
        ∀ op ∈ (x.groups 3).log, putsShard 0 op = false)) = some true := by
    decide +kernel
  obtain ⟨x, hx, hd⟩ := Option.map_eq_some_iff.mp hrun
  obtain ⟨h1, h2, hop, hnum, hstore, hempty, hlog⟩ := of_decide_eq_true hd
  refine ⟨x, reaches_of_run hx, h1, h2, _, _, prefix_take_snoc hop, hnum, hstore, ?_, ?_⟩
  · rw [← replay_snoc, ← take_succ_of_getElem? hop]
    exact hempty
  · intro args' hin
    exact of_decide_eq_false (hlog _ hin)

/-- **Acknowledged requests of servers were executed.** In every run in which no numbers that come
along overtake a request: a request of a server that is answered `OK` was executed in the part of
the group's log that the answering server had applied. -/
theorem acknowledged_executed [Coded (ℕ × (Shard → Data) × Config × GoMap ClientId ℕ)] (x : System)
    (hr : ReachesIf step (OnEvents MergesKeepLine) System.init x)
    (call : Call) (hcall : call ∈ x.calls) (h i e : ℕ) (hc : call.op.clientId = .server h i e)
    (reply : Reply) (place : ℕ) (hst : call.stage = .replied reply place)
    (hok : reply.err = .ok) :
    ExecutedIn call.gid ((x.groups call.gid).log.take place) call.op := by
  obtain ⟨hi, ha⟩ := acks_of_reaches hr
  obtain ⟨hrule, hstage⟩ := hi.calls call hcall
  rw [hst] at hstage
  obtain ⟨⟨p, hp, rfl, hle⟩, -⟩ := hstage (by rw [hok]; simp)
  change p <+: (x.groups call.gid).log at hp
  rw [← List.prefix_iff_eq_take.mp hp]
  obtain ⟨m, hm⟩ := hi.sound.issued_of_server hrule hc
  exact ha.executed _ hm p hp hle

theorem acknowledged_executed_put :
    ∃ x, ReachesIf step (OnEvents MergesKeepLine) System.init x ∧ ∃ call ∈ x.calls,
      call.op.clientId = .server 2 0 0 ∧ call.op.seqNum = 3 ∧
      call.stage = .replied (.reply .ok) 2 ∧
      ExecutedIn 2 ((x.groups 2).log.take 2) call.op := by
  have hrun : (runIf step (OnEvents MergesKeepLine) System.init handOff).map (fun x =>
      (x.calls[5]?).map fun call =>
        (call.gid, call.op.clientId, call.op.seqNum, call.stage)) =
      some (some (2, .server 2 0 0, 3, .replied (.reply .ok) 2)) := by
    decide +kernel
  obtain ⟨x, hx, hd⟩ := Option.map_eq_some_iff.mp hrun
  obtain ⟨call, hc, hcd⟩ := Option.map_eq_some_iff.mp hd
  simp only [Prod.mk.injEq] at hcd
  obtain ⟨hgid, hclient, hseq, hst⟩ := hcd
  have hr := reachesIf_of_runIf hx
  have hmem := List.mem_of_getElem? hc
  have hex := acknowledged_executed x hr call hmem 2 0 0 hclient _ 2 hst rfl
  rw [hgid] at hex
  exact ⟨x, hr, call, hmem, hclient, hseq, hst, hex⟩

/-- A `PUT_SHARDS` is answered `OK` and is not in the log. -/
theorem acknowledged_not_executed :
    ∃ x, Reaches step System.init x ∧ ∃ call ∈ x.calls, call.gid = 3 ∧
      call.op.clientId = .server 3 0 0 ∧ putsShard 0 call.op = true ∧
      call.stage = .replied (.reply .ok) 2 ∧ call.op ∉ (x.groups 3).log := by
  have hrun : (run step System.init overtaken).map (fun x =>
      (x.calls[10]?).map fun call => (call.gid, call.op.clientId, putsShard 0 call.op, call.stage,
        decide (call.op ∈ (x.groups 3).log))) =
      some (some (3, .server 3 0 0, true, .replied (.reply .ok) 2, false)) := by
    decide +kernel
  obtain ⟨x, hx, hd⟩ := Option.map_eq_some_iff.mp hrun
  obtain ⟨call, hc, hcd⟩ := Option.map_eq_some_iff.mp hd
  simp only [Prod.mk.injEq, decide_eq_false_iff_not] at hcd
  exact ⟨x, reaches_of_run hx, call, List.mem_of_getElem? hc, hcd⟩

/-- **Operations of clerks are done once.** In every run in which each clerk has one operation at a
time: a number that a server has of a clerk, and every number below, is the number of an operation
that a group which had the shard has executed; no log executes a number twice; and the numbers of
a server only go up until it restarts. -/
theorem clerks_done_once [Coded (ℕ × (Shard → Data) × Config × GoMap ClientId ℕ)] (x : System)
    (hr : ReachesIf step Sequential System.init x) :
    (∀ g i c n, 0 < n → n ≤ mark (x.server g i).kv.clientStatusMap (.clerk c) →
      ∃ op ∈ x.asked, op.clientId = .clerk c ∧ op.seqNum = n ∧
        ∃ h, ExecutedIn h (x.groups h).log op) ∧
    (∀ g p q op op', p ++ [op] <+: (x.groups g).log → q ++ [op'] <+: (x.groups g).log →
      (state g p).Executes g op → (state g q).Executes g op' → op.clientId = op'.clientId →
      op.seqNum = op'.seqNum → p = q) ∧
    ∀ act x', step x act = some x' → ∀ g i, (x'.server g i).epoch = (x.server g i).epoch → ∀ c,
      mark (x.server g i).kv.clientStatusMap c ≤ mark (x'.server g i).kv.clientStatusMap c := by
  obtain ⟨hi, hd⟩ := dedup_of_reaches hr
  refine ⟨fun g i c n h0 hn => ?_, fun g p q op op' hp hq hex hex' hc hs =>
    executed_once hp hq hex hex' hc hs, fun act x' hs g i hepoch c => ?_⟩
  · obtain ⟨p, hp, -, hle⟩ := (hi.servers g i).mark_le (.clerk c)
    exact hd.executed g c n h0 ((hn.trans hle).trans (marks_mono hp _))
  · rcases (hi.step hs).1.forth g i with hlt | ⟨-, -, hmark⟩
    · omega
    · exact hmark c

theorem clerks_done_once_merged :
    ∃ x, ReachesIf step Sequential System.init x ∧
      mark (x.server 2 0).kv.clientStatusMap (.clerk 1) = 1 ∧
      ∃ op ∈ x.asked, op.clientId = .clerk 1 ∧ op.seqNum = 1 ∧
        ∃ h, ExecutedIn h (x.groups h).log op := by
  have hrun : (runIf step Sequential System.init handOff).map (fun x =>
      mark (x.server 2 0).kv.clientStatusMap (.clerk 1)) = some 1 := by
    decide +kernel
  obtain ⟨x, hx, hmark⟩ := Option.map_eq_some_iff.mp hrun
  have hr := reachesIf_of_runIf hx
  exact ⟨x, hr, hmark, (clerks_done_once x hr).1 2 0 1 1 (by decide) hmark.ge⟩

end Mit6824.ShardSafety
