import Mit6824.CtrlReplay

/-!
Which `Join`s the applier gets through.

`JoinGroups` loops over its groups and at most once over the shards for each, so it ends on every
configuration and every map. `ResetShards` goes on to the next shard inside its loop over the
groups only: it ends as soon as there is a group, and it never ends without one.
-/

namespace Mit6824.CtrlEnds

open Mit6824.GoData Mit6824.MapOrder Mit6824.CtrlConfig Mit6824.CtrlServer Mit6824.CtrlTable
open Mit6824.CtrlHistory Mit6824.CtrlReplay Mit6824.Sessions
open Mit6824.ShardServer (NShards Shard)

variable {sc : ShardCtrler} {groups : GoMap Gid (List GoString)} {passes : ℕ}

/-! ### The loops -/

lemma ends_fillGroup (c : Config) (newGid : Gid) : Ends (c.fillGroup newGid) := by
  refine Ends.bind (.forIn fun cnt c => ?_) fun c => .pure c
  refine ensures_getGroupShardsMap.ends.bind fun m => ?_
  refine ensures_getGidWithMaximumShards.ends.bind fun maxGid => ?_
  dsimp only
  split
  · exact .pure _
  · split
    · exact Ends.panicked.bind fun _ => .pure _
    · exact .pure _

lemma ends_joinGroups (c : Config) (groups : GoMap Gid (List GoString)) :
    Ends (c.joinGroups groups) := by
  refine (ensures_sortedKeys groups).ends.bind fun l => ?_
  refine Ends.bind (.forIn fun newGid c => ?_) fun c => .pure c
  dsimp only
  split
  · exact (ends_fillGroup c newGid).bind fun c => .pure _
  · exact .pure _

/-- With a group, every pass assigns a shard. -/
lemma ends_resetShards (c : Config) (hne : c.groups ≠ ∅) (hpasses : NShards ≤ passes) :
    Ends (c.resetShards passes) := by
  refine (ensures_resetShards hpasses ?_).ends
  by_contra hex
  push Not at hex
  exact hne (eq_empty_iff.mpr hex)

lemma ends_nextConfig (c : Config) (hne : c.num = 0 → groups ≠ ∅) (hpasses : NShards ≤ passes) :
    Ends (nextConfig passes (.join groups) c) := by
  intro orders
  obtain ⟨c', hclone, rfl⟩ := ensures_clone c orders
  unfold nextConfig
  rw [Prog.outcome_bind_ok hclone]
  simp only [Change.exec]
  split
  · next hnum => exact ends_resetShards _ (hne hnum) hpasses _
  · exact ends_joinGroups c' groups _

/-! ### The applier -/

/-- The latest configuration is the one that the server was started with. -/
def First (sc : ShardCtrler) : Prop := ∃ e, sc.entries.getLast? = some e ∧ e.num = 0

lemma ends_applyChange (hne : First sc → groups ≠ ∅) (hpasses : NShards ≤ passes) :
    Ends (sc.applyChange passes (.join groups)) := by
  intro orders hrun
  cases he : sc.entries.getLast? with
  | none =>
    have hlatest : sc.getLatestConfig.outcome orders = .error .panicked := by
      unfold ShardCtrler.getLatestConfig
      rw [he]
      rfl
    unfold ShardCtrler.applyChange at hrun
    rw [Prog.outcome_bind_error hlatest] at hrun
    cases hrun
  | some e =>
    rw [applyChange_outcome he] at hrun
    have hends := ends_nextConfig (sc.read e) (fun hnum => hne ⟨e, he, hnum⟩) hpasses orders
    cases hnext : (nextConfig passes (.join groups) (sc.read e)).outcome orders with
    | ok c =>
      rw [hnext] at hrun
      cases hrun
    | error s =>
      rw [hnext] at hrun hends
      obtain rfl := Except.error.inj hrun
      exact hends rfl

lemma nextConfig_first_empty (passes : ℕ) (orders : ℕ → Order Gid) {c : Config}
    (hnum : c.num = 0) : (nextConfig passes (.join ∅) c).outcome orders = .error .running := by
  obtain ⟨c', hclone, rfl⟩ := ensures_clone c orders
  unfold nextConfig
  rw [Prog.outcome_bind_ok hclone]
  simp only [Change.exec, if_pos hnum]
  exact resetShards_empty passes (fun g => Finmap.notMem_empty) _

lemma done_getClientStatus (sc : ShardCtrler) (clientId seqNum : ℕ) :
    (sc.getClientStatus clientId).done clientId seqNum ↔ sc.done clientId seqNum := by
  unfold ShardCtrler.done ShardCtrler.getClientStatus
  rw [mark_touch]

/-- The `Join` has been executed already, or it does not come first and without a group. -/
def Ending (sc : ShardCtrler) (groups : GoMap Gid (List GoString)) (seqNum clientId : ℕ) : Prop :=
  sc.done clientId seqNum ∨ (First sc → groups ≠ ∅)

lemma ends_applyOp {seqNum clientId : ℕ} (h : Ending sc groups seqNum clientId)
    (hpasses : NShards ≤ passes) :
    Ends (sc.applyOp passes ⟨.change (.join groups), seqNum, clientId⟩) := by
  unfold ShardCtrler.applyOp
  dsimp only
  split
  · exact .pure _
  · next hdone =>
    have hne := h.resolve_left fun hd => hdone ((done_getClientStatus sc clientId seqNum).mpr hd)
    have hends : Ends ((sc.getClientStatus clientId).applyChange passes (.join groups)) :=
      ends_applyChange hne hpasses
    exact hends.bind fun _ => .pure _

/-- Otherwise the loop of `ResetShards` goes on, however many passes it makes. -/
lemma applyOp_running {seqNum clientId : ℕ} (h : ¬ Ending sc groups seqNum clientId)
    (passes : ℕ) (orders : ℕ → Order Gid) :
    (sc.applyOp passes ⟨.change (.join groups), seqNum, clientId⟩).outcome orders =
      .error .running := by
  unfold Ending at h
  push Not at h
  obtain ⟨hdone, ⟨e, he, hnum⟩, rfl⟩ := h
  have hlast : (sc.getClientStatus clientId).entries.getLast? = some e := he
  have hrun : ((sc.getClientStatus clientId).applyChange passes (.join ∅)).outcome orders =
      .error .running := by
    rw [applyChange_outcome hlast, nextConfig_first_empty passes orders hnum]
    rfl
  have hdone' : ¬ (sc.getClientStatus clientId).done clientId seqNum := fun hd =>
    hdone ((done_getClientStatus sc clientId seqNum).mp hd)
  unfold ShardCtrler.applyOp
  dsimp only
  rw [if_neg hdone']
  exact Prog.outcome_bind_error hrun

/-- **Which `Join`s the applier ends on**, in whatever state it is and whatever the orders of the
maps: with enough passes on all that are done, or do not come first and without a group, and on no
other. After a log whose commands suited it, it also makes the next state if this one suits it. -/
theorem join_terminates (sc : ShardCtrler) (groups : GoMap Gid (List GoString))
    (seqNum clientId : ℕ) (orders : ℕ → Order Gid) :
    ((∃ passes, (sc.applyOp passes ⟨.change (.join groups), seqNum, clientId⟩).outcome orders ≠
        .error .running) ↔ sc.done clientId seqNum ∨ (First sc → groups ≠ ∅)) ∧
    ∀ passes, NShards ≤ passes → sc.done clientId seqNum ∨ (First sc → groups ≠ ∅) →
      (sc.applyOp passes ⟨.change (.join groups), seqNum, clientId⟩).outcome orders ≠
          .error .running ∧
        ∀ log, Replica log sc → Sane log →
          (∀ c, (configsOf sc).getLast? = some c → Safe c (.join groups)) → ∃ sc',
            (sc.applyOp passes ⟨.change (.join groups), seqNum, clientId⟩).outcome orders =
                .ok sc' ∧
              Replica (log ++ [⟨.change (.join groups), seqNum, clientId⟩]) sc' := by
  refine ⟨⟨fun ⟨passes, hout⟩ => ?_, fun h => ⟨NShards, ends_applyOp h le_rfl orders⟩⟩,
    fun passes hpasses h => ⟨ends_applyOp h hpasses orders, fun log hlog hsane hsafe => ?_⟩⟩
  · by_contra h
    exact hout (applyOp_running h passes orders)
  · refine hlog.ensures_applyOp hsane (fun hfresh ch hop c hlast => ?_) hpasses orders
    obtain rfl : Change.join groups = ch := Command.change.inj hop
    refine ⟨hsafe c hlast, fun hfirst => ?_⟩
    rcases h with hdone | hne
    · have hdone' := (done_getClientStatus sc clientId seqNum).mpr hdone
      exact (done_iff hlog.stored.2 ⟨_, seqNum, clientId⟩).mp hdone' hfresh
    · obtain ⟨e, he, hread⟩ := hlog.stored.1.latest
      obtain rfl := Option.some.inj (hread.symm.trans hlast)
      exact hne ⟨e, he, hfirst.1⟩ hfirst.2

/-- A first `Join` with one group, in reverse order. -/
theorem join_terminates_first :
    (boot.applyOp NShards ⟨.change (.join (Finmap.insert 1 [[0]] ∅)), 1, 1⟩).outcome
      (fun _ => Order.ascending.reverse) ≠ .error .running :=
  ((join_terminates boot (Finmap.insert 1 [[0]] ∅) 1 1 fun _ => Order.ascending.reverse).2 NShards
    le_rfl (Or.inr fun _ => by decide)).1

/-- A first `Join` without a group is never done, however long the applier is let run. -/
theorem join_hangs :
    Replica [] boot ∧ ∀ passes orders,
      (boot.applyOp passes ⟨.change (.join ∅), 1, 1⟩).outcome orders = .error .running := by
  refine ⟨.boot, fun passes orders => applyOp_running ?_ passes orders⟩
  rintro (hdone | hne)
  · exact absurd hdone (by decide)
  · exact hne ⟨_, rfl, rfl⟩ rfl

end Mit6824.CtrlEnds
