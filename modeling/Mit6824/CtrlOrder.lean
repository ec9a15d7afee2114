import Mit6824.CtrlHistory

/-!
The order in which the controller visits its maps does not show.

All choices are made after the keys are sorted, and what is collected from a map is a map again.
So every function of the controller ends alike in all orders, on every configuration, also where
it panics or hangs.
-/

namespace Mit6824.CtrlOrder

open Mit6824.GoData Mit6824.MapOrder Mit6824.CtrlConfig Mit6824.CtrlServer Mit6824.CtrlTable
open Mit6824.CtrlHistory
open Mit6824.ShardServer (NShards Shard)

/-! ### Configurations -/

lemma det_clone (c : Config) : Det c.clone :=
  .of_ensures (ensures_clone c) fun _ _ h h' => h.trans h'.symm

lemma det_fillGroup (c : Config) (newGid : Gid) : Det (c.fillGroup newGid) := by
  refine Det.bind (.forIn fun cnt c => ?_) fun c => .pure c
  refine det_getGroupShardsMap.bind fun m => det_getGidWithMaximumShards.bind fun maxGid => ?_
  dsimp only
  split
  · exact .pure _
  · split
    · exact (Det.throw _).bind fun _ => .pure _
    · exact .pure _

lemma det_joinGroups (c : Config) (groups : GoMap Gid (List GoString)) :
    Det (c.joinGroups groups) := by
  refine (det_sortedKeys groups).bind fun l => Det.bind (.forIn fun newGid c => ?_) fun c => .pure c
  dsimp only
  split
  · exact (det_fillGroup c newGid).bind fun c => .pure _
  · exact .pure _

lemma det_emptyGroup (c : Config) (gid : Gid) (removeShards : List Shard) :
    Det (c.emptyGroup gid removeShards) := by
  refine Det.bind (.forIn fun rmShard c => ?_) fun c => .pure c
  refine det_getGroupShardsMap.bind fun m => ?_
  exact (det_getGidWithCmpNumShards _).bind fun minGid => .pure _

lemma det_removeGroups (c : Config) (gids : List Gid) : Det (c.removeGroups gids) := by
  refine Det.bind (.forIn fun gid c => ?_) fun c => .pure c
  dsimp only
  split
  · refine det_getGroupShardsMap.bind fun m => ?_
    exact (det_emptyGroup _ gid _).bind fun c => .pure _
  · exact .pure _

/-! ### The controller -/

lemma extends_exec {n n' : ℕ} (hn : n ≤ n') (c : Config) (ch : Change) :
    Extends (ch.exec n c) (ch.exec n' c) := by
  cases ch with
  | join groups =>
    simp only [Change.exec]
    split
    · exact extends_resetShards hn _
    · exact .of_det (det_joinGroups c groups)
  | leave gids => exact .of_det (det_removeGroups c gids)
  | move shard gid => exact .of_det (det_moveShard c shard gid)

lemma extends_nextConfig {n n' : ℕ} (hn : n ≤ n') (c : Config) (ch : Change) :
    Extends (nextConfig n ch c) (nextConfig n' ch c) :=
  (Extends.of_det (det_clone c)).bind fun c => extends_exec hn c ch

/-- Two executions that come to their end, in whatever passes and orders, make the same. -/
lemma nextConfig_unique {n n' : ℕ} {c c₁ c₂ : Config} {ch : Change}
    {orders orders' : ℕ → Order Gid} (h₁ : (nextConfig n ch c).outcome orders = .ok c₁)
    (h₂ : (nextConfig n' ch c).outcome orders' = .ok c₂) : c₁ = c₂ := by
  have h₁' := extends_nextConfig (Nat.le_max_left n n') c ch orders orders (by rw [h₁]; simp)
  have h₂' := extends_nextConfig (Nat.le_max_right n n') c ch orders' orders (by rw [h₂]; simp)
  exact Except.ok.inj (h₁.symm.trans (h₁'.symm.trans (h₂'.trans h₂)))

lemma det_getLatestConfig (sc : ShardCtrler) : Det sc.getLatestConfig := by
  unfold ShardCtrler.getLatestConfig
  split
  · exact .pure _
  · exact .throw _

lemma extends_applyChange {n n' : ℕ} (hn : n ≤ n') (sc : ShardCtrler) (ch : Change) :
    Extends (sc.applyChange n ch) (sc.applyChange n' ch) := by
  refine (Extends.of_det (det_getLatestConfig sc)).bind fun e => ?_
  refine (Extends.of_det (det_clone _)).bind fun c => ?_
  cases ch with
  | join groups =>
    dsimp only
    split
    · exact (extends_resetShards hn _).bind fun c => .of_det (.pure _)
    · exact .of_det ((det_joinGroups c groups).bind fun c => .pure _)
  | leave gids => exact .of_det ((det_removeGroups c gids).bind fun c => .pure _)
  | move shard gid => exact .of_det ((det_moveShard c shard gid).bind fun c => .pure _)

lemma extends_applyOp {n n' : ℕ} (hn : n ≤ n') (sc : ShardCtrler) (op : Op) :
    Extends (sc.applyOp n op) (sc.applyOp n' op) := by
  unfold ShardCtrler.applyOp
  dsimp only
  split
  · exact .of_det (.pure _)
  · refine Extends.bind ?_ fun sc => .of_det (.pure _)
    unfold ShardCtrler.execute
    split
    · exact extends_applyChange hn _ _
    · exact .of_det (.pure _)

lemma extends_applyAll {n n' : ℕ} (hn : n ≤ n') (sc : ShardCtrler) (log : List Op) :
    Extends (sc.applyAll n log) (sc.applyAll n' log) :=
  Extends.bind (.forIn fun op sc => (extends_applyOp hn sc op).bind fun _ => .of_det (.pure _))
    fun sc => .of_det (.pure sc)

end Mit6824.CtrlOrder
