import Mit6824.ShardPlans

/-!
The plan of a migration (`getMigrationFromGroupShardsMap` in `shardkv/server.go`), with the
configurations as the controller has them.

The shards of the group are looked up in the table of each configuration. Those that are new are
put under their old owners one after the other. So the lists of the plan are what the loop has
visited, filtered by owner: nothing is lost, nothing comes twice, and a list is made only when a
shard comes into it.
-/

namespace Mit6824.ShardMigration

open Mit6824.GoData Mit6824.MapOrder Mit6824.CtrlConfig Mit6824.CtrlTable Mit6824.ShardPlans
open Mit6824.ShardServer (NShards Shard)

def contains : List Shard → Shard → Bool
  | [], _ => false
  | v :: arr, o => if v = o then true else contains arr o

/-- The function as the source has it, loop by loop; an assertion that fails is a panic. `kvGid` is
the gid of the server. The groups of `ShardSystem` use the result in closed form
(`ShardServer.getMigrationFromGroupShardsMap`). -/
def getMigrationFromGroupShardsMap (kvGid : Gid) (oldConfig newConfig : Config) :
    Prog Gid GroupShardsMap := do
  let oldShards := slice (← oldConfig.getGroupShardsMap) kvGid
  let newShards := slice (← newConfig.getGroupShardsMap) kvGid
  let mut migrationShards := []
  for newSd in newShards do
    if !contains oldShards newSd then
      migrationShards := migrationShards ++ [newSd]
  let mut migrationFromGroupShardsMap := ∅
  for shard in migrationShards do
    let gid := oldConfig.shards shard
    if gid = kvGid then
      throw .panicked
    if gid ≠ 0 then
      migrationFromGroupShardsMap := migrationFromGroupShardsMap.insert gid
        (slice migrationFromGroupShardsMap gid ++ [shard])
  return migrationFromGroupShardsMap

lemma contains_eq (arr : List Shard) (o : Shard) : contains arr o = decide (o ∈ arr) := by
  induction arr with
  | nil => simp [contains]
  | cons v arr ih =>
    rw [contains]
    split
    · next heq => simp [heq]
    · next hne => simp [ih, Ne.symm hne]

variable {oldConfig newConfig : Config} {kvGid : Gid}

def arriving (kvGid : Gid) (oldConfig newConfig : Config) : List Shard :=
  (shardsOf newConfig kvGid).filter fun s => s ∉ shardsOf oldConfig kvGid

lemma mem_arriving {s : Shard} :
    s ∈ arriving kvGid oldConfig newConfig ↔
      newConfig.shards s = kvGid ∧ oldConfig.shards s ≠ kvGid := by
  simp [arriving]

def hadBy (oldConfig : Config) (l : List Shard) (g : Gid) : List Shard :=
  l.filter fun s => oldConfig.shards s = g ∧ g ≠ 0

lemma hadBy_snoc (l : List Shard) (s : Shard) (g : Gid) :
    hadBy oldConfig (l ++ [s]) g =
      hadBy oldConfig l g ++ if oldConfig.shards s = g ∧ g ≠ 0 then [s] else [] := by
  unfold hadBy
  rw [List.filter_append, List.filter_singleton]
  simp

/-- The shards of a list, under their owners. -/
structure Grouped (oldConfig : Config) (l : List Shard) (m : GroupShardsMap) : Prop where
  slice : ∀ g, slice m g = hadBy oldConfig l g
  ne_nil : ∀ g ∈ m, hadBy oldConfig l g ≠ []

lemma grouped_nil : Grouped oldConfig [] ∅ where
  slice := fun _ => rfl
  ne_nil := fun _ hg => absurd hg Finmap.notMem_empty

lemma Grouped.zero {l : List Shard} {m : GroupShardsMap} (h : Grouped oldConfig l m) {s : Shard}
    (hs : oldConfig.shards s = 0) : Grouped oldConfig (l ++ [s]) m := by
  have hsame : ∀ g, hadBy oldConfig (l ++ [s]) g = hadBy oldConfig l g := by
    intro g
    rw [hadBy_snoc, if_neg, List.append_nil]
    rintro ⟨rfl, h0⟩
    exact h0 hs
  exact ⟨fun g => (h.slice g).trans (hsame g).symm, fun g hg => hsame g ▸ h.ne_nil g hg⟩

lemma Grouped.insert {l : List Shard} {m : GroupShardsMap} (h : Grouped oldConfig l m) {s : Shard}
    (hs : oldConfig.shards s ≠ 0) :
    Grouped oldConfig (l ++ [s]) (m.insert (oldConfig.shards s)
      (CtrlConfig.slice m (oldConfig.shards s) ++ [s])) := by
  refine ⟨fun g => ?_, fun g hg => ?_⟩
  · rw [slice_insert, hadBy_snoc]
    split
    · next heq =>
      subst heq
      rw [if_pos ⟨rfl, hs⟩, h.slice]
    · next hne => rw [if_neg fun hs' => hne hs'.1.symm, List.append_nil, h.slice]
  · rw [hadBy_snoc]
    rcases Finmap.mem_insert.mp hg with rfl | hg
    · simp [hs]
    · exact List.append_ne_nil_of_left_ne_nil (h.ne_nil g hg) _

lemma Grouped.lookup {l : List Shard} {m : GroupShardsMap} (h : Grouped oldConfig l m) (g : Gid) :
    m.lookup g = if hadBy oldConfig l g = [] then none else some (hadBy oldConfig l g) := by
  have hslice := h.slice g
  unfold CtrlConfig.slice at hslice
  cases hm : m.lookup g with
  | none =>
    rw [hm] at hslice
    rw [← hslice]
    rfl
  | some shards =>
    rw [hm] at hslice
    have hne := h.ne_nil g (Finmap.mem_of_lookup_eq_some hm)
    rw [if_neg hne, ← hslice]
    rfl

/-- **The loops of the plan** visit the new shards, and the assertion holds in each round. -/
lemma ensures_getMigrationFromGroupShardsMap (kvGid : Gid) (oldConfig newConfig : Config) :
    Ensures (getMigrationFromGroupShardsMap kvGid oldConfig newConfig)
      (Grouped oldConfig (arriving kvGid oldConfig newConfig)) := by
  refine ensures_getGroupShardsMap.bind fun old hold => ?_
  refine ensures_getGroupShardsMap.bind fun new hnew => ?_
  rw [hold.slice, hnew.slice]
  refine Ensures.bind (P := fun l => l = arriving kvGid oldConfig newConfig) ?_ fun l hl => ?_
  · refine Ensures.forIn (I := fun p l => l = p.filter fun s => s ∉ shardsOf oldConfig kvGid) rfl
      (fun p s q l _ hl => ?_) fun l hl => hl
    subst hl
    dsimp only
    rw [contains_eq, List.filter_append, List.filter_singleton]
    by_cases hs : s ∈ shardsOf oldConfig kvGid
    · rw [if_neg (by simpa using hs)]
      exact .pure (by simp [hs])
    · rw [if_pos (by simpa using hs)]
      exact .pure (by simp [hs])
  · subst hl
    refine Ensures.bind ?_ fun m hm => .pure hm
    refine Ensures.forIn (I := Grouped oldConfig) grouped_nil (fun p s q m hl hm => ?_)
      fun m hm => hm
    have hs : s ∈ arriving kvGid oldConfig newConfig := by rw [hl]; simp
    have hne := (mem_arriving.mp hs).2
    dsimp only
    rw [if_neg hne]
    split
    · next h0 => exact .pure (hm.insert h0)
    · next h0 => exact .pure (hm.zero (not_not.mp h0))

lemma mem_hadBy_arriving {s : Shard} {g : Gid} :
    s ∈ hadBy oldConfig (arriving kvGid oldConfig newConfig) g ↔
      newConfig.shards s = kvGid ∧ oldConfig.shards s = g ∧ g ≠ kvGid ∧ g ≠ 0 := by
  simp only [hadBy, List.mem_filter, mem_arriving, decide_eq_true_eq]
  constructor
  · rintro ⟨⟨hnew, hne⟩, hold, h0⟩
    exact ⟨hnew, hold, hold ▸ hne, h0⟩
  · rintro ⟨hnew, hold, hne, h0⟩
    exact ⟨⟨hnew, hold ▸ hne⟩, hold, h0⟩

lemma nodup_hadBy_arriving (g : Gid) :
    (hadBy oldConfig (arriving kvGid oldConfig newConfig) g).Nodup :=
  (((List.nodup_finRange NShards).filter _).filter _).filter _

/-- **The plan is exact.** It is always made, so the assertion never fails. Under a gid it has a
list if and only if a shard comes from there, and the list has each of these shards once. -/
theorem migration_exact (kvGid : Gid) (oldConfig newConfig : Config) (orders : ℕ → Order Gid) :
    ∃ m, (getMigrationFromGroupShardsMap kvGid oldConfig newConfig).outcome orders = .ok m ∧
      (∀ g s, (∃ shards, m.lookup g = some shards ∧ s ∈ shards) ↔
        newConfig.shards s = kvGid ∧ oldConfig.shards s = g ∧ g ≠ kvGid ∧ g ≠ 0) ∧
      (∀ g shards, m.lookup g = some shards → shards ≠ [] ∧ shards.Nodup) ∧
      ∀ g g' shards shards' s, m.lookup g = some shards → m.lookup g' = some shards' →
        s ∈ shards → s ∈ shards' → g = g' := by
  obtain ⟨m, hout, hm⟩ :=
    ensures_getMigrationFromGroupShardsMap kvGid oldConfig newConfig orders
  have hlists : ∀ g shards, m.lookup g = some shards →
      shards = hadBy oldConfig (arriving kvGid oldConfig newConfig) g ∧ shards ≠ [] := by
    intro g shards hg
    rw [hm.lookup] at hg
    split at hg
    · cases hg
    · next hne =>
      obtain rfl := Option.some.inj hg
      exact ⟨rfl, hne⟩
  refine ⟨m, hout, fun g s => ⟨?_, fun hs => ?_⟩, fun g shards hg => ?_,
    fun g g' shards shards' s hg hg' hs hs' => ?_⟩
  · rintro ⟨shards, hg, hs⟩
    exact mem_hadBy_arriving.mp ((hlists g shards hg).1 ▸ hs)
  · have hmem := mem_hadBy_arriving.mpr hs
    refine ⟨_, ?_, hmem⟩
    rw [hm.lookup, if_neg (List.ne_nil_of_mem hmem)]
  · obtain ⟨rfl, hne⟩ := hlists g shards hg
    exact ⟨hne, nodup_hadBy_arriving g⟩
  · obtain ⟨rfl, -⟩ := hlists g shards hg
    obtain ⟨rfl, -⟩ := hlists g' shards' hg'
    exact (mem_hadBy_arriving.mp hs).2.1.symm.trans (mem_hadBy_arriving.mp hs').2.1

/-- The plan with the configurations as the groups have them is the same plan. -/
theorem migration_copy {name : Gid → ℕ} (hname : Naming name) {old new : ShardServer.Config}
    (hold : Copy name oldConfig old) (hnew : Copy name newConfig new) {orders : ℕ → Order Gid}
    {m : GroupShardsMap}
    (hout : (getMigrationFromGroupShardsMap kvGid oldConfig newConfig).outcome orders = .ok m)
    (g : Gid) :
    (ShardServer.getMigrationFromGroupShardsMap (name kvGid) old new).lookup (name g) =
      m.lookup g := by
  obtain ⟨m', hout', hm⟩ :=
    ensures_getMigrationFromGroupShardsMap kvGid oldConfig newConfig orders
  obtain rfl := Except.ok.inj (hout'.symm.trans hout)
  have hshards : ∀ {c : Config} {d : ShardServer.Config}, Copy name c d →
      d.groupShards (name kvGid) = shardsOf c kvGid := by
    intro c d hc
    refine List.filter_congr fun s _ => ?_
    rw [hc.shards, decide_eq_decide, hname.injective.eq_iff]
  have hlist : (((new.groupShards (name kvGid)).filter
      fun s => s ∉ old.groupShards (name kvGid)).filter
        fun s => old.shards s = name g ∧ name g ≠ 0) =
      hadBy oldConfig (arriving kvGid oldConfig newConfig) g := by
    rw [hshards hold, hshards hnew]
    refine List.filter_congr fun s _ => ?_
    have hzero : name g = 0 ↔ g = 0 := by rw [← hname.zero, hname.injective.eq_iff]
    rw [hold.shards, decide_eq_decide, hname.injective.eq_iff, Ne, hzero]
  unfold ShardServer.getMigrationFromGroupShardsMap
  rw [ShardServer.lookup_foldl_migration, hlist, hm.lookup]
  rfl

end Mit6824.ShardMigration
