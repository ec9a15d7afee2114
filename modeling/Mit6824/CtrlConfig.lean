import Mit6824.MapOrder
import Mit6824.ShardServer

/-!
The configurations of the shard controller (`shardctrler/common.go`): which group has which shard,
and how `Join`, `Leave` and `Move` change that.

A gid is any integer here: the arguments of the commands come from clerks as they are. Assigning
to a shard that is not there and taking the first shard of a group that has none are panics;
`ResetShards` is given the number of passes that it may make over the groups.
-/

namespace Mit6824.CtrlConfig

open Mit6824.GoData Mit6824.MapOrder Function
open Mit6824.ShardServer (NShards Shard)

abbrev Gid := ℤ

/-- The type of the source. The groups work on copies with natural numbers for gids
(`ShardServer.Config`). -/
structure Config where
  num : ℕ
  shards : Shard → Gid
  groups : GoMap Gid (List GoString)
  deriving DecidableEq

/-- The slice under a key; a key that is not there has the nil slice. -/
def slice {α : Type} (m : GoMap Gid (List α)) (gid : Gid) : List α := (m.lookup gid).getD []

def sortInts (l : List ℤ) : List ℤ := l.insertionSort (· ≤ ·)

def sortedKeys {V : Type} (m : GoMap Gid V) : Prog Gid (List Gid) := do
  let mut gids := []
  for gid in ← range m do
    gids := gids ++ [gid]
  return sortInts gids

def getSortedKeysOfGroups (groups : GoMap Gid (List GoString)) : Prog Gid (List Gid) :=
  sortedKeys groups

abbrev GroupShardsMap := GoMap Gid (List Shard)

def getGidWithCmpNumShards (groupShardsMap : GroupShardsMap) (cmp : ℕ → ℕ → Bool) :
    Prog Gid Gid := do
  if groupShardsMap.keys.card = 0 then
    return 0
  match ← sortedKeys groupShardsMap with
  | [] => throw .panicked
  | gid₀ :: rest =>
    let mut mGid := gid₀
    let mut mShardsCount := (slice groupShardsMap gid₀).length
    for gid in rest do
      let shards := slice groupShardsMap gid
      if cmp shards.length mShardsCount then
        mGid := gid
        mShardsCount := shards.length
    return mGid

def getGidWithMinimumShards (groupShardsMap : GroupShardsMap) : Prog Gid Gid :=
  getGidWithCmpNumShards groupShardsMap fun a b => a < b

def getGidWithMaximumShards (groupShardsMap : GroupShardsMap) : Prog Gid Gid :=
  if 0 ∈ groupShardsMap then return 0
  else getGidWithCmpNumShards groupShardsMap fun a b => a > b

namespace Config

def getGroupShardsMap (config : Config) : Prog Gid GroupShardsMap := do
  let mut groupShardsMap := ∅
  for gid in ← range config.groups do
    groupShardsMap := groupShardsMap.insert gid []
  for shard in List.finRange NShards do
    let gid := config.shards shard
    groupShardsMap := groupShardsMap.insert gid (slice groupShardsMap gid ++ [shard])
  return groupShardsMap

def clone (config : Config) : Prog Gid Config := do
  let mut groups := ∅
  for gid in ← range config.groups do
    groups := groups.insert gid (slice config.groups gid)
  return ⟨config.num, config.shards, groups⟩

def setShard (config : Config) (shard : Shard) (gid : Gid) : Config :=
  { config with shards := update config.shards shard gid }

/-- `config.Shards[shard] = gid`. -/
def moveShard (config : Config) (shard : ℤ) (gid : Gid) : Prog Gid Config :=
  if h : 0 ≤ shard ∧ shard < NShards then
    return config.setShard ⟨shard.toNat, (Int.toNat_lt h.1).mpr h.2⟩ gid
  else throw .panicked

/-- One pass of `ResetShards` over the groups, from a shard on. -/
def resetPass (config : Config) (gids : List Gid) (shard : ℕ) : Prog Gid (Config × ℕ) := do
  let mut config := config
  let mut shard := shard
  for gid in gids do
    config ← config.moveShard shard gid
    shard := shard + 1
    if shard ≥ NShards then
      break
  return (config, shard)

/-- The outer loop of `ResetShards`, with the number of passes it may make. -/
def resetLoop (gids : List Gid) : ℕ → Config → ℕ → Prog Gid Config
  | passes, config, shard =>
    if shard < NShards then
      match passes with
      | 0 => throw .running
      | passes + 1 => do
        let (config, shard) ← config.resetPass gids shard
        resetLoop gids passes config shard
    else return config

def resetShards (passes : ℕ) (config : Config) : Prog Gid Config := do
  let gids ← getSortedKeysOfGroups config.groups
  resetLoop gids passes config 0

/-- The loop of `JoinGroups` that moves shards to a new group. -/
def fillGroup (config : Config) (newGid : Gid) : Prog Gid Config := do
  let mut config := config
  for cnt in List.range NShards do
    let groupShardsMap := (← config.getGroupShardsMap).erase newGid
    let maxGid ← getGidWithMaximumShards groupShardsMap
    let maxGroupShards := slice groupShardsMap maxGid
    if cnt ≥ maxGroupShards.length ∧ maxGid ≠ 0 then
      break
    match maxGroupShards with
    | [] => throw .panicked
    | shard :: _ => config := config.setShard shard newGid
  return config

def joinGroups (config : Config) (groups : GoMap Gid (List GoString)) : Prog Gid Config := do
  let mut config := config
  for newGid in ← getSortedKeysOfGroups groups do
    let newServers := slice groups newGid
    if newGid ∉ config.groups then
      config ← config.fillGroup newGid
    config := { config with
      groups := config.groups.insert newGid (slice config.groups newGid ++ newServers) }
  return config

/-- The loop of `RemoveGroups` that moves the shards of a group that is no longer there. -/
def emptyGroup (config : Config) (gid : Gid) (removeShards : List Shard) : Prog Gid Config := do
  let mut config := config
  for rmShard in removeShards do
    let groupShardsMap := (← config.getGroupShardsMap).erase gid
    let minGid ← getGidWithMinimumShards groupShardsMap
    config := config.setShard rmShard minGid
  return config

def removeGroups (config : Config) (gids : List Gid) : Prog Gid Config := do
  let mut config := config
  for gid in gids do
    if gid ∈ config.groups then
      let removeShards := slice (← config.getGroupShardsMap) gid
      config := { config with groups := config.groups.erase gid }
      config ← config.emptyGroup gid removeShards
  return config

end Config

end Mit6824.CtrlConfig
