import Mit6824.CtrlBalance
import Mit6824.ShardConfigs
import Mit6824.ShardOwners

/-!
The groups of the sharded service under the configurations of the shard controller.

A server that takes its group to a configuration fetches shards from the groups that had them
before, and such a group answers when it has come to the configuration itself. That these waits
end rests on the controller: no command both gives a group shards of other groups and takes
shards from it. That the calls find a server rests on it as well: the owner of a shard is a group
with servers, if every group joins with some.
-/

namespace Mit6824.ShardPlans

open Mit6824.GoData Mit6824.Labgob Mit6824.MapOrder Mit6824.Runs Function
open Mit6824.CtrlConfig Mit6824.CtrlMoves Mit6824.CtrlHistory Mit6824.CtrlBalance
open Mit6824.CtrlServer (Change)
open Mit6824.ShardServer hiding Config
open Mit6824.ShardReplica Mit6824.ShardProtocol Mit6824.ShardOwners Mit6824.ShardConfigs
open Mit6824.ShardSystem (System Proc migrationPlan)
open Mit6824.ShardRefine

/-! ### What a command moves -/

def Gains {G : Type} [Zero G] (old new : Shard → G) (g : G) : Prop :=
  ∃ s, old s ≠ 0 ∧ old s ≠ g ∧ new s = g

def Loses {G : Type} (old new : Shard → G) (g : G) : Prop := ∃ s, old s = g ∧ new s ≠ g

/-- A `Join` gives shards to new groups only, a `Leave` takes shards only from the groups that go,
for one that stays, or for zero if none does, and a `Move` moves its shard. -/
def Moves (c : Config) (shards : Shard → Gid) : Change → Prop
  | .join groups => ∀ s, shards s ≠ c.shards s → shards s ∈ groups ∧ shards s ∉ c.groups
  | .leave gids => ∀ s, shards s ≠ c.shards s → c.shards s ∈ gids ∧ c.shards s ∈ c.groups ∧
      (shards s ∈ c.groups ∧ shards s ∉ gids ∨ shards s = 0 ∧ ∀ g ∈ c.groups, g ∈ gids)
  | .move shard _ => ∀ s : Shard, shards s ≠ c.shards s → ((s : ℕ) : ℤ) = shard

variable {c c' : Config} {ch : Change}

lemma moves_of_made (hv : Valid c) (h : Made c ch c') : Moves c c'.shards ch := by
  cases ch with
  | join groups => exact fun s hne => (h.moves s).resolve_left hne
  | leave gids =>
    intro s hne
    obtain ⟨hin, hmem⟩ := (h.moves s).resolve_left hne
    refine ⟨hin, hmem, ?_⟩
    rcases (h.valid hv).settled s with hmem' | hempty
    · exact Or.inl ((h.mem _).mp hmem')
    · refine Or.inr ⟨(h.valid hv).eq_zero hempty s, fun g hg => ?_⟩
      by_contra hstay
      exact hempty g ((h.mem g).mpr ⟨hg, hstay⟩)
  | move shard gid =>
    obtain ⟨s, hs, rfl⟩ := h
    intro s' hne
    have hne : update c.shards s gid s' ≠ c.shards s' := hne
    by_contra hne'
    have hne' : s' ≠ s := fun heq => hne' (by rw [heq, hs])
    exact hne (update_of_ne hne' gid c.shards)

lemma Moves.one_way (hc : Owned c) (hp : Proper c ch) {shards : Shard → Gid}
    (h : Moves c shards ch) (g : Gid) : ¬ (Gains c.shards shards g ∧ Loses c.shards shards g) := by
  rintro ⟨⟨s, -, hold, rfl⟩, ⟨s', hold', hnew'⟩⟩
  have hs : shards s ≠ c.shards s := fun heq => hold heq.symm
  have hs' : shards s' ≠ c.shards s' := fun heq => hnew' (heq.trans hold')
  cases ch with
  | join groups =>
    obtain ⟨hin, hnot⟩ := h s hs
    rcases hc.owner s' with hmem | h0
    · exact hnot (hold' ▸ hmem)
    · exact hp (h0 ▸ hold' ▸ hin)
  | leave gids =>
    obtain ⟨hin, hmem, -⟩ := h s' hs'
    rw [hold'] at hin hmem
    rcases (h s hs).2.2 with ⟨-, hstay⟩ | ⟨h0, -⟩
    · exact hstay hin
    · exact hc.zero (h0 ▸ hmem)
  | move shard gid =>
    have heq : s = s' := Fin.ext (by exact_mod_cast (h s hs).trans (h s' hs').symm)
    exact hold (heq ▸ hold')

/-! ### Waiting for another group -/

/-- The configuration of the controller as the groups have it, where gids are natural numbers. -/
structure Copy (name : Gid → ℕ) (c : Config) (d : ShardServer.Config) : Prop where
  num : d.num = c.num
  shards : ∀ s, d.shards s = name (c.shards s)
  groups : ∀ g, d.groups.lookup (name g) = c.groups.lookup g

/-- Different gids get different numbers, and zero remains. -/
structure Naming (name : Gid → ℕ) : Prop where
  injective : Injective name
  zero : name 0 = 0

/-- A server of the first group waits for the answer to a `GetShards` that no server of the second
can give: one that has applied the log of that group is still at an earlier configuration. -/
def Waits (x : System) (g o : ℕ) : Prop :=
  ∃ i args, (x.server g i).proc.outstanding g (x.server g i).kv.clientId o =
      some (o, .getShards args) ∧
    ∀ kv, Replica o (x.groups o).log kv → kv.config.num < args.configNum

lemma exists_replica (o : ℕ) (log : List Op) : ∃ kv, Replica o log kv := by
  induction log using List.reverseRecOn with
  | nil => exact ⟨_, .boot (.clerk 0)⟩
  | append_singleton log op ih =>
    obtain ⟨kv, hkv⟩ := ih
    exact ⟨_, hkv.applyOp op trivial⟩

lemma waits_iff {x : System} {g o : ℕ} :
    Waits x g o ↔ ∃ i args, (x.server g i).proc.outstanding g (x.server g i).kv.clientId o =
        some (o, .getShards args) ∧ (world x).num o < args.configNum := by
  have hnum : ∀ kv, Replica o (x.groups o).log kv → kv.config.num = (world x).num o :=
    fun kv hkv => congrArg ShardServer.Config.num hkv.tracks.config
  refine exists_congr fun i => exists_congr fun args => and_congr_right fun _ => ?_
  constructor
  · intro hlt
    obtain ⟨kv, hkv⟩ := exists_replica o (x.groups o).log
    exact hnum kv hkv ▸ hlt kv hkv
  · exact fun hlt kv hkv => hnum kv hkv ▸ hlt

/-- A `GetShards` that is under way is part of a migration. -/
lemma migrating_of_outstanding {proc : Proc} {g o : ℕ} {clientId : ClientId} {args : GetShardsArgs}
    (h : proc.outstanding g clientId o = some (o, .getShards args)) :
    ∃ old new tasks shards, proc = .migrating old new tasks ∧ args.configNum = new.num ∧
      (migrationPlan g old new).lookup o = some shards := by
  cases proc with
  | migrating old new tasks =>
    simp only [Proc.outstanding] at h
    split at h
    · next shards hplan =>
      refine ⟨old, new, tasks, shards, rfl, ?_, hplan⟩
      cases htask : tasks o <;> rw [htask] at h <;> simp [ShardSystem.Task.outstanding] at h
      rw [← h]
    · cases h
  | setting new seq =>
    simp only [Proc.outstanding] at h
    split at h <;> simp at h
  | _ => cases h

lemma lookup_migrationPlan {g o : ℕ} {old new : ShardServer.Config} {shards : List Shard}
    (h : (migrationPlan g old new).lookup o = some shards) :
    (getMigrationFromGroupShardsMap g old new).lookup o = some shards := by
  unfold migrationPlan at h
  split at h
  · exact h
  · rw [Finmap.lookup_empty] at h
    cases h

/-- The configurations move shards in one direction at a time. -/
def OneWay (w : World) : Prop :=
  ∀ n s s' o g h, Passes w n s o g → Passes w n s' g h → False

lemma exists_of_copies {name : Gid → ℕ} {h : List Config} {configs : List ShardServer.Config}
    (hcopy : List.Forall₂ (Copy name) h configs) {n : ℕ} {d : ShardServer.Config}
    (hd : configs[n]? = some d) : ∃ c, h[n]? = some c ∧ Copy name c d := by
  obtain ⟨hlt, rfl⟩ := List.getElem?_eq_some_iff.mp hd
  have hlt' : n < h.length := by rwa [hcopy.length_eq]
  exact ⟨h[n], List.getElem?_eq_getElem hlt', hcopy.get hlt' hlt⟩

lemma assigns_of_copies {name : Gid → ℕ} {h : List Config} {w : World}
    (hcopy : List.Forall₂ (Copy name) h w.configs) {n : ℕ} {s : Shard} {g : ℕ}
    (ha : w.Assigns n s g) : ∃ c, h[n]? = some c ∧ name (c.shards s) = g := by
  obtain ⟨d, hd, rfl⟩ := ha
  obtain ⟨c, hc, hcd⟩ := exists_of_copies hcopy hd
  exact ⟨c, hc, (hcd.shards s).symm⟩

lemma oneWay_of_chain {P : Config → Change → Prop} (hP : ∀ c ch, P c ch → Orderly c ch)
    {h : List Config} (hh : Chain P h) {name : Gid → ℕ} (hname : Naming name) {w : World}
    (hcopy : List.Forall₂ (Copy name) h w.configs) : OneWay w := by
  intro n s s' o g k hin hout
  obtain ⟨c, hc, rfl⟩ := assigns_of_copies hcopy hin.before
  obtain ⟨c', hc', rfl⟩ := assigns_of_copies hcopy hin.after
  obtain ⟨c₁, hc₁, hg⟩ := assigns_of_copies hcopy hout.before
  obtain ⟨c₂, hc₂, rfl⟩ := assigns_of_copies hcopy hout.after
  obtain rfl := Option.some.inj (hc.symm.trans hc₁)
  obtain rfl := Option.some.inj (hc'.symm.trans hc₂)
  obtain ⟨ch, c₀, hch, hmade, rfl⟩ := hh.made n c c' hc hc'
  have hv : Valid c := hh.valid (fun c s g hmove => (hP c _ hmove).2.2) hc
  refine (moves_of_made hv hmade).one_way hv.toOwned (hP c ch hch).proper (c₀.shards s)
    ⟨⟨s, fun h0 => ?_, fun heq => hin.ne (congrArg name heq), rfl⟩, s', hname.injective hg,
      fun heq => hout.ne (congrArg name heq.symm)⟩
  exact hin.from_ne_zero (by rw [h0, hname.zero])

section

variable [Coded (ℕ × (Shard → Data) × ShardServer.Config × GoMap ClientId ℕ)]

/-- A group that waits for another is not behind it, and the shards that it waits for are passed
on to it by the next configuration after the one that it has read. -/
lemma Waits.passes {x : System} (hi : Inv x) {g o : ℕ} (h : Waits x g o) :
    ∃ n s, (world x).num o ≤ n ∧ n ≤ (world x).num g ∧ Passes (world x) n s o g := by
  obtain ⟨i, args, hout, hlt⟩ := waits_iff.mp h
  obtain ⟨old, new, tasks, shards, hproc, hnum, hplan⟩ := migrating_of_outstanding hout
  have hok := (hi.servers g i).proc
  rw [hproc] at hok
  have hplan := lookup_migrationPlan hplan
  obtain ⟨s, hs⟩ := exists_mem_migration hplan
  have hnext := hok.1.next
  have hle := hok.1.num_le
  exact ⟨old.num, s, by omega, by omega, passes_of_plan hi.sound hok.1 hplan hs⟩

/-- **Along waiting groups the number of the configuration does not grow**; where it stays the same,
the first group gains and the last one loses shards to the next configuration. -/
lemma waits_chain {x : System} (hi : Inv x) {g h : ℕ} (ht : Relation.TransGen (Waits x) g h) :
    (world x).num h ≤ (world x).num g ∧ ((world x).num h = (world x).num g →
      (∃ s o, Passes (world x) ((world x).num g) s o g) ∧
        ∃ s k, Passes (world x) ((world x).num g) s h k) := by
  induction ht with
  | single hw =>
    obtain ⟨n, s, hle, hge, hp⟩ := hw.passes hi
    refine ⟨hle.trans hge, fun heq => ?_⟩
    obtain rfl : n = (world x).num g := by omega
    exact ⟨⟨s, _, hp⟩, s, g, hp⟩
  | tail _ hw ih =>
    obtain ⟨n, s, hle, hge, hp⟩ := hw.passes hi
    refine ⟨by omega, fun heq => ?_⟩
    obtain rfl : n = (world x).num g := by omega
    exact ⟨(ih.2 (by omega)).1, s, _, hp⟩

lemma no_cycle {x : System} (hi : Inv x) (hone : OneWay (world x)) (g : ℕ) :
    ¬ Relation.TransGen (Waits x) g g := by
  intro ht
  obtain ⟨⟨s, o, hin⟩, ⟨s', k, hout⟩⟩ := (waits_chain hi ht).2 rfl
  exact hone _ s s' o g k hin hout

/-- **Reconfiguration moves shards in one direction.** If zero does not join and shards are moved to
groups, every command that can end makes a configuration; its owners change only to groups that
join, only away from groups that leave, or only for the shard that is moved, and no group both
gains and loses. So in every run of the service the groups that wait for one another are in no
cycle. -/
theorem moves_one_way (h : List Config)
    (hr : ReachesIf produce (OnLatest Orderly) [initial] h) :
    (∀ ev c, OnLatest Orderly h ev → h.getLast? = some c →
      (NShards ≤ ev.passes → ¬ FirstEmpty c ev.change → ∃ h', produce h ev = some h') ∧
      ∀ h', produce h ev = some h' → ∃ c', h' = h ++ [c'] ∧ Moves c c'.shards ev.change ∧
        ∀ g, ¬ (Gains c.shards c'.shards g ∧ Loses c.shards c'.shards g)) ∧
    ∀ name x, Naming name → Reaches ShardSystem.step System.init x →
      List.Forall₂ (Copy name) h x.configs → ∀ g, ¬ Relation.TransGen (Waits x) g g := by
  have hh := chain_of_reaches (fun _ _ => Orderly.proper) hr
  refine ⟨fun ev c hev hc => ⟨fun hpasses hne => ?_, fun h' hprod => ?_⟩,
    fun name x hname hx hcopy => no_cycle (inv_of_run hx)
      (oneWay_of_chain (fun _ _ => id) hh hname hcopy)⟩
  · obtain ⟨c', -, hprod⟩ := hh.produce hc _ (hev c hc).proper hne hpasses ev.orders
    exact ⟨_, hprod⟩
  · obtain ⟨c', hmade, rfl⟩ := hh.made_of_produce hc (hev c hc).proper hprod
    obtain ⟨n, latest, -, hlast, hget⟩ := hh.latest
    obtain rfl := Option.some.inj (hget.symm.trans hc)
    have hv : Valid latest := hh.valid (fun _ _ _ hmove => hmove.2.2) hlast
    have hm := moves_of_made hv hmade
    exact ⟨_, rfl, hm, hm.one_way hv.toOwned (hev _ hc).proper⟩

end

def groupMap {K : Type} [DecidableEq K] (l : List (K × List GoString)) : GoMap K (List GoString) :=
  l.foldl (fun m p => m.insert p.1 p.2) ∅

/-- The configuration with the groups of the list, under other gids. -/
def copyOf (name : Gid → ℕ) (l : List (Gid × List GoString)) (c : Config) : ShardServer.Config :=
  ⟨c.num, fun s => name (c.shards s), groupMap (l.map (Prod.map name id))⟩

lemma lookup_groupMap_map {name : Gid → ℕ} (hname : Injective name) (l : List (Gid × List GoString))
    (g : Gid) : (groupMap (l.map (Prod.map name id))).lookup (name g) = (groupMap l).lookup g := by
  induction l using List.reverseRecOn with
  | nil => rfl
  | append_singleton l p ih =>
    rw [groupMap, groupMap, List.map_append, List.foldl_append, List.foldl_append]
    show Finmap.lookup (name g) (Finmap.insert (name p.1) p.2 (groupMap _)) =
      Finmap.lookup g (Finmap.insert p.1 p.2 (groupMap l))
    by_cases hg : g = p.1
    · rw [hg, Finmap.lookup_insert, Finmap.lookup_insert]
    · rw [Finmap.lookup_insert_of_ne _ hg,
        Finmap.lookup_insert_of_ne _ fun heq => hg (hname heq), ih]

lemma copies_of_groups {name : Gid → ℕ} (hname : Injective name)
    {ls : List (List (Gid × List GoString))} {h : List Config}
    (hgroups : h.map (·.groups) = ls.map groupMap) :
    List.Forall₂ (Copy name) h (List.zipWith (copyOf name) ls h) := by
  induction h generalizing ls with
  | nil => simp
  | cons c h ih =>
    cases ls with
    | nil => cases hgroups
    | cons l ls =>
      obtain ⟨hc, hrest⟩ : c.groups = groupMap l ∧ h.map (·.groups) = ls.map groupMap :=
        List.cons.inj hgroups
      refine .cons ⟨rfl, fun _ => rfl, fun g => ?_⟩ (ih hrest)
      rw [hc]
      exact lookup_groupMap_map hname l g

/-- Gids as natural numbers: `1` is `2` and `2` is `4`. -/
def name : Gid → ℕ := Equiv.intEquivNat

lemma naming_name : Naming name := ⟨Equiv.intEquivNat.injective, rfl⟩

/-- The groups of the configurations in which group `1` joins with the servers and then group `2`
with one. -/
def joined (servers : List GoString) : List (List (Gid × List GoString)) :=
  [[], [(1, servers)], [(1, servers), (2, [[0]])]]

/-- Group `2` begins to fetch its shards from group `1`, which has not adopted anything. -/
def fetching (configs : List ShardServer.Config) : List ShardSystem.Action := List.flatten
  [configs.tail.map .publish, ShardSystem.changeConfig 4 0,
    [.server 4 0 .poll, .server 4 0 .query, .server 4 0 .begin, .issue 4 0 2]]

def fetched : List Shard := [0, 1, 2, 3, 4]

/-- Whether the run is one, and a server of group `2` waits for group `1`. -/
def fetches (P : Config → Change → Prop) [∀ c ch, Decidable (P c ch)] (servers : List GoString) :
    Option Bool :=
  (runIf produce (OnLatest P) [initial]
    [plain (.join (groupMap [(1, servers)])), plain (.join (groupMap [(2, [[0]])]))]).bind fun h =>
      let configs := List.zipWith (copyOf name) (joined servers) h
      (run ShardSystem.step System.init (fetching configs)).map fun x =>
        decide (h.map (·.groups) = (joined servers).map groupMap ∧ x.configs = configs) &&
          decide ((world x).num 2 < 2 ∧ (x.server 4 0).proc.outstanding 4
            (x.server 4 0).kv.clientId 2 =
              some (2, .getShards ⟨2, fetched, 2, .server 4 0 0⟩)) &&
          match (x.server 4 0).proc with
          | .migrating old new _ => decide (old.groups.lookup 2 = some servers ∧
              (migrationPlan 4 old new).lookup 2 = some fetched)
          | _ => false

lemma exists_of_fetches {P : Config → Change → Prop} [∀ c ch, Decidable (P c ch)]
    {servers : List GoString} (hf : fetches P servers = some true) :
    ∃ h x, ReachesIf produce (OnLatest P) [initial] h ∧
      Reaches ShardSystem.step System.init x ∧ List.Forall₂ (Copy name) h x.configs ∧
      Waits x 4 2 ∧ ∃ old new tasks, (x.server 4 0).proc = .migrating old new tasks ∧
        old.groups.lookup 2 = some servers ∧
        (migrationPlan 4 old new).lookup 2 = some fetched := by
  obtain ⟨h, hh, hx⟩ := Option.bind_eq_some_iff.mp hf
  obtain ⟨x, hx, hd⟩ := Option.map_eq_some_iff.mp hx
  simp only [Bool.and_eq_true, decide_eq_true_eq] at hd
  obtain ⟨⟨⟨hgroups, hconfigs⟩, hwait⟩, hproc⟩ := hd
  refine ⟨h, x, reachesIf_of_runIf hh, reaches_of_run hx, ?_,
    waits_iff.mpr ⟨0, _, hwait.2, hwait.1⟩, ?_⟩
  · rw [hconfigs]
    exact copies_of_groups naming_name.injective hgroups
  · split at hproc
    · next old new tasks heq => exact ⟨old, new, tasks, heq, of_decide_eq_true hproc⟩
    · cases hproc

theorem moves_one_way_fetching :
    ∃ h x, ReachesIf produce (OnLatest Orderly) [initial] h ∧
      Reaches ShardSystem.step System.init x ∧ List.Forall₂ (Copy name) h x.configs ∧
      Waits x 4 2 ∧ ¬ Relation.TransGen (Waits x) 4 4 := by
  obtain ⟨h, x, hh, hx, hcopy, hwait, -⟩ :=
    exists_of_fetches (show fetches Orderly [[0]] = some true by decide +kernel)
  exact ⟨h, x, hh, hx, hcopy, hwait, (moves_one_way h hh).2 name x naming_name hx hcopy 4⟩

/-! ### The servers of another group -/

/-- Zero does not join, a group that joins has a server, and a shard that is there is moved to a
group or to zero. -/
def Equipped (c : Config) : Change → Prop
  | .join groups => 0 ∉ groups ∧ ∀ g ∈ groups.keys, g ∈ c.groups ∨ slice groups g ≠ []
  | .leave _ => True
  | .move shard gid => 0 ≤ shard ∧ shard < NShards ∧ (gid ∈ c.groups ∨ gid = 0)

instance (c : Config) : ∀ ch, Decidable (Equipped c ch)
  | .join groups => inferInstanceAs
      (Decidable (0 ∉ groups ∧ ∀ g ∈ groups.keys, g ∈ c.groups ∨ slice groups g ≠ []))
  | .leave _ => .isTrue trivial
  | .move shard gid =>
    inferInstanceAs (Decidable (0 ≤ shard ∧ shard < NShards ∧ (gid ∈ c.groups ∨ gid = 0)))

lemma Equipped.proper (h : Equipped c ch) : Proper c ch := by
  cases ch with
  | join groups => exact h.1
  | leave gids => trivial
  | move shard gid => exact h

def Manned (c : Config) : Prop := ∀ g ∈ c.groups, slice c.groups g ≠ []

lemma manned_of_chain {h : List Config} (hh : Chain Equipped h) {i : ℕ} (hi : h[i]? = some c) :
    Manned c := by
  refine hh.all (Q := Manned) (fun g hg => absurd hg Finmap.notMem_empty)
    (fun i c c' ch _ hch hc hmade g hg => ?_) hi
  have hg : g ∈ c'.groups := hg
  show slice c'.groups g ≠ []
  cases ch with
  | join groups =>
    rw [hmade.servers, ne_eq, List.append_eq_nil_iff]
    rintro ⟨hold, hnew⟩
    rcases (hmade.mem g).mp hg with hin | hin
    · exact hc g hin hold
    · exact (hch.2 g (Finmap.mem_keys.mpr hin)).elim (fun hin => hc g hin hold) fun hne => hne hnew
  | leave gids =>
    obtain ⟨hin, hnot⟩ := (hmade.mem g).mp hg
    rw [slice, hmade.lookup, if_neg hnot]
    exact hc g hin
  | move shard gid =>
    obtain ⟨s, -, rfl⟩ := hmade
    exact hc g hg

lemma state_groups {w : World} (hw : Sound w) {g : ℕ} {p : List Op} (hp : p <+: w.logs g) :
    ∃ d, w.configs[(state g p).config.num]? = some d ∧ d.groups = (state g p).config.groups := by
  induction p using List.reverseRecOn with
  | nil => exact ⟨_, hw.initial, rfl⟩
  | append_singleton p op ih =>
    have ih := ih ((List.prefix_append p [op]).trans hp)
    rw [state_snoc]
    by_cases hex : (state g p).Executes g op
    · rw [GroupState.apply_of_executes hex]
      cases op with
      | setConfig args =>
        by_cases hlt : (state g p).config.num < args.config.num
        · have hmem : Op.setConfig args ∈ w.logs g :=
            hp.subset (List.mem_append_right p (List.mem_singleton_self _))
          simp only [adopt, if_pos hlt]
          exact ⟨args.config, published_of_set hw hmem, rfl⟩
        · simp only [adopt, if_neg hlt]
          exact ih
      | _ => exact ih
    · rw [GroupState.apply_of_not hex]
      exact ih

/-- The server that `callOtherGroup` tries at an offset; `none` for the division by zero. -/
def callTarget (servers : List GoString) (leaderId off : ℕ) : Option GoString :=
  if servers.length = 0 then none else servers[(leaderId + off) % servers.length]?

lemma exists_callTarget {servers : List GoString} (h : servers ≠ []) (leaderId off : ℕ) :
    ∃ server, callTarget servers leaderId off = some server := by
  have hpos : 0 < servers.length := List.length_pos_of_ne_nil h
  unfold callTarget
  rw [if_neg hpos.ne', List.getElem?_eq_getElem (Nat.mod_lt _ hpos)]
  exact ⟨_, rfl⟩

lemma servers_of_plan {w : World} (hw : Sound w) {h : List Config} (hh : Chain Equipped h)
    {name : Gid → ℕ} (hname : Naming name) (hcopy : List.Forall₂ (Copy name) h w.configs)
    {g o : ℕ} {old new : ShardServer.Config} (hm : w.Moving g old new) {shards : List Shard}
    (hplan : (getMigrationFromGroupShardsMap g old new).lookup o = some shards) :
    ∃ servers, old.groups.lookup o = some servers ∧ servers ≠ [] := by
  obtain ⟨h0, hne, hmem⟩ := lookup_migration hplan
  obtain ⟨s, hs⟩ := exists_mem_migration hplan
  obtain ⟨p, hp, rfl⟩ := hm.read
  obtain ⟨d, hd, hgroups⟩ := state_groups hw hp
  obtain ⟨d', hd', hs'⟩ := (hw.tabled g p hp).assigns ((hmem s).mp hs).2 hne
  obtain rfl := Option.some.inj (hd.symm.trans hd')
  obtain ⟨c, hc, hcd⟩ := exists_of_copies hcopy hd
  rw [hcd.shards] at hs'
  subst hs'
  have hin : c.shards s ∈ c.groups :=
    ((hh.owned _ c hc).owner s).resolve_right fun hz => h0 (by rw [hz, hname.zero])
  obtain ⟨servers, hlook⟩ := Finmap.mem_iff.mp hin
  refine ⟨servers, by rw [← hgroups, hcd.groups, hlook], ?_⟩
  have := manned_of_chain hh hc _ hin
  rwa [slice, hlook] at this

section

variable [Coded (ℕ × (Shard → Data) × ShardServer.Config × GoMap ClientId ℕ)]

/-- **The controller is robust if every command is sensible**: no command panics, every
configuration assigns a shard to a group or to zero, and in every run of the service a server that
migrates finds the servers of each group that it fetches shards from, and tries one of them. -/
theorem controller_robust (h : List Config)
    (hr : ReachesIf produce (OnLatest Equipped) [initial] h) :
    (∀ ev c, OnLatest Equipped h ev → h.getLast? = some c →
      (nextConfig ev.passes ev.change c).outcome ev.orders ≠ .error .panicked ∧
      (NShards ≤ ev.passes → ¬ FirstEmpty c ev.change →
        ∃ c', produce h ev = some (h ++ [c']))) ∧
    (∀ c ∈ h, ∀ s, c.shards s = 0 ∨ c.shards s ∈ c.groups) ∧
    ∀ name x, Naming name → Reaches ShardSystem.step System.init x →
      List.Forall₂ (Copy name) h x.configs → ∀ g i old new tasks,
        (x.server g i).proc = .migrating old new tasks → ∀ o shards,
          (migrationPlan g old new).lookup o = some shards →
            ∃ servers, old.groups.lookup o = some servers ∧
              ∀ leaderId off, ∃ server, callTarget servers leaderId off = some server := by
  have hh := chain_of_reaches (fun _ _ => Equipped.proper) hr
  refine ⟨fun ev c hev hc => ⟨fun hpanic => ?_, fun hpasses hne => ?_⟩, fun c hc s => ?_,
    fun name x hname hx hcopy g i old new tasks hproc o shards hplan => ?_⟩
  · rcases hh.outcome hc (hev c hc).proper ev.passes ev.orders with ⟨c', hout⟩ | ⟨hout, -⟩ <;>
      rw [hpanic] at hout <;> cases hout
  · obtain ⟨c', -, hprod⟩ := hh.produce hc _ (hev c hc).proper hne hpasses ev.orders
    exact ⟨_, hprod⟩
  · obtain ⟨i, hi⟩ := List.mem_iff_getElem?.mp hc
    exact ((hh.owned i c hi).owner s).symm
  · have hi := inv_of_run hx
    have hok := (hi.servers g i).proc
    rw [hproc] at hok
    obtain ⟨servers, hlook, hne⟩ := servers_of_plan hi.sound hh hname hcopy hok.1
      (lookup_migrationPlan hplan)
    exact ⟨servers, hlook, exists_callTarget hne⟩

end

theorem controller_robust_fetching :
    ∃ h x old new tasks, ReachesIf produce (OnLatest Equipped) [initial] h ∧
      Reaches ShardSystem.step System.init x ∧ List.Forall₂ (Copy name) h x.configs ∧
      (x.server 4 0).proc = .migrating old new tasks ∧
      (migrationPlan 4 old new).lookup 2 = some fetched ∧
      ∃ servers, old.groups.lookup 2 = some servers ∧
        ∀ leaderId off, ∃ server, callTarget servers leaderId off = some server := by
  obtain ⟨h, x, hh, hx, hcopy, -, old, new, tasks, hproc, -, hplan⟩ :=
    exists_of_fetches (show fetches Equipped [[0]] = some true by decide +kernel)
  exact ⟨h, x, old, new, tasks, hh, hx, hcopy, hproc, hplan,
    (controller_robust h hh).2.2 name x naming_name hx hcopy 4 0 old new tasks hproc 2 _ hplan⟩

def panics (chs : List Change) (ch : Change) : Bool :=
  match run produce [initial] (chs.map plain) with
  | none => false
  | some h =>
    match h.getLast? with
    | none => false
    | some c =>
      match (nextConfig NShards ch c).outcome fun _ => .ascending with
      | .error .panicked => true
      | _ => false

/-- A shard that is not there is moved; zero joins, and then another group; the only group joins
after all shards have been moved to it; a shard is moved to no group; a group joins without a
server. -/
theorem controller_not_robust :
    panics [] (.move 10 1) = true ∧
    panics [.join (groupsOf [1]), .join (groupsOf [0])] (.join (groupsOf [5])) = true ∧
    panics (.join (groupsOf [1]) :: .leave [1] :: [0, 1, 2, 3, 4, 5, 6, 7, 8, 9].map (.move · 7))
      (.join (groupsOf [7])) = true ∧
    (∃ h, Reaches produce [initial] h ∧ ∃ c ∈ h, c.shards 0 = 7 ∧ 7 ∉ c.groups) ∧
    ∃ h x old new tasks, ReachesIf produce (OnLatest Orderly) [initial] h ∧
      Reaches ShardSystem.step System.init x ∧ List.Forall₂ (Copy name) h x.configs ∧
      (x.server 4 0).proc = .migrating old new tasks ∧
      (migrationPlan 4 old new).lookup 2 = some fetched ∧ old.groups.lookup 2 = some [] ∧
      ∀ leaderId off, callTarget [] leaderId off = none := by
  have hrun : (run produce [initial] [plain (.join (groupsOf [1])), plain (.move 0 7)]).map
      (fun h => decide (∃ c ∈ h, c.shards 0 = 7 ∧ 7 ∉ c.groups)) = some true := by decide +kernel
  obtain ⟨h, hh, hd⟩ := Option.map_eq_some_iff.mp hrun
  obtain ⟨h', x, hh', hx, hcopy, -, old, new, tasks, hproc, hnone, hplan⟩ :=
    exists_of_fetches (show fetches Orderly [] = some true by decide +kernel)
  exact ⟨by decide +kernel, by decide +kernel, by decide +kernel,
    ⟨h, reaches_of_run hh, of_decide_eq_true hd⟩,
    h', x, old, new, tasks, hh', hx, hcopy, hproc, hplan, hnone,
    fun _ _ => rfl⟩

end Mit6824.ShardPlans
