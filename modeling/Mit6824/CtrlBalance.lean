import Mit6824.CtrlHistory

/-!
How evenly the controller spreads the shards, and how many it moves.

`Join` takes from a group with the most shards until the new group has as many, `Leave` gives to
a group with the least. So both keep the groups balanced. What `Move` has done they even out if it
is not too much: no group may be short of what it is to have in the end, or have more already. The
group that joins last ends up with one shard more than the others if there is a remainder, so more
shards than necessary move, unless the old groups have one more too.
-/

namespace Mit6824.CtrlBalance

open Mit6824.GoData Mit6824.MapOrder Mit6824.CtrlConfig Mit6824.CtrlServer Mit6824.CtrlTable
open Mit6824.CtrlMoves Mit6824.CtrlHistory Mit6824.Balance Mit6824.Leveling Mit6824.Runs Function
open Mit6824.ShardServer (NShards Shard)

/-! ### Joining and leaving -/

/-- `Join` of groups other than zero, at least one if it is the first command, and `Leave`. -/
def JoinsLeaves (c : Config) : Change → Prop
  | .join groups => 0 ∉ groups ∧ (c.num = 0 → groups ≠ ∅)
  | .leave _ => True
  | .move _ _ => False

instance (c : Config) : ∀ ch, Decidable (JoinsLeaves c ch)
  | .join groups => inferInstanceAs (Decidable (0 ∉ groups ∧ (c.num = 0 → groups ≠ ∅)))
  | .leave _ => .isTrue trivial
  | .move _ _ => .isFalse id

lemma JoinsLeaves.proper {c : Config} {ch : Change} (h : JoinsLeaves c ch) : Proper c ch := by
  cases ch with
  | join groups => exact h.1
  | leave gids => trivial
  | move shard gid => exact h.elim

lemma JoinsLeaves.not_firstEmpty {c : Config} {ch : Change} (h : JoinsLeaves c ch) :
    ¬ FirstEmpty c ch := by
  cases ch with
  | join groups => exact fun hf => h.2 hf.1 hf.2
  | leave gids => exact id
  | move shard gid => exact id

/-- The groups after a `Join`. -/
abbrev joinedKeys (c : Config) (groups : GoMap Gid (List GoString)) : Finset Gid :=
  c.groups.keys ∪ groups.keys

/-- The groups after a `Leave`. -/
abbrev remainingKeys (c : Config) (gids : List Gid) : Finset Gid :=
  c.groups.keys.filter (· ∉ gids)

/-- With so many groups, `quotient` shards for each and `remainder` shards are left. -/
def quotient (keys : Finset Gid) : ℕ := NShards / keys.card

def remainder (keys : Finset Gid) : ℕ := NShards % keys.card

lemma card_eq (keys : Finset Gid) :
    Fintype.card Shard = keys.card * quotient keys + remainder keys := by
  rw [card_shard]
  exact (Nat.div_add_mod _ _).symm

lemma remainder_lt {keys : Finset Gid} {g : Gid} (hg : g ∈ keys) : remainder keys < keys.card :=
  Nat.mod_lt _ (Finset.card_pos.mpr ⟨g, hg⟩)

section

variable {c c' : Config} {groups : GoMap Gid (List GoString)} {gids : List Gid}

lemma keys_of_joined (h : Joined c groups c') : c'.groups.keys = joinedKeys c groups := by
  ext g
  rw [Finmap.mem_keys, h.mem, Finset.mem_union, Finmap.mem_keys, Finmap.mem_keys]

lemma keys_of_leaving (h : Leaving c gids c') : c'.groups.keys = remainingKeys c gids := by
  ext g
  rw [Finmap.mem_keys, h.mem, Finset.mem_filter, Finmap.mem_keys]

lemma mem_keys_of_valid (hv : Valid c) {g : Gid} (hg : g ∈ c.groups.keys) (s : Shard) :
    c.shards s ∈ c.groups.keys :=
  Finmap.mem_keys.mpr (hv.mem (Finmap.mem_keys.mp hg) s)

lemma toFinset_of_new {l : List Gid} (hl : ∀ g, g ∈ l ↔ g ∈ groups ∧ g ∉ c.groups) :
    l.toFinset = groups.keys \ c.groups.keys := by
  ext g
  rw [List.mem_toFinset, hl, Finset.mem_sdiff, Finmap.mem_keys, Finmap.mem_keys]

lemma union_new {l : List Gid} (hl : ∀ g, g ∈ l ↔ g ∈ groups ∧ g ∉ c.groups) :
    c.groups.keys ∪ l.toFinset = joinedKeys c groups := by
  rw [toFinset_of_new hl, Finset.union_sdiff_self_eq_union]

lemma evenly_of_joined (h : Joined c groups c') (hv : Valid c) (he : Evenly c) : Evenly c' := by
  rcases h.spread hv with ⟨l, hl, hgrow⟩ | ⟨-, heven⟩
  · have hb := hgrow.balanced (fun ⟨_, hg⟩ => mem_keys_of_valid hv hg) he
    rw [union_new hl, ← keys_of_joined h] at hb
    exact hb
  · exact heven

/-- Groups that were balanced stay so when others give them their shards. -/
lemma evenly_of_leaving (h : Leaving c gids c') (hv : Valid c)
    (hb : Balanced c.shards (remainingKeys c gids)) : Evenly c' := by
  intro g hg
  have hin := mem_keys_of_valid (h.valid hv) hg
  refine (balanced_iff_of_give (h.gives _ (Finset.Subset.refl _)) hin (card_eq _)
    (remainder_lt hg)).mpr ?_ g hg
  rw [keys_of_leaving h] at hg ⊢
  exact hb.roof (card_eq _) (remainder_lt hg)

end

lemma evenly_of_chain {h : List Config} (hh : Chain JoinsLeaves h) {c : Config} {i : ℕ}
    (hi : h[i]? = some c) : Evenly c := by
  refine (hh.all (Q := fun c => Valid c ∧ Evenly c) ⟨valid_initial, fun g hg => ?_⟩
    (fun i c c' ch hi hch hc hmade => ?_) hi).2
  · exact absurd (Finmap.mem_keys.mp hg) Finmap.notMem_empty
  · suffices hv : Valid c' ∧ Evenly c' from ⟨⟨⟨hv.1.zero, hv.1.owner⟩, hv.1.settled⟩, hv.2⟩
    cases ch with
    | join groups => exact ⟨hmade.valid hc.1, evenly_of_joined hmade hc.1 hc.2⟩
    | leave gids =>
      exact ⟨hmade.valid hc.1,
        evenly_of_leaving hmade hc.1 (hc.2.subset (Finset.filter_subset _ _))⟩
    | move shard gid => exact hch.elim

/-- **The assignment is valid and balanced** after any sequence of `Join` and `Leave`; and every
further command makes a configuration, whatever the orders of the maps. -/
theorem assignment_balanced (h : List Config)
    (hr : ReachesIf produce (OnLatest JoinsLeaves) [initial] h) :
    (∀ c ∈ h, (c.groups ≠ ∅ → ∀ s, c.shards s ∈ c.groups) ∧
      (c.groups = ∅ → ∀ s, c.shards s = 0) ∧
      ∀ g ∈ c.groups, ∀ g' ∈ c.groups, load c.shards g ≤ load c.shards g' + 1) ∧
    ∀ ev, OnLatest JoinsLeaves h ev → NShards ≤ ev.passes →
      ∃ c, produce h ev = some (h ++ [c]) := by
  have hh := chain_of_reaches (fun _ _ => JoinsLeaves.proper) hr
  refine ⟨fun c hc => ?_, fun ev hev hpasses => ?_⟩
  · obtain ⟨i, hi⟩ := List.mem_iff_getElem?.mp hc
    have hv : Valid c := hh.valid (fun _ _ _ hmove => hmove.elim) hi
    refine ⟨fun hne s => ?_, fun hempty s => hv.eq_zero (eq_empty_iff.mp hempty) s,
      fun g hg g' hg' => evenly_of_chain hh hi g (Finmap.mem_keys.mpr hg) g'
        (Finmap.mem_keys.mpr hg')⟩
    exact (hv.settled s).resolve_right fun hempty => hne (eq_empty_iff.mpr hempty)
  · obtain ⟨n, latest, -, -, hget⟩ := hh.latest
    have hch := hev latest hget
    obtain ⟨c, -, hprod⟩ := hh.produce hget _ hch.proper hch.not_firstEmpty hpasses ev.orders
    exact ⟨_, hprod⟩

def groupsOf (gids : List Gid) : GoMap Gid (List GoString) :=
  gids.foldl (fun m gid => m.insert gid [[0]]) ∅

/-- A command with enough passes, maps in ascending order. -/
def plain (ch : Change) : Event := ⟨ch, NShards, fun _ => .ascending⟩

theorem assignment_balanced_rejoined :
    ∃ h, ReachesIf produce (OnLatest JoinsLeaves) [initial] h ∧ h.length = 5 ∧
      (∀ c ∈ h, ∀ g ∈ c.groups, ∀ g' ∈ c.groups, load c.shards g ≤ load c.shards g' + 1) ∧
      ∃ c, produce h (plain (.leave [4])) = some (h ++ [c]) := by
  have hrun : (runIf produce (OnLatest JoinsLeaves) [initial]
      [plain (.join (groupsOf [2, 1])), plain (.join (groupsOf [3])), plain (.leave [1, 2, 3, 1]),
        plain (.join (groupsOf [4, 5, 6]))]).map (·.length) = some 5 := by decide +kernel
  obtain ⟨h, hx, hlen⟩ := Option.map_eq_some_iff.mp hrun
  have hr := reachesIf_of_runIf hx
  have hall := assignment_balanced h hr
  exact ⟨h, hr, hlen, fun c hc => (hall.1 c hc).2.2, hall.2 _ (fun _ _ => trivial) le_rfl⟩

/-! ### After `Move` -/

/-- Zero does not join, and shards that are there are moved to groups. -/
def Orderly (c : Config) : Change → Prop
  | .join groups => 0 ∉ groups
  | .leave _ => True
  | .move shard gid => 0 ≤ shard ∧ shard < NShards ∧ gid ∈ c.groups

instance (c : Config) : ∀ ch, Decidable (Orderly c ch)
  | .join groups => inferInstanceAs (Decidable (0 ∉ groups))
  | .leave _ => .isTrue trivial
  | .move shard gid =>
    inferInstanceAs (Decidable (0 ≤ shard ∧ shard < NShards ∧ gid ∈ c.groups))

lemma Orderly.proper {c : Config} {ch : Change} (h : Orderly c ch) : Proper c ch := by
  cases ch with
  | join groups => exact h
  | leave gids => trivial
  | move shard gid => exact ⟨h.1, h.2.1, Or.inl h.2.2⟩

/-- A `Join` can even the groups out: every group has at least the quotient, and those that have
more are enough for the remainder, together with the groups that are new. -/
def JoinEvens (c : Config) (groups : GoMap Gid (List GoString)) : Prop :=
  (∀ g ∈ c.groups.keys, quotient (joinedKeys c groups) ≤ load c.shards g) ∧
    remainder (joinedKeys c groups) ≤
      (c.groups.keys.filter fun g => quotient (joinedKeys c groups) < load c.shards g).card +
        (groups.keys \ c.groups.keys).card

/-- A `Leave` can: no group that remains has more than one above the quotient, and those that have
one are not more than the remainder. -/
def LeaveEvens (c : Config) (gids : List Gid) : Prop :=
  (∀ g ∈ remainingKeys c gids, load c.shards g ≤ quotient (remainingKeys c gids) + 1) ∧
    ((remainingKeys c gids).filter fun g =>
      quotient (remainingKeys c gids) < load c.shards g).card ≤ remainder (remainingKeys c gids)

instance (c : Config) (groups : GoMap Gid (List GoString)) : Decidable (JoinEvens c groups) :=
  inferInstanceAs (Decidable (_ ∧ _))

instance (c : Config) (gids : List Gid) : Decidable (LeaveEvens c gids) :=
  inferInstanceAs (Decidable (_ ∧ _))

section

variable {c c' : Config} {groups : GoMap Gid (List GoString)} {gids : List Gid}

lemma evenly_iff_of_joined (h : Joined c groups c') (hv : Valid c)
    (hnew : ∃ g ∈ groups, g ∉ c.groups) : Evenly c' ↔ JoinEvens c groups := by
  obtain ⟨g, hg, hgc⟩ := hnew
  have hmem : g ∈ joinedKeys c groups := Finset.mem_union_right _ (Finmap.mem_keys.mpr hg)
  have hkeys := keys_of_joined h
  have hcard : (joinedKeys c groups).card =
      c.groups.keys.card + (groups.keys \ c.groups.keys).card := by
    rw [joinedKeys, ← Finset.union_sdiff_self_eq_union,
      Finset.card_union_of_disjoint Finset.disjoint_sdiff]
  rcases h.spread hv with ⟨l, hl, hgrow⟩ | ⟨hempty, heven⟩
  · have hin : ∀ s, c'.shards s ∈ joinedKeys c groups :=
      hkeys ▸ mem_keys_of_valid (h.valid hv) (hkeys ▸ hmem)
    have hiff := hgrow.balanced_iff (q := quotient (joinedKeys c groups))
      (r := remainder (joinedKeys c groups)) (by rwa [union_new hl])
      (by rw [union_new hl]; exact card_eq _) (by rw [union_new hl]; exact remainder_lt hmem)
    rw [union_new hl] at hiff
    unfold Evenly
    rw [hkeys, hiff]
    exact ⟨fun hf => ⟨hf.base, by have := hf.room; unfold above at this; omega⟩,
      fun hj => ⟨hj.1, by have := hj.2; unfold above; omega⟩⟩
  · -- without a group there is nothing to even out
    have hlt := remainder_lt hmem
    have hnone : c.groups.keys = ∅ := by rw [hempty]; rfl
    refine iff_of_true heven ⟨fun g hg => ?_, ?_⟩
    · rw [hnone] at hg
      exact absurd hg (Finset.notMem_empty g)
    · rw [hcard, hnone, Finset.card_empty] at hlt
      rw [hnone]
      omega

lemma evenly_iff_of_leaving (h : Leaving c gids c') (hv : Valid c)
    (hleft : ∃ g ∈ c.groups, g ∉ gids) : Evenly c' ↔ LeaveEvens c gids := by
  obtain ⟨g, hg, hgids⟩ := hleft
  have hmem : g ∈ remainingKeys c gids := Finset.mem_filter.mpr ⟨Finmap.mem_keys.mpr hg, hgids⟩
  have hkeys := keys_of_leaving h
  have hin : ∀ s, c'.shards s ∈ remainingKeys c gids :=
    hkeys ▸ mem_keys_of_valid (h.valid hv) (hkeys ▸ hmem)
  unfold Evenly
  rw [hkeys, balanced_iff_of_give (h.gives _ hkeys.ge) hin (card_eq _) (remainder_lt hmem)]
  exact ⟨fun hr => ⟨hr.top, hr.room⟩, fun hl => ⟨hl.1, hl.2⟩⟩

end

/-- **When `Join` and `Leave` even out what `Move` has done.** From every configuration that can be
reached, whatever the orders of the maps, they make one; and it is balanced exactly if no group is
short of what it is to have, or has more. -/
theorem join_leave_balanced (h : List Config) (c : Config)
    (hr : ReachesIf produce (OnLatest Orderly) [initial] h) (hc : h.getLast? = some c) (passes : ℕ)
    (hpasses : NShards ≤ passes) (orders : ℕ → Order Gid) :
    (∀ groups, 0 ∉ groups → (∃ g ∈ groups, g ∉ c.groups) →
      ∃ c', produce h ⟨.join groups, passes, orders⟩ = some (h ++ [c']) ∧
        (Evenly c' ↔ JoinEvens c groups)) ∧
    ∀ gids, (∃ g ∈ gids, g ∈ c.groups) → (∃ g ∈ c.groups, g ∉ gids) →
      ∃ c', produce h ⟨.leave gids, passes, orders⟩ = some (h ++ [c']) ∧
        (Evenly c' ↔ LeaveEvens c gids) := by
  have hh := chain_of_reaches (fun _ _ => Orderly.proper) hr
  have hv : Valid c := by
    obtain ⟨n, c', -, hlast, hget⟩ := hh.latest
    obtain rfl := Option.some.inj (hget.symm.trans hc)
    exact hh.valid (fun _ _ _ hmove => hmove.2.2) hlast
  refine ⟨fun groups h0 hnew => ?_, fun gids _ hleft => ?_⟩
  · have hne : ¬ FirstEmpty c (.join groups) := fun hf => by
      obtain ⟨g, hg, -⟩ := hnew
      exact eq_empty_iff.mp hf.2 g hg
    obtain ⟨c', hmade, hprod⟩ := hh.produce hc (.join groups) h0 hne hpasses orders
    have hiff : Evenly c' ↔ JoinEvens c groups := evenly_iff_of_joined hmade hv hnew
    exact ⟨_, hprod, hiff⟩
  · obtain ⟨c', hmade, hprod⟩ := hh.produce hc (.leave gids) trivial id hpasses orders
    have hiff : Evenly c' ↔ LeaveEvens c gids := evenly_iff_of_leaving hmade hv hleft
    exact ⟨_, hprod, hiff⟩

/-- Groups `1`, `2` and `3` have five, two and three shards, and both commands even that out. -/
theorem join_leave_balanced_moved :
    ∃ h c c₁ c₂, ReachesIf produce (OnLatest Orderly) [initial] h ∧ h.getLast? = some c ∧
      ¬ Evenly c ∧ produce h (plain (.join (groupsOf [4]))) = some (h ++ [c₁]) ∧ Evenly c₁ ∧
      produce h (plain (.leave [3])) = some (h ++ [c₂]) ∧ Evenly c₂ := by
  have hrun : (runIf produce (OnLatest Orderly) [initial]
      [plain (.join (groupsOf [1, 2, 3])), plain (.move 1 1)]).map (fun h =>
        h.getLast?.map fun c => decide (¬ Evenly c ∧ 4 ∉ c.groups ∧ 3 ∈ c.groups ∧ 2 ∈ c.groups ∧
          JoinEvens c (groupsOf [4]) ∧ LeaveEvens c [3])) = some (some true) := by decide +kernel
  obtain ⟨h, hx, hd⟩ := Option.map_eq_some_iff.mp hrun
  obtain ⟨c, hc, hd⟩ := Option.map_eq_some_iff.mp hd
  obtain ⟨hskew, h4, h3, h2, hjoin, hleave⟩ := of_decide_eq_true hd
  have hr := reachesIf_of_runIf hx
  have hall := join_leave_balanced h c hr hc NShards le_rfl fun _ => .ascending
  obtain ⟨c₁, hprod₁, he₁⟩ := hall.1 (groupsOf [4]) (by decide) ⟨4, by decide, h4⟩
  obtain ⟨c₂, hprod₂, he₂⟩ := hall.2 [3] ⟨3, by simp, h3⟩ ⟨2, h2, by decide⟩
  exact ⟨h, c, c₁, c₂, hr, hc, hskew, hprod₁, he₁.mpr hjoin, hprod₂, he₂.mpr hleave⟩

/-- All shards are moved to group `1` before group `3` joins. -/
def skewed : List Event := List.flatten
  [[plain (.join (groupsOf [1, 2]))], [1, 3, 5, 7, 9].map fun s => plain (.move s 1),
    [plain (.join (groupsOf [3]))]]

theorem join_not_balanced :
    ∃ h, ReachesIf produce (OnLatest Orderly) [initial] h ∧ ∃ c, h.getLast? = some c ∧
      load c.shards 1 = 5 ∧ load c.shards 2 = 0 ∧ load c.shards 3 = 5 ∧ 2 ∈ c.groups ∧
      ¬ Evenly c := by
  have hrun : (runIf produce (OnLatest Orderly) [initial] skewed).map (fun h =>
      h.getLast?.map fun c => decide (load c.shards 1 = 5 ∧ load c.shards 2 = 0 ∧
        load c.shards 3 = 5 ∧ 2 ∈ c.groups ∧ ¬ Evenly c)) = some (some true) := by decide +kernel
  obtain ⟨h, hx, hd⟩ := Option.map_eq_some_iff.mp hrun
  obtain ⟨c, hc, hd⟩ := Option.map_eq_some_iff.mp hd
  exact ⟨h, reachesIf_of_runIf hx, c, hc, of_decide_eq_true hd⟩

/-! ### Few moves -/

/-- No group is new, or the shards can be divided evenly, or the remainder is enough for all old
groups, for the new ones that come after one of them, and for one new one in any case. -/
def MovesLeast (c : Config) (groups : GoMap Gid (List GoString)) : Prop :=
  groups.keys \ c.groups.keys = ∅ ∨ remainder (joinedKeys c groups) = 0 ∨
    c.groups.keys.card + max 1 ((groups.keys \ c.groups.keys).filter fun g =>
      ∃ old ∈ c.groups.keys, old < g).card ≤ remainder (joinedKeys c groups)

instance (c : Config) (groups : GoMap Gid (List GoString)) : Decidable (MovesLeast c groups) :=
  inferInstanceAs (Decidable (_ ∨ _ ∨ _))

/-- **When `JoinGroups` moves as few shards as possible.** It ends on every balanced configuration
with a group, and the number of shards that it has moved is the least exactly under this
condition. -/
theorem join_moves_least (c : Config) (hv : Valid c) (he : Evenly c) (hne : c.groups ≠ ∅)
    (groups : GoMap Gid (List GoString)) (h0 : 0 ∉ groups) :
    Ensures (c.joinGroups groups) fun c' =>
      (IsLeast (moveCounts c.shards (c.groups.keys ∪ groups.keys)) (moved c.shards c'.shards) ↔
        MovesLeast c groups) := by
  obtain ⟨g₀, hg₀⟩ : ∃ g, g ∈ c.groups := by
    by_contra hnone
    push Not at hnone
    exact hne (eq_empty_iff.mpr hnone)
  have hkey : g₀ ∈ c.groups.keys := Finmap.mem_keys.mpr hg₀
  have hmem : g₀ ∈ joinedKeys c groups := Finset.mem_union_left _ hkey
  refine (ensures_joinGroups hv.zero h0 fun n hn hnc _ => hv.toOwned.not_stuck hnc
    fun heq => h0 (heq ▸ hn)).mono fun c' hc' => ?_
  obtain ⟨p, hp, hj⟩ := hc'
  obtain ⟨l, hl, hgrow⟩ := hj.grows hv
  have hl' : ∀ g, g ∈ l ↔ g ∈ groups ∧ g ∉ c.groups := fun g => by rw [hl, hp.2]
  have hiff := hgrow.isLeast_iff (q := quotient (joinedKeys c groups))
    (r := remainder (joinedKeys c groups)) ⟨g₀, hkey⟩ (mem_keys_of_valid hv hkey) he
    (by rw [union_new hl']; exact card_eq _) (by rw [union_new hl']; exact remainder_lt hmem)
  have hnil : l = [] ↔ groups.keys \ c.groups.keys = ∅ := by
    rw [← toFinset_of_new hl', List.toFinset_eq_empty_iff]
  rw [union_new hl', hnil, later, toFinset_of_new hl'] at hiff
  exact hiff

/-- One group has all shards. -/
def single (gid : Gid) : Config := ⟨1, fun _ => gid, groupsOf [gid]⟩

/-- Three groups before the one that has all shards: seven shards move, although four groups cannot
have the same. -/
theorem join_moves_least_before :
    Ensures ((single 9).joinGroups (groupsOf [1, 2, 3])) fun c' =>
      IsLeast (moveCounts (single 9).shards ((single 9).groups.keys ∪ (groupsOf [1, 2, 3]).keys))
        (moved (single 9).shards c'.shards) := by
  have hin : ∀ s, (single 9).shards s ∈ (single 9).groups := by decide
  exact (join_moves_least (single 9)
    ⟨⟨by decide, fun s => Or.inl (hin s)⟩, fun s => Or.inl (hin s)⟩ (by decide) (by decide)
    (groupsOf [1, 2, 3]) (by decide)).mono fun _ hiff => hiff.mpr (by decide +kernel)

def halves : Config := ⟨1, fun s => s % 2 + 1, groupsOf [1, 2]⟩

theorem join_moves_too_many :
    Valid halves ∧ Evenly halves ∧ ∃ c', (halves.joinGroups (groupsOf [3])).outcome
      (fun _ => .ascending) = .ok c' ∧ moved halves.shards c'.shards = 4 ∧
        3 ∈ moveCounts halves.shards (halves.groups.keys ∪ (groupsOf [3]).keys) := by
  have hin : ∀ s, halves.shards s ∈ halves.groups := by decide +kernel
  have hrun : ((halves.joinGroups (groupsOf [3])).outcome fun _ => .ascending).map (fun c' =>
      moved halves.shards c'.shards) = .ok 4 := by decide +kernel
  refine ⟨⟨⟨by decide +kernel, fun s => Or.inl (hin s)⟩, fun s => Or.inl (hin s)⟩,
    by decide +kernel, ?_⟩
  cases hout : (halves.joinGroups (groupsOf [3])).outcome fun _ => .ascending with
  | error e =>
    rw [hout] at hrun
    cases hrun
  | ok c' =>
    rw [hout] at hrun
    exact ⟨c', rfl, Except.ok.inj hrun, fun s => if s < 3 then 3 else halves.shards s,
      by decide +kernel, by decide +kernel, by decide +kernel⟩

end Mit6824.CtrlBalance
