import Mit6824.CtrlTable
import Mit6824.Leveling

/-!
Which shards `JoinGroups` and `RemoveGroups` move.

Both work through their groups one after the other on a table that is partly updated. So the
statements are about one group first, with the shards of the table as they stand, and the loops
over the groups carry them along: a shard goes only to a group that is new, or only away from a
group that is removed, whatever way it takes in between. A `Move` can have put shards anywhere, so
little is asked of the table: what is known of the owners is kept, and the groups come and go as
the owners of `Leveling` do.
-/

namespace Mit6824.CtrlMoves

open Mit6824.GoData Mit6824.MapOrder Mit6824.CtrlConfig Mit6824.CtrlTable Mit6824.Balance
open Mit6824.Leveling Function Relation
open Mit6824.ShardServer (NShards Shard)

/-- Zero is not a group, and every shard is with a group or with zero. -/
structure Owned (c : Config) : Prop where
  zero : 0 ∉ c.groups
  owner : ∀ s, c.shards s ∈ c.groups ∨ c.shards s = 0

/-- Every shard is with a group if there is one. -/
structure Valid (c : Config) : Prop extends Owned c where
  settled : ∀ s, c.shards s ∈ c.groups ∨ ∀ g, g ∉ c.groups

lemma Valid.eq_zero {c : Config} (h : Valid c) (hempty : ∀ g, g ∉ c.groups) (s : Shard) :
    c.shards s = 0 :=
  (h.owner s).resolve_left (hempty _)

lemma Valid.mem {c : Config} (h : Valid c) {g : Gid} (hg : g ∈ c.groups) (s : Shard) :
    c.shards s ∈ c.groups :=
  (h.settled s).resolve_right fun hempty => hempty g hg

def Evenly (c : Config) : Prop := Balanced c.shards c.groups.keys

instance (c : Config) : Decidable (Evenly c) :=
  inferInstanceAs (Decidable (Balanced c.shards c.groups.keys))

variable {c c' : Config} {n gid : Gid}

lemma card_shard : Fintype.card Shard = NShards := Fintype.card_fin _

/-! ### A new group -/

/-- There is no group, shards have been moved to the one that is to join, and the rest is with zero
or is a single shard: the loop takes all of them and looks for more. -/
def Stuck (c : Config) (n : Gid) : Prop :=
  (∀ g, g ∉ c.groups) ∧ 0 < load c.shards n ∧
    ((∀ s, c.shards s = n ∨ c.shards s = 0) ∨ load c.shards n + 1 = NShards)

lemma Owned.not_stuck (hc : Owned c) (hn : n ∉ c.groups) (h0 : n ≠ 0) : ¬ Stuck c n := by
  rintro ⟨-, hpos, -⟩
  obtain ⟨s, rfl⟩ := load_pos.mp hpos
  exact (hc.owner s).elim hn h0

/-- The table after some rounds of the loop that fills a new group. -/
structure Filling (c : Config) (n : Gid) (cnt : ℕ) (c' : Config) : Prop where
  groups : c'.groups = c.groups
  moves : ∀ s, c'.shards s = c.shards s ∨ c'.shards s = n
  count : load c'.shards n = load c.shards n + cnt
  /-- Zero is emptied first, and another owner is not emptied but of a single shard. -/
  source : (∀ s, c'.shards s ≠ c.shards s → c.shards s = 0) ∨
    ((∀ s, c'.shards s ≠ 0) ∧ (cnt = 1 ∨ ∃ s, c'.shards s ≠ n))
  takes : (∀ s, c.shards s ∈ c.groups) → ReflTransGen (Take c.groups.keys n) c.shards c'.shards

/-- The table when the loop is done. -/
structure Filled (c : Config) (n : Gid) (c' : Config) : Prop where
  groups : c'.groups = c.groups
  moves : ∀ s, c'.shards s = c.shards s ∨ c'.shards s = n
  all : Owned c → (∀ g, g ∉ c.groups) → ∀ s, c'.shards s = n
  fill : (∀ s, c.shards s ∈ c.groups) → Fill c.groups.keys n c.shards c'.shards

lemma Filling.init : Filling c n 0 c where
  groups := rfl
  moves := fun _ => Or.inl rfl
  count := rfl
  source := Or.inl fun _ hs => absurd rfl hs
  takes := fun _ => .refl

lemma Filling.exists_other {cnt : ℕ} (h : Filling c n cnt c') (hn : n ∉ c.groups)
    (hfree : ¬ Stuck c n) (hlt : cnt < NShards) :
    ∃ g, g ≠ n ∧ (g ∈ c'.groups ∨ ∃ s, c'.shards s = g) := by
  by_contra hnone
  push Not at hnone
  have hall : ∀ s, c'.shards s = n := fun s => by_contra fun hs => (hnone _ hs).2 s rfl
  have hload : load c'.shards n = NShards := (load_eq_card.mpr hall).trans card_shard
  have hcount := h.count
  refine hfree ⟨fun g hg => ?_, by omega, ?_⟩
  · exact (hnone g fun heq => hn (heq ▸ hg)).1 (h.groups ▸ hg)
  · rcases h.source with hzero | ⟨-, hone | ⟨s, hs⟩⟩
    · refine Or.inl fun s => ?_
      by_cases hs : c.shards s = n
      · exact Or.inl hs
      · exact Or.inr (hzero s fun heq => hs (heq ▸ hall s))
    · exact Or.inr (by omega)
    · exact absurd (hall s) hs

/-- What the loop looks at: the shards of zero if it has any, else those of the first of the groups
with the most. -/
structure TakenFrom (c' : Config) (n : Gid) (maxGid : Gid) (shards : List Shard) : Prop where
  owner : ∀ s ∈ shards, c'.shards s = maxGid
  other : maxGid ≠ n
  ne_nil : maxGid = 0 → shards ≠ []
  none : maxGid ≠ 0 → ∀ s, c'.shards s ≠ 0
  length : shards.length = load c'.shards maxGid
  most : maxGid ≠ 0 → ∀ g ∈ c'.groups, g ≠ n → load c'.shards g ≤ load c'.shards maxGid
  first : maxGid ≠ 0 → ∀ g ∈ c'.groups, g ≠ n → g < maxGid →
    load c'.shards g < load c'.shards maxGid

lemma Table.slice_erase {m : GroupShardsMap} (hm : Table c m) {g : Gid} (hg : g ≠ n) :
    slice (m.erase n) g = shardsOf c g := by
  rw [CtrlTable.slice_erase, if_neg hg, hm.slice]

lemma taken_of_max {m : GroupShardsMap} (hm : Table c m) (h0 : n ≠ 0) (hzero : 0 ∉ c.groups)
    (hex : ∃ g, g ≠ n ∧ (g ∈ c.groups ∨ ∃ s, c.shards s = g)) {g : Gid}
    (hg : (g = 0 ∧ (0 ∈ m.erase n ∨ ∀ h, h ∉ m.erase n)) ∨
      (0 ∉ m.erase n ∧ IsMax (m.erase n) g)) :
    TakenFrom c n g (slice (m.erase n) g) := by
  have hmem : ∀ h, h ∈ m.erase n ↔ h ≠ n ∧ (h ∈ c.groups ∨ ∃ s, c.shards s = h) := fun h => by
    rw [Finmap.mem_erase, hm.mem]
  rcases hg with ⟨rfl, hzm | hempty⟩ | ⟨hz, hmax⟩
  · obtain ⟨s₀, hs₀⟩ := ((hmem 0).mp hzm).2.resolve_left hzero
    rw [Table.slice_erase hm h0.symm]
    exact ⟨fun s hs => mem_shardsOf.mp hs, h0.symm,
      fun _ => List.ne_nil_of_mem (mem_shardsOf.mpr hs₀), fun h => absurd rfl h,
      length_shardsOf 0, fun h => absurd rfl h, fun h => absurd rfl h⟩
  · obtain ⟨h, hh⟩ := hex
    exact absurd ((hmem h).mpr hh) (hempty h)
  · have hgn := ((hmem g).mp hmax.mem).1
    have hload : ∀ h ∈ m.erase n, (slice (m.erase n) h).length = load c.shards h := fun h hh => by
      rw [Table.slice_erase hm ((hmem h).mp hh).1, length_shardsOf]
    have hg0 : g ≠ 0 := fun heq => hz (heq ▸ hmax.mem)
    have hin : ∀ h ∈ c.groups, h ≠ n → h ∈ m.erase n := fun h hh hhn =>
      (hmem h).mpr ⟨hhn, Or.inl hh⟩
    refine ⟨fun s hs => ?_, hgn, fun heq => absurd heq hg0,
      fun _ s hs => hz ((hmem 0).mpr ⟨h0.symm, Or.inr ⟨s, hs⟩⟩), hload g hmax.mem,
      fun _ h hh hhn => ?_, fun _ h hh hhn hlt => ?_⟩
    · rw [Table.slice_erase hm hgn] at hs
      exact mem_shardsOf.mp hs
    · rw [← hload h (hin h hh hhn), ← hload g hmax.mem]
      exact hmax.most h (hin h hh hhn)
    · rw [← hload h (hin h hh hhn), ← hload g hmax.mem]
      exact hmax.first h (hin h hh hhn) hlt

lemma Filling.move {cnt : ℕ} (h : Filling c n cnt c') (hzero : 0 ∉ c.groups) (hn : n ∉ c.groups)
    (h0 : n ≠ 0) {maxGid : Gid} {shard : Shard} {rest : List Shard}
    (ht : TakenFrom c' n maxGid (shard :: rest))
    (hgo : ¬ (cnt ≥ (shard :: rest).length ∧ maxGid ≠ 0)) :
    Filling c n (cnt + 1) (c'.setShard shard n) := by
  have howner : c'.shards shard = maxGid := ht.owner shard List.mem_cons_self
  have hne : c'.shards shard ≠ n := howner ▸ ht.other
  have hset : ∀ s, (c'.setShard shard n).shards s = if s = shard then n else c'.shards s :=
    fun s => update_apply _ _ _ _
  refine ⟨h.groups, fun s => ?_, ?_, ?_, fun hin => ?_⟩
  · rw [hset]
    split
    · exact Or.inr rfl
    · exact h.moves s
  · have := h.count
    exact (load_update_self hne).trans (by omega)
  · by_cases hmax0 : maxGid = 0
    · -- the shard has been with zero from the beginning
      have hleft := h.source.resolve_right fun hr => hr.1 shard (howner.trans hmax0)
      refine Or.inl fun s hs => ?_
      rw [hset] at hs
      split at hs
      · next heq =>
        rw [heq, ← (h.moves shard).resolve_right hne, howner, hmax0]
      · exact hleft s hs
    · refine Or.inr ⟨fun s => ?_, ?_⟩
      · rw [hset]
        split
        · exact h0
        · exact ht.none hmax0 s
      · have hlt : cnt < load c'.shards maxGid := by
          rw [← ht.length]
          exact Nat.lt_of_not_le fun hge => hgo ⟨hge, hmax0⟩
        have hleft := load_update_owner hne
        rw [howner] at hleft
        rcases Nat.eq_zero_or_pos cnt with hcnt | hcnt
        · exact Or.inl (by omega)
        · obtain ⟨s, hs⟩ := load_pos.mp (show 0 < load (update c'.shards shard n) maxGid by omega)
          exact Or.inr ⟨s, fun heq => ht.other (hs.symm.trans heq)⟩
  · -- no shard is with zero, so the shard comes from a group that has the most
    have hmem : maxGid ∈ c.groups := by
      rw [← howner, (h.moves shard).resolve_right hne]
      exact hin shard
    have hmax0 : maxGid ≠ 0 := fun heq => hzero (heq ▸ hmem)
    have hkey : ∀ g ∈ c.groups.keys, g ∈ c'.groups ∧ g ≠ n := fun g hg =>
      ⟨h.groups ▸ Finmap.mem_keys.mp hg, fun heq => hn (heq ▸ Finmap.mem_keys.mp hg)⟩
    refine (h.takes hin).tail ⟨shard, ⟨?_, fun g hg => ?_, fun g hg hlt => ?_⟩, ?_, rfl⟩
    · rw [howner]
      exact Finmap.mem_keys.mpr hmem
    · rw [howner]
      exact ht.most hmax0 g (hkey g hg).1 (hkey g hg).2
    · rw [howner] at hlt ⊢
      exact ht.first hmax0 g (hkey g hg).1 (hkey g hg).2 hlt
    · have hload : load c.shards n = 0 := Nat.eq_zero_of_not_pos fun hpos => by
        obtain ⟨s, hs⟩ := load_pos.mp hpos
        exact hn (hs ▸ hin s)
      rw [h.count, hload, howner, ← ht.length]
      have := Nat.lt_of_not_le fun hge => hgo ⟨hge, hmax0⟩
      omega

lemma Filling.break {cnt : ℕ} (h : Filling c n cnt c') (hn : n ∉ c.groups)
    {maxGid : Gid} {shards : List Shard} (ht : TakenFrom c' n maxGid shards)
    (hbreak : cnt ≥ shards.length ∧ maxGid ≠ 0) : Filled c n c' := by
  refine ⟨h.groups, h.moves, fun hc hempty s => ?_, fun hin => ⟨h.takes hin, fun g hg => ?_⟩⟩
  · refine (h.moves s).resolve_left fun heq => ht.none hbreak.2 s ?_
    exact heq.trans ((hc.owner s).resolve_left (hempty _))
  · rw [Finmap.mem_keys] at hg
    have hmost := ht.most hbreak.2 g (h.groups ▸ hg) fun heq => hn (heq ▸ hg)
    have := ht.length
    have := h.count
    omega

lemma Filling.finish (h : Filling c n NShards c') : Filled c n c' := by
  have hcount := h.count
  have hle := load_le c'.shards n
  rw [card_shard] at hle
  have hall : load c'.shards n = Fintype.card Shard := by rw [card_shard]; omega
  refine ⟨h.groups, h.moves, fun _ _ => load_eq_card.mp hall,
    fun hin => ⟨h.takes hin, fun g _ => ?_⟩⟩
  have := load_le c'.shards g
  rw [card_shard] at this
  omega

/-- **What the loop does**, if it does not get stuck. -/
lemma ensures_fillGroup (hzero : 0 ∉ c.groups) (hn : n ∉ c.groups) (h0 : n ≠ 0)
    (hfree : ¬ Stuck c n) : Ensures (c.fillGroup n) (Filled c n) := by
  refine Ensures.bind (P := Filled c n) ?_ fun c' hc' => .pure hc'
  refine Ensures.forIn_range (I := Filling c n) .init (fun cnt c' hlt h => ?_) fun c' h => h.finish
  refine ensures_getGroupShardsMap.bind fun m hm => ?_
  refine ensures_getGidWithMaximumShards.bind fun maxGid hmax => ?_
  have ht := taken_of_max hm h0 (h.groups ▸ hzero) (h.exists_other hn hfree hlt) hmax
  dsimp only
  split
  · next hbreak => exact .pure (h.break hn ht hbreak)
  · next hgo =>
    split
    · next hnil =>
      rw [hnil] at hgo
      refine absurd hnil (ht.ne_nil (not_not.mp fun hne => hgo ⟨Nat.zero_le _, hne⟩))
    · next shard rest heq =>
      rw [heq] at ht hgo
      exact .pure (h.move hzero hn h0 ht hgo)

/-! ### Joining groups -/

/-- The table when some of the groups of a `Join` have been added. -/
structure Joining (c : Config) (groups : GoMap Gid (List GoString)) (p : List Gid) (c' : Config) :
    Prop where
  zero : 0 ∉ c'.groups
  owned : Owned c → Owned c'
  mem : ∀ g, g ∈ c'.groups ↔ g ∈ c.groups ∨ g ∈ p
  servers : ∀ g, slice c'.groups g = slice c.groups g ++ if g ∈ p then slice groups g else []
  moves : ∀ s, c'.shards s = c.shards s ∨ (c'.shards s ∈ p ∧ c'.shards s ∉ c.groups)
  valid : Valid c → Valid c'
  grows : Valid c → ∃ l, (∀ g, g ∈ l ↔ g ∈ p ∧ g ∉ c.groups) ∧
    Grow c.groups.keys c.shards l c'.shards

lemma Joining.init {groups : GoMap Gid (List GoString)} (hzero : 0 ∉ c.groups) :
    Joining c groups [] c where
  zero := hzero
  owned := id
  mem := fun g => by simp
  servers := fun g => by simp
  moves := fun s => Or.inl rfl
  valid := id
  grows := fun _ => ⟨[], by simp, .nil⟩

def addServers (c : Config) (n : Gid) (servers : List GoString) : Config :=
  { c with groups := c.groups.insert n (slice c.groups n ++ servers) }

lemma mem_addServers {servers : List GoString} {g : Gid} :
    g ∈ (addServers c n servers).groups ↔ g = n ∨ g ∈ c.groups := Finmap.mem_insert

section

variable {groups : GoMap Gid (List GoString)} {p : List Gid}

lemma Joining.mem_snoc (h : Joining c groups p c') {c₁ : Config} (hc₁ : c₁.groups = c'.groups)
    (g : Gid) : g ∈ (addServers c₁ n (slice groups n)).groups ↔ g ∈ c.groups ∨ g ∈ p ++ [n] := by
  rw [mem_addServers, hc₁, h.mem]
  simp only [List.mem_append, List.mem_singleton]
  tauto

lemma Joining.servers_snoc (h : Joining c groups p c') (hnp : n ∉ p) (g : Gid) :
    slice (addServers c' n (slice groups n)).groups g =
      slice c.groups g ++ if g ∈ p ++ [n] then slice groups g else [] := by
  show slice (c'.groups.insert n _) g = _
  rw [slice_insert]
  split
  · next heq =>
    subst heq
    rw [h.servers, if_neg hnp, List.append_nil, if_pos (by simp)]
  · next hne =>
    rw [h.servers]
    simp [hne]

lemma Joining.known (h : Joining c groups p c') (hnp : n ∉ p) (hn : n ∈ c'.groups) :
    Joining c groups (p ++ [n]) (addServers c' n (slice groups n)) := by
  have hsame : ∀ g, g ∈ (addServers c' n (slice groups n)).groups ↔ g ∈ c'.groups := fun g => by
    rw [mem_addServers]
    exact ⟨fun hg => hg.elim (fun heq => heq ▸ hn) id, Or.inr⟩
  have howned : Owned c' → Owned (addServers c' n (slice groups n)) := fun ho =>
    ⟨fun h0 => ho.zero ((hsame 0).mp h0), fun s => (ho.owner s).imp_left (hsame _).mpr⟩
  have hnc : n ∈ c.groups := ((h.mem n).mp hn).resolve_right hnp
  refine ⟨fun h0 => h.zero ((hsame 0).mp h0), fun hc => howned (h.owned hc), h.mem_snoc rfl,
    h.servers_snoc hnp, fun s => ?_, fun hv => ?_, fun hv => ?_⟩
  · exact (h.moves s).imp_right fun hm => ⟨List.mem_append_left _ hm.1, hm.2⟩
  · have hv' := h.valid hv
    exact ⟨howned hv'.toOwned, fun s => (hv'.settled s).imp (hsame _).mpr
      fun hempty g hg => hempty g ((hsame g).mp hg)⟩
  · obtain ⟨l, hl, hgrow⟩ := h.grows hv
    refine ⟨l, fun g => (hl g).trans ?_, hgrow⟩
    simp only [List.mem_append, List.mem_singleton]
    exact ⟨fun hg => ⟨Or.inl hg.1, hg.2⟩, fun hg => ⟨hg.1.resolve_right fun heq =>
      hg.2 (heq ▸ hnc), hg.2⟩⟩

lemma Joining.grow {c₁ : Config} (h : Joining c groups p c') (hasc : ∀ x ∈ p, x < n)
    (hn : n ∉ c'.groups) (hf : Filled c' n c₁) (hv : Valid c) :
    ∃ l, (∀ g, g ∈ l ↔ g ∈ p ++ [n] ∧ g ∉ c.groups) ∧
      Grow c.groups.keys c.shards l c₁.shards := by
  obtain ⟨l, hl, hgrow⟩ := h.grows hv
  have hnc : n ∉ c.groups := fun hin => hn ((h.mem n).mpr (Or.inl hin))
  have hkeys : c.groups.keys ∪ l.toFinset = c'.groups.keys := by
    ext g
    rw [Finset.mem_union, Finmap.mem_keys, List.mem_toFinset, hl, Finmap.mem_keys, h.mem]
    tauto
  refine ⟨l ++ [n], fun g => ?_, ?_⟩
  · simp only [List.mem_append, List.mem_singleton, hl]
    constructor
    · rintro (hg | rfl)
      · exact ⟨Or.inl hg.1, hg.2⟩
      · exact ⟨Or.inr rfl, hnc⟩
    · exact fun hg => hg.1.imp_left fun hgp => ⟨hgp, hg.2⟩
  · by_cases hex : ∃ g, g ∈ c'.groups
    · obtain ⟨g, hg⟩ := hex
      have hin := (h.valid hv).mem hg
      exact hgrow.snoc (fun s => by rw [hkeys]; exact Finmap.mem_keys.mpr (hin s))
        (by rwa [hkeys, Finmap.mem_keys]) (fun x hx => hasc x ((hl x).mp hx).1)
        (hkeys ▸ hf.fill hin)
    · -- the new group is the only one
      push Not at hex
      have hnil : l = [] := List.eq_nil_iff_forall_not_mem.mpr fun g hg =>
        hex g ((h.mem g).mpr (Or.inr ((hl g).mp hg).1))
      have hempty : c.groups.keys = ∅ := Finset.eq_empty_of_forall_notMem fun g hg =>
        hex g ((h.mem g).mpr (Or.inl (Finmap.mem_keys.mp hg)))
      have hall : c₁.shards = fun _ => n := funext (hf.all (h.owned hv.toOwned) hex)
      rw [hnil, hall]
      exact .first n hempty

lemma Joining.new {c₁ : Config} (h : Joining c groups p c') (hasc : ∀ x ∈ p, x < n)
    (hn : n ∉ c'.groups) (h0 : n ≠ 0) (hf : Filled c' n c₁) :
    Joining c groups (p ++ [n]) (addServers c₁ n (slice groups n)) := by
  have hnp : n ∉ p := fun hin => lt_irrefl n (hasc n hin)
  have hmem : ∀ g, g ∈ (addServers c₁ n (slice groups n)).groups ↔ g = n ∨ g ∈ c'.groups :=
    fun g => by rw [mem_addServers, hf.groups]
  have hnc : n ∉ c.groups := fun hin => hn ((h.mem n).mpr (Or.inl hin))
  have hgrow := h.grow hasc hn hf
  have hzero : 0 ∉ (addServers c₁ n (slice groups n)).groups := fun hz =>
    ((hmem 0).mp hz).elim (fun heq => h0 heq.symm) h.zero
  have howned : Owned c' → Owned (addServers c₁ n (slice groups n)) := by
    refine fun ho => ⟨hzero, fun s => ?_⟩
    show c₁.shards s ∈ _ ∨ c₁.shards s = 0
    rcases hf.moves s with heq | heq
    · rw [heq]
      exact (ho.owner s).imp_left fun hin => (hmem _).mpr (Or.inr hin)
    · exact Or.inl ((hmem _).mpr (Or.inl heq))
  refine ⟨hzero, fun hc => howned (h.owned hc), h.mem_snoc hf.groups, fun g => ?_, fun s => ?_,
    fun hv => ?_, hgrow⟩
  · have := h.servers_snoc hnp g
    unfold addServers at this ⊢
    rw [hf.groups]
    exact this
  · show c₁.shards s = _ ∨ c₁.shards s ∈ _ ∧ c₁.shards s ∉ _
    rcases hf.moves s with heq | heq
    · rw [heq]
      exact (h.moves s).imp_right fun hm => ⟨List.mem_append_left _ hm.1, hm.2⟩
    · rw [heq]
      exact Or.inr ⟨by simp, hnc⟩
  · have hv' := h.valid hv
    refine ⟨howned hv'.toOwned, fun s => Or.inl ((hmem _).mpr ?_)⟩
    show c₁.shards s = n ∨ c₁.shards s ∈ c'.groups
    rcases hf.moves s with heq | heq
    · rcases hv'.settled s with hin | hempty
      · exact Or.inr (heq ▸ hin)
      · exact Or.inl (hf.all hv'.toOwned hempty s)
    · exact Or.inl heq

/-- **What `JoinGroups` does**, if zero does not join and the first group does not get stuck. -/
lemma ensures_joinGroups (hzero : 0 ∉ c.groups) (h0 : 0 ∉ groups)
    (hfree : ∀ n ∈ groups, n ∉ c.groups → (∀ g ∈ groups, n ≤ g) → ¬ Stuck c n) :
    Ensures (c.joinGroups groups) fun c' => ∃ p, Ascending p groups ∧ Joining c groups p c' := by
  refine (ensures_sortedKeys groups).bind fun l hl => ?_
  refine Ensures.bind (P := Joining c groups l) ?_ fun c' h => .pure ⟨l, hl, h⟩
  refine Ensures.forIn (I := Joining c groups) (.init hzero) (fun p n q c' hl' h => ?_) fun _ h => h
  have hnl : n ∈ groups := (hl.2 n).mp (by rw [hl']; simp)
  have hsorted := List.pairwise_append.mp (hl' ▸ hl.1)
  have hasc : ∀ x ∈ p, x < n := fun x hx => hsorted.2.2 x hx n List.mem_cons_self
  have hn0 : n ≠ 0 := fun heq => h0 (heq ▸ hnl)
  dsimp only
  split
  · next hn =>
    have hfree' : ¬ Stuck c' n := by
      intro hstuck
      cases p with
      | cons x p => exact hstuck.1 x ((h.mem x).mpr (Or.inr List.mem_cons_self))
      | nil =>
        -- the first one finds the shards as they were
        have hsame : c'.shards = c.shards := funext fun s =>
          (h.moves s).resolve_right fun hm => List.not_mem_nil hm.1
        have hnone : ∀ g, g ∉ c.groups := fun g hg => hstuck.1 g ((h.mem g).mpr (Or.inl hg))
        refine hfree n hnl (hnone n) (fun g hg => ?_) ⟨hnone, hsame ▸ hstuck.2⟩
        have hgl := (hl.2 g).mpr hg
        rw [hl', List.nil_append] at hgl
        rcases List.mem_cons.mp hgl with rfl | hgq
        · exact le_rfl
        · exact ((List.pairwise_cons.mp hsorted.2.1).1 g hgq).le
    refine (ensures_fillGroup h.zero hn hn0 hfree').bind fun c₁ hf => .pure ?_
    exact h.new hasc hn hn0 hf
  · next hn => exact .pure (h.known (fun hin => lt_irrefl n (hasc n hin)) (not_not.mp hn))

end

/-! ### A group that leaves -/

/-- The table when some of the shards of a group that is removed have another owner. -/
structure Emptying (c : Config) (gid : Gid) (p : List Shard) (c' : Config) : Prop where
  groups : c'.groups = c.groups
  kept : ∀ s, s ∉ p → c'.shards s = c.shards s
  owned : (∀ s, c.shards s = gid ∨ c.shards s ∈ c.groups ∨ c.shards s = 0) →
    ∀ s ∈ p, c'.shards s ∈ c.groups ∨ c'.shards s = 0
  settled : (∀ s, c.shards s = gid ∨ c.shards s ∈ c.groups) → (∃ g, g ∈ c.groups) →
    ∀ s ∈ p, c'.shards s ∈ c.groups
  gives : ∀ T ⊆ c.groups.keys, ReflTransGen (Give T) c.shards c'.shards

lemma Emptying.init : Emptying c gid [] c where
  groups := rfl
  kept := fun _ _ => rfl
  owned := fun _ _ hs => absurd hs List.not_mem_nil
  settled := fun _ _ _ hs => absurd hs List.not_mem_nil
  gives := fun _ _ => .refl

/-- Whom the loop gives a shard: a group with the fewest, or zero if there is no other group. -/
structure Given (c' : Config) (gid g : Gid) : Prop where
  other : g ≠ gid
  owner : (g ∈ c'.groups ∨ ∃ s, c'.shards s = g) ∨ (g = 0 ∧ ∀ h ∈ c'.groups, h = gid)
  least : ∀ h ∈ c'.groups, h ≠ gid → load c'.shards g ≤ load c'.shards h

lemma given_of_min {m : GroupShardsMap} (hm : Table c m) (h0 : gid ≠ 0) {g : Gid}
    (hg : (g = 0 ∧ ∀ h, h ∉ m.erase gid) ∨ (g ∈ m.erase gid ∧
      ∀ h ∈ m.erase gid, (slice (m.erase gid) g).length ≤ (slice (m.erase gid) h).length)) :
    Given c gid g := by
  have hmem : ∀ h, h ∈ m.erase gid ↔ h ≠ gid ∧ (h ∈ c.groups ∨ ∃ s, c.shards s = h) := fun h => by
    rw [Finmap.mem_erase, hm.mem]
  rcases hg with ⟨rfl, hempty⟩ | ⟨hg, hmin⟩
  · have hnone : ∀ h ∈ c.groups, h = gid := fun h hh =>
      by_contra fun hne => hempty h ((hmem h).mpr ⟨hne, Or.inl hh⟩)
    exact ⟨h0.symm, Or.inr ⟨rfl, hnone⟩, fun h hh hne => absurd (hnone h hh) hne⟩
  · obtain ⟨hne, howner⟩ := (hmem g).mp hg
    refine ⟨hne, Or.inl howner, fun h hh hhne => ?_⟩
    have hle := hmin h ((hmem h).mpr ⟨hhne, Or.inl hh⟩)
    rwa [Table.slice_erase hm hne, Table.slice_erase hm hhne, length_shardsOf,
      length_shardsOf] at hle

/-- What holds of the owners that the shards had and have holds of the one that is given a shard. -/
lemma Emptying.owner_of_given {p : List Shard} {P : Gid → Prop} (h : Emptying c gid p c') {g : Gid}
    (hg : Given c' gid g) (hgroups : ∀ g ∈ c.groups, P g)
    (hbefore : ∀ s, c.shards s = gid ∨ P (c.shards s)) (hnow : ∀ s ∈ p, P (c'.shards s))
    (hzero : (∀ h ∈ c.groups, h = gid) → P 0) : P g := by
  obtain ⟨hother, (hin | ⟨s, rfl⟩) | ⟨rfl, hnone⟩, -⟩ := hg
  · exact hgroups g (h.groups ▸ hin)
  · by_cases hsp : s ∈ p
    · exact hnow s hsp
    · rw [h.kept s hsp] at hother ⊢
      exact (hbefore s).resolve_left hother
  · exact hzero (h.groups ▸ hnone)

lemma Emptying.move {p : List Shard} (h : Emptying c gid p c') (hgid : gid ∉ c.groups)
    {shard : Shard} (hshard : c.shards shard = gid) (hp : shard ∉ p) {g : Gid}
    (hg : Given c' gid g) : Emptying c gid (p ++ [shard]) (c'.setShard shard g) := by
  have hset : ∀ s, (c'.setShard shard g).shards s = if s = shard then g else c'.shards s :=
    fun s => update_apply _ _ _ _
  have hmem : ∀ s, s ≠ shard → s ∈ p ++ [shard] → s ∈ p := fun s hne hs =>
    (List.mem_append.mp hs).resolve_right fun hs => hne (List.mem_singleton.mp hs)
  refine ⟨h.groups, fun s hs => ?_, fun hbefore s hs => ?_, fun hbefore hex s hs => ?_,
    fun T hT => ?_⟩
  · rw [List.mem_append, List.mem_singleton, not_or] at hs
    rw [hset, if_neg hs.2, h.kept s hs.1]
  · rw [hset]
    split
    · exact h.owner_of_given (P := fun g => g ∈ c.groups ∨ g = 0) hg (fun _ => Or.inl) hbefore
        (h.owned hbefore) fun _ => Or.inr rfl
    · next hne => exact h.owned hbefore s (hmem s hne hs)
  · rw [hset]
    split
    · refine h.owner_of_given (P := fun g => g ∈ c.groups) hg (fun _ => id) hbefore
        (h.settled hbefore hex) fun hnone => ?_
      obtain ⟨g', hg'⟩ := hex
      exact absurd (hnone g' hg' ▸ hg') hgid
    · next hne => exact h.settled hbefore hex s (hmem s hne hs)
  · refine (h.gives T hT).tail ⟨shard, g, ?_, fun _ h' hh' => ?_, rfl⟩
    · rw [h.kept shard hp, hshard]
      exact fun hin => hgid (Finmap.mem_keys.mp (hT hin))
    · have hin := Finmap.mem_keys.mp (hT hh')
      exact hg.least h' (h.groups ▸ hin) fun heq => hgid (heq ▸ hin)

lemma ensures_emptyGroup (hgid : gid ∉ c.groups) (h0 : gid ≠ 0) {l : List Shard}
    (hl : l.Nodup) (hown : ∀ s ∈ l, c.shards s = gid) :
    Ensures (c.emptyGroup gid l) (Emptying c gid l) := by
  refine Ensures.bind (P := Emptying c gid l) ?_ fun c' h => .pure h
  refine Ensures.forIn (I := Emptying c gid) .init (fun p shard q c' hl' h => ?_) fun _ h => h
  refine ensures_getGroupShardsMap.bind fun m hm => ?_
  refine ensures_getGidWithMinimumShards.bind fun minGid hmin => .pure ?_
  have hp : shard ∉ p := fun hin =>
    List.disjoint_of_nodup_append (hl' ▸ hl) hin List.mem_cons_self
  exact h.move hgid (hown shard (by rw [hl']; simp)) hp (given_of_min hm h0 hmin)

/-! ### Removing groups -/

/-- The table when some of the groups of a `Leave` have been removed. -/
structure Leaving (c : Config) (p : List Gid) (c' : Config) : Prop where
  owned : Owned c → Owned c'
  lookup : ∀ g, c'.groups.lookup g = if g ∈ p then none else c.groups.lookup g
  moves : ∀ s, c'.shards s = c.shards s ∨ (c.shards s ∈ p ∧ c.shards s ∈ c.groups)
  valid : Valid c → Valid c'
  gives : ∀ T ⊆ c'.groups.keys, ReflTransGen (Give T) c.shards c'.shards

lemma Leaving.init : Leaving c [] c where
  owned := id
  lookup := fun g => by simp
  moves := fun s => Or.inl rfl
  valid := id
  gives := fun _ _ => .refl

lemma Leaving.mem {p : List Gid} (h : Leaving c p c') (g : Gid) :
    g ∈ c'.groups ↔ g ∈ c.groups ∧ g ∉ p := by
  rw [← Finmap.lookup_isSome, h.lookup, ← Finmap.lookup_isSome]
  split <;> simp [*]

lemma Leaving.skip {p : List Gid} (h : Leaving c p c') (hgid : gid ∉ c'.groups) :
    Leaving c (p ++ [gid]) c' where
  owned := h.owned
  lookup := fun g => by
    by_cases hg : g = gid
    · rw [hg, Finmap.lookup_eq_none.mpr hgid, if_pos (by simp)]
    · rw [h.lookup]
      simp [hg]
  moves := fun s => (h.moves s).imp_right fun hm => ⟨List.mem_append_left _ hm.1, hm.2⟩
  valid := h.valid
  gives := h.gives

lemma Leaving.remove {p : List Gid} {c₁ : Config} (h : Leaving c p c') (hgid : gid ∈ c'.groups)
    (he : Emptying { c' with groups := c'.groups.erase gid } gid (shardsOf c' gid) c₁) :
    Leaving c (p ++ [gid]) c₁ := by
  have hmem : ∀ g, g ∈ c₁.groups ↔ g ≠ gid ∧ g ∈ c'.groups := fun g => by
    rw [he.groups]
    exact Finmap.mem_erase
  have hkept : ∀ s, c'.shards s ≠ gid → c₁.shards s = c'.shards s := fun s hs =>
    he.kept s fun hin => hs (mem_shardsOf.mp hin)
  have howned : Owned c' → Owned c₁ := by
    refine fun ho => ⟨fun hz => ho.zero ((hmem 0).mp hz).2, fun s => ?_⟩
    have hbefore : ∀ s, c'.shards s = gid ∨ c'.shards s ∈ c'.groups.erase gid ∨ c'.shards s = 0 :=
      fun s => by
        by_cases hs : c'.shards s = gid
        · exact Or.inl hs
        · exact Or.inr ((ho.owner s).imp_left fun hin => Finmap.mem_erase.mpr ⟨hs, hin⟩)
    by_cases hs : c'.shards s = gid
    · rw [he.groups]
      exact he.owned hbefore s (mem_shardsOf.mpr hs)
    · rw [hkept s hs]
      exact (ho.owner s).imp_left fun hin => (hmem _).mpr ⟨hs, hin⟩
  refine ⟨fun hc => howned (h.owned hc), fun g => ?_, fun s => ?_, fun hv => ?_, fun T hT => ?_⟩
  · rw [he.groups]
    show (c'.groups.erase gid).lookup g = _
    by_cases hg : g = gid
    · rw [hg, Finmap.lookup_erase, if_pos (by simp)]
    · rw [Finmap.lookup_erase_ne hg, h.lookup]
      simp [hg]
  · by_cases hs : c'.shards s = gid
    · rcases h.moves s with heq | hm
      · have hin : gid ∈ c.groups := ((h.mem gid).mp hgid).1
        exact Or.inr ⟨by rw [← heq, hs]; simp, by rwa [← heq, hs]⟩
      · exact Or.inr ⟨List.mem_append_left _ hm.1, hm.2⟩
    · rw [hkept s hs]
      exact (h.moves s).imp_right fun hm => ⟨List.mem_append_left _ hm.1, hm.2⟩
  · have hv' := h.valid hv
    refine ⟨howned hv'.toOwned, fun s => ?_⟩
    by_cases hex : ∃ g, g ∈ c₁.groups
    · refine Or.inl ?_
      have hin : ∀ s, c'.shards s = gid ∨ c'.shards s ∈ c'.groups.erase gid := fun s => by
        by_cases hs : c'.shards s = gid
        · exact Or.inl hs
        · exact Or.inr (Finmap.mem_erase.mpr ⟨hs, hv'.mem hgid s⟩)
      by_cases hs : c'.shards s = gid
      · rw [he.groups] at hex ⊢
        exact he.settled hin hex s (mem_shardsOf.mpr hs)
      · rw [hkept s hs]
        exact (hmem _).mpr ⟨hs, hv'.mem hgid s⟩
    · exact Or.inr fun g hg => hex ⟨g, hg⟩
  · refine (h.gives T fun g hg => ?_).trans (he.gives T (he.groups ▸ hT))
    exact Finmap.mem_keys.mpr ((hmem g).mp (Finmap.mem_keys.mp (hT hg))).2

/-- **What `RemoveGroups` does.** -/
lemma ensures_removeGroups (hzero : 0 ∉ c.groups) (gids : List Gid) :
    Ensures (c.removeGroups gids) (Leaving c gids) := by
  refine Ensures.bind (P := Leaving c gids) ?_ fun c' h => .pure h
  refine Ensures.forIn (I := Leaving c) .init (fun p gid q c' _ h => ?_) fun _ h => h
  dsimp only
  split
  · next hgid =>
    refine ensures_getGroupShardsMap.bind fun m hm => ?_
    rw [hm.slice]
    have hgid0 : gid ≠ 0 := fun heq => hzero (heq ▸ ((h.mem gid).mp hgid).1)
    exact (ensures_emptyGroup (Finmap.notMem_erase_self) hgid0
      ((List.nodup_finRange _).filter _) fun s hs => mem_shardsOf.mp hs).bind
      fun c₁ he => .pure (h.remove hgid he)
  · next hgid => exact .pure (h.skip hgid)

end Mit6824.CtrlMoves
