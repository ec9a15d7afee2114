import Mathlib.Data.Int.CardIntervalMod
import Mit6824.Balance
import Mit6824.CtrlConfig

/-!
What the functions of the controller that range over maps compute, whatever the order: the keys
in ascending order, the shards of each group in ascending order, a group with the most and one
with the least shards, a copy, and the round robin of `ResetShards`.
-/

namespace Mit6824.CtrlTable

open Mit6824.GoData Mit6824.MapOrder Mit6824.CtrlConfig Mit6824.Balance Function
open Mit6824.ShardServer (NShards Shard)

/-! ### Keys -/

def Ascending {V : Type} (l : List Gid) (m : GoMap Gid V) : Prop :=
  l.Pairwise (· < ·) ∧ ∀ g, g ∈ l ↔ g ∈ m

section

variable {V : Type} {l l' : List Gid} {m : GoMap Gid V}

lemma Ascending.nodup (h : Ascending l m) : l.Nodup := h.1.imp fun hlt => ne_of_lt hlt

lemma Ascending.unique (h : Ascending l m) (h' : Ascending l' m) : l = l' := by
  have hperm : l.Perm l' :=
    (List.perm_ext_iff_of_nodup h.nodup h'.nodup).mpr fun g => (h.2 g).trans (h'.2 g).symm
  exact hperm.eq_of_pairwise (fun _ _ _ _ hlt hgt => absurd hgt (lt_asymm hlt)) h.1 h'.1

lemma ascending_sortInts (hl : l.Nodup) (hm : ∀ g, g ∈ l ↔ g ∈ m) : Ascending (sortInts l) m := by
  have hperm : (sortInts l).Perm l := List.perm_insertionSort _ l
  refine ⟨?_, fun g => hperm.mem_iff.trans (hm g)⟩
  have hle : (sortInts l).Pairwise (· ≤ ·) := List.pairwise_insertionSort _ l
  exact hle.imp₂ (fun a b hab hne => lt_of_le_of_ne hab hne) (hperm.nodup_iff.mpr hl)

lemma ensures_sortedKeys (m : GoMap Gid V) : Ensures (sortedKeys m) fun l => Ascending l m := by
  refine (ensures_range m).bind fun l hl => ?_
  have hcollect : Ensures (forIn l ([] : List Gid) fun gid gids =>
      (pure (.yield (gids ++ [gid])) : Prog Gid _)) fun gids => gids = l :=
    Ensures.forIn (I := fun p gids => gids = p) rfl
      (fun p a q b _ hb => .pure (congrArg (· ++ [a]) hb)) fun b hb => hb
  refine hcollect.bind fun gids hgids => ?_
  subst hgids
  exact .pure (ascending_sortInts hl.1 hl.2)

lemma det_sortedKeys (m : GoMap Gid V) : Det (sortedKeys m) :=
  .of_ensures (ensures_sortedKeys m) fun _ _ => Ascending.unique

end

/-! ### The shards of each group -/

section

variable (config : Config)

def shardsOf (gid : Gid) : List Shard :=
  (List.finRange NShards).filter fun shard => config.shards shard = gid

/-- The map of `GetGroupShardsMap`: all groups and all owners, each with its shards. -/
structure Table (m : GroupShardsMap) : Prop where
  mem : ∀ g, g ∈ m ↔ g ∈ config.groups ∨ ∃ s, config.shards s = g
  slice : ∀ g, slice m g = shardsOf config g

variable {config}

@[simp] lemma mem_shardsOf {gid : Gid} {s : Shard} :
    s ∈ shardsOf config gid ↔ config.shards s = gid := by
  simp [shardsOf]

lemma length_shardsOf (gid : Gid) : (shardsOf config gid).length = load config.shards gid := rfl

lemma lookup_eq_of_slice {α : Type} {m m' : GoMap Gid (List α)} {g : Gid}
    (hmem : g ∈ m ↔ g ∈ m') (hslice : slice m g = slice m' g) : m.lookup g = m'.lookup g := by
  by_cases hg : g ∈ m
  · obtain ⟨l, hl⟩ := Finmap.mem_iff.mp hg
    obtain ⟨l', hl'⟩ := Finmap.mem_iff.mp (hmem.mp hg)
    rw [slice, slice, hl, hl'] at hslice
    rw [hl, hl']
    exact congrArg some hslice
  · rw [Finmap.lookup_eq_none.mpr hg, Finmap.lookup_eq_none.mpr fun h => hg (hmem.mpr h)]

lemma Table.unique {m m' : GroupShardsMap} (h : Table config m) (h' : Table config m') :
    m = m' :=
  Finmap.ext_lookup fun g => lookup_eq_of_slice ((h.mem g).trans (h'.mem g).symm)
    ((h.slice g).trans (h'.slice g).symm)

lemma slice_insert {α : Type} (m : GoMap Gid (List α)) (g h : Gid) (l : List α) :
    slice (m.insert g l) h = if h = g then l else slice m h := by
  unfold slice
  split
  · next heq => rw [heq, Finmap.lookup_insert]; rfl
  · next hne => rw [Finmap.lookup_insert_of_ne _ hne]

lemma slice_erase {α : Type} (m : GoMap Gid (List α)) (g h : Gid) :
    slice (m.erase g) h = if h = g then [] else slice m h := by
  unfold slice
  split
  · next heq => rw [heq, Finmap.lookup_erase]; rfl
  · next hne => rw [Finmap.lookup_erase_ne hne]

lemma ensures_getGroupShardsMap : Ensures config.getGroupShardsMap (Table config) := by
  refine (ensures_range config.groups).bind fun l hl => ?_
  refine Ensures.bind (P := fun m => ∀ g, (g ∈ m ↔ g ∈ config.groups) ∧ slice m g = []) ?_ ?_
  · refine Ensures.forIn (I := fun p m => ∀ g, (g ∈ m ↔ g ∈ p) ∧ slice m g = [])
      (fun g => ⟨iff_of_false Finmap.notMem_empty List.not_mem_nil, rfl⟩)
      (fun p a q m _ hm => .pure fun g => ⟨?_, ?_⟩)
      fun m hm g => ⟨(hm g).1.trans (hl.2 g), (hm g).2⟩
    · simp [(hm g).1, or_comm]
    · rw [slice_insert, (hm g).2, ite_self]
  · intro m₀ hm₀
    refine Ensures.bind (P := Table config) ?_ fun m hm => .pure hm
    refine Ensures.forIn (I := fun p m => ∀ g,
      (g ∈ m ↔ g ∈ config.groups ∨ ∃ s ∈ p, config.shards s = g) ∧
        slice m g = p.filter fun s => config.shards s = g)
      (fun g => ⟨by simp [(hm₀ g).1], (hm₀ g).2⟩) (fun p s q m _ hm => .pure fun g => ⟨?_, ?_⟩)
      fun m hm => ⟨fun g => by simp [(hm g).1], fun g => (hm g).2⟩
    · rw [Finmap.mem_insert, (hm g).1]
      constructor
      · rintro (rfl | h | ⟨s', hs', h⟩)
        · exact Or.inr ⟨s, by simp, rfl⟩
        · exact Or.inl h
        · exact Or.inr ⟨s', by simp [hs'], h⟩
      · rintro (h | ⟨s', hs', rfl⟩)
        · exact Or.inr (Or.inl h)
        · rcases List.mem_append.mp hs' with hs' | hs'
          · exact Or.inr (Or.inr ⟨s', hs', rfl⟩)
          · exact Or.inl (by rw [List.mem_singleton.mp hs'])
    · rw [slice_insert, List.filter_append]
      split
      · next heq => simp [heq, (hm _).2]
      · next hne => simp [(hm g).2, Ne.symm hne]

lemma det_getGroupShardsMap : Det config.getGroupShardsMap :=
  .of_ensures ensures_getGroupShardsMap fun _ _ => Table.unique

lemma ensures_clone (config : Config) : Ensures config.clone fun c => c = config := by
  refine (ensures_range config.groups).bind fun l hl => ?_
  refine Ensures.bind (P := fun m => m = config.groups) ?_ fun m hm => .pure (by rw [hm])
  refine Ensures.forIn (I := fun p m => ∀ g, (g ∈ m ↔ g ∈ p) ∧
    (g ∈ p → slice m g = slice config.groups g))
    (fun g => ⟨iff_of_false Finmap.notMem_empty List.not_mem_nil, fun h => absurd h (by simp)⟩)
    (fun p a q m _ hm => .pure fun g => ⟨by simp [(hm g).1, or_comm], fun hg => ?_⟩) fun m hm => ?_
  · rw [slice_insert]
    split
    · next heq => rw [heq]
    · next hne => exact (hm g).2 (by simpa [hne] using hg)
  · refine Finmap.ext_lookup fun g => ?_
    have hmem : g ∈ m ↔ g ∈ config.groups := (hm g).1.trans (hl.2 g)
    by_cases hg : g ∈ m
    · exact lookup_eq_of_slice hmem ((hm g).2 ((hm g).1.mp hg))
    · rw [Finmap.lookup_eq_none.mpr hg, Finmap.lookup_eq_none.mpr fun h => hg (hmem.mpr h)]

end

/-! ### The most and the least -/

section

variable {m : GroupShardsMap}

/-- The first of the best, by a comparison under which what beats another beats all that this one
is not beaten by. -/
lemma ensures_getGidWithCmpNumShards {cmp : ℕ → ℕ → Bool} (hirr : ∀ a, cmp a a = false)
    (htrans : ∀ a b c, cmp a b = false → cmp c b = true → cmp a c = false ∧ cmp c a = true) :
    Ensures (getGidWithCmpNumShards m cmp) fun g => (g = 0 ∧ ∀ h, h ∉ m) ∨
      (g ∈ m ∧ (∀ h ∈ m, cmp (slice m h).length (slice m g).length = false) ∧
        ∀ h ∈ m, h < g → cmp (slice m g).length (slice m h).length = true) := by
  unfold getGidWithCmpNumShards
  split
  · next hcard =>
    refine .pure (Or.inl ⟨rfl, fun h hh => ?_⟩)
    rw [← Finmap.mem_keys, Finset.card_eq_zero.mp hcard] at hh
    exact absurd hh (Finset.notMem_empty h)
  · next hcard =>
    refine (ensures_sortedKeys m).bind fun l hl => ?_
    cases l with
    | nil =>
      refine absurd (Finset.card_eq_zero.mpr ?_) hcard
      exact Finset.eq_empty_of_forall_notMem fun g hg => by
        simpa using (hl.2 g).mpr (Finmap.mem_keys.mp hg)
    | cons gid₀ rest =>
      refine Ensures.bind (P := fun r : Gid × ℕ => r.1 ∈ m ∧
        (∀ h ∈ m, cmp (slice m h).length (slice m r.1).length = false) ∧
          ∀ h ∈ m, h < r.1 → cmp (slice m r.1).length (slice m h).length = true) ?_ fun r hr =>
            .pure (Or.inr hr)
      refine Ensures.forIn (I := fun p (r : Gid × ℕ) => r.2 = (slice m r.1).length ∧
          r.1 ∈ gid₀ :: p ∧
          (∀ h ∈ gid₀ :: p, cmp (slice m h).length (slice m r.1).length = false) ∧
          ∀ h ∈ gid₀ :: p, h < r.1 → cmp (slice m r.1).length (slice m h).length = true)
        ⟨rfl, by simp, by simp [hirr], by simp⟩ (fun p g q r hrest hr => ?_) fun r hr =>
          ⟨(hl.2 _).mp hr.2.1, fun h hh => hr.2.2.1 h ((hl.2 h).mpr hh),
            fun h hh => hr.2.2.2 h ((hl.2 h).mpr hh)⟩
      obtain ⟨hcount, hmem, hbest, hfirst⟩ := hr
      -- what has been visited comes before the one that is looked at
      have hlt : ∀ h ∈ gid₀ :: p, h < g := fun h hh => by
        have hasc := hl.1
        rw [hrest, ← List.cons_append] at hasc
        exact (List.pairwise_append.mp hasc).2.2 h hh g List.mem_cons_self
      have hsnoc : ∀ h, h ∈ gid₀ :: (p ++ [g]) ↔ h ∈ gid₀ :: p ∨ h = g := fun h => by
        rw [← List.cons_append, List.mem_append, List.mem_singleton]
      dsimp only
      split
      · next hcmp =>
        rw [hcount] at hcmp
        refine .pure ⟨rfl, (hsnoc g).mpr (Or.inr rfl), fun h hh => ?_, fun h hh hhg => ?_⟩
        · rcases (hsnoc h).mp hh with hh | rfl
          · exact (htrans _ _ _ (hbest h hh) hcmp).1
          · exact hirr _
        · rcases (hsnoc h).mp hh with hh | rfl
          · exact (htrans _ _ _ (hbest h hh) hcmp).2
          · exact absurd hhg (lt_irrefl h)
      · next hcmp =>
        rw [hcount, Bool.not_eq_true] at hcmp
        refine .pure ⟨hcount, (hsnoc _).mpr (Or.inl hmem), fun h hh => ?_, fun h hh hhr => ?_⟩
        · rcases (hsnoc h).mp hh with hh | rfl
          · exact hbest h hh
          · exact hcmp
        · rcases (hsnoc h).mp hh with hh | rfl
          · exact hfirst h hh hhr
          · exact absurd hhr (hlt _ hmem).asymm

lemma det_getGidWithCmpNumShards (cmp : ℕ → ℕ → Bool) : Det (getGidWithCmpNumShards m cmp) := by
  unfold getGidWithCmpNumShards
  split
  · exact .pure 0
  · refine (det_sortedKeys m).bind fun l => ?_
    cases l with
    | nil => exact .throw _
    | cons gid₀ rest =>
      refine Det.bind (.forIn fun g r => ?_) fun r => .pure r.1
      dsimp only
      split <;> exact .pure _

lemma ensures_getGidWithMinimumShards :
    Ensures (getGidWithMinimumShards m) fun g => (g = 0 ∧ ∀ h, h ∉ m) ∨
      (g ∈ m ∧ ∀ h ∈ m, (slice m g).length ≤ (slice m h).length) :=
  (ensures_getGidWithCmpNumShards (by simp) (by simp; omega)).mono fun g hg =>
    hg.imp id fun h => ⟨h.1, fun h' hh' => by simpa using h.2.1 h' hh'⟩

/-- The first of those with the most shards, unless zero is there. -/
structure IsMax (m : GroupShardsMap) (g : Gid) : Prop where
  mem : g ∈ m
  most : ∀ h ∈ m, (slice m h).length ≤ (slice m g).length
  first : ∀ h ∈ m, h < g → (slice m h).length < (slice m g).length

lemma ensures_getGidWithMaximumShards :
    Ensures (getGidWithMaximumShards m) fun g => (g = 0 ∧ (0 ∈ m ∨ ∀ h, h ∉ m)) ∨
      (0 ∉ m ∧ IsMax m g) := by
  unfold getGidWithMaximumShards
  split
  · next h0 => exact .pure (Or.inl ⟨rfl, Or.inl h0⟩)
  · next h0 =>
    refine (ensures_getGidWithCmpNumShards (by simp) (by simp; omega)).mono fun g hg => ?_
    rcases hg with ⟨rfl, hempty⟩ | ⟨hmem, hmax, hfirst⟩
    · exact Or.inl ⟨rfl, Or.inr hempty⟩
    · exact Or.inr ⟨h0, hmem, fun h hh => by simpa using hmax h hh,
        fun h hh hlt => by simpa using hfirst h hh hlt⟩

lemma det_getGidWithMaximumShards : Det (getGidWithMaximumShards m) := by
  unfold getGidWithMaximumShards
  split
  · exact .pure 0
  · exact det_getGidWithCmpNumShards _

end

/-! ### Round robin -/

section

variable {config : Config} {gids : List Gid}

lemma ensures_moveShard (config : Config) (shard : Shard) (gid : Gid) :
    Ensures (config.moveShard (shard : ℕ) gid) fun c => c = config.setShard shard gid := by
  unfold Config.moveShard
  rw [dif_pos ⟨Int.natCast_nonneg _, Int.ofNat_lt.mpr shard.isLt⟩]
  exact .pure rfl

/-- The shards up to some place go to the groups in turn. -/
def DealtInTurn (gids : List Gid) (shard : ℕ) (c : Config) : Prop :=
  ∀ s : Shard, (s : ℕ) < shard → gids[(s : ℕ) % gids.length]? = some (c.shards s)

/-- A pass starts with the first group again, and ends at the last group or the last shard. -/
lemma ensures_resetPass (c : Config) {shard : ℕ} (hlt : shard < NShards)
    (hdvd : gids.length ∣ shard) (hc : DealtInTurn gids shard c) :
    Ensures (c.resetPass gids shard) fun r => r.1.groups = c.groups ∧ DealtInTurn gids r.2 r.1 ∧
      r.2 ≤ NShards ∧ (r.2 = shard + gids.length ∨ r.2 = NShards) := by
  refine Ensures.bind ?_ fun r hr => .pure hr
  refine Ensures.forIn (I := fun p r => r.1.groups = c.groups ∧ DealtInTurn gids r.2 r.1 ∧
      r.2 < NShards ∧ r.2 = shard + p.length)
    ⟨rfl, hc, hlt, rfl⟩ (fun p gid q r hl hr => ?_)
    fun r hr => ⟨hr.1, hr.2.1, hr.2.2.1.le, Or.inl hr.2.2.2⟩
  obtain ⟨hgroups, hturn, hr2, hlen⟩ := hr
  refine (ensures_moveShard r.1 ⟨r.2, hr2⟩ gid).bind fun c' hc' => ?_
  subst hc'
  have hturn' : DealtInTurn gids (r.2 + 1) (r.1.setShard ⟨r.2, hr2⟩ gid) := by
    intro s hs
    by_cases hsr : s = ⟨r.2, hr2⟩
    · subst hsr
      have hmod : r.2 % gids.length = p.length := by
        have hplt : p.length < gids.length := by rw [hl]; simp
        rw [hlen, Nat.add_mod, Nat.mod_eq_zero_of_dvd hdvd, Nat.zero_add, Nat.mod_mod,
          Nat.mod_eq_of_lt hplt]
      show gids[r.2 % gids.length]? = some (update r.1.shards _ gid _)
      rw [update_self, hmod, hl]
      simp
    · show _ = some (update r.1.shards _ gid s)
      rw [update_of_ne hsr]
      exact hturn s (by
        have : (s : ℕ) ≠ r.2 := fun h => hsr (Fin.ext h)
        omega)
  dsimp only
  split
  · next hge =>
    exact .pure ⟨hgroups, hturn', by omega, Or.inr (by omega)⟩
  · next hge =>
    refine .pure ⟨hgroups, hturn', by omega, ?_⟩
    rw [List.length_append, List.length_singleton]
    omega

lemma ensures_resetLoop (hne : gids ≠ []) (passes : ℕ) (c : Config) (shard : ℕ)
    (hpasses : NShards ≤ shard + passes) (hdvd : gids.length ∣ shard ∨ shard = NShards)
    (hle : shard ≤ NShards) (hc : DealtInTurn gids shard c) :
    Ensures (Config.resetLoop gids passes c shard) fun c' =>
      c'.groups = c.groups ∧ DealtInTurn gids NShards c' := by
  have hpos : 0 < gids.length := List.length_pos_of_ne_nil hne
  -- by induction on the passes that are left: each assigns at least one shard
  induction passes generalizing c shard with
  | zero =>
    have hend : shard = NShards := by omega
    subst hend
    rw [Config.resetLoop, if_neg (lt_irrefl _)]
    exact .pure ⟨rfl, hc⟩
  | succ passes ih =>
    rw [Config.resetLoop]
    split
    · next hlt =>
      refine (ensures_resetPass c hlt (hdvd.resolve_right hlt.ne) hc).bind fun r hr => ?_
      obtain ⟨hgroups, hturn, hle', hend⟩ := hr
      refine (ih r.1 r.2 (by omega) ?_ hle' hturn).mono fun c' hc' =>
        ⟨hc'.1.trans hgroups, hc'.2⟩
      rcases hend with hend | hend
      · exact Or.inl (hend ▸ (hdvd.resolve_right hlt.ne).add (dvd_refl _))
      · exact Or.inr hend
    · next hge =>
      have hend : shard = NShards := by omega
      subst hend
      exact .pure ⟨rfl, hc⟩

lemma load_of_dealtInTurn {c : Config} (hnodup : gids.Nodup)
    (hturn : DealtInTurn gids NShards c) {k : ℕ}
    {g : Gid} (hk : gids[k]? = some g) :
    load c.shards g = NShards / gids.length + if k < NShards % gids.length then 1 else 0 := by
  have hlt : k < gids.length := (List.getElem?_eq_some_iff.mp hk).1
  have hiff : ∀ s : Shard, c.shards s = g ↔ (s : ℕ) ≡ k [MOD gids.length] := by
    intro s
    have hs := hturn s s.isLt
    have hmod : (s : ℕ) % gids.length < gids.length := Nat.mod_lt _ (by omega)
    rw [Nat.ModEq, Nat.mod_eq_of_lt hlt]
    constructor
    · intro heq
      rw [heq] at hs
      exact hnodup.getElem_inj_iff.mp (Option.some.inj
        ((List.getElem?_eq_getElem hmod).symm.trans (hs.trans
          (hk.symm.trans (List.getElem?_eq_getElem hlt)))))
    · intro heq
      rw [heq, hk] at hs
      exact (Option.some.inj hs).symm
  have hcount : load c.shards g = Nat.count (· ≡ k [MOD gids.length]) NShards := by
    rw [Nat.count_eq_card_filter_range]
    unfold load
    refine Finset.card_bij (fun s _ => (s : ℕ)) (fun s hs => ?_) (fun s _ s' _ h => Fin.ext h)
      fun n hn => ?_
    · rw [Finset.mem_filter] at hs ⊢
      exact ⟨Finset.mem_range.mpr s.isLt, (hiff s).mp hs.2⟩
    · rw [Finset.mem_filter, Finset.mem_range] at hn
      exact ⟨⟨n, hn.1⟩, Finset.mem_filter.mpr ⟨Finset.mem_univ _, (hiff _).mpr hn.2⟩, rfl⟩
  rw [hcount, Nat.count_modEq_card _ (by omega), Nat.mod_eq_of_lt hlt]

/-- **`ResetShards` spreads the shards evenly**, given enough passes, if there is a group. -/
lemma ensures_resetShards {passes : ℕ} (hpasses : NShards ≤ passes) (hne : ∃ g, g ∈ config.groups) :
    Ensures (config.resetShards passes) fun c => c.groups = config.groups ∧
      (∀ s, c.shards s ∈ config.groups) ∧ Balanced c.shards config.groups.keys := by
  refine (ensures_sortedKeys config.groups).bind fun gids hgids => ?_
  obtain ⟨g, hg⟩ := hne
  have hgne : gids ≠ [] := List.ne_nil_of_mem ((hgids.2 g).mpr hg)
  refine (ensures_resetLoop hgne passes config 0 (by omega) (Or.inl (dvd_zero _)) (by omega)
    fun s hs => absurd hs (Nat.not_lt_zero _)).mono fun c hc => ⟨hc.1, fun s => ?_, ?_⟩
  · exact (hgids.2 _).mp (List.mem_of_getElem? (hc.2 s s.isLt))
  · intro h hh h' hh'
    obtain ⟨k, hk⟩ := List.mem_iff_getElem?.mp ((hgids.2 h).mpr (Finmap.mem_keys.mp hh))
    obtain ⟨k', hk'⟩ := List.mem_iff_getElem?.mp ((hgids.2 h').mpr (Finmap.mem_keys.mp hh'))
    rw [load_of_dealtInTurn hgids.nodup hc.2 hk, load_of_dealtInTurn hgids.nodup hc.2 hk']
    split <;> omega

lemma resetLoop_nil (passes : ℕ) (c : Config) (orders : ℕ → Order Gid) {shard : ℕ}
    (hlt : shard < NShards) :
    (Config.resetLoop [] passes c shard).outcome orders = .error .running := by
  induction passes generalizing orders with
  | zero =>
    rw [Config.resetLoop, if_pos hlt]
    rfl
  | succ passes ih =>
    rw [Config.resetLoop, if_pos hlt]
    exact ih orders

lemma resetShards_empty (passes : ℕ) (hempty : ∀ g, g ∉ config.groups) (orders : ℕ → Order Gid) :
    (config.resetShards passes).outcome orders = .error .running := by
  obtain ⟨gids, hout, hgids⟩ := ensures_sortedKeys config.groups orders
  have hnil : gids = [] := List.eq_nil_iff_forall_not_mem.mpr fun g hg =>
    hempty g ((hgids.2 g).mp hg)
  subst hnil
  exact (Prog.outcome_bind_ok hout).trans (resetLoop_nil passes config _ (by decide))

lemma resetLoop_done {n shard : ℕ} {c : Config} (hge : ¬ shard < NShards) :
    Config.resetLoop gids n c shard = pure c := by
  cases n <;> rw [Config.resetLoop, if_neg hge]

lemma det_moveShard (c : Config) (shard : ℤ) (gid : Gid) : Det (c.moveShard shard gid) := by
  unfold Config.moveShard
  split
  · exact .pure _
  · exact .throw _

lemma det_resetPass (c : Config) (gids : List Gid) (shard : ℕ) : Det (c.resetPass gids shard) := by
  refine Det.bind (.forIn fun gid r => ?_) fun r => .pure _
  refine (det_moveShard _ _ _).bind fun c => ?_
  dsimp only
  split <;> exact .pure _

lemma extends_resetLoop (gids : List Gid) {n n' : ℕ} (hn : n ≤ n') (c : Config) (shard : ℕ) :
    Extends (Config.resetLoop gids n c shard) (Config.resetLoop gids n' c shard) := by
  induction n generalizing n' c shard with
  | zero =>
    intro orders orders' hne
    rw [Config.resetLoop] at hne
    split at hne
    · exact absurd rfl hne
    · next hge =>
      rw [resetLoop_done hge, resetLoop_done hge]
      rfl
  | succ n ih =>
    obtain ⟨n', rfl⟩ : ∃ k, n' = k + 1 := ⟨n' - 1, by omega⟩
    rw [Config.resetLoop, Config.resetLoop]
    split
    · exact (Extends.of_det (det_resetPass c gids shard)).bind fun r => ih (by omega) r.1 r.2
    · exact .of_det (.pure c)

/-- More passes do not change how `ResetShards` ends. -/
lemma extends_resetShards {n n' : ℕ} (hn : n ≤ n') (c : Config) :
    Extends (c.resetShards n) (c.resetShards n') :=
  (Extends.of_det (det_sortedKeys c.groups)).bind fun l => extends_resetLoop l hn c 0

end

end Mit6824.CtrlTable
