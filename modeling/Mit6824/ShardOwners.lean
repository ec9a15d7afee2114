import Mit6824.ShardProtocol

/-!
At most one group serves a shard.

A group that has a shard is at a configuration that gives it the shard, or has taken it for the
next one from a group that has already moved on. So a group that has come to a configuration in
which it has the shard finds every former owner at a later configuration than the ones in which
that owner had it.
-/

namespace Mit6824.ShardOwners

open Mit6824.GoData Mit6824.ShardServer Mit6824.ShardReplica Mit6824.ShardProtocol Mit6824.Runs
open World

variable {w : World}

/-- A `PUT_SHARDS` that is executed after its group has adopted the configuration that it was
issued for finds all its shards taken. -/
def LatePutsIdle (w : World) : Event → Prop
  | .commit g (.putShards args) => (w.st g).Executes g (.putShards args) →
      ∀ r ∈ w.issued, r.dst = g → r.op = .putShards args → r.num ≤ w.num g →
        ∀ s, s ∈ args.shards → (w.st g).config.shards s = g
  | _ => True

/-- A `SET_CONFIG` that gives a group a shard which it has at gid `0` finds every group that had
the shard in an earlier configuration at a later one than that. -/
def FormerOwnersMoved (w : World) : Event → Prop
  | .commit g (.setConfig args) => (w.st g).Executes g (.setConfig args) →
      w.num g < args.config.num → ∀ s, args.config.shards s = g → (w.st g).config.shards s = 0 →
        ∀ d ≤ w.num g, ∀ c ∈ w.configs[d]?, c.shards s ≠ 0 → c.shards s ≠ g →
          d < w.num (c.shards s)
  | _ => True

instance (w : World) : ∀ ev, Decidable (LatePutsIdle w ev)
  | .commit _ (.putShards _) => show Decidable (_ → _) from inferInstance
  | .publish _ | .ask _ | .issue _ | .commit _ (.putAppend _) | .commit _ (.get _)
  | .commit _ (.getShards _) | .commit _ (.deleteShards _) | .commit _ (.setConfig _) =>
    .isTrue trivial

instance (w : World) : ∀ ev, Decidable (FormerOwnersMoved w ev)
  | .commit _ (.setConfig _) => show Decidable (_ → _) from inferInstance
  | .publish _ | .ask _ | .issue _ | .commit _ (.putAppend _) | .commit _ (.get _)
  | .commit _ (.getShards _) | .commit _ (.putShards _) | .commit _ (.deleteShards _) =>
    .isTrue trivial

/-! ### Hand-offs -/

/-- A configuration passes the shard from one group to another. -/
structure Passes (w : World) (n : ℕ) (s : Shard) (o h : ℕ) : Prop where
  from_ne_zero : o ≠ 0
  to_ne_zero : h ≠ 0
  ne : o ≠ h
  before : w.Assigns n s o
  after : w.Assigns (n + 1) s h

lemma Passes.later {w' : World} {n o h : ℕ} {s : Shard} (hp : Passes w n s o h)
    (hl : Later w w') : Passes w' n s o h :=
  ⟨hp.from_ne_zero, hp.to_ne_zero, hp.ne, hl.assigns hp.before, hl.assigns hp.after⟩

lemma Passes.of_configs {w' : World} {n o h : ℕ} {s : Shard} (hp : Passes w' n s o h)
    (hc : w'.configs = w.configs) : Passes w n s o h := by
  have hassigns : ∀ {n g}, w'.Assigns n s g → w.Assigns n s g := by
    intro n g ha
    unfold World.Assigns at ha ⊢
    rwa [← hc]
  exact ⟨hp.from_ne_zero, hp.to_ne_zero, hp.ne, hassigns hp.before, hassigns hp.after⟩

/-- What a server plans to fetch is passed on to its group. -/
lemma passes_of_plan (hw : Sound w) {h o : ℕ} {old new : Config} {shards : List Shard}
    (hm : w.Moving h old new)
    (hplan : (getMigrationFromGroupShardsMap h old new).lookup o = some shards) {s : Shard}
    (hs : s ∈ shards) : Passes w old.num s o h := by
  obtain ⟨h0, hne, hmem⟩ := lookup_migration hplan
  obtain ⟨hnew, hold⟩ := (hmem s).mp hs
  obtain ⟨p, hp, rfl⟩ := hm.read
  exact ⟨h0, hm.ne_zero, hne, (hw.tabled h p hp).assigns hold hne,
    new, by rw [← hm.next]; exact hm.published, hnew⟩

/-- The shards of a `PUT_SHARDS` that was issued are passed on to its group, and the group that had
them has adopted the configuration. -/
lemma passes_of_put (hw : Sound w) {h m : ℕ} {args : PutShardsArgs}
    (hr : ⟨h, m, .putShards args⟩ ∈ w.issued) {s : Shard} (hs : s ∈ args.shards) :
    ∃ n o, m = n + 1 ∧ Passes w n s o h ∧ n + 1 ≤ w.num o ∧ n ≤ w.num h := by
  have hj := hw.justified _ hr
  obtain ⟨data, map, seq, client⟩ := args
  cases hj with
  | put hm hplan hg =>
    have hpass := passes_of_plan hw hm hplan (hg.mem_iff.mp hs)
    have hn := hm.next
    exact ⟨_, _, hn, hpass, hn ▸ hg.num_le, by have := hm.num_le; omega⟩

lemma putDone_adopted (hw : Sound w) {h i e n o : ℕ} {shards : List Shard} {s : Shard}
    (hp : w.PutDone h i e (n + 1) shards) (hs : s ∈ shards) (hpass : Passes w n s o h) :
    n + 1 ≤ w.num o := by
  obtain ⟨data, map, seq, hr, hin, -⟩ := hp
  obtain ⟨n', o', hn, hpass', hle, -⟩ := passes_of_put hw hr (hin s hs)
  obtain rfl : n = n' := by omega
  rwa [assigns_unique hpass.before hpass'.before]

/-! ### Owners -/

/-- The group has come to the configuration, or has taken the shard for it. -/
def Reached (w : World) (h e : ℕ) (s : Shard) : Prop :=
  e ≤ w.num h ∨
    (e = w.num h + 1 ∧ (w.st h).config.shards s = h ∧ ¬ w.Assigns (w.num h) s h)

/-- The group has the shard for the next configuration, and the group that had it has adopted
that. -/
def Taken (w : World) (h n : ℕ) (s : Shard) : Prop := ∃ o, Passes w n s o h ∧ n + 1 ≤ w.num o

structure Owners (w : World) : Prop where
  owner : ∀ h p s, h ≠ 0 → p <+: w.logs h → (state h p).config.shards s = h →
    w.Assigns (state h p).config.num s h ∨ Taken w h (state h p).config.num s
  moved : ∀ g h s d e, g ≠ 0 → h ≠ 0 → g ≠ h → d < e → w.Assigns d s g → w.Assigns e s h →
    Reached w h e s → d < w.num g

lemma Taken.later {w' : World} {h n : ℕ} {s : Shard} (ht : Taken w h n s) (hl : Later w w') :
    Taken w' h n s := by
  obtain ⟨o, hp, hle⟩ := ht
  exact ⟨o, hp.later hl, hle.trans (hl.num_le o)⟩

/-- The former owners of a shard that is taken from a group have moved on, as that group has. -/
lemma Owners.moved_of_taken (h : Owners w) {g k n d : ℕ} {s : Shard} (ht : Taken w k n s)
    (hg : g ≠ 0) (hd : d < n + 1) (ha : w.Assigns d s g) : d < w.num g := by
  obtain ⟨o, hp, hle⟩ := ht
  by_cases hgo : g = o
  · subst hgo
    omega
  · have hne : d ≠ n := fun hdn => hgo (assigns_unique (hdn ▸ ha) hp.before)
    exact h.moved g o s d n hg hp.from_ne_zero hgo (by omega) ha hp.before (Or.inl (by omega))

/-- A `SET_CONFIG` is issued when the shards that are passed on to its group were found taken, or
have been put by the sender. -/
lemma set_cases (hw : Sound w) {k n o : ℕ} {args : SetConfigArgs} {s : Shard}
    (hr : ⟨k, n + 1, .setConfig args⟩ ∈ w.issued) (hp : Passes w n s o k) :
    (∃ p, p <+: w.logs k ∧ (state k p).config.num = n ∧ (state k p).config.shards s = k) ∨
      ∃ i e shards, w.PutDone k i e (n + 1) shards ∧ s ∈ shards := by
  have hj := hw.justified _ hr
  obtain ⟨config, seq, client⟩ := args
  generalize hm : n + 1 = m at hj
  cases hj with
  | @set _ i e _ old _ hmov hput =>
    obtain ⟨p, hpre, rfl⟩ := hmov.read
    have hnum : (state k p).config.num = n := by have := hmov.next; omega
    have hnew : config.shards s = k := by
      obtain ⟨c, hc, hs⟩ := hp.after
      have hpub := hmov.published
      rw [← hm, hc] at hpub
      rw [← Option.some.inj hpub, hs]
    by_cases hown : (state k p).config.shards s = k
    · exact Or.inl ⟨p, hpre, hnum, hown⟩
    · have hold : (state k p).config.shards s = o := by
        have ha := (hw.tabled k p hpre).assigns rfl hown
        rw [hnum] at ha
        exact assigns_unique ha hp.before
      have h0 : (state k p).config.shards s ≠ 0 := hold ▸ hp.from_ne_zero
      obtain ⟨shards, hplan, hs⟩ := exists_lookup_migration hnew hown h0
      -- before the first configuration no group has a shard
      have hpos : 0 < (state k p).config.num := by
        rw [hnum]
        refine Nat.pos_of_ne_zero fun hn => hp.from_ne_zero ?_
        exact assigns_unique (hn ▸ hp.before) (hw.assigns_zero s)
      exact Or.inr ⟨i, e, shards, hm ▸ hput _ _ hpos hplan, hs⟩

lemma Owners.taken_of_set (h : Owners w) (hw : Sound w) {k n o : ℕ} {args : SetConfigArgs}
    {s : Shard} (hr : ⟨k, n + 1, .setConfig args⟩ ∈ w.issued) (hp : Passes w n s o k) :
    Taken w k n s := by
  rcases set_cases hw hr hp with ⟨p, hpre, rfl, hown⟩ | ⟨i, e, shards, hput, hs⟩
  · exact (h.owner k p s hp.to_ne_zero hpre hown).resolve_left fun ha =>
      hp.ne (assigns_unique hp.before ha)
  · exact ⟨o, hp, putDone_adopted hw hput hs hp⟩

lemma owners_init : Owners World.init where
  owner := fun h p s hh hp hs => by
    obtain rfl := List.prefix_nil.mp hp
    exact absurd hs.symm hh
  moved := fun g h s d e hg _ _ _ ha _ _ => by
    obtain ⟨c, hc, hs⟩ := ha
    cases d with
    | zero =>
      rw [← Option.some.inj hc] at hs
      exact absurd hs.symm hg
    | succ d => cases hc

lemma assigns_of_publish {config : Config} {n g : ℕ} {s : Shard} (hn : n < w.configs.length)
    (h : (w.next (.publish config)).Assigns n s g) : w.Assigns n s g := by
  obtain ⟨c, hc, hs⟩ := h
  refine ⟨c, ?_, hs⟩
  change (w.configs ++ [config])[n]? = some c at hc
  rwa [List.getElem?_append_left hn] at hc

lemma Sound.num_lt (hw : Sound w) (g : ℕ) : w.num g < w.configs.length := by
  obtain ⟨c, hc, -⟩ := hw.tabled g _ List.prefix_rfl
  exact (List.getElem?_eq_some_iff.mp hc).1

lemma Owners.publish (h : Owners w) (hw : Sound w) (config : Config) :
    Owners (w.next (.publish config)) := by
  have hl := later_next w (.publish config)
  refine ⟨fun k p s hk hp hs => ?_, fun g k s d e hg hk hgk hde ha hb hreach => ?_⟩
  · rcases h.owner k p s hk hp hs with ha | ht
    · exact Or.inl (hl.assigns ha)
    · exact Or.inr (ht.later hl)
  · have hlt := Sound.num_lt hw k
    rcases hreach with hle | ⟨rfl, hown, hnot⟩
    · have hle : e ≤ w.num k := hle
      exact h.moved g k s d e hg hk hgk hde (assigns_of_publish (by omega) ha)
        (assigns_of_publish (by omega) hb) (Or.inl hle)
    · have hnot' : ¬ w.Assigns (w.num k) s k := fun hn => hnot (hl.assigns hn)
      have ht := (h.owner k _ s hk List.prefix_rfl hown).resolve_left hnot'
      have hde : d < w.num k + 1 := hde
      exact h.moved_of_taken ht hg hde (assigns_of_publish (by omega) ha)

/-- A `PUT_SHARDS` takes shards for the next configuration only. -/
lemma taken_of_put (hw : Sound w) {g m : ℕ} {args : PutShardsArgs} {s : Shard}
    (hcond : LatePutsIdle w (.commit g (.putShards args)))
    (hr : ⟨g, m, .putShards args⟩ ∈ w.issued) (hex : (w.st g).Executes g (.putShards args))
    (hs : s ∈ args.shards) (hown : (w.st g).config.shards s ≠ g) :
    m = w.num g + 1 ∧ Taken w g (w.num g) s := by
  obtain ⟨n, o, hm, hp, hle, hn⟩ := passes_of_put hw hr hs
  have hlate : ¬ m ≤ w.num g := fun hle' => hown (hcond hex _ hr rfl rfl hle' s hs)
  obtain rfl : n = w.num g := by omega
  exact ⟨hm, o, hp, hle⟩

/-- The groups that had a shard have moved on when a group adopts the configuration that gives the
shard to it: it has taken the shard, has had it before, or finds it at gid `0`. -/
lemma Owners.moved_of_set (h : Owners w) (hw : Sound w) {g k d : ℕ} {s : Shard}
    {args : SetConfigArgs} (hr : ⟨k, w.num k + 1, .setConfig args⟩ ∈ w.issued)
    (hex : (w.st k).Executes k (.setConfig args))
    (hpub : w.configs[w.num k + 1]? = some args.config)
    (hset : FormerOwnersMoved w (.commit k (.setConfig args))) (hg : g ≠ 0) (hk : k ≠ 0)
    (hgk : g ≠ k) (hd : d < w.num k + 1) (ha : w.Assigns d s g)
    (hb : w.Assigns (w.num k + 1) s k) : d < w.num g := by
  have hnew : args.config.shards s = k := by
    obtain ⟨c, hc, hs⟩ := hb
    have hc : w.configs[w.num k + 1]? = some c := hc
    rw [hpub] at hc
    rw [Option.some.inj hc, hs]
  obtain ⟨c, hcn, htab⟩ := hw.tabled k _ List.prefix_rfl
  have hbefore : w.Assigns (w.num k) s (c.shards s) := ⟨c, hcn, rfl⟩
  by_cases hsame : c.shards s = k
  · rw [hsame] at hbefore
    have hne : d ≠ w.num k := fun hd => hgk (assigns_unique (hd ▸ ha) hbefore)
    exact h.moved g k s d _ hg hk hgk (by omega) ha hbefore (Or.inl le_rfl)
  · by_cases hzero : c.shards s = 0
    · rw [hzero] at hbefore
      have h0 : (w.st k).config.shards s = 0 := by
        rcases htab s with hs | hs
        · rw [World.st, hs, hzero]
        · rcases h.owner k _ s hk List.prefix_rfl hs with ha' | ⟨o, hp, -⟩
          · exact absurd (assigns_unique hbefore ha').symm hk
          · exact absurd (assigns_unique hp.before hbefore) hp.from_ne_zero
      obtain ⟨cd, hcd, rfl⟩ := ha
      exact hset hex (by rw [hw.numbered _ _ hpub]; exact Nat.lt_succ_self _) s hnew h0 d
        (by omega) cd hcd hg hgk
    · have hp : Passes w (w.num k) s (c.shards s) k := ⟨hzero, hk, hsame, hbefore, hb⟩
      exact h.moved_of_taken (h.taken_of_set hw hr hp) hg hd ha

lemma Owners.commit (h : Owners w) (hw : Sound w) {k : ℕ} {op : Op}
    (hrule : w.Rule (.commit k op)) (hput : LatePutsIdle w (.commit k op))
    (hset : FormerOwnersMoved w (.commit k op)) : Owners (w.next (.commit k op)) := by
  have hl := later_next w (.commit k op)
  have hcases := config_cases hw hrule
  refine ⟨fun h' p s hh' hp hs => ?_, fun g h' s d e hg hh' hgh hde ha hb hreach => ?_⟩
  · rcases commit_prefix hp with hp | ⟨rfl, rfl⟩
    · exact (h.owner h' p s hh' hp hs).imp hl.assigns (·.later hl)
    · have hold := fun hs => (h.owner h' _ s hh' List.prefix_rfl hs).imp hl.assigns (·.later hl)
      rw [state_snoc] at hs ⊢
      rcases hcases with hc | ⟨args, m, rfl, hr, hex, hc⟩ | ⟨args, rfl, -, -, hc, hpub⟩
      · rw [World.st] at hc
        rw [hc] at hs ⊢
        exact hold hs
      · rw [World.st] at hc
        rw [hc] at hs ⊢
        by_cases hown : (w.st h').config.shards s = h'
        · exact hold hown
        · dsimp only at hs
          split at hs
          · next hin => exact Or.inr ((taken_of_put hw hput hr hex hin hown).2.later hl)
          · exact absurd hs hown
      · rw [World.st] at hc
        rw [hc] at hs ⊢
        exact Or.inl ⟨args.config, by rw [hw.numbered _ _ hpub]; exact hpub, hs⟩
  · refine lt_of_lt_of_le ?_ (hl.num_le g)
    by_cases hk : h' = k
    · subst hk
      have hst := next_commit_st w h' op
      unfold Reached World.num at hreach
      rw [hst] at hreach
      rcases hcases with hc | ⟨args, m, rfl, hr, hex, hc⟩ | ⟨args, rfl, hr, hex, hc, hpub⟩
      · rw [hc] at hreach
        exact h.moved g h' s d e hg hh' hgh hde ha hb hreach
      · rw [hc] at hreach
        rcases hreach with hle | ⟨rfl, hown', hnot⟩
        · exact h.moved g h' s d e hg hh' hgh hde ha hb (Or.inl hle)
        · by_cases hown : (w.st h').config.shards s = h'
          · exact h.moved g h' s d _ hg hh' hgh hde ha hb (Or.inr ⟨rfl, hown, hnot⟩)
          · dsimp only at hown'
            split at hown'
            · next hin =>
              exact h.moved_of_taken (taken_of_put hw hput hr hex hin hown).2 hg hde ha
            · exact absurd hown' hown
      · rw [hc, hw.numbered _ _ hpub] at hreach
        rcases hreach with hle | ⟨rfl, hown, hnot⟩
        · by_cases hle' : e ≤ w.num h'
          · exact h.moved g h' s d e hg hh' hgh hde ha hb (Or.inl hle')
          · -- the configuration is the one that is adopted now
            obtain rfl : e = w.num h' + 1 := le_antisymm hle (by omega)
            exact h.moved_of_set hw hr hex hpub hset hg hh' hgh hde ha hb
        · exact absurd ⟨args.config, hpub, hown⟩ hnot
    · have hst := next_commit_st_of_ne w op hk
      unfold Reached World.num at hreach
      rw [hst] at hreach
      exact h.moved g h' s d e hg hh' hgh hde ha hb hreach

theorem Owners.next (h : Owners w) (hw : Sound w) {ev : Event} (hrule : w.Rule ev)
    (hput : LatePutsIdle w ev) (hset : FormerOwnersMoved w ev) : Owners (w.next ev) := by
  have hl := later_next w ev
  cases ev with
  | publish config => exact h.publish hw config
  | ask op =>
    exact ⟨fun k p s hk hp hs => (h.owner k p s hk hp hs).imp hl.assigns (·.later hl), h.moved⟩
  | issue r =>
    exact ⟨fun k p s hk hp hs => (h.owner k p s hk hp hs).imp hl.assigns (·.later hl), h.moved⟩
  | commit g op => exact h.commit hw hrule hput hset

/-- **One owner.** -/
theorem Owners.unique (h : Owners w) {g k : ℕ} {s : Shard} (hg : g ≠ 0) (hk : k ≠ 0)
    (hgs : (w.st g).config.shards s = g) (hks : (w.st k).config.shards s = k) : g = k := by
  have hreach : ∀ {g}, g ≠ 0 → (w.st g).config.shards s = g →
      ∃ e, w.num g ≤ e ∧ w.Assigns e s g ∧ Reached w g e s := by
    intro g hg hs
    by_cases ha : w.Assigns (w.num g) s g
    · exact ⟨_, le_rfl, ha, Or.inl le_rfl⟩
    · obtain ⟨o, hp, -⟩ := (h.owner g _ s hg List.prefix_rfl hs).resolve_left ha
      exact ⟨_, Nat.le_succ _, hp.after, Or.inr ⟨rfl, hs, ha⟩⟩
  by_contra hne
  obtain ⟨d, hd, hda, hdr⟩ := hreach hg hgs
  obtain ⟨e, he, hea, her⟩ := hreach hk hks
  rcases Nat.lt_trichotomy d e with hlt | rfl | hlt
  · have := h.moved g k s d e hg hk hne hlt hda hea her
    omega
  · exact hne (assigns_unique hda hea)
  · have := h.moved k g s e d hk hg (Ne.symm hne) hlt hea hda hdr
    omega

end Mit6824.ShardOwners
