import Mit6824.ShardAcks
import Mit6824.ShardOwners

/-!
What becomes of the content of a shard that is handed over.

A group that takes a shard takes the content that the former owner had when it gave the shard
away: the first `PUT_SHARDS` of a hand-off carries it, and what is read later than that is never
taken. What is deleted has been taken before.
-/

namespace Mit6824.ShardContent

open Mit6824.GoData Mit6824.ShardServer Mit6824.ShardReplica Mit6824.ShardProtocol Mit6824.Runs
open Mit6824.ShardOwners Mit6824.ShardAcks World

variable {w w' : World}

/-- A `DELETE_SHARDS` is executed, for a shard that its group does not have, only if no
configuration since the one that it was issued for has given the shard back to the group. -/
def LateDeletesIdle (w : World) : Event → Prop
  | .commit g (.deleteShards args) => (w.st g).Executes g (.deleteShards args) →
      ∀ r ∈ w.issued, r.dst = g → r.op = .deleteShards args →
        ∀ s ∈ args.shards, (w.st g).config.shards s ≠ g →
          ∀ e ≤ w.num g, r.num ≤ e → ∀ c ∈ w.configs[e]?, c.shards s ≠ g
  | _ => True

/-- A `SET_CONFIG` that gives a group a shard which it has at gid `0` finds that the group has
executed no `DELETE_SHARDS` of the shard since it last had it. -/
def ZeroGainsKept (w : World) : Event → Prop
  | .commit g (.setConfig args) => (w.st g).Executes g (.setConfig args) →
      w.num g < args.config.num → ∀ s, args.config.shards s = g → (w.st g).config.shards s = 0 →
        (w.st g).trace s ≠ .maybe
  | _ => True

instance (w : World) : ∀ ev, Decidable (LateDeletesIdle w ev)
  | .commit _ (.deleteShards _) => show Decidable (_ → _) from inferInstance
  | .publish _ | .ask _ | .issue _ | .commit _ (.putAppend _) | .commit _ (.get _)
  | .commit _ (.getShards _) | .commit _ (.putShards _) | .commit _ (.setConfig _) =>
    .isTrue trivial

instance (w : World) : ∀ ev, Decidable (ZeroGainsKept w ev)
  | .commit _ (.setConfig _) => show Decidable (_ → _) from inferInstance
  | .publish _ | .ask _ | .issue _ | .commit _ (.putAppend _) | .commit _ (.get _)
  | .commit _ (.getShards _) | .commit _ (.putShards _) | .commit _ (.deleteShards _) =>
    .isTrue trivial

/-! ### Taking and giving away -/

/-- The log of the group has taken the shard with the content, at the configuration with the
number. -/
def Handed (w : World) (h n : ℕ) (s : Shard) (v : Data) : Prop :=
  ∃ q args, q ++ [.putShards args] <+: w.logs h ∧ (state h q).Executes h (.putShards args) ∧
    (state h q).config.num = n ∧ (state h q).config.shards s ≠ h ∧ args.shards.lookup s = some v

/-- The group had the content when it moved on from the configuration with the number. -/
def Lost (w : World) (g n : ℕ) (s : Shard) (v : Data) : Prop :=
  ∃ q op, q ++ [op] <+: w.logs g ∧ (state g q).config.num = n ∧
    (state g (q ++ [op])).config.num = n + 1 ∧ (state g q).trace s = .kept ∧
    (state g q).store s = v

lemma Handed.later {h n : ℕ} {s : Shard} {v : Data} (hh : Handed w h n s v) (hl : Later w w') :
    Handed w' h n s v := by
  obtain ⟨q, args, hq, hrest⟩ := hh
  exact ⟨q, args, hq.trans (hl.logs h), hrest⟩

lemma Lost.later {g n : ℕ} {s : Shard} {v : Data} (hh : Lost w g n s v) (hl : Later w w') :
    Lost w' g n s v := by
  obtain ⟨q, op, hq, hrest⟩ := hh
  exact ⟨q, op, hq.trans (hl.logs g), hrest⟩

lemma Lost.unique {g n : ℕ} {s : Shard} {v v' : Data} (h : Lost w g n s v)
    (h' : Lost w g n s v') : v = v' := by
  obtain ⟨q, op, hq, hn, hn1, -, rfl⟩ := h
  obtain ⟨q', op', hq', hn', hn1', -, rfl⟩ := h'
  rcases prefix_trichotomy hq hq' with ⟨rfl, -⟩ | hlt | hlt
  · rfl
  · have : (state g (q ++ [op])).config.num ≤ (state g q').config.num := num_mono hlt
    omega
  · have : (state g (q' ++ [op'])).config.num ≤ (state g q).config.num := num_mono hlt
    omega

lemma executes_put {h : ℕ} {q : List Op} {args : PutShardsArgs}
    (hex : (state h q).Executes h (.putShards args)) {s : Shard} (hs : s ∈ args.shards) :
    (state h (q ++ [.putShards args])).config.num = (state h q).config.num ∧
      (state h (q ++ [.putShards args])).config.shards s = h := by
  rw [state_snoc, GroupState.apply_of_executes hex]
  exact ⟨rfl, if_pos hs⟩

/-- What has been taken is had until the next configuration. -/
lemma owned_of_put {h : ℕ} {p q : List Op} {args : PutShardsArgs} {s : Shard} {v : Data}
    (hq : q ++ [.putShards args] <+: p) (hex : (state h q).Executes h (.putShards args))
    (hv : args.shards.lookup s = some v)
    (hnum : (state h p).config.num = (state h q).config.num) :
    (state h p).config.shards s = h := by
  obtain ⟨hn, hown⟩ := executes_put hex (Finmap.mem_of_lookup_eq_some hv)
  exact owned_mono hq hown (hnum.trans hn.symm)

lemma Handed.owned {h : ℕ} {s : Shard} {v : Data} (hh : Handed w h (w.num h) s v) :
    (w.st h).config.shards s = h := by
  obtain ⟨q, args, hq, hex, hn, -, hv⟩ := hh
  exact owned_of_put hq hex hv hn.symm

/-! ### The invariant -/

/-- The group has come back to a configuration that gives it the shard. -/
def Back (w : World) (g : ℕ) (p : List Op) (s : Shard) (e : ℕ) : Prop :=
  w.Assigns e s g ∧ (e ≤ (state g p).config.num ∨ (e = (state g p).config.num + 1 ∧
    (state g p).config.shards s = g ∧ ¬ w.Assigns (state g p).config.num s g))

/-- A group that has come back has done so for good. -/
lemma Back.mono {g e : ℕ} {p q : List Op} {s : Shard} (h : Back w g p s e) (hpq : p <+: q) :
    Back w g q s e := by
  obtain ⟨ha, hback⟩ := h
  have hnum : (state g p).config.num ≤ (state g q).config.num := num_mono hpq
  refine ⟨ha, ?_⟩
  rcases hback with hle | ⟨rfl, hown, hnot⟩
  · exact Or.inl (hle.trans hnum)
  · rcases Nat.lt_or_eq_of_le hnum with hlt | heq
    · exact Or.inl hlt
    · refine Or.inr ⟨by rw [heq], owned_mono hpq hown heq.symm, ?_⟩
      rw [← heq]
      exact hnot

/-- Its new group has issued a request to delete the shard. -/
def Dropped (w : World) (g n : ℕ) (s : Shard) : Prop :=
  ∃ args, ⟨g, n + 1, .deleteShards args⟩ ∈ w.issued ∧ s ∈ args.shards

structure Content (w : World) : Prop where
  /-- A `PUT_SHARDS` comes to the log when the group has come to the configuration before. -/
  timely : ∀ h q args, q ++ [.putShards args] <+: w.logs h →
    ∃ m, ⟨h, m, .putShards args⟩ ∈ w.issued ∧ m ≤ (state h q).config.num + 1
  /-- A shard that a group has before its time has been taken. -/
  early : ∀ h p s, p <+: w.logs h → (state h p).config.shards s = h →
    ¬ w.Assigns (state h p).config.num s h → ∃ v, Handed w h (state h p).config.num s v
  /-- A group moves on when it has taken its new shards. -/
  arrived : ∀ h n s o, Passes w n s o h → n + 1 ≤ w.num h → ∃ v, Handed w h n s v
  kept : ∀ g p s, p <+: w.logs g → (state g p).trace s ≠ .lost ∧
    ((state g p).config.shards s = g → (state g p).trace s = .kept)
  /-- What is put is what the former owner had, or comes too late. -/
  put : ∀ h m args, ⟨h, m, .putShards args⟩ ∈ w.issued → ∀ s v, args.shards.lookup s = some v →
    ∃ n o, m = n + 1 ∧ Passes w n s o h ∧ (Lost w o n s v ∨ ∃ v', Handed w h n s v')
  installed : ∀ h n s v, Handed w h n s v → ∃ o, Passes w n s o h ∧ Lost w o n s v
  /-- A group keeps what it gave away until its new owner has it, or it comes back. -/
  given : ∀ g p n s h, p <+: w.logs g → Passes w n s g h → n + 1 ≤ (state g p).config.num →
    (∃ e, n + 1 < e ∧ Back w g p s e) ∨
    (Lost w g n s ((state g p).store s) ∧ (state g p).config.shards s ≠ g ∧
      ((state g p).trace s = .kept ∨ Dropped w g n s))
  deleted : ∀ g q args s, q ++ [.deleteShards args] <+: w.logs g →
    (state g q).Executes g (.deleteShards args) → s ∈ args.shards →
    (state g q).config.shards s ≠ g →
    ∃ n, ⟨g, n + 1, .deleteShards args⟩ ∈ w.issued ∧ n + 1 ≤ (state g q).config.num ∧
      ∀ e, n + 1 ≤ e → e ≤ (state g q).config.num → ¬ w.Assigns e s g

lemma content_init : Content World.init where
  timely := fun h q args hq => by simp [World.init] at hq
  early := fun h p s hp hs hn => by
    obtain rfl := List.prefix_nil.mp hp
    exact absurd ⟨.initial, rfl, hs⟩ hn
  arrived := fun h n s o _ hn => absurd hn (Nat.not_succ_le_zero n)
  kept := fun g p s hp => by
    obtain rfl := List.prefix_nil.mp hp
    exact ⟨by simp [GroupState.initial], fun _ => rfl⟩
  put := fun h m args hr => by cases hr
  installed := fun h n s v hh => by
    obtain ⟨q, args, hq, -⟩ := hh
    simp [World.init] at hq
  given := fun g p n s h hp _ hn => by
    obtain rfl := List.prefix_nil.mp hp
    exact absurd hn (Nat.not_succ_le_zero n)
  deleted := fun g q args s hq => by simp [World.init] at hq

/-- A server that has put shards to its group: the group has taken them. -/
lemma Content.handed_of_putDone (h : Content w) (ha : Acks w) {k i e n o : ℕ}
    {shards : List Shard} {s : Shard} (hput : w.PutDone k i e (n + 1) shards) (hs : s ∈ shards)
    (hp : Passes w n s o k) : ∃ v, Handed w k n s v := by
  obtain ⟨data, map, seq, hr, hin, hack⟩ := hput
  obtain ⟨q, hq, hex⟩ := ha.executed _ hr _ List.prefix_rfl hack
  obtain ⟨m, hm, hle⟩ := h.timely k q _ hq
  have hmn := ha.unique _ hm _ hr rfl rfl
  obtain rfl : m = n + 1 := congrArg Issue.num hmn
  have hqn : n ≤ (state k q).config.num := Nat.le_of_succ_le_succ hle
  rcases Nat.lt_or_eq_of_le hqn with hlt | heq
  · have hnum : (state k q).config.num ≤ w.num k :=
      num_mono ((List.prefix_append _ _).trans hq)
    exact h.arrived k n s o hp (by omega)
  · by_cases hown : (state k q).config.shards s = k
    · have hnot : ¬ w.Assigns (state k q).config.num s k := fun hn =>
        hp.ne (assigns_unique (heq ▸ hp.before) hn)
      obtain ⟨v, hv⟩ := h.early k q s ((List.prefix_append _ _).trans hq) hown hnot
      exact ⟨v, heq ▸ hv⟩
    · obtain ⟨v, hv⟩ := Finmap.mem_iff.mp (hin s hs)
      exact ⟨v, q, _, hq, hex, heq.symm, hown, hv⟩

/-- A `SET_CONFIG` is issued when the group has taken its new shards. -/
lemma Content.handed_of_set (h : Content w) (ha : Acks w) (hw : Sound w) {k n o : ℕ}
    {args : SetConfigArgs} {s : Shard} (hr : ⟨k, n + 1, .setConfig args⟩ ∈ w.issued)
    (hp : Passes w n s o k) : ∃ v, Handed w k n s v := by
  rcases set_cases hw hr hp with ⟨p, hpre, rfl, hown⟩ | ⟨i, e, shards, hput, hs⟩
  · exact h.early k p s hpre hown fun hn => hp.ne (assigns_unique hp.before hn)
  · exact h.handed_of_putDone ha hput hs hp

/-- A `DELETE_SHARDS` is issued when the new group has taken the shards. -/
lemma Content.handed_of_delete (h : Content w) (ha : Acks w) (hw : Sound w) {g m : ℕ}
    {args : DeleteShardsArgs} {s : Shard} (hr : ⟨g, m, .deleteShards args⟩ ∈ w.issued)
    (hs : s ∈ args.shards) :
    ∃ n k, m = n + 1 ∧ Passes w n s g k ∧ n + 1 ≤ w.num g ∧ ∃ v, Handed w k n s v := by
  have hj := hw.justified _ hr
  obtain ⟨num, shards, seq, client⟩ := args
  cases hj with
  | delete hmov hplan hput =>
    have hp := passes_of_plan hw hmov hplan hs
    have hput' := hput
    rw [hmov.next] at hput'
    exact ⟨_, _, hmov.next, hp, putDone_adopted hw hput' hs hp,
      h.handed_of_putDone ha hput' hs hp⟩

/-- All servers have the content of a shard that no `DELETE_SHARDS` has touched. -/
lemma store_of_kept {g : ℕ} {p : List Op} {kv : ShardKV} {s : Shard} (hkv : Replica g p kv)
    (hkept : (state g p).trace s = .kept) : kv.store s = (state g p).store s := by
  have hfit := hkv.tracks.store s
  rw [hkept] at hfit
  exact hfit

/-- **What a server of the former owner can be asked for.** -/
lemma Content.lost_or_handed (h : Content w) (ha : Acks w) (ho : Owners w) (hw : Sound w)
    {g k n : ℕ} {p : List Op} {kv : ShardKV} {s : Shard} (hp : p <+: w.logs g)
    (hkv : Replica g p kv) (hpass : Passes w n s g k) (hn : n + 1 ≤ (state g p).config.num) :
    Lost w g n s (kv.store s) ∨ ∃ v, Handed w k n s v := by
  have hdrop : Dropped w g n s → ∃ v, Handed w k n s v := by
    rintro ⟨args, hr, hs⟩
    obtain ⟨n', k', hm, hp', -, v, hv⟩ := h.handed_of_delete ha hw hr hs
    obtain rfl : n = n' := by omega
    exact ⟨v, assigns_unique hp'.after hpass.after ▸ hv⟩
  rcases h.given g p n s k hp hpass hn with ⟨e, hlt, hback⟩ | ⟨hlost, -, hkept | hd⟩
  · -- the group has the shard again, so the new owner has had it
    right
    obtain ⟨hae, hreach⟩ := hback.mono hp
    have hmoved := ho.moved k g s (n + 1) e hpass.to_ne_zero hpass.from_ne_zero
      (Ne.symm hpass.ne) hlt hpass.after hae hreach
    exact h.arrived k n s g hpass hmoved.le
  · left
    rwa [store_of_kept hkv hkept]
  · exact Or.inr (hdrop hd)

/-! ### Events -/

lemma passes_of_publish {config : Config} {n o h : ℕ} {s : Shard}
    (hn : n + 1 < w.configs.length) (hp : Passes (w.next (.publish config)) n s o h) :
    Passes w n s o h :=
  ⟨hp.from_ne_zero, hp.to_ne_zero, hp.ne, assigns_of_publish (by omega) hp.before,
    assigns_of_publish hn hp.after⟩

lemma Sound.state_num_lt (hw : Sound w) {g : ℕ} {p : List Op} (hp : p <+: w.logs g) :
    (state g p).config.num < w.configs.length :=
  lt_of_le_of_lt (num_mono hp) (Sound.num_lt hw g)

lemma Dropped.later {g n : ℕ} {s : Shard} (h : Dropped w g n s) (hl : Later w w') :
    Dropped w' g n s := by
  obtain ⟨args, hr, hs⟩ := h
  exact ⟨args, hl.issued _ hr, hs⟩

lemma Content.publish (h : Content w) (hw : Sound w) (config : Config) :
    Content (w.next (.publish config)) := by
  have hl := later_next w (.publish config)
  refine ⟨h.timely, ?_, ?_, h.kept, ?_, ?_, ?_, ?_⟩
  · intro k p s hp hs hn
    exact h.early k p s hp hs fun ha => hn (hl.assigns ha)
  · intro k n s o hp hn
    have hlt := Sound.num_lt hw k
    have hn : n + 1 ≤ w.num k := hn
    exact h.arrived k n s o (passes_of_publish (by omega) hp) hn
  · intro k m args hr s v hv
    obtain ⟨n, o, hm, hp, hor⟩ := h.put k m args hr s v hv
    exact ⟨n, o, hm, hp.later hl, hor⟩
  · intro k n s v hh
    obtain ⟨o, hp, hlost⟩ := h.installed k n s v hh
    exact ⟨o, hp.later hl, hlost⟩
  · intro g p n s k hp hpass hn
    have hlt := Sound.state_num_lt hw hp
    rcases h.given g p n s k hp (passes_of_publish (by omega) hpass) hn with
      ⟨e, he, hae, hback⟩ | hrest
    · refine Or.inl ⟨e, he, hl.assigns hae, ?_⟩
      exact hback.imp_right fun hb => ⟨hb.1, hb.2.1, fun ha => hb.2.2 (assigns_of_publish hlt ha)⟩
    · exact Or.inr hrest
  · intro g q args s hq hex hs hown
    obtain ⟨n, hr, hn, hnot⟩ := h.deleted g q args s hq hex hs hown
    have hlt := Sound.state_num_lt hw ((List.prefix_append _ _).trans hq)
    exact ⟨n, hr, hn, fun e he hle ha => hnot e he hle (assigns_of_publish (by omega) ha)⟩

lemma Content.issue (h : Content w) (ha : Acks w) (ho : Owners w) (hw : Sound w) {r : Issue}
    (hj : w.Justified r) : Content (w.next (.issue r)) := by
  have hl := later_next w (.issue r)
  refine ⟨?_, ?_, ?_, h.kept, ?_, ?_, ?_, ?_⟩
  · intro k q args hq
    obtain ⟨m, hm, hle⟩ := h.timely k q args hq
    exact ⟨m, hl.issued _ hm, hle⟩
  · exact h.early
  · intro k n s o hp hn
    exact h.arrived k n s o (hp.of_configs rfl) hn
  · intro k m args hr s v hv
    rcases List.mem_append.mp hr with hr | hr
    · obtain ⟨n, o, hm, hp, hor⟩ := h.put k m args hr s v hv
      exact ⟨n, o, hm, hp.later hl, hor⟩
    · obtain rfl := List.mem_singleton.mp hr
      obtain ⟨data, map, seq, client⟩ := args
      cases hj with
      | put hmov hplan hg =>
        have hs := hg.mem_iff.mp (Finmap.mem_of_lookup_eq_some hv)
        have hpass := passes_of_plan hw hmov hplan hs
        obtain ⟨p, kv, hp, hkv, hnum, rfl⟩ := hg.read
        rw [hkv.tracks.config, hmov.next] at hnum
        have hval : kv.store s = v := by
          change (kv.getShards _).lookup s = some v at hv
          rw [lookup_getShards, if_pos hs] at hv
          exact Option.some.inj hv
        refine ⟨_, _, hmov.next, hpass.later hl, ?_⟩
        rw [← hval]
        exact h.lost_or_handed ha ho hw hp hkv hpass hnum
  · intro k n s v hh
    obtain ⟨o, hp, hlost⟩ := h.installed k n s v hh
    exact ⟨o, hp.later hl, hlost⟩
  · intro g p n s k hp hpass hn
    rcases h.given g p n s k hp (hpass.of_configs rfl) hn with hback | ⟨hlost, hown, hor⟩
    · exact Or.inl hback
    · exact Or.inr ⟨hlost, hown, hor.imp_right (·.later hl)⟩
  · intro g q args s hq hex hs hown
    obtain ⟨n, hr, hrest⟩ := h.deleted g q args s hq hex hs hown
    exact ⟨n, hl.issued _ hr, hrest⟩

section commit

variable {k : ℕ} {op : Op}

lemma Content.commit_early (h : Content w) (hw : Sound w) (hrule : w.Rule (.commit k op))
    {s : Shard} (hs : ((w.st k).apply k op).config.shards s = k)
    (hn : ¬ w.Assigns ((w.st k).apply k op).config.num s k) :
    ∃ v, Handed (w.next (.commit k op)) k ((w.st k).apply k op).config.num s v := by
  have hl := later_next w (.commit k op)
  have hold : (w.st k).config.shards s = k → ¬ w.Assigns (w.num k) s k →
      ∃ v, Handed (w.next (.commit k op)) k (w.num k) s v := by
    intro hs hn
    obtain ⟨v, hv⟩ := h.early k _ s List.prefix_rfl hs hn
    exact ⟨v, hv.later hl⟩
  rcases config_cases hw hrule with hc | ⟨args, m, rfl, hr, hex, hc⟩ |
    ⟨args, rfl, hr, hex, hc, hpub⟩
  · rw [hc] at hs hn ⊢
    exact hold hs hn
  · rw [hc] at hs hn ⊢
    by_cases hown : (w.st k).config.shards s = k
    · exact hold hown hn
    · dsimp only at hs
      split at hs
      · next hin =>
        obtain ⟨v, hv⟩ := Finmap.mem_iff.mp hin
        exact ⟨v, w.logs k, args, by rw [next_commit_logs], hex, rfl, hown, hv⟩
      · exact absurd hs hown
  · rw [hc] at hs hn
    rw [hw.numbered _ _ hpub] at hn
    exact absurd ⟨_, hpub, hs⟩ hn

lemma Content.commit_arrived (h : Content w) (ha : Acks w) (hw : Sound w)
    (hrule : w.Rule (.commit k op)) {n o : ℕ} {s : Shard} (hp : Passes w n s o k)
    (hn : n + 1 ≤ ((w.st k).apply k op).config.num) :
    ∃ v, Handed (w.next (.commit k op)) k n s v := by
  have hl := later_next w (.commit k op)
  by_cases hle : n + 1 ≤ w.num k
  · obtain ⟨v, hv⟩ := h.arrived k n s o hp hle
    exact ⟨v, hv.later hl⟩
  · rcases config_cases hw hrule with hc | ⟨args, m, rfl, hr, hex, hc⟩ |
      ⟨args, rfl, hr, hex, hc, hpub⟩
    · rw [hc] at hn
      exact absurd hn hle
    · rw [hc] at hn
      exact absurd hn hle
    · rw [hc, hw.numbered _ _ hpub] at hn
      obtain rfl : n = w.num k := by omega
      obtain ⟨v, hv⟩ := h.handed_of_set ha hw hr hp
      exact ⟨v, hv.later hl⟩

/-- The new shards of a group that moves on: it has taken them, or they were at gid `0`. -/
lemma Content.gain_of_zero (h : Content w) (ha : Acks w) (hw : Sound w) {args : SetConfigArgs}
    (hrule : w.Rule (.commit k (.setConfig args)))
    (hlt : (w.st k).config.num < args.config.num) {s : Shard} (hs : args.config.shards s = k)
    (hown : (w.st k).config.shards s ≠ k) : (w.st k).config.shards s = 0 := by
  obtain ⟨hr, hpub⟩ := set_next hw hrule hlt
  by_contra h0
  have hk : k ≠ 0 := by
    have hj := hw.justified _ hr
    obtain ⟨config, seq, client⟩ := args
    generalize w.num k + 1 = m at hj
    cases hj with
    | set hmov _ => exact hmov.ne_zero
  have hp : Passes w (w.num k) s ((w.st k).config.shards s) k :=
    ⟨h0, hk, hown, (hw.tabled k _ List.prefix_rfl).assigns rfl hown, _, hpub, hs⟩
  obtain ⟨v, hv⟩ := h.handed_of_set ha hw hr hp
  exact hown hv.owned

lemma Content.commit_kept (h : Content w) (ha : Acks w) (hw : Sound w)
    (hrule : w.Rule (.commit k op)) (hzero : ZeroGainsKept w (.commit k op)) (s : Shard) :
    ((w.st k).apply k op).trace s ≠ .lost ∧
      (((w.st k).apply k op).config.shards s = k → ((w.st k).apply k op).trace s = .kept) := by
  have hold := h.kept k _ s List.prefix_rfl
  by_cases hown : (w.st k).config.shards s = k
  · rw [(GroupState.owned_cases op hown).1]
    exact ⟨hold.1, fun _ => hold.2 hown⟩
  · cases GroupState.unowned_cases op hown with
    | same hown' _ htrace =>
      rw [htrace]
      exact ⟨hold.1, fun hs => absurd hs hown'⟩
    | put _ _ _ _ htrace =>
      rw [htrace]
      exact ⟨by simp, fun _ => rfl⟩
    | delete _ _ hconfig _ htrace =>
      rw [htrace, hconfig]
      refine ⟨?_, fun hs => absurd hs hown⟩
      cases ht : (w.st k).trace s with
      | kept => simp [Trace.delete]
      | maybe => simp [Trace.delete]
      | lost => exact absurd ht hold.1
    | gain hex hlt hs _ htrace =>
      have hkept : (w.st k).trace s = .kept := by
        have hm := hzero hex hlt s hs (h.gain_of_zero ha hw hrule hlt hs hown)
        cases ht : (w.st k).trace s with
        | kept => rfl
        | maybe => exact absurd ht hm
        | lost => exact absurd ht hold.1
      rw [htrace, hkept]
      exact ⟨by simp [Trace.gain], fun _ => rfl⟩

/-- **The first `PUT_SHARDS` of a hand-off carries the content.** -/
lemma Content.commit_installed (h : Content w) (hw : Sound w) {args : PutShardsArgs}
    (hput : LatePutsIdle w (.commit k (.putShards args))) {m : ℕ}
    (hr : ⟨k, m, .putShards args⟩ ∈ w.issued) (hex : (w.st k).Executes k (.putShards args))
    {s : Shard} {v : Data} (hown : (w.st k).config.shards s ≠ k)
    (hv : args.shards.lookup s = some v) :
    ∃ o, Passes w (w.num k) s o k ∧ Lost w o (w.num k) s v := by
  obtain ⟨hm, -⟩ := taken_of_put hw hput hr hex (Finmap.mem_of_lookup_eq_some hv) hown
  obtain ⟨n, o, hn, hp, hlost | ⟨v', hv'⟩⟩ := h.put k m args hr s v hv
  · obtain rfl : n = w.num k := by omega
    exact ⟨o, hp, hlost⟩
  · obtain rfl : n = w.num k := by omega
    exact absurd hv'.owned hown

lemma Content.commit_deleted (h : Content w) (ha : Acks w) (hw : Sound w)
    {args : DeleteShardsArgs} (hrule : w.Rule (.commit k (.deleteShards args)))
    (hdel : LateDeletesIdle w (.commit k (.deleteShards args)))
    (hex : (w.st k).Executes k (.deleteShards args)) {s : Shard} (hs : s ∈ args.shards)
    (hown : (w.st k).config.shards s ≠ k) :
    ∃ n, ⟨k, n + 1, .deleteShards args⟩ ∈ w.issued ∧ n + 1 ≤ w.num k ∧
      (∃ k', Passes w n s k k') ∧ ∀ e, n + 1 ≤ e → e ≤ w.num k → ¬ w.Assigns e s k := by
  obtain ⟨m, hm⟩ := hw.issued_of_commit hrule id
  obtain ⟨n, k', rfl, hp, hle, -⟩ := h.handed_of_delete ha hw hm hs
  refine ⟨n, hm, hle, ⟨k', hp⟩, fun e he hen hae => ?_⟩
  obtain ⟨c, hc, hck⟩ := hae
  exact hdel hex _ hm rfl rfl s hs hown e hen he c hc hck

lemma Content.commit_given_old (h : Content w) (ha : Acks w) (hw : Sound w)
    (hrule : w.Rule (.commit k op)) (hput : LatePutsIdle w (.commit k op))
    (hdel : LateDeletesIdle w (.commit k op)) {n k' : ℕ} {s : Shard} (hp : Passes w n s k k')
    (hn : n + 1 ≤ w.num k) (hlost : Lost w k n s ((w.st k).store s))
    (hown : (w.st k).config.shards s ≠ k)
    (hor : (w.st k).trace s = .kept ∨ Dropped w k n s) :
    (∃ e, n + 1 < e ∧ Back w k (w.logs k ++ [op]) s e) ∨
    (Lost w k n s ((state k (w.logs k ++ [op])).store s) ∧
      (state k (w.logs k ++ [op])).config.shards s ≠ k ∧
      ((state k (w.logs k ++ [op])).trace s = .kept ∨ Dropped w k n s)) := by
  unfold Back
  rw [state_snoc]
  cases GroupState.unowned_cases op hown with
  | same hown' hstore htrace =>
    right
    change Lost w k n s (((w.st k).apply k op).store s) ∧ _ ∧
      (((w.st k).apply k op).trace s = .kept ∨ _)
    rw [hstore, htrace]
    exact ⟨hlost, hown', hor⟩
  | put hex hs hown' hnum =>
    -- the group takes the shard back
    left
    obtain ⟨m, hm⟩ := hw.issued_of_commit hrule id
    obtain ⟨-, o, hp', -⟩ := taken_of_put hw hput hm hex hs hown
    refine ⟨w.num k + 1, by omega, hp'.after, Or.inr ⟨congrArg (· + 1) hnum.symm, hown', ?_⟩⟩
    intro hak
    change w.Assigns ((w.st k).apply k _).config.num s k at hak
    rw [hnum] at hak
    exact hp'.ne (assigns_unique hp'.before hak)
  | @delete args hex hs hconfig hstore =>
    obtain ⟨n', hr, hn', ⟨k'', hp'⟩, hnot⟩ := h.commit_deleted ha hw hrule hdel hex hs hown
    change (∃ e, _ ∧ _ ∧ (e ≤ ((w.st k).apply k _).config.num ∨ _)) ∨
      (Lost w k n s (((w.st k).apply k _).store s) ∧
        ((w.st k).apply k _).config.shards s ≠ k ∧ _)
    rw [hconfig, hstore]
    -- the request belongs to this loss or to one before a later configuration
    have hle : n ≤ n' := by
      by_contra hlt
      exact hnot n (by omega) (by omega) hp.before
    rcases Nat.lt_or_eq_of_le hle with hlt | rfl
    · have hne : n' ≠ n + 1 := fun heq => hp.ne (assigns_unique (heq ▸ hp'.before) hp.after)
      have hnum : n' ≤ (w.st k).config.num := (Nat.le_succ n').trans hn'
      exact Or.inl ⟨n', by omega, hp'.before, Or.inl hnum⟩
    · exact Or.inr ⟨hlost, hown, Or.inr ⟨args, hr, hs⟩⟩
  | gain hex hlt hs hconfig =>
    left
    obtain ⟨-, hpub⟩ := set_next hw hrule hlt
    refine ⟨w.num k + 1, by omega, ⟨_, hpub, hs⟩, Or.inl ?_⟩
    change _ ≤ ((w.st k).apply k _).config.num
    rw [hconfig]
    exact (hw.numbered _ _ hpub).ge

lemma Content.commit_given (h : Content w) (ha : Acks w) (hw : Sound w)
    (hrule : w.Rule (.commit k op)) (hput : LatePutsIdle w (.commit k op))
    (hdel : LateDeletesIdle w (.commit k op)) {n k' : ℕ} {s : Shard} (hp : Passes w n s k k')
    (hn : n + 1 ≤ ((w.st k).apply k op).config.num) :
    (∃ e, n + 1 < e ∧ Back w k (w.logs k ++ [op]) s e) ∨
    (Lost (w.next (.commit k op)) k n s ((state k (w.logs k ++ [op])).store s) ∧
      (state k (w.logs k ++ [op])).config.shards s ≠ k ∧
      ((state k (w.logs k ++ [op])).trace s = .kept ∨ Dropped w k n s)) := by
  have hl := later_next w (.commit k op)
  by_cases hle : n + 1 ≤ w.num k
  · rcases h.given k _ n s k' List.prefix_rfl hp hle with ⟨e, he, hback⟩ |
      ⟨hlost, hown, hor⟩
    · exact Or.inl ⟨e, he, hback.mono (List.prefix_append _ _)⟩
    · exact (h.commit_given_old ha hw hrule hput hdel hp hle hlost hown hor).imp_right
        fun hr => ⟨hr.1.later hl, hr.2⟩
  · -- the group gives the shard away now
    rcases config_cases hw hrule with hc | ⟨args, m, rfl, hr, hex, hc⟩ |
      ⟨args, rfl, hr, hex, hc, hpub⟩
    · rw [hc] at hn
      exact absurd hn hle
    · rw [hc] at hn
      exact absurd hn hle
    · obtain rfl : n = w.num k := by
        rw [hc, hw.numbered _ _ hpub] at hn
        omega
      right
      have hnum : args.config.num = w.num k + 1 := hw.numbered _ _ hpub
      have hlt : (w.st k).config.num < args.config.num := hnum ▸ Nat.lt_succ_self _
      have hown : (w.st k).config.shards s = k := by
        by_contra hne
        exact hne (assigns_unique ((hw.tabled k _ List.prefix_rfl).assigns rfl hne) hp.before)
      have hkept := (h.kept k _ s List.prefix_rfl).2 hown
      have hnew : args.config.shards s ≠ k := fun hs =>
        hp.ne (assigns_unique ⟨_, hpub, hs⟩ hp.after)
      have happly := GroupState.apply_of_executes hex
      rw [state_snoc]
      refine ⟨⟨w.logs k, .setConfig args, by rw [next_commit_logs], rfl, ?_, hkept, ?_⟩, ?_,
        Or.inl ?_⟩
      · rw [state_snoc]
        exact (congrArg Config.num hc).trans hnum
      · exact (congrFun (congrArg GroupState.store happly) s).symm
      · exact hc ▸ hnew
      · refine (congrFun (congrArg GroupState.trace happly) s).trans ?_
        simp only [follow, if_neg fun hc => hnew (And.left (And.right hc))]
        exact hkept

lemma Content.commit (h : Content w) (ha : Acks w) (hw : Sound w)
    (hrule : w.Rule (.commit k op)) (hput : LatePutsIdle w (.commit k op))
    (hdel : LateDeletesIdle w (.commit k op)) (hzero : ZeroGainsKept w (.commit k op)) :
    Content (w.next (.commit k op)) := by
  have hl := later_next w (.commit k op)
  constructor
  case timely =>
    intro g q args hq
    rcases commit_snoc hq with hq | ⟨rfl, rfl, rfl⟩
    · exact h.timely g q args hq
    · obtain ⟨m, hm⟩ := hw.issued_of_commit hrule id
      refine ⟨m, hm, ?_⟩
      have hj := hw.justified _ hm
      obtain ⟨data, map, seq, client⟩ := args
      cases hj with
      | put hmov _ _ => exact hmov.num_le
  case early =>
    intro g p s hp hs hn
    rcases commit_prefix hp with hp | ⟨rfl, rfl⟩
    · obtain ⟨v, hv⟩ := h.early g p s hp hs hn
      exact ⟨v, hv.later hl⟩
    · rw [state_snoc] at hs hn ⊢
      exact h.commit_early hw hrule hs hn
  case arrived =>
    intro g n s o hp hn
    by_cases hg : g = k
    · subst hg
      rw [World.num, next_commit_st] at hn
      exact h.commit_arrived ha hw hrule (hp.of_configs rfl) hn
    · rw [World.num, next_commit_st_of_ne w op hg] at hn
      obtain ⟨v, hv⟩ := h.arrived g n s o (hp.of_configs rfl) hn
      exact ⟨v, hv.later hl⟩
  case kept =>
    intro g p s hp
    rcases commit_prefix hp with hp | ⟨rfl, rfl⟩
    · exact h.kept g p s hp
    · rw [state_snoc]
      exact h.commit_kept ha hw hrule hzero s
  case put =>
    intro g m args hr s v hv
    obtain ⟨n, o, hm, hp, hor⟩ := h.put g m args hr s v hv
    refine ⟨n, o, hm, hp.later hl, hor.imp (·.later hl) ?_⟩
    rintro ⟨v', hv'⟩
    exact ⟨v', hv'.later hl⟩
  case installed =>
    rintro g n s v ⟨q, args, hq, hex, rfl, hown, hv⟩
    rcases commit_snoc hq with hq | ⟨rfl, rfl, rfl⟩
    · obtain ⟨o, hp, hlost⟩ := h.installed g _ s v ⟨q, args, hq, hex, rfl, hown, hv⟩
      exact ⟨o, hp.later hl, hlost.later hl⟩
    · obtain ⟨m, hm⟩ := hw.issued_of_commit hrule id
      obtain ⟨o, hp, hlost⟩ := h.commit_installed hw hput hm hex hown hv
      exact ⟨o, hp.later hl, hlost.later hl⟩
  case given =>
    intro g p n s k' hp hps hn
    rcases commit_prefix hp with hp | ⟨rfl, rfl⟩
    · rcases h.given g p n s k' hp (hps.of_configs rfl) hn with hback | ⟨hlost, hrest⟩
      · exact Or.inl hback
      · exact Or.inr ⟨hlost.later hl, hrest⟩
    · rw [state_snoc] at hn
      exact h.commit_given ha hw hrule hput hdel (hps.of_configs rfl) hn
  case deleted =>
    intro g q args s hq hex hs hown
    rcases commit_snoc hq with hq | ⟨rfl, rfl, rfl⟩
    · exact h.deleted g q args s hq hex hs hown
    · obtain ⟨n, hr, hn, -, hnot⟩ := h.commit_deleted ha hw hrule hdel hex hs hown
      exact ⟨n, hr, hn, hnot⟩

end commit

theorem Content.next (h : Content w) (ha : Acks w) (ho : Owners w) (hw : Sound w) {ev : Event}
    (hrule : w.Rule ev) (hput : LatePutsIdle w ev) (hdel : LateDeletesIdle w ev)
    (hzero : ZeroGainsKept w ev) : Content (w.next ev) := by
  cases ev with
  | publish config => exact h.publish hw config
  | ask op =>
    have hl := later_next w (.ask op)
    refine ⟨h.timely, h.early, fun k n s o hp => h.arrived k n s o (hp.of_configs rfl), h.kept,
      fun k m args hr s v hv => ?_, fun k n s v hh => ?_,
      fun g p n s k hp hps => h.given g p n s k hp (hps.of_configs rfl), h.deleted⟩
    · obtain ⟨n, o, hm, hp, hor⟩ := h.put k m args hr s v hv
      exact ⟨n, o, hm, hp.later hl, hor⟩
    · obtain ⟨o, hp, hlost⟩ := h.installed k n s v hh
      exact ⟨o, hp.later hl, hlost⟩
  | issue r => exact h.issue ha ho hw hrule.1
  | commit g op => exact h.commit ha hw hrule hput hdel hzero

/-! ### What servers take and erase -/

lemma gain_cases {h : ℕ} {p : List Op} {op : Op} {s : Shard}
    (hbefore : (state h p).config.shards s ≠ h)
    (hafter : (state h (p ++ [op])).config.shards s = h) :
    (state h p).Executes h op ∧
      ((∃ args, op = .putShards args ∧ s ∈ args.shards) ∨
        ∃ args, op = .setConfig args ∧ (state h p).config.num < args.config.num ∧
          args.config.shards s = h) := by
  rw [state_snoc] at hafter
  cases GroupState.unowned_cases op hbefore with
  | same hown => exact absurd hafter hown
  | put hex hs => exact ⟨hex, Or.inl ⟨_, rfl, hs⟩⟩
  | delete _ _ hconfig =>
    rw [hconfig] at hafter
    exact absurd hafter hbefore
  | gain hex hlt hs => exact ⟨hex, Or.inr ⟨_, rfl, hlt, hs⟩⟩

/-- The group starts to have the shard with the content that the former owner had when it moved on
from the same configuration. -/
def TakesExactly (w : World) (h : ℕ) (p : List Op) (op : Op) (s : Shard) : Prop :=
  ∃ g v, Passes w (state h p).config.num s g h ∧
    (∀ kv, Replica h p kv → (kv.applyOp op).store s = v) ∧
    ∃ q op', q ++ [op'] <+: w.logs g ∧ (state g q).config.num = (state h p).config.num ∧
      (state g (q ++ [op'])).config.num = (state h p).config.num + 1 ∧
      ∀ kv, Replica g q kv → kv.store s = v

/-- A server that takes a shard has the content that is put. -/
lemma store_of_put {k : ℕ} {p : List Op} {kv : ShardKV} {args : PutShardsArgs} {s : Shard}
    {v : Data} (hkv : Replica k p kv) (hex : (state k p).Executes k (.putShards args))
    (hown : (state k p).config.shards s ≠ k) (hv : args.shards.lookup s = some v) :
    (kv.applyOp (.putShards args)).store s = v := by
  have hkv' : Replica k (p ++ [.putShards args]) (kv.applyOp (.putShards args)) :=
    hkv.applyOp _ trivial
  have hst := GroupState.apply_of_executes hex
  rw [store_of_kept hkv' _, state_snoc, hst]
  · simp only [keep, hv, if_neg hown]
  · rw [state_snoc, hst]
    exact if_pos ⟨Finmap.mem_of_lookup_eq_some hv, hown⟩

lemma Content.takes_put (h : Content w) {k : ℕ} {p : List Op} {args : PutShardsArgs} {s : Shard}
    (hp : p ++ [.putShards args] <+: w.logs k) (hex : (state k p).Executes k (.putShards args))
    (hs : s ∈ args.shards) (hown : (state k p).config.shards s ≠ k) :
    TakesExactly w k p (.putShards args) s := by
  obtain ⟨v, hv⟩ := Finmap.mem_iff.mp hs
  obtain ⟨o, hpass, q, op', hq, hn, hn1, hkept, rfl⟩ :=
    h.installed k _ s v ⟨p, args, hp, hex, rfl, hown, hv⟩
  exact ⟨o, _, hpass, fun kv hkv => store_of_put hkv hex hown hv, q, op', hq, hn, hn1,
    fun kv hkv => store_of_kept hkv hkept⟩

/-- **A group starts to have a shard with the content of the former owner**, unless the shard was
at gid `0`. -/
theorem Content.takes (h : Content w) (hw : Sound w) {k : ℕ} {p : List Op} {op : Op} {s : Shard}
    (hp : p ++ [op] <+: w.logs k) (hbefore : (state k p).config.shards s ≠ k)
    (hafter : (state k (p ++ [op])).config.shards s = k) :
    w.Assigns (state k p).config.num s 0 ∨ TakesExactly w k p op s := by
  have hpre : p <+: w.logs k := (List.prefix_append _ _).trans hp
  obtain ⟨hex, ⟨args, rfl, hs⟩ | ⟨args, rfl, hlt, hs⟩⟩ := gain_cases hbefore hafter
  · exact Or.inr (h.takes_put hp hex hs hbefore)
  · by_cases h0 : (state k p).config.shards s = 0
    · left
      have ha := (hw.tabled k p hpre).assigns rfl hbefore
      rwa [h0] at ha
    · -- a group that moves on has taken the shard before
      exfalso
      have hst : (state k (p ++ [.setConfig args])).config = args.config := by
        rw [state_snoc, GroupState.apply_of_executes hex]
        exact if_pos hlt
      have hnum : args.config.num = (state k p).config.num + 1 := by
        have := hw.byOne k p _ hp
        rw [hst] at this
        omega
      rcases hw.origin k (.setConfig args) (hp.subset (by simp)) with hask | ⟨m, hm⟩
      · exact hw.asked _ hask
      · have hj := hw.justified _ hm
        obtain ⟨config, seq, client⟩ := args
        cases hj with
        | set hmov _ =>
          have hpub := hmov.published
          rw [hnum] at hpub
          have hpass : Passes w (state k p).config.num s ((state k p).config.shards s) k :=
            ⟨h0, hmov.ne_zero, hbefore, (hw.tabled k p hpre).assigns rfl hbefore, _, hpub, hs⟩
          have hle : (state k p).config.num + 1 ≤ w.num k := by
            rw [← hnum, ← hst]
            exact num_mono hp
          obtain ⟨v, q, args', hq, hex', hn, -, hv⟩ := h.arrived k _ s _ hpass hle
          rcases prefix_trichotomy hp hq with ⟨-, heq⟩ | hlt' | hlt'
          · cases heq
          · have hmono : (state k (p ++ [_])).config.num ≤ (state k q).config.num :=
              num_mono hlt'
            rw [hst] at hmono
            omega
          · exact hbefore (owned_of_put hlt' hex' hv hn.symm)

/-- The content has been taken by the group that the shard went to when the group last lost it. -/
def TakenOver (w : World) (g : ℕ) (q : List Op) (s : Shard) (v : Data) : Prop :=
  ∃ n k, n + 1 ≤ (state g q).config.num ∧ Passes w n s g k ∧
    (∀ e, n + 1 ≤ e → e ≤ (state g q).config.num → ¬ w.Assigns e s g) ∧
    ∃ q' args, q' ++ [.putShards args] <+: w.logs k ∧
      (state k q').Executes k (.putShards args) ∧ (state k q').config.shards s ≠ k ∧
      args.shards.lookup s = some v

lemma erases_cases {g : ℕ} {q : List Op} {kv : ShardKV} {args : DeleteShardsArgs} {s : Shard}
    (hkv : Replica g q kv) (hne : kv.store s ≠ (kv.applyOp (.deleteShards args)).store s) :
    (state g q).Executes g (.deleteShards args) ∧ s ∈ args.shards ∧
      (state g q).config.shards s ≠ g := by
  have ht := hkv.tracks
  by_cases hdone : mark kv.clientStatusMap args.clientId < args.seqNum
  · refine ⟨⟨by rw [← ht.mark]; exact hdone, id⟩, ?_⟩
    rw [applyOp_of_executes hdone id] at hne
    change kv.store s ≠ ((kv.getClientStatus args.clientId).deleteShards args.configNum
      args.shards).store s at hne
    simp only [ShardKV.deleteShards] at hne
    split at hne
    · next hc => exact ⟨hc.1, by rw [← ht.config]; exact ht.gid ▸ hc.2.1⟩
    · exact absurd rfl hne
  · rw [applyOp_of_not (Or.inl (Nat.not_lt.mp hdone))] at hne
    exact absurd rfl hne

/-- **What a server erases has been taken over.** -/
theorem Content.erases (h : Content w) (ha : Acks w) (hw : Sound w) {g : ℕ} {q : List Op}
    {args : DeleteShardsArgs} {s : Shard} {kv : ShardKV}
    (hq : q ++ [.deleteShards args] <+: w.logs g) (hkv : Replica g q kv)
    (hne : kv.store s ≠ ∅) (hempty : (kv.applyOp (.deleteShards args)).store s = ∅) :
    TakenOver w g q s (kv.store s) := by
  have hpre : q <+: w.logs g := (List.prefix_append _ _).trans hq
  obtain ⟨hex, hs, hown⟩ := erases_cases hkv (hempty ▸ hne)
  obtain ⟨n, hr, hn, hnot⟩ := h.deleted g q args s hq hex hs hown
  obtain ⟨n', k, heq, hpass, -, v, hv⟩ := h.handed_of_delete ha hw hr hs
  obtain rfl : n = n' := by omega
  obtain ⟨o, hpass', hlost⟩ := h.installed k n s v hv
  obtain rfl := assigns_unique hpass.before hpass'.before
  have hstore : kv.store s = v := by
    rcases h.given g q n s k hpre hpass hn with ⟨e, he, hae, hle | ⟨-, hown', -⟩⟩ | ⟨hlost', -⟩
    · exact absurd hae (hnot e (by omega) hle)
    · exact absurd hown' hown
    · rw [hlost.unique hlost']
      have hfit := hkv.tracks.store s
      cases ht : (state g q).trace s with
      | kept => exact store_of_kept hkv ht
      | maybe =>
        rw [ht] at hfit
        exact hfit.resolve_right hne
      | lost => exact absurd ht (h.kept g q s hpre).1
  obtain ⟨q', args', hq', hex', -, hown', hv'⟩ := hv
  exact ⟨n, k, hn, hpass, hnot, q', args', hq', hex', hown', hstore ▸ hv'⟩

end Mit6824.ShardContent
