import Mit6824.Runs
import Mit6824.ShardReplica

/-!
The migration of shards as a protocol between the logs of the groups.

A world has the published configurations, the log of each group, the operations that clerks have
asked for and the requests that servers have issued to groups. A server issues a request on
account of what it has read of its own log and what it was answered from the logs of other groups,
and such knowledge never becomes wrong, since logs only grow. What is committed to a log was asked
for or issued to that group before; when, and how often, is left open.
-/

namespace Mit6824.ShardProtocol

open Mit6824.GoData Mit6824.ShardServer Mit6824.ShardReplica Mit6824.Runs Function

/-- A request of a server that moves to a configuration, and the group it is for. -/
structure Issue where
  dst : ℕ
  /-- The number of the configuration. -/
  num : ℕ
  op : Op

structure World where
  configs : List Config
  logs : ℕ → List Op
  asked : List Op
  issued : List Issue

inductive Event
  | publish (config : Config)
  | ask (op : Op)
  | issue (r : Issue)
  | commit (g : ℕ) (op : Op)

namespace World

def init : World := ⟨[.initial], fun _ => [], [], []⟩

def next (w : World) : Event → World
  | .publish config => { w with configs := w.configs ++ [config] }
  | .ask op => { w with asked := w.asked ++ [op] }
  | .issue r => { w with issued := w.issued ++ [r] }
  | .commit g op => { w with logs := update w.logs g (w.logs g ++ [op]) }

def st (w : World) (g : ℕ) : GroupState := state g (w.logs g)

def num (w : World) (g : ℕ) : ℕ := (w.st g).config.num

def Assigns (w : World) (n : ℕ) (s : Shard) (g : ℕ) : Prop :=
  ∃ c, w.configs[n]? = some c ∧ c.shards s = g

/-- The request is done at the group. -/
def Acked (w : World) (g : ℕ) (c : ClientId) (n : ℕ) : Prop := n ≤ (w.st g).marks c

/-- A server of the group has read the old configuration off its log, and the new one is the
next. -/
structure Moving (w : World) (h : ℕ) (old new : Config) : Prop where
  ne_zero : h ≠ 0
  read : ∃ p, p <+: w.logs h ∧ (state h p).config = old
  next : new.num = old.num + 1
  published : w.configs[new.num]? = some new

/-- A server of the group that had adopted the configuration with the number has answered with
the shards, and a server of the group with numbers. -/
structure Given (w : World) (o m : ℕ) (shards : List Shard) (data : GoMap Shard Data)
    (map : GoMap ClientId ℕ) : Prop where
  read : ∃ p kv, p <+: w.logs o ∧ Replica o p kv ∧ m ≤ kv.config.num ∧ data = kv.getShards shards
  marks : ∀ c, mark map c ≤ (w.st o).marks c

/-- The server has put the shards to its own group. -/
def PutDone (w : World) (h i e m : ℕ) (shards : List Shard) : Prop :=
  ∃ data map seq, ⟨h, m, .putShards ⟨data, map, seq, .server h i e⟩⟩ ∈ w.issued ∧
    (∀ s ∈ shards, s ∈ data) ∧ w.Acked h (.server h i e) seq

/-- What a server issues requests on account of. -/
inductive Justified (w : World) : Issue → Prop
  | get {h i e o seq : ℕ} {old new : Config} {shards : List Shard} : w.Moving h old new →
      (getMigrationFromGroupShardsMap h old new).lookup o = some shards →
      Justified w ⟨o, new.num, .getShards ⟨new.num, shards, seq, .server h i e⟩⟩
  | put {h i e o seq : ℕ} {old new : Config} {shards : List Shard} {data : GoMap Shard Data}
      {map : GoMap ClientId ℕ} : w.Moving h old new →
      (getMigrationFromGroupShardsMap h old new).lookup o = some shards →
      w.Given o new.num shards data map →
      Justified w ⟨h, new.num, .putShards ⟨data, map, seq, .server h i e⟩⟩
  | delete {h i e o seq : ℕ} {old new : Config} {shards : List Shard} : w.Moving h old new →
      (getMigrationFromGroupShardsMap h old new).lookup o = some shards →
      w.PutDone h i e new.num shards →
      Justified w ⟨o, new.num, .deleteShards ⟨new.num, shards, seq, .server h i e⟩⟩
  | set {h i e seq : ℕ} {old new : Config} : w.Moving h old new →
      (∀ o shards, 0 < old.num →
        (getMigrationFromGroupShardsMap h old new).lookup o = some shards →
        w.PutDone h i e new.num shards) →
      Justified w ⟨h, new.num, .setConfig ⟨new, seq, .server h i e⟩⟩

/-- A server numbers its requests, and has one request at a time to each group. -/
def InLine (w : World) (r : Issue) : Prop :=
  0 < r.op.seqNum ∧ ∀ r' ∈ w.issued, r'.op.clientId = r.op.clientId →
    r'.op.seqNum < r.op.seqNum ∧ (r'.dst = r.dst → w.Acked r'.dst r'.op.clientId r'.op.seqNum)

def IsAsked : Op → Prop
  | .putAppend args => (∃ n, args.clientId = .clerk n) ∧ 0 < args.seqNum
  | .get args => (∃ n, args.clientId = .clerk n) ∧ 0 < args.seqNum
  | _ => False

def Rule (w : World) : Event → Prop
  | .publish config => config.num = w.configs.length
  | .ask op => IsAsked op
  | .issue r => w.Justified r ∧ w.InLine r
  | .commit g op => op ∈ w.asked ∨ ∃ m, ⟨g, m, op⟩ ∈ w.issued

open Classical in
/-- One event; `none` if the rules forbid it. -/
noncomputable def step (w : World) (ev : Event) : Option World :=
  if w.Rule ev then some (w.next ev) else none

lemma step_eq_some {w w' : World} {ev : Event} :
    w.step ev = some w' ↔ w.Rule ev ∧ w' = w.next ev := by
  unfold step
  split
  · next h => simp [h, eq_comm]
  · next h => simp [h]

end World

open World

/-! ### Knowledge -/

/-- The second world has everything the first has. -/
structure Later (w w' : World) : Prop where
  configs : w.configs <+: w'.configs
  logs : ∀ g, w.logs g <+: w'.logs g
  asked : ∀ op ∈ w.asked, op ∈ w'.asked
  issued : ∀ r ∈ w.issued, r ∈ w'.issued

variable {w w' : World}

lemma Later.refl (w : World) : Later w w :=
  ⟨List.prefix_rfl, fun _ => List.prefix_rfl, fun _ h => h, fun _ h => h⟩

lemma later_next (w : World) (ev : Event) : Later w (w.next ev) := by
  cases ev with
  | publish config =>
    exact ⟨List.prefix_append _ _, fun _ => List.prefix_rfl, fun _ h => h, fun _ h => h⟩
  | ask op =>
    exact ⟨List.prefix_rfl, fun _ => List.prefix_rfl, fun _ h => List.mem_append_left _ h,
      fun _ h => h⟩
  | issue r =>
    exact ⟨List.prefix_rfl, fun _ => List.prefix_rfl, fun _ h => h,
      fun _ h => List.mem_append_left _ h⟩
  | commit g op =>
    refine ⟨List.prefix_rfl, fun g' => ?_, fun _ h => h, fun _ h => h⟩
    show w.logs g' <+: update w.logs g (w.logs g ++ [op]) g'
    by_cases hg : g' = g
    · subst hg
      rw [update_self]
      exact List.prefix_append _ _
    · rw [update_of_ne hg]

lemma Later.config (h : Later w w') {n : ℕ} {c : Config} (hc : w.configs[n]? = some c) :
    w'.configs[n]? = some c := by
  obtain ⟨rest, hrest⟩ := h.configs
  rw [← hrest, List.getElem?_append_left (List.getElem?_eq_some_iff.mp hc).1, hc]

lemma Later.assigns (h : Later w w') {n g : ℕ} {s : Shard} (ha : w.Assigns n s g) :
    w'.Assigns n s g := by
  obtain ⟨c, hc, hs⟩ := ha
  exact ⟨c, h.config hc, hs⟩

lemma Later.num_le (h : Later w w') (g : ℕ) : w.num g ≤ w'.num g := num_mono (h.logs g)

lemma Later.marks_le (h : Later w w') (g : ℕ) (c : ClientId) :
    (w.st g).marks c ≤ (w'.st g).marks c := marks_mono (h.logs g) c

lemma Later.acked (h : Later w w') {g n : ℕ} {c : ClientId} (ha : w.Acked g c n) :
    w'.Acked g c n := le_trans ha (h.marks_le g c)

lemma Later.moving (h : Later w w') {g : ℕ} {old new : Config} (hm : w.Moving g old new) :
    w'.Moving g old new := by
  obtain ⟨p, hp, hold⟩ := hm.read
  exact ⟨hm.ne_zero, ⟨p, hp.trans (h.logs g), hold⟩, hm.next, h.config hm.published⟩

lemma Later.given (h : Later w w') {o m : ℕ} {shards : List Shard} {data : GoMap Shard Data}
    {map : GoMap ClientId ℕ} (hg : w.Given o m shards data map) : w'.Given o m shards data map := by
  obtain ⟨p, kv, hp, hkv⟩ := hg.read
  exact ⟨⟨p, kv, hp.trans (h.logs o), hkv⟩, fun c => (hg.marks c).trans (h.marks_le o c)⟩

lemma Later.putDone (h : Later w w') {g i e m : ℕ} {shards : List Shard}
    (hp : w.PutDone g i e m shards) : w'.PutDone g i e m shards := by
  obtain ⟨data, map, seq, hin, hs, hack⟩ := hp
  exact ⟨data, map, seq, h.issued _ hin, hs, h.acked hack⟩

lemma Later.justified (h : Later w w') {r : Issue} (hr : w.Justified r) : w'.Justified r := by
  cases hr with
  | get hm hplan => exact .get (h.moving hm) hplan
  | put hm hplan hg => exact .put (h.moving hm) hplan (h.given hg)
  | delete hm hplan hp => exact .delete (h.moving hm) hplan (h.putDone hp)
  | set hm hp => exact .set (h.moving hm) fun o shards h0 hplan => h.putDone (hp o shards h0 hplan)

lemma Later.rule (h : Later w w') {g : ℕ} {op : Op} (hr : w.Rule (.commit g op)) :
    w'.Rule (.commit g op) := by
  rcases hr with hask | ⟨m, hm⟩
  · exact Or.inl (h.asked _ hask)
  · exact Or.inr ⟨m, h.issued _ hm⟩

lemma assigns_unique {n g g' : ℕ} {s : Shard} (h : w.Assigns n s g) (h' : w.Assigns n s g') :
    g = g' := by
  obtain ⟨c, hc, rfl⟩ := h
  obtain ⟨c', hc', rfl⟩ := h'
  rw [hc] at hc'
  rw [Option.some.inj hc']

lemma World.Moving.num_le {g : ℕ} {old new : Config} (h : w.Moving g old new) :
    new.num ≤ w.num g + 1 := by
  obtain ⟨p, hp, rfl⟩ := h.read
  have hle : (state g p).config.num ≤ w.num g := num_mono hp
  have := h.next
  omega

/-- The group that answered has adopted the configuration. -/
lemma World.Given.num_le {o m : ℕ} {shards : List Shard} {data : GoMap Shard Data}
    {map : GoMap ClientId ℕ} (h : w.Given o m shards data map) : m ≤ w.num o := by
  obtain ⟨p, kv, hp, hkv, hm, -⟩ := h.read
  rw [hkv.tracks.config] at hm
  exact hm.trans (num_mono hp)

lemma World.Given.mem_iff {o m : ℕ} {shards : List Shard} {data : GoMap Shard Data}
    {map : GoMap ClientId ℕ} (h : w.Given o m shards data map) {s : Shard} :
    s ∈ data ↔ s ∈ shards := by
  obtain ⟨p, kv, -, -, -, rfl⟩ := h.read
  rw [← Finmap.lookup_isSome, lookup_getShards]
  split <;> simp [*]

lemma World.Justified.server {r : Issue} (h : w.Justified r) :
    ∃ g i e, r.op.clientId = .server g i e := by
  cases h <;> exact ⟨_, _, _, rfl⟩

lemma clerk_of_isAsked {op : Op} (h : IsAsked op) : ∃ n, op.clientId = .clerk n := by
  cases op with
  | putAppend args => exact h.1
  | get args => exact h.1
  | _ => exact absurd h id

/-! ### What holds in every run -/

/-- The table of a group is the published one with the number of its configuration, but for
shards that it has taken. -/
def Tabled (w : World) (g : ℕ) (config : Config) : Prop :=
  ∃ c, w.configs[config.num]? = some c ∧ ∀ s, config.shards s = c.shards s ∨ config.shards s = g

structure Sound (w : World) : Prop where
  initial : w.configs[0]? = some .initial
  numbered : ∀ n (c : Config), w.configs[n]? = some c → c.num = n
  asked : ∀ op ∈ w.asked, IsAsked op
  justified : ∀ r ∈ w.issued, w.Justified r
  origin : ∀ g, ∀ op ∈ w.logs g, op ∈ w.asked ∨ ∃ m, ⟨g, m, op⟩ ∈ w.issued
  tabled : ∀ g p, p <+: w.logs g → Tabled w g (state g p).config
  byOne : ∀ g p op, p ++ [op] <+: w.logs g →
    (state g (p ++ [op])).config.num ≤ (state g p).config.num + 1

lemma sound_init : Sound World.init where
  initial := rfl
  numbered := fun n c h => by
    cases n with
    | zero => rw [← Option.some.inj h]; rfl
    | succ n => cases h
  asked := fun _ h => by cases h
  justified := fun _ h => by cases h
  origin := fun _ _ h => by cases h
  tabled := fun g p hp => by
    obtain rfl := List.prefix_nil.mp hp
    exact ⟨.initial, rfl, fun _ => Or.inl rfl⟩
  byOne := fun g p op hp => by simp [World.init] at hp

lemma prefix_snoc {p log : List Op} {op : Op} (h : p <+: log ++ [op]) :
    p <+: log ∨ p = log ++ [op] := by
  rcases List.prefix_concat_iff.mp h with h | h
  · exact Or.inr h
  · exact Or.inl h

lemma prefix_trichotomy {p q log : List Op} {op op' : Op} (hp : p ++ [op] <+: log)
    (hq : q ++ [op'] <+: log) : (p = q ∧ op = op') ∨ p ++ [op] <+: q ∨ q ++ [op'] <+: p := by
  rcases List.prefix_or_prefix_of_prefix hp hq with h | h
  · rcases prefix_snoc h with h | h
    · exact Or.inr (Or.inl h)
    · obtain ⟨rfl, h'⟩ := List.append_inj' h rfl
      exact Or.inl ⟨rfl, List.singleton_inj.mp h'⟩
  · rcases prefix_snoc h with h | h
    · exact Or.inr (Or.inr h)
    · obtain ⟨rfl, h'⟩ := List.append_inj' h rfl
      exact Or.inl ⟨rfl, (List.singleton_inj.mp h').symm⟩

@[simp] lemma next_commit_logs (w : World) (g : ℕ) (op : Op) :
    (w.next (.commit g op)).logs g = w.logs g ++ [op] := update_self _ _ _

lemma next_commit_logs_of_ne (w : World) {g g' : ℕ} (op : Op) (h : g' ≠ g) :
    (w.next (.commit g op)).logs g' = w.logs g' := update_of_ne h _ _

lemma commit_prefix {g k : ℕ} {p : List Op} {op : Op}
    (hp : p <+: (w.next (.commit k op)).logs g) :
    p <+: w.logs g ∨ (g = k ∧ p = w.logs k ++ [op]) := by
  by_cases hg : g = k
  · subst hg
    rw [next_commit_logs] at hp
    exact (prefix_snoc hp).imp_right fun hp => ⟨rfl, hp⟩
  · rw [next_commit_logs_of_ne w op hg] at hp
    exact Or.inl hp

lemma commit_snoc {g k : ℕ} {p : List Op} {op op' : Op}
    (hp : p ++ [op'] <+: (w.next (.commit k op)).logs g) :
    p ++ [op'] <+: w.logs g ∨ (g = k ∧ p = w.logs k ∧ op' = op) := by
  rcases commit_prefix hp with hp | ⟨rfl, heq⟩
  · exact Or.inl hp
  · obtain ⟨rfl, hop⟩ := List.append_inj' heq rfl
    exact Or.inr ⟨rfl, rfl, List.singleton_inj.mp hop⟩

@[simp] lemma next_commit_st (w : World) (g : ℕ) (op : Op) :
    (w.next (.commit g op)).st g = (w.st g).apply g op := by
  rw [World.st, next_commit_logs, state_snoc, World.st]

lemma next_commit_st_of_ne (w : World) {g g' : ℕ} (op : Op) (h : g' ≠ g) :
    (w.next (.commit g op)).st g' = w.st g' := by
  rw [World.st, next_commit_logs_of_ne w op h, World.st]

/-- What no clerk asks for was issued by a server. -/
lemma Sound.issued_of_commit (hw : Sound w) {g : ℕ} {op : Op} (hrule : w.Rule (.commit g op))
    (hop : ¬ IsAsked op) : ∃ m, ⟨g, m, op⟩ ∈ w.issued :=
  hrule.resolve_left fun hask => hop (hw.asked _ hask)

lemma Sound.issued_of_server (hw : Sound w) {g h i e : ℕ} {op : Op}
    (hrule : w.Rule (.commit g op)) (hc : op.clientId = .server h i e) :
    ∃ m, ⟨g, m, op⟩ ∈ w.issued := by
  refine hw.issued_of_commit hrule fun hop => ?_
  obtain ⟨n, hn⟩ := clerk_of_isAsked hop
  rw [hn] at hc
  cases hc

/-- A configuration that is adopted is the next published one, since its sender had read the one
before off the same log. -/
lemma set_next (hw : Sound w) {g : ℕ} {args : SetConfigArgs}
    (hrule : w.Rule (.commit g (.setConfig args)))
    (hlt : (w.st g).config.num < args.config.num) :
    ⟨g, w.num g + 1, .setConfig args⟩ ∈ w.issued ∧
      w.configs[w.num g + 1]? = some args.config := by
  obtain ⟨m, hm⟩ := hw.issued_of_commit hrule id
  have hj := hw.justified _ hm
  obtain ⟨config, seq, client⟩ := args
  cases hj with
  | set hmov _ =>
    have hnum : config.num = w.num g + 1 := le_antisymm hmov.num_le hlt
    have hpub := hmov.published
    rw [hnum] at hpub hm
    exact ⟨hm, hpub⟩

/-- **What a committed command does to the configuration of its group**: nothing, it takes shards,
or it is the next published configuration. -/
lemma config_cases (hw : Sound w) {g : ℕ} {op : Op} (hrule : w.Rule (.commit g op)) :
    ((w.st g).apply g op).config = (w.st g).config ∨
    (∃ args m, op = .putShards args ∧ ⟨g, m, op⟩ ∈ w.issued ∧ (w.st g).Executes g op ∧
      ((w.st g).apply g op).config = { (w.st g).config with
        shards := fun s => if s ∈ args.shards then g else (w.st g).config.shards s }) ∨
    (∃ args, op = .setConfig args ∧ ⟨g, w.num g + 1, op⟩ ∈ w.issued ∧ (w.st g).Executes g op ∧
      ((w.st g).apply g op).config = args.config ∧
      w.configs[w.num g + 1]? = some args.config) := by
  by_cases hex : (w.st g).Executes g op
  · cases op with
    | putShards args =>
      obtain ⟨m, hm⟩ := hw.issued_of_commit hrule id
      refine Or.inr (Or.inl ⟨args, m, rfl, hm, hex, ?_⟩)
      rw [GroupState.apply_of_executes hex]
      rfl
    | setConfig args =>
      by_cases hlt : (w.st g).config.num < args.config.num
      · obtain ⟨hm, hpub⟩ := set_next hw hrule hlt
        refine Or.inr (Or.inr ⟨args, rfl, hm, hex, ?_, hpub⟩)
        rw [GroupState.apply_of_executes hex]
        exact if_pos hlt
      · left
        rw [GroupState.apply_of_executes hex]
        exact if_neg hlt
    | _ =>
      left
      rw [GroupState.apply_of_executes hex]
      rfl
  · left
    rw [GroupState.apply_of_not hex]

lemma Sound.assigns_zero (hw : Sound w) (s : Shard) : w.Assigns 0 s 0 := ⟨_, hw.initial, rfl⟩

/-- What a group reads in its table is the published owner, or itself. -/
lemma Tabled.assigns {g o : ℕ} {config : Config} {s : Shard} (h : Tabled w g config)
    (hs : config.shards s = o) (ho : o ≠ g) : w.Assigns config.num s o := by
  obtain ⟨c, hc, hor⟩ := h
  refine ⟨c, hc, ?_⟩
  rcases hor s with h' | h'
  · rw [← h', hs]
  · exact absurd (hs.symm.trans h') ho

lemma Later.tabled (h : Later w w') {g : ℕ} {config : Config} (ht : Tabled w g config) :
    Tabled w' g config := by
  obtain ⟨c, hc, hs⟩ := ht
  exact ⟨c, h.config hc, hs⟩

lemma Sound.commit (hw : Sound w) {g : ℕ} {op : Op} (hrule : w.Rule (.commit g op)) :
    Sound (w.next (.commit g op)) := by
  have hl := later_next w (.commit g op)
  have hcases := config_cases hw hrule
  have hnow := hw.tabled g _ List.prefix_rfl
  refine ⟨hw.initial, hw.numbered, hw.asked, fun r hr => hl.justified (hw.justified r hr),
    ?_, ?_, ?_⟩
  · intro g' op' hin
    by_cases hg : g' = g
    · subst hg
      rw [next_commit_logs] at hin
      rcases List.mem_append.mp hin with hin | hin
      · exact hw.origin g' op' hin
      · obtain rfl := List.mem_singleton.mp hin
        exact hrule
    · rw [next_commit_logs_of_ne w op hg] at hin
      exact hw.origin g' op' hin
  · intro g' p hp
    rcases commit_prefix hp with hp | ⟨rfl, rfl⟩
    · exact hl.tabled (hw.tabled g' p hp)
    · rw [state_snoc]
      rcases hcases with hc | ⟨args, m, rfl, -, -, hc⟩ | ⟨args, rfl, -, -, hc, hpub⟩
      · rw [World.st] at hc
        rw [hc]
        exact hl.tabled hnow
      · rw [World.st] at hc
        rw [hc]
        obtain ⟨c, hc', hs⟩ := hl.tabled hnow
        refine ⟨c, hc', fun s => ?_⟩
        dsimp only
        split
        · exact Or.inr rfl
        · exact hs s
      · rw [World.st] at hc
        rw [hc]
        have hn := hw.numbered _ _ hpub
        exact ⟨args.config, by rw [hn]; exact hl.config hpub, fun _ => Or.inl rfl⟩
  · intro g' p op' hp
    rcases commit_snoc hp with hp | ⟨rfl, rfl, rfl⟩
    · exact hw.byOne g' p op' hp
    · rw [state_snoc]
      rcases hcases with hc | ⟨args, m, rfl, -, -, hc⟩ | ⟨args, rfl, -, -, hc, hpub⟩
      · rw [World.st] at hc
        rw [hc]
        omega
      · rw [World.st] at hc
        rw [hc]
        exact Nat.le_succ _
      · rw [World.st] at hc
        rw [hc, hw.numbered _ _ hpub]
        exact le_rfl

theorem Sound.next (hw : Sound w) {ev : Event} (hrule : w.Rule ev) : Sound (w.next ev) := by
  have hl := later_next w ev
  cases ev with
  | publish config =>
    refine ⟨hl.config hw.initial, fun n c hc => ?_, hw.asked,
      fun r hr => hl.justified (hw.justified r hr), hw.origin,
      fun g p hp => hl.tabled (hw.tabled g p hp), hw.byOne⟩
    have hlt := (List.getElem?_eq_some_iff.mp hc).1
    change n < (w.configs ++ [config]).length at hlt
    change (w.configs ++ [config])[n]? = some c at hc
    rw [List.length_append, List.length_singleton] at hlt
    by_cases hn : n < w.configs.length
    · rw [List.getElem?_append_left hn] at hc
      exact hw.numbered n c hc
    · obtain rfl : n = w.configs.length := by omega
      rw [List.getElem?_concat_length] at hc
      rw [← Option.some.inj hc]
      exact hrule
  | ask op =>
    refine ⟨hw.initial, hw.numbered, fun op' h => ?_, fun r hr => hl.justified (hw.justified r hr),
      fun g op' h => (hw.origin g op' h).imp_left (List.mem_append_left _),
      fun g p hp => hl.tabled (hw.tabled g p hp), hw.byOne⟩
    rcases List.mem_append.mp h with h | h
    · exact hw.asked op' h
    · rw [List.mem_singleton.mp h]
      exact hrule
  | issue r =>
    refine ⟨hw.initial, hw.numbered, hw.asked, fun r' h => ?_, fun g op h => ?_,
      fun g p hp => hl.tabled (hw.tabled g p hp), hw.byOne⟩
    · rcases List.mem_append.mp h with h | h
      · exact hl.justified (hw.justified r' h)
      · rw [List.mem_singleton.mp h]
        exact hl.justified hrule.1
    · rcases hw.origin g op h with h | ⟨m, hm⟩
      · exact Or.inl h
      · exact Or.inr ⟨m, List.mem_append_left _ hm⟩
  | commit g op => exact hw.commit hrule

/-- The rule for what every event keeps. -/
theorem inv_of_reachesIf {P : World → Event → Prop} {I : World → Prop} (h₀ : I World.init)
    (hstep : ∀ w ev, Sound w → I w → P w ev → w.Rule ev → I (w.next ev))
    (hr : ReachesIf World.step P World.init w) : Sound w ∧ I w := by
  refine hr.inv (I := fun w => Sound w ∧ I w) ⟨sound_init, h₀⟩ ?_
  rintro w ev w' ⟨hs, hi⟩ hP hw'
  obtain ⟨hrule, rfl⟩ := step_eq_some.mp hw'
  exact ⟨hs.next hrule, hstep w ev hs hi hP hrule⟩

end Mit6824.ShardProtocol
