import Mit6824.CtrlOrder

/-!
What a replica of the controller holds after a log.

A change allocates the maps that it writes to, so those of the published configurations stay as
they are, and a replica publishes one configuration after the other. All replicas of a log have
the same ones, whatever the orders in which they visit their maps.
-/

namespace Mit6824.CtrlReplay

open Mit6824.GoData Mit6824.MapOrder Mit6824.CtrlConfig Mit6824.CtrlServer Mit6824.CtrlHistory
open Mit6824.CtrlTable Mit6824.CtrlOrder Mit6824.Sessions Mit6824.Runs
open Mit6824.ShardServer (NShards Shard)

/-! ### One change -/

def configsOf (sc : ShardCtrler) : List Config := sc.entries.map sc.read

/-- The state in which a change publishes, and the address of its map. -/
def target (sc : ShardCtrler) (ch : Change) (e : Entry) : ShardCtrler × ℕ :=
  match ch with
  | .join groups =>
    if e.num = 0 then (sc.alloc (sc.read e).groups).1.alloc groups
    else sc.alloc (sc.read e).groups
  | _ => sc.alloc (sc.read e).groups

def published (sc : ShardCtrler) (ch : Change) (e : Entry) (c : Config) : ShardCtrler :=
  (target sc ch e).1.publish (target sc ch e).2 c

variable {sc sc' : ShardCtrler} {ch : Change} {e : Entry} {c : Config} {log : List Op} {op : Op}
  {passes : ℕ} {orders : ℕ → Order Gid}

/-- **A change makes its configuration from the latest one**, and publishes it. -/
lemma applyChange_outcome (he : sc.entries.getLast? = some e) :
    (sc.applyChange passes ch).outcome orders =
      ((nextConfig passes ch (sc.read e)).outcome orders).map (published sc ch e) := by
  have hlatest : sc.getLatestConfig = pure e := by
    unfold ShardCtrler.getLatestConfig
    rw [he]
  obtain ⟨c, hclone, rfl⟩ := ensures_clone (sc.read e) orders
  unfold ShardCtrler.applyChange nextConfig
  rw [hlatest, pure_bind, Prog.outcome_bind_ok hclone, Prog.outcome_bind_ok hclone]
  cases ch with
  | join groups =>
    simp only [Change.exec]
    split
    · next hnum =>
      have hnum : e.num = 0 := hnum
      have hpub : published sc (.join groups) e = ((sc.alloc (sc.read e).groups).1.alloc
          groups).1.publish ((sc.alloc (sc.read e).groups).1.alloc groups).2 := by
        funext c
        simp only [published, target, if_pos hnum]
      rw [hpub]
      exact Prog.outcome_bind_pure
    · next hnum =>
      have hnum : ¬ e.num = 0 := hnum
      have hpub : published sc (.join groups) e =
          (sc.alloc (sc.read e).groups).1.publish (sc.alloc (sc.read e).groups).2 := by
        funext c
        simp only [published, target, if_neg hnum]
      rw [hpub]
      exact Prog.outcome_bind_pure
  | leave gids => exact Prog.outcome_bind_pure
  | move shard gid => exact Prog.outcome_bind_pure

lemma target_spec (sc : ShardCtrler) (ch : Change) (e : Entry) :
    ∃ l m, (target sc ch e).1 = { sc with maps := sc.maps ++ l ++ [m] } ∧
      (target sc ch e).2 = (sc.maps ++ l).length := by
  have hplain : ∃ l m, (sc.alloc (sc.read e).groups).1 = { sc with maps := sc.maps ++ l ++ [m] } ∧
      (sc.alloc (sc.read e).groups).2 = (sc.maps ++ l).length :=
    ⟨[], (sc.read e).groups, by simp [ShardCtrler.alloc], by simp [ShardCtrler.alloc]⟩
  cases ch with
  | join groups =>
    simp only [target]
    split
    · exact ⟨[(sc.read e).groups], groups, rfl, rfl⟩
    · exact hplain
  | leave gids => exact hplain
  | move shard gid => exact hplain

lemma published_spec (sc : ShardCtrler) (ch : Change) (e : Entry) (c : Config) :
    ∃ l, published sc ch e c = { sc with
      maps := sc.maps ++ l ++ [c.groups]
      entries := sc.entries ++ [⟨sc.entries.length, c.shards, (sc.maps ++ l).length⟩] } := by
  obtain ⟨l, m, h₁, h₂⟩ := target_spec sc ch e
  refine ⟨l, ?_⟩
  unfold published
  rw [h₁, h₂]
  simp [ShardCtrler.publish, ShardCtrler.write, ShardCtrler.append]

/-- The entries are numbered, and their maps are there. -/
structure Stored (sc : ShardCtrler) : Prop where
  ne_nil : sc.entries ≠ []
  num : ∀ (i : ℕ) (e : Entry), sc.entries[i]? = some e → e.num = i
  maps : ∀ e ∈ sc.entries, e.groups < sc.maps.length

lemma stored_boot : Stored boot where
  ne_nil := by simp [boot]
  num := fun i e hi => by
    obtain ⟨rfl, rfl⟩ : i = 0 ∧ _ = e := by simpa [boot, List.getElem?_singleton] using hi
    rfl
  maps := by simp [boot]

lemma read_of_le (h : e.groups < sc.maps.length) (l : List (GoMap Gid (List GoString)))
    (es : List Entry) (status : GoMap ℕ ℕ) :
    (⟨sc.maps ++ l, es, status⟩ : ShardCtrler).read e = sc.read e := by
  unfold ShardCtrler.read
  rw [List.getElem?_append_left h]

/-- **Published configurations stay**, and there is one more. -/
lemma configsOf_published (h : Stored sc) (ch : Change) (e : Entry) (c : Config) :
    configsOf (published sc ch e c) =
      configsOf sc ++ [{ c with num := (configsOf sc).length }] := by
  obtain ⟨l, hl⟩ := published_spec sc ch e c
  rw [hl]
  unfold configsOf
  rw [List.map_append, List.length_map, List.map_singleton]
  congr 1
  · refine List.map_congr_left fun e' he' => ?_
    rw [List.append_assoc]
    exact read_of_le (h.maps e' he') _ _ _
  · simp [ShardCtrler.read]

lemma Stored.published (h : Stored sc) (ch : Change) (e : Entry) (c : Config) :
    Stored (published sc ch e c) := by
  obtain ⟨l, hl⟩ := published_spec sc ch e c
  rw [hl]
  refine ⟨by simp, fun i e' hi => ?_, fun e' he' => ?_⟩
  · rcases getElem?_append_singleton.mp hi with hi | ⟨rfl, rfl⟩
    · exact h.num i e' hi
    · rfl
  · rcases List.mem_append.mp he' with he' | he'
    · have := h.maps e' he'
      simp only [List.length_append]
      omega
    · obtain rfl := List.mem_singleton.mp he'
      simp

lemma Stored.latest (h : Stored sc) :
    ∃ e, sc.entries.getLast? = some e ∧ (configsOf sc).getLast? = some (sc.read e) := by
  have hget := List.getLast?_eq_some_getLast h.ne_nil
  refine ⟨_, hget, ?_⟩
  unfold configsOf
  rw [List.getLast?_map, hget]
  rfl

/-! ### Replicas -/

/-- What a server can be after it has applied a log: the applier has gone through it, in some
passes and orders, and handlers have made the status of clients in between. -/
inductive Replica : List Op → ShardCtrler → Prop
  | boot : Replica [] boot
  | touch {log : List Op} {sc : ShardCtrler} (h : Replica log sc) (clientId : ℕ) :
      Replica log (sc.getClientStatus clientId)
  | apply {log : List Op} {sc sc' : ShardCtrler} (h : Replica log sc) {op : Op} {passes : ℕ}
      {orders : ℕ → Order Gid} (happly : (sc.applyOp passes op).outcome orders = .ok sc') :
      Replica (log ++ [op]) sc'

/-- What an operation does to a server that has applied a log. -/
inductive Applied (log : List Op) (sc : ShardCtrler) (passes : ℕ) (orders : ℕ → Order Gid)
    (op : Op) : Except Stop ShardCtrler → Prop
  | dup (hdup : ¬ Fresh log op) :
      Applied log sc passes orders op (.ok (sc.getClientStatus op.clientId))
  | query {num : ℤ} (hfresh : Fresh log op) (hop : op.command = .query num) :
      Applied log sc passes orders op
        (.ok ((sc.getClientStatus op.clientId).updateSeqNum op.clientId op.seqNum))
  | change {ch : Change} {e : Entry} (hfresh : Fresh log op) (hop : op.command = .change ch)
      (he : sc.entries.getLast? = some e) :
      Applied log sc passes orders op (((nextConfig passes ch (sc.read e)).outcome orders).map
        fun c => (published (sc.getClientStatus op.clientId) ch e c).updateSeqNum op.clientId
          op.seqNum)

lemma map_map {α β γ : Type} (r : Except Stop α) (f : α → β) (g : β → γ) :
    (r.map f).map g = r.map fun a => g (f a) := by
  cases r <;> rfl

/-- Duplicates are what is not above the mark of its client. -/
lemma done_iff (hmark : ∀ clientId, mark sc.clientsStatus clientId = high log clientId) (op : Op) :
    (sc.getClientStatus op.clientId).done op.clientId op.seqNum ↔ ¬ Fresh log op := by
  unfold ShardCtrler.done Fresh
  rw [ShardCtrler.getClientStatus, mark_touch, hmark]
  exact Nat.not_lt.symm

lemma applied_applyOp (h : Stored sc)
    (hmark : ∀ clientId, mark sc.clientsStatus clientId = high log clientId) (passes : ℕ)
    (orders : ℕ → Order Gid) (op : Op) :
    Applied log sc passes orders op ((sc.applyOp passes op).outcome orders) := by
  unfold ShardCtrler.applyOp
  dsimp only
  split
  · next hdone => exact .dup ((done_iff hmark op).mp hdone)
  · next hdone =>
    have hfresh : Fresh log op := not_not.mp fun hdup => hdone ((done_iff hmark op).mpr hdup)
    rw [Prog.outcome_bind_pure]
    unfold ShardCtrler.execute
    split
    · next ch hop =>
      obtain ⟨e, he, -⟩ := h.latest
      have he' : (sc.getClientStatus op.clientId).entries.getLast? = some e := he
      rw [applyChange_outcome he', map_map]
      exact .change hfresh hop he
    · next num hop => exact .query hfresh hop

lemma mark_updateSeqNum (hmark : ∀ clientId, mark sc.clientsStatus clientId = high log clientId)
    (hfresh : Fresh log op) (clientId : ℕ) :
    mark ((sc.updateSeqNum op.clientId op.seqNum).clientsStatus) clientId =
      high (log ++ [op]) clientId := by
  show mark (sc.clientsStatus.insert _ _) clientId = _
  rw [mark_insert, hfresh.high_snoc, hmark, client_eq, seq_eq]

lemma Stored.touch (h : Stored sc) (clientId : ℕ) : Stored (sc.getClientStatus clientId) :=
  ⟨h.ne_nil, h.num, h.maps⟩

lemma Stored.update (h : Stored sc) (clientId seqNum : ℕ) :
    Stored (sc.updateSeqNum clientId seqNum) := ⟨h.ne_nil, h.num, h.maps⟩

lemma Replica.stored (h : Replica log sc) :
    Stored sc ∧ ∀ clientId, mark sc.clientsStatus clientId = high log clientId := by
  induction h with
  | boot => exact ⟨stored_boot, fun _ => rfl⟩
  | touch h clientId ih =>
    exact ⟨ih.1.touch clientId, fun c => (mark_touch _ _ _).trans (ih.2 c)⟩
  | @apply log sc sc' h op passes orders happly ih =>
    have hmark' : ∀ c, mark (sc.getClientStatus op.clientId).clientsStatus c = high log c :=
      fun c => (mark_touch _ _ _).trans (ih.2 c)
    have happ := applied_applyOp ih.1 ih.2 passes orders op
    rw [happly] at happ
    generalize hr : (Except.ok sc' : Except Stop ShardCtrler) = r at happ
    cases happ with
    | dup hdup =>
      obtain rfl := Except.ok.inj hr
      exact ⟨ih.1.touch _, fun c => (hmark' c).trans (high_snoc_of_not_fresh hdup c).symm⟩
    | query hfresh hop =>
      obtain rfl := Except.ok.inj hr
      exact ⟨(ih.1.touch _).update _ _, mark_updateSeqNum hmark' hfresh⟩
    | @change ch e hfresh hop he =>
      cases hout : (nextConfig passes ch (sc.read e)).outcome orders with
      | error s =>
        rw [hout] at hr
        cases hr
      | ok c =>
        rw [hout] at hr
        obtain rfl := Except.ok.inj hr
        refine ⟨((ih.1.touch op.clientId).published ch e c).update _ _, ?_⟩
        refine mark_updateSeqNum (fun c' => ?_) hfresh
        obtain ⟨l, hl⟩ := published_spec (sc.getClientStatus op.clientId) ch e c
        rw [hl]
        exact hmark' c'

/-- What one more command does to the configurations of a replica. -/
inductive Viewed (log : List Op) (h : List Config) (op : Op) : List Config → Prop
  | dup (hdup : ¬ Fresh log op) : Viewed log h op h
  | query {num : ℤ} (hfresh : Fresh log op) (hop : op.command = .query num) : Viewed log h op h
  | change {ch : Change} {latest c : Config} {passes : ℕ} {orders : ℕ → Order Gid}
      (hfresh : Fresh log op) (hop : op.command = .change ch) (hlast : h.getLast? = some latest)
      (hnext : (nextConfig passes ch latest).outcome orders = .ok c) :
      Viewed log h op (h ++ [{ c with num := h.length }])

lemma Viewed.unique {h v v' : List Config} (hv : Viewed log h op v) (hv' : Viewed log h op v') :
    v = v' := by
  cases hv with
  | dup hdup =>
    cases hv' with
    | dup _ => rfl
    | query _ _ => rfl
    | change hfresh => exact absurd hfresh hdup
  | query hfresh hop =>
    cases hv' with
    | dup _ => rfl
    | query _ _ => rfl
    | change _ hop' =>
      rw [hop] at hop'
      cases hop'
  | @change ch latest c passes orders hfresh hop hlast hnext =>
    cases hv' with
    | dup hdup => exact absurd hfresh hdup
    | query _ hop' =>
      rw [hop] at hop'
      cases hop'
    | @change ch' latest' c' passes' orders' _ hop' hlast' hnext' =>
      obtain rfl := Command.change.inj (hop.symm.trans hop')
      obtain rfl := Option.some.inj (hlast.symm.trans hlast')
      rw [nextConfig_unique hnext hnext']

lemma Replica.viewed (h : Replica log sc)
    (happly : (sc.applyOp passes op).outcome orders = .ok sc') :
    Viewed log (configsOf sc) op (configsOf sc') := by
  obtain ⟨hst, hmark⟩ := h.stored
  have happ := applied_applyOp hst hmark passes orders op
  rw [happly] at happ
  generalize hr : (Except.ok sc' : Except Stop ShardCtrler) = r at happ
  cases happ with
  | dup hdup =>
    obtain rfl := Except.ok.inj hr
    exact .dup hdup
  | query hfresh hop =>
    obtain rfl := Except.ok.inj hr
    exact .query hfresh hop
  | @change ch e hfresh hop he =>
    cases hout : (nextConfig passes ch (sc.read e)).outcome orders with
    | error s =>
      rw [hout] at hr
      cases hr
    | ok c =>
      rw [hout] at hr
      obtain rfl := Except.ok.inj hr
      obtain ⟨e', he', hlast⟩ := hst.latest
      obtain rfl := Option.some.inj (he'.symm.trans he)
      have hview : configsOf ((published (sc.getClientStatus op.clientId) ch e' c).updateSeqNum
          op.clientId op.seqNum) = configsOf sc ++ [{ c with num := (configsOf sc).length }] :=
        configsOf_published (hst.touch op.clientId) ch e' c
      rw [hview]
      exact .change hfresh hop hlast hout

inductive After : List Op → List Config → Prop
  | nil : After [] [initial]
  | snoc {p : List Op} {h h' : List Config} {op : Op} (hp : After p h) (hv : Viewed p h op h') :
      After (p ++ [op]) h'

lemma After.snoc_inv {h : List Config} (hh : After (log ++ [op]) h) :
    ∃ h₀, After log h₀ ∧ Viewed log h₀ op h := by
  generalize hl : log ++ [op] = l at hh
  cases hh with
  | nil => simp at hl
  | snoc hp hv =>
    obtain ⟨rfl, hop⟩ := List.append_inj' hl rfl
    obtain rfl := List.singleton_inj.mp hop
    exact ⟨_, hp, hv⟩

lemma After.unique {h h' : List Config} (hh : After log h) (hh' : After log h') : h = h' := by
  induction log using List.reverseRecOn generalizing h h' with
  | nil =>
    generalize hl : ([] : List Op) = l at hh hh'
    cases hh with
    | nil =>
      generalize hl' : ([] : List Op) = l' at hh'
      cases hh' with
      | nil => rfl
      | snoc hp hv => simp at hl'
    | snoc hp hv => simp at hl
  | append_singleton log op ih =>
    obtain ⟨h₁, hp, hv⟩ := hh.snoc_inv
    obtain ⟨h₂, hp', hv'⟩ := hh'.snoc_inv
    rw [ih hp' hp] at hv'
    exact hv.unique hv'

lemma Viewed.keeps {h h' : List Config} (hv : Viewed log h op h') : h <+: h' := by
  cases hv with
  | dup _ => exact List.prefix_rfl
  | query _ _ => exact List.prefix_rfl
  | change _ _ _ _ => exact List.prefix_append _ _

/-- What a log has made stays. -/
lemma After.left {p q : List Op} {h : List Config} (hh : After (p ++ q) h) :
    ∃ h₀, After p h₀ ∧ h₀ <+: h := by
  induction q using List.reverseRecOn generalizing h with
  | nil => exact ⟨h, by rwa [List.append_nil] at hh, List.prefix_rfl⟩
  | append_singleton q op ih =>
    rw [← List.append_assoc] at hh
    obtain ⟨h₁, hp, hv⟩ := hh.snoc_inv
    obtain ⟨h₀, h₀p, hle⟩ := ih hp
    exact ⟨h₀, h₀p, hle.trans hv.keeps⟩

/-- **A replica has published the configurations of its log.** -/
lemma Replica.after (h : Replica log sc) : After log (configsOf sc) := by
  induction h with
  | boot => exact .nil
  | touch _ _ ih => exact ih
  | apply h happly ih => exact ih.snoc (h.viewed happly)

lemma Replica.configsOf_eq (h : Replica log sc) (h' : Replica log sc') :
    configsOf sc = configsOf sc' :=
  h.after.unique h'.after

lemma Replica.left {p q : List Op} (h : Replica (p ++ q) sc) : ∃ sc', Replica p sc' := by
  generalize hl : p ++ q = l at h
  induction h generalizing q with
  | boot =>
    obtain ⟨rfl, -⟩ := List.append_eq_nil_iff.mp hl
    exact ⟨_, .boot⟩
  | touch _ _ ih => exact ih hl
  | @apply log sc sc' h op passes orders happly ih =>
    rcases List.eq_nil_or_concat q with rfl | ⟨q, op', rfl⟩
    · rw [List.append_nil] at hl
      exact ⟨sc', hl ▸ h.apply happly⟩
    · rw [List.concat_eq_append, ← List.append_assoc] at hl
      exact ih (List.append_inj' hl rfl).1

lemma applyAll_cons (n : ℕ) (sc : ShardCtrler) (op : Op) (log : List Op) :
    sc.applyAll n (op :: log) = sc.applyOp n op >>= fun sc => sc.applyAll n log := by
  unfold ShardCtrler.applyAll
  dsimp only
  rw [List.forIn_cons, bind_assoc, bind_assoc]
  rfl

/-- A server that has gone through a log is a replica of it. -/
lemma Replica.applyAll {p : List Op} (h : Replica p sc)
    (happly : (sc.applyAll passes log).outcome orders = .ok sc') : Replica (p ++ log) sc' := by
  induction log generalizing p sc orders with
  | nil =>
    obtain rfl := Except.ok.inj happly
    rwa [List.append_nil]
  | cons op log ih =>
    rw [applyAll_cons] at happly
    obtain ⟨sc₁, hop, hrest⟩ := Prog.outcome_bind_eq_ok happly
    have := ih (h.apply hop) hrest
    rwa [List.append_assoc] at this

/-! ### The orders of the maps -/

/-- Two executions end alike, or the one that is given fewer passes is still in its loop. -/
def Alike {α : Type} (n n' : ℕ) (r r' : Except Stop α) : Prop :=
  r = r' ∨ (n < n' ∧ r = .error .running) ∨ (n' < n ∧ r' = .error .running)

lemma alike_of_extends {α : Type} {x : ℕ → Prog Gid α}
    (hx : ∀ n n', n ≤ n' → Extends (x n) (x n')) (n n' : ℕ) (orders orders' : ℕ → Order Gid) :
    Alike n n' ((x n).outcome orders) ((x n').outcome orders') := by
  rcases lt_trichotomy n n' with hlt | rfl | hgt
  · by_cases hrun : (x n).outcome orders = .error .running
    · exact Or.inr (Or.inl ⟨hlt, hrun⟩)
    · exact Or.inl (hx n n' hlt.le orders orders' hrun).symm
  · exact Or.inl ((hx n n le_rfl).det orders orders')
  · by_cases hrun : (x n').outcome orders' = .error .running
    · exact Or.inr (Or.inr ⟨hgt, hrun⟩)
    · exact Or.inl (hx n' n hgt.le orders' orders hrun)

/-- **The orders of the maps do not show**: on every configuration and every state a command and
a log end alike in all orders, and all replicas of a log have the same configurations. -/
theorem map_order_irrelevant (n n' : ℕ) (orders orders' : ℕ → Order Gid) :
    (∀ ch c, Alike n n' ((nextConfig n ch c).outcome orders)
      ((nextConfig n' ch c).outcome orders')) ∧
    (∀ sc log, Alike n n' ((ShardCtrler.applyAll n sc log).outcome orders)
      ((sc.applyAll n' log).outcome orders')) ∧
    ∀ log sc sc', Replica log sc → Replica log sc' → configsOf sc = configsOf sc' :=
  ⟨fun ch c => alike_of_extends (fun _ _ hn => extends_nextConfig hn c ch) n n' orders orders',
    fun sc log => alike_of_extends (fun _ _ hn => extends_applyAll hn sc log) n n' orders orders',
    fun _ _ _ h h' => h.configsOf_eq h'⟩

def threeGroups : List Op :=
  [⟨.change (.join (([1, 2, 3] : List Gid).foldl (fun m gid => m.insert gid [[0]]) ∅)), 1, 7⟩,
    ⟨.change (.leave [2]), 2, 7⟩]

theorem map_order_irrelevant_reverse :
    ∃ sc sc', (boot.applyAll NShards threeGroups).outcome (fun _ => .ascending) = .ok sc ∧
      (boot.applyAll NShards threeGroups).outcome (fun _ => Order.ascending.reverse) = .ok sc' ∧
      (configsOf sc).length = 3 ∧ configsOf sc = configsOf sc' := by
  have hrun : ((boot.applyAll NShards threeGroups).outcome fun _ => .ascending).map
      (fun sc => (configsOf sc).length) = .ok 3 := by decide +kernel
  have hrun' : ((boot.applyAll NShards threeGroups).outcome fun _ =>
      Order.ascending.reverse).map (fun sc => (configsOf sc).length) = .ok 3 := by decide +kernel
  cases hout : (boot.applyAll NShards threeGroups).outcome fun _ => .ascending with
  | error e =>
    rw [hout] at hrun
    cases hrun
  | ok sc =>
    cases hout' : (boot.applyAll NShards threeGroups).outcome fun _ =>
        Order.ascending.reverse with
    | error e =>
      rw [hout'] at hrun'
      cases hrun'
    | ok sc' =>
      rw [hout] at hrun
      exact ⟨sc, sc', rfl, rfl, Except.ok.inj hrun,
        (map_order_irrelevant NShards NShards (fun _ => .ascending) fun _ => .ascending).2.2 _ _ _
          (Replica.boot.applyAll hout) (Replica.boot.applyAll hout')⟩

/-! ### Logs that make their configurations -/

/-- A change that always makes a configuration. A `Move` may be to any gid: what such a shard can
do is to stop a later `Join` that finds no group. -/
def Suits (c : Config) (ch : Change) : Prop := Safe c ch ∧ ¬ FirstEmpty c ch

/-- The changes of the log suit the configurations that they are made to. -/
def Sane (log : List Op) : Prop :=
  ∀ p op, p ++ [op] <+: log → Fresh p op → ∀ ch, op.command = .change ch →
    ∀ h c, After p h → h.getLast? = some c → Suits c ch

lemma Sane.left {p q : List Op} (h : Sane (p ++ q)) : Sane p :=
  fun p' op hp => h p' op (hp.trans (List.prefix_append p q))

lemma After.sound {h : List Config} (hh : After log h) (hsane : Sane log) :
    ∀ c ∈ h, 0 ∉ c.groups ∧ (c.num = 0 → c = initial) := by
  induction hh with
  | nil =>
    intro c hc
    obtain rfl := List.mem_singleton.mp hc
    exact ⟨Finmap.notMem_empty, fun _ => rfl⟩
  | @snoc p h h' op hp hv ih =>
    have hall := ih hsane.left
    cases hv with
    | dup _ => exact hall
    | query _ _ => exact hall
    | @change ch latest c passes orders hfresh hop hlast hnext =>
      have hmem := List.mem_of_getLast? hlast
      intro c' hc'
      rcases List.mem_append.mp hc' with hc' | hc'
      · exact hall c' hc'
      · obtain rfl := List.mem_singleton.mp hc'
        have hsuits := hsane p op List.prefix_rfl hfresh ch hop h latest hp hlast
        rcases nextConfig_cases (hall latest hmem).1 (hall latest hmem).2 hsuits.1 passes orders
          with ⟨c₁, hout, hmade⟩ | ⟨hout, -⟩
        · obtain rfl := Except.ok.inj (hnext.symm.trans hout)
          have hpos := List.length_pos_of_mem hmem
          have hzero : 0 ∉ c.groups := hmade.zero (hall latest hmem).1
          exact ⟨hzero, fun hnum => absurd hnum hpos.ne'⟩
        · rw [hnext] at hout
          cases hout

lemma Replica.ensures_applyOp (h : Replica log sc) (hsane : Sane log)
    (hsuits : Fresh log op → ∀ ch, op.command = .change ch → ∀ c, (configsOf sc).getLast? = some c →
      Suits c ch) (hpasses : NShards ≤ passes) :
    Ensures (sc.applyOp passes op) (Replica (log ++ [op])) := by
  intro orders
  obtain ⟨hst, hmark⟩ := h.stored
  have happ := applied_applyOp hst hmark passes orders op
  suffices hok : ∃ sc', (sc.applyOp passes op).outcome orders = .ok sc' by
    obtain ⟨sc', hout⟩ := hok
    exact ⟨sc', hout, h.apply hout⟩
  generalize hr : (sc.applyOp passes op).outcome orders = r at happ
  cases happ with
  | dup _ => exact ⟨_, rfl⟩
  | query _ _ => exact ⟨_, rfl⟩
  | @change ch e hfresh hop he =>
    obtain ⟨e', he', hlast⟩ := hst.latest
    obtain rfl := Option.some.inj (he'.symm.trans he)
    have hch := hsuits hfresh ch hop _ hlast
    obtain ⟨hzero, hfirst⟩ := h.after.sound hsane _ (List.mem_of_getLast? hlast)
    rcases nextConfig_cases hzero hfirst hch.1 passes orders with ⟨c, hc, -⟩ | ⟨-, -, hempty⟩
    · rw [hc]
      exact ⟨_, rfl⟩
    · exact absurd (hempty hpasses) hch.2

/-- **The applier gets through such a log**, whatever the orders of the maps. -/
lemma ensures_applyAll (hsane : Sane log) (hpasses : NShards ≤ passes) :
    Ensures (boot.applyAll passes log) (Replica log) := by
  refine Ensures.bind (P := Replica log) ?_ fun sc h => .pure h
  refine Ensures.forIn (I := Replica) .boot (fun p op q sc hl h => ?_) fun _ h => h
  have hpre : p ++ [op] <+: log := ⟨q, by simp [hl]⟩
  have hsane' : Sane p := fun p' op' hp' => hsane p' op' (hp'.trans
    ((List.prefix_append p [op]).trans hpre))
  have hens : Ensures (sc.applyOp passes op) (Replica (p ++ [op])) :=
    h.ensures_applyOp hsane' (fun hfresh ch hop c hlast =>
      hsane p op hpre hfresh ch hop _ _ h.after hlast) hpasses
  exact hens.bind fun sc' h' => .pure h'

lemma After.length {h : List Config} (hh : After log h) :
    h.length = ((fresh log).filter Op.isChange).length + 1 := by
  induction hh with
  | nil => rfl
  | @snoc p h h' op hp hv ih =>
    rw [fresh_snoc]
    cases hv with
    | dup hdup => rw [if_neg hdup, ih]
    | query hfresh hop =>
      rw [if_pos hfresh, List.filter_append, ih]
      simp [Op.isChange, hop]
    | change hfresh hop hlast hnext =>
      rw [if_pos hfresh, List.filter_append, List.length_append, ih]
      simp [Op.isChange, hop]

lemma After.num {h : List Config} (hh : After log h) {i : ℕ} {c : Config} (hi : h[i]? = some c) :
    c.num = i := by
  induction hh generalizing i c with
  | nil =>
    obtain ⟨rfl, rfl⟩ : i = 0 ∧ initial = c := by simpa [List.getElem?_singleton] using hi
    rfl
  | @snoc p h h' op hp hv ih =>
    cases hv with
    | dup _ => exact ih hi
    | query _ _ => exact ih hi
    | change _ _ _ _ =>
      rcases getElem?_append_singleton.mp hi with hi | ⟨rfl, rfl⟩
      · exact ih hi
      · rfl

end Mit6824.CtrlReplay
