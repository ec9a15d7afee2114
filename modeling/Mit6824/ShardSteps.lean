import Mit6824.ShardSystem

/-!
What the servers of the sharded service know, and what they do by themselves.

A server is a replica of the part of its group's log that it has applied, also while its applier
is between the store and the numbers. What a server has read or was answered, it knows of the
world of logs, configurations and requests, and keeps knowing when the world grows.
-/

namespace Mit6824.ShardSteps

open Mit6824.GoData Mit6824.Labgob Mit6824.ShardServer Mit6824.ShardReplica
open Mit6824.ShardProtocol Mit6824.ShardSystem World Function

variable {w w' : World} {g i : ℕ} {sv sv' : Server}

/-! ### The applier -/

def finish (sv : Server) : ShardKV :=
  match sv.phase with
  | .idle => sv.kv
  | .marking rest own => ({ sv with kv := sv.kv.putClientSeqNumMap rest }.note own).kv

/-- The number that a command leaves of a client. -/
def ownMark (own : Option (ClientId × ℕ)) (c : ClientId) : ℕ :=
  match own with
  | some (clientId, seqNum) => if c = clientId then seqNum else 0
  | none => 0

lemma mark_note (sv : Server) (own : Option (ClientId × ℕ)) (c : ClientId) :
    mark (sv.note own).kv.clientStatusMap c =
      max (mark sv.kv.clientStatusMap c) (ownMark own c) := by
  cases own with
  | none => exact (max_eq_left (Nat.zero_le _)).symm
  | some p =>
    show mark (raise _ _ _) c = max _ (if c = p.1 then p.2 else 0)
    rw [mark_raise]
    split
    · next h => rw [h]
    · rw [max_eq_left (Nat.zero_le _)]

/-- The parts of a server that the numbers leave alone. -/
structure SameData (kv kv' : ShardKV) : Prop where
  gid : kv'.gid = kv.gid
  config : kv'.config = kv.config
  store : kv'.store = kv.store

lemma sameData_note (sv : Server) (own : Option (ClientId × ℕ)) :
    SameData sv.kv (sv.note own).kv := by
  cases own <;> exact ⟨rfl, rfl, rfl⟩

lemma sameData_finish (sv : Server) : SameData sv.kv (finish sv) := by
  unfold finish
  split
  · exact ⟨rfl, rfl, rfl⟩
  · next rest own _ =>
    obtain ⟨hg, hc, hs⟩ := sameData_note { sv with kv := sv.kv.putClientSeqNumMap rest } own
    exact ⟨hg, hc, hs⟩

lemma mark_le_finish (sv : Server) (c : ClientId) :
    mark sv.kv.clientStatusMap c ≤ mark (finish sv).clientStatusMap c := by
  unfold finish
  split
  · exact le_rfl
  · rw [mark_note]
    refine le_trans ?_ (le_max_left _ _)
    show _ ≤ mark (merge _ _) c
    rw [mark_merge]
    exact le_max_left _ _

lemma mark_finish {rest : GoMap ClientId ℕ} {own : Option (ClientId × ℕ)}
    (h : sv.phase = .marking rest own) (c : ClientId) :
    mark (finish sv).clientStatusMap c =
      max (max (mark sv.kv.clientStatusMap c) (mark rest c)) (ownMark own c) := by
  unfold finish
  rw [h]
  dsimp only
  rw [mark_note]
  show max (mark (merge _ _) c) _ = _
  rw [mark_merge]

lemma finish_of_idle (h : sv.phase = .idle) : finish sv = sv.kv := by
  unfold finish
  rw [h]

/-- The applier of a server, from one phase to the next, with the numbers of a command that is
applied. -/
lemma finish_apply (h : sv.phase = .idle) (op : Op) :
    finish (sv.apply op) = sv.kv.applyOp op := by
  unfold Server.apply ShardKV.applyOp
  dsimp only
  split
  · exact finish_of_idle h
  · split
    · exact finish_of_idle h
    · rfl

lemma mark_apply (sv : Server) (op : Op) (c : ClientId) :
    mark (sv.apply op).kv.clientStatusMap c = mark sv.kv.clientStatusMap c := by
  unfold Server.apply
  dsimp only
  split
  · exact mark_touch _ _ _
  · have hmap := (exec_frame (sv.kv.getClientStatus op.clientId) op).2.2.1
    split <;>
    · show mark ((sv.kv.getClientStatus op.clientId).exec op).1.clientStatusMap c = _
      rw [hmap]
      exact mark_touch _ _ _

/-- The parts of a server that its applier leaves alone. -/
lemma apply_frame (sv : Server) (op : Op) : (sv.apply op).epoch = sv.epoch ∧
    (sv.apply op).applied = sv.applied + 1 ∧ (sv.apply op).proc = sv.proc ∧
    (sv.apply op).kv.nextConfig = sv.kv.nextConfig ∧ (sv.apply op).kv.seqNum = sv.kv.seqNum ∧
    (sv.apply op).kv.clientId = sv.kv.clientId := by
  unfold Server.apply
  dsimp only
  split
  · exact ⟨rfl, rfl, rfl, rfl, rfl, rfl⟩
  · obtain ⟨-, hnext, -, hseq, hclient, -⟩ := exec_frame (sv.kv.getClientStatus op.clientId) op
    split <;> exact ⟨rfl, rfl, rfl, hnext, hseq, hclient⟩

/-! ### What a server knows -/

/-- The configuration has been read off the log of the group. -/
def ReadOff (w : World) (g : ℕ) (config : Config) : Prop :=
  g ≠ 0 ∧ ∃ p, p <+: w.logs g ∧ (state g p).config = config

/-- The requests of a server that are under way are issued, and what it was answered is true. -/
def TaskOk (w : World) (g : ℕ) (me : ℕ × ℕ) (num o : ℕ) (shards : List Shard) : Task → Prop
  | .init => True
  | .getting seq => ⟨o, num, .getShards ⟨num, shards, seq, .server g me.1 me.2⟩⟩ ∈ w.issued
  | .got data map => w.Given o num shards data map
  | .putting args => ⟨g, num, .putShards args⟩ ∈ w.issued ∧ args.clientId = .server g me.1 me.2 ∧
      ∀ s ∈ shards, s ∈ args.shards
  | .put => w.PutDone g me.1 me.2 num shards
  | .deleting seq => w.PutDone g me.1 me.2 num shards ∧
      ⟨o, num, .deleteShards ⟨num, shards, seq, .server g me.1 me.2⟩⟩ ∈ w.issued
  | .deleted => w.PutDone g me.1 me.2 num shards

/-- `changeConfig` has read its old configuration off the log, and its new one is the next. -/
def ProcOk (w : World) (g : ℕ) (me : ℕ × ℕ) (nextConfig config : Config) : Proc → Prop
  | .idle => True
  | .polled old => ReadOff w g old ∧ old.num ≤ config.num ∧ nextConfig.num ≤ old.num + 1
  | .queried old new => ReadOff w g old ∧ old.num ≤ config.num ∧
      w.configs[new.num]? = some new ∧ old.num ≤ new.num ∧ new.num ≤ old.num + 1
  | .migrating old new tasks => w.Moving g old new ∧ ∀ o shards,
      (migrationPlan g old new).lookup o = some shards →
        TaskOk w g me new.num o shards (tasks o)
  | .setting new seq => ⟨g, new.num, .setConfig ⟨new, seq, .server g me.1 me.2⟩⟩ ∈ w.issued
  | .failed => False

structure ServerOk (w : World) (g i : ℕ) (sv : Server) : Prop where
  replica : ∃ p, p <+: w.logs g ∧ p.length = sv.applied ∧ Replica g p (finish sv)
  client : sv.kv.clientId = .server g i sv.epoch
  next_published : w.configs[sv.kv.nextConfig.num]? = some sv.kv.nextConfig
  next_le : sv.kv.nextConfig.num ≤ sv.kv.config.num + 1
  proc : ProcOk w g (i, sv.epoch) sv.kv.nextConfig sv.kv.config sv.proc
  /-- Every request is done or under way. -/
  numbers : ∀ r ∈ w.issued, r.op.clientId = .server g i sv.epoch →
    r.op.seqNum ≤ sv.kv.seqNum ∧ (w.Acked r.dst r.op.clientId r.op.seqNum ∨
      ∃ o, sv.proc.outstanding g sv.kv.clientId o = some (r.dst, r.op))
  /-- Nothing is issued in advance. -/
  epochs : ∀ r ∈ w.issued, ∀ e, r.op.clientId = .server g i e → e ≤ sv.epoch

lemma ReadOff.later {config : Config} (h : ReadOff w g config) (hl : Later w w') :
    ReadOff w' g config := by
  obtain ⟨h0, p, hp, hc⟩ := h
  exact ⟨h0, p, hp.trans (hl.logs g), hc⟩

lemma TaskOk.later {me : ℕ × ℕ} {num o : ℕ} {shards : List Shard} {task : Task}
    (h : TaskOk w g me num o shards task) (hl : Later w w') :
    TaskOk w' g me num o shards task := by
  cases task with
  | init => trivial
  | getting seq => exact hl.issued _ h
  | got data map => exact hl.given h
  | putting args => exact ⟨hl.issued _ h.1, h.2⟩
  | put => exact hl.putDone h
  | deleting seq => exact ⟨hl.putDone h.1, hl.issued _ h.2⟩
  | deleted => exact hl.putDone h

lemma ProcOk.later {me : ℕ × ℕ} {nextConfig config config' : Config} {proc : Proc}
    (h : ProcOk w g me nextConfig config proc) (hl : Later w w')
    (hnum : config.num ≤ config'.num) : ProcOk w' g me nextConfig config' proc := by
  cases proc with
  | idle => trivial
  | polled old => exact ⟨h.1.later hl, h.2.1.trans hnum, h.2.2⟩
  | queried old new =>
    obtain ⟨hread, hle, hpub, hnew⟩ := h
    exact ⟨hread.later hl, hle.trans hnum, hl.config hpub, hnew⟩
  | migrating old new tasks =>
    exact ⟨hl.moving h.1, fun o shards hplan => (h.2 o shards hplan).later hl⟩
  | setting new seq => exact hl.issued _ h
  | failed => exact h

/-- A server keeps what it knows when others act. -/
lemma ServerOk.later (h : ServerOk w g i sv) (hl : Later w w')
    (hothers : ∀ r ∈ w'.issued, r ∈ w.issued ∨ ∀ e, r.op.clientId ≠ .server g i e) :
    ServerOk w' g i sv := by
  obtain ⟨p, hp, hlen, hrep⟩ := h.replica
  refine ⟨⟨p, hp.trans (hl.logs g), hlen, hrep⟩, h.client, hl.config h.next_published, h.next_le,
    h.proc.later hl le_rfl, fun r hr hc => ?_, fun r hr e hc => ?_⟩
  · rcases hothers r hr with hr | hne
    · obtain ⟨hle, hor⟩ := h.numbers r hr hc
      exact ⟨hle, hor.imp_left hl.acked⟩
    · exact absurd hc (hne _)
  · rcases hothers r hr with hr | hne
    · exact h.epochs r hr e hc
    · exact absurd hc (hne e)

lemma ServerOk.readOff (h : ServerOk w g i sv) (hg : g ≠ 0) : ReadOff w g sv.kv.config := by
  obtain ⟨p, hp, -, hrep⟩ := h.replica
  exact ⟨hg, p, hp, by rw [← hrep.tracks.config]; exact (sameData_finish sv).config⟩

lemma ServerOk.mark_le (h : ServerOk w g i sv) (c : ClientId) :
    ∃ p, p <+: w.logs g ∧ p.length = sv.applied ∧
      mark sv.kv.clientStatusMap c ≤ (state g p).marks c := by
  obtain ⟨p, hp, hlen, hrep⟩ := h.replica
  exact ⟨p, hp, hlen, (mark_le_finish sv c).trans (hrep.tracks.mark c).le⟩

/-! ### What a server does by itself -/

def Forth (sv sv' : Server) : Prop :=
  sv.epoch < sv'.epoch ∨ (sv'.epoch = sv.epoch ∧ sv.kv.config.num ≤ sv'.kv.config.num ∧
    ∀ c, mark sv.kv.clientStatusMap c ≤ mark sv'.kv.clientStatusMap c)

lemma ServerOk.applier (h : ServerOk w g i sv)
    (hframe : sv'.epoch = sv.epoch ∧ sv'.proc = sv.proc ∧
      sv'.kv.nextConfig = sv.kv.nextConfig ∧ sv'.kv.seqNum = sv.kv.seqNum ∧
      sv'.kv.clientId = sv.kv.clientId)
    (hnum : sv.kv.config.num ≤ sv'.kv.config.num)
    (hrep : ∃ p, p <+: w.logs g ∧ p.length = sv'.applied ∧ Replica g p (finish sv')) :
    ServerOk w g i sv' := by
  obtain ⟨hepoch, hproc, hnext, hseq, hclient⟩ := hframe
  have hle := h.next_le
  refine ⟨hrep, ?_, ?_, ?_, ?_, ?_, ?_⟩
  · rw [hclient, hepoch]
    exact h.client
  · rw [hnext]
    exact h.next_published
  · rw [hnext]
    omega
  · rw [hproc, hepoch, hnext]
    exact h.proc.later (.refl w) hnum
  · rw [hproc, hepoch, hclient, hseq]
    exact h.numbers
  · rw [hepoch]
    exact h.epochs

/-- The numbers and the poller of a server do not matter for what it is a replica of. -/
lemma replica_finish {p : List Op} (h : Replica g p (finish sv))
    (hphase : sv'.phase = sv.phase) (hdata : SameData sv.kv sv'.kv)
    (hmark : ∀ c, mark sv'.kv.clientStatusMap c = mark sv.kv.clientStatusMap c) :
    Replica g p (finish sv') := by
  obtain ⟨hg, hc, hs⟩ := sameData_finish sv
  obtain ⟨hg', hc', hs'⟩ := sameData_finish sv'
  refine h.local (by rw [hg, hg', hdata.gid]) (by rw [hc, hc', hdata.config])
    (by rw [hs, hs', hdata.store]) fun c => ?_
  cases hp : sv.phase with
  | idle => rw [finish_of_idle hp, finish_of_idle (hphase.trans hp), hmark]
  | marking rest own => rw [mark_finish hp, mark_finish (hphase.trans hp), hmark]

/-- The group has the log of the world and snapshots of servers that had applied a part of it. -/
structure GroupOk [Coded (ℕ × (Shard → Data) × Config × GoMap ClientId ℕ)] (w : World) (g : ℕ)
    (gr : Group) : Prop where
  log : gr.log = w.logs g
  started : ∀ op ∈ gr.started, w.Rule (.commit g op)
  snapshots : ∀ sn ∈ gr.snapshots, ∃ p kv, p <+: w.logs g ∧ p.length = sn.1 ∧
    sn.2 = kv.snapshot sn.1 ∧ Replica g p kv

lemma GroupOk.later [Coded (ℕ × (Shard → Data) × Config × GoMap ClientId ℕ)] {gr : Group}
    (h : GroupOk w g gr) (hl : Later w w') (hlog : w'.logs g = w.logs g) : GroupOk w' g gr := by
  refine ⟨h.log.trans hlog.symm, fun op hop => hl.rule (h.started op hop), fun sn hsn => ?_⟩
  obtain ⟨p, kv, hp, hrest⟩ := h.snapshots sn hsn
  exact ⟨p, kv, hp.trans (hl.logs g), hrest⟩

lemma ServerOk.apply (h : ServerOk w g i sv) (hphase : sv.phase = .idle) {op : Op}
    (hop : (w.logs g)[sv.applied]? = some op) :
    ServerOk w g i (sv.apply op) ∧ Forth sv (sv.apply op) := by
  obtain ⟨p, hp, hlen, hrep⟩ := h.replica
  obtain ⟨hepoch, happlied, hproc, hnext, hseq, hclient⟩ := apply_frame sv op
  have hnum : sv.kv.config.num ≤ (sv.apply op).kv.config.num := by
    rw [← (sameData_finish (sv.apply op)).config, finish_apply hphase]
    have ht := hrep.tracks.config
    have ht' := (hrep.applyOp op trivial).tracks.config
    rw [finish_of_idle hphase] at ht ht'
    rw [ht, ht', state_snoc]
    exact GroupState.num_le_apply g _ op
  have hpre : p ++ [op] <+: w.logs g := by
    obtain ⟨rest, hrest⟩ := hp
    rw [← hrest, List.getElem?_append_right hlen.le, hlen, Nat.sub_self] at hop
    cases rest with
    | nil => cases hop
    | cons op' rest =>
      obtain rfl := Option.some.inj hop
      exact ⟨rest, by rw [← hrest]; simp⟩
  refine ⟨h.applier ⟨hepoch, hproc, hnext, hseq, hclient⟩ hnum ⟨p ++ [op], hpre, ?_, ?_⟩,
    Or.inr ⟨hepoch, hnum, fun c => (mark_apply sv op c).ge⟩⟩
  · rw [List.length_append, hlen, happlied]
    rfl
  · rw [finish_apply hphase]
    rw [finish_of_idle hphase] at hrep
    exact hrep.applyOp op trivial

lemma ServerOk.mark {rest : GoMap ClientId ℕ} {own : Option (ClientId × ℕ)} {c : ClientId}
    {n : ℕ} (h : ServerOk w g i sv) (hphase : sv.phase = .marking rest own)
    (hn : rest.lookup c = some n) :
    let sv' := { sv with kv := sv.kv.updateSeqNum c n, phase := .marking (rest.erase c) own }
    ServerOk w g i sv' ∧ Forth sv sv' := by
  intro sv'
  obtain ⟨p, hp, hlen, hrep⟩ := h.replica
  have hle : ∀ c', GoData.mark sv.kv.clientStatusMap c' ≤
      GoData.mark sv'.kv.clientStatusMap c' := by
    intro c'
    show _ ≤ GoData.mark (raise _ _ _) c'
    rw [mark_raise]
    split
    · next hc => rw [hc]; exact le_max_left _ _
    · exact le_rfl
  refine ⟨h.applier ⟨rfl, rfl, rfl, rfl, rfl⟩ le_rfl ⟨p, hp, hlen, ?_⟩,
    Or.inr ⟨rfl, le_rfl, hle⟩⟩
  obtain ⟨hg, hc, hs⟩ := sameData_finish sv
  obtain ⟨hg', hc', hs'⟩ := sameData_finish sv'
  refine hrep.local (hg'.trans hg.symm) (hc'.trans hc.symm) (hs'.trans hs.symm) fun c' => ?_
  have hphase' : sv'.phase = .marking (rest.erase c) own := rfl
  rw [mark_finish hphase, mark_finish hphase']
  show max (max (GoData.mark (raise _ _ _) c') _) _ = _
  rw [mark_raise]
  by_cases hcc : c' = c
  · subst hcc
    have hrest : GoData.mark rest c' = n := by rw [GoData.mark, hn]; rfl
    have herase : GoData.mark (rest.erase c') c' = 0 := by
      rw [GoData.mark, Finmap.lookup_erase]; rfl
    rw [if_pos rfl, hrest, herase, max_eq_left (Nat.zero_le (max _ n))]
  · have herase : GoData.mark (rest.erase c) c' = GoData.mark rest c' := by
      rw [GoData.mark, Finmap.lookup_erase_ne hcc, GoData.mark]
    rw [if_neg hcc, herase]

lemma ServerOk.note {own : Option (ClientId × ℕ)} (h : ServerOk w g i sv)
    (hphase : sv.phase = .marking ∅ own) :
    ServerOk w g i (sv.note own) ∧ Forth sv (sv.note own) := by
  obtain ⟨p, hp, hlen, hrep⟩ := h.replica
  obtain ⟨hg, hc, hs⟩ := sameData_finish sv
  obtain ⟨hg', hc', hs'⟩ := sameData_note sv own
  have hle : ∀ c, GoData.mark sv.kv.clientStatusMap c ≤
      GoData.mark (sv.note own).kv.clientStatusMap c := by
    intro c
    rw [mark_note]
    exact le_max_left _ _
  refine ⟨h.applier ⟨rfl, rfl, ?_, ?_, ?_⟩ (by rw [hc']) ⟨p, hp, hlen, ?_⟩,
    Or.inr ⟨rfl, by rw [hc'], hle⟩⟩
  · cases own <;> rfl
  · cases own <;> rfl
  · cases own <;> rfl
  · have hidle : (sv.note own).phase = .idle := rfl
    rw [finish_of_idle hidle]
    refine hrep.local (hg'.trans hg.symm) (hc'.trans hc.symm) (hs'.trans hs.symm) fun c => ?_
    rw [mark_note, mark_finish hphase, mark_empty, max_eq_left (Nat.zero_le (GoData.mark _ c))]

/-- A snapshot of a longer part of the log. -/
lemma ServerOk.install [Coded (ℕ × (Shard → Data) × Config × GoMap ClientId ℕ)] {gr : Group}
    (h : ServerOk w g i sv) (hgr : GroupOk w g gr) {k index : ℕ} {bytes : Bytes}
    {store : Shard → Data} {config : Config} {map : GoMap ClientId ℕ}
    (hsn : gr.snapshots[k]? = some (index, bytes)) (hphase : sv.phase = .idle)
    (hlt : sv.applied < index) (hdec : decodeSnap bytes index = .ok (store, config, map)) :
    ServerOk w g i (sv.install index store config map) ∧
      Forth sv (sv.install index store config map) := by
  obtain ⟨p, hp, hlen, hrep⟩ := h.replica
  obtain ⟨p', kv', hp', hlen', hbytes, hrep'⟩ := hgr.snapshots _ (List.mem_of_getElem? hsn)
  dsimp only at hlen' hbytes
  rw [hbytes, decodeSnap_snapshot] at hdec
  obtain ⟨rfl, hrest⟩ := Prod.mk.inj (Except.ok.inj hdec)
  obtain ⟨rfl, rfl⟩ := Prod.mk.inj hrest
  obtain ⟨rest, rfl⟩ : p <+: p' := List.prefix_of_prefix_length_le hp hp' (by omega)
  rw [finish_of_idle hphase] at hrep
  have hnum : sv.kv.config.num ≤ kv'.config.num := by
    rw [hrep.tracks.config, hrep'.tracks.config]
    exact num_mono (List.prefix_append p rest)
  exact ⟨h.applier ⟨rfl, rfl, rfl, rfl, rfl⟩ hnum ⟨p ++ rest, hp', hlen', hrep.applySnap hrep'⟩,
    Or.inr ⟨rfl, hnum, fun _ => le_rfl⟩⟩

lemma ServerOk.restart (h : ServerOk w g i sv) (hw : Sound w) :
    ServerOk w g i (.boot g i (sv.epoch + 1)) ∧ Forth sv (.boot g i (sv.epoch + 1)) := by
  refine ⟨⟨⟨[], List.nil_prefix, rfl, .boot _⟩, rfl, hw.initial, Nat.zero_le _, trivial, ?_, ?_⟩,
    Or.inl (Nat.lt_succ_self _)⟩
  · intro r hr hc
    have : sv.epoch + 1 ≤ sv.epoch := h.epochs r hr _ hc
    omega
  · intro r hr e hc
    exact (h.epochs r hr e hc).trans (Nat.le_succ _)

/-- A server with nothing under way has nothing but done requests. -/
lemma ServerOk.poller (h : ServerOk w g i sv)
    (hquiet : ∀ o, sv.proc.outstanding g sv.kv.clientId o = none) (hphase : sv'.phase = sv.phase)
    (hframe : sv'.epoch = sv.epoch ∧ sv'.applied = sv.applied ∧ sv'.kv.seqNum = sv.kv.seqNum ∧
      sv'.kv.clientId = sv.kv.clientId ∧ sv'.kv.clientStatusMap = sv.kv.clientStatusMap)
    (hdata : SameData sv.kv sv'.kv)
    (hpub : w.configs[sv'.kv.nextConfig.num]? = some sv'.kv.nextConfig)
    (hnext : sv'.kv.nextConfig.num ≤ sv.kv.config.num + 1)
    (hproc : ProcOk w g (i, sv.epoch) sv'.kv.nextConfig sv.kv.config sv'.proc) :
    ServerOk w g i sv' ∧ Forth sv sv' := by
  obtain ⟨hepoch, happlied, hseq, hclient, hmap⟩ := hframe
  obtain ⟨p, hp, hlen, hrep⟩ := h.replica
  refine ⟨⟨⟨p, hp, hlen.trans happlied.symm, ?_⟩, ?_, hpub, ?_, ?_, ?_, ?_⟩,
    Or.inr ⟨hepoch, by rw [hdata.config], fun c => by rw [hmap]⟩⟩
  · exact replica_finish hrep hphase hdata fun c => by rw [hmap]
  · rw [hclient, hepoch]
    exact h.client
  · rw [hdata.config]
    exact hnext
  · rw [hepoch, hdata.config]
    exact hproc
  · intro r hr hc
    rw [hepoch] at hc
    obtain ⟨hle, hor⟩ := h.numbers r hr hc
    refine ⟨by rw [hseq]; exact hle, Or.inl (hor.resolve_right ?_)⟩
    rintro ⟨o, ho⟩
    rw [hquiet o] at ho
    cases ho
  · rw [hepoch]
    exact h.epochs

lemma ServerOk.poll (h : ServerOk w g i sv) (hg : g ≠ 0) (hidle : sv.proc = .idle) :
    ServerOk w g i { sv with proc := .polled sv.kv.config } ∧
      Forth sv { sv with proc := .polled sv.kv.config } :=
  h.poller (fun o => by rw [hidle]; rfl) rfl ⟨rfl, rfl, rfl, rfl, rfl⟩ ⟨rfl, rfl, rfl⟩
    h.next_published h.next_le ⟨h.readOff hg, le_rfl, h.next_le⟩

/-- What `Query` can answer. -/
lemma ServerOk.query (h : ServerOk w g i sv) (hw : Sound w) {old config : Config}
    (hproc : sv.proc = .polled old)
    (hquery : w.configs[old.num + 1]? = some config ∨
      (w.configs[old.num + 1]? = none ∧ w.configs.getLast? = some config)) :
    ServerOk w g i { sv with proc := .queried old config } ∧
      Forth sv { sv with proc := .queried old config } := by
  have hold := h.proc
  rw [hproc] at hold
  obtain ⟨⟨hg, p, hp, rfl⟩, hcur, -⟩ := hold
  refine h.poller (fun o => by rw [hproc]; rfl) rfl ⟨rfl, rfl, rfl, rfl, rfl⟩ ⟨rfl, rfl, rfl⟩
    h.next_published h.next_le ⟨⟨hg, p, hp, rfl⟩, hcur, ?_⟩
  rcases hquery with hnew | ⟨hnone, hlast⟩
  · have hnum := hw.numbered _ _ hnew
    rw [← hnum] at hnew
    exact ⟨hnew, by omega, by omega⟩
  · -- no new configuration: the last one is the old one
    have hlt : (state g p).config.num < w.configs.length := by
      obtain ⟨c, hc, -⟩ := hw.tabled g p hp
      exact (List.getElem?_eq_some_iff.mp hc).1
    have hge := List.getElem?_eq_none_iff.mp hnone
    rw [List.getLast?_eq_getElem?] at hlast
    have hnum := hw.numbered _ _ hlast
    rw [← hnum] at hlast
    exact ⟨hlast, by omega, by omega⟩

/-- `changeConfig` goes on with a new configuration, or ends. -/
lemma ServerOk.begin (h : ServerOk w g i sv) {old new : Config}
    (hquiet : ∀ o, sv.proc.outstanding g sv.kv.clientId o = none) (hread : ReadOff w g old)
    (hpub : w.configs[new.num]? = some new) (hle : old.num ≤ new.num)
    (hnum : new.num ≤ old.num + 1) (hnext : new.num ≤ sv.kv.config.num + 1) :
    ServerOk w g i (sv.begin old new) ∧ Forth sv (sv.begin old new) := by
  unfold Server.begin
  dsimp only
  split
  · exact h.poller hquiet rfl ⟨rfl, rfl, rfl, rfl, rfl⟩ ⟨rfl, rfl, rfl⟩ hpub hnext trivial
  · next hne =>
    split
    · exact h.poller hquiet rfl ⟨rfl, rfl, rfl, rfl, rfl⟩ ⟨rfl, rfl, rfl⟩ hpub hnext trivial
    · refine h.poller hquiet rfl ⟨rfl, rfl, rfl, rfl, rfl⟩ ⟨rfl, rfl, rfl⟩ hpub hnext ?_
      rw [if_pos (by omega)]
      exact ⟨⟨hread.1, hread.2, by omega, hpub⟩, fun o shards _ => trivial⟩

/-- **What a server does by itself.** -/
lemma ServerOk.step [Coded (ℕ × (Shard → Data) × Config × GoMap ClientId ℕ)] {gr : Group}
    (h : ServerOk w g i sv) (hw : Sound w) (hgr : GroupOk w g gr) {a : Internal}
    (hs : sv.step w.configs gr g i a = some sv') : ServerOk w g i sv' ∧ Forth sv sv' := by
  cases a with
  | apply =>
    simp only [Server.step] at hs
    split at hs
    · next op hphase hop =>
      obtain rfl := Option.some.inj hs
      exact h.apply hphase (hgr.log ▸ hop)
    · cases hs
  | mark c =>
    simp only [Server.step] at hs
    split at hs
    · next rest own hphase =>
      split at hs
      · next n hn =>
        obtain rfl := Option.some.inj hs
        exact h.mark hphase hn
      · cases hs
    · cases hs
  | note =>
    simp only [Server.step] at hs
    split at hs
    · next rest own hphase =>
      split at hs
      · next hrest =>
        obtain rfl := Option.some.inj hs
        exact h.note (hrest ▸ hphase)
      · cases hs
    · cases hs
  | install k =>
    simp only [Server.step] at hs
    split at hs
    · cases hs
    · next index bytes hsn =>
      split at hs
      · next hguard =>
        split at hs
        · cases hs
        · next store config map hdec =>
          obtain rfl := Option.some.inj hs
          exact h.install hgr hsn hguard.1 hguard.2 hdec
      · cases hs
  | restart =>
    obtain rfl := Option.some.inj hs
    exact h.restart hw
  | poll =>
    simp only [Server.step] at hs
    split at hs
    · next hidle =>
      split at hs
      · next hg =>
        obtain rfl := Option.some.inj hs
        exact h.poll hg hidle
      · cases hs
    · cases hs
  | query =>
    simp only [Server.step] at hs
    split at hs
    · next old hproc =>
      split at hs
      · split at hs
        · next config hnew =>
          obtain rfl := Option.some.inj hs
          exact h.query hw hproc (Or.inl hnew)
        · next config hnone hlast =>
          obtain rfl := Option.some.inj hs
          exact h.query hw hproc (Or.inr ⟨hnone, hlast⟩)
        · cases hs
      · cases hs
    · cases hs
  | begin =>
    have hproc := h.proc
    simp only [Server.step] at hs
    split at hs
    · next old hp =>
      split at hs
      · cases hs
      · next hlt =>
        obtain rfl := Option.some.inj hs
        rw [hp] at hproc
        exact h.begin (fun o => by rw [hp]; rfl) hproc.1 h.next_published (by omega) hproc.2.2
          h.next_le
    · next old new hp =>
      obtain rfl := Option.some.inj hs
      rw [hp] at hproc
      obtain ⟨hread, hcur, hpub, hle, hnum⟩ := hproc
      exact h.begin (fun o => by rw [hp]; rfl) hread hpub hle hnum (by omega)
    · cases hs

end Mit6824.ShardSteps
