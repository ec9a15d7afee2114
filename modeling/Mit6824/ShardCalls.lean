import Mit6824.ShardSteps

/-!
The requests of the servers of the sharded service, and what their calls and the answers show.

A server issues a request when it has what its rule asks for, and goes on when the answer has
shown that the request is done. A handler between two steps knows something of its server as long
as that has not been restarted.
-/

namespace Mit6824.ShardSteps

open Mit6824.GoData Mit6824.ShardServer Mit6824.ShardReplica Mit6824.ShardProtocol
open Mit6824.ShardSystem World Function

variable {w w' : World} {g i : ℕ} {sv sv' : Server}

/-! ### Requests of a server -/

lemma lookup_plan {old new : Config} {o : ℕ} {shards : List Shard} :
    (migrationPlan g old new).lookup o = some shards ↔
      0 < old.num ∧ (getMigrationFromGroupShardsMap g old new).lookup o = some shards := by
  unfold migrationPlan
  split
  · next h => exact ⟨fun hl => ⟨h, hl⟩, fun hl => hl.2⟩
  · next h => exact ⟨fun hl => by simp at hl, fun hl => absurd hl.1 h⟩

lemma ne_of_plan {old new : Config} {o : ℕ} {shards : List Shard}
    (h : (migrationPlan g old new).lookup o = some shards) : o ≠ g :=
  (lookup_migration (lookup_plan.mp h).2).2.1

lemma issue_cases {n o : ℕ} {c : ClientId} {proc proc' : Proc} {r : Issue}
    (h : proc.issue g n c o = some (r, proc')) : ∃ old new tasks,
    proc = .migrating old new tasks ∧
    ((∃ shards task, (migrationPlan g old new).lookup o = some shards ∧
        ((tasks o).isGot → ∀ o' shards', (migrationPlan g old new).lookup o' = some shards' →
          ¬ (tasks o').isPutting) ∧
        (tasks o).issue g new.num n c o shards = some (r, task) ∧
        proc' = .migrating old new (update tasks o task)) ∨
      (o = g ∧ (∀ o' shards, (migrationPlan g old new).lookup o' = some shards →
          tasks o' = .deleted) ∧
        r = ⟨g, new.num, .setConfig ⟨new, n, c⟩⟩ ∧ proc' = .setting new n)) := by
  have hkeys : ∀ {old new : Config} {o' : ℕ} {shards : List Shard},
      (migrationPlan g old new).lookup o' = some shards → o' ∈ (migrationPlan g old new).keys :=
    fun hl => Finmap.mem_keys.mpr (Finmap.mem_of_lookup_eq_some hl)
  cases proc with
  | migrating old new tasks =>
    refine ⟨old, new, tasks, rfl, ?_⟩
    simp only [Proc.issue] at h
    split at h
    · next shards hplan =>
      split at h
      · cases h
      · next hguard =>
        split at h
        · next r' task htask =>
          obtain ⟨rfl, rfl⟩ := Prod.mk.inj (Option.some.inj h)
          exact Or.inl ⟨shards, task, hplan,
            fun hgot o' _ hl hput => hguard ⟨hgot, o', hkeys hl, hput⟩, htask, rfl⟩
        · cases h
    · split at h
      · next hall =>
        obtain ⟨rfl, rfl⟩ := Prod.mk.inj (Option.some.inj h)
        exact Or.inr ⟨hall.1, fun o' shards hl => hall.2 o' (hkeys hl), rfl, rfl⟩
      · cases h
  | _ => cases h

/-- A request that is under way goes to the other group, or it is a `PUT_SHARDS`. -/
lemma outstanding_dst {old new : Config} {tasks : ℕ → Task} {o dst : ℕ} {c : ClientId} {op : Op}
    (h : (Proc.migrating old new tasks).outstanding g c o = some (dst, op)) :
    ∃ shards, (migrationPlan g old new).lookup o = some shards ∧
      (tasks o).outstanding g new.num c o shards = some (dst, op) ∧
      (dst = o ∨ (dst = g ∧ (tasks o).isPutting)) := by
  simp only [Proc.outstanding] at h
  split at h
  · next shards hplan =>
    refine ⟨shards, hplan, h, ?_⟩
    cases ht : tasks o with
    | getting seq =>
      rw [ht] at h
      exact Or.inl (Prod.mk.inj (Option.some.inj h)).1.symm
    | putting args =>
      rw [ht] at h
      exact Or.inr ⟨(Prod.mk.inj (Option.some.inj h)).1.symm, rfl⟩
    | deleting seq =>
      rw [ht] at h
      exact Or.inl (Prod.mk.inj (Option.some.inj h)).1.symm
    | _ =>
      rw [ht] at h
      cases h
  · cases h

lemma TaskOk.issue {me : ℕ × ℕ} {old new : Config} {n o : ℕ} {shards : List Shard}
    {task task' : Task} {r : Issue} (h : TaskOk w g me new.num o shards task)
    (hmov : w.Moving g old new) (hplan : (migrationPlan g old new).lookup o = some shards)
    (hs : task.issue g new.num n (.server g me.1 me.2) o shards = some (r, task')) :
    w.Justified r ∧ r.op.seqNum = n ∧ r.op.clientId = .server g me.1 me.2 ∧
      (r.dst = o ∨ (r.dst = g ∧ task.isGot)) ∧
      task.outstanding g new.num (.server g me.1 me.2) o shards = none ∧
      task'.outstanding g new.num (.server g me.1 me.2) o shards = some (r.dst, r.op) ∧
      TaskOk (w.next (.issue r)) g me new.num o shards task' := by
  have hplan' := (lookup_plan.mp hplan).2
  cases task with
  | init =>
    obtain ⟨rfl, rfl⟩ := Prod.mk.inj (Option.some.inj hs)
    exact ⟨.get hmov hplan', rfl, rfl, Or.inl rfl, rfl, rfl, List.mem_append_right _ (by simp)⟩
  | got data map =>
    obtain ⟨rfl, rfl⟩ := Prod.mk.inj (Option.some.inj hs)
    exact ⟨.put hmov hplan' h, rfl, rfl, Or.inr ⟨rfl, rfl⟩, rfl, rfl,
      List.mem_append_right _ (by simp), rfl, fun s hin => h.mem_iff.mpr hin⟩
  | put =>
    obtain ⟨rfl, rfl⟩ := Prod.mk.inj (Option.some.inj hs)
    exact ⟨.delete hmov hplan' h, rfl, rfl, Or.inl rfl, rfl, rfl,
      (later_next w _).putDone h, List.mem_append_right _ (by simp)⟩
  | _ => cases hs

/-- A request comes to a group in line if none is under way there. -/
lemma ServerOk.inLine (h : ServerOk w g i sv) {r : Issue}
    (hc : r.op.clientId = .server g i sv.epoch) (hseq : r.op.seqNum = sv.kv.seqNum + 1)
    (hfree : ∀ o dst op, sv.proc.outstanding g sv.kv.clientId o = some (dst, op) → dst ≠ r.dst) :
    w.InLine r := by
  refine ⟨by omega, fun r' hr' hc' => ?_⟩
  obtain ⟨hle, hor⟩ := h.numbers r' hr' (hc'.trans hc)
  refine ⟨by omega, fun hdst => hor.resolve_right ?_⟩
  rintro ⟨o, ho⟩
  exact hfree o _ _ ho hdst

/-- The server after it has issued a request. -/
lemma ServerOk.issued (h : ServerOk w g i sv) {r : Issue} {proc : Proc} {o : ℕ}
    (hc : r.op.clientId = .server g i sv.epoch) (hseq : r.op.seqNum = sv.kv.seqNum + 1)
    (hproc : ProcOk (w.next (.issue r)) g (i, sv.epoch) sv.kv.nextConfig sv.kv.config proc)
    (hkeep : ∀ o d, sv.proc.outstanding g sv.kv.clientId o = some d →
      proc.outstanding g sv.kv.clientId o = some d)
    (hnew : proc.outstanding g sv.kv.clientId o = some (r.dst, r.op)) :
    ServerOk (w.next (.issue r)) g i
      { sv with kv := { sv.kv with seqNum := sv.kv.seqNum + 1 }, proc := proc } := by
  have hl := later_next w (.issue r)
  obtain ⟨p, hp, hlen, hrep⟩ := h.replica
  refine ⟨⟨p, hp, hlen, ?_⟩, h.client, h.next_published, h.next_le, hproc, ?_, ?_⟩
  · exact replica_finish hrep rfl ⟨rfl, rfl, rfl⟩ fun _ => rfl
  · intro r' hr' hc'
    rcases List.mem_append.mp hr' with hr' | hr'
    · obtain ⟨hle, hor⟩ := h.numbers r' hr' hc'
      refine ⟨hle.trans (Nat.le_succ _), hor.imp hl.acked ?_⟩
      rintro ⟨o', ho'⟩
      exact ⟨o', hkeep o' _ ho'⟩
    · rw [List.mem_singleton.mp hr']
      exact ⟨hseq.le, Or.inr ⟨o, hnew⟩⟩
  · intro r' hr' e hc'
    rcases List.mem_append.mp hr' with hr' | hr'
    · exact h.epochs r' hr' e hc'
    · rw [List.mem_singleton.mp hr', hc] at hc'
      exact (ClientId.server.inj hc').2.2.ge

/-- **What a server issues is justified and in line.** -/
lemma ServerOk.issue (h : ServerOk w g i sv) {o : ℕ} {r : Issue} {proc : Proc}
    (hs : sv.proc.issue g (sv.kv.seqNum + 1) sv.kv.clientId o = some (r, proc)) :
    w.Rule (.issue r) ∧ r.op.clientId = .server g i sv.epoch ∧
      ServerOk (w.next (.issue r)) g i
        { sv with kv := { sv.kv with seqNum := sv.kv.seqNum + 1 }, proc := proc } := by
  have hl := later_next w (.issue r)
  have hproc := h.proc
  obtain ⟨old, new, tasks, hp, hcases⟩ := issue_cases hs
  rw [hp] at hproc
  obtain ⟨hmov, htasks⟩ := hproc
  rw [h.client] at hcases
  rcases hcases with ⟨shards, task, hplan, hgot, htask, rfl⟩ | ⟨rfl, hall, rfl, rfl⟩
  · obtain ⟨hj, hseq, hc, hdst, hnone, hsome, hok⟩ :=
      (htasks o shards hplan).issue hmov hplan htask
    have hout : ∀ o' dst op, sv.proc.outstanding g sv.kv.clientId o' = some (dst, op) →
        o' ≠ o ∧ dst ≠ r.dst := by
      intro o' dst op ho'
      rw [hp, h.client] at ho'
      obtain ⟨shards', hplan', htask', hdst'⟩ := outstanding_dst ho'
      have hne : o' ≠ o := by
        rintro rfl
        rw [hplan] at hplan'
        rw [← Option.some.inj hplan', hnone] at htask'
        cases htask'
      refine ⟨hne, ?_⟩
      rcases hdst with hd | ⟨hd, hg⟩ <;> rcases hdst' with hd' | ⟨hd', hput⟩
      · rw [hd, hd']
        exact hne
      · rw [hd, hd']
        exact (ne_of_plan hplan).symm
      · rw [hd, hd']
        exact ne_of_plan hplan'
      · exact absurd hput (hgot hg o' shards' hplan')
    refine ⟨⟨hj, h.inLine hc hseq fun o' dst op ho' => (hout o' dst op ho').2⟩, hc,
      h.issued (o := o) hc hseq ⟨hl.moving hmov, fun o' shards' hplan' => ?_⟩ ?_ ?_⟩
    · by_cases hne : o' = o
      · subst hne
        rw [hplan] at hplan'
        rw [update_self, ← Option.some.inj hplan']
        exact hok
      · rw [update_of_ne hne]
        exact (htasks o' shards' hplan').later hl
    · rintro o' ⟨dst, op⟩ ho'
      have hne := (hout o' dst op ho').1
      rw [hp] at ho'
      simp only [Proc.outstanding, update_of_ne hne] at ho' ⊢
      exact ho'
    · simp only [Proc.outstanding, hplan, update_self, h.client]
      exact hsome
  · have hout : ∀ o' d, sv.proc.outstanding o sv.kv.clientId o' ≠ some d := by
      rintro o' ⟨dst, op⟩ ho'
      rw [hp] at ho'
      obtain ⟨shards', hplan', htask', -⟩ := outstanding_dst ho'
      rw [hall o' shards' hplan'] at htask'
      cases htask'
    have hdone : ∀ o' shards, 0 < old.num →
        (getMigrationFromGroupShardsMap o old new).lookup o' = some shards →
        w.PutDone o i sv.epoch new.num shards := by
      intro o' shards hpos hplan
      have hplan' := lookup_plan.mpr ⟨hpos, hplan⟩
      have hok := htasks o' shards hplan'
      rw [hall o' shards hplan'] at hok
      exact hok
    refine ⟨⟨.set hmov hdone, h.inLine rfl rfl fun o' dst op ho' => absurd ho' (hout o' _)⟩, rfl,
      h.issued (o := o) rfl rfl (List.mem_append_right _ (by simp))
        (fun o' d ho' => absurd ho' (hout o' d)) ?_⟩
    simp only [Proc.outstanding, h.client, if_true]

lemma ServerOk.outstanding (h : ServerOk w g i sv) {o dst : ℕ} {op : Op}
    (ho : sv.proc.outstanding g sv.kv.clientId o = some (dst, op)) :
    ∃ m, ⟨dst, m, op⟩ ∈ w.issued := by
  have hproc := h.proc
  cases hp : sv.proc with
  | migrating old new tasks =>
    rw [hp] at ho hproc
    obtain ⟨shards, hplan, htask, -⟩ := outstanding_dst ho
    have hok := hproc.2 o shards hplan
    rw [h.client] at htask
    refine ⟨new.num, ?_⟩
    cases ht : tasks o with
    | getting seq =>
      rw [ht] at htask hok
      obtain ⟨rfl, rfl⟩ := Prod.mk.inj (Option.some.inj htask)
      exact hok
    | putting args =>
      rw [ht] at htask hok
      obtain ⟨rfl, rfl⟩ := Prod.mk.inj (Option.some.inj htask)
      exact hok.1
    | deleting seq =>
      rw [ht] at htask hok
      obtain ⟨rfl, rfl⟩ := Prod.mk.inj (Option.some.inj htask)
      exact hok.2
    | _ =>
      rw [ht] at htask
      cases htask
  | setting new seq =>
    rw [hp, h.client] at ho
    rw [hp] at hproc
    simp only [Proc.outstanding] at ho
    split at ho
    · obtain ⟨rfl, rfl⟩ := Prod.mk.inj (Option.some.inj ho)
      exact ⟨_, hproc⟩
    · cases ho
  | _ =>
    rw [hp] at ho
    cases ho

/-! ### Calls -/

/-- `GetShards` has seen the configuration that it waits for. -/
def Passed (sv : Server) (op : Op) : Prop :=
  ∀ args, op = .getShards args → args.configNum ≤ sv.kv.config.num

def HasNumber (sv : Server) (op : Op) : Prop := op.seqNum ≤ mark sv.kv.clientStatusMap op.clientId

/-- What a handler knows ends with its server. -/
def While (sv : Server) (epoch : ℕ) (P : Prop) : Prop :=
  epoch ≤ sv.epoch ∧ (epoch = sv.epoch → P)

def DoneBy (w : World) (g place : ℕ) (op : Op) : Prop :=
  ∃ p, p <+: w.logs g ∧ p.length = place ∧ op.seqNum ≤ (state g p).marks op.clientId

/-- The shards are those of a server that had adopted the configuration. -/
def Shown (w : World) (g : ℕ) (args : GetShardsArgs) (data : GoMap Shard Data) : Prop :=
  ∃ p kv, p <+: w.logs g ∧ Replica g p kv ∧ args.configNum ≤ kv.config.num ∧
    data = kv.getShards args.shards

def ReplyOk (w : World) (g place : ℕ) (op : Op) (reply : Reply) : Prop :=
  reply.err ≠ .errWrongLeader → DoneBy w g place op ∧ ∀ args err data map, op = .getShards args →
    reply = .getShardsReply err data map → w.Given g args.configNum args.shards data map

def StageOk (w : World) (g : ℕ) (sv : Server) (op : Op) : Stage → Prop
  | .sent => True
  | .passed e => While sv e (Passed sv op)
  | .waiting e => While sv e (Passed sv op)
  | .granted e => While sv e (Passed sv op ∧ HasNumber sv op)
  | .read e data =>
    While sv e (HasNumber sv op) ∧ ∀ args, op = .getShards args → Shown w g args data
  | .replied reply place => ReplyOk w g place op reply

lemma While.forth {e : ℕ} {P P' : Prop} (h : While sv e P) (hf : Forth sv sv')
    (hP : sv'.epoch = sv.epoch → P → P') : While sv' e P' := by
  obtain ⟨hle, hp⟩ := h
  rcases hf with hlt | ⟨heq, -⟩
  · exact ⟨by omega, fun he => by omega⟩
  · exact ⟨hle.trans heq.ge, fun he => hP heq (hp (he.trans heq))⟩

lemma Forth.passed {op : Op} (hf : Forth sv sv') (he : sv'.epoch = sv.epoch)
    (h : Passed sv op) : Passed sv' op := by
  rcases hf with hlt | ⟨-, hnum, -⟩
  · omega
  · exact fun args ho => (h args ho).trans hnum

lemma Forth.done {op : Op} (hf : Forth sv sv') (he : sv'.epoch = sv.epoch) (h : HasNumber sv op) :
    HasNumber sv' op := by
  rcases hf with hlt | ⟨-, -, hmark⟩
  · omega
  · exact le_trans h (hmark _)

lemma Shown.later {args : GetShardsArgs} {data : GoMap Shard Data} (h : Shown w g args data)
    (hl : Later w w') : Shown w' g args data := by
  obtain ⟨p, kv, hp, hrest⟩ := h
  exact ⟨p, kv, hp.trans (hl.logs g), hrest⟩

lemma DoneBy.later {place : ℕ} {op : Op} (h : DoneBy w g place op) (hl : Later w w') :
    DoneBy w' g place op := by
  obtain ⟨p, hp, hrest⟩ := h
  exact ⟨p, hp.trans (hl.logs g), hrest⟩

lemma DoneBy.acked {place : ℕ} {op : Op} (h : DoneBy w g place op) :
    w.Acked g op.clientId op.seqNum := by
  obtain ⟨p, hp, -, hle⟩ := h
  exact hle.trans (marks_mono hp _)

/-- A handler keeps what it knows when others act, its server included. -/
lemma StageOk.later {op : Op} {stage : Stage} (h : StageOk w g sv op stage) (hl : Later w w')
    (hf : Forth sv sv') : StageOk w' g sv' op stage := by
  cases stage with
  | sent => trivial
  | passed e => exact While.forth h hf fun he => hf.passed he
  | waiting e => exact While.forth h hf fun he => hf.passed he
  | granted e => exact While.forth h hf fun he hp => ⟨hf.passed he hp.1, hf.done he hp.2⟩
  | read e data =>
    exact ⟨While.forth h.1 hf fun he => hf.done he, fun args ho => (h.2 args ho).later hl⟩
  | replied reply place =>
    intro hne
    obtain ⟨hdone, hgiven⟩ := h hne
    exact ⟨hdone.later hl, fun args err data map ho hr => hl.given (hgiven args err data map ho hr)⟩

lemma Forth.refl (sv : Server) : Forth sv sv := Or.inr ⟨rfl, le_rfl, fun _ => le_rfl⟩

/-- What a server knows of its own operation. -/
lemma ServerOk.doneBy (h : ServerOk w g i sv) {op : Op} (hd : HasNumber sv op) :
    DoneBy w g sv.applied op := by
  obtain ⟨p, hp, hlen, hle⟩ := h.mark_le op.clientId
  exact ⟨p, hp, hlen, le_trans hd hle⟩

lemma ServerOk.shown (h : ServerOk w g i sv) {args : GetShardsArgs}
    (hp : args.configNum ≤ sv.kv.config.num) :
    Shown w g args (sv.kv.getShards args.shards) := by
  obtain ⟨p, hpre, -, hrep⟩ := h.replica
  obtain ⟨-, hconfig, hstore⟩ := sameData_finish sv
  refine ⟨p, finish sv, hpre, hrep, by rw [hconfig]; exact hp, ?_⟩
  unfold ShardKV.getShards
  rw [hstore]

lemma ServerOk.answer (h : ServerOk w g i sv) {op : Op} (hp : Passed sv op) (hd : HasNumber sv op) :
    StageOk w g sv op (sv.answer op) := by
  have hdone := h.doneBy hd
  cases op with
  | getShards args =>
    refine ⟨⟨le_rfl, fun _ => hd⟩, fun args' ho => ?_⟩
    obtain rfl := Op.getShards.inj ho
    exact h.shown (hp args rfl)
  | get args => exact fun _ => ⟨hdone, fun args' err data map ho => by cases ho⟩
  | putAppend args => exact fun _ => ⟨hdone, fun args' err data map ho => by cases ho⟩
  | putShards args => exact fun _ => ⟨hdone, fun args' err data map ho => by cases ho⟩
  | deleteShards args => exact fun _ => ⟨hdone, fun args' err data map ho => by cases ho⟩
  | setConfig args => exact fun _ => ⟨hdone, fun args' err data map ho => by cases ho⟩

lemma refusal_err (op : Op) : (Op.refusal op).err = .errWrongLeader := by
  cases op <;> rfl

lemma passed_of_ready {op : Op} {stage : Stage} (h : StageOk w g sv op stage)
    (hr : Ready sv.epoch op stage) : Passed sv op := by
  intro args ho
  subst ho
  unfold Ready at hr
  dsimp only at hr
  rw [hr] at h
  exact h.2 rfl args rfl

lemma ServerOk.touch (h : ServerOk w g i sv) (c : ClientId) :
    ServerOk w g i { sv with kv := sv.kv.getClientStatus c } ∧
      Forth sv { sv with kv := sv.kv.getClientStatus c } := by
  obtain ⟨p, hp, hlen, hrep⟩ := h.replica
  exact ⟨h.applier ⟨rfl, rfl, rfl, rfl, rfl⟩ le_rfl ⟨p, hp, hlen,
    replica_finish hrep rfl ⟨rfl, rfl, rfl⟩ fun c' => mark_touch _ _ _⟩,
    Or.inr ⟨rfl, le_rfl, fun c' => (mark_touch _ _ _).ge⟩⟩

lemma operate_cases (sv : Server) (op : Op) (isLeader : Bool) :
    (sv.kv.done op.clientId op.seqNum ∧
      sv.operate op isLeader = ⟨sv.kv.getClientStatus op.clientId, .granted sv.epoch, []⟩) ∨
    sv.operate op isLeader = ⟨sv.kv.getClientStatus op.clientId, .waiting sv.epoch, [op]⟩ ∨
    sv.operate op isLeader =
      ⟨sv.kv.getClientStatus op.clientId, .replied (Op.refusal op) sv.applied, []⟩ := by
  unfold Server.operate ShardKV.operate
  dsimp only
  by_cases hd : (sv.kv.getClientStatus op.clientId).done op.clientId op.seqNum
  · rw [if_pos hd]
    left
    refine ⟨?_, rfl⟩
    change mark (touch _ _) _ ≥ _ at hd
    rwa [mark_touch] at hd
  · rw [if_neg hd]
    cases isLeader
    · exact Or.inr (Or.inr rfl)
    · exact Or.inr (Or.inl rfl)

lemma ServerOk.operate (h : ServerOk w g i sv) {op : Op} {stage : Stage} {r : Handled}
    (hs : StageOk w g sv op stage) (hr : Ready sv.epoch op stage) {isLeader : Bool}
    (heq : sv.operate op isLeader = r) :
    ServerOk w g i { sv with kv := r.kv } ∧ Forth sv { sv with kv := r.kv } ∧
      StageOk w g { sv with kv := r.kv } op r.stage ∧ ∀ op' ∈ r.started, op' = op := by
  obtain ⟨hok, hf⟩ := h.touch op.clientId
  have hp := hf.passed rfl (passed_of_ready hs hr)
  rcases operate_cases sv op isLeader with ⟨hd, hcase⟩ | hcase | hcase <;>
    obtain rfl := hcase.symm.trans heq
  · exact ⟨hok, hf, ⟨le_rfl, fun _ => ⟨hp, hf.done rfl hd⟩⟩, fun _ hin => by cases hin⟩
  · exact ⟨hok, hf, ⟨le_rfl, fun _ => hp⟩, fun _ hin => List.mem_singleton.mp hin⟩
  · exact ⟨hok, hf, fun hne => absurd (refusal_err op) hne, fun _ hin => by cases hin⟩

/-- **What a handler does.** -/
lemma ServerOk.handle (h : ServerOk w g i sv) {op : Op} {stage : Stage} {a : Handling}
    {r : Handled} (hs : StageOk w g sv op stage) (hr : sv.handle op stage a = some r) :
    ServerOk w g i { sv with kv := r.kv } ∧ Forth sv { sv with kv := r.kv } ∧
      StageOk w g { sv with kv := r.kv } op r.stage ∧ ∀ op' ∈ r.started, op' = op := by
  cases a with
  | pass =>
    simp only [Server.handle] at hr
    split at hr
    · next args =>
      split at hr
      · next hguard =>
        obtain rfl := Option.some.inj hr
        refine ⟨h, .refl sv, ⟨le_rfl, fun _ args' ho => ?_⟩, fun _ hin => by cases hin⟩
        obtain rfl := Op.getShards.inj ho
        exact Nat.not_lt.mp hguard.2
      · cases hr
    · cases hr
  | operate isLeader =>
    simp only [Server.handle] at hr
    split at hr
    · next hready => exact h.operate hs hready (Option.some.inj hr)
    · cases hr
  | wake =>
    simp only [Server.handle] at hr
    split at hr
    · next hguard =>
      obtain rfl := Option.some.inj hr
      rw [hguard.1] at hs
      exact ⟨h, .refl sv, ⟨le_rfl, fun _ => ⟨hs.2 rfl, hguard.2⟩⟩, fun _ hin => by cases hin⟩
    · cases hr
  | answer =>
    simp only [Server.handle] at hr
    split at hr
    · next hguard =>
      obtain rfl := Option.some.inj hr
      rw [hguard] at hs
      obtain ⟨hp, hd⟩ := hs.2 rfl
      exact ⟨h, .refl sv, h.answer hp hd, fun _ hin => by cases hin⟩
    · cases hr
  | finish =>
    simp only [Server.handle] at hr
    split at hr
    · next e data =>
      split at hr
      · next he =>
        obtain rfl := Option.some.inj hr
        obtain ⟨⟨-, hd⟩, hshown⟩ := hs
        refine ⟨h, .refl sv, fun _ => ⟨h.doneBy (hd he), fun args err data' map ho hrep => ?_⟩,
          fun _ hin => by cases hin⟩
        obtain ⟨-, rfl, rfl⟩ := Reply.getShardsReply.inj hrep
        refine ⟨hshown args ho, fun c => ?_⟩
        obtain ⟨p, hp, -, hle⟩ := h.mark_le c
        exact hle.trans (marks_mono hp c)
      · cases hr
    · cases hr

lemma TaskOk.receive {me : ℕ × ℕ} {num o dst place : ℕ} {shards : List Shard} {task task' : Task}
    {op : Op} {reply : Reply} (h : TaskOk w g me num o shards task)
    (hout : task.outstanding g num (.server g me.1 me.2) o shards = some (dst, op))
    (hreply : ReplyOk w dst place op reply) (hne : reply.err ≠ .errWrongLeader)
    (hs : task.receive reply = some task') :
    TaskOk w g me num o shards task' ∧
      task'.outstanding g num (.server g me.1 me.2) o shards = none := by
  obtain ⟨hdone, hgiven⟩ := hreply hne
  cases task with
  | getting seq =>
    obtain ⟨rfl, rfl⟩ := Prod.mk.inj (Option.some.inj hout)
    cases reply with
    | getShardsReply err data map =>
      obtain rfl := Option.some.inj hs
      exact ⟨hgiven _ err data map rfl rfl, rfl⟩
    | _ => cases hs
  | putting args =>
    obtain ⟨rfl, rfl⟩ := Prod.mk.inj (Option.some.inj hout)
    obtain ⟨hr, hc, hin⟩ := h
    obtain ⟨data, map, seq, client⟩ := args
    dsimp only at hc
    subst hc
    cases reply with
    | reply err =>
      obtain rfl := Option.some.inj hs
      exact ⟨⟨data, map, seq, hr, hin, hdone.acked⟩, rfl⟩
    | _ => cases hs
  | deleting seq =>
    cases reply with
    | reply err =>
      obtain rfl := Option.some.inj hs
      exact ⟨h.1, rfl⟩
    | _ => cases hs
  | _ => cases hout

lemma ServerOk.received (h : ServerOk w g i sv) {proc : Proc} {dst : ℕ} {op : Op}
    (hproc : ProcOk w g (i, sv.epoch) sv.kv.nextConfig sv.kv.config proc)
    (hack : w.Acked dst op.clientId op.seqNum)
    (hkeep : ∀ o d, sv.proc.outstanding g sv.kv.clientId o = some d →
      proc.outstanding g sv.kv.clientId o = some d ∨ d = (dst, op)) :
    ServerOk w g i { sv with proc := proc } := by
  obtain ⟨p, hp, hlen, hrep⟩ := h.replica
  refine ⟨⟨p, hp, hlen, replica_finish hrep rfl ⟨rfl, rfl, rfl⟩ fun _ => rfl⟩, h.client,
    h.next_published, h.next_le, hproc, fun r hr hc => ?_, h.epochs⟩
  obtain ⟨hle, hor⟩ := h.numbers r hr hc
  refine ⟨hle, ?_⟩
  rcases hor with hacked | ⟨o, ho⟩
  · exact Or.inl hacked
  · rcases hkeep o _ ho with ho' | hd
    · exact Or.inr ⟨o, ho'⟩
    · obtain ⟨hd, hop⟩ := Prod.mk.inj hd
      left
      rw [hd, hop]
      exact hack

/-- **What a server is answered.** -/
lemma ServerOk.receive (h : ServerOk w g i sv) {o dst place : ℕ} {op : Op} {reply : Reply}
    {proc : Proc} (hout : sv.proc.outstanding g sv.kv.clientId o = some (dst, op))
    (hreply : ReplyOk w dst place op reply) (hne : reply.err ≠ .errWrongLeader)
    (hs : sv.proc.receive o reply = some proc) :
    ServerOk w g i { sv with proc := proc } ∧ Forth sv { sv with proc := proc } := by
  refine ⟨?_, Or.inr ⟨rfl, le_rfl, fun _ => le_rfl⟩⟩
  have hack := (hreply hne).1.acked
  have hproc := h.proc
  cases hp : sv.proc with
  | migrating old new tasks =>
    rw [hp] at hs hout hproc
    rw [h.client] at hout
    obtain ⟨hmov, htasks⟩ := hproc
    obtain ⟨shards, hplan, htask, -⟩ := outstanding_dst hout
    simp only [Proc.receive] at hs
    split at hs
    · next task ht =>
      obtain rfl := Option.some.inj hs
      obtain ⟨hok, hnone⟩ := (htasks o shards hplan).receive htask hreply hne ht
      refine h.received ⟨hmov, fun o' shards' hplan' => ?_⟩ hack fun o' d ho' => ?_
      · by_cases ho : o' = o
        · subst ho
          rw [hplan] at hplan'
          rw [update_self, ← Option.some.inj hplan']
          exact hok
        · rw [update_of_ne ho]
          exact htasks o' shards' hplan'
      · rw [hp, h.client] at ho'
        by_cases ho : o' = o
        · subst ho
          exact Or.inr (Option.some.inj (ho'.symm.trans hout))
        · left
          simp only [Proc.outstanding, update_of_ne ho, h.client] at ho' ⊢
          exact ho'
    · cases hs
  | setting new seq =>
    rw [hp] at hs hout
    obtain rfl := Option.some.inj hs
    refine h.received trivial hack fun o' d ho' => Or.inr ?_
    rw [hp] at ho'
    simp only [Proc.outstanding] at ho' hout
    split at ho'
    · split at hout
      · exact Option.some.inj (ho'.symm.trans hout)
      · cases hout
    · cases ho'
  | _ =>
    rw [hp] at hs
    cases hs

end Mit6824.ShardSteps
