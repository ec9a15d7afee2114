import Mit6824.RaftSimFollow

/-!
Compaction: snapshots that a service takes and snapshots that a leader sends.

Only here does it matter whether the log of a server continues the prefix its snapshot covers:
`InstallSnapshot` keeps the entries above the snapshot whatever was below them.
-/

namespace Mit6824.RaftSim

open Mit6824.Labgob Mit6824.Quorum Mit6824.TermLog Mit6824.Repl
open Mit6824.RaftLog Mit6824.RaftState Mit6824.RaftElection Mit6824.RaftReplication
open Mit6824.RaftApplier Mit6824.RaftCluster Function

variable {n : ℕ} {C : Type} [Coded (Persisted n C)] [Inhabited C] [Coded (List C)]
variable {K : Prop} {c : Cluster n C} {a : Abs n C} {j : Fin n}

/-- **A server compacts its log.** -/
lemma Sim.compact (h : Sim K c a) (term : ℕ) (data : Bytes) {index : ℕ} {lg : Log C}
    (hret : Retains lg (a.log j)) (hidx : lg.index0 = index)
    (hle : (c.servers j).raft.snapshotIndex ≤ index)
    (hshot : Shot c.taken a (c.servers j).raft.currentTerm index term data)
    (hco : K → Decided a (c.servers j).raft.currentTerm ((a.log j).take index)) :
    Act j a (compact a j index) ∧ Sim K (c.setRaft j (persist { (c.servers j).raft with
      log := lg, snapshotIndex := index, snapshotTerm := term, snapshot := data }))
      (compact a j index) := by
  have hj := h.server j
  have hm := hj.mirror
  have hact : Act j a (Repl.compact a j index) := Act.compact (hm.snap.trans_le hle)
  have hE := h.inv.ext hact.reach
  refine ⟨hact, h.actRaft hact ?_ (Or.inr ⟨rfl, fun h => h⟩) h.started⟩
  refine ⟨⟨hm.me, hm.term, hm.held, hm.cand, hm.lead, ?_, hidx, hret⟩, durable_persist _,
    hshot.mono hE le_rfl (List.Subset.refl _), fun hK => (hco hK).ext hE, ?_, hj.applied,
    hj.leading.ext hE hm rfl rfl rfl rfl,
    hj.serving.mono hE (List.Subset.refl _) le_rfl rfl le_rfl hle rfl rfl⟩
  · simp [Repl.compact, persist]
  · obtain ⟨l, hl, hlen, hor⟩ := hj.commit
    exact ⟨l, hl.ext hE, hlen, hor.imp id fun hs => hs.trans hle⟩

/-! ### Snapshots of the leader -/

/-- A log of a given start. -/
def retainedFrom (x : List (Entry C)) (i : ℕ) : Log C := ⟨⟨termAt x i, default⟩ :: x.drop i, i⟩

omit [Coded (Persisted n C)] [Coded (List C)] in
lemma retains_retainedFrom {x : List (Entry C)} {i : ℕ} (h : i ≤ x.length) :
    Retains (retainedFrom x i) x := ⟨h, _, rfl, rfl⟩

section Install

variable {call : Call n (InstallSnapshotArgs n) InstallSnapshotReply}
  (hterm : (c.servers call.dst).raft.currentTerm = call.args.term)
include hterm

/-- The server has more than the snapshot covers: it keeps its log. -/
lemma Sim.installKeep (h : Sim K c a) (hok : SnapshotOk c.taken a call)
    (hlow : (c.servers call.dst).raft.snapshotIndex < call.args.lastIncludedIndex)
    (hlong : (c.servers call.dst).raft.log.lastIndex > call.args.lastIncludedIndex)
    (hK : K → termAt (a.log call.dst) call.args.lastIncludedIndex =
      call.args.lastIncludedTerm) :
    ∃ rf, replaceLog (c.servers call.dst).raft call.args = .ok rf ∧ ∃ b, Reach a b ∧
      Sim K (c.setRaft call.dst rf) b ∧
      Covers b call.dst call.args.term call.args.lastIncludedIndex := by
  have hm := (h.server call.dst).mirror
  rw [hm.log.lastIndex] at hlong
  obtain ⟨lg, hcut, hidx, hret⟩ := hm.log.cutOffHead (i := call.args.lastIncludedIndex)
    (by rw [hm.index0]; omega) hlong.le
  have hshot := hok.shot
  rw [← hterm] at hshot
  have hco : K → Decided a (c.servers call.dst).raft.currentTerm
      ((a.log call.dst).take call.args.lastIncludedIndex) := by
    -- with the snapshot's term at its index the log has the snapshot's prefix
    intro hk
    obtain ⟨l, hl, hlen, hlt, -⟩ := hshot
    have hel : Elected a (c.servers call.dst).raft.currentTerm := ⟨_, hterm ▸ hok.lead⟩
    have : (a.log call.dst).take call.args.lastIncludedIndex = l := by
      refine (h.inv.log.log call.dst).matching (h.inv.log.llog hel) (List.take_prefix _ _)
        (h.inv.decided_prefix hl hel) ?_ ?_
      · rw [List.length_take]; omega
      · rw [lastTerm_take, hK hk, hlt]
    rw [this]
    exact hl
  obtain ⟨hact, hb⟩ := h.compact _ _ hret hidx hlow.le hshot hco
  refine ⟨_, replaceLog_keep (by rw [hm.log.lastIndex]; exact hlong) hcut, _, hact.reach, hb,
    (hm.term.trans hterm).ge, fun _ => Or.inl ?_⟩
  simp [Repl.compact]

/-- The snapshot covers all that the server has: it drops its log. -/
lemma Sim.installDrop (h : Sim K c a) (hok : SnapshotOk c.taken a call)
    (hr : (c.servers call.dst).raft.role ≠ .candidate)
    (hlow : (c.servers call.dst).raft.snapshotIndex < call.args.lastIncludedIndex)
    (hshort : ¬ (c.servers call.dst).raft.log.lastIndex > call.args.lastIncludedIndex) :
    ∃ rf, replaceLog (c.servers call.dst).raft call.args = .ok rf ∧ ∃ b, Reach a b ∧
      Sim K (c.setRaft call.dst rf) b ∧
      Covers b call.dst call.args.term call.args.lastIncludedIndex := by
  have hm := (h.server call.dst).mirror
  have hat : a.term call.dst = call.args.term := hm.term.trans hterm
  have hel : Elected a call.args.term := ⟨_, hok.lead⟩
  have hs : a.lead call.args.term ≠ some call.dst := by
    rw [hok.lead]; exact fun h => hok.ne (Option.some.inj h)
  obtain ⟨l, hl, hlen, hlt, hdata⟩ := hok.shot
  have hpre := h.inv.decided_prefix hl hel
  have htake : (a.llog call.args.term).take call.args.lastIncludedIndex = l := by
    rw [← hlen, ← List.prefix_iff_eq_take.mp hpre]
  have hact : Act call.dst a (Repl.setLog a call.dst l) := by
    have := Act.adopt (a := a) (s := call.dst) (m := call.args.lastIncludedIndex) (hat ▸ hel)
      (hat ▸ hs) (fun hc => hr (hm.cand.mp hc)) ?_
    · rwa [hat, htake] at this
    · intro x _ hx
      have := hx.length_le
      rw [hm.log.lastIndex] at hshort
      omega
  -- the log of the leader up to the snapshot is taken over and compacted at once
  have hfrom : Retains (retainedFrom l (c.servers call.dst).raft.snapshotIndex) l :=
    retains_retainedFrom (by omega)
  have h1 := h.setLog hact (fun hl' => hs (hterm ▸ hm.lead hl')) hfrom hm.index0.symm
  have hlog : (Repl.setLog a call.dst l).log call.dst = l := log_setLog a call.dst l
  have hdec : Decided (Repl.setLog a call.dst l) call.args.term l := hl.ext (h.inv.ext hact.reach)
  have hret : Retains (⟨[⟨call.args.lastIncludedTerm, default⟩], call.args.lastIncludedIndex⟩ :
      Log C) l :=
    ⟨hlen.ge, ⟨call.args.lastIncludedTerm, default⟩, by simp [← hlen],
      by simp [← hlen, termAt_length, hlt]⟩
  obtain ⟨hact', h2⟩ := h1.compact (j := call.dst) call.args.lastIncludedTerm
    call.args.data (hlog.symm ▸ hret) rfl (by rw [servers_setRaft]; exact hlow.le)
    (by rw [servers_setRaft]; exact ⟨l, hterm.symm ▸ hdec, hlen, hlt, hdata⟩)
    (fun _ => by
      rw [servers_setRaft, hlog, ← hlen, List.take_length]
      exact hterm.symm ▸ hdec)
  rw [setRaft_setRaft, servers_setRaft, raft_setRaft] at h2
  refine ⟨_, replaceLog_drop hshort, _, hact.reach.trans hact'.reach, h2, hat.ge,
    fun _ => Or.inl ?_⟩
  simp [Repl.compact]

lemma Sim.installSkip (h : Sim K c a) (hok : SnapshotOk c.taken a call)
    (hskip : (c.servers call.dst).raft.snapshotIndex ≥ call.args.lastIncludedIndex ∨
      (c.servers call.dst).raft.lastApplied ≥ call.args.lastIncludedIndex) :
    Covers a call.dst call.args.term call.args.lastIncludedIndex := by
  have hj := h.server call.dst
  have hm := hj.mirror
  refine ⟨(hm.term.trans hterm).ge, fun _ => ?_⟩
  rw [hm.snap]
  by_cases hge : (c.servers call.dst).raft.snapshotIndex ≥ call.args.lastIncludedIndex
  · exact Or.inl hge
  · right
    have happ := hj.applied
    have hla := hskip.resolve_left hge
    obtain ⟨l, hl, hlen, hor⟩ := hj.commit
    rw [hterm] at hl
    have hlog := hor.resolve_right (by omega)
    have hpre := h.inv.decided_prefix hl ⟨_, hok.lead⟩
    exact (List.prefix_of_prefix_length_le (List.take_prefix _ _) hpre
      (by rw [List.length_take]; omega)).trans hlog

end Install

/-- The condition under which `InstallSnapshot` keeps the entries above a snapshot for a
reason: where it passes its checks and the log is longer, the server's own entry at the
snapshot's index is of the snapshot's term. -/
def KeepsSuffix (rf : Raft n C) (args : InstallSnapshotArgs n) : Prop :=
  rf.currentTerm ≤ args.term → rf.snapshotIndex < args.lastIncludedIndex →
    rf.lastApplied < args.lastIncludedIndex → rf.log.lastIndex > args.lastIncludedIndex →
    (rf.log.entry args.lastIncludedIndex).map Entry.term = .ok args.lastIncludedTerm

lemma Sim.answerSnapshot (h : Sim K c a) {k : ℕ}
    {call : Call n (InstallSnapshotArgs n) InstallSnapshotReply}
    (hk : c.snapshotCalls[k]? = some call) (hok : SnapshotOk c.taken a call)
    {r : InstallSnapshotReply} (hr : r.term ≤ call.args.term →
      Covers a call.dst call.args.term call.args.lastIncludedIndex) :
    Sim K { c with snapshotCalls := c.snapshotCalls.set k (call.answer r) } a := by
  refine h.setSnapshotCall hk ⟨hok.lead, hok.ne, hok.pos, hok.shot, hok.aligned, ?_⟩ rfl rfl rfl
  intro r' hr' hle
  obtain rfl : r = r' := by simpa [Call.answer] using hr'
  exact hr hle

lemma Sim.replaceLog (h : Sim K c a) {call : Call n (InstallSnapshotArgs n) InstallSnapshotReply}
    (hterm : (c.servers call.dst).raft.currentTerm = call.args.term)
    (hr : (c.servers call.dst).raft.role ≠ .candidate) (hok : SnapshotOk c.taken a call)
    (hneed : ¬ ((c.servers call.dst).raft.snapshotIndex ≥ call.args.lastIncludedIndex ∨
      (c.servers call.dst).raft.lastApplied ≥ call.args.lastIncludedIndex))
    (hK : K → KeepsSuffix (c.servers call.dst).raft call.args) :
    ∃ rf, replaceLog (c.servers call.dst).raft call.args = .ok rf ∧ ∃ b, Reach a b ∧
      Sim K (c.setRaft call.dst rf) b ∧
      Covers b call.dst call.args.term call.args.lastIncludedIndex := by
  rw [not_or, not_le, not_le] at hneed
  by_cases hlong : (c.servers call.dst).raft.log.lastIndex > call.args.lastIncludedIndex
  · refine h.installKeep hterm hok hneed.1 hlong fun hk => ?_
    have hm := (h.server call.dst).mirror
    have hkeep := hK hk hterm.le hneed.1 hneed.2 hlong
    rw [hm.log.lastIndex] at hlong
    obtain ⟨e, he, hte, -⟩ := hm.log.entry (i := call.args.lastIncludedIndex)
      (by rw [hm.index0]; exact hneed.1.le) hlong.le
    rw [he] at hkeep
    rw [← hte]
    exact Except.ok.inj hkeep
  · exact h.installDrop hterm hok hr hneed.1 hlong

/-- **A server handles a snapshot of the leader.** -/
lemma Sim.installSnapshot (h : Sim K c a) {k : ℕ} {r : Except Panic (Cluster n C)}
    (hs : step c (.installSnapshot k) = some r)
    (hK : K → ∀ call, c.snapshotCalls[k]? = some call →
      KeepsSuffix (c.servers call.dst).raft call.args) :
    ∃ c', r = .ok c' ∧ ∃ b, Reach a b ∧ Sim K c' b := by
  rcases hk : c.snapshotCalls[k]? with _ | call
  · simp [step, hk] at hs
  by_cases hnone : call.reply.isNone
  swap
  · simp [step, hk, hnone] at hs
  have hok := h.snapshots call (List.mem_of_getElem? hk)
  have hrun : ∃ rf, RaftReplication.installSnapshot (c.servers call.dst).raft call.args =
      .ok (rf, ⟨(c.servers call.dst).raft.currentTerm⟩) ∧ ∃ b, Reach a b ∧
        Sim K (c.setRaft call.dst rf) b ∧
        ((c.servers call.dst).raft.currentTerm ≤ call.args.term →
          Covers b call.dst call.args.term call.args.lastIncludedIndex) := by
    by_cases hold : call.args.term < (c.servers call.dst).raft.currentTerm
    · exact ⟨_, by rw [RaftReplication.installSnapshot, if_pos hold], a, .refl,
        by rw [setRaft_self]; exact h, fun hle => absurd hle (not_le.mpr hold)⟩
    obtain ⟨b, hact, hb, hterm, hrole⟩ :=
      h.heardFrom (j := call.dst) hok.lead call.args.leaderId (not_lt.mp hold)
    have hok' := hok.ext (h.inv.ext hact.reach) (List.Subset.refl _) h.inv
    have hsame := heardFrom_unchanged (c.servers call.dst).raft call.args.term call.args.leaderId
    by_cases hskip :
        (RaftReplication.heardFrom (c.servers call.dst).raft call.args.term
          call.args.leaderId).snapshotIndex ≥ call.args.lastIncludedIndex ∨
        (RaftReplication.heardFrom (c.servers call.dst).raft call.args.term
          call.args.leaderId).lastApplied ≥ call.args.lastIncludedIndex
    · exact ⟨_, by rw [RaftReplication.installSnapshot, if_neg hold, if_pos hskip], b,
        hact.reach, hb, fun _ => hb.installSkip
          (by rw [servers_setRaft]; exact hterm) hok' (by rw [servers_setRaft]; exact hskip)⟩
    · have hrep := hb.replaceLog (by rw [servers_setRaft]; exact hterm)
        (by rw [servers_setRaft]; exact hrole) hok' (by rw [servers_setRaft]; exact hskip) ?_
      · rw [servers_setRaft, raft_setRaft] at hrep
        obtain ⟨rf, hrf, b', hreach, hb', hcov⟩ := hrep
        rw [setRaft_setRaft] at hb'
        refine ⟨rf, ?_, b', hact.reach.trans hreach, hb', fun _ => hcov⟩
        rw [RaftReplication.installSnapshot, if_neg hold, if_neg hskip, hrf]
        rfl
      · intro hk' _
        rw [servers_setRaft, raft_setRaft, hsame.1, hsame.2.1, hsame.2.2.1]
        exact hK hk' call hk (not_lt.mp hold)
  obtain ⟨rf, hrf, b, hreach, hb, hcov⟩ := hrun
  simp only [step, hk, hnone, if_true, hrf, bind, Except.bind, pure, Except.pure,
    Option.some.injEq] at hs
  exact ⟨_, hs.symm, b, hreach, hb.answerSnapshot hk
    (hok.ext (h.inv.ext hreach) (List.Subset.refl _) h.inv) hcov⟩

/-! ### Snapshots of the service -/

/-- What the service holds above the snapshot is in the log, up to any index it has reached. -/
lemma Sim.service_prefix (h : Sim K c a) {index : ℕ}
    (hlen : index ≤ (c.servers j).service.length)
    (hlow : (c.servers j).raft.snapshotIndex < index) :
    ∃ l, Decided a (c.servers j).raft.currentTerm l ∧ l.length = index ∧ l <+: a.log j ∧
      commands l = (c.servers j).service.take index := by
  have hj := h.server j
  obtain ⟨l, hl, hci, hor⟩ := hj.commit
  obtain ⟨d, hd, hserv⟩ := hj.serving.service
  have hcommit : index ≤ (c.servers j).raft.commitIndex := by
    have happ := hj.applied
    rcases hpc : (c.servers j).applier with _ | m | m
    · have := hj.serving.waiting hpc; omega
    · have := (hj.serving.sending m hpc).1; omega
    · obtain ⟨hsl, hch⟩ := hj.serving.sent m hpc
      cases m with
      | command cmd i =>
        have h2 : i ≤ (c.servers j).raft.commitIndex := hch.2
        have h1 : (c.servers j).service.length = i := hsl
        omega
      | snapshot data term i =>
        have h2 : i ≤ (c.servers j).raft.snapshotIndex := hch.2
        have h1 : (c.servers j).service.length = i := hsl
        omega
  have hlog := hor.resolve_right (by omega)
  have hdlen : d.length = (c.servers j).service.length := by simp [hserv, commands]
  have hdec := hl.mono le_rfl (List.take_prefix index l)
  refine ⟨l.take index, hdec, by rw [List.length_take]; omega,
    (List.take_prefix _ _).trans hlog, ?_⟩
  have heq : l.take index = d.take index :=
    h.inv.decided_eq hdec (hd.mono le_rfl (List.take_prefix index d))
      (by rw [List.length_take, List.length_take]; omega)
  rw [heq, hserv, commands, commands, List.map_take]

/-- **A service takes a snapshot.** -/
lemma Sim.snapshot (h : Sim K c a) {index : ℕ} {r : Except Panic (Cluster n C)}
    (hs : step c (.snapshot j index) = some r) :
    ∃ c', r = .ok c' ∧ ∃ b, Reach a b ∧ Sim K c' b := by
  by_cases hlen : index ≤ (c.servers j).service.length
  swap
  · simp [step, hlen] at hs
  have hm := (h.server j).mirror
  set commands' := (c.servers j).service.take index with hcmd
  have h1 := h.addTaken ⟨j, index, commands'⟩
  have hrun : ∃ rf, RaftReplication.snapshot (c.servers j).raft index (encode commands') =
      .ok rf ∧ ∃ b, Reach a b ∧
        Sim K { c.setRaft j rf with taken := ⟨j, index, commands'⟩ :: c.taken } b := by
    by_cases hlow : index ≤ (c.servers j).raft.snapshotIndex
    · refine ⟨_, by rw [RaftReplication.snapshot, if_pos hlow]; rfl, a, .refl, ?_⟩
      rw [setRaft_self]; exact h1
    obtain ⟨l, hl, hll, hlog, hcl⟩ := h.service_prefix hlen (not_le.mp hlow)
    have hstart : (c.servers j).raft.log.index0 ≤ index := by rw [hm.index0]; omega
    have hend : index ≤ (a.log j).length := hll ▸ hlog.length_le
    obtain ⟨e, he, hte, -⟩ := hm.log.entry hstart hend
    obtain ⟨lg, hcut, hidx, hret⟩ := hm.log.cutOffHead hstart hend
    have htake : (a.log j).take index = l := by
      rw [← hll, ← List.prefix_iff_eq_take.mp hlog]
    obtain ⟨hact, hb⟩ := h1.compact (j := j) e.term (encode commands') hret hidx
      (not_le.mp hlow).le
      ⟨l, hl, hll, by rw [← htake, lastTerm_take, hte], fun _ =>
        ⟨by rw [hcl], _, List.mem_cons_self .., rfl, hcl.symm⟩⟩
      (fun _ => by rw [htake]; exact hl)
    refine ⟨_, ?_, _, hact.reach, hb⟩
    simp only [RaftReplication.snapshot, if_neg hlow, he, hcut, bind, Except.bind, pure,
      Except.pure]
  obtain ⟨rf, hrf, b, hreach, hb⟩ := hrun
  simp only [step, if_pos hlen, ← hcmd, hrf, bind, Except.bind, pure, Except.pure,
    Option.some.injEq] at hs
  exact ⟨_, hs.symm, b, hreach, hb⟩

end Mit6824.RaftSim
