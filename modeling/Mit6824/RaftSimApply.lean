import Mit6824.RaftSimSnapshot

/-!
Applying and restarting.
-/

namespace Mit6824.RaftSim

open Mit6824.Labgob Mit6824.Quorum Mit6824.TermLog Mit6824.Repl
open Mit6824.RaftLog Mit6824.RaftState Mit6824.RaftElection Mit6824.RaftReplication
open Mit6824.RaftApplier Mit6824.RaftCluster Function

variable {n : ℕ} {C : Type} [Coded (Persisted n C)] [Inhabited C] [Coded (List C)]
variable {K : Prop} {c : Cluster n C} {a : Abs n C} {j : Fin n}

/-! ### The applier -/

lemma Sim.setApplier (h : Sim K c a) {ap : Applier C} {sv : List C}
    (hs : Serving c.taken a { c.servers j with applier := ap, service := sv }) :
    Sim K (c.setServer j { c.servers j with applier := ap, service := sv }) a := by
  have hj := h.server j
  exact h.act (Act.refl j a) ⟨hj.mirror, hj.durable, hj.shot, hj.coherent, hj.commit, hj.applied,
    hj.leading, hs⟩ (fun _ _ he => Or.inl he) (Or.inr ⟨rfl, Or.inr ⟨rfl, fun h => h⟩⟩) h.started

/-- What the applier takes up is the next thing to apply. -/
lemma Sim.nextMsg (h : Sim K c a) :
    ∃ m, nextMsg (c.servers j).raft = .ok m ∧ ∀ msg, m = some msg →
      Chosen (c.servers j).raft msg ∧ MsgOk c.taken a (c.servers j).raft.currentTerm msg := by
  have hj := h.server j
  have hm := hj.mirror
  by_cases hsnap : (c.servers j).raft.snapshotIndex > (c.servers j).raft.lastApplied
  · refine ⟨_, by rw [RaftApplier.nextMsg, if_pos hsnap]; rfl, ?_⟩
    rintro _ ⟨rfl⟩
    exact ⟨⟨hsnap, le_rfl⟩, by omega, hj.shot⟩
  by_cases hcmd : (c.servers j).raft.lastApplied < (c.servers j).raft.commitIndex
  swap
  · exact ⟨none, by rw [RaftApplier.nextMsg, if_neg hsnap, if_neg hcmd]; rfl, by simp⟩
  obtain ⟨l, hl, hlen, hor⟩ := hj.commit
  have hlog := hor.resolve_right (by omega)
  have hlt : (c.servers j).raft.lastApplied < l.length := by omega
  obtain ⟨e, he, -, hget⟩ := hm.log.entry (i := (c.servers j).raft.lastApplied + 1)
    (by rw [hm.index0]; omega) (hlt.trans_le hlog.length_le)
  refine ⟨some (.command e.command ((c.servers j).raft.lastApplied + 1)), ?_, ?_⟩
  · simp only [RaftApplier.nextMsg, if_neg hsnap, if_pos hcmd, he, bind, Except.bind, pure,
      Except.pure]
  rintro _ ⟨rfl⟩
  refine ⟨⟨rfl, hcmd⟩, l.take ((c.servers j).raft.lastApplied + 1),
    hl.mono le_rfl (List.take_prefix _ _), by rw [List.length_take]; omega,
    commands (l.take (c.servers j).raft.lastApplied), ?_⟩
  -- the entry read is the next one of the decided prefix
  have hgl : l[(c.servers j).raft.lastApplied]? = some e := by
    rw [← hget (by rw [hm.index0]; omega)]
    obtain ⟨rest, hrest⟩ := hlog
    rw [← hrest, Nat.add_sub_cancel, List.getElem?_append_left hlt]
  obtain ⟨_, hge⟩ := List.getElem?_eq_some_iff.mp hgl
  rw [← List.take_append_getElem hlt, hge, commands, commands, List.map_append]
  rfl

lemma Sim.choose (h : Sim K c a) {r : Except Panic (Cluster n C)}
    (hs : step c (.choose j) = some r) :
    ∃ c', r = .ok c' ∧ ∃ b, Reach a b ∧ Sim K c' b := by
  rcases hpc : (c.servers j).applier with _ | m | m
  · obtain ⟨m, hm, hok⟩ := h.nextMsg (j := j)
    simp only [step, hpc, hm, bind, Except.bind, pure, Except.pure, Option.some.injEq] at hs
    rcases m with _ | msg
    · exact ⟨c, hs.symm, a, .refl, h⟩
    · refine ⟨_, hs.symm, a, .refl, h.setApplier ?_⟩
      have hserv := (h.server j).serving
      refine ⟨hserv.service, by simp, ?_, by simp⟩
      rintro _ ⟨rfl⟩
      exact ⟨hserv.waiting hpc, hok msg rfl⟩
  · simp [step, hpc] at hs
  · simp [step, hpc] at hs

lemma Sim.serve (h : Sim K c a) {m : ApplyMsg C} (hpc : (c.servers j).applier = .sending m) :
    ∃ l, serve (c.servers j).service m = .ok (commands l) ∧
      Decided a (c.servers j).raft.currentTerm l ∧ l.length = m.index := by
  obtain ⟨hlen, hch, hok⟩ := (h.server j).serving.sending m hpc
  obtain ⟨d, hd, hserv⟩ := (h.server j).serving.service
  cases m with
  | command cmd i =>
    obtain ⟨l, hl, hll, x, hx⟩ := hok
    refine ⟨l, ?_, hl, hll⟩
    have hi : i = (c.servers j).raft.lastApplied + 1 := hch.1
    have hdl : d.length = (c.servers j).raft.lastApplied := by rw [← hlen, hserv, commands]; simp
    have hde : d = l.take d.length := by
      refine h.inv.decided_eq hd (hl.mono le_rfl (List.take_prefix _ _)) ?_
      rw [List.length_take]; omega
    have hxd : x = commands d := by
      have hxl : x.length = d.length := by
        have := congrArg List.length hx
        rw [commands, List.length_map, List.length_append, List.length_singleton] at this
        omega
      rw [hde, commands, List.map_take, ← commands, hx, ← hxl, List.take_left]
    rw [RaftCluster.serve, hserv, hx, hxd]
  | snapshot data term i =>
    obtain ⟨hpos, l, hl, hll, -, hdata⟩ := hok
    exact ⟨l, by rw [RaftCluster.serve, (hdata hpos).1, decode_encode], hl, hll⟩

lemma Sim.deliver (h : Sim K c a) {r : Except Panic (Cluster n C)}
    (hs : step c (.deliver j) = some r) :
    ∃ c', r = .ok c' ∧ ∃ b, Reach a b ∧ Sim K c' b := by
  rcases hpc : (c.servers j).applier with _ | m | m
  · simp [step, hpc] at hs
  · obtain ⟨l, hserve, hl, hlen⟩ := h.serve hpc
    obtain ⟨-, hch, hok⟩ := (h.server j).serving.sending m hpc
    simp only [step, hpc, hserve, bind, Except.bind, pure, Except.pure, Option.some.injEq] at hs
    refine ⟨_, hs.symm, a, .refl, ?_⟩
    refine (h.addDelivered (d := ⟨j, (c.servers j).epoch, m⟩) hok).setApplier ?_
    refine ⟨⟨l, hl, rfl⟩, by simp, by simp, ?_⟩
    rintro _ ⟨rfl⟩
    exact ⟨by rw [commands, List.length_map, hlen], hch⟩
  · simp [step, hpc] at hs

omit [Coded (Persisted n C)] [Inhabited C] [Coded (List C)] in
/-- What is recorded once a chosen message was sent. -/
lemma recordApplied_eq {rf : Raft n C} {m : ApplyMsg C} (hch : Chosen rf m) :
    ∃ k, recordApplied rf m = { rf with lastApplied := m.index, commitIndex := k } ∧
      m.index ≤ k ∧ (k = rf.commitIndex ∨ (rf.commitIndex ≤ k ∧ k = m.index ∧
        k ≤ rf.snapshotIndex)) := by
  cases m with
  | command cmd i =>
    obtain ⟨hi, hle⟩ := hch
    exact ⟨rf.commitIndex, by simp [recordApplied, hi, ApplyMsg.index], hle, Or.inl rfl⟩
  | snapshot data term i =>
    obtain ⟨hlt, hle⟩ := hch
    by_cases hc : i > rf.commitIndex
    · exact ⟨i, by simp [recordApplied, hlt, hc, ApplyMsg.index], le_rfl,
        Or.inr ⟨hc.le, rfl, hle⟩⟩
    · exact ⟨rf.commitIndex, by simp [recordApplied, hlt, hc, ApplyMsg.index],
        not_lt.mp hc, Or.inl rfl⟩

lemma Sim.record (h : Sim K c a) {r : Except Panic (Cluster n C)}
    (hs : step c (.record j) = some r) :
    ∃ c', r = .ok c' ∧ ∃ b, Reach a b ∧ Sim K c' b := by
  rcases hpc : (c.servers j).applier with _ | m | m
  · simp [step, hpc] at hs
  · simp [step, hpc] at hs
  simp only [step, hpc, Option.some.injEq] at hs
  refine ⟨_, hs.symm, a, .refl, ?_⟩
  have hj := h.server j
  have hm := hj.mirror
  obtain ⟨hlen, hch⟩ := hj.serving.sent m hpc
  obtain ⟨k, hrec, hle, hk⟩ := recordApplied_eq hch
  rw [hrec]
  have hserv : Serving c.taken a { c.servers j with
      raft := { (c.servers j).raft with lastApplied := m.index, commitIndex := k }
      applier := .waiting } :=
    ⟨hj.serving.service, fun _ => hlen, by simp, by simp⟩
  refine h.act (Act.refl j a) ⟨⟨hm.me, hm.term, hm.held, hm.cand, hm.lead, hm.snap, hm.index0,
    hm.log⟩, hj.durable.volatile rfl rfl rfl rfl, hj.shot, hj.coherent, ?_, hle,
    hj.leading.ext (Ext.refl a) hm rfl rfl rfl rfl, hserv⟩ (fun _ _ he => Or.inl he)
    (Or.inr ⟨rfl, Or.inr ⟨rfl, fun h => h⟩⟩) h.started
  rcases hk with rfl | ⟨-, rfl, hks⟩
  · exact hj.commit
  · -- the snapshot that was sent is what the service now holds
    obtain ⟨d, hd, hds⟩ := hj.serving.service
    refine ⟨d, hd, ?_, Or.inr hks⟩
    rw [← hlen, hds, commands, List.length_map]

/-! ### Restarts -/

/-- **A server restarts from what it has saved.** -/
lemma Sim.restart (h : Sim K c a) :
    ∃ c', c.restart j (c.servers j).raft.persister = .ok c' ∧ ∃ b, Reach a b ∧ Sim K c' b := by
  have hj := h.server j
  have hm := hj.mirror
  have hact : Act j a (retire a j) := Act.retire j
  have hE := h.inv.ext hact.reach
  have hmake := hj.durable.make hm.index0
  rw [hm.me] at hmake
  refine ⟨_, by simp only [Cluster.restart, hmake, bind, Except.bind, pure, Except.pure]; rfl,
    retire a j, hact.reach, ?_⟩
  have hserv : Serving c.taken (retire a j)
      (.boot (restored (c.servers j).raft) ((c.servers j).epoch + 1)) :=
    ⟨⟨[], decided_nil _ _, rfl⟩, fun _ => rfl, by simp [Server.boot], by simp [Server.boot]⟩
  refine h.act hact ⟨⟨hm.me, hm.term, hm.held, by simp [retire, Server.boot, restored, blank],
    by simp [Server.boot, restored, blank], hm.snap, hm.index0, hm.log⟩, hj.durable.restored,
    hj.shot.mono hE le_rfl (List.Subset.refl _), fun hK => (hj.coherent hK).ext hE,
    ⟨[], decided_nil _ _, rfl, Or.inl List.nil_prefix⟩, le_rfl,
    leading_of_role (by simp [Server.boot, restored, blank]), hserv⟩ ?_
    (Or.inl (Nat.lt_succ_self _)) h.started
  intro t e he
  simp [Server.boot] at he

lemma Sim.crash (h : Sim K c a) {r : Except Panic (Cluster n C)}
    (hs : step c (.crash j) = some r) :
    ∃ c', r = .ok c' ∧ ∃ b, Reach a b ∧ Sim K c' b := by
  obtain ⟨c', hc', b, hb, hsim⟩ := h.restart (j := j)
  simp only [step, hc', Option.some.injEq] at hs
  exact ⟨c', hs.symm, b, hb, hsim⟩

omit [Coded (List C)] in
/-- A restart forgets what the server had not saved. -/
lemma restart_setRaft (rf : Raft n C) (p : Persister) :
    (c.setRaft j rf).restart j p = c.restart j p := by
  simp [Cluster.restart, Cluster.setRaft, Cluster.setServer, Server.setRaft]

lemma Sim.crashAfter {b : Abs n C} {rf : Raft n C} (hb : Sim K (c.setRaft j rf) b)
    (hr : Reach a b) {r : Except Panic (Cluster n C)}
    (hs : c.restart j rf.persister = r) :
    ∃ c', r = .ok c' ∧ ∃ b', Reach a b' ∧ Sim K c' b' := by
  obtain ⟨c', hc', b', hr', hsim⟩ := hb.restart (j := j)
  rw [servers_setRaft, raft_setRaft, restart_setRaft, hs] at hc'
  exact ⟨c', hc', b', hr.trans hr', hsim⟩

lemma Sim.crashRequestVote (h : Sim K c a) {k : ℕ} {r : Except Panic (Cluster n C)}
    (hs : step c (.crashRequestVote k) = some r) :
    ∃ c', r = .ok c' ∧ ∃ b, Reach a b ∧ Sim K c' b := by
  rcases hk : c.voteCalls[k]? with _ | call
  · simp [step, hk] at hs
  by_cases hg : call.reply.isNone ∧ (c.servers call.dst).raft.currentTerm ≤ call.args.term
  · simp only [step, hk, if_pos hg, Option.some.injEq] at hs
    obtain ⟨b, hact, hb, -⟩ := h.adoptTerm (j := call.dst) hg.2
    exact hb.crashAfter hact.reach hs
  · simp only [step, hk, if_neg hg, reduceCtorEq] at hs

lemma Sim.crashAppendEntries (h : Sim K c a) {k : ℕ} {r : Except Panic (Cluster n C)}
    (hs : step c (.crashAppendEntries k) = some r) :
    ∃ c', r = .ok c' ∧ ∃ b, Reach a b ∧ Sim K c' b := by
  rcases hk : c.appendCalls[k]? with _ | call
  · simp [step, hk] at hs
  by_cases hg : call.reply.isNone ∧ (c.servers call.dst).raft.currentTerm ≤ call.args.term
  · simp only [step, hk, if_pos hg, Option.some.injEq] at hs
    obtain ⟨b, hact, hb, -⟩ := h.heardFrom (j := call.dst)
      (h.appends call (List.mem_of_getElem? hk)).lead call.args.leaderId hg.2
    exact hb.crashAfter hact.reach hs
  · simp only [step, hk, if_neg hg, reduceCtorEq] at hs

lemma Sim.crashInstallSnapshot (h : Sim K c a) {k : ℕ} {r : Except Panic (Cluster n C)}
    (hs : step c (.crashInstallSnapshot k) = some r) :
    ∃ c', r = .ok c' ∧ ∃ b, Reach a b ∧ Sim K c' b := by
  rcases hk : c.snapshotCalls[k]? with _ | call
  · simp [step, hk] at hs
  by_cases hg : call.reply.isNone ∧ (c.servers call.dst).raft.currentTerm ≤ call.args.term
  · simp only [step, hk, if_pos hg, Option.some.injEq] at hs
    obtain ⟨b, hact, hb, -⟩ := h.heardFrom (j := call.dst)
      (h.snapshots call (List.mem_of_getElem? hk)).lead call.args.leaderId hg.2
    exact hb.crashAfter hact.reach hs
  · simp only [step, hk, if_neg hg, reduceCtorEq] at hs

end Mit6824.RaftSim
