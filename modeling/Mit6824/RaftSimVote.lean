import Mit6824.RaftSimFrame

/-!
Terms and elections: stepping down, starting an election, voting, counting and winning.
-/

namespace Mit6824.RaftSim

open Mit6824.Labgob Mit6824.Quorum Mit6824.TermLog Mit6824.Repl
open Mit6824.RaftLog Mit6824.RaftState Mit6824.RaftElection Mit6824.RaftReplication
open Mit6824.RaftApplier Mit6824.RaftCluster Function

section Cluster

variable {n : ℕ} {C : Type} {c : Cluster n C} {j : Fin n}

@[simp] lemma servers_setRaft (rf : Raft n C) :
    (c.setRaft j rf).servers j = (c.servers j).setRaft rf := by
  simp [Cluster.setRaft, Cluster.setServer]

@[simp] lemma raft_setRaft (sv : Server n C) (rf : Raft n C) : (sv.setRaft rf).raft = rf := rfl

@[simp] lemma setRaft_setRaft (rf rf' : Raft n C) :
    (c.setRaft j rf).setRaft j rf' = c.setRaft j rf' := by
  simp [Cluster.setRaft, Cluster.setServer, Server.setRaft]

lemma setRaft_self (c : Cluster n C) (j : Fin n) : c.setRaft j (c.servers j).raft = c := by
  simp [Cluster.setRaft, Cluster.setServer, Server.setRaft]

end Cluster

variable {n : ℕ} {C : Type} [Coded (Persisted n C)] [Inhabited C] [Coded (List C)]
variable {K : Prop} {c : Cluster n C} {a : Abs n C} {j : Fin n}

/-! ### Terms -/

lemma Sim.bump (h : Sim K c a) {t : ℕ} (ht : (c.servers j).raft.currentTerm < t) :
    Act j a (bump a j t) ∧ Sim K (c.setRaft j (stepDown (c.servers j).raft t)) (bump a j t) := by
  have hj := h.server j
  have hm := hj.mirror
  have hact : Act j a (Repl.bump a j t) := Act.bump (hm.term ▸ ht)
  refine ⟨hact, h.actRaft hact ?_ (Or.inl ht) h.started⟩
  refine hj.progress h.inv hact.reach ?_ (durable_persistSate hj.durable.snapshot)
    (leading_of_role (by simp [stepDown, persistSate])) ht.le rfl rfl rfl rfl rfl
  exact ⟨hm.me, by simp [Repl.bump, stepDown, persistSate],
    by simp [Repl.bump, stepDown, persistSate], by simp [Repl.bump, stepDown, persistSate],
    by simp [stepDown, persistSate], hm.snap, hm.index0, hm.log⟩

lemma Sim.yield (h : Sim K c a) (hr : (c.servers j).raft.role = .candidate)
    (he : Elected a (c.servers j).raft.currentTerm) :
    Act j a (yield a j) ∧
      Sim K (c.setRaft j (stepDown (c.servers j).raft (c.servers j).raft.currentTerm))
        (yield a j) := by
  have hj := h.server j
  have hm := hj.mirror
  have hact : Act j a (Repl.yield a j) := Act.yield (hm.cand.mpr hr) (hm.term ▸ he)
  refine ⟨hact, h.actRaft hact ?_ (Or.inr ⟨rfl, fun h => by simp [hr] at h⟩) h.started⟩
  refine hj.progress h.inv hact.reach ?_ (durable_persistSate hj.durable.snapshot)
    (leading_of_role (by simp [stepDown, persistSate])) le_rfl rfl rfl rfl rfl rfl
  exact ⟨hm.me, by simp [Repl.yield, stepDown, persistSate, hm.term],
    by simp [Repl.yield, stepDown, persistSate], by simp [Repl.yield, stepDown, persistSate],
    by simp [stepDown, persistSate], hm.snap, hm.index0, hm.log⟩

lemma Sim.leaderId (h : Sim K c a) (l : Option (Fin n)) :
    Sim K (c.setRaft j { (c.servers j).raft with leaderId := l }) a := by
  have hj := h.server j
  have hm := hj.mirror
  refine h.actRaft (Act.refl j a) ?_ (Or.inr ⟨rfl, fun h => h⟩) h.started
  exact hj.adjust h.inv ⟨hm.me, hm.term, hm.held, hm.cand, hm.lead, hm.snap, hm.index0, hm.log⟩
    (hj.durable.volatile rfl rfl rfl rfl)
    (hj.leading.ext (Ext.refl a) hm rfl rfl rfl rfl) rfl rfl rfl rfl rfl rfl

lemma Sim.adoptTerm (h : Sim K c a) {t : ℕ} (ht : (c.servers j).raft.currentTerm ≤ t) :
    ∃ b, Act j a b ∧ Sim K (c.setRaft j (adoptTerm (c.servers j).raft t)) b ∧
      (RaftElection.adoptTerm (c.servers j).raft t).currentTerm = t := by
  unfold RaftElection.adoptTerm
  split
  · next hlt =>
    obtain ⟨hact, hs⟩ := h.bump (j := j) hlt
    exact ⟨_, hact, hs, rfl⟩
  · next hlt =>
    refine ⟨a, Act.refl j a, ?_, by omega⟩
    rw [setRaft_self]; exact h

lemma Sim.heardFrom (h : Sim K c a) {t : ℕ} {L : Fin n} (hL : a.lead t = some L) (l : Fin n)
    (ht : (c.servers j).raft.currentTerm ≤ t) :
    ∃ b, Act j a b ∧ Sim K (c.setRaft j (heardFrom (c.servers j).raft t l)) b ∧
      (RaftReplication.heardFrom (c.servers j).raft t l).currentTerm = t ∧
      (RaftReplication.heardFrom (c.servers j).raft t l).role ≠ .candidate := by
  have h1 := h.leaderId (j := j) (some l)
  unfold RaftReplication.heardFrom
  simp only
  split
  · next hor =>
    rcases Nat.eq_or_lt_of_le ht with heq | hlt
    · have hr : (c.servers j).raft.role = .candidate := by
        rcases hor with hgt | hr
        · omega
        · exact hr
      obtain ⟨hact, hs⟩ := h1.yield (j := j) (by simpa using hr) ⟨L, by simpa [heq] using hL⟩
      rw [setRaft_setRaft] at hs
      refine ⟨_, hact, ?_, rfl, by simp [stepDown, persistSate]⟩
      simpa [heq] using hs
    · obtain ⟨hact, hs⟩ := h1.bump (j := j) (t := t) (by simpa using hlt)
      rw [setRaft_setRaft] at hs
      exact ⟨_, hact, by simpa using hs, rfl, by simp [stepDown, persistSate]⟩
  · next hor =>
    rw [not_or] at hor
    exact ⟨a, Act.refl j a, h1, by simp; omega, hor.2⟩

/-! ### Elections -/

lemma Sim.addVoteCalls (h : Sim K c a) {t : ℕ}
    {calls : List (Call n (RequestVoteArgs n) RequestVoteReply)}
    (hok : ∀ call ∈ calls, VoteOk a call ∧ call.src = j ∧ call.args.term = t)
    (hnew : ∀ call ∈ c.voteCalls, call.src = j → call.args.term ≠ t)
    (hdst : (calls.map Call.dst).Nodup)
    (hcount : ∀ e, (c.servers j).elections t = some e → e.count = 1) :
    Sim K { c with voteCalls := c.voteCalls ++ calls } a := by
  refine ⟨h.inv, h.server, ?_, ?_, ?_, h.appends, h.snapshots, h.leads, h.delivered, h.started⟩
  · intro x hx
    rcases List.mem_append.mp hx with hold | hin
    · exact h.votes x hold
    · exact (hok x hin).1
  · rw [List.map_append]
    refine List.Nodup.append h.keys ?_ ?_
    · refine List.Nodup.of_map (fun k => k.2.2) ?_
      rw [List.map_map]
      exact hdst
    · rintro key hold hin
      obtain ⟨x, hx, rfl⟩ := List.mem_map.mp hold
      obtain ⟨y, hy, hxy⟩ := List.mem_map.mp hin
      obtain ⟨-, hs, ht⟩ := hok y hy
      simp only [voteKey, Prod.mk.injEq] at hxy
      exact hnew x hx (hxy.1 ▸ hs) (hxy.2.1 ▸ ht)
  · intro s u e he
    obtain ⟨hself, V, hs, hc, hV⟩ := h.elections s u e he
    refine ⟨hself, V, hs, hc, fun v hv => ⟨(hV v hv).1, fun x hx hxk => ?_⟩⟩
    rcases List.mem_append.mp hx with hold | hin
    · exact (hV v hv).2 x hold hxk
    · -- the new election has counted nothing yet
      obtain ⟨-, hsrc, ht⟩ := hok x hin
      simp only [voteKey, Prod.mk.injEq] at hxk
      obtain ⟨rfl, rfl, -⟩ := hxk
      subst hsrc ht
      have h1 := hcount e he
      have : V.card = 0 := by omega
      rw [Finset.card_eq_zero.mp this] at hv
      simp at hv

lemma nodup_peersOf (s : Fin n) : (peersOf s).Nodup := (List.nodup_finRange n).filter _

lemma mem_peersOf {s p : Fin n} : p ∈ peersOf s ↔ p ≠ s := by simp [peersOf]

def standing (rf : Raft n C) : Raft n C :=
  persistSate { rf with
    role := .candidate, currentTerm := rf.currentTerm + 1, votedFor := some rf.me }

omit [Inhabited C] [Coded (List C)] in
lemma leaderElection_eq {rf : Raft n C} (hr : rf.role ≠ .leader) {last : Entry C}
    (hl : rf.log.lastEntry = .ok last) :
    RaftElection.leaderElection rf = .ok (standing rf,
      some ⟨rf.currentTerm + 1, rf.me, rf.log.lastIndex, last.term⟩) := by
  rcases hrole : rf.role with _ | _ | _
  · exact absurd hrole hr
  all_goals
    simp [RaftElection.leaderElection, hrole, persistSate, hl, bind, Except.bind, pure,
      Except.pure, standing, stateBytes, persisted]

lemma Sim.campaign (h : Sim K c a) :
    Sim K (c.setServer j { c.servers j with
      raft := standing (c.servers j).raft
      elections := update (c.servers j).elections
        ((c.servers j).raft.currentTerm + 1) (some .begin) }) (campaign a j) := by
  have hj := h.server j
  have hm := hj.mirror
  have hact : Act j a (Repl.campaign a j) := Act.campaign j
  have hmir : Mirror (Repl.campaign a j) j (standing (c.servers j).raft) :=
    ⟨hm.me, by simp [Repl.campaign, standing, persistSate, hm.term],
      by simp [Repl.campaign, standing, persistSate, hm.me],
      by simp [Repl.campaign, standing, persistSate], by simp [standing, persistSate], hm.snap,
      hm.index0, hm.log⟩
  have hok := hj.progress h.inv hact.reach hmir (durable_persistSate hj.durable.snapshot)
    (leading_of_role (by simp [standing, persistSate])) (by simp [standing, persistSate]) rfl rfl
    rfl rfl rfl
  refine h.act hact ?_ ?_ (Or.inr ⟨rfl, Or.inl (by simp [standing, persistSate])⟩) h.started
  · exact ⟨hok.mirror, hok.durable, hok.shot, hok.coherent, hok.commit, hok.applied, hok.leading,
      hok.serving.mono (Ext.refl _) (List.Subset.refl _) le_rfl rfl le_rfl le_rfl rfl rfl⟩
  · intro t e he
    by_cases ht : t = (c.servers j).raft.currentTerm + 1
    · subst ht
      simp only [update_self, Option.some.injEq] at he
      subst he
      exact Or.inr ⟨by simp [Repl.campaign, hm.term], ∅, by simp, by simp [Election.begin],
        by simp⟩
    · left
      simpa [ht] using he

/-- **A server starts an election.** -/
lemma Sim.leaderElection (h : Sim K c a) :
    ∃ c', step c (.leaderElection j) = some (.ok c') ∧ ∃ b, Reach a b ∧ Sim K c' b := by
  have hm := (h.server j).mirror
  by_cases hlead : (c.servers j).raft.role = .leader
  · refine ⟨c, ?_, a, .refl, h⟩
    simp [step, RaftElection.leaderElection, hlead, bind, Except.bind, pure, Except.pure,
      setRaft_self]
  obtain ⟨last, hlast, hterm⟩ := hm.log.lastEntry
  have hrun := leaderElection_eq hlead hlast
  refine ⟨_, by simp only [step, hrun, bind, Except.bind, pure, Except.pure]; rfl,
    Repl.campaign a j, (Act.campaign j).reach, ?_⟩
  refine h.campaign.addVoteCalls (j := j) (t := (c.servers j).raft.currentTerm + 1) ?_ ?_ ?_ ?_
  · intro call hcall
    obtain ⟨p, hp, rfl⟩ := List.mem_map.mp hcall
    have hclog : (Repl.campaign a j).clog ((c.servers j).raft.currentTerm + 1) j = a.log j := by
      simp [Repl.campaign, hm.term]
    refine ⟨⟨hm.me, (mem_peersOf.mp hp).symm, by simp [Repl.campaign, callTo, hm.term], ?_, ?_,
      by simp [callTo]⟩, rfl, rfl⟩
    · simp [callTo, hclog, hm.log.lastIndex]
    · simp [callTo, hclog, hterm]
  · -- a call of the new term would show that the server had stood in it before
    intro call hcall hsrc hterm'
    have hle := h.inv.vote.le_term (h.votes call hcall).stood
    rw [hsrc, hm.term, hterm'] at hle
    omega
  · rw [List.map_map]
    simpa [comp_def, callTo] using nodup_peersOf j
  · intro e he
    simp only [Cluster.setServer, update_self, Option.some.injEq] at he
    rw [← he]
    rfl

/-! ### Votes -/

lemma Sim.grant (h : Sim K c a) {d : Fin n} (hd : d ≠ j)
    (hheld : (c.servers j).raft.votedFor = none ∨ (c.servers j).raft.votedFor = some d)
    (hvote : a.vote d (c.servers j).raft.currentTerm d)
    (hu : UpToDate (a.clog (c.servers j).raft.currentTerm d) (a.log j)) :
    Act j a (grant a j d) ∧
      Sim K (c.setRaft j (persistSate { (c.servers j).raft with votedFor := some d }))
        (grant a j d) := by
  have hj := h.server j
  have hm := hj.mirror
  have hcand : ¬ a.cand j := by
    -- a candidate holds its own vote
    intro hc
    have := (h.inv.vote.stands hc).1
    rw [hm.held] at this
    rcases hheld with h0 | h0 <;> rw [h0] at this
    · simp at this
    · exact hd (Option.some.inj this)
  have hact : Act j a (Repl.grant a j d) :=
    Act.grant (hm.held.symm ▸ hheld) hcand (hm.term.symm ▸ hvote) (hm.term.symm ▸ hu)
  have hE := h.inv.ext hact.reach
  refine ⟨hact, h.actRaft hact ?_ (Or.inr ⟨rfl, fun h => h⟩) h.started⟩
  refine hj.progress h.inv hact.reach ?_ (durable_persistSate hj.durable.snapshot)
    (hj.leading.ext hE hm rfl rfl rfl rfl) le_rfl rfl rfl rfl rfl rfl
  exact ⟨hm.me, hm.term, by simp [Repl.grant, persistSate], hm.cand, hm.lead, hm.snap, hm.index0,
    hm.log⟩

lemma Sim.answerVote (h : Sim K c a) {k : ℕ}
    {call : Call n (RequestVoteArgs n) RequestVoteReply} (hk : c.voteCalls[k]? = some call)
    {r : RequestVoteReply}
    (hr : r.voteGranted = true → a.vote call.dst call.args.term call.src) :
    Sim K { c with voteCalls := c.voteCalls.set k (call.answer r) } a := by
  have hok := h.votes call (List.mem_of_getElem? hk)
  refine h.setVoteCall hk ⟨hok.cand, hok.ne, hok.stood, hok.lastIndex, hok.lastTerm, ?_⟩ rfl
    (fun hw => hw)
  intro r' hr' hg
  obtain rfl : r = r' := by simpa [Call.answer] using hr'
  exact hr hg

section Code

omit [Inhabited C] [Coded (List C)]

variable {rf : Raft n C} {args : RequestVoteArgs n} {last : Entry C}

/-- The log of the sender of a vote request is not behind one that ends with this entry. -/
def NotBehind (rf : Raft n C) (args : RequestVoteArgs n) (last : Entry C) : Prop :=
  args.lastLogTerm > last.term ∨
    (args.lastLogTerm = last.term ∧ args.lastLogIndex ≥ rf.log.lastIndex)

lemma requestVote_old (h : args.term < rf.currentTerm) :
    RaftElection.requestVote rf args = .ok (rf, ⟨rf.currentTerm, false⟩) := by
  simp [RaftElection.requestVote, h, pure, Except.pure]

lemma requestVote_grant (h : ¬ args.term < rf.currentTerm)
    (hl : (adoptTerm rf args.term).log.lastEntry = .ok last)
    (hheld : (adoptTerm rf args.term).votedFor = none ∨
      (adoptTerm rf args.term).votedFor = some args.candidateId)
    (hup : NotBehind (adoptTerm rf args.term) args last) :
    RaftElection.requestVote rf args =
      .ok (persistSate { adoptTerm rf args.term with votedFor := some args.candidateId },
        ⟨rf.currentTerm, true⟩) := by
  unfold NotBehind at hup
  simp only [RaftElection.requestVote, if_neg h, if_pos hheld, hl, bind, Except.bind, pure,
    Except.pure, if_pos hup]

lemma requestVote_refuse (h : ¬ args.term < rf.currentTerm)
    (hl : (adoptTerm rf args.term).log.lastEntry = .ok last)
    (hno : ¬ (((adoptTerm rf args.term).votedFor = none ∨
      (adoptTerm rf args.term).votedFor = some args.candidateId) ∧
      NotBehind (adoptTerm rf args.term) args last)) :
    RaftElection.requestVote rf args = .ok (adoptTerm rf args.term, ⟨rf.currentTerm, false⟩) := by
  unfold NotBehind at hno
  simp only [RaftElection.requestVote, if_neg h, hl, bind, Except.bind, pure, Except.pure]
  by_cases hheld : (adoptTerm rf args.term).votedFor = none ∨
      (adoptTerm rf args.term).votedFor = some args.candidateId
  · rw [if_pos hheld, if_neg fun hup => hno ⟨hheld, hup⟩]
  · rw [if_neg hheld]

end Code

/-- The handler returns, and the server has voted if it says so. -/
lemma Sim.requestVoteAt (h : Sim K c a) {call : Call n (RequestVoteArgs n) RequestVoteReply}
    (hok : VoteOk a call) :
    ∃ rf reply, RaftElection.requestVote (c.servers call.dst).raft call.args =
      .ok (rf, reply) ∧ ∃ b, Reach a b ∧ Sim K (c.setRaft call.dst rf) b ∧
        (reply.voteGranted = true → b.vote call.dst call.args.term call.src) := by
  by_cases hold : call.args.term < (c.servers call.dst).raft.currentTerm
  · refine ⟨_, _, requestVote_old hold, a, .refl, ?_, by simp⟩
    rw [setRaft_self]; exact h
  obtain ⟨b, hact, hb, hterm⟩ := h.adoptTerm (j := call.dst) (not_lt.mp hold)
  have hok' := hok.ext (h.inv.ext hact.reach)
  have hm := (hb.server call.dst).mirror
  rw [servers_setRaft, raft_setRaft] at hm
  obtain ⟨last, hlast, hlt⟩ := hm.log.lastEntry
  by_cases hyes : ((RaftElection.adoptTerm (c.servers call.dst).raft call.args.term).votedFor =
      none ∨ (RaftElection.adoptTerm (c.servers call.dst).raft call.args.term).votedFor =
        some call.args.candidateId) ∧
      NotBehind (RaftElection.adoptTerm (c.servers call.dst).raft call.args.term) call.args last
  · obtain ⟨hheld, hup⟩ := hyes
    have hu : UpToDate (b.clog call.args.term call.src) (b.log call.dst) := by
      rw [NotBehind, hok'.lastTerm, hok'.lastIndex, hlt, hm.log.lastIndex] at hup
      exact hup.imp id fun ⟨heq, hge⟩ => ⟨heq.symm, hge⟩
    obtain ⟨hact', hb'⟩ := hb.grant (j := call.dst) hok'.ne
      (by simpa [hok'.cand] using hheld) (by simpa [hterm] using hok'.stood)
      (by simpa [hterm] using hu)
    rw [setRaft_setRaft, servers_setRaft, raft_setRaft] at hb'
    refine ⟨_, _, requestVote_grant hold hlast hheld hup, _, hact.reach.trans hact'.reach,
      by rw [hok.cand]; exact hb', fun _ => Or.inr ⟨rfl, by rw [hm.term, hterm], rfl⟩⟩
  · exact ⟨_, _, requestVote_refuse hold hlast hyes, b, hact.reach, hb, by simp⟩

/-- **A server handles a vote request.** -/
lemma Sim.requestVote (h : Sim K c a) {k : ℕ} {r : Except Panic (Cluster n C)}
    (hs : step c (.requestVote k) = some r) :
    ∃ c', r = .ok c' ∧ ∃ b, Reach a b ∧ Sim K c' b := by
  rcases hk : c.voteCalls[k]? with _ | call
  · simp [step, hk] at hs
  by_cases hnone : call.reply.isNone
  · obtain ⟨rf, reply, hrun, b, hr, hsim, hg⟩ :=
      h.requestVoteAt (h.votes call (List.mem_of_getElem? hk))
    simp only [step, hk, hnone, if_true, hrun, bind, Except.bind, pure, Except.pure,
      Option.some.injEq] at hs
    exact ⟨_, hs.symm, b, hr, hsim.answerVote hk hg⟩
  · simp [step, hk, hnone] at hs

/-! ### Counting -/

lemma Sim.closeVote (h : Sim K c a) {k : ℕ}
    {call : Call n (RequestVoteArgs n) RequestVoteReply} (hk : c.voteCalls[k]? = some call) :
    Sim K { c with voteCalls := c.voteCalls.set k call.close } a := by
  have hok := h.votes call (List.mem_of_getElem? hk)
  exact h.setVoteCall hk ⟨hok.cand, hok.ne, hok.stood, hok.lastIndex, hok.lastTerm, hok.granted⟩
    rfl fun _ => rfl

/-- A counted vote is that of a server not counted before. -/
lemma Sim.countGranted (h : Sim K c a) {k : ℕ}
    {call : Call n (RequestVoteArgs n) RequestVoteReply} (hk : c.voteCalls[k]? = some call)
    (hw : call.waiting = true) {r : RequestVoteReply} (hr : call.reply = some r)
    (hg : r.voteGranted = true) {e e' : Election}
    (he : (c.servers call.src).elections call.args.term = some e)
    (hc : e'.count = e.count + 1) :
    ElectionOk a (c.voteCalls.set k call.close) call.src call.args.term e' := by
  have hmem := List.mem_of_getElem? hk
  have hok := h.votes call hmem
  obtain ⟨hself, V, hs, hcount, hV⟩ := h.elections _ _ e he
  have hfresh : call.dst ∉ V := by
    intro hin
    have := (hV _ hin).2 call hmem rfl
    simp [hw] at this
  refine ⟨hself, insert call.dst V, ?_, ?_, ?_⟩
  · rw [Finset.mem_insert, not_or]
    exact ⟨hok.ne, hs⟩
  · rw [Finset.card_insert_of_notMem hfresh, hc, hcount]
  · intro v hv
    have hkeys := h.closeVote hk
    rcases Finset.mem_insert.mp hv with rfl | hin
    · refine ⟨hok.granted r hr hg, fun x hx hxk => ?_⟩
      -- the only call with that key is the one just closed
      have hclosed : call.close ∈ c.voteCalls.set k call.close :=
        List.mem_set (List.getElem?_eq_some_iff.mp hk).1 _
      rw [List.inj_on_of_nodup_map hkeys.keys hx hclosed hxk]
      rfl
    · refine ⟨(hV v hin).1, fun x hx hxk => ?_⟩
      rcases List.mem_or_eq_of_mem_set hx with hold | rfl
      · exact (hV v hin).2 x hold hxk
      · rfl

lemma Sim.setElection (h : Sim K c a) {s : Fin n} {t : ℕ} {e : Option Election}
    (he : ∀ e', e = some e' → ElectionOk a c.voteCalls s t e') :
    Sim K (c.setServer s { c.servers s with
      elections := update (c.servers s).elections t e }) a := by
  have hs := h.server s
  refine h.act (Act.refl s a) ?_ ?_ (Or.inr ⟨rfl, Or.inr ⟨rfl, fun h => h⟩⟩) h.started
  · exact ⟨hs.mirror, hs.durable, hs.shot, hs.coherent, hs.commit, hs.applied, hs.leading,
      hs.serving.mono (Ext.refl a) (List.Subset.refl _) le_rfl rfl le_rfl le_rfl rfl rfl⟩
  · intro u e' he'
    by_cases hu : u = t
    · subst hu
      exact Or.inr (he e' (by simpa using he'))
    · left
      simpa [hu] using he'

/-- **An election takes up a reply, or none.** -/
lemma Sim.turn (h : Sim K c a) {k : ℕ} {call : Call n (RequestVoteArgs n) RequestVoteReply}
    (hk : c.voteCalls[k]? = some call) (hw : call.waiting = true)
    {reply : Option RequestVoteReply} (hr : ∀ r, reply = some r → call.reply = some r)
    {c' : Cluster n C} (ht : c.turn k call reply = some c') : ∃ b, Reach a b ∧ Sim K c' b := by
  rcases he : (c.servers call.src).elections call.args.term with _ | e
  · simp [Cluster.turn, he] at ht
  by_cases hcnt : e.counting n
  swap
  · simp [Cluster.turn, he, hcnt] at ht
  simp only [Cluster.turn, he, hcnt, if_true, Option.some.injEq] at ht
  subst ht
  have hsame : ∀ e' : Election, e'.count = e.count →
      Sim K { c.setServer call.src { c.servers call.src with
          elections := update (c.servers call.src).elections call.args.term
            (some e') } with
        voteCalls := c.voteCalls.set k call.close } a := by
    intro e' hc
    refine (h.closeVote hk).setElection ?_
    rintro _ ⟨rfl⟩
    obtain ⟨hself, V, hs, hcount, hV⟩ := (h.closeVote hk).elections _ _ e he
    exact ⟨hself, V, hs, hc.trans hcount, hV⟩
  unfold RaftElection.countVote
  rcases reply with _ | r
  · exact ⟨a, .refl, hsame _ rfl⟩
  · simp only
    split
    · next hg =>
      refine ⟨a, .refl, (h.closeVote hk).setElection ?_⟩
      rintro _ ⟨rfl⟩
      exact h.countGranted hk hw (hr r rfl) hg he rfl
    · split
      · next hgt =>
        obtain ⟨hact, hb⟩ := (hsame { e with broken := true } rfl).bump (j := call.src)
          (t := r.term) (by simpa [Cluster.setServer] using hgt)
        refine ⟨_, hact.reach, ?_⟩
        simpa [Cluster.setRaft, Cluster.setServer, Server.setRaft] using hb
      · exact ⟨a, .refl, hsame _ rfl⟩

lemma Sim.countVote (h : Sim K c a) {k : ℕ} {r : Except Panic (Cluster n C)}
    (hs : step c (.countVote k) = some r) :
    ∃ c', r = .ok c' ∧ ∃ b, Reach a b ∧ Sim K c' b := by
  rcases hk : c.voteCalls[k]? with _ | call
  · simp [step, hk] at hs
  rcases hreply : c.replyOf call with _ | reply
  · simp [step, hk, hreply] at hs
  · simp only [step, hk, hreply, Option.map_eq_some_iff] at hs
    obtain ⟨c', hturn, rfl⟩ := hs
    unfold Cluster.replyOf at hreply
    split at hreply
    · next hw =>
      refine ⟨c', rfl, h.turn hk hw.1 ?_ hturn⟩
      rintro _ ⟨rfl⟩
      exact hreply
    · simp at hreply

lemma Sim.voteFailed (h : Sim K c a) {k : ℕ} {r : Except Panic (Cluster n C)}
    (hs : step c (.voteFailed k) = some r) :
    ∃ c', r = .ok c' ∧ ∃ b, Reach a b ∧ Sim K c' b := by
  rcases hk : c.voteCalls[k]? with _ | call
  · simp [step, hk] at hs
  by_cases hw : call.waiting ∧ call.epoch = (c.servers call.src).epoch
  · simp only [step, hk, if_pos hw, Option.map_eq_some_iff] at hs
    obtain ⟨c', hturn, rfl⟩ := hs
    exact ⟨c', rfl, h.turn hk hw.1 (by simp) hturn⟩
  · simp only [step, hk, if_neg hw, reduceCtorEq] at hs

/-! ### Winning -/

lemma Sim.becomeLeader (h : Sim K c a) {e : Election}
    (hr : (c.servers j).raft.role = .candidate) (hc : e.count ≥ majority n)
    (he : ElectionOk a c.voteCalls j (c.servers j).raft.currentTerm e) :
    ∃ b, Act j a b ∧ Sim K (c.setRaft j (becomeLeader (c.servers j).raft)) b := by
  have hj := h.server j
  have hm := hj.mirror
  obtain ⟨hself, V, hs, hcount, hV⟩ := he
  have hcand := hm.cand.mpr hr
  have hQ : Majority (insert j V) := by
    unfold Majority
    rw [Finset.card_insert_of_notMem hs, Fintype.card_fin]
    unfold majority at hc
    omega
  have hvote : ∀ v ∈ insert j V, a.vote v (a.term j) j := by
    intro v hv
    rw [hm.term]
    rcases Finset.mem_insert.mp hv with rfl | hin
    · exact hself
    · exact (hV v hin).1
  have hact := Act.elect hcand hQ hvote
  have hfresh := h.inv.vote.fresh hcand hQ hvote
  have hlead : (elect a j).lead (c.servers j).raft.currentTerm = some j := by
    simp [← hm.term]
  have hllog : (elect a j).llog (c.servers j).raft.currentTerm = a.log j := by
    simp [← hm.term]
  have hbase : (elect a j).base (c.servers j).raft.currentTerm = (a.log j).length := by
    simp [← hm.term]
  refine ⟨elect a j, hact, h.actRaft hact ?_ (Or.inr ⟨rfl, fun _ => rfl⟩) ?_⟩
  · refine hj.progress h.inv hact.reach ?_ (hj.durable.volatile rfl rfl rfl rfl) ?_ le_rfl
      rfl rfl rfl rfl rfl
    · exact ⟨hm.me, hm.term, hm.held, by simp [elect, RaftElection.becomeLeader],
        fun _ => hlead, hm.snap, hm.index0, hm.log⟩
    · intro _
      refine ⟨_, _, rfl, rfl, fun p => ⟨Nat.succ_pos _, ?_, fun _ => ⟨fun hb => ?_, ?_, ?_⟩⟩⟩
      · simp [RaftElection.becomeLeader, hllog, hm.log.lastIndex]
      · simp [RaftElection.becomeLeader, hbase, hm.log.lastIndex] at hb
      · exact Or.inl (Nat.zero_le _)
      · exact fun h0 => absurd h0 (lt_irrefl 0)
  · -- the log of the new leader is all from before its term
    intro t het i hi hil
    by_cases ht : t = (c.servers j).raft.currentTerm
    · subst ht
      rw [hbase] at hi
      rw [hllog] at hil
      omega
    · have hne : t ≠ a.term j := by rw [hm.term]; exact ht
      rw [base_elect_of_ne hne] at hi
      rw [llog_elect_of_ne hne] at hil ⊢
      exact h.started t ((elected_elect_iff hne).mp het) i hi hil

lemma Sim.finishElection (h : Sim K c a) {t : ℕ} {r : Except Panic (Cluster n C)}
    (hs : step c (.finishElection j t) = some r) :
    ∃ c', r = .ok c' ∧ ∃ b, Reach a b ∧ Sim K c' b := by
  rcases he : (c.servers j).elections t with _ | e
  · simp [step, he] at hs
  by_cases hcnt : e.counting n
  · simp [step, he, hcnt] at hs
  simp only [step, he, if_neg hcnt, Option.some.injEq] at hs
  refine ⟨_, hs.symm, ?_⟩
  have hend : Sim K (c.setServer j { c.servers j with
      elections := update (c.servers j).elections t none }) a := h.setElection (by simp)
  unfold RaftElection.finishElection
  split
  · next hwin =>
    obtain ⟨rfl, hr, hc⟩ := hwin
    obtain ⟨b, hact, hb⟩ := hend.becomeLeader (j := j) (e := e)
      (by simpa [Cluster.setServer] using hr) hc
      (by simpa [Cluster.setServer] using h.elections _ _ e he)
    refine ⟨b, hact.reach, ?_⟩
    simpa [Cluster.setRaft, Cluster.setServer, Server.setRaft] using hb
  · exact ⟨a, .refl, hend⟩

end Mit6824.RaftSim
