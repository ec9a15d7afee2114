import Mit6824.RaftSimLead

/-!
The follower: it takes entries and snapshots from the leader of its term.
-/

namespace Mit6824.RaftSim

open Mit6824.Labgob Mit6824.Quorum Mit6824.TermLog Mit6824.Repl
open Mit6824.RaftLog Mit6824.RaftState Mit6824.RaftElection Mit6824.RaftReplication
open Mit6824.RaftApplier Mit6824.RaftCluster Function

variable {n : ℕ} {C : Type} [Coded (Persisted n C)] [Inhabited C] [Coded (List C)]
variable {K : Prop} {c : Cluster n C} {a : Abs n C} {j : Fin n}

/-! ### New logs -/

/-- A follower's log is replaced by one that keeps what it shares with the leader's. -/
lemma Sim.setLog (h : Sim K c a) {x : List (Entry C)} {lg : Log C}
    (hact : Act j a (setLog a j x)) (hr : (c.servers j).raft.role ≠ .leader) (hret : Retains lg x)
    (hidx : lg.index0 = (c.servers j).raft.log.index0) :
    Sim K (c.setRaft j (persistSate { (c.servers j).raft with log := lg })) (setLog a j x) := by
  have hj := h.server j
  have hm := hj.mirror
  refine h.actRaft hact ?_ (Or.inr ⟨rfl, fun h => h⟩) h.started
  refine hj.progress h.inv hact.reach ?_ (durable_persistSate hj.durable.snapshot)
    (leading_of_role hr) le_rfl rfl rfl rfl rfl rfl
  refine ⟨hm.me, hm.term, hm.held, hm.cand, hm.lead, hm.snap, hidx.trans hm.index0, ?_⟩
  rw [log_setLog]
  exact hret

/-- **A follower grafts the leader's entries.** -/
lemma Sim.graft (h : Sim K c a) {k : ℕ} {lg : Log C}
    (he : Elected a (c.servers j).raft.currentTerm)
    (hs : a.lead (c.servers j).raft.currentTerm ≠ some j)
    (hr : (c.servers j).raft.role ≠ .candidate)
    (hk : a.base (c.servers j).raft.currentTerm ≤ k)
    (hkl : k ≤ (a.llog (c.servers j).raft.currentTerm).length)
    (hor : Aligned a j (c.servers j).raft.currentTerm ∨
      a.base (c.servers j).raft.currentTerm < k ∨
      (a.llog (c.servers j).raft.currentTerm).take k <+: a.log j)
    (hret : Retains lg (Repl.graft ((a.llog (c.servers j).raft.currentTerm).take k) (a.log j)))
    (hidx : lg.index0 = (c.servers j).raft.log.index0) :
    ∃ b, Reach a b ∧
      Sim K (c.setRaft j (persistSate { (c.servers j).raft with log := lg })) b ∧
      k ≤ b.ack j (c.servers j).raft.currentTerm ∧
      (a.llog (c.servers j).raft.currentTerm).take k <+: b.log j ∧
      Covers b j (c.servers j).raft.currentTerm k := by
  have hm := (h.server j).mirror
  have hne : (c.servers j).raft.role ≠ .leader := fun hl => hs (hm.lead hl)
  have hact : Act j a (Repl.setLog a j
      (Repl.graft ((a.llog (c.servers j).raft.currentTerm).take k) (a.log j))) := by
    simp only [← hm.term] at he hs hk hkl hor ⊢
    exact Act.graft h.inv.log he hs (fun hc => hr (hm.cand.mp hc)) hk hkl hor
  have h1 := h.setLog hact hne hret hidx
  have hpre := prefix_graft ((a.llog (c.servers j).raft.currentTerm).take k) (a.log j)
  obtain ⟨hact', h2⟩ := h1.acknowledge (j := j)
    (l := (a.llog (c.servers j).raft.currentTerm).take k)
    (by rw [servers_setRaft]; exact he) (by rw [servers_setRaft]; exact List.take_prefix _ _)
    (by simpa [Repl.setLog] using hpre)
  rw [List.length_take, min_eq_left hkl] at hact' h2
  have hlog : (a.llog (c.servers j).raft.currentTerm).take k <+: (Repl.acknowledge (Repl.setLog a j
      (Repl.graft ((a.llog (c.servers j).raft.currentTerm).take k) (a.log j))) j k).log j := by
    simpa [Repl.acknowledge, Repl.setLog] using hpre
  exact ⟨_, hact.reach.trans hact'.reach, h2,
    by simp [Repl.acknowledge, Repl.setLog, hm.term], hlog, hm.term.ge, fun _ => Or.inr hlog⟩

/-- A follower commits what the leader has committed, as far as it has it. -/
lemma Sim.followerCommit (h : Sim K c a) {l : List (Entry C)}
    (hl : Decided a (c.servers j).raft.currentTerm l) (hlog : l <+: a.log j) :
    Sim K (c.setRaft j (followerCommit (c.servers j).raft l.length)) a := by
  unfold RaftReplication.followerCommit
  split
  · next hlt =>
    have hmin : min l.length (c.servers j).raft.log.lastIndex = l.length := by
      rw [(h.server j).mirror.log.lastIndex]
      exact min_eq_left hlog.length_le
    rw [hmin]
    exact h.setCommit hl hlog hlt.le
  · rw [setRaft_self]; exact h

/-! ### Requests to append -/

/-- What the reply to a request tells the leader. -/
def ReplyOk (a : Abs n C) (call : Call n (AppendEntriesArgs n C) AppendEntriesReply)
    (r : AppendEntriesReply) : Prop :=
  (r.success = true → (upTo call.args ≤ a.ack call.dst call.args.term ∨
      ∃ l, Decided a call.args.term l ∧ upTo call.args ≤ l.length) ∧
    Covers a call.dst call.args.term (upTo call.args)) ∧
  (r.success = false → r.term ≤ call.args.term → r.conflictIndex ≤ call.args.prevLogIndex ∧
    (r.conflictIndex ≤ a.base call.args.term → Aligned a call.dst call.args.term))

omit [Coded (Persisted n C)] [Inhabited C] [Coded (List C)] in
/-- A server whose log is not longer than the leader's was at the election is aligned. -/
lemma aligned_of_length_le {t : ℕ} (ht : a.term j = t) (hle : (a.log j).length ≤ a.base t) :
    Aligned a j t := by
  refine ⟨ht.ge, fun _ => ?_⟩
  rw [List.drop_eq_nil_of_le hle]
  exact List.nil_prefix

section Append

variable {call : Call n (AppendEntriesArgs n C) AppendEntriesReply}
  (hterm : (c.servers call.dst).raft.currentTerm = call.args.term)
include hterm

lemma Sim.placed (h : Sim K c a) (hok : AppendOk a call)
    (hr : (c.servers call.dst).raft.role ≠ .candidate) {lg : Log C}
    (hor : call.args.prevLogIndex < a.base call.args.term ∨
      a.base call.args.term < upTo call.args ∨
      (a.llog call.args.term).take (upTo call.args) <+: a.log call.dst)
    (hret : Retains lg
      (Repl.graft ((a.llog call.args.term).take (upTo call.args)) (a.log call.dst)))
    (hidx : lg.index0 = (c.servers call.dst).raft.log.index0) (reply : AppendEntriesReply) :
    ∃ b, Reach a b ∧ Sim K (c.setRaft call.dst (RaftReplication.followerCommit
        (persistSate { (c.servers call.dst).raft with log := lg }) call.args.leaderCommitIndex))
        b ∧ ReplyOk b call { reply with success := true } := by
  have hel : Elected a call.args.term := ⟨_, hok.lead⟩
  have hs : a.lead call.args.term ≠ some call.dst := by
    rw [hok.lead]; exact fun h => hok.ne (Option.some.inj h)
  have hor' : Aligned a call.dst call.args.term ∨ a.base call.args.term < upTo call.args ∨
      (a.llog call.args.term).take (upTo call.args) <+: a.log call.dst :=
    hor.imp hok.aligned id
  obtain ⟨l, hl, hlen, hlk⟩ := hok.commit
  have hlv : l <+: (a.llog call.args.term).take (upTo call.args) :=
    List.prefix_take_iff.mpr ⟨h.inv.decided_prefix hl hel, hlk⟩
  rw [← hterm] at hel hs hor' hret hlv hl
  obtain ⟨b, hreach, hb, hack, hpre, hcov⟩ := h.graft hel hs hr (by rw [hterm]; exact hok.base_le)
    (by rw [hterm]; exact hok.le) hor' hret hidx
  have hc := hb.followerCommit (j := call.dst) (l := l)
    (by rw [servers_setRaft]; exact hl.ext (h.inv.ext hreach)) (hlv.trans hpre)
  rw [setRaft_setRaft, servers_setRaft, raft_setRaft, hlen] at hc
  rw [hterm] at hack hcov
  exact ⟨b, hreach, hc, fun _ => ⟨Or.inl hack, hcov⟩, by simp⟩

lemma Sim.placeAcross (h : Sim K c a) (hok : AppendOk a call)
    (hr : (c.servers call.dst).raft.role ≠ .candidate) (reply : AppendEntriesReply)
    (hlast : ¬ call.args.prevLogIndex > (c.servers call.dst).raft.log.lastIndex)
    (hlow : call.args.prevLogIndex < (c.servers call.dst).raft.snapshotIndex) :
    ∃ rf r, placeEntries (c.servers call.dst).raft call.args reply = .ok (rf, r) ∧
      ∃ b, Reach a b ∧ Sim K (c.setRaft call.dst rf) b ∧ ReplyOk b call r := by
  have hj := h.server call.dst
  have hm := hj.mirror
  obtain ⟨l, hl, hlen, hlt, -⟩ := hj.shot
  set σ := (c.servers call.dst).raft.snapshotIndex with hσ
  rw [hterm] at hl
  rcases he : call.args.entries[σ - call.args.prevLogIndex - 1]? with _ | e
  · -- the snapshot covers the whole request
    have hup : upTo call.args ≤ σ := by
      have := List.getElem?_eq_none_iff.mp he
      unfold upTo; omega
    refine ⟨_, _, placeEntries_below hlast hlow he, a, .refl, by rw [setRaft_self]; exact h, ?_⟩
    refine ⟨fun _ => ⟨Or.inr ⟨l, hl, by omega⟩, ?_⟩, by simp⟩
    exact ⟨(hm.term.trans hterm).ge, fun _ => Or.inl (by rw [hm.snap]; exact hup)⟩
  · obtain ⟨hlt', hget⟩ := List.getElem?_eq_some_iff.mp he
    have hup : σ ≤ upTo call.args := by unfold upTo; omega
    have hle := hok.le
    -- the snapshot ends with an entry of the request
    have hentries : call.args.entries =
        ((a.llog call.args.term).take (upTo call.args)).drop call.args.prevLogIndex := by
      rw [← hok.entries, List.drop_left']
      rw [List.length_take]; unfold upTo at hle; omega
    have hsplit : (a.llog call.args.term).take (σ - 1) ++
        call.args.entries.drop (σ - call.args.prevLogIndex - 1) =
        (a.llog call.args.term).take (upTo call.args) := by
      rw [hentries, List.drop_drop,
        show call.args.prevLogIndex + (σ - call.args.prevLogIndex - 1) = σ - 1 by omega]
      conv_rhs => rw [← List.take_append_drop (σ - 1)
        ((a.llog call.args.term).take (upTo call.args)), List.take_take,
        min_eq_left (by omega : σ - 1 ≤ upTo call.args)]
    have hdrop : call.args.entries.drop (σ - call.args.prevLogIndex - 1) =
        e :: call.args.entries.drop (σ - call.args.prevLogIndex - 1 + 1) := by
      rw [List.drop_eq_getElem_cons hlt', hget]
    have hterm_e : e.term = (c.servers call.dst).raft.snapshotTerm := by
      have hp := h.inv.decided_prefix hl ⟨_, hok.lead⟩
      have hpre : (a.llog call.args.term).take (σ - 1) ++ [e] <+: a.llog call.args.term := by
        refine List.IsPrefix.trans ?_ (List.take_prefix (upTo call.args) _)
        rw [← hsplit, hdrop]
        exact ⟨_, by rw [List.append_assoc]; rfl⟩
      have hlenx : ((a.llog call.args.term).take (σ - 1) ++ [e]).length = l.length := by
        rw [List.length_append, List.length_take, List.length_singleton]; omega
      rw [← hlt, prefix_eq_of_length hp hpre hlenx.symm, lastTerm_snoc]
      rfl
    obtain ⟨lg, hplace, hidx, hret⟩ := hm.log.place_start
      (x := (a.llog call.args.term).take (σ - 1)) (e := e)
      (a := call.args.entries.drop (σ - call.args.prevLogIndex - 1 + 1))
      (by rw [List.length_take, hm.index0]; omega)
    rw [← hdrop] at hplace hret
    rw [hsplit] at hret
    rw [hm.index0] at hplace
    obtain ⟨b, hreach, hb, hrep⟩ := h.placed hterm hok hr
      (by
        by_cases hb : call.args.prevLogIndex < a.base call.args.term
        · exact Or.inl hb
        · exact Or.inr (Or.inl (by omega)))
      hret hidx reply
    exact ⟨_, _, placeEntries_across hlast hlow he hterm_e hplace, b, hreach, hb, hrep⟩

/-- The request starts at an entry of another term: the follower drops it. -/
lemma Sim.placeConflict (h : Sim K c a) (hok : AppendOk a call)
    (hr : (c.servers call.dst).raft.role ≠ .candidate) {m : ℕ} {lg : Log C}
    (hne : termAt (a.log call.dst) call.args.prevLogIndex ≠ call.args.prevLogTerm)
    (hret : Retains lg ((a.log call.dst).take m))
    (hidx : lg.index0 = (c.servers call.dst).raft.log.index0)
    (hm : m ≤ call.args.prevLogIndex ∧ call.args.prevLogIndex ≤ m + 1)
    (reply : AppendEntriesReply) (e : Entry C) :
    ∃ b, Reach a b ∧
      Sim K (c.setRaft call.dst (persistSate { (c.servers call.dst).raft with log := lg })) b ∧
      ReplyOk b call { reply with
        conflictTerm := e.term, conflictIndex := call.args.prevLogIndex, success := false } := by
  have hmir := (h.server call.dst).mirror
  have hel : Elected a call.args.term := ⟨_, hok.lead⟩
  have hs : a.lead call.args.term ≠ some call.dst := by
    rw [hok.lead]; exact fun h => hok.ne (Option.some.inj h)
  have hat : a.term call.dst = call.args.term := hmir.term.trans hterm
  have hact : Act call.dst a (Repl.setLog a call.dst ((a.log call.dst).take m)) := by
    refine Act.cut (p := call.args.prevLogIndex) (hat ▸ hel) (hat ▸ hs)
      (fun hc => hr (hmir.cand.mp hc)) hm.2 ?_
    rw [hat, ← hok.prevTerm]
    exact hne
  refine ⟨_, hact.reach, h.setLog hact
    (fun hl => hs (hterm ▸ hmir.lead hl)) hret hidx, by simp, fun _ _ => ⟨le_rfl, fun hb => ?_⟩⟩
  refine aligned_of_length_le hat ?_
  have hb' : call.args.prevLogIndex ≤ a.base call.args.term := hb
  have hlen : ((a.log call.dst).take m).length ≤ m := by
    rw [List.length_take]; exact min_le_left _ _
  show ((Repl.setLog a call.dst _).log call.dst).length ≤ a.base call.args.term
  rw [log_setLog]
  omega

/-- The request starts at an entry the follower has. -/
lemma Sim.placeMatch (h : Sim K c a) (hok : AppendOk a call)
    (hr : (c.servers call.dst).raft.role ≠ .candidate)
    (hlow : (c.servers call.dst).raft.snapshotIndex ≤ call.args.prevLogIndex)
    (hhigh : call.args.prevLogIndex ≤ (a.log call.dst).length)
    (heq : termAt (a.log call.dst) call.args.prevLogIndex = call.args.prevLogTerm)
    (reply : AppendEntriesReply) :
    ∃ lg, (c.servers call.dst).raft.log.place (call.args.prevLogIndex + 1) call.args.entries =
        .ok lg ∧
      ∃ b, Reach a b ∧ Sim K (c.setRaft call.dst (RaftReplication.followerCommit
        (persistSate { (c.servers call.dst).raft with log := lg }) call.args.leaderCommitIndex))
        b ∧ ReplyOk b call { reply with success := true } := by
  have hmir := (h.server call.dst).mirror
  have hle := hok.le
  have hel : Elected a call.args.term := ⟨_, hok.lead⟩
  obtain ⟨lg, hplace, hidx, hret⟩ := hmir.log.place_above (by rw [hmir.index0]; exact hlow) hhigh
    call.args.entries
  have htake : (a.log call.dst).take call.args.prevLogIndex =
      (a.llog call.args.term).take call.args.prevLogIndex := by
    refine (h.inv.log.log call.dst).take_eq (h.inv.log.llog hel) hhigh ?_ ?_
    · unfold upTo at hle; omega
    · rw [heq, hok.prevTerm]
  rw [htake, hok.entries] at hret
  refine ⟨lg, hplace, h.placed hterm hok hr ?_ hret hidx reply⟩
  have hbase := hok.base_le
  by_cases hb : call.args.prevLogIndex < a.base call.args.term
  · exact Or.inl hb
  · right
    rcases Nat.eq_or_lt_of_le hbase with heq' | hlt
    · -- nothing is sent beyond the base, where the two logs agree
      right
      have : upTo call.args = call.args.prevLogIndex := by
        have : call.args.prevLogIndex ≤ upTo call.args := Nat.le_add_right _ _
        omega
      rw [this, ← htake]
      exact List.take_prefix _ _
    · exact Or.inl hlt

lemma Sim.placeEntries (h : Sim K c a) (hok : AppendOk a call)
    (hr : (c.servers call.dst).raft.role ≠ .candidate) (reply : AppendEntriesReply) :
    ∃ rf r, placeEntries (c.servers call.dst).raft call.args reply = .ok (rf, r) ∧
      ∃ b, Reach a b ∧ Sim K (c.setRaft call.dst rf) b ∧ ReplyOk b call r := by
  have hmir := (h.server call.dst).mirror
  have hlastIndex := hmir.log.lastIndex
  by_cases hlast : call.args.prevLogIndex > (c.servers call.dst).raft.log.lastIndex
  · obtain ⟨last, hl, -⟩ := hmir.log.lastEntry
    refine ⟨_, _, placeEntries_short hlast hl, a, .refl, by rw [setRaft_self]; exact h, by simp,
      fun _ _ => ⟨hlast.le, fun hb => ?_⟩⟩
    refine aligned_of_length_le (hmir.term.trans hterm) ?_
    rw [← hlastIndex]
    exact hb
  by_cases hlow : call.args.prevLogIndex < (c.servers call.dst).raft.snapshotIndex
  · exact h.placeAcross hterm hok hr reply hlast hlow
  have hhigh : call.args.prevLogIndex ≤ (a.log call.dst).length := by omega
  have hstart : (c.servers call.dst).raft.log.index0 ≤ call.args.prevLogIndex := by
    rw [hmir.index0]; omega
  obtain ⟨prev, hprev, hpt, -⟩ := hmir.log.entry hstart hhigh
  by_cases hne : prev.term = call.args.prevLogTerm
  · obtain ⟨lg, hplace, b, hreach, hb, hrep⟩ :=
      h.placeMatch hterm hok hr (by omega) hhigh (hpt ▸ hne) reply
    exact ⟨_, _, placeEntries_match hlast hlow hprev hne hplace, b, hreach, hb, hrep⟩
  · obtain ⟨lg, m, hcut, hidx, hret, -, hm⟩ := hmir.log.cutOffTail hstart hhigh
    obtain ⟨b, hreach, hb, hrep⟩ :=
      h.placeConflict hterm hok hr (hpt ▸ hne) hret hidx hm reply prev
    exact ⟨_, _, placeEntries_conflict hlast hlow hprev hne hcut, b, hreach, hb, hrep⟩

end Append

lemma Sim.answerAppend (h : Sim K c a) {k : ℕ}
    {call : Call n (AppendEntriesArgs n C) AppendEntriesReply} (hok : AppendOk a call)
    {r : AppendEntriesReply} (hr : ReplyOk a call r) :
    Sim K { c with appendCalls := c.appendCalls.set k (call.answer r) } a := by
  refine h.setAppendCall ⟨hok.lead, hok.ne, hok.prevTerm, hok.entries, hok.le, hok.base_le,
    hok.commit, hok.aligned, ?_, ?_⟩
  · intro r' hr' hs
    obtain rfl : r = r' := by simpa [Call.answer] using hr'
    exact hr.1 hs
  · intro r' hr' hs
    obtain rfl : r = r' := by simpa [Call.answer] using hr'
    exact hr.2 hs

/-- **A server handles a request to append.** -/
lemma Sim.appendEntries (h : Sim K c a) {k : ℕ} {r : Except Panic (Cluster n C)}
    (hs : step c (.appendEntries k) = some r) :
    ∃ c', r = .ok c' ∧ ∃ b, Reach a b ∧ Sim K c' b := by
  rcases hk : c.appendCalls[k]? with _ | call
  · simp [step, hk] at hs
  by_cases hnone : call.reply.isNone
  swap
  · simp [step, hk, hnone] at hs
  have hok := h.appends call (List.mem_of_getElem? hk)
  have hrun : ∃ rf reply, RaftReplication.appendEntries (c.servers call.dst).raft call.args =
      .ok (rf, reply) ∧ ∃ b, Reach a b ∧ Sim K (c.setRaft call.dst rf) b ∧
        ReplyOk b call reply := by
    by_cases hold : call.args.term < (c.servers call.dst).raft.currentTerm
    · refine ⟨_, _, by rw [RaftReplication.appendEntries, if_pos hold], a, .refl,
        by rw [setRaft_self]; exact h, by simp, fun _ hle => ?_⟩
      exact absurd hle (not_le.mpr hold)
    · obtain ⟨b, hact, hb, hterm, hrole⟩ :=
        h.heardFrom (j := call.dst) hok.lead call.args.leaderId (not_lt.mp hold)
      have hplace := hb.placeEntries (by rw [servers_setRaft]; exact hterm)
        (hok.ext (h.inv.ext hact.reach)) (by rw [servers_setRaft]; exact hrole)
        ⟨(c.servers call.dst).raft.currentTerm, 0, 0, false⟩
      rw [servers_setRaft, raft_setRaft] at hplace
      obtain ⟨rf, reply, hrf, b', hreach, hb', hrep⟩ := hplace
      rw [setRaft_setRaft] at hb'
      exact ⟨rf, reply, by rw [RaftReplication.appendEntries, if_neg hold, hrf], b',
        hact.reach.trans hreach, hb', hrep⟩
  obtain ⟨rf, reply, hrun, b, hreach, hb, hrep⟩ := hrun
  simp only [step, hk, hnone, if_true, hrun, bind, Except.bind, pure, Except.pure,
    Option.some.injEq] at hs
  exact ⟨_, hs.symm, b, hreach, hb.answerAppend (hok.ext (h.inv.ext hreach)) hrep⟩

end Mit6824.RaftSim
