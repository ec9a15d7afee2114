import Mit6824.RaftLogSpec
import Mit6824.RaftReplication

/-!
The branches of log replication: what each handler does, with the conditions under which it does
it.
-/

namespace Mit6824.RaftReplication

open Mit6824.Labgob Mit6824.RaftLog Mit6824.RaftState Function

variable {n : ℕ} {C : Type} {rf : Raft n C} {p : Fin n}

/-! ### The leader's requests -/

section Requests

variable {next mtch : Fin n → ℕ}

lemma replicate_snapshot (hn : rf.nextIndex = some next) (hm : rf.matchIndex = some mtch)
    (hlt : mtch p < next p) (hs : next p - 1 < rf.snapshotIndex) :
    replicate rf p = .ok (.installSnapshot
      ⟨rf.currentTerm, rf.me, rf.snapshotIndex, rf.snapshotTerm, rf.snapshot⟩) := by
  have hle : (mtch p : ℤ) ≤ (next p : ℤ) - 1 := by omega
  simp only [replicate, atPeer, hn, hm, Log.assert_ok hle, if_pos hs, bind, Except.bind, pure,
    Except.pure]

lemma replicate_append {prev : Entry C} {entries : List (Entry C)} (hn : rf.nextIndex = some next)
    (hm : rf.matchIndex = some mtch) (hlt : mtch p < next p)
    (hs : ¬ next p - 1 < rf.snapshotIndex) (he : rf.log.entry (next p - 1) = .ok prev)
    (hsl : rf.log.slice (next p - 1 + 1) = .ok entries) :
    replicate rf p = .ok (.appendEntries
      ⟨rf.currentTerm, rf.me, next p - 1, prev.term, entries, rf.commitIndex⟩) := by
  have hle : (mtch p : ℤ) ≤ (next p : ℤ) - 1 := by omega
  simp only [replicate, atPeer, hn, hm, Log.assert_ok hle, if_neg hs, he, hsl, bind, Except.bind,
    pure, Except.pure]

end Requests

/-! ### Rolling back -/

/-- The loop stops in the log, and steps over entries of one term only. -/
lemma stepOver_spec (lg : Log C) (term : ℕ) {i : ℕ} (hi : lg.index0 ≤ i)
    (hlt : i < lg.index0 + lg.entries.length) :
    ∃ v, stepOver lg term i = .ok v ∧ lg.index0 ≤ v ∧ v ≤ i ∧
      ∀ q, v < q → q ≤ i → ∃ e, lg.entry q = .ok e ∧ e.term = term := by
  induction i with
  | zero =>
    obtain ⟨e, he⟩ := Log.exists_entry hi hlt
    exact ⟨0, by simp [stepOver, he, bind, Except.bind, pure, Except.pure], hi, le_rfl,
      fun q h0 hq => by omega⟩
  | succ i ih =>
    obtain ⟨e, he⟩ := Log.exists_entry hi hlt
    by_cases hc : e.term = term ∧ i + 1 > lg.start
    · have hstart : lg.index0 < i + 1 := hc.2
      obtain ⟨v, hv, hle, hvi, hall⟩ := ih (by omega) (by omega)
      refine ⟨v, by simp [stepOver, he, hc, hv, bind, Except.bind], hle, by omega,
        fun q hq hqi => ?_⟩
      rcases Nat.eq_or_lt_of_le hqi with rfl | hlt
      · exact ⟨e, he, hc.1⟩
      · exact hall q hq (by omega)
    · exact ⟨i + 1, by simp only [stepOver, he, if_neg hc, bind, Except.bind, pure, Except.pure],
        hi, le_rfl, fun q h0 hq => by omega⟩

/-- Rolling back stays in the log if the conflict is there, and passes over entries of the term
that the leader has at the conflict only. -/
lemma rollBack_spec (hidx : rf.log.index0 = rf.snapshotIndex) (reply : AppendEntriesReply)
    (hci : reply.conflictIndex < rf.log.index0 + rf.log.entries.length) :
    ∃ v, rollBack rf reply = .ok (v + 1) ∧ v ≤ reply.conflictIndex ∧
      ∀ q, v < q → q ≤ reply.conflictIndex → rf.snapshotIndex ≤ v ∧
        ∃ e e', rf.log.entry q = .ok e ∧ rf.log.entry reply.conflictIndex = .ok e' ∧
          e.term = e'.term := by
  by_cases hs : reply.conflictIndex < rf.snapshotIndex
  · exact ⟨reply.conflictIndex, by simp [rollBack, hs, pure, Except.pure], le_rfl,
      fun q h1 h2 => by omega⟩
  · obtain ⟨e, he⟩ : ∃ e, rf.log.entry reply.conflictIndex = .ok e :=
      Log.exists_entry (by omega) hci
    by_cases hc : e.term = reply.conflictTerm
    · exact ⟨reply.conflictIndex,
        by simp only [rollBack, if_neg hs, he, if_pos hc, bind, Except.bind, pure, Except.pure],
        le_rfl, fun q h1 h2 => by omega⟩
    · obtain ⟨v, hv, hle, hvi, hall⟩ := stepOver_spec rf.log e.term (by omega) hci
      refine ⟨v, ?_, hvi, fun q h1 h2 => ⟨by omega, ?_⟩⟩
      · simp only [rollBack, if_neg hs, he, if_neg hc, hv, bind, Except.bind, pure, Except.pure]
      · obtain ⟨e', he', ht⟩ := hall q h1 h2
        exact ⟨e', e, he', he, ht⟩

variable [Coded (Persisted n C)]

/-! ### Replies -/

section Replies

variable {next mtch : Fin n → ℕ} {args : AppendEntriesArgs n C} {reply : AppendEntriesReply}

lemma sendAppendEntries_stale (h : args.term ≠ rf.currentTerm ∨ rf.role ≠ .leader) :
    sendAppendEntries rf p args reply = .ok rf := by
  simp only [sendAppendEntries, if_pos h, pure, Except.pure]

lemma sendAppendEntries_matched (h : ¬ (args.term ≠ rf.currentTerm ∨ rf.role ≠ .leader))
    (hs : reply.success = true) (hm : rf.matchIndex = some mtch) (hn : rf.nextIndex = some next)
    {k q : ℕ} (hq : q = args.prevLogIndex + args.entries.length) (hlt : mtch p < q)
    (hc : leaderCommit { rf with matchIndex := some (update mtch p q) } =
      .ok { rf with matchIndex := some (update mtch p q), commitIndex := k }) :
    sendAppendEntries rf p args reply = .ok { rf with
      nextIndex := some (update next p (q + 1))
      matchIndex := some (update mtch p q)
      commitIndex := k } := by
  subst hq
  simp only [sendAppendEntries, if_neg h, if_pos hs, hm, atPeer, setPeer, bind, Except.bind, pure,
    Except.pure, if_pos hlt, Option.map_some, hc]
  rw [hn, Option.map_some]

lemma sendAppendEntries_known (h : ¬ (args.term ≠ rf.currentTerm ∨ rf.role ≠ .leader))
    (hs : reply.success = true) (hm : rf.matchIndex = some mtch) (hn : rf.nextIndex = some next)
    (hlt : ¬ mtch p < args.prevLogIndex + args.entries.length) :
    sendAppendEntries rf p args reply = .ok { rf with
      nextIndex := some (update next p (mtch p + 1))
      matchIndex := some mtch } := by
  simp only [sendAppendEntries, if_neg h, if_pos hs, hm, atPeer, setPeer, bind, Except.bind, pure,
    Except.pure, if_neg hlt, Option.map_some, hn]

lemma sendAppendEntries_higher (h : ¬ (args.term ≠ rf.currentTerm ∨ rf.role ≠ .leader))
    (hs : reply.success = false) (ht : reply.term > rf.currentTerm) :
    sendAppendEntries rf p args reply = .ok (stepDown rf reply.term) := by
  simp [sendAppendEntries, if_neg h, hs, ht, pure, Except.pure]

lemma sendAppendEntries_conflict (h : ¬ (args.term ≠ rf.currentTerm ∨ rf.role ≠ .leader))
    (hs : reply.success = false) (ht : ¬ reply.term > rf.currentTerm)
    (hm : rf.matchIndex = some mtch) (hn : rf.nextIndex = some next) {v : ℕ}
    (hv : rollBack rf reply = .ok v) :
    sendAppendEntries rf p args reply = .ok { rf with
      nextIndex := some (update next p (max (mtch p + 1) v))
      matchIndex := some mtch } := by
  simp only [sendAppendEntries, if_neg h, hs, if_neg ht, hm, hv, atPeer, setPeer, hn, bind,
    Except.bind, pure, Except.pure, Option.map_some, Bool.false_eq_true, if_false]

end Replies

section SnapshotReplies

variable {next mtch : Fin n → ℕ} {args : InstallSnapshotArgs n} {reply : InstallSnapshotReply}

lemma sendInstallSnapshot_stale (h : args.term ≠ rf.currentTerm) :
    sendInstallSnapshot rf p args reply = .ok rf := by
  simp only [sendInstallSnapshot, if_pos h, pure, Except.pure]

lemma sendInstallSnapshot_higher (h : args.term = rf.currentTerm)
    (ht : reply.term > rf.currentTerm) :
    sendInstallSnapshot rf p args reply = .ok (stepDown rf reply.term) := by
  simp [sendInstallSnapshot, h, ht, pure, Except.pure]

lemma sendInstallSnapshot_matched (h : args.term = rf.currentTerm)
    (ht : ¬ reply.term > rf.currentTerm) (hm : rf.matchIndex = some mtch)
    (hn : rf.nextIndex = some next) (hlt : mtch p < args.lastIncludedIndex) :
    sendInstallSnapshot rf p args reply = .ok { rf with
      nextIndex := some (update next p (args.lastIncludedIndex + 1))
      matchIndex := some (update mtch p args.lastIncludedIndex) } := by
  simp [sendInstallSnapshot, h, ht, hm, hn, atPeer, setPeer, hlt, bind, Except.bind, pure,
    Except.pure]

lemma sendInstallSnapshot_known (h : args.term = rf.currentTerm)
    (ht : ¬ reply.term > rf.currentTerm) (hm : rf.matchIndex = some mtch)
    (hlt : ¬ mtch p < args.lastIncludedIndex) :
    sendInstallSnapshot rf p args reply = .ok rf := by
  simp [sendInstallSnapshot, h, ht, hm, atPeer, hlt, bind, Except.bind, pure, Except.pure]

end SnapshotReplies

/-! ### The follower -/

@[simp] lemma heardFrom_unchanged (rf : Raft n C) (t : ℕ) (l : Fin n) :
    (heardFrom rf t l).snapshotIndex = rf.snapshotIndex ∧
    (heardFrom rf t l).lastApplied = rf.lastApplied ∧ (heardFrom rf t l).log = rf.log ∧
    (heardFrom rf t l).commitIndex = rf.commitIndex := by
  unfold heardFrom
  simp only
  split <;> exact ⟨rfl, rfl, rfl, rfl⟩

@[simp] lemma snapshotTerm_heardFrom (rf : Raft n C) (t : ℕ) (l : Fin n) :
    (heardFrom rf t l).snapshotTerm = rf.snapshotTerm := by
  unfold heardFrom
  dsimp only
  split <;> rfl

/-- A server that hears from the leader of its term stays in the term. -/
lemma currentTerm_heardFrom (rf : Raft n C) (l : Fin n) :
    (heardFrom rf rf.currentTerm l).currentTerm = rf.currentTerm := by
  unfold heardFrom
  dsimp only
  split <;> rfl

omit [Coded (Persisted n C)] in
@[simp] lemma log_followerCommit (rf : Raft n C) (k : ℕ) : (followerCommit rf k).log = rf.log := by
  unfold followerCommit
  split <;> rfl

omit [Coded (Persisted n C)] in
@[simp] lemma snapshotIndex_followerCommit (rf : Raft n C) (k : ℕ) :
    (followerCommit rf k).snapshotIndex = rf.snapshotIndex := by
  unfold followerCommit
  split <;> rfl

section Append

variable {args : AppendEntriesArgs n C} {reply : AppendEntriesReply}

lemma placeEntries_short {last : Entry C} (h : args.prevLogIndex > rf.log.lastIndex)
    (hl : rf.log.lastEntry = .ok last) :
    placeEntries rf args reply = .ok (rf, { reply with
      conflictTerm := last.term, conflictIndex := rf.log.lastIndex, success := false }) := by
  simp only [placeEntries, if_pos h, hl, bind, Except.bind, pure, Except.pure]

lemma placeEntries_below (h : ¬ args.prevLogIndex > rf.log.lastIndex)
    (hs : args.prevLogIndex < rf.snapshotIndex)
    (hn : args.entries[rf.snapshotIndex - args.prevLogIndex - 1]? = none) :
    placeEntries rf args reply = .ok (rf, { reply with success := true }) := by
  simp only [placeEntries, if_neg h, if_pos hs, hn, pure, Except.pure]

lemma placeEntries_across {e : Entry C} {lg : Log C} (h : ¬ args.prevLogIndex > rf.log.lastIndex)
    (hs : args.prevLogIndex < rf.snapshotIndex)
    (hn : args.entries[rf.snapshotIndex - args.prevLogIndex - 1]? = some e)
    (ht : e.term = rf.snapshotTerm)
    (hp : rf.log.place rf.snapshotIndex
      (args.entries.drop (rf.snapshotIndex - args.prevLogIndex - 1)) = .ok lg) :
    placeEntries rf args reply =
      .ok (followerCommit (persistSate { rf with log := lg }) args.leaderCommitIndex,
        { reply with success := true }) := by
  simp only [placeEntries, if_neg h, if_pos hs, hn, Log.assert_ok ht, hp, bind, Except.bind, pure,
    Except.pure]

lemma placeEntries_conflict {prev : Entry C} {lg : Log C}
    (h : ¬ args.prevLogIndex > rf.log.lastIndex) (hs : ¬ args.prevLogIndex < rf.snapshotIndex)
    (he : rf.log.entry args.prevLogIndex = .ok prev) (ht : prev.term ≠ args.prevLogTerm)
    (hc : rf.log.cutOffTail args.prevLogIndex = .ok lg) :
    placeEntries rf args reply = .ok (persistSate { rf with log := lg }, { reply with
      conflictTerm := prev.term, conflictIndex := args.prevLogIndex, success := false }) := by
  simp only [placeEntries, if_neg h, if_neg hs, he, if_pos ht, hc, bind, Except.bind, pure,
    Except.pure]

lemma placeEntries_match {prev : Entry C} {lg : Log C}
    (h : ¬ args.prevLogIndex > rf.log.lastIndex) (hs : ¬ args.prevLogIndex < rf.snapshotIndex)
    (he : rf.log.entry args.prevLogIndex = .ok prev) (ht : prev.term = args.prevLogTerm)
    (hp : rf.log.place (args.prevLogIndex + 1) args.entries = .ok lg) :
    placeEntries rf args reply =
      .ok (followerCommit (persistSate { rf with log := lg }) args.leaderCommitIndex,
        { reply with success := true }) := by
  simp only [placeEntries, if_neg h, if_neg hs, he, ht, ne_eq, not_true_eq_false, if_false, hp,
    bind, Except.bind, pure, Except.pure]

lemma appendEntries_eq (h : rf.currentTerm ≤ args.term) :
    appendEntries rf args =
      placeEntries (heardFrom rf args.term args.leaderId) args ⟨rf.currentTerm, 0, 0, false⟩ :=
  if_neg (not_lt.mpr h)

lemma appendEntries_match {prev : Entry C} {lg : Log C} (h : rf.currentTerm ≤ args.term)
    (hs : rf.snapshotIndex ≤ args.prevLogIndex)
    (he : rf.log.entry args.prevLogIndex = .ok prev) (ht : prev.term = args.prevLogTerm)
    (hp : rf.log.place (args.prevLogIndex + 1) args.entries = .ok lg) :
    appendEntries rf args =
      .ok (followerCommit (persistSate { heardFrom rf args.term args.leaderId with log := lg })
        args.leaderCommitIndex, ⟨rf.currentTerm, 0, 0, true⟩) := by
  have hrange := Log.range_of_entry he
  obtain ⟨hsnap, -, hlog, -⟩ := heardFrom_unchanged rf args.term args.leaderId
  rw [appendEntries_eq h]
  rw [← hlog] at he hp
  refine placeEntries_match ?_ (by omega) he ht hp
  rw [hlog, Log.lastIndex]
  omega

end Append

section Install

variable [Inhabited C] {args : InstallSnapshotArgs n}

lemma replaceLog_keep {lg : Log C} (h : rf.log.lastIndex > args.lastIncludedIndex)
    (hc : rf.log.cutOffHead args.lastIncludedIndex = .ok lg) :
    replaceLog rf args = .ok (persist { rf with
      log := lg
      snapshotIndex := args.lastIncludedIndex
      snapshotTerm := args.lastIncludedTerm
      snapshot := args.data }) := by
  simp only [replaceLog, if_pos h, hc, bind, Except.bind, pure, Except.pure]

lemma replaceLog_drop (h : ¬ rf.log.lastIndex > args.lastIncludedIndex) :
    replaceLog rf args = .ok (persist { rf with
      log := ⟨[⟨args.lastIncludedTerm, default⟩], args.lastIncludedIndex⟩
      snapshotIndex := args.lastIncludedIndex
      snapshotTerm := args.lastIncludedTerm
      snapshot := args.data }) := by
  simp only [replaceLog, if_neg h, bind, Except.bind, pure, Except.pure]

lemma installSnapshot_drop (h : rf.currentTerm ≤ args.term)
    (hs : rf.snapshotIndex < args.lastIncludedIndex)
    (ha : rf.lastApplied < args.lastIncludedIndex)
    (hl : ¬ rf.log.lastIndex > args.lastIncludedIndex) :
    installSnapshot rf args = .ok (persist { heardFrom rf args.term args.leaderId with
      log := ⟨[⟨args.lastIncludedTerm, default⟩], args.lastIncludedIndex⟩
      snapshotIndex := args.lastIncludedIndex
      snapshotTerm := args.lastIncludedTerm
      snapshot := args.data }, ⟨rf.currentTerm⟩) := by
  obtain ⟨hsnap, happlied, hlog, -⟩ := heardFrom_unchanged rf args.term args.leaderId
  have hneed : ¬ ((heardFrom rf args.term args.leaderId).snapshotIndex ≥ args.lastIncludedIndex ∨
      (heardFrom rf args.term args.leaderId).lastApplied ≥ args.lastIncludedIndex) := by
    omega
  rw [← hlog] at hl
  simp only [installSnapshot, if_neg (not_lt.mpr h), if_neg hneed, replaceLog_drop hl, bind,
    Except.bind, pure, Except.pure]

end Install

end Mit6824.RaftReplication
