import Mit6824.RaftSimRun

/-!
What one action does to the servers.

`Worked` says once what the code that a server runs under the lock may do to its term, its vote
and its indexes. `Moved` says what an action changes: a server runs such code, or its applier
takes its next turn, or it restarts.
-/

namespace Mit6824.RaftSteps

open Mit6824.Labgob Mit6824.Quorum Mit6824.TermLog Mit6824.Repl
open Mit6824.RaftLog Mit6824.RaftState Mit6824.RaftElection Mit6824.RaftReplication
open Mit6824.RaftApplier Mit6824.RaftCluster Mit6824.RaftSim Function

variable {n : ℕ} {C : Type}

lemma bind_eq_ok {α β : Type} {x : Except Panic α} {f : α → Except Panic β} {b : β}
    (h : (x >>= f) = .ok b) : ∃ a, x = .ok a ∧ f a = .ok b := by
  cases x with
  | error p => simp [bind, Except.bind] at h
  | ok a => exact ⟨a, rfl, h⟩

/-- What the code run under the lock does to a server. Within a term the server keeps its vote,
unless `Y`. -/
structure Worked (Y : Prop) (rf rf' : Raft n C) : Prop where
  vote : rf.currentTerm < rf'.currentTerm ∨ (rf'.currentTerm = rf.currentTerm ∧
    ∀ x, rf.votedFor = some x → rf'.votedFor = some x ∨ Y)
  snapshot : rf.snapshotIndex ≤ rf'.snapshotIndex
  applied : rf'.lastApplied = rf.lastApplied
  commit : rf.commitIndex ≤ rf'.commitIndex ∨ rf'.commitIndex = rf'.log.lastIndex

section Code

variable {Y : Prop} {rf rf₀ rf' : Raft n C}

lemma Worked.refl : Worked Y rf rf :=
  ⟨Or.inr ⟨rfl, fun _ h => Or.inl h⟩, le_rfl, rfl, Or.inl le_rfl⟩

lemma worked_of_eq (ht : rf'.currentTerm = rf.currentTerm) (hv : rf'.votedFor = rf.votedFor)
    (hs : rf.snapshotIndex ≤ rf'.snapshotIndex) (ha : rf'.lastApplied = rf.lastApplied)
    (hc : rf.commitIndex ≤ rf'.commitIndex) : Worked Y rf rf' :=
  ⟨Or.inr ⟨ht, fun _ h => Or.inl (hv.trans h)⟩, hs, ha, Or.inl hc⟩

lemma Worked.trans (h : Worked Y rf rf₀) (hc : rf₀.commitIndex = rf.commitIndex)
    (h' : Worked Y rf₀ rf') : Worked Y rf rf' := by
  refine ⟨?_, h.snapshot.trans h'.snapshot, h'.applied.trans h.applied, hc ▸ h'.commit⟩
  rcases h.vote with hlt | ⟨heq, hv⟩ <;> rcases h'.vote with hlt' | ⟨heq', hv'⟩
  · exact Or.inl (hlt.trans hlt')
  · exact Or.inl (heq'.symm ▸ hlt)
  · exact Or.inl (heq ▸ hlt')
  · refine Or.inr ⟨heq'.trans heq, fun x hx => ?_⟩
    rcases hv x hx with h0 | hY
    · exact hv' x h0
    · exact Or.inr hY

lemma worked_followerCommit (rf : Raft n C) (lc : ℕ) : Worked Y rf (followerCommit rf lc) := by
  unfold followerCommit
  split
  · refine ⟨Or.inr ⟨rfl, fun _ h => Or.inl h⟩, le_rfl, rfl, ?_⟩
    rcases le_total lc rf.log.lastIndex with hle | hle
    · exact Or.inl (by simp only [min_eq_left hle]; omega)
    · exact Or.inr (min_eq_right hle)
  · exact Worked.refl

variable [Coded (Persisted n C)]

lemma worked_stepDown {t : ℕ} (h : rf.currentTerm < t) : Worked Y rf (stepDown rf t) :=
  ⟨Or.inl h, le_rfl, rfl, Or.inl le_rfl⟩

lemma worked_start (rf : Raft n C) (cmd : C) : Worked Y rf (RaftState.start rf cmd).1 := by
  unfold RaftState.start
  split
  · exact worked_of_eq rfl rfl le_rfl rfl le_rfl
  · exact Worked.refl

lemma worked_snapshot {index : ℕ} {data : Bytes}
    (h : RaftReplication.snapshot rf index data = .ok rf') : Worked Y rf rf' := by
  unfold RaftReplication.snapshot at h
  split at h
  · obtain rfl := Except.ok.inj h
    exact Worked.refl
  · obtain ⟨_, -, h⟩ := bind_eq_ok h
    obtain ⟨_, -, h⟩ := bind_eq_ok h
    obtain rfl := Except.ok.inj h
    exact worked_of_eq rfl rfl (by simp [persist]; omega) rfl le_rfl

/-! ### Elections -/

lemma worked_leaderElection {args : Option (RequestVoteArgs n)}
    (h : RaftElection.leaderElection rf = .ok (rf', args)) : Worked Y rf rf' := by
  unfold RaftElection.leaderElection at h
  rcases hrole : rf.role with _ | _ | _
  · simp only [hrole, reduceCtorEq, if_false, pure, Except.pure] at h
    obtain ⟨rfl, -⟩ := Prod.mk.inj (Except.ok.inj h)
    exact Worked.refl
  all_goals
    simp only [hrole, reduceCtorEq, if_true, if_false] at h
    obtain ⟨_, -, h⟩ := bind_eq_ok h
    obtain ⟨rfl, -⟩ := Prod.mk.inj (Except.ok.inj h)
    exact ⟨Or.inl (Nat.lt_succ_self _), le_rfl, rfl, Or.inl le_rfl⟩

lemma worked_adoptTerm (rf : Raft n C) (t : ℕ) : Worked Y rf (adoptTerm rf t) := by
  unfold adoptTerm
  split
  · next h => exact worked_stepDown h
  · exact Worked.refl

lemma worked_requestVote {args : RequestVoteArgs n} {reply : RequestVoteReply}
    (h : RaftElection.requestVote rf args = .ok (rf', reply)) : Worked Y rf rf' := by
  unfold RaftElection.requestVote at h
  split at h
  · obtain ⟨rfl, -⟩ := Prod.mk.inj (Except.ok.inj h)
    exact Worked.refl
  refine (worked_adoptTerm rf args.term).trans (by unfold adoptTerm; split <;> rfl) ?_
  dsimp only at h
  split at h
  · next hheld =>
    obtain ⟨_, -, h⟩ := bind_eq_ok h
    split at h
    · obtain ⟨rfl, -⟩ := Prod.mk.inj (Except.ok.inj h)
      refine ⟨Or.inr ⟨rfl, fun x hx => Or.inl ?_⟩, le_rfl, rfl, Or.inl le_rfl⟩
      -- it votes for a second time only for the same candidate
      rw [hx] at hheld
      rcases hheld with h0 | h0
      · exact absurd h0 (by simp)
      · exact h0.symm
    · obtain ⟨rfl, -⟩ := Prod.mk.inj (Except.ok.inj h)
      exact Worked.refl
  · obtain ⟨rfl, -⟩ := Prod.mk.inj (Except.ok.inj h)
    exact Worked.refl

lemma worked_countVote (rf : Raft n C) (e : Election) (reply : Option RequestVoteReply) :
    Worked Y rf (RaftElection.countVote rf e reply).1 := by
  unfold RaftElection.countVote
  split
  · exact Worked.refl
  · split
    · exact Worked.refl
    · split
      · next h => exact worked_stepDown h
      · exact Worked.refl

omit [Coded (Persisted n C)] in
lemma worked_finishElection (rf : Raft n C) (t : ℕ) (e : Election) :
    Worked Y rf (RaftElection.finishElection rf t e) := by
  unfold RaftElection.finishElection
  split
  · exact worked_of_eq rfl rfl le_rfl rfl le_rfl
  · exact Worked.refl

/-! ### Replication -/

lemma worked_heardFrom {t : ℕ} (l : Fin n) (ht : rf.currentTerm ≤ t)
    (hY : rf.role = .candidate → t = rf.currentTerm → Y) : Worked Y rf (heardFrom rf t l) := by
  unfold heardFrom
  dsimp only
  rcases Nat.eq_or_lt_of_le ht with rfl | hlt
  · split
    · next h =>
      have hcand : rf.role = .candidate := by simpa using h
      exact ⟨Or.inr ⟨rfl, fun _ _ => Or.inr (hY hcand rfl)⟩, le_rfl, rfl, Or.inl le_rfl⟩
    · exact worked_of_eq rfl rfl le_rfl rfl le_rfl
  · rw [if_pos (Or.inl hlt)]
    exact ⟨Or.inl hlt, le_rfl, rfl, Or.inl le_rfl⟩

lemma worked_placeEntries {args : AppendEntriesArgs n C} {reply reply' : AppendEntriesReply}
    (h : placeEntries rf args reply = .ok (rf', reply')) : Worked Y rf rf' := by
  have hlog : ∀ log, Worked Y rf (persistSate { rf with log }) := fun _ =>
    worked_of_eq rfl rfl le_rfl rfl le_rfl
  unfold placeEntries at h
  split at h
  · obtain ⟨_, -, h⟩ := bind_eq_ok h
    obtain ⟨rfl, -⟩ := Prod.mk.inj (Except.ok.inj h)
    exact Worked.refl
  split at h
  · dsimp only at h
    split at h
    · obtain ⟨rfl, -⟩ := Prod.mk.inj (Except.ok.inj h)
      exact Worked.refl
    · obtain ⟨_, -, h⟩ := bind_eq_ok h
      obtain ⟨log, -, h⟩ := bind_eq_ok h
      obtain ⟨rfl, -⟩ := Prod.mk.inj (Except.ok.inj h)
      exact (hlog log).trans rfl (worked_followerCommit _ _)
  · obtain ⟨_, -, h⟩ := bind_eq_ok h
    split at h
    · obtain ⟨log, -, h⟩ := bind_eq_ok h
      obtain ⟨rfl, -⟩ := Prod.mk.inj (Except.ok.inj h)
      exact hlog log
    · obtain ⟨log, -, h⟩ := bind_eq_ok h
      obtain ⟨rfl, -⟩ := Prod.mk.inj (Except.ok.inj h)
      exact (hlog log).trans rfl (worked_followerCommit _ _)

lemma worked_appendEntries {args : AppendEntriesArgs n C} {reply : AppendEntriesReply}
    (h : RaftReplication.appendEntries rf args = .ok (rf', reply))
    (hY : rf.role = .candidate → args.term = rf.currentTerm → Y) : Worked Y rf rf' := by
  unfold RaftReplication.appendEntries at h
  split at h
  · obtain ⟨rfl, -⟩ := Prod.mk.inj (Except.ok.inj h)
    exact Worked.refl
  · next hold =>
    exact (worked_heardFrom _ (not_lt.mp hold) hY).trans (heardFrom_unchanged ..).2.2.2
      (worked_placeEntries h)

lemma worked_replaceLog [Inhabited C] {args : InstallSnapshotArgs n}
    (hle : rf.snapshotIndex ≤ args.lastIncludedIndex) (h : replaceLog rf args = .ok rf') :
    Worked Y rf rf' := by
  unfold replaceLog at h
  dsimp only at h
  split at h
  all_goals
    obtain ⟨log, -, h⟩ := bind_eq_ok h
    obtain rfl := Except.ok.inj h
    exact worked_of_eq rfl rfl hle rfl le_rfl

lemma worked_installSnapshot [Inhabited C] {args : InstallSnapshotArgs n}
    {reply : InstallSnapshotReply}
    (h : RaftReplication.installSnapshot rf args = .ok (rf', reply))
    (hY : rf.role = .candidate → args.term = rf.currentTerm → Y) : Worked Y rf rf' := by
  unfold RaftReplication.installSnapshot at h
  split at h
  · obtain ⟨rfl, -⟩ := Prod.mk.inj (Except.ok.inj h)
    exact Worked.refl
  next hold =>
  have hheard := worked_heardFrom args.leaderId (not_lt.mp hold) hY
  dsimp only at h
  split at h
  · obtain ⟨rfl, -⟩ := Prod.mk.inj (Except.ok.inj h)
    exact hheard
  · next hneed =>
    obtain ⟨rf₁, hrep, h⟩ := bind_eq_ok h
    obtain ⟨rfl, -⟩ := Prod.mk.inj (Except.ok.inj h)
    exact hheard.trans (heardFrom_unchanged ..).2.2.2 (worked_replaceLog (by omega) hrep)

omit [Coded (Persisted n C)] in
lemma worked_leaderCommit (h : leaderCommit rf = .ok rf') : Worked Y rf rf' := by
  unfold leaderCommit at h
  obtain ⟨_, -, h⟩ := bind_eq_ok h
  split at h
  · split at h
    · obtain rfl := Except.ok.inj h
      exact Worked.refl
    · obtain ⟨_, -, h⟩ := bind_eq_ok h
      split at h
      · next hc =>
        obtain rfl := Except.ok.inj h
        exact worked_of_eq rfl rfl le_rfl rfl hc.2.le
      · obtain rfl := Except.ok.inj h
        exact Worked.refl
  · simp [throw, throwThe, MonadExceptOf.throw] at h

lemma worked_sendAppendEntries {p : Fin n} {args : AppendEntriesArgs n C}
    {reply : AppendEntriesReply}
    (h : RaftReplication.sendAppendEntries rf p args reply = .ok rf') : Worked Y rf rf' := by
  have hpeers : ∀ next mtch,
      Worked Y rf { rf with nextIndex := next, matchIndex := mtch } := fun _ _ =>
    worked_of_eq rfl rfl le_rfl rfl le_rfl
  unfold RaftReplication.sendAppendEntries at h
  split at h
  · obtain rfl := Except.ok.inj h
    exact Worked.refl
  split at h
  · obtain ⟨_, -, h⟩ := bind_eq_ok h
    dsimp only at h
    split at h
    · obtain ⟨rf₁, hcommit, h⟩ := bind_eq_ok h
      obtain rfl := Except.ok.inj h
      have hl : Worked Y _ rf₁ := worked_leaderCommit hcommit
      have hw : Worked Y rf rf₁ := Worked.trans
        (hpeers rf.nextIndex (setPeer rf.matchIndex p (args.prevLogIndex + args.entries.length)))
        rfl hl
      exact ⟨hw.vote, hw.snapshot, hw.applied, hw.commit⟩
    · obtain rfl := Except.ok.inj h
      exact hpeers _ _
  split at h
  · next ht =>
    obtain rfl := Except.ok.inj h
    exact worked_stepDown ht
  · obtain ⟨_, -, h⟩ := bind_eq_ok h
    obtain ⟨_, -, h⟩ := bind_eq_ok h
    obtain rfl := Except.ok.inj h
    exact hpeers _ _

lemma worked_sendInstallSnapshot {p : Fin n} {args : InstallSnapshotArgs n}
    {reply : InstallSnapshotReply}
    (h : RaftReplication.sendInstallSnapshot rf p args reply = .ok rf') : Worked Y rf rf' := by
  unfold RaftReplication.sendInstallSnapshot at h
  split at h
  · obtain rfl := Except.ok.inj h
    exact Worked.refl
  split at h
  · next ht =>
    obtain rfl := Except.ok.inj h
    exact worked_stepDown ht
  · obtain ⟨_, -, h⟩ := bind_eq_ok h
    split at h
    · obtain rfl := Except.ok.inj h
      exact worked_of_eq rfl rfl le_rfl rfl le_rfl
    · obtain rfl := Except.ok.inj h
      exact Worked.refl

end Code

/-! ### Actions -/

def hearing (c : Cluster n C) : Action n C → Option (Fin n × ℕ)
  | .appendEntries k => c.appendCalls[k]?.map fun call => (call.dst, call.args.term)
  | .crashAppendEntries k => c.appendCalls[k]?.map fun call => (call.dst, call.args.term)
  | .installSnapshot k => c.snapshotCalls[k]?.map fun call => (call.dst, call.args.term)
  | .crashInstallSnapshot k => c.snapshotCalls[k]?.map fun call => (call.dst, call.args.term)
  | _ => none

/-- The action does not have a candidate hear from the leader of its own term. -/
def NoYield (c : Cluster n C) (act : Action n C) : Prop :=
  ∀ p ∈ hearing c act, ¬ ((c.servers p.1).raft.role = .candidate ∧
    p.2 = (c.servers p.1).raft.currentTerm)

/-- What an action makes of one server, and what is delivered. -/
inductive Moved [Inhabited C] (c : Cluster n C) (act : Action n C) :
    Fin n → Server n C → List (Delivery n C) → Prop
  | worked {s : Fin n} {rf : Raft n C} {elections : ℕ → Option Election}
      (h : Worked (¬ NoYield c act) (c.servers s).raft rf) :
      Moved c act s { c.servers s with raft := rf, elections } []
  | choose {s : Fin n} {applier : Applier C} (h : (c.servers s).applier = .waiting) :
      Moved c act s { c.servers s with applier } []
  | deliver {s : Fin n} {msg : ApplyMsg C} {service : List C}
      (h : (c.servers s).applier = .sending msg) :
      Moved c act s { c.servers s with applier := .sent msg, service }
        [⟨s, (c.servers s).epoch, msg⟩]
  | record {s : Fin n} {msg : ApplyMsg C} (h : (c.servers s).applier = .sent msg) :
      Moved c act s { c.servers s with
        raft := recordApplied (c.servers s).raft msg, applier := .waiting } []
  /-- The server restarts from what it had saved, perhaps inside a handler. -/
  | restart {s : Fin n} {rf : Raft n C} (h : Worked (¬ NoYield c act) (c.servers s).raft rf) :
      Moved c act s (.boot (restored rf) ((c.servers s).epoch + 1)) []

def MovesTo [Inhabited C] (c : Cluster n C) (act : Action n C) (c' : Cluster n C) : Prop :=
  ∃ s sv ds, Moved c act s sv ds ∧ c'.servers = update c.servers s sv ∧
    c'.delivered = ds ++ c.delivered

section Moves

variable [Inhabited C] {c c' : Cluster n C} {act : Action n C} {s : Fin n} {rf : Raft n C}

lemma movesTo_worked {elections : ℕ → Option Election}
    (h : Worked (¬ NoYield c act) (c.servers s).raft rf)
    (hs : c'.servers = update c.servers s { c.servers s with raft := rf, elections })
    (hd : c'.delivered = c.delivered) : MovesTo c act c' :=
  ⟨s, _, [], .worked h, hs, hd⟩

lemma movesTo_of_eq (s : Fin n) (hs : c'.servers = c.servers) (hd : c'.delivered = c.delivered) :
    MovesTo c act c' :=
  movesTo_worked (s := s) Worked.refl (by rw [hs]; exact (update_eq_self s c.servers).symm) hd

end Moves

variable [Coded (Persisted n C)] [Inhabited C] [Coded (List C)]
variable {K : Prop} {c c' : Cluster n C} {a : Abs n C} {act : Action n C}

lemma movesTo_restart {s : Fin n} {rf : Raft n C} (hb : Sim K (c.setRaft s rf) a)
    (h : Worked (¬ NoYield c act) (c.servers s).raft rf)
    (hs : c.restart s rf.persister = .ok c') : MovesTo c act c' := by
  have hm := (hb.server s).mirror
  have hd := (hb.server s).durable
  rw [servers_setRaft, raft_setRaft] at hm hd
  have hmake := hd.make hm.index0
  rw [hm.me] at hmake
  simp only [Cluster.restart, hmake, bind, Except.bind, pure, Except.pure, Except.ok.injEq] at hs
  subst hs
  exact ⟨s, _, [], .restart h, rfl, rfl⟩

omit [Coded (List C)] in
lemma movesTo_turn {k : ℕ} {call : Call n (RequestVoteArgs n) RequestVoteReply}
    {reply : Option RequestVoteReply} (hs : c.turn k call reply = some c') :
    MovesTo c act c' := by
  simp only [Cluster.turn] at hs
  split at hs
  · simp at hs
  split at hs
  · obtain rfl := Option.some.inj hs
    exact movesTo_worked (worked_countVote _ _ _) rfl rfl
  · simp at hs

/-! ### One lemma for each action -/

lemma movesTo_start {s : Fin n} {cmd : C} (hs : step c (.start s cmd) = some (.ok c')) :
    MovesTo c (.start s cmd) c' := by
  simp only [step] at hs
  split at hs
  · obtain rfl := Except.ok.inj (Option.some.inj hs)
    exact movesTo_worked (worked_start _ _) rfl rfl
  · obtain rfl := Except.ok.inj (Option.some.inj hs)
    exact movesTo_of_eq s rfl rfl

lemma movesTo_snapshot {s : Fin n} {index : ℕ}
    (hs : step c (.snapshot s index) = some (.ok c')) : MovesTo c (.snapshot s index) c' := by
  simp only [step] at hs
  split at hs
  · obtain ⟨rf, hrf, hc⟩ := bind_eq_ok (Option.some.inj hs)
    obtain rfl := Except.ok.inj hc
    exact movesTo_worked (worked_snapshot hrf) rfl rfl
  · simp at hs

lemma movesTo_leaderElection {s : Fin n} (hs : step c (.leaderElection s) = some (.ok c')) :
    MovesTo c (.leaderElection s) c' := by
  obtain ⟨⟨rf, args⟩, hrf, hc⟩ := bind_eq_ok (Option.some.inj hs)
  cases args with
  | none =>
    obtain rfl := Except.ok.inj hc
    exact movesTo_worked (worked_leaderElection hrf) rfl rfl
  | some args =>
    obtain rfl := Except.ok.inj hc
    exact movesTo_worked (worked_leaderElection hrf) rfl rfl

lemma movesTo_requestVote {k : ℕ} (hs : step c (.requestVote k) = some (.ok c')) :
    MovesTo c (.requestVote k) c' := by
  simp only [step] at hs
  split at hs
  · simp at hs
  split at hs
  · obtain ⟨⟨rf, reply⟩, hrf, hc⟩ := bind_eq_ok (Option.some.inj hs)
    obtain rfl := Except.ok.inj hc
    exact movesTo_worked (worked_requestVote hrf) rfl rfl
  · simp at hs

lemma movesTo_countVote {k : ℕ} (hs : step c (.countVote k) = some (.ok c')) :
    MovesTo c (.countVote k) c' := by
  simp only [step] at hs
  split at hs
  · simp at hs
  split at hs
  · simp at hs
  · obtain ⟨d, hd, hc⟩ := Option.map_eq_some_iff.mp hs
    obtain rfl := Except.ok.inj hc
    exact movesTo_turn hd

lemma movesTo_voteFailed {k : ℕ} (hs : step c (.voteFailed k) = some (.ok c')) :
    MovesTo c (.voteFailed k) c' := by
  simp only [step] at hs
  split at hs
  · simp at hs
  split at hs
  · obtain ⟨d, hd, hc⟩ := Option.map_eq_some_iff.mp hs
    obtain rfl := Except.ok.inj hc
    exact movesTo_turn hd
  · simp at hs

lemma movesTo_finishElection {s : Fin n} {term : ℕ}
    (hs : step c (.finishElection s term) = some (.ok c')) :
    MovesTo c (.finishElection s term) c' := by
  simp only [step] at hs
  split at hs
  · simp at hs
  split at hs
  · simp at hs
  · obtain rfl := Except.ok.inj (Option.some.inj hs)
    exact movesTo_worked (worked_finishElection _ _ _) rfl rfl

lemma movesTo_leaderHeartbeat {s : Fin n} (hs : step c (.leaderHeartbeat s) = some (.ok c')) :
    MovesTo c (.leaderHeartbeat s) c' := by
  simp only [step] at hs
  split at hs
  · obtain ⟨ms, -, hc⟩ := bind_eq_ok (Option.some.inj hs)
    obtain rfl := Except.ok.inj hc
    exact movesTo_of_eq s rfl rfl
  · simp at hs

lemma movesTo_appendEntries {k : ℕ} (hs : step c (.appendEntries k) = some (.ok c')) :
    MovesTo c (.appendEntries k) c' := by
  simp only [step] at hs
  split at hs
  · simp at hs
  split at hs
  · next call hcall _ =>
    obtain ⟨⟨rf, reply⟩, hrf, hc⟩ := bind_eq_ok (Option.some.inj hs)
    obtain rfl := Except.ok.inj hc
    have hw := worked_appendEntries hrf fun h1 h2 (hno : NoYield c (.appendEntries k)) =>
      hno _ (Option.mem_map_of_mem _ hcall) ⟨h1, h2⟩
    exact movesTo_worked hw rfl rfl
  · simp at hs

lemma movesTo_sendAppendEntries {k : ℕ} (hs : step c (.sendAppendEntries k) = some (.ok c')) :
    MovesTo c (.sendAppendEntries k) c' := by
  simp only [step] at hs
  split at hs
  · simp at hs
  split at hs
  · simp at hs
  · obtain ⟨rf, hrf, hc⟩ := bind_eq_ok (Option.some.inj hs)
    obtain rfl := Except.ok.inj hc
    exact movesTo_worked (worked_sendAppendEntries hrf) rfl rfl

lemma movesTo_installSnapshot {k : ℕ} (hs : step c (.installSnapshot k) = some (.ok c')) :
    MovesTo c (.installSnapshot k) c' := by
  simp only [step] at hs
  split at hs
  · simp at hs
  split at hs
  · next call hcall _ =>
    obtain ⟨⟨rf, reply⟩, hrf, hc⟩ := bind_eq_ok (Option.some.inj hs)
    obtain rfl := Except.ok.inj hc
    have hw := worked_installSnapshot hrf fun h1 h2 (hno : NoYield c (.installSnapshot k)) =>
      hno _ (Option.mem_map_of_mem _ hcall) ⟨h1, h2⟩
    exact movesTo_worked hw rfl rfl
  · simp at hs

lemma movesTo_sendInstallSnapshot {k : ℕ}
    (hs : step c (.sendInstallSnapshot k) = some (.ok c')) :
    MovesTo c (.sendInstallSnapshot k) c' := by
  simp only [step] at hs
  split at hs
  · simp at hs
  split at hs
  · simp at hs
  · obtain ⟨rf, hrf, hc⟩ := bind_eq_ok (Option.some.inj hs)
    obtain rfl := Except.ok.inj hc
    exact movesTo_worked (worked_sendInstallSnapshot hrf) rfl rfl

lemma movesTo_choose {s : Fin n} (hs : step c (.choose s) = some (.ok c')) :
    MovesTo c (.choose s) c' := by
  simp only [step] at hs
  split at hs
  · next hw =>
    obtain ⟨msg, -, hc⟩ := bind_eq_ok (Option.some.inj hs)
    cases msg with
    | none =>
      obtain rfl := Except.ok.inj hc
      exact movesTo_of_eq s rfl rfl
    | some msg =>
      obtain rfl := Except.ok.inj hc
      exact ⟨s, _, [], .choose hw, rfl, rfl⟩
  · simp at hs

lemma movesTo_deliver {s : Fin n} (hs : step c (.deliver s) = some (.ok c')) :
    MovesTo c (.deliver s) c' := by
  simp only [step] at hs
  split at hs
  · next msg hw =>
    obtain ⟨service, -, hc⟩ := bind_eq_ok (Option.some.inj hs)
    obtain rfl := Except.ok.inj hc
    exact ⟨s, _, _, .deliver hw, rfl, rfl⟩
  · simp at hs

lemma movesTo_record {s : Fin n} (hs : step c (.record s) = some (.ok c')) :
    MovesTo c (.record s) c' := by
  simp only [step] at hs
  split at hs
  · next msg hw =>
    obtain rfl := Except.ok.inj (Option.some.inj hs)
    exact ⟨s, _, [], .record hw, rfl, rfl⟩
  · simp at hs

lemma movesTo_crash (h : Sim K c a) {s : Fin n} (hs : step c (.crash s) = some (.ok c')) :
    MovesTo c (.crash s) c' := by
  have hself : Sim K (c.setRaft s (c.servers s).raft) a := by rwa [setRaft_self]
  exact movesTo_restart hself Worked.refl (Option.some.inj hs)

lemma movesTo_crashRequestVote (h : Sim K c a) {k : ℕ}
    (hs : step c (.crashRequestVote k) = some (.ok c')) :
    MovesTo c (.crashRequestVote k) c' := by
  simp only [step] at hs
  split at hs
  · simp at hs
  split at hs
  · next call hcall hg =>
    obtain ⟨b, -, hb, -⟩ := h.adoptTerm (j := call.dst) hg.2
    exact movesTo_restart hb (worked_adoptTerm _ _) (Option.some.inj hs)
  · simp at hs

lemma movesTo_heard (h : Sim K c a) {s L : Fin n} {t : ℕ} (l : Fin n) (hL : a.lead t = some L)
    (hp : (s, t) ∈ hearing c act) (ht : (c.servers s).raft.currentTerm ≤ t)
    (hs : c.restart s (heardFrom (c.servers s).raft t l).persister = .ok c') :
    MovesTo c act c' := by
  obtain ⟨b, -, hb, -⟩ := h.heardFrom (j := s) hL l ht
  exact movesTo_restart hb (worked_heardFrom l ht fun h1 h2 hno => hno _ hp ⟨h1, h2⟩) hs

lemma movesTo_crashAppendEntries (h : Sim K c a) {k : ℕ}
    (hs : step c (.crashAppendEntries k) = some (.ok c')) :
    MovesTo c (.crashAppendEntries k) c' := by
  simp only [step] at hs
  split at hs
  · simp at hs
  split at hs
  · next call hcall hg =>
    exact movesTo_heard h _ (h.appends call (List.mem_of_getElem? hcall)).lead
      (Option.mem_map_of_mem _ hcall) hg.2 (Option.some.inj hs)
  · simp at hs

lemma movesTo_crashInstallSnapshot (h : Sim K c a) {k : ℕ}
    (hs : step c (.crashInstallSnapshot k) = some (.ok c')) :
    MovesTo c (.crashInstallSnapshot k) c' := by
  simp only [step] at hs
  split at hs
  · simp at hs
  split at hs
  · next call hcall hg =>
    exact movesTo_heard h _ (h.snapshots call (List.mem_of_getElem? hcall)).lead
      (Option.mem_map_of_mem _ hcall) hg.2 (Option.some.inj hs)
  · simp at hs

/-- **What an action does**: one server changes, and at most one message is delivered. -/
theorem step_movesTo (h : Sim K c a) (hs : step c act = some (.ok c')) : MovesTo c act c' := by
  cases act with
  | start s cmd => exact movesTo_start hs
  | snapshot s index => exact movesTo_snapshot hs
  | leaderElection s => exact movesTo_leaderElection hs
  | requestVote k => exact movesTo_requestVote hs
  | countVote k => exact movesTo_countVote hs
  | voteFailed k => exact movesTo_voteFailed hs
  | finishElection s term => exact movesTo_finishElection hs
  | leaderHeartbeat s => exact movesTo_leaderHeartbeat hs
  | appendEntries k => exact movesTo_appendEntries hs
  | sendAppendEntries k => exact movesTo_sendAppendEntries hs
  | installSnapshot k => exact movesTo_installSnapshot hs
  | sendInstallSnapshot k => exact movesTo_sendInstallSnapshot hs
  | choose s => exact movesTo_choose hs
  | deliver s => exact movesTo_deliver hs
  | record s => exact movesTo_record hs
  | crash s => exact movesTo_crash h hs
  | crashRequestVote k => exact movesTo_crashRequestVote h hs
  | crashAppendEntries k => exact movesTo_crashAppendEntries h hs
  | crashInstallSnapshot k => exact movesTo_crashInstallSnapshot h hs

omit [Coded (Persisted n C)] [Coded (List C)] in
lemma MovesTo.server (h : MovesTo c act c') (s : Fin n) :
    c'.servers s = c.servers s ∨ ∃ ds, Moved c act s (c'.servers s) ds := by
  obtain ⟨i, sv, ds, hm, hs, -⟩ := h
  rw [hs]
  by_cases his : s = i
  · subst his
    exact Or.inr ⟨ds, by rwa [update_self]⟩
  · exact Or.inl (update_of_ne his _ _)

end Mit6824.RaftSteps
