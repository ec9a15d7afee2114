import Mit6824.RaftCluster

/-!
Raft does not look into snapshots.

`view f c` is a cluster with every snapshot replaced by its image, and without the services and
the records. The actions that do not concern the services do to the image what they do to the
cluster.
-/

namespace Mit6824.RaftViews

open Mit6824.Labgob Mit6824.RaftLog Mit6824.RaftState Mit6824.RaftElection
open Mit6824.RaftReplication Mit6824.RaftApplier Mit6824.RaftCluster Function

variable {n : ℕ} {C : Type} (f : Bytes → Bytes)

/-! ### Servers -/

def mapPersister (p : Persister) : Persister := { p with snapshot := f p.snapshot }

def mapRaft (rf : Raft n C) : Raft n C :=
  { rf with persister := mapPersister f rf.persister, snapshot := f rf.snapshot }

def mapMsg : ApplyMsg C → ApplyMsg C
  | .command command index => .command command index
  | .snapshot data term index => .snapshot (f data) term index

def mapApplier : Applier C → Applier C
  | .waiting => .waiting
  | .sending msg => .sending (mapMsg f msg)
  | .sent msg => .sent (mapMsg f msg)

def mapArgs (args : InstallSnapshotArgs n) : InstallSnapshotArgs n :=
  { args with data := f args.data }

def mapSend : Send n C → Send n C
  | .appendEntries args => .appendEntries args
  | .installSnapshot args => .installSnapshot (mapArgs f args)

section Except

variable {α β γ : Type}

lemma map_bind (g : β → γ) (x : Except Panic α) (h : α → Except Panic β) :
    (x >>= h).map g = x >>= fun a => (h a).map g := by
  cases x <;> rfl

lemma map_pure (g : α → β) (a : α) : (pure a : Except Panic α).map g = pure (g a) := rfl

lemma bind_map (g : α → β) (x : Except Panic α) (h : β → Except Panic γ) :
    x.map g >>= h = x >>= fun a => h (g a) := by
  cases x <;> rfl

lemma bind_eq_map {δ : Type} {x : Except Panic α} {x' : Except Panic β} {φ : α → β}
    {h : α → Except Panic γ} {h' : β → Except Panic δ} {g : γ → δ} (hx : x' = x.map φ)
    (hh : ∀ a, h' (φ a) = (h a).map g) : x' >>= h' = (x >>= h).map g := by
  rw [hx, bind_map, map_bind]
  exact congrArg _ (funext hh)

lemma map_mapM (g : β → γ) (h : α → Except Panic β) (h' : α → Except Panic γ)
    (hh : ∀ a, h' a = (h a).map g) (l : List α) :
    l.mapM h' = (l.mapM h).map (List.map g) := by
  induction l with
  | nil => rfl
  | cons a l ih =>
    simp only [List.mapM_cons, ih, hh]
    cases h a with
    | error p => rfl
    | ok b => cases l.mapM h <;> rfl

end Except

section Handlers

variable [Coded (Persisted n C)] (rf : Raft n C)

lemma start_map (command : C) :
    RaftState.start (mapRaft f rf) command =
      (mapRaft f (RaftState.start rf command).1, (RaftState.start rf command).2) := by
  unfold RaftState.start
  split
  · next h =>
    rewrite [if_pos (show rf.role = .leader from h)]
    rfl
  · next h =>
    rewrite [if_neg (show ¬ rf.role = .leader from h)]
    rfl

lemma adoptTerm_map (term : ℕ) : adoptTerm (mapRaft f rf) term = mapRaft f (adoptTerm rf term) := by
  unfold adoptTerm
  rewrite [apply_ite (mapRaft f)]
  rfl

lemma heardFrom_map (term : ℕ) (l : Fin n) :
    heardFrom (mapRaft f rf) term l = mapRaft f (heardFrom rf term l) := by
  unfold heardFrom
  dsimp only
  rewrite [apply_ite (mapRaft f)]
  rfl

lemma requestVote_map (args : RequestVoteArgs n) :
    RaftElection.requestVote (mapRaft f rf) args =
      (RaftElection.requestVote rf args).map (Prod.map (mapRaft f) id) := by
  unfold RaftElection.requestVote
  simp only [adoptTerm_map]
  simp only [apply_ite (Except.map _), map_bind, map_pure]
  rfl

lemma leaderElection_map :
    RaftElection.leaderElection (mapRaft f rf) =
      (RaftElection.leaderElection rf).map (Prod.map (mapRaft f) id) := by
  have hrole : (mapRaft f rf).role = rf.role := rfl
  unfold RaftElection.leaderElection
  rcases h : rf.role with _ | _ | _
  · simp only [hrole, h, reduceCtorEq, if_false]
    rfl
  all_goals
    simp only [hrole, h, reduceCtorEq, if_true, if_false, map_bind, map_pure]
    rfl

lemma countVote_map (e : Election) (reply : Option RequestVoteReply) :
    RaftElection.countVote (mapRaft f rf) e reply =
      Prod.map (mapRaft f) id (RaftElection.countVote rf e reply) := by
  cases reply with
  | none => rfl
  | some reply =>
    unfold RaftElection.countVote
    dsimp only
    rewrite [apply_ite (Prod.map (mapRaft f) id), apply_ite (Prod.map (mapRaft f) id)]
    rfl

omit [Coded (Persisted n C)] in
lemma finishElection_map (term : ℕ) (e : Election) :
    RaftElection.finishElection (mapRaft f rf) term e =
      mapRaft f (RaftElection.finishElection rf term e) := by
  unfold RaftElection.finishElection
  rewrite [apply_ite (mapRaft f)]
  rfl

omit [Coded (Persisted n C)] in
lemma followerCommit_map (leaderCommitIndex : ℕ) :
    followerCommit (mapRaft f rf) leaderCommitIndex =
      mapRaft f (followerCommit rf leaderCommitIndex) := by
  unfold followerCommit
  rewrite [apply_ite (mapRaft f)]
  rfl

lemma placeEntries_map (args : AppendEntriesArgs n C) (reply : AppendEntriesReply) :
    placeEntries (mapRaft f rf) args reply =
      (placeEntries rf args reply).map (Prod.map (mapRaft f) id) := by
  have hsnap : (mapRaft f rf).snapshotIndex = rf.snapshotIndex := rfl
  have hplace : ∀ log,
      followerCommit (persistSate { mapRaft f rf with log }) args.leaderCommitIndex =
        mapRaft f (followerCommit (persistSate { rf with log }) args.leaderCommitIndex) :=
    fun log => followerCommit_map f (persistSate { rf with log }) _
  unfold placeEntries
  simp only [hplace]
  simp only [hsnap]
  cases args.entries[rf.snapshotIndex - args.prevLogIndex - 1]? <;>
    simp only [apply_ite (Except.map _), map_bind, map_pure] <;> rfl

lemma appendEntries_map (args : AppendEntriesArgs n C) :
    RaftReplication.appendEntries (mapRaft f rf) args =
      (RaftReplication.appendEntries rf args).map (Prod.map (mapRaft f) id) := by
  unfold RaftReplication.appendEntries
  simp only [heardFrom_map, placeEntries_map, apply_ite (Except.map _)]
  rfl

lemma replaceLog_map [Inhabited C] (args : InstallSnapshotArgs n) :
    replaceLog (mapRaft f rf) (mapArgs f args) = (replaceLog rf args).map (mapRaft f) := by
  unfold replaceLog
  simp only [apply_ite (Except.map _), map_bind, map_pure]
  rfl

lemma installSnapshot_map [Inhabited C] (args : InstallSnapshotArgs n) :
    RaftReplication.installSnapshot (mapRaft f rf) (mapArgs f args) =
      (RaftReplication.installSnapshot rf args).map (Prod.map (mapRaft f) id) := by
  unfold RaftReplication.installSnapshot
  have hheard : heardFrom (mapRaft f rf) (mapArgs f args).term (mapArgs f args).leaderId =
      mapRaft f (heardFrom rf args.term args.leaderId) := heardFrom_map f rf _ _
  simp only [hheard, replaceLog_map, apply_ite (Except.map _), map_bind, map_pure]
  cases replaceLog (heardFrom rf args.term args.leaderId) args <;> rfl

lemma snapshot_map (index : ℕ) (data : Bytes) :
    RaftReplication.snapshot (mapRaft f rf) index (f data) =
      (RaftReplication.snapshot rf index data).map (mapRaft f) := by
  unfold RaftReplication.snapshot
  simp only [apply_ite (Except.map _), map_bind, map_pure]
  rfl

omit [Coded (Persisted n C)] in
lemma leaderCommit_map : leaderCommit (mapRaft f rf) = (leaderCommit rf).map (mapRaft f) := by
  unfold leaderCommit
  rw [map_bind]
  refine congrArg _ (funext fun sorted => ?_)
  cases sorted[(n + 1) / 2 - 1]? with
  | none => rfl
  | some i =>
    cases sorted[0]? with
    | none => rfl
    | some least =>
      simp only [apply_ite (Except.map _), map_bind, map_pure]
      rfl

omit [Coded (Persisted n C)] in
lemma replicate_map (p : Fin n) :
    replicate (mapRaft f rf) p = (replicate rf p).map (mapSend f) := by
  unfold replicate
  simp only [apply_ite (Except.map _), map_bind, map_pure]
  rfl

omit [Coded (Persisted n C)] in
lemma leaderLogReplication_map :
    leaderLogReplication (mapRaft f rf) =
      (leaderLogReplication rf).map (List.map (Prod.map id (mapSend f))) := by
  unfold leaderLogReplication
  refine map_mapM _ _ _ (fun p => ?_) _
  rewrite [replicate_map, map_bind, bind_map]
  rfl

lemma sendAppendEntries_map (p : Fin n) (args : AppendEntriesArgs n C)
    (reply : AppendEntriesReply) :
    RaftReplication.sendAppendEntries (mapRaft f rf) p args reply =
      (RaftReplication.sendAppendEntries rf p args reply).map (mapRaft f) := by
  have hcommit : ∀ matchIndex, leaderCommit { mapRaft f rf with matchIndex } =
      (leaderCommit { rf with matchIndex }).map (mapRaft f) :=
    fun matchIndex => leaderCommit_map f { rf with matchIndex }
  unfold RaftReplication.sendAppendEntries
  simp only [hcommit, bind_map, apply_ite (Except.map _), map_bind, map_pure]
  rfl

lemma sendInstallSnapshot_map (p : Fin n) (args : InstallSnapshotArgs n)
    (reply : InstallSnapshotReply) :
    RaftReplication.sendInstallSnapshot (mapRaft f rf) p (mapArgs f args) reply =
      (RaftReplication.sendInstallSnapshot rf p args reply).map (mapRaft f) := by
  unfold RaftReplication.sendInstallSnapshot
  simp only [apply_ite (Except.map _), map_bind, map_pure]
  rfl

omit [Coded (Persisted n C)] in
lemma nextMsg_map : nextMsg (mapRaft f rf) = (nextMsg rf).map (Option.map (mapMsg f)) := by
  unfold nextMsg
  simp only [apply_ite (Except.map _), map_bind, map_pure]
  rfl

omit [Coded (Persisted n C)] in
lemma recordApplied_map (msg : ApplyMsg C) :
    recordApplied (mapRaft f rf) (mapMsg f msg) = mapRaft f (recordApplied rf msg) := by
  cases msg <;>
    simp only [recordApplied, mapMsg, apply_ite (mapRaft f)] <;> rfl

lemma make_map [Inhabited C] (me : Fin n) (p : Persister) :
    (make me (mapPersister f p) : Except Panic (Raft n C)) = (make me p).map (mapRaft f) := by
  have hstate : (mapPersister f p).raftstate = p.raftstate := rfl
  unfold make readPersist
  rw [map_bind, hstate]
  by_cases h : p.raftstate.length < 1
  · rewrite [if_pos h, if_pos h]
    rfl
  · rw [if_neg h, if_neg h]
    cases (decode p.raftstate : Option (Persisted n C)) <;> rfl

end Handlers

/-! ### Clusters -/

def mapCall (call : Call n (InstallSnapshotArgs n) InstallSnapshotReply) :
    Call n (InstallSnapshotArgs n) InstallSnapshotReply :=
  { call with args := mapArgs f call.args }

def viewServer (sv : Server n C) : Server n C :=
  { sv with
    raft := mapRaft f sv.raft
    applier := mapApplier f sv.applier
    service := [] }

def view (c : Cluster n C) : Cluster n C where
  servers := fun s => viewServer f (c.servers s)
  voteCalls := c.voteCalls
  appendCalls := c.appendCalls
  snapshotCalls := c.snapshotCalls.map (mapCall f)
  delivered := []
  taken := []
  started := []

/-- The action does not concern the service of a server. -/
def Inner : Action n C → Prop
  | .start _ _ | .snapshot _ _ | .deliver _ => False
  | _ => True

variable (c : Cluster n C)

lemma view_setServer (s : Fin n) (sv : Server n C) :
    view f (c.setServer s sv) = (view f c).setServer s (viewServer f sv) := by
  unfold view Cluster.setServer
  congr 1
  funext i
  exact apply_update (fun _ => viewServer f) c.servers s sv i

lemma view_setRaft (s : Fin n) (rf : Raft n C) :
    view f (c.setRaft s rf) = (view f c).setRaft s (mapRaft f rf) := view_setServer f c s _

lemma view_voteCalls (calls : List (Call n (RequestVoteArgs n) RequestVoteReply)) :
    view f { c with voteCalls := calls } = { view f c with voteCalls := calls } := rfl

lemma view_appendCalls (calls : List (Call n (AppendEntriesArgs n C) AppendEntriesReply)) :
    view f { c with appendCalls := calls } = { view f c with appendCalls := calls } := rfl

lemma view_snapshotCalls (calls : List (Call n (InstallSnapshotArgs n) InstallSnapshotReply)) :
    view f { c with snapshotCalls := calls } =
      { view f c with snapshotCalls := calls.map (mapCall f) } := rfl

lemma replyOf_view {A R : Type} (call : Call n A R) : (view f c).replyOf call = c.replyOf call :=
  rfl

lemma replyOf_mapCall (call : Call n (InstallSnapshotArgs n) InstallSnapshotReply) :
    (view f c).replyOf (mapCall f call) = c.replyOf call := rfl

lemma send_view (s : Fin n) (ms : List (Fin n × Send n C)) :
    view f (c.send s ms) = (view f c).send s (ms.map (Prod.map id (mapSend f))) := by
  unfold view Cluster.send
  dsimp only
  rw [List.map_append, List.map_filterMap, List.filterMap_map, List.filterMap_map]
  congr 2
  all_goals
    refine List.filterMap_congr fun pm _ => ?_
    obtain ⟨p, m | m⟩ := pm <;> rfl

variable [Coded (Persisted n C)]

lemma restart_view [Inhabited C] (s : Fin n) (p : Persister) :
    (view f c).restart s (mapPersister f p) = (c.restart s p).map (view f) := by
  unfold Cluster.restart
  rw [make_map, bind_map, map_bind]
  refine congrArg _ (funext fun rf => ?_)
  rewrite [map_pure, view_setServer]
  rfl

lemma turn_view (k : ℕ) (call : Call n (RequestVoteArgs n) RequestVoteReply)
    (reply : Option RequestVoteReply) :
    (view f c).turn k call reply = (c.turn k call reply).map (view f) := by
  have hsv : ((view f c).servers call.src).elections = (c.servers call.src).elections := rfl
  unfold Cluster.turn
  dsimp only
  rw [hsv]
  cases (c.servers call.src).elections call.args.term with
  | none => rfl
  | some e =>
    by_cases hc : e.counting n
    · simp only [if_pos hc, Option.map_some]
      have hcount : RaftElection.countVote ((view f c).servers call.src).raft e reply =
          Prod.map (mapRaft f) id (RaftElection.countVote (c.servers call.src).raft e reply) :=
        countVote_map f _ e reply
      rw [hcount]
      refine congrArg some (Eq.symm ?_)
      rewrite [view_voteCalls, view_setServer]
      rfl
    · simp only [if_neg hc]
      rfl

variable [Inhabited C] [Coded (List C)]

/-! ### Elections -/

lemma leaderElection_view (s : Fin n) : step (view f c) (.leaderElection s) =
    (step c (.leaderElection s)).map (Except.map (view f)) := by
  refine congrArg some (bind_eq_map (leaderElection_map f (c.servers s).raft) ?_)
  rintro ⟨rf, _ | args⟩
  · exact congrArg Except.ok (view_setRaft f c s rf).symm
  · refine congrArg Except.ok (Eq.symm ?_)
    rewrite [view_voteCalls, view_setServer]
    rfl

lemma requestVote_view (k : ℕ) : step (view f c) (.requestVote k) =
    (step c (.requestVote k)).map (Except.map (view f)) := by
  have hcalls : (view f c).voteCalls = c.voteCalls := rfl
  simp only [step, hcalls]
  cases c.voteCalls[k]? with
  | none => rfl
  | some call =>
    simp only [apply_ite (Option.map _), Option.map_some, Option.map_none]
    refine if_congr Iff.rfl (congrArg some ?_) rfl
    refine bind_eq_map (requestVote_map f (c.servers call.dst).raft call.args) ?_
    rintro ⟨rf, reply⟩
    refine congrArg Except.ok (Eq.symm ?_)
    rewrite [view_voteCalls, view_setRaft]
    rfl

lemma countVote_view (k : ℕ) : step (view f c) (.countVote k) =
    (step c (.countVote k)).map (Except.map (view f)) := by
  have hcalls : (view f c).voteCalls = c.voteCalls := rfl
  simp only [step, hcalls]
  cases c.voteCalls[k]? with
  | none => rfl
  | some call =>
    simp only [replyOf_view]
    cases c.replyOf call with
    | none => rfl
    | some reply =>
      simp only [turn_view, Option.map_map]
      rfl

lemma voteFailed_view (k : ℕ) : step (view f c) (.voteFailed k) =
    (step c (.voteFailed k)).map (Except.map (view f)) := by
  have hcalls : (view f c).voteCalls = c.voteCalls := rfl
  simp only [step, hcalls]
  cases c.voteCalls[k]? with
  | none => rfl
  | some call =>
    simp only [apply_ite (Option.map _), Option.map_none, turn_view, Option.map_map]
    rfl

lemma finishElection_view (s : Fin n) (term : ℕ) : step (view f c) (.finishElection s term) =
    (step c (.finishElection s term)).map (Except.map (view f)) := by
  have hel : ((view f c).servers s).elections = (c.servers s).elections := rfl
  simp only [step, hel]
  cases (c.servers s).elections term with
  | none => rfl
  | some e =>
    simp only [apply_ite (Option.map _), Option.map_none, Option.map_some]
    refine if_congr Iff.rfl rfl (congrArg (fun x => some (Except.ok x)) ?_)
    have hfin : RaftElection.finishElection ((view f c).servers s).raft term e =
        mapRaft f (RaftElection.finishElection (c.servers s).raft term e) :=
      finishElection_map f _ term e
    rewrite [view_setServer, hfin]
    rfl

/-! ### Replication -/

lemma leaderHeartbeat_view (s : Fin n) : step (view f c) (.leaderHeartbeat s) =
    (step c (.leaderHeartbeat s)).map (Except.map (view f)) := by
  simp only [step, apply_ite (Option.map _), Option.map_none, Option.map_some]
  refine if_congr Iff.rfl (congrArg some ?_) rfl
  refine bind_eq_map (leaderLogReplication_map f (c.servers s).raft) fun ms => ?_
  exact congrArg Except.ok (send_view f c s ms).symm

lemma appendEntries_view (k : ℕ) : step (view f c) (.appendEntries k) =
    (step c (.appendEntries k)).map (Except.map (view f)) := by
  have hcalls : (view f c).appendCalls = c.appendCalls := rfl
  simp only [step, hcalls]
  cases c.appendCalls[k]? with
  | none => rfl
  | some call =>
    simp only [apply_ite (Option.map _), Option.map_some, Option.map_none]
    refine if_congr Iff.rfl (congrArg some ?_) rfl
    refine bind_eq_map (appendEntries_map f (c.servers call.dst).raft call.args) ?_
    rintro ⟨rf, reply⟩
    refine congrArg Except.ok (Eq.symm ?_)
    rewrite [view_appendCalls, view_setRaft]
    rfl

lemma sendAppendEntries_view (k : ℕ) : step (view f c) (.sendAppendEntries k) =
    (step c (.sendAppendEntries k)).map (Except.map (view f)) := by
  have hcalls : (view f c).appendCalls = c.appendCalls := rfl
  simp only [step, hcalls]
  cases c.appendCalls[k]? with
  | none => rfl
  | some call =>
    simp only [replyOf_view]
    cases c.replyOf call with
    | none => rfl
    | some reply =>
      refine congrArg some (bind_eq_map
        (sendAppendEntries_map f (c.servers call.src).raft call.dst call.args reply) fun rf => ?_)
      refine congrArg Except.ok (Eq.symm ?_)
      rewrite [view_appendCalls, view_setRaft]
      rfl

lemma installSnapshot_view (k : ℕ) : step (view f c) (.installSnapshot k) =
    (step c (.installSnapshot k)).map (Except.map (view f)) := by
  have hcalls : (view f c).snapshotCalls[k]? = c.snapshotCalls[k]?.map (mapCall f) :=
    List.getElem?_map ..
  simp only [step, hcalls]
  cases c.snapshotCalls[k]? with
  | none => rfl
  | some call =>
    simp only [apply_ite (Option.map _), Option.map_some, Option.map_none]
    refine if_congr Iff.rfl (congrArg some ?_) rfl
    refine bind_eq_map (installSnapshot_map f (c.servers call.dst).raft call.args) ?_
    rintro ⟨rf, reply⟩
    refine congrArg Except.ok (Eq.symm ?_)
    rewrite [view_snapshotCalls, view_setRaft, List.map_set]
    rfl

lemma sendInstallSnapshot_view (k : ℕ) : step (view f c) (.sendInstallSnapshot k) =
    (step c (.sendInstallSnapshot k)).map (Except.map (view f)) := by
  have hcalls : (view f c).snapshotCalls[k]? = c.snapshotCalls[k]?.map (mapCall f) :=
    List.getElem?_map ..
  simp only [step, hcalls]
  cases c.snapshotCalls[k]? with
  | none => rfl
  | some call =>
    simp only [Option.map_some, replyOf_mapCall]
    cases c.replyOf call with
    | none => rfl
    | some reply =>
      refine congrArg some (bind_eq_map
        (sendInstallSnapshot_map f (c.servers call.src).raft call.dst call.args reply)
        fun rf => ?_)
      refine congrArg Except.ok (Eq.symm ?_)
      rewrite [view_snapshotCalls, view_setRaft, List.map_set]
      rfl

/-! ### The applier -/

lemma choose_view (s : Fin n) : step (view f c) (.choose s) =
    (step c (.choose s)).map (Except.map (view f)) := by
  have happ : ((view f c).servers s).applier = mapApplier f (c.servers s).applier := rfl
  simp only [step, happ]
  cases (c.servers s).applier with
  | waiting =>
    refine congrArg some (bind_eq_map (nextMsg_map f (c.servers s).raft) fun msg => ?_)
    cases msg with
    | none => rfl
    | some msg =>
      refine congrArg Except.ok (Eq.symm ?_)
      rewrite [view_setServer]
      rfl
  | sending msg => rfl
  | sent msg => rfl

lemma record_view (s : Fin n) : step (view f c) (.record s) =
    (step c (.record s)).map (Except.map (view f)) := by
  have happ : ((view f c).servers s).applier = mapApplier f (c.servers s).applier := rfl
  simp only [step, happ]
  cases (c.servers s).applier with
  | waiting => rfl
  | sending msg => rfl
  | sent msg =>
    have hrec : recordApplied ((view f c).servers s).raft (mapMsg f msg) =
        mapRaft f (recordApplied (c.servers s).raft msg) := recordApplied_map f _ msg
    simp only [mapApplier, hrec, Option.map_some]
    refine congrArg (fun x => some (Except.ok x)) (Eq.symm ?_)
    rewrite [view_setServer]
    rfl

/-! ### Crashes inside a handler -/

lemma crashRequestVote_view (k : ℕ) : step (view f c) (.crashRequestVote k) =
    (step c (.crashRequestVote k)).map (Except.map (view f)) := by
  have hcalls : (view f c).voteCalls = c.voteCalls := rfl
  simp only [step, hcalls]
  cases c.voteCalls[k]? with
  | none => rfl
  | some call =>
    simp only [apply_ite (Option.map _), Option.map_some, Option.map_none]
    refine if_congr Iff.rfl (congrArg some ?_) rfl
    have had : (adoptTerm ((view f c).servers call.dst).raft call.args.term).persister =
        mapPersister f (adoptTerm (c.servers call.dst).raft call.args.term).persister :=
      congrArg Raft.persister (adoptTerm_map f _ _)
    rw [had, restart_view]

lemma crashAppendEntries_view (k : ℕ) : step (view f c) (.crashAppendEntries k) =
    (step c (.crashAppendEntries k)).map (Except.map (view f)) := by
  have hcalls : (view f c).appendCalls = c.appendCalls := rfl
  simp only [step, hcalls]
  cases c.appendCalls[k]? with
  | none => rfl
  | some call =>
    simp only [apply_ite (Option.map _), Option.map_some, Option.map_none]
    refine if_congr Iff.rfl (congrArg some ?_) rfl
    have hheard : (heardFrom ((view f c).servers call.dst).raft call.args.term
        call.args.leaderId).persister = mapPersister f (heardFrom (c.servers call.dst).raft
          call.args.term call.args.leaderId).persister :=
      congrArg Raft.persister (heardFrom_map f _ _ _)
    rw [hheard, restart_view]

lemma crashInstallSnapshot_view (k : ℕ) : step (view f c) (.crashInstallSnapshot k) =
    (step c (.crashInstallSnapshot k)).map (Except.map (view f)) := by
  have hcalls : (view f c).snapshotCalls[k]? = c.snapshotCalls[k]?.map (mapCall f) :=
    List.getElem?_map ..
  simp only [step, hcalls]
  cases c.snapshotCalls[k]? with
  | none => rfl
  | some call =>
    simp only [apply_ite (Option.map _), Option.map_some, Option.map_none]
    refine if_congr Iff.rfl (congrArg some ?_) rfl
    have hheard : (heardFrom ((view f c).servers call.dst).raft call.args.term
        call.args.leaderId).persister = mapPersister f (heardFrom (c.servers call.dst).raft
          call.args.term call.args.leaderId).persister :=
      congrArg Raft.persister (heardFrom_map f _ _ _)
    exact (congrArg _ hheard).trans (restart_view f c call.dst _)

/-- **Raft does not look into snapshots.** -/
theorem step_view {act : Action n C} (h : Inner act) :
    step (view f c) act = (step c act).map (Except.map (view f)) := by
  cases act with
  | start s command => exact h.elim
  | snapshot s index => exact h.elim
  | deliver s => exact h.elim
  | leaderElection s => exact leaderElection_view f c s
  | requestVote k => exact requestVote_view f c k
  | countVote k => exact countVote_view f c k
  | voteFailed k => exact voteFailed_view f c k
  | finishElection s term => exact finishElection_view f c s term
  | leaderHeartbeat s => exact leaderHeartbeat_view f c s
  | appendEntries k => exact appendEntries_view f c k
  | sendAppendEntries k => exact sendAppendEntries_view f c k
  | installSnapshot k => exact installSnapshot_view f c k
  | sendInstallSnapshot k => exact sendInstallSnapshot_view f c k
  | choose s => exact choose_view f c s
  | record s => exact record_view f c s
  | crash s => exact congrArg some (restart_view f c s _)
  | crashRequestVote k => exact crashRequestVote_view f c k
  | crashAppendEntries k => exact crashAppendEntries_view f c k
  | crashInstallSnapshot k => exact crashInstallSnapshot_view f c k

end Mit6824.RaftViews
