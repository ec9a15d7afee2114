import Mit6824.RaftSimApply

/-!
Every run of a cluster is a run of the protocol, and no action of it stops a server.
-/

namespace Mit6824.RaftSim

open Mit6824.Labgob Mit6824.Quorum Mit6824.TermLog Mit6824.Repl
open Mit6824.RaftLog Mit6824.RaftState Mit6824.RaftElection Mit6824.RaftReplication
open Mit6824.RaftApplier Mit6824.RaftCluster Mit6824.Runs Function

variable {n : ℕ} {C : Type} [Coded (Persisted n C)] [Inhabited C] [Coded (List C)]
variable {K : Prop} {c : Cluster n C} {a : Abs n C} {j : Fin n}

lemma sim_init (K : Prop) : Sim K (Cluster.init : Cluster n C) State.init := by
  have hret : Retains (makeLog 1 0 : Log C) [] :=
    ⟨le_rfl, ⟨0, default⟩, rfl, rfl⟩
  refine ⟨inv_init, fun i => ?_, by simp [Cluster.init], by simp [Cluster.init],
    by simp [Cluster.init, Server.boot], by simp [Cluster.init], by simp [Cluster.init],
    by simp [Cluster.init], by simp [Cluster.init], ?_⟩
  · exact ⟨⟨rfl, rfl, rfl, by simp [State.init, Cluster.init, Server.boot, blank],
      by simp [Cluster.init, Server.boot, blank], rfl, rfl, hret⟩, durable_blank i,
      ⟨[], decided_nil _ _, rfl, rfl, fun h => absurd h (lt_irrefl 0)⟩,
      fun _ => decided_nil _ _, ⟨[], decided_nil _ _, rfl, Or.inl List.nil_prefix⟩, le_rfl,
      leading_of_role (by simp [Cluster.init, Server.boot, blank]),
      ⟨⟨[], decided_nil _ _, rfl⟩, fun _ => rfl, by simp [Cluster.init, Server.boot],
        by simp [Cluster.init, Server.boot]⟩⟩
  · rintro t ⟨L, hL⟩
    simp [State.init] at hL

def installing (c : Cluster n C) :
    Action n C → Option (Call n (InstallSnapshotArgs n) InstallSnapshotReply)
  | .installSnapshot k => c.snapshotCalls[k]?
  | _ => none

/-- If the action installs a snapshot, it keeps entries above it only for a reason. -/
def KeepsForReason (c : Cluster n C) (act : Action n C) : Prop :=
  ∀ call ∈ installing c act, KeepsSuffix (c.servers call.dst).raft call.args

/-- **Every action is a run of the protocol, and stops no server.** -/
theorem Sim.step (h : Sim K c a) {act : Action n C} {r : Except Panic (Cluster n C)}
    (hs : step c act = some r) (hK : K → KeepsForReason c act) :
    ∃ c', r = .ok c' ∧ ∃ b, Reach a b ∧ Sim K c' b := by
  cases act with
  | start s cmd =>
    obtain ⟨c', hc', hb⟩ := h.start (j := s) cmd
    exact ⟨c', Option.some.inj (hs.symm.trans hc'), hb⟩
  | snapshot s index => exact h.snapshot hs
  | leaderElection s =>
    obtain ⟨c', hc', hb⟩ := h.leaderElection (j := s)
    exact ⟨c', Option.some.inj (hs.symm.trans hc'), hb⟩
  | requestVote k => exact h.requestVote hs
  | countVote k => exact h.countVote hs
  | voteFailed k => exact h.voteFailed hs
  | finishElection s term => exact h.finishElection hs
  | leaderHeartbeat s => exact h.leaderHeartbeat hs
  | appendEntries k => exact h.appendEntries hs
  | sendAppendEntries k => exact h.sendAppendEntries hs
  | installSnapshot k => exact h.installSnapshot hs fun hk => hK hk
  | sendInstallSnapshot k => exact h.sendInstallSnapshot hs
  | choose s => exact h.choose hs
  | deliver s => exact h.deliver hs
  | record s => exact h.record hs
  | crash s => exact h.crash hs
  | crashRequestVote k => exact h.crashRequestVote hs
  | crashAppendEntries k => exact h.crashAppendEntries hs
  | crashInstallSnapshot k => exact h.crashInstallSnapshot hs

/-- **Every run of the cluster is a run of the protocol.** -/
theorem Sim.run {P : Cluster n C → Action n C → Prop} (h : Sim K c a)
    (hK : K → ∀ d act, P d act → KeepsForReason d act) {c' : Cluster n C}
    (hr : ReachesIf advance P c c') :
    ∃ b, Reach a b ∧ Sim K c' b := by
  induction hr with
  | refl => exact ⟨a, .refl, h⟩
  | tail _ hstep ih =>
    obtain ⟨b, hb, hsim⟩ := ih
    obtain ⟨act, hP, hs⟩ := hstep
    obtain ⟨c'', hc'', b', hb', hsim'⟩ :=
      hsim.step (advance_eq_some_iff.mp hs) fun hk => hK hk _ act hP
    obtain rfl := Except.ok.inj hc''
    exact ⟨b', hb.trans hb', hsim'⟩

lemma exists_sim (hr : Reaches advance (Cluster.init : Cluster n C) c) : ∃ a, Sim False c a := by
  obtain ⟨a, -, h⟩ := (sim_init False).run (fun hk => hk.elim) hr
  exact ⟨a, h⟩

lemma exists_sim_ext {c' : Cluster n C} (hr : Reaches advance (Cluster.init : Cluster n C) c)
    (hr' : Reaches advance c c') : ∃ a b, Sim False c a ∧ Sim False c' b ∧ Ext a b := by
  obtain ⟨a, h⟩ := exists_sim hr
  obtain ⟨b, hb, h'⟩ := h.run (fun hk => hk.elim) hr'
  exact ⟨a, b, h, h', h.inv.ext hb⟩

end Mit6824.RaftSim
