import Mit6824.LogService
import Mit6824.RaftSteps
import Mit6824.RaftViews

/-!
A Raft cluster as its services see it.

The services start commands, take what the appliers deliver, hand over snapshots, which are bytes
to Raft, and restart with their servers. All else is a matter of the cluster. What the services
see is what a replicated log as a service would show them, in every run.
-/

namespace Mit6824.RaftPort

open Mit6824.Labgob Mit6824.Quorum Mit6824.TermLog Mit6824.Repl Mit6824.Compose
open Mit6824.RaftLog Mit6824.RaftState Mit6824.RaftElection Mit6824.RaftReplication
open Mit6824.RaftApplier Mit6824.RaftCluster Mit6824.RaftSim Mit6824.RaftSteps
open Mit6824.RaftViews Function

variable {n : ℕ} {C : Type}

/-- A cluster without its services, and the index of the last message that each server has
delivered since it started. -/
structure Port (n : ℕ) (C : Type) where
  cluster : Cluster n C
  reached : Fin n → ℕ

abbrev Label (n : ℕ) (C : Type) := LogService.Label (Fin n) C Bytes

def delivery (s : Fin n) : ApplyMsg C → Label n C
  | .command command index => .command s command index
  | .snapshot data _ index => .restore s data index

def restarted (c : Cluster n C) : Action n C → Option (Fin n)
  | .crash s => some s
  | .crashRequestVote k => c.voteCalls[k]?.map Call.dst
  | .crashAppendEntries k => c.appendCalls[k]?.map Call.dst
  | .crashInstallSnapshot k => c.snapshotCalls[k]?.map Call.dst
  | _ => none

section Machine

variable [Coded (Persisted n C)] [Inhabited C] [Coded (List C)]

def Port.init : Port n C := ⟨Cluster.init, fun _ => 0⟩

/-- The port after an action by which the cluster became `c`: a restarted service has been
delivered nothing. -/
def Port.move (x : Port n C) (c : Cluster n C) : Option (Fin n) → Port n C × Option (Label n C)
  | none => ({ x with cluster := c }, none)
  | some s => (⟨c, update x.reached s 0⟩, some (.restart s))

/-- One action of the cluster, with the snapshot that the service hands over. A service hands over
only what it has been delivered. -/
def attempt (x : Port n C) :
    Action n C × Bytes → Option (Except Panic (Port n C × Option (Label n C)))
  | (.start s command, _) =>
    let (rf, _, _, isLeader) := RaftState.start (x.cluster.servers s).raft command
    some (.ok ({ x with cluster := x.cluster.setRaft s rf }, some (.start s command isLeader)))
  | (.snapshot s index, data) =>
    if index ≤ x.reached s then some do
      let rf ← RaftReplication.snapshot (x.cluster.servers s).raft index data
      return ({ x with cluster := x.cluster.setRaft s rf }, some (.snapshot s index data))
    else none
  | (.deliver s, _) =>
    let sv := x.cluster.servers s
    match sv.applier with
    | .sending msg =>
      some (.ok (⟨x.cluster.setServer s { sv with applier := .sent msg },
        update x.reached s msg.index⟩, some (delivery s msg)))
    | _ => none
  | (act, _) =>
    (step x.cluster act).map fun r => r.map fun c => x.move c (restarted x.cluster act)

def raft : Machine (Port n C) (Action n C × Bytes) (Label n C) := fun x act =>
  match attempt x act with
  | some (.ok r) => some r
  | _ => none

end Machine

/-! ### What the cluster alone does -/

section Frame

variable {c c' : Cluster n C}

/-- The services and the record of the commands started are as before, but for a restart. -/
structure ServicesKept (r : Option (Fin n)) (c c' : Cluster n C) : Prop where
  started : c'.started = c.started
  service : ∀ i, (c'.servers i).service = if r = some i then [] else (c.servers i).service

lemma servicesKept_of_eq (hs : c'.started = c.started) (h : c'.servers = c.servers) :
    ServicesKept none c c' := ⟨hs, fun i => by rw [h]; rfl⟩

lemma servicesKept_set {s : Fin n} {sv : Server n C} (h : c'.servers = update c.servers s sv)
    (hs : c'.started = c.started) (hsv : sv.service = (c.servers s).service) :
    ServicesKept none c c' := by
  refine ⟨hs, fun i => ?_⟩
  rw [h, if_neg (by simp)]
  by_cases his : i = s
  · subst his
    rw [update_self, hsv]
  · rw [update_of_ne his]

variable [Coded (Persisted n C)] [Inhabited C]

lemma servicesKept_restart {s : Fin n} {p : Persister} (h : c.restart s p = .ok c') :
    ServicesKept (some s) c c' := by
  obtain ⟨rf, -, hc⟩ := bind_eq_ok h
  obtain rfl := Except.ok.inj hc
  refine ⟨rfl, fun i => ?_⟩
  by_cases his : s = i
  · subst his
    simp [Cluster.setServer, Server.boot]
  · rw [if_neg fun he => his (Option.some.inj he)]
    exact congrArg Server.service (update_of_ne (Ne.symm his) _ _)

omit [Inhabited C] in
lemma servicesKept_turn {k : ℕ} {call : Call n (RequestVoteArgs n) RequestVoteReply}
    {reply : Option RequestVoteReply} (hs : c.turn k call reply = some c') :
    ServicesKept none c c' := by
  simp only [Cluster.turn] at hs
  split at hs
  · cases hs
  split at hs
  · obtain rfl := Option.some.inj hs
    exact servicesKept_set rfl rfl rfl
  · cases hs

variable [Coded (List C)]

variable {act : Action n C} {s : Fin n} {k : ℕ}

lemma servicesKept_leaderElection (hs : step c (.leaderElection s) = some (.ok c')) :
    ServicesKept none c c' := by
  obtain ⟨⟨rf, args⟩, -, hc⟩ := bind_eq_ok (Option.some.inj hs)
  cases args with
  | none =>
    obtain rfl := Except.ok.inj hc
    exact servicesKept_set rfl rfl rfl
  | some args =>
    obtain rfl := Except.ok.inj hc
    exact servicesKept_set rfl rfl rfl

lemma servicesKept_finishElection {term : ℕ}
    (hs : step c (.finishElection s term) = some (.ok c')) : ServicesKept none c c' := by
  simp only [step] at hs
  split at hs
  · cases hs
  split at hs
  · cases hs
  · obtain rfl := Except.ok.inj (Option.some.inj hs)
    exact servicesKept_set rfl rfl rfl

lemma servicesKept_leaderHeartbeat (hs : step c (.leaderHeartbeat s) = some (.ok c')) :
    ServicesKept none c c' := by
  simp only [step] at hs
  split at hs
  · obtain ⟨ms, -, hc⟩ := bind_eq_ok (Option.some.inj hs)
    obtain rfl := Except.ok.inj hc
    exact servicesKept_of_eq rfl rfl
  · cases hs

lemma servicesKept_handler
    (hact : act = .requestVote k ∨ act = .appendEntries k ∨ act = .installSnapshot k)
    (hs : step c act = some (.ok c')) : ServicesKept none c c' := by
  rcases hact with rfl | rfl | rfl
  all_goals
    simp only [step] at hs
    split at hs
    · cases hs
    split at hs
    · obtain ⟨⟨rf, reply⟩, -, hc⟩ := bind_eq_ok (Option.some.inj hs)
      obtain rfl := Except.ok.inj hc
      exact servicesKept_set rfl rfl rfl
    · cases hs

lemma servicesKept_counted (hact : act = .countVote k ∨ act = .voteFailed k)
    (hs : step c act = some (.ok c')) : ServicesKept none c c' := by
  obtain ⟨call, reply, hturn⟩ : ∃ call reply, c.turn k call reply = some c' := by
    rcases hact with rfl | rfl
    all_goals
      simp only [step] at hs
      (repeat' split at hs) <;> try cases hs
      obtain ⟨d, hd, hc⟩ := Option.map_eq_some_iff.mp hs
      obtain rfl := Except.ok.inj hc
      exact ⟨_, _, hd⟩
  exact servicesKept_turn hturn

lemma servicesKept_sender (hact : act = .sendAppendEntries k ∨ act = .sendInstallSnapshot k)
    (hs : step c act = some (.ok c')) : ServicesKept none c c' := by
  rcases hact with rfl | rfl
  all_goals
    simp only [step] at hs
    split at hs
    · cases hs
    split at hs
    · cases hs
    · obtain ⟨rf, -, hc⟩ := bind_eq_ok (Option.some.inj hs)
      obtain rfl := Except.ok.inj hc
      exact servicesKept_set rfl rfl rfl

lemma servicesKept_choose (hs : step c (.choose s) = some (.ok c')) : ServicesKept none c c' := by
  simp only [step] at hs
  split at hs
  · obtain ⟨msg, -, hc⟩ := bind_eq_ok (Option.some.inj hs)
    cases msg with
    | none =>
      obtain rfl := Except.ok.inj hc
      exact servicesKept_of_eq rfl rfl
    | some msg =>
      obtain rfl := Except.ok.inj hc
      exact servicesKept_set rfl rfl rfl
  · cases hs

lemma servicesKept_record (hs : step c (.record s) = some (.ok c')) : ServicesKept none c c' := by
  simp only [step] at hs
  split at hs
  · obtain rfl := Except.ok.inj (Option.some.inj hs)
    exact servicesKept_set rfl rfl rfl
  · cases hs

lemma servicesKept_crashed (hact : act = .crashRequestVote k ∨ act = .crashAppendEntries k ∨
    act = .crashInstallSnapshot k) (hs : step c act = some (.ok c')) :
    ServicesKept (restarted c act) c c' := by
  rcases hact with rfl | rfl | rfl
  all_goals
    simp only [step] at hs
    split at hs
    · cases hs
    · next call hcall =>
      split at hs
      · simp only [restarted, hcall, Option.map_some]
        exact servicesKept_restart (Option.some.inj hs)
      · cases hs

/-- **What the cluster does alone leaves the services**, but for those that it restarts. -/
theorem servicesKept (hin : Inner act) (hs : step c act = some (.ok c')) :
    ServicesKept (restarted c act) c c' := by
  cases act with
  | start s command => exact hin.elim
  | snapshot s index => exact hin.elim
  | deliver s => exact hin.elim
  | leaderElection s => exact servicesKept_leaderElection hs
  | requestVote k => exact servicesKept_handler (.inl rfl) hs
  | countVote k => exact servicesKept_counted (.inl rfl) hs
  | voteFailed k => exact servicesKept_counted (.inr rfl) hs
  | finishElection s term => exact servicesKept_finishElection hs
  | leaderHeartbeat s => exact servicesKept_leaderHeartbeat hs
  | appendEntries k => exact servicesKept_handler (.inr (.inl rfl)) hs
  | sendAppendEntries k => exact servicesKept_sender (.inl rfl) hs
  | installSnapshot k => exact servicesKept_handler (.inr (.inr rfl)) hs
  | sendInstallSnapshot k => exact servicesKept_sender (.inr rfl) hs
  | choose s => exact servicesKept_choose hs
  | record s => exact servicesKept_record hs
  | crash s => exact servicesKept_restart (Option.some.inj hs)
  | crashRequestVote k => exact servicesKept_crashed (.inl rfl) hs
  | crashAppendEntries k => exact servicesKept_crashed (.inr (.inl rfl)) hs
  | crashInstallSnapshot k => exact servicesKept_crashed (.inr (.inr rfl)) hs

end Frame

end Mit6824.RaftPort
