import Mit6824.RaftSimRun

/-!
The safety of Raft, for clusters of any size and every run: lost, delayed and reordered
messages, crashes at any point, compaction and snapshots.
-/

namespace Mit6824.RaftSafety

open Mit6824.Labgob Mit6824.Quorum Mit6824.TermLog Mit6824.Repl
open Mit6824.RaftLog Mit6824.RaftState Mit6824.RaftElection Mit6824.RaftReplication
open Mit6824.RaftApplier Mit6824.RaftCluster Mit6824.RaftSim Mit6824.Runs Function

/-! ### A cluster of numbers, to run -/

/-- Server `0` is elected with the vote of server `1`. -/
def election : List (Action 3 ℕ) :=
  [.leaderElection 0, .requestVote 0, .countVote 0, .finishElection 0 1]

/-- The leader replicates a command to server `1`, which tells it so. -/
def replication : List (Action 3 ℕ) :=
  [.start 0 7, .leaderHeartbeat 0, .appendEntries 0, .sendAppendEntries 0]

/-- Servers `0` and `1` apply the command. -/
def application : List (Action 3 ℕ) :=
  [.leaderHeartbeat 0, .appendEntries 2, .choose 0, .deliver 0, .record 0, .choose 1, .deliver 1,
    .record 1]

/-- The leader compacts and sends its snapshot to server `2`. -/
def compaction : List (Action 3 ℕ) :=
  [.snapshot 0 1, .leaderHeartbeat 0, .installSnapshot 0, .choose 2, .deliver 2]

/-- Server `2` notes the snapshot and is brought the command after it. -/
def continuation : List (Action 3 ℕ) :=
  [.record 2, .sendInstallSnapshot 0, .start 0 8, .leaderHeartbeat 0, .appendEntries 6,
    .sendAppendEntries 6, .leaderHeartbeat 0, .appendEntries 8, .choose 2, .deliver 2]

/-- Server `1` is elected in the term in which server `0` stands; server `0` hears from it and
then gets the request for its vote. -/
def overtaken : List (Action 3 ℕ) :=
  [.leaderElection 1, .requestVote 3, .countVote 3, .finishElection 1 1, .leaderHeartbeat 1,
    .appendEntries 0, .requestVote 2]

variable {n : ℕ} {C : Type} [Coded (Persisted n C)] [Inhabited C] [Coded (List C)]
variable {c c₁ c₂ : Cluster n C}

/-! ### Agreement on what is applied -/

omit [Coded (Persisted n C)] [Inhabited C] in
lemma command_getElem? {a : Abs n C} {taken : List (TakenSnapshot n C)} {t u i : ℕ} {x : C}
    (hinv : Inv a) (h : MsgOk taken a t (.command x i)) {l : List (Entry C)}
    (hl : Decided a u l) (hi : i ≤ l.length) : (commands l)[i - 1]? = some x := by
  obtain ⟨l', hl', hlen, y, hy⟩ := h
  have heq : l' = l.take i :=
    hinv.decided_eq hl' (hl.mono le_rfl (List.take_prefix _ _)) (by rw [List.length_take]; omega)
  have hyl : i = y.length + 1 := by
    have := congrArg List.length hy
    rwa [commands, List.length_map, hlen, List.length_append, List.length_singleton] at this
  have hget : (commands l')[i - 1]? = some x := by
    rw [hy, hyl, Nat.add_sub_cancel, List.getElem?_append_right le_rfl]
    simp
  rw [heq, commands, List.map_take, List.getElem?_take_of_lt (by omega)] at hget
  exact hget

/-- **State machine safety.** Commands delivered at one index are equal, whichever servers
deliver them and whenever; and a snapshot that is delivered was taken by a service that had been
delivered, up to its index, the commands that any server ever delivers there. -/
theorem state_machine_safety (hr : Reaches advance Cluster.init c) :
    (∀ d ∈ c.delivered, ∀ d' ∈ c.delivered, ∀ x y i, d.msg = .command x i →
      d'.msg = .command y i → x = y) ∧
    ∀ d ∈ c.delivered, ∀ data term k, d.msg = .snapshot data term k →
      ∃ r ∈ c.taken, r.index = k ∧ data = encode r.commands ∧ r.commands.length = k ∧
        ∀ d' ∈ c.delivered, ∀ x i, d'.msg = .command x i → i ≤ k →
          r.commands[i - 1]? = some x := by
  obtain ⟨a, h⟩ := exists_sim hr
  constructor
  · intro d hd d' hd' x y i hx hy
    obtain ⟨t, ht⟩ := h.delivered d hd
    obtain ⟨u, hu⟩ := h.delivered d' hd'
    rw [hx] at ht
    rw [hy] at hu
    obtain ⟨l, hl, hlen, -⟩ := id ht
    have h1 := command_getElem? h.inv ht hl hlen.ge
    rw [command_getElem? h.inv hu hl hlen.ge] at h1
    exact (Option.some.inj h1).symm
  · intro d hd data term k hk
    obtain ⟨t, ht⟩ := h.delivered d hd
    rw [hk] at ht
    obtain ⟨hpos, l, hl, hlen, -, hdata⟩ := ht
    obtain ⟨henc, r, hr, hri, hrc⟩ := hdata hpos
    refine ⟨r, hr, hri, by rw [hrc, henc], by rw [hrc, commands, List.length_map, hlen], ?_⟩
    intro d' hd' x i hx hi
    obtain ⟨u, hu⟩ := h.delivered d' hd'
    rw [hx] at hu
    rw [hrc]
    exact command_getElem? h.inv hu hl (hlen ▸ hi)

theorem state_machine_safety_snapshot :
    ∃ c : Cluster 3 ℕ, Reaches advance Cluster.init c ∧
      (c.delivered.map fun d => (d.server, d.msg.index)) = [(2, 1), (1, 1), (0, 1)] ∧
      ∃ r ∈ c.taken, r.index = 1 ∧ r.commands[0]? = some 7 := by
  have hrun : (run advance Cluster.init (election ++ replication ++ application ++ compaction)).map
      (fun c => (c.delivered.map fun d => (d.server, d.msg.index),
        c.delivered[0]?.map fun d => d.msg, c.delivered[1]?.map fun d => d.msg)) =
      some ([(2, 1), (1, 1), (0, 1)], some (.snapshot (encode [7]) 1 1), some (.command 7 1)) := by
    decide +kernel
  obtain ⟨c, hc, hd⟩ := Option.map_eq_some_iff.mp hrun
  simp only [Prod.mk.injEq] at hd
  obtain ⟨hall, h0, h1⟩ := hd
  obtain ⟨d, hd, hmsg⟩ := Option.map_eq_some_iff.mp h0
  obtain ⟨d', hd', hmsg'⟩ := Option.map_eq_some_iff.mp h1
  obtain ⟨r, hr, hi, -, -, hsame⟩ := (state_machine_safety (reaches_of_run hc)).2 d
    (List.mem_of_getElem? hd) _ _ _ hmsg
  exact ⟨c, reaches_of_run hc, hall, r, hr, hi,
    hsame d' (List.mem_of_getElem? hd') 7 1 hmsg' le_rfl⟩

/-! ### Elections -/

/-- **Election safety.** Servers that lead in the same term, at whatever times of a run, are
the same server. -/
theorem election_safety (hr₁ : Reaches advance Cluster.init c₁) (hr₂ : Reaches advance c₁ c₂)
    (s s' : Fin n)
    (hs : (c₁.servers s).raft.role = .leader) (hs' : (c₂.servers s').raft.role = .leader)
    (ht : (c₁.servers s).raft.currentTerm = (c₂.servers s').raft.currentTerm) : s = s' := by
  obtain ⟨a, b, h, h', hE⟩ := exists_sim_ext hr₁ hr₂
  have h1 := hE.lead ((h.server s).mirror.lead hs)
  have h2 := (h'.server s').mirror.lead hs'
  rw [← ht, h1] at h2
  exact Option.some.inj h2

theorem election_safety_elected :
    ∃ c : Cluster 3 ℕ, Reaches advance Cluster.init c ∧ (c.servers 0).raft.role = .leader ∧
      ∀ s, (c.servers s).raft.role = .leader → (c.servers s).raft.currentTerm = 1 → 0 = s := by
  have hrun : (run advance (Cluster.init : Cluster 3 ℕ) election).map
      (fun c => ((c.servers 0).raft.role, (c.servers 0).raft.currentTerm)) =
        some (.leader, 1) := by decide +kernel
  obtain ⟨c, hc, hd⟩ := Option.map_eq_some_iff.mp hrun
  obtain ⟨h0, h1⟩ := Prod.mk.inj hd
  exact ⟨c, reaches_of_run hc, h0, fun s hs ht =>
    election_safety (reaches_of_run hc) .refl 0 s h0 hs (h1.trans ht.symm)⟩

/-! ### What is committed stays -/

omit [Coded (Persisted n C)] [Inhabited C] [Coded (List C)] in
/-- Two logs that share a prefix retain the same entries of it. -/
lemma entry_eq_of_prefix {lg lg' : Log C} {l x y : List (Entry C)} (hx : Retains lg x)
    (hy : Retains lg' y) (hlx : l <+: x) (hly : l <+: y) {k : ℕ} (hk : lg.index0 < k)
    (hk' : lg'.index0 < k) (hkl : k ≤ l.length) :
    ∃ e, lg.entry k = .ok e ∧ lg'.entry k = .ok e := by
  obtain ⟨e, he, -, hget⟩ := hx.entry hk.le (hkl.trans hlx.length_le)
  obtain ⟨e', he', -, hget'⟩ := hy.entry hk'.le (hkl.trans hly.length_le)
  have hlt : k - 1 < l.length := by omega
  have h1 := hget hk
  have h2 := hget' hk'
  obtain ⟨r, rfl⟩ := hlx
  obtain ⟨r', rfl⟩ := hly
  rw [List.getElem?_append_left hlt] at h1 h2
  rw [h1] at h2
  obtain rfl := Option.some.inj h2
  exact ⟨e, he, he'⟩

/-- Logs with entries of one term at an index have the same entries up to there. -/
lemma entries_match {a : Abs n C} (h : Sim False c a) {i j : Fin n} {k : ℕ} {e e' : Entry C}
    (he : (c.servers i).raft.log.entry k = .ok e) (he' : (c.servers j).raft.log.entry k = .ok e')
    (ht : e.term = e'.term) {m : ℕ} (hi : (c.servers i).raft.snapshotIndex < m)
    (hj : (c.servers j).raft.snapshotIndex < m) (hmk : m ≤ k) :
    ∃ x, (c.servers i).raft.log.entry m = .ok x ∧ (c.servers j).raft.log.entry m = .ok x := by
  have hm := (h.server i).mirror
  have hm' := (h.server j).mirror
  have hk := hm.log.le_of_entry he
  have hk' := hm'.log.le_of_entry he'
  have hterm : termAt (a.log i) k = termAt (a.log j) k := by
    rw [← hm.log.term_of_entry he, ← hm'.log.term_of_entry he', ht]
  have htake : (a.log i).take k = (a.log j).take k :=
    (h.inv.log.log i).take_eq (h.inv.log.log j) hk hk' hterm
  refine entry_eq_of_prefix hm.log hm'.log (List.take_prefix k _)
    (htake ▸ List.take_prefix k _) (by rw [hm.index0]; exact hi) (by rw [hm'.index0]; exact hj) ?_
  rw [List.length_take]
  omega

/-- **Durability.** Between any two actions, starting a server from its persister gives it back
with the term, vote, log and snapshot it has. -/
theorem make_restores (hr : Reaches advance Cluster.init c) (s : Fin n) :
    ∃ rf, make s (c.servers s).raft.persister = .ok rf ∧
      rf.currentTerm = (c.servers s).raft.currentTerm ∧
      rf.votedFor = (c.servers s).raft.votedFor ∧ rf.log = (c.servers s).raft.log ∧
      rf.snapshotIndex = (c.servers s).raft.snapshotIndex ∧
      rf.snapshotTerm = (c.servers s).raft.snapshotTerm ∧
      rf.snapshot = (c.servers s).raft.snapshot := by
  obtain ⟨a, h⟩ := exists_sim hr
  have hm := (h.server s).mirror
  have hmake := (h.server s).durable.make hm.index0
  rw [hm.me] at hmake
  exact ⟨_, hmake, rfl, rfl, rfl, rfl, rfl, rfl⟩

theorem make_restores_compacted :
    ∃ c : Cluster 3 ℕ, Reaches advance Cluster.init c ∧ (c.servers 0).raft.snapshotIndex = 1 ∧
      ∃ rf : Raft 3 ℕ, make 0 (c.servers 0).raft.persister = .ok rf ∧ rf.snapshotIndex = 1 ∧
        rf.snapshot = encode [7] := by
  have hrun : (run advance Cluster.init (election ++ replication ++ application ++ compaction)).map
      (fun c => ((c.servers 0).raft.snapshotIndex, (c.servers 0).raft.snapshot)) =
      some (1, encode [7]) := by
    decide +kernel
  obtain ⟨c, hc, hd⟩ := Option.map_eq_some_iff.mp hrun
  obtain ⟨h1, h2⟩ := Prod.mk.inj hd
  obtain ⟨rf, hmake, -, -, -, hsi, -, hsn⟩ := make_restores (reaches_of_run hc) 0
  exact ⟨c, reaches_of_run hc, h1, rf, hmake, hsi.trans h1, hsn.trans h2⟩

end Mit6824.RaftSafety
