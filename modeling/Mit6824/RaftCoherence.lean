import Mit6824.RaftBackoff
import Mit6824.RaftSafety

/-!
The snapshot of a server and its log.

`InstallSnapshot` keeps the entries above the snapshot whenever the log is longer, and does not
look at the entry it cuts at. In runs where that entry is always the one the snapshot ends with,
every log continues the prefix that its snapshot covers; in others it does not. The log of a leader
does in all runs.
-/

namespace Mit6824.RaftCoherence

open Mit6824.Labgob Mit6824.Quorum Mit6824.TermLog Mit6824.Repl
open Mit6824.RaftLog Mit6824.RaftState Mit6824.RaftElection Mit6824.RaftReplication
open Mit6824.RaftApplier Mit6824.RaftCluster Mit6824.RaftSim Mit6824.RaftSafety Mit6824.Runs
open Function

variable {n : ℕ} {C : Type}

instance (rf : Raft n C) (args : InstallSnapshotArgs n) : Decidable (KeepsSuffix rf args) :=
  inferInstanceAs (Decidable (_ → _ → _ → _ → _))

instance (c : Cluster n C) (act : Action n C) : Decidable (KeepsForReason c act) :=
  inferInstanceAs (Decidable (∀ call ∈ installing c act, _))

variable [Coded (Persisted n C)] [Inhabited C] [Coded (List C)]
variable {c : Cluster n C} {a : Abs n C} {s : Fin n}

lemma entry_snapshotIndex {K : Prop} (h : Sim K c a)
    (hco : Decided a (c.servers s).raft.currentTerm
      ((a.log s).take (c.servers s).raft.snapshotIndex)) :
    ∃ e, (c.servers s).raft.log.entry (c.servers s).raft.snapshotIndex = .ok e ∧
      e.term = (c.servers s).raft.snapshotTerm := by
  have hm := (h.server s).mirror
  have hle := hm.log.le
  obtain ⟨l, hl, hlen, hterm, -⟩ := (h.server s).shot
  rw [hm.index0] at hle
  have htake : l = (a.log s).take (c.servers s).raft.snapshotIndex := by
    refine h.inv.decided_eq hl hco ?_
    rw [List.length_take, hlen, min_eq_left hle]
  obtain ⟨e, he, ht, -⟩ := hm.log.entry hm.index0.le hle
  refine ⟨e, he, ?_⟩
  calc e.term = lastTerm ((a.log s).take (c.servers s).raft.snapshotIndex) := ht
    _ = lastTerm l := by rw [← htake]
    _ = (c.servers s).raft.snapshotTerm := hterm

/-- What is decided is in the leader's log, with the terms it has there. -/
lemma term_of_decided (h : Sim False c a) (hs : (c.servers s).raft.role = .leader)
    {l : List (Entry C)} (hl : Decided a (c.servers s).raft.currentTerm l) {i : ℕ} {e : Entry C}
    (hi : i ≤ l.length) (he : (c.servers s).raft.log.entry i = .ok e) : e.term = termAt l i := by
  have hm := (h.server s).mirror
  have hp := h.inv.decided_prefix hl ⟨s, hm.lead hs⟩
  rw [h.llog_eq hs] at hp
  rw [hm.log.term_of_entry he, termAt_eq_of_le hp hi]

/-- A leader's snapshot and log are always coherent, and a server of its term whose log starts with
an entry of its snapshot's term has in common with the leader what backing off needs. -/
theorem followsLeader_of_sim (h : Sim False c a) (s i : Fin n)
    (hs : (c.servers s).raft.role = .leader)
    (ht : (c.servers i).raft.currentTerm = (c.servers s).raft.currentTerm)
    (hc : RaftBackoff.Coherent (c.servers i).raft) :
    RaftBackoff.Coherent (c.servers s).raft ∧
      RaftBackoff.FollowsLeader (c.servers s).raft (c.servers i).raft := by
  have hm := (h.server i).mirror
  have hlast := hm.log.lastIndex
  obtain ⟨x, hx, hxterm⟩ := hc.head
  -- the snapshot of the follower is decided, and so is what it has applied
  obtain ⟨l, hl, hlen, hterm, -⟩ := (h.server i).shot
  obtain ⟨d, hd, hdlen, hdpre⟩ := (h.server i).commit
  have happlied := (h.server i).applied
  have hsnap := hc.snapshotIndex_le
  rw [ht] at hl hd
  have hle : (c.servers i).raft.lastApplied ≤ (c.servers i).raft.log.lastIndex := by
    rcases hdpre with hp | hp
    · have := hp.length_le
      omega
    · omega
  refine ⟨⟨(h.server s).mirror.index0, entry_snapshotIndex h (h.leader_coherent hs)⟩,
    ⟨⟨?_, ?_, hle, ?_⟩, ht, hc⟩⟩
  · intro k e e' _ _ he he' hterm m hm hms hmi
    obtain ⟨y, hy, hy'⟩ := entries_match h he he' hterm hms hmi hm
    rw [hy, hy']
  · intro e he
    rw [term_of_decided h hs hl hlen.ge he, ← hlen, termAt_length, hterm]
  · intro k e e' hk he he'
    rcases hdpre with hp | hp
    · rw [term_of_decided h hs hd (by omega) he, hm.log.term_of_entry he',
        termAt_eq_of_le hp (by omega)]
    · -- the follower has compacted all that it has applied
      have hge := (Log.range_of_entry he').1
      rw [hc.index0] at hge
      obtain rfl : k = (c.servers i).raft.snapshotIndex := by omega
      rw [hx] at he'
      rw [term_of_decided h hs hl hlen.ge he, ← Except.ok.inj he', hxterm, ← hterm, ← hlen,
        termAt_length]

end Mit6824.RaftCoherence
