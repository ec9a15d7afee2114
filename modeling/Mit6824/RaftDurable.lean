import Mit6824.RaftState

/-!
What a server has saved is what it has: restarting it from its persister gives the server back
without its volatile state.
-/

namespace Mit6824.RaftState

open Mit6824.Labgob Mit6824.RaftLog

variable {n : ℕ} {C : Type} [Coded (Persisted n C)] [Inhabited C] {rf : Raft n C}

/-- The persister holds the snapshot and the persistent fields; nothing is saved before the
first change. -/
structure Durable (rf : Raft n C) : Prop where
  snapshot : rf.persister.snapshot = rf.snapshot
  state : rf.persister.raftstate = stateBytes rf ∨
    (rf.persister.raftstate = [] ∧ persisted rf = persisted (blank rf.me makePersister))

lemma durable_blank (me : Fin n) : Durable (blank me makePersister : Raft n C) :=
  ⟨rfl, Or.inr ⟨rfl, rfl⟩⟩

lemma durable_persistSate (h : rf.persister.snapshot = rf.snapshot) :
    Durable (persistSate rf) := ⟨h, Or.inl rfl⟩

lemma durable_persist (rf : Raft n C) : Durable (persist rf) := ⟨rfl, Or.inl rfl⟩

lemma Durable.volatile (h : Durable rf) {rf' : Raft n C} (hp : rf'.persister = rf.persister)
    (hme : rf'.me = rf.me) (hs : rf'.snapshot = rf.snapshot)
    (hst : persisted rf' = persisted rf) : Durable rf' := by
  refine ⟨by rw [hp, hs, h.snapshot], ?_⟩
  rw [hp, stateBytes, hst, hme]
  exact h.state

/-- The server as it comes back: all that is persistent, the rest as new. -/
def restored (rf : Raft n C) : Raft n C :=
  { (blank rf.me rf.persister : Raft n C) with
    currentTerm := rf.currentTerm
    votedFor := rf.votedFor
    log := rf.log
    snapshotTerm := rf.snapshotTerm
    snapshotIndex := rf.snapshotIndex
    snapshot := rf.snapshot }

lemma Durable.make (h : Durable rf) (hi : rf.log.index0 = rf.snapshotIndex) :
    make rf.me rf.persister = .ok (restored rf) := by
  have hlog : (⟨rf.log.entries, rf.snapshotIndex⟩ : Log C) = rf.log := by rw [← hi]
  rcases h.state with hs | ⟨hs, hb⟩
  · have hne : ¬ (stateBytes rf).length < 1 := by
      have := encode_ne_nil (persisted rf)
      rw [← List.length_pos_iff] at this
      exact not_lt.mpr this
    simp only [RaftState.make, hs, readPersist, if_neg hne, bind, Except.bind, pure, Except.pure]
    simp [stateBytes, persisted, restored, hlog, h.snapshot]
  · -- nothing saved: the persistent fields are still those of a new server
    simp only [persisted, blank, Persisted.mk.injEq] at hb
    obtain ⟨h1, h2, h3, h4, h5⟩ := hb
    have hl : rf.log = makeLog 1 0 := by
      rw [← hlog, h3, h4]; rfl
    simp [RaftState.make, hs, readPersist, bind, Except.bind, pure, Except.pure, restored, blank,
      h1, h2, hl, h4, h5, h.snapshot]

lemma Durable.restored (h : Durable rf) : Durable (restored rf) :=
  h.volatile rfl rfl rfl rfl

end Mit6824.RaftState
