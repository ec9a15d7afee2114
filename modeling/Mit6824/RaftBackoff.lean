import Mit6824.RaftBranches

/-!
A leader finds the place where the log of a follower departs from its own.

It starts behind its last entry and goes back by what the follower reports. A round may leave its
`nextIndex` alone, but then the follower has cut its log; and once the follower is too short for
the entries that the leader has kept, the leader falls back to its snapshot. So the length of the
follower's log, and whether it is too short for the next request, decide how many rounds are left.
-/

namespace Mit6824.RaftBackoff

open Mit6824.Labgob Mit6824.RaftLog Mit6824.RaftState Mit6824.RaftReplication Function

variable {n : ℕ} {C : Type}

/-! ### Rounds -/

inductive Answer (n : ℕ) (C : Type)
  | appendEntries (args : AppendEntriesArgs n C) (reply : AppendEntriesReply)
  | installSnapshot (args : InstallSnapshotArgs n) (reply : InstallSnapshotReply)

section Rounds

variable [Coded (Persisted n C)] [Inhabited C]

/-- The follower handles what the leader sends. -/
def handle (follower : Raft n C) : Send n C → Except Panic (Raft n C × Answer n C)
  | .appendEntries args => do
    let (follower, reply) ← appendEntries follower args
    return (follower, .appendEntries args reply)
  | .installSnapshot args => do
    let (follower, reply) ← installSnapshot follower args
    return (follower, .installSnapshot args reply)

/-- The leader handles the reply. -/
def settle (leader : Raft n C) (peer : Fin n) : Answer n C → Except Panic (Raft n C)
  | .appendEntries args reply => sendAppendEntries leader peer args reply
  | .installSnapshot args reply => sendInstallSnapshot leader peer args reply

def exchange (peer : Fin n) (leader follower : Raft n C) :
    Except Panic (Raft n C × Answer n C) := do
  let m ← replicate leader peer
  handle follower m

/-- A round without a loss: the leader sends, the follower handles the request, the leader handles
the reply. -/
def round (peer : Fin n) (leader follower : Raft n C) : Except Panic (Raft n C × Raft n C) := do
  let (follower, answer) ← exchange peer leader follower
  let leader ← settle leader peer answer
  return (leader, follower)

def rounds (peer : Fin n) : ℕ → Raft n C → Raft n C → Except Panic (Raft n C × Raft n C)
  | 0, leader, follower => return (leader, follower)
  | k + 1, leader, follower => do
    let (leader, follower) ← round peer leader follower
    rounds peer k leader follower

end Rounds

/-! ### A leader and a follower -/

/-- The log starts at the snapshot, with an entry of the snapshot's term. -/
structure Coherent (rf : Raft n C) : Prop where
  index0 : rf.log.index0 = rf.snapshotIndex
  head : ∃ e, rf.log.entry rf.snapshotIndex = .ok e ∧ e.term = rf.snapshotTerm

/-- What the follower has in common with the leader: Log Matching above both snapshots; its
snapshot ends with an entry of the leader; and what it has applied is in its log and in the
leader's. -/
structure Agrees (leader follower : Raft n C) : Prop where
  logMatching : ∀ i e e', leader.snapshotIndex < i → follower.snapshotIndex < i →
    leader.log.entry i = .ok e → follower.log.entry i = .ok e' → e.term = e'.term →
    ∀ j ≤ i, leader.snapshotIndex < j → follower.snapshotIndex < j →
      leader.log.entry j = follower.log.entry j
  snapshot : ∀ e, leader.log.entry follower.snapshotIndex = .ok e → e.term = follower.snapshotTerm
  applied_le : follower.lastApplied ≤ follower.log.lastIndex
  applied : ∀ i e e', i ≤ follower.lastApplied → leader.log.entry i = .ok e →
    follower.log.entry i = .ok e' → e.term = e'.term

/-- The follower has the leader's entries above both snapshots. -/
def Replicated (leader follower : Raft n C) : Prop :=
  ∀ i, leader.snapshotIndex < i → follower.snapshotIndex < i → i ≤ leader.log.lastIndex →
    ∃ e, leader.log.entry i = .ok e ∧ follower.log.entry i = .ok e

def withPeers (leader : Raft n C) (next mtch : Fin n → ℕ) : Raft n C :=
  { leader with nextIndex := some next, matchIndex := some mtch }

variable {leader follower follower' : Raft n C} {peer : Fin n} {next mtch : Fin n → ℕ}

lemma Coherent.entry (h : Coherent leader) {i : ℕ} (hi : leader.snapshotIndex ≤ i)
    (hle : i ≤ leader.log.lastIndex) : ∃ e, leader.log.entry i = .ok e := by
  obtain ⟨e, he, -⟩ := h.head
  have hrange := Log.range_of_entry he
  have hidx := h.index0
  unfold Log.lastIndex at hle
  exact Log.exists_entry (by omega) (by omega)

lemma Coherent.snapshotIndex_le (h : Coherent leader) :
    leader.snapshotIndex ≤ leader.log.lastIndex := by
  obtain ⟨e, he, -⟩ := h.head
  have hrange := Log.range_of_entry he
  unfold Log.lastIndex
  omega

lemma Coherent.length (h : Coherent leader) :
    leader.log.index0 + leader.log.entries.length = leader.log.lastIndex + 1 := by
  obtain ⟨e, he, -⟩ := h.head
  have hrange := Log.range_of_entry he
  unfold Log.lastIndex
  omega

lemma le_lastIndex {i : ℕ} {e : Entry C} {lg : Log C} (he : lg.entry i = .ok e) :
    i ≤ lg.lastIndex := by
  have hrange := Log.range_of_entry he
  unfold Log.lastIndex
  omega

/-- Where both start at an index, they have the same term there. -/
lemma Agrees.head (h : Agrees leader follower) (hc : Coherent follower) {e e' : Entry C}
    (he : leader.log.entry follower.snapshotIndex = .ok e)
    (he' : follower.log.entry follower.snapshotIndex = .ok e') : e.term = e'.term := by
  obtain ⟨x, hx, ht⟩ := hc.head
  rw [he'] at hx
  rw [h.snapshot e he, ← ht, Except.ok.inj hx]

/-- A follower in the leader's term. -/
structure FollowsLeader (leader follower : Raft n C) : Prop extends Agrees leader follower where
  term : follower.currentTerm = leader.currentTerm
  coherent : Coherent follower

/-- What the leader sends with the entry at an index as the previous one. -/
def requestFrom (leader : Raft n C) (p : ℕ) (prev : Entry C) : AppendEntriesArgs n C :=
  ⟨leader.currentTerm, leader.me, p, prev.term,
    leader.log.entries.drop (p + 1 - leader.log.index0), leader.commitIndex⟩

lemma replicate_request (hL : Coherent leader) {p : ℕ} {prev : Entry C} (hp : next peer = p + 1)
    (hm : mtch peer ≤ p) (hs : leader.snapshotIndex ≤ p)
    (hprev : leader.log.entry p = .ok prev) :
    replicate (withPeers leader next mtch) peer =
      .ok (.appendEntries (requestFrom leader p prev)) := by
  have hidx := hL.index0
  have hrange := Log.range_of_entry hprev
  have hpred : next peer - 1 = p := by omega
  have hslice : leader.log.slice (p + 1) =
      .ok (leader.log.entries.drop (p + 1 - leader.log.index0)) := if_pos ⟨by omega, by omega⟩
  have hnext : (withPeers leader next mtch).nextIndex = some next := rfl
  have hmtch : (withPeers leader next mtch).matchIndex = some mtch := rfl
  rw [replicate_append hnext hmtch (by omega) (by rw [hpred]; exact not_lt.mpr hs)
    (by rw [hpred]; exact hprev) (by rw [hpred]; exact hslice), hpred]
  rfl

lemma entry_of_request (hL : Coherent leader) {p i : ℕ} {prev e : Entry C} (hi : p < i)
    (hs : leader.snapshotIndex ≤ p) :
    (requestFrom leader p prev).entries[i - (p + 1)]? = some e ↔ leader.log.entry i = .ok e := by
  have hidx := hL.index0
  have hget : (requestFrom leader p prev).entries[i - (p + 1)]? =
      leader.log.entries[i - leader.log.index0]? := by
    rw [requestFrom, List.getElem?_drop,
      show p + 1 - leader.log.index0 + (i - (p + 1)) = i - leader.log.index0 by omega]
  rw [hget]
  exact ⟨fun h => Log.entry_eq (by omega) h, fun h => Log.getElem?_of_entry h⟩

variable [Coded (Persisted n C)]

lemma FollowsLeader.heard (h : FollowsLeader leader follower) (l : Fin n) :
    FollowsLeader leader (heardFrom follower leader.currentTerm l) := by
  obtain ⟨hsnap, happlied, hlog, -⟩ := heardFrom_unchanged follower leader.currentTerm l
  have hterm := snapshotTerm_heardFrom follower leader.currentTerm l
  refine ⟨⟨?_, ?_, ?_, ?_⟩, ?_, ⟨?_, ?_⟩⟩
  · rw [hsnap, hlog]
    exact h.logMatching
  · rw [hsnap, hterm]
    exact h.snapshot
  · rw [happlied, hlog]
    exact h.applied_le
  · rw [happlied, hlog]
    exact h.applied
  · rw [← h.term, currentTerm_heardFrom]
  · rw [hlog, hsnap]
    exact h.coherent.index0
  · rw [hlog, hsnap, hterm]
    exact h.coherent.head

/-! ### What the follower answers -/

section Answers

variable {p : ℕ} {prev : Entry C} {reply : AppendEntriesReply}

lemma answer_match (hL : Coherent leader) (h : FollowsLeader leader follower)
    (hs : leader.snapshotIndex ≤ p) (hprev : leader.log.entry p = .ok prev)
    (hsf : follower.snapshotIndex ≤ p) {own : Entry C} (hown : follower.log.entry p = .ok own)
    (ht : prev.term = own.term) :
    ∃ follower', placeEntries follower (requestFrom leader p prev) reply =
      .ok (follower', { reply with success := true }) ∧ Replicated leader follower' := by
  have hrange := Log.range_of_entry hown
  obtain ⟨lg, hplace, -, hkeep, hwrite⟩ := Log.place_spec follower.log (p + 1)
    (requestFrom leader p prev).entries (by omega) (by omega) (Or.inl (by omega))
  refine ⟨_, placeEntries_match (not_lt.mpr (le_lastIndex hown)) (not_lt.mpr hsf) hown ht.symm
    hplace, fun i hi hif hle => ?_⟩
  rw [snapshotIndex_followerCommit] at hif
  rw [log_followerCommit]
  obtain ⟨e, he⟩ := hL.entry hi.le hle
  refine ⟨e, he, ?_⟩
  rcases Nat.lt_or_ge p i with hlt | hge
  · exact hwrite i e hlt ((entry_of_request hL hlt hs).mpr he)
  · -- what is not written is the same by Log Matching
    refine hkeep i e (by omega) ?_
    rw [← he]
    exact (h.logMatching p prev own (by omega) (lt_of_lt_of_le hif hge) hprev hown ht i hge hi
      hif).symm

/-- The snapshot of the follower covers the previous entry. -/
lemma answer_below (hL : Coherent leader) (h : FollowsLeader leader follower)
    (hs : leader.snapshotIndex ≤ p) (hsf : p < follower.snapshotIndex) :
    ∃ follower', placeEntries follower (requestFrom leader p prev) reply =
      .ok (follower', { reply with success := true }) ∧ Replicated leader follower' := by
  have hshort : ¬ p > follower.log.lastIndex := by
    have := h.coherent.snapshotIndex_le
    omega
  have hidx := h.coherent.index0
  have hpos : follower.snapshotIndex - p - 1 = follower.snapshotIndex - (p + 1) := by omega
  cases hget : (requestFrom leader p prev).entries[follower.snapshotIndex - p - 1]? with
  | none =>
    refine ⟨_, placeEntries_below hshort hsf hget, fun i hi hif hle => ?_⟩
    -- the leader's log does not reach the snapshot
    obtain ⟨e, he⟩ := hL.entry (i := follower.snapshotIndex) (by omega) (by omega)
    rw [hpos, (entry_of_request hL hsf hs).mpr he] at hget
    cases hget
  | some e =>
    have he := (entry_of_request hL hsf hs).mp (by rwa [hpos] at hget)
    have hne : (requestFrom leader p prev).entries.drop (follower.snapshotIndex - p - 1) ≠ [] := by
      have hlt := (List.getElem?_eq_some_iff.mp hget).1
      exact List.ne_nil_of_length_pos (by rw [List.length_drop]; omega)
    obtain ⟨lg, hplace, -, -, hwrite⟩ := Log.place_spec follower.log follower.snapshotIndex
      ((requestFrom leader p prev).entries.drop (follower.snapshotIndex - p - 1)) hidx.le
      (by omega) (Or.inr hne)
    refine ⟨_, placeEntries_across hshort hsf hget (h.snapshot e he) hplace,
      fun i hi hif hle => ?_⟩
    rw [snapshotIndex_followerCommit] at hif
    have hif : follower.snapshotIndex < i := hif
    rw [log_followerCommit]
    obtain ⟨x, hx⟩ := hL.entry hi.le hle
    refine ⟨x, hx, hwrite i x hif.le ?_⟩
    rw [List.getElem?_drop, show follower.snapshotIndex - p - 1 + (i - follower.snapshotIndex) =
      i - (p + 1) by omega]
    exact (entry_of_request hL (by omega) hs).mpr hx

/-- The follower has another entry there, above its snapshot and above what it has applied, and
cuts its log. -/
lemma answer_conflict (h : FollowsLeader leader follower) (hprev : leader.log.entry p = .ok prev)
    (hsf : follower.snapshotIndex ≤ p) {own : Entry C} (hown : follower.log.entry p = .ok own)
    (ht : prev.term ≠ own.term) :
    ∃ follower', placeEntries follower (requestFrom leader p prev) reply =
        .ok (follower', { reply with
          conflictTerm := own.term, conflictIndex := p, success := false }) ∧
      FollowsLeader leader follower' ∧ follower.snapshotIndex < p ∧
      follower'.log.lastIndex + 1 = p := by
  have hidx := h.coherent.index0
  have hrange := Log.range_of_entry hown
  have hsf' : follower.snapshotIndex < p := by
    rcases Nat.lt_or_eq_of_le hsf with hlt | rfl
    · exact hlt
    · exact absurd (h.head h.coherent hprev hown) ht
  have happlied : follower.lastApplied < p := by
    by_contra hle
    exact ht (h.applied p prev own (by omega) hprev hown)
  obtain ⟨lg, hcut, hidx', hlen, hread⟩ := Log.cutOffTail_spec follower.log p (by omega)
    (by omega)
  have hlast : lg.lastIndex + 1 = p := by
    unfold Log.lastIndex
    omega
  refine ⟨_, placeEntries_conflict (not_lt.mpr (le_lastIndex hown)) (not_lt.mpr hsf) hown ht.symm
    hcut, ⟨⟨?_, h.snapshot, ?_, ?_⟩, h.term, ⟨hidx'.trans hidx, ?_⟩⟩, hsf', hlast⟩
  · intro i e e' hi hif he he' hterm j hj hjl hjf
    obtain ⟨hlt, he'⟩ := (hread i e').mp he'
    have heq := h.logMatching i e e' hi hif he he' hterm j hj hjl hjf
    obtain ⟨x, hx⟩ : ∃ x, follower.log.entry j = .ok x :=
      Log.exists_entry (by rw [hidx]; exact hjf.le) (by omega)
    rw [heq, hx]
    exact ((hread j x).mpr ⟨by omega, hx⟩).symm
  · exact Nat.lt_succ_iff.mp (lt_of_lt_of_eq happlied hlast.symm)
  · intro i e e' hi he he'
    exact h.applied i e e' hi he ((hread i e').mp he').2
  · obtain ⟨x, hx, hterm⟩ := h.coherent.head
    exact ⟨x, (hread _ x).mpr ⟨hsf', hx⟩, hterm⟩

end Answers

/-! ### Convergence -/

variable [Inhabited C]

/-- After some rounds an `AppendEntries` succeeds, and the follower has the leader's entries. -/
def Converges (peer : Fin n) (leader rf follower : Raft n C) : Prop :=
  ∃ k rf₁ follower₁, rounds peer k rf follower = .ok (rf₁, follower₁) ∧
    ∃ args reply follower₂,
      exchange peer rf₁ follower₁ = .ok (follower₂, .appendEntries args reply) ∧
      reply.success = true ∧ Replicated leader follower₂

lemma Converges.later {rf rf' : Raft n C} (h : Converges peer leader rf' follower')
    (hround : round peer rf follower = .ok (rf', follower')) :
    Converges peer leader rf follower := by
  obtain ⟨k, rf₁, follower₁, hrounds, hlast⟩ := h
  refine ⟨k + 1, rf₁, follower₁, ?_, hlast⟩
  rw [rounds, hround]
  exact hrounds

lemma exchange_append {rf : Raft n C} {args : AppendEntriesArgs n C} {reply : AppendEntriesReply}
    (hsend : replicate rf peer = .ok (.appendEntries args))
    (hanswer : appendEntries follower args = .ok (follower', reply)) :
    exchange peer rf follower = .ok (follower', .appendEntries args reply) := by
  simp only [exchange, hsend, handle, hanswer, bind, Except.bind, pure, Except.pure]

lemma round_append {rf rf' : Raft n C} {args : AppendEntriesArgs n C} {reply : AppendEntriesReply}
    (hex : exchange peer rf follower = .ok (follower', .appendEntries args reply))
    (hreply : sendAppendEntries rf peer args reply = .ok rf') :
    round peer rf follower = .ok (rf', follower') := by
  simp only [round, hex, settle, hreply, bind, Except.bind, pure, Except.pure]

/-- A request is answered with success, or reports where the follower's log ends or departs from
the leader's; then it has been cut there. -/
lemma exchange_cases (hL : Coherent leader) (h : FollowsLeader leader follower) {p : ℕ}
    (hp : next peer = p + 1) (hm : mtch peer ≤ p) (hs : leader.snapshotIndex ≤ p)
    (hle : p ≤ leader.log.lastIndex) :
    ∃ args reply follower', exchange peer (withPeers leader next mtch) follower =
        .ok (follower', .appendEntries args reply) ∧
      (reply.success = true ∧ Replicated leader follower' ∨
        reply.success = false ∧ args.term = leader.currentTerm ∧
        reply.term = leader.currentTerm ∧ FollowsLeader leader follower' ∧
        (reply.conflictIndex = follower.log.lastIndex ∧ follower.log.lastIndex < p ∧
            follower'.log.lastIndex = follower.log.lastIndex ∨
          reply.conflictIndex = p ∧ p ≤ follower.log.lastIndex ∧ follower.snapshotIndex < p ∧
            follower'.log.lastIndex + 1 = p)) := by
  obtain ⟨prev, hprev⟩ := hL.entry hs hle
  have hsend := replicate_request hL hp hm hs hprev
  have hf := h.heard leader.me
  obtain ⟨hsnap, -, hlog, -⟩ := heardFrom_unchanged follower leader.currentTerm leader.me
  have heq : appendEntries follower (requestFrom leader p prev) =
      placeEntries (heardFrom follower leader.currentTerm leader.me) (requestFrom leader p prev)
        ⟨follower.currentTerm, 0, 0, false⟩ := appendEntries_eq h.term.le
  set f := heardFrom follower leader.currentTerm leader.me
  rw [← hlog, ← hsnap]
  rcases Nat.lt_or_ge f.log.lastIndex p with hshort | hlong
  · obtain ⟨last, hlast⟩ := hf.coherent.entry hf.coherent.snapshotIndex_le le_rfl
    refine ⟨_, _, f, exchange_append hsend (heq.trans (placeEntries_short hshort hlast)),
      Or.inr ⟨rfl, rfl, h.term, hf, Or.inl ⟨rfl, hshort, rfl⟩⟩⟩
  rcases Nat.lt_or_ge p f.snapshotIndex with hbelow | hsf
  · obtain ⟨follower', hplace, hrep⟩ := answer_below hL hf hs hbelow
    exact ⟨_, _, follower', exchange_append hsend (heq.trans hplace), Or.inl ⟨rfl, hrep⟩⟩
  obtain ⟨own, hown⟩ := hf.coherent.entry hsf hlong
  by_cases ht : prev.term = own.term
  · obtain ⟨follower', hplace, hrep⟩ := answer_match hL hf hs hprev hsf hown ht
    exact ⟨_, _, follower', exchange_append hsend (heq.trans hplace), Or.inl ⟨rfl, hrep⟩⟩
  · obtain ⟨follower', hplace, hf', hsf', hlast⟩ := answer_conflict hf hprev hsf hown ht
    exact ⟨_, _, follower', exchange_append hsend (heq.trans hplace),
      Or.inr ⟨rfl, rfl, h.term, hf', Or.inr ⟨rfl, hlong, hsf', hlast⟩⟩⟩

omit [Inhabited C] in
/-- The leader rolls back to where the conflict is or before, and not below its log if the
conflict is in there. -/
lemma settle_conflict (hlead : leader.role = .leader) (hL : Coherent leader) (next : Fin n → ℕ)
    {args : AppendEntriesArgs n C} {reply : AppendEntriesReply} (hm : mtch peer = 0)
    (hargs : args.term = leader.currentTerm) (hterm : reply.term = leader.currentTerm)
    (hs : reply.success = false) (hci : reply.conflictIndex ≤ leader.log.lastIndex) :
    ∃ v, sendAppendEntries (withPeers leader next mtch) peer args reply =
        .ok (withPeers leader (update next peer (v + 1)) mtch) ∧
      v ≤ reply.conflictIndex ∧ (v = reply.conflictIndex ∨ leader.snapshotIndex ≤ v) := by
  have hidx : (withPeers leader next mtch).log.index0 =
      (withPeers leader next mtch).snapshotIndex := hL.index0
  have hlen := hL.length
  obtain ⟨v, hv, hvle, hpast⟩ := rollBack_spec hidx reply
    (show reply.conflictIndex < leader.log.index0 + leader.log.entries.length by omega)
  refine ⟨v, ?_, hvle, ?_⟩
  · have hnot : ¬ (args.term ≠ (withPeers leader next mtch).currentTerm ∨
        (withPeers leader next mtch).role ≠ .leader) := by
      rintro (h | h)
      · exact h hargs
      · exact h hlead
    rw [sendAppendEntries_conflict hnot hs (not_lt.mpr hterm.le) rfl rfl hv, hm,
      max_eq_right (by omega)]
    rfl
  · rcases Nat.lt_or_eq_of_le hvle with hlt | heq
    · exact Or.inr (hpast _ hlt le_rfl).1
    · exact Or.inl heq

def snapshotOf (leader : Raft n C) : InstallSnapshotArgs n :=
  ⟨leader.currentTerm, leader.me, leader.snapshotIndex, leader.snapshotTerm, leader.snapshot⟩

def installed (leader follower : Raft n C) : Raft n C :=
  persist { heardFrom follower leader.currentTerm leader.me with
    log := ⟨[⟨leader.snapshotTerm, default⟩], leader.snapshotIndex⟩
    snapshotIndex := leader.snapshotIndex
    snapshotTerm := leader.snapshotTerm
    snapshot := leader.snapshot }

lemma entry_installed {i : ℕ} {e : Entry C}
    (he : (installed leader follower).log.entry i = .ok e) : i = leader.snapshotIndex := by
  obtain ⟨hge, hlt⟩ := Log.range_of_entry he
  have hge : leader.snapshotIndex ≤ i := hge
  have hlt : i < leader.snapshotIndex + 1 := hlt
  omega

lemma followsLeader_installed (hL : Coherent leader) (h : FollowsLeader leader follower)
    (hlast : follower.log.lastIndex < leader.snapshotIndex) :
    FollowsLeader leader (installed leader follower) := by
  have happlied : (installed leader follower).lastApplied < leader.snapshotIndex := by
    have hsame := (heardFrom_unchanged follower leader.currentTerm leader.me).2.1
    calc (installed leader follower).lastApplied = follower.lastApplied := hsame
      _ ≤ follower.log.lastIndex := h.applied_le
      _ < leader.snapshotIndex := hlast
  refine ⟨⟨fun i e e' hi _ _ he' => ?_, fun e he => ?_, happlied.le, fun i e e' hi _ he' => ?_⟩,
    (h.heard leader.me).term,
    ⟨rfl, ⟨leader.snapshotTerm, default⟩, Log.entry_eq le_rfl (by simp [installed, persist]), rfl⟩⟩
  · exact absurd (entry_installed he') hi.ne'
  · obtain ⟨x, hx, ht⟩ := hL.head
    have hsame : e = x := Except.ok.inj (he.symm.trans hx)
    exact hsame ▸ ht
  · exact absurd (entry_installed he') (hi.trans_lt happlied).ne

lemma round_install (h : FollowsLeader leader follower) {p : ℕ} (hp : next peer = p + 1)
    (hm : mtch peer = 0) (hs : p < leader.snapshotIndex)
    (hlast : follower.log.lastIndex < leader.snapshotIndex) :
    round peer (withPeers leader next mtch) follower =
      .ok (withPeers leader (update next peer (leader.snapshotIndex + 1))
        (update mtch peer leader.snapshotIndex), installed leader follower) := by
  have hnext : (withPeers leader next mtch).nextIndex = some next := rfl
  have hmtch : (withPeers leader next mtch).matchIndex = some mtch := rfl
  have hsend : replicate (withPeers leader next mtch) peer =
      .ok (.installSnapshot (snapshotOf leader)) :=
    replicate_snapshot hnext hmtch (by omega) (show next peer - 1 < leader.snapshotIndex by omega)
  have hsf := h.coherent.snapshotIndex_le
  have happlied := h.applied_le
  have hanswer : installSnapshot follower (snapshotOf leader) =
      .ok (installed leader follower, ⟨follower.currentTerm⟩) :=
    installSnapshot_drop h.term.le (hsf.trans_lt hlast) (happlied.trans_lt hlast)
      (not_lt.mpr hlast.le)
  have hreply : sendInstallSnapshot (withPeers leader next mtch) peer (snapshotOf leader)
      ⟨follower.currentTerm⟩ = .ok (withPeers leader
        (update next peer (leader.snapshotIndex + 1)) (update mtch peer leader.snapshotIndex)) :=
    sendInstallSnapshot_matched rfl (not_lt.mpr h.term.le) hmtch hnext
      (show mtch peer < leader.snapshotIndex by omega)
  simp only [round, exchange, hsend, handle, hanswer, settle, hreply, bind, Except.bind, pure,
    Except.pure]

/-- The request after the snapshot succeeds. -/
lemma converges_installed (hL : Coherent leader) (h : FollowsLeader leader follower)
    (hlast : follower.log.lastIndex < leader.snapshotIndex)
    (hnext : next peer = leader.snapshotIndex + 1) (hm : mtch peer = leader.snapshotIndex) :
    Converges peer leader (withPeers leader next mtch) (installed leader follower) := by
  have hf := followsLeader_installed hL h hlast
  obtain ⟨args, reply, follower', hex, hok | ⟨-, -, -, -, hno⟩⟩ := exchange_cases hL hf hnext hm.le
    le_rfl hL.snapshotIndex_le
  · exact ⟨0, _, _, rfl, args, reply, follower', hex, hok⟩
  · have hend : (installed leader follower).log.lastIndex = leader.snapshotIndex := rfl
    have hstart : (installed leader follower).snapshotIndex = leader.snapshotIndex := rfl
    omega

/-- The rounds that are left: the follower's log gets shorter, or is no longer too short for the
next request. -/
lemma converges_of_follows (hlead : leader.role = .leader) (hL : Coherent leader) (m : ℕ)
    (h : FollowsLeader leader follower) {p : ℕ} (hp : next peer = p + 1) (hm : mtch peer = 0)
    (hle : p ≤ leader.log.lastIndex)
    (hs : leader.snapshotIndex ≤ p ∨ follower.log.lastIndex < leader.snapshotIndex)
    (hmeasure : 2 * follower.log.lastIndex + (if follower.log.lastIndex < p then 1 else 0) ≤ m) :
    Converges peer leader (withPeers leader next mtch) follower := by
  induction m using Nat.strong_induction_on generalizing follower next p with
  | h m ih =>
    rcases Nat.lt_or_ge p leader.snapshotIndex with hsnap | hsnap
    · have hlast := hs.resolve_left (not_le.mpr hsnap)
      exact (converges_installed hL h hlast (update_self _ _ _) (update_self _ _ _)).later
        (round_install h hp hm hsnap hlast)
    obtain ⟨args, reply, follower', hex, hok | ⟨hfail, hargs, hterm, hf, hwhere⟩⟩ :=
      exchange_cases hL h hp (show mtch peer ≤ p by omega) hsnap hle
    · exact ⟨0, _, _, rfl, args, reply, follower', hex, hok⟩
    have hci : reply.conflictIndex ≤ p := by
      rcases hwhere with ⟨hc, hlt, -⟩ | ⟨hc, -⟩ <;> omega
    obtain ⟨v, hsettle, hv, hvs⟩ := settle_conflict hlead hL next hm hargs hterm hfail
      (hci.trans hle)
    refine Converges.later ?_ (round_append hex hsettle)
    rcases hwhere with ⟨hc, hlt, hlast⟩ | ⟨hc, hge, -, hlast⟩
    · -- the follower is too short, and the next request is not above its end
      rw [if_pos hlt] at hmeasure
      refine ih (2 * follower.log.lastIndex) (by omega) hf (update_self _ _ _) (by omega) (by omega)
        ?_
      rw [hlast, if_neg (by omega), Nat.add_zero]
    · -- the follower has cut its log
      refine ih (2 * follower'.log.lastIndex + 1) (by omega) hf (update_self _ _ _) (by omega)
        (by omega) ?_
      split <;> omega

/-- **Backing off converges.** From `nextIndex` behind its last entry and nothing matched, a leader
and a follower of its term whose logs match come in finitely many rounds to an `AppendEntries`
that succeeds, and then the follower has the leader's entries at every index above both snapshots
up to the leader's last one. -/
theorem backoff_converges (peer : Fin n) (leader follower : Raft n C)
    (hlead : leader.role = .leader) (hterm : follower.currentTerm = leader.currentTerm)
    (hL : Coherent leader) (hF : Coherent follower) (h : Agrees leader follower)
    (hnext : atPeer leader.nextIndex peer = .ok (leader.log.lastIndex + 1))
    (hmatch : atPeer leader.matchIndex peer = .ok 0) :
    ∃ k leader₁ follower₁, rounds peer k leader follower = .ok (leader₁, follower₁) ∧
      ∃ args reply follower₂,
        exchange peer leader₁ follower₁ = .ok (follower₂, .appendEntries args reply) ∧
        reply.success = true ∧
        ∀ i, leader.snapshotIndex < i → follower₂.snapshotIndex < i → i ≤ leader.log.lastIndex →
          ∃ e, leader.log.entry i = .ok e ∧ follower₂.log.entry i = .ok e := by
  obtain ⟨next, hn⟩ : ∃ next, leader.nextIndex = some next := by
    cases hn : leader.nextIndex with
    | none => rw [hn] at hnext; cases hnext
    | some next => exact ⟨next, rfl⟩
  obtain ⟨mtch, hm⟩ : ∃ mtch, leader.matchIndex = some mtch := by
    cases hm : leader.matchIndex with
    | none => rw [hm] at hmatch; cases hmatch
    | some mtch => exact ⟨mtch, rfl⟩
  rw [hn] at hnext
  rw [hm] at hmatch
  have hself : withPeers leader next mtch = leader := by rw [withPeers, ← hn, ← hm]
  have hconv := converges_of_follows hlead hL _ ⟨h, hterm, hF⟩ (Except.ok.inj hnext)
    (Except.ok.inj hmatch) le_rfl (Or.inl hL.snapshotIndex_le) le_rfl
  rwa [hself] at hconv

/-- A leader of term `3` that has compacted the first two of its three entries. -/
def ahead (me : Fin n) : Raft n ℕ :=
  { (blank me makePersister : Raft n ℕ) with
    currentTerm := 3
    log := ⟨[⟨1, 8⟩, ⟨3, 5⟩], 2⟩
    snapshotIndex := 2
    snapshotTerm := 1
    nextIndex := some fun _ => 4
    matchIndex := some fun _ => 0
    role := .leader }

/-- A follower with other entries from index `2` on, of which it has applied none. -/
def astray (me : Fin n) : Raft n ℕ :=
  { (blank me makePersister : Raft n ℕ) with
    currentTerm := 3
    log := ⟨[⟨0, 0⟩, ⟨1, 7⟩, ⟨2, 8⟩, ⟨2, 9⟩], 0⟩
    lastApplied := 1 }

lemma agrees_astray : Agrees (ahead (0 : Fin 3)) (astray (1 : Fin 3)) where
  logMatching := fun i e e' hi _ he he' ht => by
    have hlt : i < 4 := (Log.range_of_entry he).2
    have hgt : 2 < i := hi
    obtain rfl : i = 3 := by omega
    have h3 : (⟨3, 5⟩ : Entry ℕ) = e := Except.ok.inj he
    have h3' : (⟨2, 9⟩ : Entry ℕ) = e' := Except.ok.inj he'
    rw [← h3, ← h3'] at ht
    cases ht
  snapshot := fun e he => absurd (Log.range_of_entry he).1 (by decide)
  applied_le := by decide
  applied := fun i e e' hi he _ => by
    have hge : 2 ≤ i := (Log.range_of_entry he).1
    have hle : i ≤ 1 := hi
    omega

/-- Two rounds find conflicts, the third finds the follower too short, the fourth brings it the
snapshot, and the fifth succeeds. -/
theorem backoff_converges_astray :
    ∃ k leader₁ follower₁,
      rounds (1 : Fin 3) k (ahead 0) (astray 1) = .ok (leader₁, follower₁) ∧
      ∃ args reply follower₂,
        exchange 1 leader₁ follower₁ = .ok (follower₂, .appendEntries args reply) ∧
        reply.success = true ∧
        ∀ i, (ahead (0 : Fin 3)).snapshotIndex < i → follower₂.snapshotIndex < i →
          i ≤ (ahead (0 : Fin 3)).log.lastIndex →
          ∃ e, (ahead (0 : Fin 3)).log.entry i = .ok e ∧ follower₂.log.entry i = .ok e :=
  backoff_converges 1 (ahead 0) (astray 1) rfl rfl ⟨rfl, _, rfl, rfl⟩ ⟨rfl, _, rfl, rfl⟩
    agrees_astray rfl rfl

example : (rounds (1 : Fin 3) 4 (ahead 0) (astray 1)).map (fun r => r.2.log) =
    .ok ⟨[⟨1, 0⟩], 2⟩ := by
  decide +kernel

end Mit6824.RaftBackoff
