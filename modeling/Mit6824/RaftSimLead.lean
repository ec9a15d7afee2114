import Mit6824.RaftSimVote

/-!
The leader: it appends commands, sends what its peers lack, and counts their replies.
-/

namespace Mit6824.RaftSim

open Mit6824.Labgob Mit6824.Quorum Mit6824.TermLog Mit6824.Repl
open Mit6824.RaftLog Mit6824.RaftState Mit6824.RaftElection Mit6824.RaftReplication
open Mit6824.RaftApplier Mit6824.RaftCluster Function

variable {n : ℕ} {C : Type} [Coded (Persisted n C)] [Inhabited C] [Coded (List C)]
variable {K : Prop} {c : Cluster n C} {a : Abs n C} {i j : Fin n}

/-! ### The commands of a server -/

omit [Coded (Persisted n C)] [Inhabited C] in
lemma Shot.commands_eq {taken : List (TakenSnapshot n C)} {t : ℕ} {rf : Raft n C}
    {l : List (Entry C)}
    (h : Shot taken a t rf.snapshotIndex rf.snapshotTerm rf.snapshot) (hinv : Inv a) {u : ℕ}
    (hl : Decided a u l) (hlen : l.length = rf.snapshotIndex) :
    snapshotCommands rf = commands l := by
  obtain ⟨x, hx, hxlen, -, hdata⟩ := h
  obtain rfl := hinv.decided_eq hx hl (hxlen.trans hlen.symm)
  unfold snapshotCommands
  split
  · next h0 =>
    rw [h0] at hlen
    rw [List.length_eq_zero_iff.mp hlen]
    rfl
  · next h0 =>
    rw [(hdata (Nat.pos_of_ne_zero h0)).1, decode_encode]
    rfl

/-- A server whose log continues the prefix its snapshot covers has the commands of its whole
log. -/
lemma ServerOk.commandsOf_eq {taken : List (TakenSnapshot n C)} {sv : Server n C}
    (h : ServerOk K taken a i sv) (hinv : Inv a) {u : ℕ}
    (hco : Decided a u ((a.log i).take sv.raft.snapshotIndex)) :
    commandsOf sv.raft = commands (a.log i) := by
  have hm := h.mirror
  have hle := hm.log.le
  rw [hm.index0] at hle
  rw [commandsOf, h.shot.commands_eq hinv hco (by rw [List.length_take]; omega), hm.log.drop_one,
    hm.index0, commands, commands, ← List.map_append, List.take_append_drop]

/-- The log of a leader continues the prefix its snapshot covers. -/
lemma Sim.leader_coherent (h : Sim K c a) (hr : (c.servers i).raft.role = .leader) :
    Decided a (c.servers i).raft.currentTerm
      ((a.log i).take (c.servers i).raft.snapshotIndex) := by
  have hi := h.server i
  obtain ⟨l, hl, hlen, -⟩ := hi.shot
  have hlead := hi.mirror.lead hr
  have hp := h.inv.decided_prefix hl ⟨i, hlead⟩
  rw [← h.inv.log.own hlead hi.mirror.term] at hp
  rw [← hlen, ← List.prefix_iff_eq_take.mp hp]
  exact hl

lemma Sim.llog_eq (h : Sim K c a) (hr : (c.servers i).raft.role = .leader) :
    a.llog (c.servers i).raft.currentTerm = a.log i :=
  (h.inv.log.own ((h.server i).mirror.lead hr) (h.server i).mirror.term).symm

/-! ### New commands -/

omit [Coded (Persisted n C)] [Inhabited C] [Coded (List C)] in
lemma Recorded.propose {started : List (Started C)} {e : Entry C} (h : Recorded started a)
    (hl : a.lead (a.term j) = some j) (hown : a.log j = a.llog (a.term j)) :
    Recorded (⟨a.term j, commands (a.log j ++ [e])⟩ :: started) (propose a j e) := by
  intro t he k hk hkl
  have hk' : a.base t < k := hk
  by_cases ht : t = a.term j
  · subst ht
    rw [llog_propose_self] at hkl ⊢
    rcases Nat.lt_or_ge (a.llog (a.term j)).length k with hlt | hge
    · rw [List.take_of_length_le (by simp; omega), ← hown]
      exact List.mem_cons_self ..
    · rw [List.take_append_of_le_length hge]
      exact List.mem_cons_of_mem _ (h _ ⟨j, hl⟩ k hk' hge)
  · rw [llog_propose_of_ne ht] at hkl ⊢
    exact List.mem_cons_of_mem _ (h t he k hk' hkl)

/-- **A leader appends a command.** -/
lemma Sim.start (h : Sim K c a) (cmd : C) :
    ∃ c', step c (.start j cmd) = some (.ok c') ∧ ∃ b, Reach a b ∧ Sim K c' b := by
  by_cases hr : (c.servers j).raft.role = .leader
  swap
  · exact ⟨c, by simp [step, RaftState.start, hr], a, .refl, h⟩
  have hj := h.server j
  have hm := hj.mirror
  have hown := h.inv.log.own (hm.lead hr) hm.term
  set e : Entry C := ⟨(c.servers j).raft.currentTerm, cmd⟩ with he
  set rf : Raft n C :=
    persistSate { (c.servers j).raft with log := (c.servers j).raft.log.append [e] } with hrf
  have hlead : a.lead (a.term j) = some j := by rw [hm.term]; exact hm.lead hr
  have hact : Act j a (propose a j e) := Act.propose hlead hm.term.symm
  have hE := h.inv.ext hact.reach
  have hret : Retains rf.log ((propose a j e).log j) := by
    rw [log_propose_self]
    exact hm.log.append e
  have hok : ServerOk K c.taken (propose a j e) j ((c.servers j).setRaft rf) := by
    exact hj.progress h.inv hact.reach ⟨hm.me, hm.term, hm.held, hm.cand,
      fun hr => hE.lead (hm.lead hr), hm.snap, hm.index0, hret⟩
      (durable_persistSate hj.durable.snapshot) (hj.leading.ext hE hm rfl rfl rfl rfl) le_rfl rfl
      rfl rfl rfl rfl
  have hcmds : commandsOf rf = commands (a.log j ++ [e]) := by
    have hco := h.leader_coherent hr
    have hle := hm.log.le
    rw [hm.index0] at hle
    have := hok.commandsOf_eq (h.inv.reach hact.reach) (u := (c.servers j).raft.currentTerm) ?_
    · simpa using this
    · have htake : ((propose a j e).log j).take (c.servers j).raft.snapshotIndex =
          (a.log j).take (c.servers j).raft.snapshotIndex := by
        rw [log_propose_self, List.take_append_of_le_length hle]
      show Decided _ _ (((propose a j e).log j).take (c.servers j).raft.snapshotIndex)
      rw [htake]
      exact hco.ext hE
  refine ⟨{ c.setRaft j rf with
    started := ⟨(c.servers j).raft.currentTerm, commandsOf rf⟩ :: c.started },
    by simp [step, RaftState.start, hr, hrf, he], propose a j e, hact.reach, ?_⟩
  refine (h.addStarted _).actRaft hact hok (Or.inr ⟨rfl, fun h => h⟩) ?_
  rw [hcmds, ← hm.term]
  exact h.started.propose hlead (hm.term.symm ▸ hown)

/-! ### Requests -/

def SendOk (taken : List (TakenSnapshot n C)) (a : Abs n C) (s : Fin n) (epoch : ℕ) (p : Fin n) :
    Send n C → Prop
  | .appendEntries args => AppendOk a (callTo s epoch args p)
  | .installSnapshot args => SnapshotOk taken a (callTo s epoch args p)

lemma Sim.replicate (h : Sim K c a) (hr : (c.servers j).raft.role = .leader) {p : Fin n}
    (hp : p ≠ j) (epoch : ℕ) :
    ∃ m, RaftReplication.replicate (c.servers j).raft p = .ok m ∧
      SendOk c.taken a j epoch p m := by
  have hj := h.server j
  have hm := hj.mirror
  have hlead := hm.lead hr
  have hel : Elected a (c.servers j).raft.currentTerm := ⟨j, hlead⟩
  have hown := h.llog_eq hr
  obtain ⟨next, mtch, hn, hmt, hpeers⟩ := hj.leading hr
  obtain ⟨hlt, hle, hpeer⟩ := hpeers p
  have hpeer := hpeer hp
  by_cases hs : next p - 1 < (c.servers j).raft.snapshotIndex
  · refine ⟨_, replicate_snapshot hn hmt hlt hs, ?_⟩
    rw [hm.me]
    refine ⟨hlead, hp.symm, by simp [callTo]; omega, hj.shot, ?_, by simp [callTo]⟩
    intro hb
    simp only [callTo] at hb
    exact hpeer.aligned (by omega)
  · rw [hown] at hle
    have hprev : next p - 1 ≤ (a.log j).length := by omega
    have hstart : (c.servers j).raft.log.index0 ≤ next p - 1 := by rw [hm.index0]; omega
    obtain ⟨e, he, hterm, -⟩ := hm.log.entry hstart hprev
    refine ⟨_, replicate_append hn hmt hlt hs he (hm.log.slice hstart hprev), ?_⟩
    rw [hm.me]
    obtain ⟨l, hl, hlen, -⟩ := hj.commit
    have hup : next p - 1 + ((a.log j).drop (next p - 1)).length = (a.log j).length := by
      rw [List.length_drop]; omega
    refine ⟨hlead, hp.symm, ?_, ?_, ?_, ?_, ⟨l, hl, hlen, ?_⟩, ?_, by simp [callTo],
      by simp [callTo]⟩
    · simp only [callTo, hown, hterm]
    · simp only [callTo, upTo, hown, hup, List.take_append_drop, List.take_length]
    · simp only [callTo, upTo, hown, hup, le_refl]
    · simp only [callTo, upTo, hup]
      rw [← hown]
      exact h.inv.log.base_le hel
    · simp only [callTo, upTo, hup]
      rw [← hown]
      exact (h.inv.decided_prefix hl hel).length_le
    · intro hb
      simp only [callTo] at hb
      exact hpeer.aligned (by omega)

lemma mapM_ok {α β : Type} {f : α → Except Panic β} {Q : α → β → Prop} {l : List α}
    (h : ∀ x ∈ l, ∃ y, f x = .ok y ∧ Q x y) :
    ∃ ys, l.mapM f = .ok ys ∧ ∀ y ∈ ys, ∃ x ∈ l, Q x y := by
  induction l with
  | nil => exact ⟨[], rfl, by simp⟩
  | cons x l ih =>
    obtain ⟨y, hy, hq⟩ := h x (List.mem_cons_self ..)
    obtain ⟨ys, hys, hall⟩ := ih fun z hz => h z (List.mem_cons_of_mem _ hz)
    refine ⟨y :: ys, by simp [List.mapM_cons, hy, hys, bind, Except.bind, pure, Except.pure], ?_⟩
    intro z hz
    rcases List.mem_cons.mp hz with rfl | hmem
    · exact ⟨x, List.mem_cons_self .., hq⟩
    · obtain ⟨w, hw, hwq⟩ := hall z hmem
      exact ⟨w, List.mem_cons_of_mem _ hw, hwq⟩

lemma Sim.send (h : Sim K c a) (hr : (c.servers j).raft.role = .leader)
    {ms : List (Fin n × Send n C)}
    (hms : ∀ pm ∈ ms, SendOk c.taken a j (c.servers j).epoch pm.1 pm.2) :
    Sim K (c.send j ms) a := by
  have hsnap : ∀ call ∈ (c.send j ms).snapshotCalls, call ∈ c.snapshotCalls ∨
      (SnapshotOk c.taken a call ∧ call.src = j ∧ call.epoch = (c.servers j).epoch) := by
    intro call hcall
    rcases List.mem_append.mp hcall with hold | hin
    · exact Or.inl hold
    · obtain ⟨⟨p, m⟩, hpm, hm⟩ := List.mem_filterMap.mp hin
      have hok := hms _ hpm
      cases m with
      | appendEntries args => simp at hm
      | installSnapshot args =>
        simp only [Option.some.injEq] at hm
        subst hm
        exact Or.inr ⟨hok, rfl, rfl⟩
  refine ⟨h.inv, h.server, h.votes, h.keys, h.elections, ?_, ?_, ?_, h.delivered, h.started⟩
  · intro call hcall
    rcases List.mem_append.mp hcall with hold | hin
    · exact h.appends call hold
    · obtain ⟨⟨p, m⟩, hpm, hm⟩ := List.mem_filterMap.mp hin
      have hok := hms _ hpm
      cases m with
      | appendEntries args =>
        simp only [Option.some.injEq] at hm
        subst hm
        exact hok
      | installSnapshot args => simp at hm
  · intro call hcall
    rcases hsnap call hcall with hold | ⟨hok, -⟩
    · exact h.snapshots call hold
    · exact hok
  · intro call hcall
    rcases hsnap call hcall with hold | ⟨-, hsrc, hep⟩
    · exact h.leads call hold
    · subst hsrc
      exact ⟨hep.le, fun _ _ => hr⟩

/-- **A leader sends a round of requests.** -/
lemma Sim.leaderHeartbeat (h : Sim K c a) {r : Except Panic (Cluster n C)}
    (hs : step c (.leaderHeartbeat j) = some r) :
    ∃ c', r = .ok c' ∧ ∃ b, Reach a b ∧ Sim K c' b := by
  by_cases hr : (c.servers j).raft.role = .leader
  swap
  · simp [step, hr] at hs
  have hround : ∃ ms, leaderLogReplication (c.servers j).raft = .ok ms ∧
      ∀ pm ∈ ms, ∃ p ∈ (List.finRange n).filter fun p => p ≠ (c.servers j).raft.me,
        SendOk c.taken a j (c.servers j).epoch pm.1 pm.2 := by
    refine mapM_ok fun p hp => ?_
    have hne : p ≠ j := by
      have := (List.mem_filter.mp hp).2
      rw [(h.server j).mirror.me] at this
      simpa using this
    obtain ⟨m, hm, hok⟩ := h.replicate hr hne (c.servers j).epoch
    exact ⟨(p, m), by simp [hm, bind, Except.bind, pure, Except.pure], hok⟩
  obtain ⟨ms, hms, hall⟩ := hround
  simp only [step, hr, if_true, hms, bind, Except.bind, pure, Except.pure,
    Option.some.injEq] at hs
  refine ⟨_, hs.symm, a, .refl, h.send hr fun pm hpm => ?_⟩
  obtain ⟨p, -, hok⟩ := hall pm hpm
  exact hok

/-! ### Replies -/

lemma Sim.setPeers (h : Sim K c a) {next mtch : Fin n → ℕ}
    (hp : ∀ p, mtch p < next p ∧ next p ≤ (a.llog (c.servers j).raft.currentTerm).length + 1 ∧
      (p ≠ j → Peer a (c.servers j).raft.currentTerm p (next p) (mtch p))) :
    Sim K (c.setRaft j { (c.servers j).raft with
      nextIndex := some next, matchIndex := some mtch }) a := by
  have hj := h.server j
  have hm := hj.mirror
  refine h.actRaft (Act.refl j a) ?_ (Or.inr ⟨rfl, fun h => h⟩) h.started
  exact hj.adjust h.inv ⟨hm.me, hm.term, hm.held, hm.cand, hm.lead, hm.snap, hm.index0, hm.log⟩
    (hj.durable.volatile rfl rfl rfl rfl) (fun _ => ⟨next, mtch, rfl, rfl, hp⟩) rfl rfl rfl rfl
    rfl rfl

lemma Sim.setCommit (h : Sim K c a) {l : List (Entry C)}
    (hl : Decided a (c.servers j).raft.currentTerm l) (hlog : l <+: a.log j)
    (hge : (c.servers j).raft.commitIndex ≤ l.length) :
    Sim K (c.setRaft j { (c.servers j).raft with commitIndex := l.length }) a := by
  have hj := h.server j
  have hm := hj.mirror
  refine h.actRaft (Act.refl j a) ?_ (Or.inr ⟨rfl, fun h => h⟩) h.started
  exact ⟨⟨hm.me, hm.term, hm.held, hm.cand, hm.lead, hm.snap, hm.index0, hm.log⟩,
    hj.durable.volatile rfl rfl rfl rfl, hj.shot, hj.coherent, ⟨l, hl, rfl, Or.inl hlog⟩,
    hj.applied.trans hge, hj.leading.ext (Ext.refl a) hm rfl rfl rfl rfl,
    hj.serving.mono (Ext.refl a) (List.Subset.refl _) le_rfl rfl hge le_rfl rfl rfl⟩

/-- A server acknowledges to itself what it has of the leader's log. -/
lemma Sim.acknowledge (h : Sim K c a) {l : List (Entry C)}
    (he : Elected a (c.servers j).raft.currentTerm)
    (hl : l <+: a.llog (c.servers j).raft.currentTerm) (hlog : l <+: a.log j) :
    Act j a (acknowledge a j l.length) ∧ Sim K c (acknowledge a j l.length) := by
  have hj := h.server j
  have hm := hj.mirror
  rw [← hm.term] at he hl
  have hact : Act j a (Repl.acknowledge a j l.length) := Act.acknowledge he hl hlog
  have hE := h.inv.ext hact.reach
  refine ⟨hact, ?_⟩
  have hm' : Mirror (Repl.acknowledge a j l.length) j (c.servers j).raft :=
    ⟨hm.me, hm.term, hm.held, hm.cand, hm.lead, hm.snap, hm.index0, hm.log⟩
  have hok := hj.progress h.inv hact.reach hm' hj.durable
    (hj.leading.ext hE hm rfl rfl rfl rfl) le_rfl rfl rfl rfl rfl rfl
  have := h.actRaft hact hok (Or.inr ⟨rfl, fun h => h⟩) h.started
  rwa [setRaft_self] at this

omit [Coded (Persisted n C)] [Inhabited C] [Coded (List C)] in
lemma leaderCommit_spec (rf : Raft n C) {f : Fin n → ℕ} {l : List (Entry C)}
    (hf : rf.matchIndex = some f) (hme : rf.me = j) (hret : Retains rf.log l)
    (hidx : rf.log.index0 = rf.snapshotIndex) (hb : ∀ p, f p ≤ l.length) :
    ∃ k, leaderCommit rf = .ok { rf with commitIndex := k } ∧ (k = rf.commitIndex ∨
      (rf.commitIndex < k ∧ (sorted (update f j l.length))[(n + 1) / 2 - 1]? = some k ∧
        (termAt l k = rf.currentTerm ∨ (sorted (update f j l.length))[0]? = some k))) := by
  set g := update f j l.length with hg
  have hpos : 0 < n := rf.me.pos
  have hgb : ∀ p, g p ≤ l.length := by
    intro p
    by_cases hp : p = j
    · subst hp; simp [hg]
    · simpa [hg, hp] using hb p
  obtain ⟨k, hk⟩ : ∃ k, (sorted g)[(n + 1) / 2 - 1]? = some k :=
    ⟨_, List.getElem?_eq_getElem (by rw [sorted_length]; omega)⟩
  obtain ⟨m, hm⟩ : ∃ m, (sorted g)[0]? = some m :=
    ⟨_, List.getElem?_eq_getElem (by rw [sorted_length]; omega)⟩
  have hsort : getSortedMatchIndex rf = .ok (sorted g) := by
    simp [getSortedMatchIndex, hf, hg, hme, hret.lastIndex]
  simp only [leaderCommit, hsort, bind, Except.bind, pure, Except.pure, hk, hm]
  by_cases hs : k ≤ rf.snapshotIndex
  · exact ⟨rf.commitIndex, by rw [if_pos hs], Or.inl rfl⟩
  · obtain ⟨e, he, hte, -⟩ := hret.entry (i := k) (by omega) (sorted_le g hk hgb)
    simp only [if_neg hs, he, hte]
    by_cases hc : (termAt l k = rf.currentTerm ∨ k = m) ∧ k > rf.commitIndex
    · exact ⟨k, by rw [if_pos hc], Or.inr ⟨hc.2, rfl, hc.1.imp id fun h => by rw [h]⟩⟩
    · exact ⟨rf.commitIndex, by rw [if_neg hc], Or.inl rfl⟩

/-- **Both commit routes are safe.** The index `leaderCommit` takes is that of a decided
prefix. -/
lemma Sim.median_decided (h : Sim K c a) (hr : (c.servers j).raft.role = .leader)
    (hself : (a.log j).length ≤ a.ack j (c.servers j).raft.currentTerm) {f : Fin n → ℕ} {k : ℕ}
    (hb : ∀ p, f p ≤ (a.log j).length)
    (hf : ∀ p, p ≠ j → f p ≤ a.ack p (c.servers j).raft.currentTerm ∨
      ∃ l, Decided a (c.servers j).raft.currentTerm l ∧ f p ≤ l.length)
    (hk : (sorted (update f j (a.log j).length))[(n + 1) / 2 - 1]? = some k)
    (hor : termAt (a.log j) k = (c.servers j).raft.currentTerm ∨
      (sorted (update f j (a.log j).length))[0]? = some k) :
    k ≤ (a.log j).length ∧
      Decided a (c.servers j).raft.currentTerm ((a.log j).take k) := by
  have hown := h.llog_eq hr
  have hel : Elected a (c.servers j).raft.currentTerm := ⟨j, (h.server j).mirror.lead hr⟩
  set g := update f j (a.log j).length with hg
  have hgb : ∀ p, g p ≤ (a.log j).length := by
    intro p
    by_cases hp : p = j
    · subst hp; simp [hg]
    · simpa [hg, hp] using hb p
  have hkl : k ≤ (a.log j).length := sorted_le g hk hgb
  have hknow : ∀ q, k ≤ g q → k ≤ a.ack q (c.servers j).raft.currentTerm ∨
      ∃ l, Decided a (c.servers j).raft.currentTerm l ∧ k ≤ l.length := by
    intro q hq
    by_cases hqj : q = j
    · subst hqj; exact Or.inl (hkl.trans hself)
    · have hgq : g q = f q := by simp [hg, hqj]
      rw [hgq] at hq
      rcases hf q hqj with hack | ⟨l, hl, hle⟩
      · exact Or.inl (hq.trans hack)
      · exact Or.inr ⟨l, hl, hq.trans hle⟩
  refine ⟨hkl, ?_⟩
  rw [← hown] at hkl ⊢
  rcases hor with hterm | hleast
  · refine h.inv.counted hel hkl (Q := Finset.univ.filter fun p => k ≤ g p)
      (fun q hq => hknow q (Finset.mem_filter.mp hq).2) (Or.inl ⟨median_majority g k hk, ?_⟩)
    rw [hown]; exact hterm
  · exact h.inv.counted hel hkl (Q := Finset.univ)
      (fun q _ => hknow q (least_le g k hleast q)) (Or.inr rfl)

omit [Coded (Persisted n C)] [Inhabited C] [Coded (List C)] in
lemma rollBack_retains {rf : Raft n C} {l : List (Entry C)} (hret : Retains rf.log l)
    (hidx : rf.log.index0 = rf.snapshotIndex) {reply : AppendEntriesReply}
    (hci : reply.conflictIndex ≤ l.length) :
    ∃ v, rollBack rf reply = .ok (v + 1) ∧ v ≤ reply.conflictIndex ∧
      ∀ q, v < q → q ≤ reply.conflictIndex → termAt l q = termAt l reply.conflictIndex := by
  have hle := hret.le
  obtain ⟨v, hv, hvle, hpast⟩ := rollBack_spec hidx reply
    (by rw [hret.length_entries]; omega)
  refine ⟨v, hv, hvle, fun q hq hqi => ?_⟩
  obtain ⟨-, e, e', he, he', ht⟩ := hpast q hq hqi
  rw [← hret.term_of_entry he, ← hret.term_of_entry he', ht]

/-- The new index of a peer after a conflict still aligns it. -/
lemma Sim.rolled_aligned (h : Sim K c a) (hr : (c.servers j).raft.role = .leader) {q ci : ℕ}
    (hci : ci ≤ (a.log j).length)
    (hq : ∀ x, q ≤ x → x ≤ ci → termAt (a.log j) x = termAt (a.log j) ci)
    (hpos : 0 < q) (hb : q ≤ a.base (c.servers j).raft.currentTerm) :
    ci ≤ a.base (c.servers j).raft.currentTerm := by
  have hel : Elected a (c.servers j).raft.currentTerm := ⟨j, (h.server j).mirror.lead hr⟩
  rw [← h.llog_eq hr] at hci hq
  by_contra hlt
  -- the entry at the base is of an earlier term, those above are of the leader's
  have hne : ∀ x, 0 < x → x ≤ ci → (a.llog (c.servers j).raft.currentTerm).take x ≠ [] := by
    intro x hx hxc h0
    have := congrArg List.length h0
    rw [List.length_take, List.length_nil] at this
    omega
  have hlow := (h.inv.log.shape_prefix hel (List.take_prefix _ _)
    (hne (a.base (c.servers j).raft.currentTerm) (by omega) (by omega))).1
    (by rw [List.length_take]; omega)
  have hhigh := (h.inv.log.shape_prefix hel (List.take_prefix _ _)
    (hne ci (by omega) le_rfl)).2 (by rw [List.length_take]; omega)
  have := hq (a.base (c.servers j).raft.currentTerm) hb (by omega)
  rw [lastTerm_take] at hlow hhigh
  omega

omit [Coded (Persisted n C)] [Inhabited C] [Coded (List C)] in
lemma Peer.matched {t k : ℕ} {p : Fin n} (hbase : a.base t ≤ k)
    (hack : k ≤ a.ack p t ∨ ∃ l, Decided a t l ∧ k ≤ l.length) (hcov : Covers a p t k) :
    Peer a t p (k + 1) k :=
  ⟨fun hlt => by omega, hack, fun _ => hcov⟩

lemma Sim.matched (h : Sim K c a) (hr : (c.servers j).raft.role = .leader) {p : Fin n}
    {next mtch : Fin n → ℕ} {k : ℕ} (hn : (c.servers j).raft.nextIndex = some next)
    (hm : (c.servers j).raft.matchIndex = some mtch) (hle : k ≤ (a.log j).length)
    (hpeer : Peer a (c.servers j).raft.currentTerm p (k + 1) k) :
    ∃ ci b, leaderCommit { (c.servers j).raft with matchIndex := some (update mtch p k) } =
      .ok { (c.servers j).raft with matchIndex := some (update mtch p k), commitIndex := ci } ∧
      Reach a b ∧ Sim K (c.setRaft j { (c.servers j).raft with
        nextIndex := some (update next p (k + 1))
        matchIndex := some (update mtch p k)
        commitIndex := ci }) b := by
  have hmir := (h.server j).mirror
  have hel : Elected a (c.servers j).raft.currentTerm := ⟨j, hmir.lead hr⟩
  have hown := h.llog_eq hr
  obtain ⟨next', mtch', hn', hm', hpeers⟩ := (h.server j).leading hr
  obtain rfl : next = next' := Option.some.inj (hn.symm.trans hn')
  obtain rfl : mtch = mtch' := Option.some.inj (hm.symm.trans hm')
  have hall : ∀ q, update mtch p k q < update next p (k + 1) q ∧
      update next p (k + 1) q ≤ (a.llog (c.servers j).raft.currentTerm).length + 1 ∧
      (q ≠ j → Peer a (c.servers j).raft.currentTerm q (update next p (k + 1) q)
        (update mtch p k q)) := by
    intro q
    by_cases hq : q = p
    · subst hq
      simp only [update_self]
      exact ⟨Nat.lt_succ_self k, by rw [hown]; omega, fun _ => hpeer⟩
    · simp only [update_of_ne hq]
      exact hpeers q
  -- the leader counts its own log as acknowledged
  obtain ⟨hact, hs⟩ := h.acknowledge (j := j) (l := a.log j) hel (hown ▸ List.prefix_rfl)
    List.prefix_rfl
  have hall' : ∀ q, q ≠ j → Peer (Repl.acknowledge a j (a.log j).length)
      (c.servers j).raft.currentTerm q (update next p (k + 1) q) (update mtch p k q) := by
    intro q hqj
    obtain ⟨h1, h2, h3⟩ := hall q
    exact (h3 hqj).ext (h.inv.ext hact.reach) hel (by omega)
  have hbound : ∀ q, update mtch p k q ≤ (a.log j).length := by
    intro q
    obtain ⟨h1, h2, -⟩ := hall q
    rw [hown] at h2
    omega
  have harr := hs.setPeers (j := j) fun q => ⟨(hall q).1, (hall q).2.1, hall' q⟩
  obtain ⟨ci, hcommit, hci⟩ := leaderCommit_spec
    { (c.servers j).raft with matchIndex := some (update mtch p k) }
    (f := update mtch p k) rfl hmir.me hmir.log hmir.index0 hbound
  refine ⟨ci, _, hcommit, hact.reach, ?_⟩
  rcases hci with rfl | ⟨hlt, hmed, hor⟩
  · exact harr
  · have hself : (a.log j).length ≤
        (Repl.acknowledge a j (a.log j).length).ack j (c.servers j).raft.currentTerm := by
      simp [Repl.acknowledge, hmir.term]
    obtain ⟨hle', hdec⟩ := hs.median_decided hr hself hbound (fun q hqj => (hall' q hqj).acked)
      hmed hor
    have hlen : ((a.log j).take ci).length = ci := by
      rw [List.length_take]; exact min_eq_left hle'
    have := harr.setCommit (j := j) (l := (a.log j).take ci)
      (by rw [servers_setRaft, raft_setRaft]; exact hdec)
      (List.take_prefix _ _) (by rw [hlen]; simpa using hlt.le)
    rw [setRaft_setRaft, servers_setRaft, raft_setRaft, hlen] at this
    exact this

lemma Sim.sendAppendEntriesAt (h : Sim K c a)
    {call : Call n (AppendEntriesArgs n C) AppendEntriesReply} (hok : AppendOk a call)
    {reply : AppendEntriesReply} (hreply : call.reply = some reply) :
    ∃ rf, RaftReplication.sendAppendEntries (c.servers call.src).raft call.dst call.args reply =
      .ok rf ∧ ∃ b, Reach a b ∧ Sim K (c.setRaft call.src rf) b := by
  by_cases hst : call.args.term ≠ (c.servers call.src).raft.currentTerm ∨
      (c.servers call.src).raft.role ≠ .leader
  · exact ⟨_, sendAppendEntries_stale hst, a, .refl, by rw [setRaft_self]; exact h⟩
  have hst' := hst
  rw [not_or, not_not, not_not] at hst'
  obtain ⟨hterm, hr⟩ := hst'
  have hown := h.llog_eq hr
  have hmir := (h.server call.src).mirror
  have hel : Elected a (c.servers call.src).raft.currentTerm := ⟨_, hmir.lead hr⟩
  obtain ⟨next, mtch, hn, hm, hpeers⟩ := (h.server call.src).leading hr
  have hle := hok.le
  have hbase := hok.base_le
  rw [hterm, hown] at hle
  rw [hterm] at hbase
  rcases hsucc : reply.success with _ | _
  · by_cases hgt : reply.term > (c.servers call.src).raft.currentTerm
    · obtain ⟨hact, hb⟩ := h.bump (j := call.src) hgt
      exact ⟨_, sendAppendEntries_higher hst hsucc hgt, _, hact.reach, hb⟩
    · obtain ⟨hci, hal⟩ := hok.conflict reply hreply hsucc (by rw [hterm]; omega)
      rw [hterm] at hal
      have hcil : reply.conflictIndex ≤ (a.log call.src).length := by
        unfold upTo at hle; omega
      obtain ⟨v, hv, hvle, hall⟩ := rollBack_retains hmir.log hmir.index0 hcil
      refine ⟨_, sendAppendEntries_conflict hst hsucc hgt hm hn hv, a, .refl,
        h.setPeers fun q => ?_⟩
      obtain ⟨h1, h2, h3⟩ := hpeers q
      by_cases hq : q = call.dst
      · subst hq
        simp only [update_self]
        rw [hown] at h2 ⊢
        refine ⟨by omega, by omega, fun hqj => ⟨fun hlt => ?_, (h3 hqj).acked, (h3 hqj).covers⟩⟩
        exact hal (h.rolled_aligned hr hcil hall v.succ_pos (by omega))
      · simp only [update_of_ne hq]
        exact ⟨h1, h2, h3⟩
  · obtain ⟨hack, hcov⟩ := hok.success reply hreply hsucc
    rw [hterm] at hack hcov
    by_cases hlt : mtch call.dst < upTo call.args
    · obtain ⟨ci, b, hcommit, hr', hb⟩ := h.matched hr hn hm hle (Peer.matched hbase hack hcov)
      exact ⟨_, sendAppendEntries_matched hst hsucc hm hn rfl hlt hcommit, b, hr', hb⟩
    · refine ⟨_, sendAppendEntries_known hst hsucc hm hn hlt, a, .refl, h.setPeers fun q => ?_⟩
      obtain ⟨h1, h2, h3⟩ := hpeers q
      by_cases hq : q = call.dst
      · subst hq
        simp only [update_self]
        refine ⟨Nat.lt_succ_self _, by omega, fun hqj => ⟨fun hlt' => ?_, (h3 hqj).acked,
          (h3 hqj).covers⟩⟩
        omega
      · simp only [update_of_ne hq]
        exact ⟨h1, h2, h3⟩

omit [Coded (Persisted n C)] [Inhabited C] [Coded (List C)] in
lemma replyOf_eq {A R : Type} {call : Call n A R} {r : R} (h : c.replyOf call = some r) :
    call.epoch = (c.servers call.src).epoch ∧ call.reply = some r := by
  unfold Cluster.replyOf at h
  split at h
  · next hw => exact ⟨hw.2, h⟩
  · simp at h

/-- **A leader takes up the reply to a request to append.** -/
lemma Sim.sendAppendEntries (h : Sim K c a) {k : ℕ} {r : Except Panic (Cluster n C)}
    (hs : step c (.sendAppendEntries k) = some r) :
    ∃ c', r = .ok c' ∧ ∃ b, Reach a b ∧ Sim K c' b := by
  rcases hk : c.appendCalls[k]? with _ | call
  · simp [step, hk] at hs
  rcases hreply : c.replyOf call with _ | reply
  · simp [step, hk, hreply] at hs
  have hok := h.appends call (List.mem_of_getElem? hk)
  obtain ⟨rf, hrun, b, hr, hb⟩ := h.sendAppendEntriesAt hok (replyOf_eq hreply).2
  simp only [step, hk, hreply, hrun, bind, Except.bind, pure, Except.pure,
    Option.some.injEq] at hs
  have hok' := hok.ext (h.inv.ext hr)
  exact ⟨_, hs.symm, b, hr, hb.setAppendCall ⟨hok'.lead, hok'.ne, hok'.prevTerm, hok'.entries,
    hok'.le, hok'.base_le, hok'.commit, hok'.aligned, hok'.success, hok'.conflict⟩⟩

lemma Sim.sendInstallSnapshotAt (h : Sim K c a)
    {call : Call n (InstallSnapshotArgs n) InstallSnapshotReply} (hok : SnapshotOk c.taken a call)
    (hlead : call.args.term = (c.servers call.src).raft.currentTerm →
      (c.servers call.src).raft.role = .leader)
    {reply : InstallSnapshotReply} (hreply : call.reply = some reply) :
    ∃ rf, RaftReplication.sendInstallSnapshot (c.servers call.src).raft call.dst call.args reply =
      .ok rf ∧ ∃ b, Reach a b ∧ Sim K (c.setRaft call.src rf) b := by
  by_cases hterm : call.args.term = (c.servers call.src).raft.currentTerm
  swap
  · exact ⟨_, sendInstallSnapshot_stale hterm, a, .refl, by rw [setRaft_self]; exact h⟩
  by_cases hgt : reply.term > (c.servers call.src).raft.currentTerm
  · obtain ⟨hact, hb⟩ := h.bump (j := call.src) hgt
    exact ⟨_, sendInstallSnapshot_higher hterm hgt, _, hact.reach, hb⟩
  obtain ⟨next, mtch, hn, hm, hpeers⟩ := (h.server call.src).leading (hlead hterm)
  by_cases hlt : mtch call.dst < call.args.lastIncludedIndex
  swap
  · exact ⟨_, sendInstallSnapshot_known hterm hgt hm hlt, a, .refl, by rw [setRaft_self]; exact h⟩
  refine ⟨_, sendInstallSnapshot_matched hterm hgt hm hn hlt, a, .refl, h.setPeers fun q => ?_⟩
  by_cases hq : q = call.dst
  · subst hq
    simp only [update_self]
    have hcov := hok.covers reply hreply (by rw [hterm]; omega)
    have hal := hok.aligned
    obtain ⟨l, hl, hlen, -⟩ := hok.shot
    rw [hterm] at hcov hal hl
    have hle := (h.inv.decided_prefix hl ⟨_, hterm ▸ hok.lead⟩).length_le
    exact ⟨Nat.lt_succ_self _, by omega, fun _ => ⟨fun hb => hal (by omega),
      Or.inr ⟨l, hl, hlen.ge⟩, fun _ => hcov⟩⟩
  · simp only [update_of_ne hq]
    exact hpeers q

/-- **A leader takes up the reply to a snapshot it sent.** -/
lemma Sim.sendInstallSnapshot (h : Sim K c a) {k : ℕ} {r : Except Panic (Cluster n C)}
    (hs : step c (.sendInstallSnapshot k) = some r) :
    ∃ c', r = .ok c' ∧ ∃ b, Reach a b ∧ Sim K c' b := by
  rcases hk : c.snapshotCalls[k]? with _ | call
  · simp [step, hk] at hs
  rcases hreply : c.replyOf call with _ | reply
  · simp [step, hk, hreply] at hs
  have hmem := List.mem_of_getElem? hk
  have hok := h.snapshots call hmem
  obtain ⟨rf, hrun, b, hr, hb⟩ := h.sendInstallSnapshotAt hok
    ((h.leads call hmem).2 (replyOf_eq hreply).1) (replyOf_eq hreply).2
  simp only [step, hk, hreply, hrun, bind, Except.bind, pure, Except.pure,
    Option.some.injEq] at hs
  have hok' := hok.ext (h.inv.ext hr) (List.Subset.refl _) h.inv
  exact ⟨_, hs.symm, b, hr, hb.setSnapshotCall hk ⟨hok'.lead, hok'.ne, hok'.pos,
    hok'.shot, hok'.aligned, hok'.covers⟩ rfl rfl rfl⟩

end Mit6824.RaftSim
