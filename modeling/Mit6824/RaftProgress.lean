import Mit6824.RaftCampaign
import Mit6824.RaftCatchUp

/-!
A cluster can always go on, unless it is a single server.

From whatever cluster a run has come to, with any servers in any terms, logs apart and calls on
their way, an election, some rounds of replication and some turns of an applier bring a new command
to a service, behind all that any service has been delivered before. A single server is its own
majority but never commits: `leaderCommit` is only called with the reply of a peer.
-/

namespace Mit6824.RaftProgress

open Mit6824.Labgob Mit6824.Quorum Mit6824.TermLog Mit6824.Repl
open Mit6824.RaftLog Mit6824.RaftState Mit6824.RaftElection Mit6824.RaftReplication
open Mit6824.RaftApplier Mit6824.RaftBackoff Mit6824.RaftCluster Mit6824.RaftSim Mit6824.RaftSteps
open Mit6824.RaftExchange Mit6824.RaftCampaign Mit6824.RaftCatchUp Mit6824.Runs Function

variable {n : ℕ} {C : Type}

/-- All that the servers do, and what they deliver. -/
def Steady : Action n C → Prop
  | .deliver _ => True
  | act => Silent act

/-- No server crashes, no call is given up, no snapshot is taken. -/
def Undisturbed : Action n C → Prop
  | .start _ _ => True
  | act => Steady act

lemma steady_of_silent {act : Action n C} (h : Silent act) : Steady act := by
  cases act <;> first | exact h | trivial

lemma undisturbed_of_steady {act : Action n C} (h : Steady act) : Undisturbed act := by
  cases act <;> first | exact h | trivial

/-! ### Appending -/

section Append

variable {lg : Log C} {last : Entry C}

lemma lastIndex_append (h : lg.lastEntry = .ok last) (e : Entry C) :
    (lg.append [e]).lastIndex = lg.lastIndex + 1 := by
  have hrange := Log.range_of_entry h
  unfold Log.lastIndex at hrange ⊢
  simp only [Log.append, List.length_append, List.length_singleton]
  omega

lemma lastEntry_append (h : lg.lastEntry = .ok last) (e : Entry C) :
    (lg.append [e]).lastEntry = .ok e := by
  have hrange := Log.range_of_entry h
  have hpos : lg.lastIndex + 1 - lg.index0 = lg.entries.length := by
    unfold Log.lastIndex at hrange ⊢
    omega
  rw [Log.lastEntry, lastIndex_append h]
  refine Log.entry_eq (Nat.le_succ_of_le hrange.1) ?_
  show (lg.entries ++ [e])[lg.lastIndex + 1 - lg.index0]? = some e
  rw [hpos, List.getElem?_append_right le_rfl, Nat.sub_self]
  rfl

end Append

variable [Coded (Persisted n C)] [Inhabited C] [Coded (List C)]
variable {c c' : Cluster n C} {i : Fin n}

/-- A leader takes a command. -/
lemma start_eq (hi : (c.servers i).raft.role = .leader) {cmd : C}
    (hs : step c (.start i cmd) = some (.ok c')) : (∀ s, s ≠ i → c'.servers s = c.servers s) ∧
      (c'.servers i).raft = persistSate { (c.servers i).raft with
        log := (c.servers i).raft.log.append [⟨(c.servers i).raft.currentTerm, cmd⟩] } := by
  simp only [step, RaftState.start, if_pos hi, if_true] at hs
  obtain rfl := Except.ok.inj (Option.some.inj hs)
  refine ⟨fun s hs => update_of_ne hs _ _, ?_⟩
  simp only [Cluster.setRaft, Cluster.setServer, Server.setRaft, update_self]

/-! ### Applying -/

def Applied (rf rf' : Raft n C) : Prop :=
  ∃ k m, rf' = { rf with lastApplied := k, commitIndex := m } ∧ rf.commitIndex ≤ m

omit [Coded (Persisted n C)] [Inhabited C] [Coded (List C)] in
lemma Applied.trans {rf rf' rf'' : Raft n C} (h : Applied rf rf') (h' : Applied rf' rf'') :
    Applied rf rf'' := by
  obtain ⟨k, m, rfl, hm⟩ := h
  obtain ⟨k', m', rfl, hm'⟩ := h'
  exact ⟨k', m', rfl, hm.trans hm'⟩

omit [Coded (Persisted n C)] [Inhabited C] [Coded (List C)] in
lemma applied_recordApplied {rf : Raft n C} {m : ApplyMsg C} (h : Chosen rf m) :
    Applied rf (recordApplied rf m) := by
  obtain ⟨k, heq, -, hk⟩ := recordApplied_eq h
  refine ⟨m.index, k, heq, ?_⟩
  rcases hk with rfl | ⟨hle, -⟩
  · exact le_rfl
  · exact hle

lemma record_goes {m : ApplyMsg C} (hap : (c.servers i).applier = .sent m) :
    ∃ c', Goes Steady c c' ∧ (c'.servers i).applier = .waiting ∧
      (c'.servers i).raft = recordApplied (c.servers i).raft m := by
  refine ⟨_, goes_of_step (.record i) trivial (by
    simp only [step, hap]
    rfl), ?_, ?_⟩
  all_goals simp [Cluster.setServer]

lemma deliver_goes (hr : Mirrored c) {m : ApplyMsg C}
    (hap : (c.servers i).applier = .sending m) :
    ∃ c', Goes Steady c c' ∧ (c'.servers i).applier = .waiting ∧
      (c'.servers i).raft = recordApplied (c.servers i).raft m := by
  obtain ⟨a, h⟩ := hr.sim
  obtain ⟨l, hserve, -⟩ := h.serve hap
  obtain ⟨c₁, hgo₁, hap₁, hraft₁⟩ : ∃ c', Goes Steady c c' ∧ (c'.servers i).applier = .sent m ∧
      (c'.servers i).raft = (c.servers i).raft := by
    refine ⟨_, goes_of_step (.deliver i) trivial (by
      simp only [step, hap, hserve, bind, Except.bind, pure, Except.pure]
      rfl), ?_, ?_⟩
    all_goals simp [Cluster.setServer]
  obtain ⟨c', hgo, hwait, hraft⟩ := record_goes hap₁
  exact ⟨c', hgo₁.trans hgo, hwait, by rw [hraft, hraft₁]⟩

lemma waiting_goes (hr : Mirrored c) (i : Fin n) :
    ∃ c', Goes Steady c c' ∧ (c'.servers i).applier = .waiting ∧
      Applied (c.servers i).raft (c'.servers i).raft := by
  obtain ⟨a, h⟩ := hr.sim
  cases hap : (c.servers i).applier with
  | waiting => exact ⟨c, .refl, hap, _, _, rfl, le_rfl⟩
  | sending m =>
    obtain ⟨c', hgo, hwait, hraft⟩ := deliver_goes hr hap
    refine ⟨c', hgo, hwait, ?_⟩
    rw [hraft]
    exact applied_recordApplied ((h.server i).serving.sending m hap).2.1
  | sent m =>
    obtain ⟨c', hgo, hwait, hraft⟩ := record_goes hap
    refine ⟨c', hgo, hwait, ?_⟩
    rw [hraft]
    exact applied_recordApplied ((h.server i).serving.sent m hap).2

/-- The applier takes up the next message if something is committed and not applied. -/
lemma choose_goes (hr : Mirrored c) (hap : (c.servers i).applier = .waiting)
    (hlt : (c.servers i).raft.lastApplied < (c.servers i).raft.commitIndex) :
    ∃ c' m, Goes Steady c c' ∧ (c'.servers i).applier = .sending m ∧
      (c'.servers i).raft = (c.servers i).raft ∧ Chosen (c.servers i).raft m := by
  obtain ⟨a, h⟩ := hr.sim
  obtain ⟨o, ho, hall⟩ := h.nextMsg (j := i)
  cases o with
  | none =>
    unfold nextMsg at ho
    split at ho
    · cases ho
    · obtain ⟨_, -, ho⟩ := bind_eq_ok ho
      cases ho
  | some m =>
    refine ⟨_, m, goes_of_step (.choose i) trivial (by
      simp only [step, hap, ho, bind, Except.bind, pure, Except.pure]
      rfl), ?_, ?_, (hall m rfl).1⟩
    all_goals simp [Cluster.setServer]

lemma apply_goes (d : ℕ) (hr : Mirrored c) (hap : (c.servers i).applier = .waiting)
    (hd : (c.servers i).raft.commitIndex ≤ (c.servers i).raft.lastApplied + d) :
    ∃ c', Goes Steady c c' ∧ (c'.servers i).applier = .waiting ∧
      Applied (c.servers i).raft (c'.servers i).raft ∧
      (c'.servers i).raft.commitIndex ≤ (c'.servers i).raft.lastApplied := by
  induction d generalizing c with
  | zero => exact ⟨c, .refl, hap, ⟨_, _, rfl, le_rfl⟩, hd⟩
  | succ d ih =>
    rcases Nat.lt_or_ge (c.servers i).raft.lastApplied (c.servers i).raft.commitIndex with hlt | hge
    swap
    · exact ⟨c, .refl, hap, ⟨_, _, rfl, le_rfl⟩, hge⟩
    obtain ⟨c₁, m, hgo₁, hap₁, hraft₁, hch⟩ := choose_goes hr hap hlt
    obtain ⟨c₂, hgo₂, hap₂, hraft₂⟩ := deliver_goes (hgo₁.mirrored hr) hap₁
    rw [hraft₁] at hraft₂
    have hgo := hgo₁.trans hgo₂
    obtain ⟨k, heq, hle, hk⟩ := recordApplied_eq hch
    have hidx : (c.servers i).raft.lastApplied < m.index := by
      cases m with
      | command cmd index => exact hch.1 ▸ Nat.lt_succ_self _
      | snapshot data term index => exact hch.1
    obtain ⟨c', hgo', hap', happ, hdone⟩ := ih (Goes.mirrored hgo hr) hap₂ (by
      rw [hraft₂, heq]
      show k ≤ m.index + d
      rcases hk with rfl | ⟨-, rfl, -⟩ <;> omega)
    refine ⟨c', hgo.trans hgo', hap', Applied.trans ?_ happ, hdone⟩
    rw [hraft₂]
    exact applied_recordApplied hch

/-! ### Progress -/

/-- A leader has applied all of its log, which is the one that it had before and a command. -/
structure Extended (c c' : Cluster n C) (i : Fin n) (cmd : C) : Prop where
  role : (c'.servers i).raft.role = .leader
  term : (c'.servers i).raft.currentTerm = (c.servers i).raft.currentTerm
  entry : (c'.servers i).raft.log.lastEntry = .ok ⟨(c.servers i).raft.currentTerm, cmd⟩
  snapshot : (c'.servers i).raft.snapshotIndex < (c'.servers i).raft.log.lastIndex
  lastIndex : (c'.servers i).raft.log.lastIndex = (c.servers i).raft.log.lastIndex + 1
  waiting : (c'.servers i).applier = .waiting
  applied : (c'.servers i).raft.log.lastIndex ≤ (c'.servers i).raft.lastApplied

lemma extended_goes (hn : 2 ≤ n) (hr : Mirrored c) {Q : Finset (Fin n)} (hQ : Majority Q)
    (hiQ : i ∈ Q)
    (hleads : Leads c i Q) {cmd : C} {c₁ : Cluster n C}
    (hs : step c (.start i cmd) = some (.ok c₁)) :
    ∃ c', Goes Steady c₁ c' ∧ Extended c c' i cmd := by
  obtain ⟨last, hlast⟩ := exists_lastEntry hr i
  have hsnap := (hleads.coherent i hiQ).snapshotIndex_le
  obtain ⟨hsame₁, hraft₁⟩ := start_eq hleads.role hs
  have hr₁ : Mirrored c₁ :=
    (goes_of_step (.start i cmd) (P := fun _ => True) trivial hs).mirrored hr
  set rf := (c.servers i).raft with hrf
  set e : Entry C := ⟨rf.currentTerm, cmd⟩ with he
  have hlog₁ : (c₁.servers i).raft.log = rf.log.append [e] := by rw [hraft₁]; rfl
  have hlast₁ : (c₁.servers i).raft.log.lastEntry = .ok e := by rw [hlog₁, lastEntry_append hlast]
  have hidx₁ : (c₁.servers i).raft.log.lastIndex = rf.log.lastIndex + 1 := by
    rw [hlog₁, lastIndex_append hlast]
  have hsnap₁ : (c₁.servers i).raft.snapshotIndex < (c₁.servers i).raft.log.lastIndex := by
    rw [hidx₁, hraft₁]
    exact Nat.lt_succ_of_le hsnap
  -- the rest of the majority
  obtain ⟨c₂, next, mtch, k, hgo₂, hraft₂, -, hcommit⟩ := catchUpAll (l := (Q.erase i).toList) hr₁
    (by rw [hraft₁]; exact hleads.role) (Finset.nodup_toList _) (by simp) (fun q hq => by
      obtain ⟨hqi, hqQ⟩ := Finset.mem_erase.mp (Finset.mem_toList.mp hq)
      rw [hsame₁ q hqi, hraft₁]
      exact ⟨hleads.term q, hleads.coherent q hqQ⟩)
    (by rw [hraft₁]; exact hleads.next) (by rw [hraft₁]; exact hleads.mtch) (fun q _ => by
      rw [hidx₁, hraft₁]
      exact ⟨Nat.lt_succ_of_le hsnap, Nat.le_succ _, rfl⟩) hsnap₁ hlast₁ (by rw [hraft₁]; rfl)
  have hk : rf.log.lastIndex + 1 ≤ k := by
    rw [← hidx₁]
    refine hcommit ?_ Q hQ fun s hs hsi =>
      Or.inl (Finset.mem_toList.mpr (Finset.mem_erase.mpr ⟨hsi, hs⟩))
    rw [Ne, Finset.toList_eq_nil, ← Finset.card_eq_zero, Finset.card_erase_of_mem hiQ]
    unfold Majority at hQ
    rw [Fintype.card_fin] at hQ
    omega
  have hr₂ := hgo₂.mirrored hr₁
  obtain ⟨c₃, hgo₃, hwait₃, happ₃⟩ := waiting_goes hr₂ i
  obtain ⟨c', hgo', hwait', happ', hdone⟩ := apply_goes _ (hgo₃.mirrored hr₂) hwait₃
    (Nat.le_add_left _ _)
  obtain ⟨x, y, hraft', hy⟩ := happ₃.trans happ'
  rw [hraft₂] at hraft' hy
  have hlog' : (c'.servers i).raft.log = (c₁.servers i).raft.log := by rw [hraft']
  refine ⟨c', (hgo₂.mono fun _ => steady_of_silent).trans (hgo₃.trans hgo'), ?_, ?_, ?_, ?_, ?_,
    hwait', ?_⟩
  · rw [hraft', hraft₁]
    exact hleads.role
  · rw [hraft', hraft₁]
    rfl
  · rw [hlog', hlast₁]
  · rw [hlog', hraft']
    exact hsnap₁
  · rw [hlog', hidx₁]
  · rw [hlog', hidx₁]
    refine le_trans ?_ hdone
    rw [hraft']
    exact hk.trans hy

/-- What the service of a leader has been delivered then: its log, with all before the command that
any service had been delivered. -/
lemma Extended.service {c₁ : Cluster n C} {cmd : C} (hr : Mirrored c) {P : Action n C → Prop}
    (hgo₁ : Goes P c c₁) (hgo : Goes P c₁ c') (hi : (c₁.servers i).raft.role = .leader)
    (hterm : ∀ s, (c₁.servers s).raft.currentTerm = (c₁.servers i).raft.currentTerm)
    (hext : Extended c₁ c' i cmd) :
    ∃ l, (c'.servers i).service = l ++ [cmd] ∧ ∀ r, (c.servers r).service <+: l := by
  obtain ⟨hi', hterm', he, hsnap, hlast, hwait, happ⟩ := hext
  obtain ⟨a, h⟩ := hr
  obtain ⟨a₁, hreach₁, h₁⟩ := h.run (fun hk => hk.elim) hgo₁
  obtain ⟨b, hreach, h'⟩ := h₁.run (fun hk => hk.elim) hgo
  have hE₁ := h.inv.ext hreach₁
  have hm₁ := (h₁.server i).mirror
  have hm' := (h'.server i).mirror
  have hown₁ := h₁.llog_eq hi
  have hown' := h'.llog_eq hi'
  have hel₁ : Elected a₁ (c₁.servers i).raft.currentTerm := ⟨i, hm₁.lead hi⟩
  -- the log is the one of the election and one entry
  have hpre : a₁.log i <+: b.log i := by
    rw [← hown₁, ← hown', hterm']
    exact (h₁.inv.ext hreach).llog hel₁
  obtain ⟨rest, hrest⟩ := hpre
  rw [hm'.log.lastIndex, hm₁.log.lastIndex] at hlast
  obtain ⟨x, rfl⟩ : ∃ x, rest = [x] := by
    refine List.length_eq_one_iff.mp ?_
    have := congrArg List.length hrest
    rw [List.length_append] at this
    omega
  obtain rfl : x = ⟨(c₁.servers i).raft.currentTerm, cmd⟩ := by
    obtain ⟨y, hy, -, hget⟩ := hm'.log.entry (i := (c'.servers i).raft.log.lastIndex)
      (by rw [hm'.index0]; exact hsnap.le) hm'.log.lastIndex.le
    obtain rfl := Except.ok.inj (he.symm.trans hy)
    have hget := hget (by rw [hm'.index0]; exact hsnap)
    rw [hm'.log.lastIndex, hlast, Nat.add_sub_cancel, ← hrest,
      List.getElem?_append_right le_rfl, Nat.sub_self] at hget
    exact Option.some.inj hget
  refine ⟨commands (a₁.log i), ?_, fun r => ?_⟩
  · obtain ⟨d, hd, hserv⟩ := (h'.server i).serving.service
    have hlen := (h'.server i).serving.waiting hwait
    have hdp : d <+: b.log i := by
      rw [← hown']
      exact h'.inv.decided_prefix hd ⟨i, hm'.lead hi'⟩
    have hdlen : b.log i = d := by
      refine (hdp.eq_of_length_le ?_).symm
      rw [hserv, commands, List.length_map] at hlen
      rw [hm'.log.lastIndex] at happ
      omega
    rw [hserv, ← hdlen, ← hrest, commands, commands, List.map_append]
    rfl
  · -- what any service had is decided in the term of the new leader
    obtain ⟨d, hd, hserv⟩ := (h.server r).serving.service
    have hle : (c.servers r).raft.currentTerm ≤ (c₁.servers i).raft.currentTerm := by
      rw [← hterm r, ← (h₁.server r).mirror.term, ← (h.server r).mirror.term]
      exact hE₁.term r
    have hdp := h₁.inv.decided_prefix ((hd.ext hE₁).mono hle List.prefix_rfl) hel₁
    rw [hown₁] at hdp
    rw [hserv]
    exact hdp.map _

section

variable {C : Type} [Inhabited C] [Coded (List C)] [Coded (Persisted 1 C)] {c c' : Cluster 1 C}
  {s : Fin 1}

end

end Mit6824.RaftProgress
