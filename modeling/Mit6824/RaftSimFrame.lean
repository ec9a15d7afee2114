import Mit6824.RaftSim

/-!
What a step leaves alone.

Everything `Sim` says of a server or a call survives steps of other servers. So to show that
`Sim` is kept when one server acts it is enough to look at that server (`Sim.act`), and
when one call changes, at that call.
-/

namespace Mit6824.RaftSim

open Mit6824.Labgob Mit6824.Quorum Mit6824.TermLog Mit6824.Repl
open Mit6824.RaftLog Mit6824.RaftState Mit6824.RaftElection Mit6824.RaftReplication
open Mit6824.RaftApplier Mit6824.RaftCluster Function

variable {n : ℕ} {C : Type} {a b : Abs n C} {i : Fin n} {t u : ℕ}

lemma Mirror.frame {j : Fin n} {rf : Raft n C} (h : Mirror a i rf) (hE : Ext a b)
    (hF : Frame j a b) (hi : i ≠ j) : Mirror b i rf where
  me := h.me
  term := (hF.term hi).trans h.term
  held := (hF.held hi).trans h.held
  cand := (hF.cand hi).trans h.cand
  lead := fun hr => hE.lead (h.lead hr)
  snap := (hF.snap hi).trans h.snap
  index0 := h.index0
  log := by rw [hF.log hi]; exact h.log

lemma take_llog (hE : Ext a b) (he : Elected a t) {k : ℕ} (hk : k ≤ (a.llog t).length) :
    (b.llog t).take k = (a.llog t).take k := by
  obtain ⟨r, hr⟩ := hE.llog he
  rw [← hr, List.take_append_of_le_length hk]

lemma Peer.ext (hE : Ext a b) (he : Elected a t) {p : Fin n} {next mtch : ℕ}
    (hle : mtch ≤ (a.llog t).length) (h : Peer a t p next mtch) : Peer b t p next mtch where
  aligned := by
    intro hb
    rw [hE.base he] at hb
    exact hE.aligned he (h.aligned hb)
  acked := by
    rcases h.acked with ha | ⟨l, hl, hm⟩
    · exact Or.inl (ha.trans (hE.ack p t))
    · exact Or.inr ⟨l, hl.ext hE, hm⟩
  covers := fun hp => hE.covers he hle (h.covers hp)

lemma Leading.ext {rf rf' : Raft n C} (hE : Ext a b) (hm : Mirror a i rf) (h : Leading a i rf)
    (hrole : rf'.role = rf.role) (hterm : rf'.currentTerm = rf.currentTerm)
    (hnext : rf'.nextIndex = rf.nextIndex) (hmtch : rf'.matchIndex = rf.matchIndex) :
    Leading b i rf' := by
  intro hr
  rw [hrole] at hr
  have he : Elected a rf.currentTerm := ⟨i, hm.lead hr⟩
  obtain ⟨next, mtch, hn, hmt, hp⟩ := h hr
  refine ⟨next, mtch, by rw [hnext, hn], by rw [hmtch, hmt], fun p => ?_⟩
  obtain ⟨h1, h2, h3⟩ := hp p
  rw [hterm]
  exact ⟨h1, h2.trans (Nat.succ_le_succ (hE.llog he).length_le),
    fun hpi => (h3 hpi).ext hE he (by omega)⟩

lemma leading_of_role {rf : Raft n C} (h : rf.role ≠ .leader) : Leading a i rf :=
  fun hr => absurd hr h

lemma VoteOk.ext (hE : Ext a b) {call : Call n (RequestVoteArgs n) RequestVoteReply}
    (h : VoteOk a call) : VoteOk b call where
  cand := h.cand
  ne := h.ne
  stood := hE.vote h.stood
  lastIndex := by rw [hE.clog h.stood]; exact h.lastIndex
  lastTerm := by rw [hE.clog h.stood]; exact h.lastTerm
  granted := fun r hr hg => hE.vote (h.granted r hr hg)

lemma AppendOk.ext (hE : Ext a b) {call : Call n (AppendEntriesArgs n C) AppendEntriesReply}
    (h : AppendOk a call) : AppendOk b call := by
  have he : Elected a call.args.term := ⟨_, h.lead⟩
  have hle := h.le
  have hprev : call.args.prevLogIndex ≤ (a.llog call.args.term).length := by
    unfold upTo at hle; omega
  refine ⟨hE.lead h.lead, h.ne, ?_, ?_, hle.trans (hE.llog he).length_le, ?_, ?_, ?_, ?_, ?_⟩
  · rw [← termAt_eq_of_le (hE.llog he) hprev]; exact h.prevTerm
  · rw [take_llog hE he hprev, take_llog hE he hle]; exact h.entries
  · rw [hE.base he]; exact h.base_le
  · obtain ⟨l, hl, hlen, hk⟩ := h.commit
    exact ⟨l, hl.ext hE, hlen, hk⟩
  · rw [hE.base he]; exact fun hb => hE.aligned he (h.aligned hb)
  · intro r hr hs
    obtain ⟨hack, hcov⟩ := h.success r hr hs
    refine ⟨?_, hE.covers he hle hcov⟩
    rcases hack with ha | ⟨l, hl, hk⟩
    · exact Or.inl (ha.trans (hE.ack _ _))
    · exact Or.inr ⟨l, hl.ext hE, hk⟩
  · intro r hr hs hrt
    obtain ⟨hci, hal⟩ := h.conflict r hr hs hrt
    refine ⟨hci, fun hb => hE.aligned he (hal ?_)⟩
    rwa [hE.base he] at hb

lemma ElectionOk.ext (hE : Ext a b)
    {calls : List (Call n (RequestVoteArgs n) RequestVoteReply)} {s : Fin n} {e : Election}
    (h : ElectionOk a calls s t e) : ElectionOk b calls s t e := by
  obtain ⟨hself, V, hs, hc, hV⟩ := h
  exact ⟨hE.vote hself, V, hs, hc, fun v hv => ⟨hE.vote (hV v hv).1, (hV v hv).2⟩⟩

def Onward (sv sv' : Server n C) : Prop :=
  sv.epoch < sv'.epoch ∨ (sv'.epoch = sv.epoch ∧
    (sv.raft.currentTerm < sv'.raft.currentTerm ∨
      (sv'.raft.currentTerm = sv.raft.currentTerm ∧
        (sv.raft.role = .leader → sv'.raft.role = .leader))))

lemma StillLeads.onward {sv sv' : Server n C}
    {call : Call n (InstallSnapshotArgs n) InstallSnapshotReply}
    (ht : call.args.term ≤ sv.raft.currentTerm) (h : StillLeads sv call) (ho : Onward sv sv') :
    StillLeads sv' call := by
  obtain ⟨hep, hrole⟩ := h
  rcases ho with hlt | ⟨heq, hlt | ⟨hterm, hkeep⟩⟩
  · exact ⟨hep.trans hlt.le, fun h => by omega⟩
  · exact ⟨heq ▸ hep, fun _ h => by omega⟩
  · exact ⟨heq ▸ hep, fun h1 h2 => hkeep (hrole (h1.trans heq) (h2.trans hterm))⟩

section Shot

variable [Coded (List C)] {taken taken' : List (TakenSnapshot n C)}

lemma Shot.mono {index term : ℕ} {data : Bytes} (hE : Ext a b) (htu : t ≤ u)
    (ht : taken ⊆ taken') (h : Shot taken a t index term data) :
    Shot taken' b u index term data := by
  obtain ⟨l, hl, hlen, hterm, hdata⟩ := h
  refine ⟨l, (hl.ext hE).mono htu List.prefix_rfl, hlen, hterm, fun h0 => ?_⟩
  obtain ⟨hd, r, hr, hri⟩ := hdata h0
  exact ⟨hd, r, ht hr, hri⟩

lemma MsgOk.mono {m : ApplyMsg C} (hE : Ext a b) (htu : t ≤ u) (ht : taken ⊆ taken')
    (h : MsgOk taken a t m) : MsgOk taken' b u m := by
  cases m with
  | command cmd index =>
    obtain ⟨l, hl, hrest⟩ := h
    exact ⟨l, (hl.ext hE).mono htu List.prefix_rfl, hrest⟩
  | snapshot data term index => exact ⟨h.1, h.2.mono hE htu ht⟩

lemma SnapshotOk.ext (hE : Ext a b) (ht : taken ⊆ taken')
    {call : Call n (InstallSnapshotArgs n) InstallSnapshotReply} (hinv : Inv a)
    (h : SnapshotOk taken a call) : SnapshotOk taken' b call := by
  have he : Elected a call.args.term := ⟨_, h.lead⟩
  have hle : call.args.lastIncludedIndex ≤ (a.llog call.args.term).length := by
    obtain ⟨l, hl, hlen, -⟩ := h.shot
    rw [← hlen]
    exact (hinv.decided_prefix hl he).length_le
  refine ⟨hE.lead h.lead, h.ne, h.pos, h.shot.mono hE le_rfl ht, ?_, ?_⟩
  · rw [hE.base he]; exact fun hb => hE.aligned he (h.aligned hb)
  · exact fun r hr hrt => hE.covers he hle (h.covers r hr hrt)

/-- The service is not affected by what the server does besides applying. -/
lemma Serving.mono {sv sv' : Server n C} (hE : Ext a b) (ht : taken ⊆ taken')
    (h : Serving taken a sv) (hterm : sv.raft.currentTerm ≤ sv'.raft.currentTerm)
    (hla : sv'.raft.lastApplied = sv.raft.lastApplied)
    (hci : sv.raft.commitIndex ≤ sv'.raft.commitIndex)
    (hsi : sv.raft.snapshotIndex ≤ sv'.raft.snapshotIndex) (happ : sv'.applier = sv.applier)
    (hsv : sv'.service = sv.service) : Serving taken' b sv' := by
  have hch : ∀ m, Chosen sv.raft m → Chosen sv'.raft m := by
    intro m hm
    cases m with
    | command cmd index => exact ⟨by rw [hla]; exact hm.1, hm.2.trans hci⟩
    | snapshot data term index => exact ⟨by rw [hla]; exact hm.1, hm.2.trans hsi⟩
  refine ⟨?_, ?_, ?_, ?_⟩
  · obtain ⟨d, hd, hs⟩ := h.service
    exact ⟨d, (hd.ext hE).mono hterm List.prefix_rfl, by rw [hsv, hs]⟩
  · intro hw
    rw [hsv, hla]
    exact h.waiting (happ ▸ hw)
  · intro m hm
    obtain ⟨hlen, hc, hok⟩ := h.sending m (happ ▸ hm)
    exact ⟨by rw [hsv, hla, hlen], hch m hc, hok.mono hE hterm ht⟩
  · intro m hm
    obtain ⟨hlen, hc⟩ := h.sent m (happ ▸ hm)
    exact ⟨by rw [hsv, hlen], hch m hc⟩

variable [Coded (Persisted n C)] [Inhabited C] {K : Prop} {sv : Server n C}

lemma ServerOk.frame {j : Fin n} (h : ServerOk K taken a i sv) (hE : Ext a b)
    (hF : Frame j a b) (hi : i ≠ j) : ServerOk K taken b i sv where
  mirror := h.mirror.frame hE hF hi
  durable := h.durable
  shot := h.shot.mono hE le_rfl (List.Subset.refl _)
  coherent := by rw [hF.log hi]; exact fun hK => (h.coherent hK).ext hE
  commit := by
    obtain ⟨l, hl, hrest⟩ := h.commit
    exact ⟨l, hl.ext hE, by rw [hF.log hi]; exact hrest⟩
  applied := h.applied
  leading := h.leading.ext hE h.mirror rfl rfl rfl rfl
  serving := h.serving.mono hE (List.Subset.refl _) le_rfl rfl le_rfl le_rfl rfl rfl

lemma ServerOk.progress (h : ServerOk K taken a i sv) (hinv : Inv a) (hr : Reach a b)
    {rf : Raft n C} (hm : Mirror b i rf) (hd : Durable rf) (hl : Leading b i rf)
    (hterm : sv.raft.currentTerm ≤ rf.currentTerm)
    (hci : rf.commitIndex = sv.raft.commitIndex) (hla : rf.lastApplied = sv.raft.lastApplied)
    (hsi : rf.snapshotIndex = sv.raft.snapshotIndex)
    (hst : rf.snapshotTerm = sv.raft.snapshotTerm) (hsd : rf.snapshot = sv.raft.snapshot) :
    ServerOk K taken b i (sv.setRaft rf) := by
  have hE := hinv.ext hr
  have hkept : ∀ l, Decided a sv.raft.currentTerm l → l <+: a.log i → l <+: b.log i :=
    fun l hl hp => hinv.kept hr (h.mirror.term.symm ▸ hl) hp
  refine ⟨hm, hd, ?_, fun hK => ?_, ?_, ?_, hl,
    h.serving.mono hE (List.Subset.refl _) hterm hla hci.ge hsi.ge rfl rfl⟩
  · show Shot taken b rf.currentTerm rf.snapshotIndex rf.snapshotTerm rf.snapshot
    rw [hsi, hst, hsd]
    exact h.shot.mono hE hterm (List.Subset.refl _)
  · show Decided b rf.currentTerm ((b.log i).take rf.snapshotIndex)
    have hdec := h.coherent hK
    have hle := h.mirror.log.le
    rw [h.mirror.index0] at hle
    have hp := hkept _ hdec (List.take_prefix _ _)
    have heq : (b.log i).take sv.raft.snapshotIndex = (a.log i).take sv.raft.snapshotIndex := by
      rw [List.prefix_iff_eq_take.mp hp, List.length_take, min_eq_left hle]
    rw [hsi, heq]
    exact (hdec.ext hE).mono hterm List.prefix_rfl
  · obtain ⟨l, hl, hlen, hor⟩ := h.commit
    refine ⟨l, (hl.ext hE).mono hterm List.prefix_rfl, hlen.trans hci.symm, ?_⟩
    rcases hor with hp | hs
    · exact Or.inl (hkept l hl hp)
    · right
      show rf.commitIndex ≤ rf.snapshotIndex
      omega
  · show rf.lastApplied ≤ rf.commitIndex
    rw [hla, hci]
    exact h.applied

lemma ServerOk.adjust (h : ServerOk K taken a i sv) (hinv : Inv a) {rf : Raft n C}
    (hm : Mirror a i rf) (hd : Durable rf) (hl : Leading a i rf)
    (hterm : rf.currentTerm = sv.raft.currentTerm)
    (hci : rf.commitIndex = sv.raft.commitIndex) (hla : rf.lastApplied = sv.raft.lastApplied)
    (hsi : rf.snapshotIndex = sv.raft.snapshotIndex)
    (hst : rf.snapshotTerm = sv.raft.snapshotTerm) (hsd : rf.snapshot = sv.raft.snapshot) :
    ServerOk K taken a i (sv.setRaft rf) :=
  h.progress hinv .refl hm hd hl hterm.ge hci hla hsi hst hsd

end Shot

/-! ### Whole clusters -/

variable [Coded (Persisted n C)] [Inhabited C] [Coded (List C)] {K : Prop} {c : Cluster n C}

/-- **One server acts.** -/
theorem Sim.act (h : Sim K c a) {j : Fin n} (hact : Act j a b) {sv : Server n C}
    (hsv : ServerOk K c.taken b j sv)
    (hel : ∀ t e, sv.elections t = some e → (c.servers j).elections t = some e ∨
      ElectionOk b c.voteCalls j t e)
    (hon : Onward (c.servers j) sv) (hst : Recorded c.started b) :
    Sim K (c.setServer j sv) b := by
  have hE := h.inv.ext hact.reach
  refine ⟨h.inv.reach hact.reach, ?_, fun call hc => (h.votes call hc).ext hE, h.keys, ?_,
    fun call hc => (h.appends call hc).ext hE,
    fun call hc => (h.snapshots call hc).ext hE (List.Subset.refl _) h.inv, ?_, ?_, hst⟩
  · intro i
    by_cases hij : i = j
    · subst hij; simpa [Cluster.setServer] using hsv
    · simpa [Cluster.setServer, hij] using (h.server i).frame hE hact.frame hij
  · intro s t e he
    by_cases hsj : s = j
    · subst hsj
      simp only [Cluster.setServer, update_self] at he
      rcases hel t e he with hold | hnew
      · exact (h.elections s t e hold).ext hE
      · exact hnew
    · simp only [Cluster.setServer, update_of_ne hsj] at he
      exact (h.elections s t e he).ext hE
  · intro call hc
    by_cases hsj : call.src = j
    · have hold := h.leads call hc
      have hle := (h.inv.vote.led (h.snapshots call hc).lead).1
      rw [(h.server call.src).mirror.term] at hle
      subst hsj
      simpa [Cluster.setServer] using hold.onward hle hon
    · simpa [Cluster.setServer, hsj] using h.leads call hc
  · intro d hd
    obtain ⟨t, ht⟩ := h.delivered d hd
    exact ⟨t, ht.mono hE le_rfl (List.Subset.refl _)⟩

/-- The same when only the Raft part of the server changes. -/
theorem Sim.actRaft (h : Sim K c a) {j : Fin n} (hact : Act j a b) {rf : Raft n C}
    (hsv : ServerOk K c.taken b j ((c.servers j).setRaft rf))
    (hon : (c.servers j).raft.currentTerm < rf.currentTerm ∨
      (rf.currentTerm = (c.servers j).raft.currentTerm ∧
        ((c.servers j).raft.role = .leader → rf.role = .leader)))
    (hst : Recorded c.started b) : Sim K (c.setRaft j rf) b :=
  h.act hact hsv (fun _ _ he => Or.inl he) (Or.inr ⟨rfl, hon⟩) hst

lemma Sim.addTaken (h : Sim K c a) (r : TakenSnapshot n C) :
    Sim K { c with taken := r :: c.taken } a := by
  have hsub : c.taken ⊆ r :: c.taken := List.subset_cons_self _ _
  refine ⟨h.inv, ?_, h.votes, h.keys, h.elections, h.appends,
    fun call hc => (h.snapshots call hc).ext (Ext.refl a) hsub h.inv, h.leads, ?_, h.started⟩
  · intro i
    have hi := h.server i
    exact ⟨hi.mirror, hi.durable, hi.shot.mono (Ext.refl a) le_rfl hsub, hi.coherent, hi.commit,
      hi.applied, hi.leading,
      hi.serving.mono (Ext.refl a) hsub le_rfl rfl le_rfl le_rfl rfl rfl⟩
  · intro d hd
    obtain ⟨t, ht⟩ := h.delivered d hd
    exact ⟨t, ht.mono (Ext.refl a) le_rfl hsub⟩

lemma Sim.addStarted (h : Sim K c a) (r : Started C) :
    Sim K { c with started := r :: c.started } a :=
  ⟨h.inv, h.server, h.votes, h.keys, h.elections, h.appends, h.snapshots, h.leads, h.delivered,
    fun t he j hj hjl => List.mem_cons_of_mem _ (h.started t he j hj hjl)⟩

lemma Sim.addDelivered (h : Sim K c a) {d : Delivery n C} {t : ℕ} (hd : MsgOk c.taken a t d.msg) :
    Sim K { c with delivered := d :: c.delivered } a := by
  refine ⟨h.inv, h.server, h.votes, h.keys, h.elections, h.appends, h.snapshots, h.leads, ?_,
    h.started⟩
  intro d' hd'
  rcases List.mem_cons.mp hd' with rfl | hmem
  · exact ⟨t, hd⟩
  · exact h.delivered d' hmem

lemma Sim.setVoteCall (h : Sim K c a) {k : ℕ}
    {call call' : Call n (RequestVoteArgs n) RequestVoteReply} (hk : c.voteCalls[k]? = some call)
    (hok : VoteOk a call') (hkey : voteKey call' = voteKey call)
    (hw : call.waiting = false → call'.waiting = false) :
    Sim K { c with voteCalls := c.voteCalls.set k call' } a := by
  have hmem : ∀ x ∈ c.voteCalls.set k call', x ∈ c.voteCalls ∨ x = call' := fun x hx =>
    List.mem_or_eq_of_mem_set hx
  refine ⟨h.inv, h.server, ?_, ?_, ?_, h.appends, h.snapshots, h.leads, h.delivered, h.started⟩
  · intro x hx
    rcases hmem x hx with hold | rfl
    · exact h.votes x hold
    · exact hok
  · have : (c.voteCalls.set k call').map voteKey = c.voteCalls.map voteKey := by
      rw [List.map_set, hkey]
      obtain ⟨hlt, rfl⟩ := List.getElem?_eq_some_iff.mp hk
      rw [← List.getElem_map (h := by simpa using hlt) voteKey, List.set_getElem_self]
    rw [this]
    exact h.keys
  · intro s t e he
    obtain ⟨hself, V, hs, hc, hV⟩ := h.elections s t e he
    refine ⟨hself, V, hs, hc, fun v hv => ⟨(hV v hv).1, fun x hx hxk => ?_⟩⟩
    rcases hmem x hx with hold | rfl
    · exact (hV v hv).2 x hold hxk
    · exact hw ((hV v hv).2 call (List.mem_of_getElem? hk) (hkey ▸ hxk))

lemma Sim.setAppendCall (h : Sim K c a) {k : ℕ}
    {call' : Call n (AppendEntriesArgs n C) AppendEntriesReply} (hok : AppendOk a call') :
    Sim K { c with appendCalls := c.appendCalls.set k call' } a := by
  refine ⟨h.inv, h.server, h.votes, h.keys, h.elections, ?_, h.snapshots, h.leads, h.delivered,
    h.started⟩
  intro x hx
  rcases List.mem_or_eq_of_mem_set hx with hold | rfl
  · exact h.appends x hold
  · exact hok

lemma Sim.setSnapshotCall (h : Sim K c a) {k : ℕ}
    {call call' : Call n (InstallSnapshotArgs n) InstallSnapshotReply}
    (hk : c.snapshotCalls[k]? = some call) (hok : SnapshotOk c.taken a call')
    (hsrc : call'.src = call.src) (hep : call'.epoch = call.epoch)
    (hargs : call'.args = call.args) :
    Sim K { c with snapshotCalls := c.snapshotCalls.set k call' } a := by
  refine ⟨h.inv, h.server, h.votes, h.keys, h.elections, h.appends, ?_, ?_, h.delivered,
    h.started⟩
  · intro x hx
    rcases List.mem_or_eq_of_mem_set hx with hold | rfl
    · exact h.snapshots x hold
    · exact hok
  · intro x hx
    rcases List.mem_or_eq_of_mem_set hx with hold | rfl
    · exact h.leads x hold
    · have := h.leads call (List.mem_of_getElem? hk)
      rw [hsrc]
      unfold StillLeads at this ⊢
      rwa [hep, hargs]

end Mit6824.RaftSim
