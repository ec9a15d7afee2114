import Mit6824.RaftCoherence
import Mit6824.RaftSteps

/-!
A leader and one of its peers, in a cluster in which nothing goes wrong.

A round of log replication between two servers is a heartbeat of the leader, of whose calls the one
to the peer is handled and answered. The other calls of the heartbeat are on their way.
-/

namespace Mit6824.RaftExchange

open Mit6824.Labgob Mit6824.RaftLog Mit6824.RaftState Mit6824.RaftReplication
open Mit6824.RaftBackoff Mit6824.RaftCluster Mit6824.RaftSim Mit6824.RaftSteps
open Mit6824.Runs Function

variable {n : ℕ} {C : Type}

/-- What the servers do among themselves while nothing goes wrong: no service takes part, no server
crashes and no call is given up. -/
def Silent : Action n C → Prop
  | .start _ _ | .snapshot _ _ | .deliver _ | .voteFailed _ | .crash _ | .crashRequestVote _
  | .crashAppendEntries _ | .crashInstallSnapshot _ => False
  | _ => True

def sendTerm : Send n C → ℕ
  | .appendEntries args => args.term
  | .installSnapshot args => args.term

/-- The leader has sent the message, and it has not been handled. -/
def Sent (c : Cluster n C) (i p : Fin n) : Send n C → Prop
  | .appendEntries args =>
    ∃ k : ℕ, c.appendCalls[k]? = some (callTo i (c.servers i).epoch args p)
  | .installSnapshot args =>
    ∃ k : ℕ, c.snapshotCalls[k]? = some (callTo i (c.servers i).epoch args p)

/-- The peer has handled a message, and the leader has not taken up the reply. -/
def Replied (c : Cluster n C) (i p : Fin n) : Answer n C → Prop
  | .appendEntries args reply => ∃ k : ℕ,
    c.appendCalls[k]? = some ((callTo i (c.servers i).epoch args p).answer reply)
  | .installSnapshot args reply => ∃ k : ℕ,
    c.snapshotCalls[k]? = some ((callTo i (c.servers i).epoch args p).answer reply)

lemma mem_of_mapM {α β : Type} {f : α → Except Panic β} {l : List α} {ys : List β}
    (h : l.mapM f = .ok ys) {x : α} {y : β} (hx : x ∈ l) (hy : f x = .ok y) : y ∈ ys := by
  induction l generalizing ys with
  | nil => cases hx
  | cons z l ih =>
    rw [List.mapM_cons] at h
    obtain ⟨w, hw, h⟩ := bind_eq_ok h
    obtain ⟨ws, hws, h⟩ := bind_eq_ok h
    obtain rfl := Except.ok.inj h
    rcases List.mem_cons.mp hx with rfl | hx
    · rw [hw] at hy
      exact Except.ok.inj hy ▸ List.mem_cons_self
    · exact List.mem_cons_of_mem _ (ih hws hx)

section Roles

variable [Coded (Persisted n C)] {rf rf' : Raft n C}

omit [Coded (Persisted n C)] in
@[simp] lemma role_followerCommit (rf : Raft n C) (k : ℕ) :
    (followerCommit rf k).role = rf.role := by
  unfold followerCommit
  split <;> rfl

lemma role_placeEntries {args : AppendEntriesArgs n C} {reply reply' : AppendEntriesReply}
    (h : placeEntries rf args reply = .ok (rf', reply')) : rf'.role = rf.role := by
  unfold placeEntries at h
  split at h
  · obtain ⟨_, -, h⟩ := bind_eq_ok h
    obtain ⟨rfl, -⟩ := Prod.mk.inj (Except.ok.inj h)
    rfl
  split at h
  · dsimp only at h
    split at h
    · obtain ⟨rfl, -⟩ := Prod.mk.inj (Except.ok.inj h)
      rfl
    · obtain ⟨_, -, h⟩ := bind_eq_ok h
      obtain ⟨log, -, h⟩ := bind_eq_ok h
      obtain ⟨rfl, -⟩ := Prod.mk.inj (Except.ok.inj h)
      exact role_followerCommit _ _
  · obtain ⟨_, -, h⟩ := bind_eq_ok h
    split at h
    · obtain ⟨log, -, h⟩ := bind_eq_ok h
      obtain ⟨rfl, -⟩ := Prod.mk.inj (Except.ok.inj h)
      rfl
    · obtain ⟨log, -, h⟩ := bind_eq_ok h
      obtain ⟨rfl, -⟩ := Prod.mk.inj (Except.ok.inj h)
      exact role_followerCommit _ _

lemma role_heardFrom {t : ℕ} (l : Fin n) (h : rf.currentTerm < t) :
    (heardFrom rf t l).role = .follower := by
  unfold heardFrom
  dsimp only
  rw [if_pos (.inl h)]
  rfl

lemma role_installSnapshot [Inhabited C] {args : InstallSnapshotArgs n}
    {reply : InstallSnapshotReply} (h : installSnapshot rf args = .ok (rf', reply))
    (hlt : rf.currentTerm < args.term) : rf'.role = .follower := by
  rw [installSnapshot, if_neg hlt.asymm] at h
  dsimp only at h
  split at h
  · obtain ⟨rfl, -⟩ := Prod.mk.inj (Except.ok.inj h)
    exact role_heardFrom _ hlt
  · obtain ⟨rf₁, hrep, h⟩ := bind_eq_ok h
    obtain ⟨rfl, -⟩ := Prod.mk.inj (Except.ok.inj h)
    unfold replaceLog at hrep
    dsimp only at hrep
    split at hrep
    all_goals
      obtain ⟨log, -, hrep⟩ := bind_eq_ok hrep
      obtain rfl := Except.ok.inj hrep
      exact role_heardFrom _ hlt

lemma role_handle [Inhabited C] {m : Send n C} {ans : Answer n C}
    (h : handle rf m = .ok (rf', ans)) (hlt : rf.currentTerm < sendTerm m) :
    rf'.role = .follower := by
  cases m with
  | appendEntries args =>
    obtain ⟨⟨rf₁, reply⟩, hrun, h⟩ := bind_eq_ok h
    obtain ⟨rfl, -⟩ := Prod.mk.inj (Except.ok.inj h)
    rw [appendEntries_eq hlt.le] at hrun
    exact (role_placeEntries hrun).trans (role_heardFrom _ hlt)
  | installSnapshot args =>
    obtain ⟨⟨rf₁, reply⟩, hrun, h⟩ := bind_eq_ok h
    obtain ⟨rfl, -⟩ := Prod.mk.inj (Except.ok.inj h)
    exact role_installSnapshot hrun hlt

end Roles


lemma replicate_term {rf : Raft n C} {p : Fin n} {m : Send n C} (h : replicate rf p = .ok m) :
    sendTerm m = rf.currentTerm := by
  unfold replicate at h
  obtain ⟨_, -, h⟩ := bind_eq_ok h
  obtain ⟨_, -, h⟩ := bind_eq_ok h
  obtain ⟨_, -, h⟩ := bind_eq_ok h
  dsimp only at h
  split at h
  · obtain rfl := Except.ok.inj h
    rfl
  · obtain ⟨_, -, h⟩ := bind_eq_ok h
    obtain ⟨_, -, h⟩ := bind_eq_ok h
    obtain rfl := Except.ok.inj h
    rfl

/-! ### Runs that nothing disturbs -/

variable [Coded (Persisted n C)] [Inhabited C] [Coded (List C)]
variable {c c' : Cluster n C} {i p : Fin n}

/-- Runs whose actions all are of a kind. -/
abbrev Goes (P : Action n C → Prop) (c c' : Cluster n C) : Prop :=
  ReachesIf advance (fun _ act => P act) c c'

/-- The cluster mirrors a state of the protocol that has its invariants, as every cluster does that
a run has come to. -/
def Mirrored (c : Cluster n C) : Prop := ∃ a, Sim False c a

lemma Mirrored.sim (h : Mirrored c) : ∃ a, Sim False c a := h

variable {P : Action n C → Prop}

lemma goes_of_step (act : Action n C) (hact : P act) (hs : step c act = some (.ok c')) :
    Goes P c c' :=
  .single ⟨act, hact, advance_eq_some_iff.mpr hs⟩

lemma Goes.mono {Q : Action n C → Prop} (h : Goes P c c') (hPQ : ∀ act, P act → Q act) :
    Goes Q c c' :=
  ReachesIf.mono h fun _ act => hPQ act

lemma Goes.mirrored (h : Goes P c c') (hc : Mirrored c) : Mirrored c' := by
  obtain ⟨a, ha⟩ := hc
  obtain ⟨b, -, hb⟩ := ha.run (fun hk => hk.elim) h
  exact ⟨b, hb⟩

lemma me_eq (hr : Mirrored c) (s : Fin n) : (c.servers s).raft.me = s := by
  obtain ⟨a, h⟩ := hr
  exact (h.server s).mirror.me

/-- A leader has something to send to every peer. -/
lemma exists_replicate (hr : Mirrored c) (hi : (c.servers i).raft.role = .leader)
    (hp : p ≠ i) : ∃ m, replicate (c.servers i).raft p = .ok m := by
  obtain ⟨a, h⟩ := hr.sim
  obtain ⟨m, hm, -⟩ := h.replicate hi hp 0
  exact ⟨m, hm⟩

lemma heartbeat_goes (hr : Mirrored c) (hi : (c.servers i).raft.role = .leader)
    (hp : p ≠ i) {m : Send n C} (hm : replicate (c.servers i).raft p = .ok m) :
    ∃ c', Goes Silent c c' ∧ c'.servers = c.servers ∧ Sent c' i p m := by
  have hme := me_eq hr i
  obtain ⟨ms, hms⟩ : ∃ ms, leaderLogReplication (c.servers i).raft = .ok ms := by
    obtain ⟨ms, hms, -⟩ := mapM_ok (f := fun q => do
        let m ← replicate (c.servers i).raft q
        return (q, m)) (Q := fun _ _ => True)
      (l := (List.finRange n).filter fun q => q ≠ (c.servers i).raft.me) fun q hq => by
        obtain ⟨m', hm'⟩ := exists_replicate hr hi (p := q) (by simpa [hme] using hq)
        exact ⟨(q, m'), by simp [hm', bind, Except.bind, pure, Except.pure], trivial⟩
    exact ⟨ms, hms⟩
  have hmem : (p, m) ∈ ms := by
    refine mem_of_mapM (x := p) hms (by simp [hme, hp]) ?_
    simp [hm, bind, Except.bind, pure, Except.pure]
  refine ⟨c.send i ms, goes_of_step (.leaderHeartbeat i) trivial (by
    simp only [step, hi, if_true, hms, bind, Except.bind, pure, Except.pure]), rfl, ?_⟩
  cases m with
  | appendEntries args =>
    refine List.mem_iff_getElem?.mp (List.mem_append_right _ (List.mem_filterMap.mpr ?_))
    exact ⟨_, hmem, rfl⟩
  | installSnapshot args =>
    refine List.mem_iff_getElem?.mp (List.mem_append_right _ (List.mem_filterMap.mpr ?_))
    exact ⟨_, hmem, rfl⟩

/-- No handler stops its server. -/
lemma exists_handle (hr : Mirrored c) {m : Send n C} (hsent : Sent c i p m) :
    ∃ rf ans, handle (c.servers p).raft m = .ok (rf, ans) := by
  obtain ⟨a, h⟩ := hr.sim
  cases m with
  | appendEntries args =>
    obtain ⟨k, hk⟩ := hsent
    cases hrun : appendEntries (c.servers p).raft args with
    | ok r => exact ⟨r.1, _, by simp only [handle, hrun, bind, Except.bind]; rfl⟩
    | error e =>
      have hs : step c (.appendEntries k) = some (.error e) := by
        simp only [step, hk, callTo, Option.isNone_none, if_true, hrun, bind, Except.bind]
      obtain ⟨c', hc', -⟩ := h.step hs fun hk => hk.elim
      cases hc'
  | installSnapshot args =>
    obtain ⟨k, hk⟩ := hsent
    cases hrun : installSnapshot (c.servers p).raft args with
    | ok r => exact ⟨r.1, _, by simp only [handle, hrun, bind, Except.bind]; rfl⟩
    | error e =>
      have hs : step c (.installSnapshot k) = some (.error e) := by
        simp only [step, hk, callTo, Option.isNone_none, if_true, hrun, bind, Except.bind]
      obtain ⟨c', hc', -⟩ := h.step hs fun hk => hk.elim
      cases hc'

lemma handle_goes (hp : p ≠ i) {m : Send n C} (hsent : Sent c i p m) {rf : Raft n C}
    {ans : Answer n C} (hrun : handle (c.servers p).raft m = .ok (rf, ans)) :
    ∃ c', Goes Silent c c' ∧ c'.servers = update c.servers p ((c.servers p).setRaft rf) ∧
      Replied c' i p ans := by
  have hself : ∀ sv, update c.servers p sv i = c.servers i := fun sv => update_of_ne hp.symm _ _
  cases m with
  | appendEntries args =>
    obtain ⟨k, hk⟩ := hsent
    obtain ⟨⟨rf₁, reply⟩, happend, hans⟩ := bind_eq_ok hrun
    obtain ⟨rfl, rfl⟩ := Prod.mk.inj (Except.ok.inj hans)
    refine ⟨_, goes_of_step (.appendEntries k) trivial (by
      simp only [step, hk, callTo, Option.isNone_none, if_true, happend, bind, Except.bind, pure,
        Except.pure]
      rfl), rfl, k, ?_⟩
    simp only [Cluster.setRaft, Cluster.setServer, hself]
    exact List.getElem?_set_self (List.getElem?_eq_some_iff.mp hk).1
  | installSnapshot args =>
    obtain ⟨k, hk⟩ := hsent
    obtain ⟨⟨rf₁, reply⟩, hinstall, hans⟩ := bind_eq_ok hrun
    obtain ⟨rfl, rfl⟩ := Prod.mk.inj (Except.ok.inj hans)
    refine ⟨_, goes_of_step (.installSnapshot k) trivial (by
      simp only [step, hk, callTo, Option.isNone_none, if_true, hinstall, bind, Except.bind, pure,
        Except.pure]
      rfl), rfl, k, ?_⟩
    simp only [Cluster.setRaft, Cluster.setServer, hself]
    exact List.getElem?_set_self (List.getElem?_eq_some_iff.mp hk).1

lemma settle_goes {ans : Answer n C} (hans : Replied c i p ans) {rf : Raft n C}
    (hrun : settle (c.servers i).raft p ans = .ok rf) :
    ∃ c', Goes Silent c c' ∧ c'.servers = update c.servers i ((c.servers i).setRaft rf) := by
  cases ans with
  | appendEntries args reply =>
    obtain ⟨k, hk⟩ := hans
    have hrun : sendAppendEntries (c.servers i).raft p args reply = .ok rf := hrun
    exact ⟨_, goes_of_step (.sendAppendEntries k) trivial (by
      simp only [step, hk, Call.answer, callTo, Cluster.replyOf, and_self, if_true, hrun, bind,
        Except.bind, pure, Except.pure]
      rfl), rfl⟩
  | installSnapshot args reply =>
    obtain ⟨k, hk⟩ := hans
    have hrun : sendInstallSnapshot (c.servers i).raft p args reply = .ok rf := hrun
    exact ⟨_, goes_of_step (.sendInstallSnapshot k) trivial (by
      simp only [step, hk, Call.answer, callTo, Cluster.replyOf, and_self, if_true, hrun, bind,
        Except.bind, pure, Except.pure]
      rfl), rfl⟩

lemma round_goes (hr : Mirrored c) (hi : (c.servers i).raft.role = .leader)
    (hp : p ≠ i) {leader follower : Raft n C}
    (hrun : RaftBackoff.round p (c.servers i).raft (c.servers p).raft = .ok (leader, follower)) :
    ∃ c', Goes Silent c c' ∧ (∀ s, s ≠ i → s ≠ p → c'.servers s = c.servers s) ∧
      c'.servers i = (c.servers i).setRaft leader ∧
      c'.servers p = (c.servers p).setRaft follower := by
  obtain ⟨⟨f, ans⟩, hex, hrun⟩ := bind_eq_ok hrun
  obtain ⟨l, hsettle, hrun⟩ := bind_eq_ok hrun
  obtain ⟨rfl, rfl⟩ := Prod.mk.inj (Except.ok.inj hrun)
  obtain ⟨m, hm, hhandle⟩ := bind_eq_ok hex
  obtain ⟨c₁, hgo₁, hsame₁, hsent⟩ := heartbeat_goes hr hi hp hm
  rw [← hsame₁] at hhandle hsettle ⊢
  obtain ⟨c₂, hgo₂, hsame₂, hans⟩ := handle_goes hp hsent hhandle
  have hi₂ : c₂.servers i = c₁.servers i := by rw [hsame₂, update_of_ne hp.symm]
  rw [← hi₂] at hsettle
  obtain ⟨c₃, hgo₃, hsame₃⟩ := settle_goes hans hsettle
  refine ⟨c₃, hgo₁.trans (hgo₂.trans hgo₃), fun s hsi hsp => ?_, ?_, ?_⟩
  · rw [hsame₃, update_of_ne hsi, hsame₂, update_of_ne hsp]
  · rw [hsame₃, update_self, hi₂]
  · rw [hsame₃, update_of_ne hp, hsame₂, update_self]

lemma demote_goes (hr : Mirrored c) (hi : (c.servers i).raft.role = .leader)
    (hlt : (c.servers p).raft.currentTerm < (c.servers i).raft.currentTerm) :
    ∃ c', Goes Silent c c' ∧ (c'.servers p).raft.role = .follower := by
  have hp : p ≠ i := by
    rintro rfl
    exact lt_irrefl _ hlt
  obtain ⟨m, hm⟩ := exists_replicate hr hi hp
  obtain ⟨c₁, hgo₁, hsame, hsent⟩ := heartbeat_goes hr hi hp hm
  obtain ⟨rf, ans, hrun⟩ := exists_handle (hgo₁.mirrored hr) hsent
  obtain ⟨c', hgo, hservers, -⟩ := handle_goes hp hsent hrun
  refine ⟨c', hgo₁.trans hgo, ?_⟩
  rw [hservers, update_self]
  rw [hsame] at hrun
  exact role_handle hrun (by rwa [replicate_term hm])

end Mit6824.RaftExchange
