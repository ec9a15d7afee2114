import Mathlib.Data.Finset.Max
import Mathlib.Data.Prod.Lex
import Mit6824.RaftExchange

/-!
Elections that nothing disturbs.

A server that does not lead can go to a term above those of all others, and takes the others along
by its vote requests. From a term in which nobody leads, a server whose log is behind none of a
majority can be elected for the next one.
-/

namespace Mit6824.RaftCampaign

open Mit6824.Labgob Mit6824.Quorum Mit6824.RaftLog Mit6824.RaftState Mit6824.RaftElection
open Mit6824.RaftReplication Mit6824.RaftCluster Mit6824.RaftSim Mit6824.RaftSteps
open Mit6824.RaftBackoff Mit6824.RaftCoherence Mit6824.RaftExchange Function

variable {n : ℕ} {C : Type}

structure Kept (rf rf' : Raft n C) : Prop where
  log : rf'.log = rf.log
  snapshotIndex : rf'.snapshotIndex = rf.snapshotIndex
  snapshotTerm : rf'.snapshotTerm = rf.snapshotTerm

lemma Kept.trans {rf rf' rf'' : Raft n C} (h : Kept rf rf') (h' : Kept rf' rf'') : Kept rf rf'' :=
  ⟨h'.log.trans h.log, h'.snapshotIndex.trans h.snapshotIndex,
    h'.snapshotTerm.trans h.snapshotTerm⟩

/-- The log of a candidate is not behind the server's. -/
def Preferred (rf : Raft n C) (args : RequestVoteArgs n) : Prop :=
  ∃ last, rf.log.lastEntry = .ok last ∧ NotBehind rf args last

/-- The candidate has asked the server for its vote, and waits for the reply or has to read it. -/
def Asks (c : Cluster n C) (j p : Fin n) (args : RequestVoteArgs n)
    (reply : Option RequestVoteReply) : Prop :=
  ∃ k : ℕ, c.voteCalls[k]? = some ⟨j, (c.servers j).epoch, p, args, reply, true⟩

section Code

variable [Coded (Persisted n C)] {rf : Raft n C} {args : RequestVoteArgs n}

lemma requestVote_higher (h : rf.currentTerm < args.term) {last : Entry C}
    (hl : rf.log.lastEntry = .ok last) :
    ∃ rf' r, RaftElection.requestVote rf args = .ok (rf', r) ∧ rf'.currentTerm = args.term ∧
      rf'.role = .follower ∧ Kept rf rf' ∧ (Preferred rf args → r.voteGranted = true) := by
  have hadopt : adoptTerm rf args.term = stepDown rf args.term := if_pos h
  by_cases hup : NotBehind rf args last
  · refine ⟨_, _, @requestVote_grant n C _ rf args last h.asymm ?_ ?_ ?_, ?_, ?_, ?_,
      fun _ => rfl⟩
    all_goals rw [hadopt]
    · exact hl
    · exact .inl rfl
    · exact hup
    · rfl
    · rfl
    · exact ⟨rfl, rfl, rfl⟩
  · refine ⟨_, _, @requestVote_refuse n C _ rf args last h.asymm ?_ ?_, ?_, ?_, ?_, ?_⟩
    · rw [hadopt]; exact hl
    · rw [hadopt]; exact fun hyes => hup hyes.2
    · rw [hadopt]; rfl
    · rw [hadopt]; rfl
    · rw [hadopt]; exact ⟨rfl, rfl, rfl⟩
    · rintro ⟨last', hl', hpref⟩
      obtain rfl := Except.ok.inj (hl.symm.trans hl')
      exact absurd hpref hup

end Code

variable [Coded (Persisted n C)] [Inhabited C] [Coded (List C)]
variable {c c' : Cluster n C} {j p : Fin n} {args : RequestVoteArgs n}

lemma exists_lastEntry (hr : Mirrored c) (s : Fin n) :
    ∃ last, (c.servers s).raft.log.lastEntry = .ok last := by
  obtain ⟨a, h⟩ := hr.sim
  obtain ⟨last, hl, -⟩ := (h.server s).mirror.log.lastEntry
  exact ⟨last, hl⟩

/-! ### Asking for votes -/

def requestOf (j : Fin n) (lg : Log C) (last : Entry C) (term : ℕ) : RequestVoteArgs n :=
  ⟨term, j, lg.lastIndex, last.term⟩

lemma stand (hr : Mirrored c) (hrole : (c.servers j).raft.role ≠ .leader)
    {last : Entry C} (hl : (c.servers j).raft.log.lastEntry = .ok last) :
    ∃ c', Goes Silent c c' ∧ (∀ s, s ≠ j → c'.servers s = c.servers s) ∧
      (c'.servers j).raft = standing (c.servers j).raft ∧
      (c'.servers j).elections ((c.servers j).raft.currentTerm + 1) = some .begin ∧
      ∀ p, p ≠ j → Asks c' j p
        (requestOf j (c.servers j).raft.log last ((c.servers j).raft.currentTerm + 1)) none := by
  refine ⟨_, goes_of_step (.leaderElection j) trivial (by
    simp only [step, leaderElection_eq hrole hl, bind, Except.bind, pure, Except.pure]
    rfl), fun s hs => update_of_ne hs _ _, by simp [Cluster.setServer], by simp [Cluster.setServer],
    fun p hp => ?_⟩
  obtain ⟨k, hk⟩ := List.mem_iff_getElem?.mp (mem_peersOf.mpr hp)
  refine ⟨c.voteCalls.length + k, ?_⟩
  simp only [Cluster.setServer, update_self]
  rw [List.getElem?_append_right (Nat.le_add_right _ _), Nat.add_sub_cancel_left,
    List.getElem?_map, hk, me_eq hr]
  rfl

lemma vote (hr : Mirrored c) (hask : Asks c j p args none) (hne : p ≠ j)
    (hlt : (c.servers p).raft.currentTerm < args.term) :
    ∃ c', Goes Silent c c' ∧ (∀ s, s ≠ p → c'.servers s = c.servers s) ∧
      (c'.servers p).raft.currentTerm = args.term ∧ (c'.servers p).raft.role = .follower ∧
      Kept (c.servers p).raft (c'.servers p).raft ∧
      (∃ r, Asks c' j p args (some r) ∧
        (Preferred (c.servers p).raft args → r.voteGranted = true)) ∧
      ∀ q reply, q ≠ p → Asks c j q args reply → Asks c' j q args reply := by
  obtain ⟨k, hk⟩ := hask
  obtain ⟨last, hl⟩ := exists_lastEntry hr p
  obtain ⟨rf, r, hrun, hterm, hrole, hkept, hgrant⟩ := requestVote_higher hlt hl
  have hself : ∀ sv, update c.servers p sv j = c.servers j := fun sv => update_of_ne hne.symm _ _
  refine ⟨_, goes_of_step (.requestVote k) trivial (by
    simp only [step, hk, Option.isNone_none, if_true, hrun, bind, Except.bind, pure, Except.pure]
    rfl), fun s hs => update_of_ne hs _ _, ?_⟩
  simp only [Cluster.setRaft, Cluster.setServer, Server.setRaft, update_self, Asks, hself]
  have hlen := (List.getElem?_eq_some_iff.mp hk).1
  refine ⟨hterm, hrole, hkept, ⟨r, ⟨k, ?_⟩, hgrant⟩, ?_⟩
  · rw [List.getElem?_set_self hlen]
    rfl
  · rintro q reply hq ⟨k', hk'⟩
    refine ⟨k', ?_⟩
    rw [List.getElem?_set_ne]
    · exact hk'
    · rintro rfl
      rw [hk] at hk'
      exact hq (congrArg Call.dst (Option.some.inj hk')).symm

lemma voteAll (hr : Mirrored c) {l : List (Fin n)} (hnd : l.Nodup)
    (hask : ∀ p ∈ l, p ≠ j ∧ Asks c j p args none ∧ (c.servers p).raft.currentTerm < args.term) :
    ∃ c', Goes Silent c c' ∧ (∀ s, s ∉ l → c'.servers s = c.servers s) ∧
      (∀ p ∈ l, (c'.servers p).raft.currentTerm = args.term ∧
        (c'.servers p).raft.role = .follower ∧ Kept (c.servers p).raft (c'.servers p).raft ∧
        ∃ r, Asks c' j p args (some r) ∧
          (Preferred (c.servers p).raft args → r.voteGranted = true)) ∧
      ∀ q reply, q ∉ l → Asks c j q args reply → Asks c' j q args reply := by
  induction l generalizing c with
  | nil => exact ⟨c, .refl, fun _ _ => rfl, by simp, fun _ _ _ h => h⟩
  | cons p l ih =>
    obtain ⟨hp, hnd⟩ := List.nodup_cons.mp hnd
    obtain ⟨hpj, haskp, hlt⟩ := hask p List.mem_cons_self
    obtain ⟨c₁, hgo, hsame, hterm, hrole, hkept, ⟨r, hr₁, hgrant⟩, hothers⟩ := vote hr haskp hpj hlt
    have hne : ∀ q ∈ l, q ≠ p := fun q hq h => hp (h ▸ hq)
    obtain ⟨c', hgo', hsame', hall, hrest⟩ := ih (hgo.mirrored hr) hnd fun q hq => by
      obtain ⟨hqj, haskq, hltq⟩ := hask q (List.mem_cons_of_mem _ hq)
      exact ⟨hqj, hothers q none (hne q hq) haskq, by rwa [hsame q (hne q hq)]⟩
    refine ⟨c', hgo.trans hgo', fun s hs => ?_, fun q hq => ?_, fun q reply hq h => ?_⟩
    · rw [List.mem_cons, not_or] at hs
      rw [hsame' s hs.2, hsame s hs.1]
    · rcases List.mem_cons.mp hq with rfl | hq
      · rw [hsame' q hp]
        exact ⟨hterm, hrole, hkept, r, hrest q _ hp hr₁, hgrant⟩
      · have := hall q hq
        rwa [hsame q (hne q hq)] at this
    · rw [List.mem_cons, not_or] at hq
      exact hrest q reply hq.2 (hothers q reply hq.1 h)

/-! ### A term in which nobody leads -/

lemma standOn (hr : Mirrored c) (hrole : (c.servers j).raft.role ≠ .leader) (d : ℕ)
    {last : Entry C} (hl : (c.servers j).raft.log.lastEntry = .ok last) :
    ∃ c', Goes Silent c c' ∧ (∀ s, s ≠ j → c'.servers s = c.servers s) ∧
      (c'.servers j).raft.role = .candidate ∧ Kept (c.servers j).raft (c'.servers j).raft ∧
      (c'.servers j).raft.currentTerm = (c.servers j).raft.currentTerm + d + 1 ∧
      ∀ p, p ≠ j → Asks c' j p (requestOf j (c.servers j).raft.log last
        ((c.servers j).raft.currentTerm + d + 1)) none := by
  induction d with
  | zero =>
    obtain ⟨c', hgo, hsame, hraft, -, hask⟩ := stand hr hrole hl
    refine ⟨c', hgo, hsame, ?_, ?_, ?_, hask⟩
    all_goals rw [hraft]
    · rfl
    · exact ⟨rfl, rfl, rfl⟩
    · rfl
  | succ d ih =>
    obtain ⟨c₁, hgo₁, hsame₁, hrole₁, hkept₁, hterm₁, -⟩ := ih
    have hl₁ : (c₁.servers j).raft.log.lastEntry = .ok last := by rw [hkept₁.log, hl]
    obtain ⟨c', hgo, hsame, hraft, -, hask⟩ :=
      stand (hgo₁.mirrored hr) (by rw [hrole₁]; decide) hl₁
    have hterm : (c₁.servers j).raft.currentTerm + 1 =
        (c.servers j).raft.currentTerm + (d + 1) + 1 := by omega
    rw [hkept₁.log, hterm] at hask
    refine ⟨c', hgo₁.trans hgo, fun s hs => (hsame s hs).trans (hsame₁ s hs), ?_, ?_, ?_, hask⟩
    all_goals rw [hraft]
    · rfl
    · exact hkept₁.trans ⟨rfl, rfl, rfl⟩
    · exact hterm

/-- All servers are in the term, and none of them leads. -/
def Calm (c : Cluster n C) (t : ℕ) : Prop :=
  ∀ s, (c.servers s).raft.role ≠ .leader ∧ (c.servers s).raft.currentTerm = t

/-- A server that does not lead takes all others along. -/
lemma calm_of_nonleader (hr : Mirrored c)
    (hrole : (c.servers j).raft.role ≠ .leader) : ∃ c' t, Goes Silent c c' ∧ Calm c' t := by
  obtain ⟨last, hl⟩ := exists_lastEntry hr j
  set d := Finset.univ.sup fun s => (c.servers s).raft.currentTerm with hd
  obtain ⟨c₁, hgo₁, hsame₁, hrole₁, -, hterm₁, hask₁⟩ := standOn hr hrole d hl
  obtain ⟨c', hgo', hsame', hall, -⟩ := voteAll (hgo₁.mirrored hr) (nodup_peersOf j) fun p hp => by
    have hpj := mem_peersOf.mp hp
    refine ⟨hpj, hask₁ p hpj, ?_⟩
    have hle : (c.servers p).raft.currentTerm ≤ d :=
      Finset.le_sup (f := fun s => (c.servers s).raft.currentTerm) (Finset.mem_univ p)
    rw [hsame₁ p hpj]
    show _ < (c.servers j).raft.currentTerm + d + 1
    omega
  refine ⟨c', (c.servers j).raft.currentTerm + d + 1, hgo₁.trans hgo', fun s => ?_⟩
  by_cases hs : s = j
  · subst hs
    rw [hsame' s (fun h => mem_peersOf.mp h rfl), hrole₁]
    exact ⟨by decide, hterm₁⟩
  · obtain ⟨hterm, hfollower, -⟩ := hall s (mem_peersOf.mpr hs)
    rw [hfollower]
    exact ⟨by decide, hterm⟩

/-- Of two leaders, the one of the higher term makes a follower of the other. -/
lemma exists_nonleader (hn : 2 ≤ n) (hr : Mirrored c) :
    ∃ c' j, Goes Silent c c' ∧ (c'.servers j).raft.role ≠ .leader := by
  by_cases hall : ∀ s, (c.servers s).raft.role = .leader
  swap
  · push Not at hall
    obtain ⟨j, hj⟩ := hall
    exact ⟨c, j, .refl, hj⟩
  set s₀ : Fin n := ⟨0, by omega⟩
  set s₁ : Fin n := ⟨1, by omega⟩
  have hne : (c.servers s₀).raft.currentTerm ≠ (c.servers s₁).raft.currentTerm := by
    intro heq
    obtain ⟨a, h⟩ := hr.sim
    have h₀ := (h.server s₀).mirror.lead (hall s₀)
    rw [heq, (h.server s₁).mirror.lead (hall s₁)] at h₀
    exact absurd (Fin.mk.inj (Option.some.inj h₀)) (by decide)
  rcases Nat.lt_or_gt_of_ne hne with hlt | hlt
  · obtain ⟨c', hgo, hrole⟩ := demote_goes hr (hall s₁) hlt
    exact ⟨c', s₀, hgo, by rw [hrole]; decide⟩
  · obtain ⟨c', hgo, hrole⟩ := demote_goes hr (hall s₀) hlt
    exact ⟨c', s₁, hgo, by rw [hrole]; decide⟩

lemma exists_calm (hn : 2 ≤ n) (hr : Mirrored c) :
    ∃ c' t, Goes Silent c c' ∧ Calm c' t := by
  obtain ⟨c₁, j, hgo₁, hj⟩ := exists_nonleader hn hr
  obtain ⟨c', t, hgo, hcalm⟩ := calm_of_nonleader (hgo₁.mirrored hr) hj
  exact ⟨c', t, hgo₁.trans hgo, hcalm⟩

/-! ### An election that is won -/

def Counted (c : Cluster n C) (j : Fin n) (t m : ℕ) : Prop :=
  (c.servers j).elections t = some ⟨m + 1, m, false⟩

lemma countGranted {r : RequestVoteReply} {m : ℕ} (hask : Asks c j p args (some r))
    (hgrant : r.voteGranted = true) (hcount : Counted c j args.term m) (hm : m < n / 2) :
    ∃ c', Goes Silent c c' ∧ (∀ s, s ≠ j → c'.servers s = c.servers s) ∧
      (c'.servers j).raft = (c.servers j).raft ∧ Counted c' j args.term (m + 1) ∧
      ∀ q reply, q ≠ p → Asks c j q args reply → Asks c' j q args reply := by
  obtain ⟨k, hk⟩ := hask
  have hmore : (⟨m + 1, m, false⟩ : Election).counting n :=
    ⟨rfl, show m + 1 < n / 2 + 1 by omega, show m < n - 1 by omega⟩
  have hturn : RaftElection.countVote (c.servers j).raft ⟨m + 1, m, false⟩ (some r) =
      ((c.servers j).raft, ⟨m + 2, m + 1, false⟩) := by simp [RaftElection.countVote, hgrant]
  unfold Counted at hcount
  refine ⟨_, goes_of_step (.countVote k) trivial (by
    simp only [step, hk, Cluster.replyOf, and_self, if_true, Cluster.turn, hcount, hmore, hturn,
      Option.map_some]
    rfl), fun s hs => update_of_ne hs _ _, by simp [Cluster.setServer],
    by simp [Counted, Cluster.setServer], fun q reply hq hask => ?_⟩
  obtain ⟨k', hk'⟩ := hask
  refine ⟨k', ?_⟩
  simp only [Cluster.setServer, update_self]
  rw [List.getElem?_set_ne]
  · exact hk'
  · rintro rfl
    rw [hk] at hk'
    exact hq (congrArg Call.dst (Option.some.inj hk')).symm

lemma countAll {l : List (Fin n)} (hnd : l.Nodup) {m : ℕ}
    (hasks : ∀ p ∈ l, ∃ r, Asks c j p args (some r) ∧ r.voteGranted = true)
    (hcount : Counted c j args.term m) (hm : m + l.length ≤ n / 2) :
    ∃ c', Goes Silent c c' ∧ (∀ s, s ≠ j → c'.servers s = c.servers s) ∧
      (c'.servers j).raft = (c.servers j).raft ∧ Counted c' j args.term (m + l.length) := by
  induction l generalizing c m with
  | nil => exact ⟨c, .refl, fun _ _ => rfl, rfl, hcount⟩
  | cons p l ih =>
    obtain ⟨hp, hnd⟩ := List.nodup_cons.mp hnd
    rw [List.length_cons] at hm ⊢
    obtain ⟨r, hask, hgrant⟩ := hasks p List.mem_cons_self
    obtain ⟨c₁, hgo₁, hsame₁, hraft₁, hcount₁, hrest⟩ := countGranted hask hgrant hcount (by omega)
    obtain ⟨c', hgo, hsame, hraft, hcount'⟩ := ih hnd (fun q hq => by
      obtain ⟨r', hask', hgrant'⟩ := hasks q (List.mem_cons_of_mem _ hq)
      exact ⟨r', hrest q _ (fun h => hp (h ▸ hq)) hask', hgrant'⟩) hcount₁ (by omega)
    refine ⟨c', hgo₁.trans hgo, fun s hs => (hsame s hs).trans (hsame₁ s hs),
      hraft.trans hraft₁, ?_⟩
    rwa [Nat.add_assoc, Nat.add_comm 1] at hcount'

lemma win {t : ℕ} (hrole : (c.servers j).raft.role = .candidate)
    (hterm : (c.servers j).raft.currentTerm = t) (hcount : Counted c j t (n / 2)) :
    ∃ c', Goes Silent c c' ∧ (∀ s, s ≠ j → c'.servers s = c.servers s) ∧
      (c'.servers j).raft = becomeLeader (c.servers j).raft := by
  have hdone : ¬ (⟨n / 2 + 1, n / 2, false⟩ : Election).counting n :=
    fun h => lt_irrefl _ h.2.1
  have hfinish : RaftElection.finishElection (c.servers j).raft t ⟨n / 2 + 1, n / 2, false⟩ =
      becomeLeader (c.servers j).raft := if_pos ⟨hterm, hrole, le_rfl⟩
  unfold Counted at hcount
  exact ⟨_, goes_of_step (.finishElection j t) trivial (by
    simp only [step, hcount, if_neg hdone, hfinish]
    rfl), fun s hs => update_of_ne hs _ _, by simp [Cluster.setServer]⟩

/-- A server whose log is behind none of a majority becomes the leader of the next term, with all
others as its followers. -/
lemma elected_of_calm (hr : Mirrored c) {t : ℕ} (hcalm : Calm c t) {Q : Finset (Fin n)}
    (hQ : Majority Q) (hj : j ∈ Q) {last : Entry C}
    (hl : (c.servers j).raft.log.lastEntry = .ok last)
    (hbest : ∀ q ∈ Q, Preferred (c.servers q).raft
      (requestOf j (c.servers j).raft.log last (t + 1))) :
    ∃ c', Goes Silent c c' ∧
      (c'.servers j).raft = becomeLeader (standing (c.servers j).raft) ∧
      ∀ s, Kept (c.servers s).raft (c'.servers s).raft ∧
        (c'.servers s).raft.currentTerm = t + 1 := by
  obtain ⟨hrole, hterm⟩ := hcalm j
  obtain ⟨c₁, hgo₁, hsame₁, hraft₁, hcount₁, hask₁⟩ := stand hr hrole hl
  rw [hterm] at hcount₁ hask₁
  set args := requestOf j (c.servers j).raft.log last (t + 1) with hargs
  have hr₁ := hgo₁.mirrored hr
  obtain ⟨c₂, hgo₂, hsame₂, hall₂, -⟩ := voteAll hr₁ (nodup_peersOf j) fun p hp => by
    have hpj := mem_peersOf.mp hp
    exact ⟨hpj, hask₁ p hpj, by rw [hsame₁ p hpj, (hcalm p).2]; exact Nat.lt_succ_self t⟩
  have hj₂ : c₂.servers j = c₁.servers j := hsame₂ j fun h => mem_peersOf.mp h rfl
  -- the votes it counts are those of a majority without itself
  obtain ⟨V, hV, hcard⟩ : ∃ V ⊆ Q.erase j, V.card = n / 2 := by
    refine Finset.exists_subset_card_eq ?_
    rw [Finset.card_erase_of_mem hj]
    unfold Majority at hQ
    rw [Fintype.card_fin] at hQ
    omega
  have hlen : V.toList.length = n / 2 := by rw [Finset.length_toList, hcard]
  have hvotes : ∀ q ∈ V.toList, ∃ r, Asks c₂ j q args (some r) ∧ r.voteGranted = true := by
    intro q hq
    obtain ⟨hqj, hqQ⟩ := Finset.mem_erase.mp (hV (Finset.mem_toList.mp hq))
    obtain ⟨-, -, -, r, hr, hgrant⟩ := hall₂ q (mem_peersOf.mpr hqj)
    exact ⟨r, hr, hgrant (by rw [hsame₁ q hqj]; exact hbest q hqQ)⟩
  have hcount₂ : Counted c₂ j args.term 0 := by rw [Counted, hj₂]; exact hcount₁
  obtain ⟨c₃, hgo₃, hsame₃, hraft₃, hcount₃⟩ := countAll V.nodup_toList hvotes hcount₂ (by omega)
  rw [Nat.zero_add, hlen] at hcount₃
  have hraft : (c₃.servers j).raft = standing (c.servers j).raft := by rw [hraft₃, hj₂, hraft₁]
  obtain ⟨c', hgo', hsame', hraft'⟩ := win (t := t + 1) (by rw [hraft]; rfl)
    (by rw [hraft, ← hterm]; rfl) hcount₃
  refine ⟨c', hgo₁.trans (hgo₂.trans (hgo₃.trans hgo')), by rw [hraft', hraft], fun s => ?_⟩
  by_cases hs : s = j
  · subst hs
    rw [hraft', hraft]
    exact ⟨⟨rfl, rfl, rfl⟩, by rw [← hterm]; rfl⟩
  · obtain ⟨hterm₂, -, hkept, -⟩ := hall₂ s (mem_peersOf.mpr hs)
    rw [hsame' s hs, hsame₃ s hs]
    rw [hsame₁ s hs] at hkept
    exact ⟨hkept, hterm₂⟩

/-! ### Whom to elect -/

/-- The logs of a majority continue their snapshots, whatever `InstallSnapshot` has kept: they have
the prefix that the longest snapshot covers. -/
lemma exists_coherent_majority (hn : 0 < n) (hr : Mirrored c) :
    ∃ Q, Majority Q ∧ ∀ q ∈ Q, Coherent (c.servers q).raft := by
  obtain ⟨a, h⟩ := hr.sim
  have : Nonempty (Fin n) := ⟨⟨0, hn⟩⟩
  obtain ⟨s, -, hmax⟩ := Finset.exists_max_image Finset.univ
    (fun s => (c.servers s).raft.snapshotIndex) Finset.univ_nonempty
  obtain ⟨l, hl, hlen, -⟩ := (h.server s).shot
  obtain ⟨Q, hQ, hpre⟩ := h.inv.decided_majority hl
  refine ⟨Q, hQ, fun q hq => ⟨(h.server q).mirror.index0, entry_snapshotIndex h ?_⟩⟩
  obtain ⟨x, hx, hxlen, -⟩ := (h.server q).shot
  have hle : (c.servers q).raft.snapshotIndex ≤ l.length := hlen ▸ hmax q (Finset.mem_univ q)
  have htake : x = (a.log q).take (c.servers q).raft.snapshotIndex := by
    obtain ⟨rest, hrest⟩ := hpre q hq
    rw [← hrest, List.take_append_of_le_length hle]
    refine h.inv.decided_eq hx (hl.mono le_rfl (List.take_prefix _ _)) ?_
    rw [hxlen, List.length_take, min_eq_left hle]
  exact htake ▸ hx

/-- Among any servers there is one whose log is behind none of the others'. -/
lemma exists_best (hr : Mirrored c) {Q : Finset (Fin n)} (hQ : Q.Nonempty) (t : ℕ) :
    ∃ j ∈ Q, ∃ last, (c.servers j).raft.log.lastEntry = .ok last ∧ ∀ q ∈ Q,
      Preferred (c.servers q).raft (requestOf j (c.servers j).raft.log last t) := by
  choose last hlast using exists_lastEntry hr
  obtain ⟨j, hj, hmax⟩ := Finset.exists_max_image Q
    (fun s => toLex ((last s).term, (c.servers s).raft.log.lastIndex)) hQ
  refine ⟨j, hj, last j, hlast j, fun q hq => ⟨last q, hlast q, ?_⟩⟩
  exact (Prod.Lex.toLex_le_toLex.mp (hmax q hq)).imp id fun h => ⟨h.1.symm, h.2⟩

/-- A new leader, in a cluster whose servers all are in its term. -/
structure Leads (c : Cluster n C) (j : Fin n) (Q : Finset (Fin n)) : Prop where
  role : (c.servers j).raft.role = .leader
  next : (c.servers j).raft.nextIndex = some fun _ => (c.servers j).raft.log.lastIndex + 1
  mtch : (c.servers j).raft.matchIndex = some fun _ => 0
  term : ∀ s, (c.servers s).raft.currentTerm = (c.servers j).raft.currentTerm
  coherent : ∀ q ∈ Q, Coherent (c.servers q).raft

/-- **A leader can be elected** from every reachable cluster of two servers or more. -/
theorem exists_leads (hn : 2 ≤ n) (hr : Mirrored c) :
    ∃ c' j Q, Goes Silent c c' ∧ Majority Q ∧ j ∈ Q ∧ Leads c' j Q := by
  obtain ⟨c₁, t, hgo₁, hcalm⟩ := exists_calm hn hr
  have hr₁ := hgo₁.mirrored hr
  obtain ⟨Q, hQ, hco⟩ := exists_coherent_majority (by omega) hr₁
  have hne : Q.Nonempty := by
    unfold Majority at hQ
    exact Finset.card_pos.mp (by omega)
  obtain ⟨j, hj, last, hl, hbest⟩ := exists_best hr₁ hne (t + 1)
  obtain ⟨c', hgo, hraft, hall⟩ := elected_of_calm hr₁ hcalm hQ hj hl hbest
  refine ⟨c', j, Q, hgo₁.trans hgo, hQ, hj, ?_, ?_, ?_, ?_, ?_⟩
  · rw [hraft]; rfl
  · rw [hraft]; rfl
  · rw [hraft]; rfl
  · exact fun s => (hall s).2.trans (hall j).2.symm
  · intro q hq
    obtain ⟨hkept, -⟩ := hall q
    obtain ⟨hidx, hhead⟩ := hco q hq
    refine ⟨?_, ?_⟩
    · rw [hkept.log, hkept.snapshotIndex, hidx]
    · rwa [hkept.log, hkept.snapshotIndex, hkept.snapshotTerm]

end Mit6824.RaftCampaign
