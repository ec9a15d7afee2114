import Mit6824.RaftExchange

/-!
A leader that brings a majority up to its log has committed all of it.
-/

namespace Mit6824.RaftCatchUp

open Mit6824.Labgob Mit6824.Quorum Mit6824.TermLog Mit6824.RaftLog Mit6824.RaftState
open Mit6824.RaftReplication Mit6824.RaftBackoff Mit6824.RaftCoherence Mit6824.RaftCluster
open Mit6824.RaftSim Mit6824.RaftSteps Mit6824.RaftExchange Function

variable {n : ℕ} {C : Type}

section Code

variable {rf' : Raft n C} {mtch : Fin n → ℕ}

/-- `leaderCommit` commits what a majority has, if its last entry is of the leader's term. -/
lemma le_commitIndex (rf : Raft n C) (hm : rf.matchIndex = some mtch) {e : Entry C} {i : ℕ}
    (he : rf.log.entry i = .ok e) (ht : e.term = rf.currentTerm) (hs : rf.snapshotIndex < i)
    {Q : Finset (Fin n)} (hQ : Majority Q) (hlast : i = rf.log.lastIndex)
    (hall : ∀ q ∈ Q, q ≠ rf.me → mtch q = i) (hb : ∀ p, mtch p ≤ i)
    (h : leaderCommit rf = .ok rf') : i ≤ rf'.commitIndex := by
  set g := update mtch rf.me i with hg
  have hbound : ∀ p, g p ≤ i := by
    intro p
    by_cases hp : p = rf.me
    · rw [hp, hg, update_self]
    · rw [hg, update_of_ne hp]
      exact hb p
  have hsort : getSortedMatchIndex rf = .ok (sorted g) := by
    simp [getSortedMatchIndex, hm, hg, hlast]
  rw [leaderCommit, hsort] at h
  simp only [bind, Except.bind, pure, Except.pure] at h
  split at h
  · next k least hk hleast =>
    -- the median is what the majority has
    obtain rfl : k = i := by
      refine le_antisymm (sorted_le g hk hbound) (le_median g hk hQ fun q hq => ?_)
      by_cases hqm : q = rf.me
      · rw [hqm, hg, update_self]
      · rw [hg, update_of_ne hqm, hall q hq hqm]
    rw [if_neg (not_le.mpr hs), he] at h
    dsimp only at h
    split at h
    · obtain rfl := Except.ok.inj h
      exact le_rfl
    · next hno =>
      obtain rfl := Except.ok.inj h
      by_contra hlt
      exact hno ⟨Or.inl ht, not_le.mp hlt⟩
  · cases h

end Code

variable [Coded (Persisted n C)] [Inhabited C] [Coded (List C)]
variable {c c' : Cluster n C} {i q : Fin n} {leader : Raft n C} {next mtch : Fin n → ℕ}

omit [Coded (List C)] in
lemma request_of_exchange {rf follower : Raft n C} {args : AppendEntriesArgs n C}
    {reply : AppendEntriesReply} {follower' : Raft n C}
    (h : exchange q rf follower = .ok (follower', .appendEntries args reply)) :
    replicate rf q = .ok (.appendEntries args) := by
  obtain ⟨m, hm, h⟩ := bind_eq_ok h
  cases m with
  | appendEntries a =>
    obtain ⟨r, -, h⟩ := bind_eq_ok h
    have := (Prod.mk.inj (Except.ok.inj h)).2
    rwa [← (Answer.appendEntries.inj this).1]
  | installSnapshot a =>
    obtain ⟨r, -, h⟩ := bind_eq_ok h
    cases (Prod.mk.inj (Except.ok.inj h)).2

/-- What a request that succeeds will leave matched. -/
structure Ready (leader rf follower : Raft n C) (q : Fin n) (args : AppendEntriesArgs n C)
    (reply : AppendEntriesReply) (follower' : Raft n C) : Prop where
  exchange : exchange q rf follower = .ok (follower', .appendEntries args reply)
  success : reply.success = true
  term : args.term = leader.currentTerm
  upTo : upTo args = leader.log.lastIndex

omit [Coded (List C)] in
lemma ready_of_success (hL : Coherent leader) {p : ℕ} (hp : next q = p + 1) (hm : mtch q ≤ p)
    (hs : leader.snapshotIndex ≤ p) (hle : p ≤ leader.log.lastIndex) {follower follower' : Raft n C}
    {args : AppendEntriesArgs n C} {reply : AppendEntriesReply}
    (hex : exchange q (withPeers leader next mtch) follower =
      .ok (follower', .appendEntries args reply)) (hok : reply.success = true) :
    Ready leader (withPeers leader next mtch) follower q args reply follower' := by
  obtain ⟨prev, hprev⟩ := hL.entry hs hle
  have hreq := request_of_exchange hex
  rw [replicate_request hL hp hm hs hprev] at hreq
  obtain rfl := Send.appendEntries.inj (Except.ok.inj hreq)
  refine ⟨hex, hok, rfl, ?_⟩
  have hlen := hL.length
  have hidx := hL.index0
  simp only [upTo, requestFrom, List.length_drop]
  omega

omit [Coded (List C)] in
lemma ready_installed (next mtch : Fin n → ℕ) (hL : Coherent leader) {follower : Raft n C}
    (h : FollowsLeader leader follower) (hlast : follower.log.lastIndex < leader.snapshotIndex) :
    ∃ args reply follower', Ready leader
      (withPeers leader (update next q (leader.snapshotIndex + 1))
        (update mtch q leader.snapshotIndex)) (installed leader follower) q args reply
        follower' := by
  have hnext := update_self q (leader.snapshotIndex + 1) next
  have hmtch := (update_self q leader.snapshotIndex mtch).le
  obtain ⟨args, reply, follower', hex, ⟨hok, -⟩ | ⟨-, -, -, -, hno⟩⟩ := exchange_cases hL
    (followsLeader_installed hL h hlast) hnext hmtch le_rfl hL.snapshotIndex_le
  · exact ⟨args, reply, follower',
      ready_of_success hL hnext hmtch le_rfl hL.snapshotIndex_le hex hok⟩
  · have hend : (installed leader follower).log.lastIndex = leader.snapshotIndex := rfl
    have hstart : (installed leader follower).snapshotIndex = leader.snapshotIndex := rfl
    omega

/-- The leader backs off until a request succeeds. -/
lemma ready_goes (hr : Mirrored c) (hq : q ≠ i) (hlead : leader.role = .leader)
    (hL : Coherent leader) (m : ℕ) (hraft : (c.servers i).raft = withPeers leader next mtch)
    (h : FollowsLeader leader (c.servers q).raft) {p : ℕ} (hp : next q = p + 1) (hm : mtch q = 0)
    (hle : p ≤ leader.log.lastIndex)
    (hs : leader.snapshotIndex ≤ p ∨ (c.servers q).raft.log.lastIndex < leader.snapshotIndex)
    (hmeasure : 2 * (c.servers q).raft.log.lastIndex +
      (if (c.servers q).raft.log.lastIndex < p then 1 else 0) ≤ m) :
    ∃ c' v w args reply follower, Goes Silent c c' ∧
      (∀ s, s ≠ i → s ≠ q → c'.servers s = c.servers s) ∧
      (c'.servers i).raft = withPeers leader (update next q v) (update mtch q w) ∧
      w ≤ leader.snapshotIndex ∧
      Ready leader (c'.servers i).raft (c'.servers q).raft q args reply follower := by
  induction m using Nat.strong_induction_on generalizing c next p with
  | h m ih =>
    have hi : (c.servers i).raft.role = .leader := by rw [hraft]; exact hlead
    rcases Nat.lt_or_ge p leader.snapshotIndex with hsnap | hsnap
    · -- the snapshot first, and then a request that succeeds
      have hlast := hs.resolve_left (not_le.mpr hsnap)
      obtain ⟨c₁, hgo, hsame, hleader, hfollower⟩ := round_goes hr hi hq
        (by rw [hraft]; exact round_install h hp hm hsnap hlast)
      have hleader : (c₁.servers i).raft = _ := congrArg Server.raft hleader
      have hfollower : (c₁.servers q).raft = _ := congrArg Server.raft hfollower
      obtain ⟨args, reply, f, hready⟩ := ready_installed (q := q) next mtch hL h hlast
      refine ⟨c₁, _, _, args, reply, f, hgo, hsame, hleader, le_rfl, ?_⟩
      rw [hleader, hfollower]
      exact hready
    obtain ⟨args, reply, follower', hex, ⟨hok, -⟩ | ⟨hfail, hargs, hterm, hf, hwhere⟩⟩ :=
      exchange_cases hL h hp (show mtch q ≤ p by omega) hsnap hle
    · refine ⟨c, next q, mtch q, args, reply, follower', .refl, fun _ _ _ => rfl, ?_, by omega, ?_⟩
      · rw [hraft, update_eq_self, update_eq_self]
      · rw [hraft]
        exact ready_of_success hL hp (by omega) hsnap hle hex hok
    have hci : reply.conflictIndex ≤ p := by
      rcases hwhere with ⟨hc, hlt, -⟩ | ⟨hc, -⟩ <;> omega
    obtain ⟨v, hsettle, hv, hvs⟩ := settle_conflict hlead hL next hm hargs hterm hfail
      (hci.trans hle)
    obtain ⟨c₁, hgo, hsame, hleader, hfollower⟩ := round_goes hr hi hq
      (by rw [hraft]; exact round_append hex hsettle)
    have hraft₁ : (c₁.servers i).raft = withPeers leader (update next q (v + 1)) mtch := by
      rw [hleader]; rfl
    have hlog : (c₁.servers q).raft = follower' := by rw [hfollower]; rfl
    -- the follower is too short and the next request is not above its end, or it has cut its log
    obtain ⟨c', v', w, args', reply', f, hgo', hsame', hraft', hw, hready⟩ := ih
      (2 * follower'.log.lastIndex + if follower'.log.lastIndex < v then 1 else 0)
      (by split at hmeasure <;> split <;> omega) (hgo.mirrored hr) hraft₁ (hlog ▸ hf)
      (update_self _ _ _) (by omega) (by rw [hlog]; omega) (by rw [hlog])
    refine ⟨c', v', w, args', reply', f, hgo.trans hgo', fun s hsi hsq =>
      (hsame' s hsi hsq).trans (hsame s hsi hsq), ?_, hw, hready⟩
    rw [hraft', update_idem]

def caughtUp (leader : Raft n C) (next mtch : Fin n → ℕ) (q : Fin n) (k : ℕ) : Raft n C :=
  { leader with
    nextIndex := some (update next q (leader.log.lastIndex + 1))
    matchIndex := some (update mtch q leader.log.lastIndex)
    commitIndex := k }

/-- All that a leader knows to be matched is in its log. -/
lemma matchIndex_le (hr : Mirrored c) (hi : (c.servers i).raft.role = .leader)
    (hm : (c.servers i).raft.matchIndex = some mtch) (p : Fin n) :
    mtch p ≤ (c.servers i).raft.log.lastIndex := by
  obtain ⟨a, h⟩ := hr.sim
  obtain ⟨next, mtch', -, hm', hpeers⟩ := (h.server i).leading hi
  obtain rfl := Option.some.inj (hm.symm.trans hm')
  obtain ⟨hlt, hle, -⟩ := hpeers p
  rw [h.llog_eq hi] at hle
  rw [(h.server i).mirror.log.lastIndex]
  omega

/-- A leader whose log ends with an entry of its term brings a peer up to it, and commits its log
if a majority has it then. -/
lemma catchUp (hr : Mirrored c) (hq : q ≠ i) (hi : (c.servers i).raft.role = .leader)
    (hterm : (c.servers q).raft.currentTerm = (c.servers i).raft.currentTerm)
    (hco : Coherent (c.servers q).raft) (hn : (c.servers i).raft.nextIndex = some next)
    (hm : (c.servers i).raft.matchIndex = some mtch)
    (hnext : (c.servers i).raft.snapshotIndex < next q)
    (hnext' : next q ≤ (c.servers i).raft.log.lastIndex + 1) (hzero : mtch q = 0)
    (hsnap : (c.servers i).raft.snapshotIndex < (c.servers i).raft.log.lastIndex) {e : Entry C}
    (he : (c.servers i).raft.log.lastEntry = .ok e)
    (het : e.term = (c.servers i).raft.currentTerm) :
    ∃ c' k, Goes Silent c c' ∧ (∀ s, s ≠ i → s ≠ q → c'.servers s = c.servers s) ∧
      (c'.servers i).raft = caughtUp (c.servers i).raft next mtch q k ∧
      (c.servers i).raft.commitIndex ≤ k ∧ ∀ Q, Majority Q →
        (∀ s ∈ Q, s ≠ i → s ≠ q → mtch s = (c.servers i).raft.log.lastIndex) →
        (c.servers i).raft.log.lastIndex ≤ k := by
  have hbound := matchIndex_le hr hi hm
  have hme := me_eq hr i
  obtain ⟨a, h⟩ := hr.sim
  obtain ⟨hL, hfollows⟩ := followsLeader_of_sim h i q hi hterm hco
  have hret := (h.server i).mirror.log
  set leader := (c.servers i).raft with hleader
  have hself : leader = withPeers leader next mtch := by rw [withPeers, ← hn, ← hm]
  obtain ⟨c₁, v, w, args, reply, f, hgo₁, hsame₁, hraft₁, hw, hready⟩ := ready_goes hr hq hi hL _
    hself hfollows (p := next q - 1) (by omega) hzero (by omega) (Or.inl (by omega)) le_rfl
  -- what `leaderCommit` makes of the new entry of `matchIndex`
  have hb : ∀ p, update mtch q leader.log.lastIndex p ≤ leader.log.lastIndex := by
    intro p
    by_cases hp : p = q
    · rw [hp, update_self]
    · rw [update_of_ne hp]
      exact hbound p
  obtain ⟨k, hk, hkor⟩ := leaderCommit_spec (j := i)
    { (withPeers leader (update next q v) (update mtch q w) : Raft n C) with
      matchIndex := some (update (update mtch q w) q leader.log.lastIndex) }
    rfl hme hret (h.server i).mirror.index0 (by rwa [update_idem, ← hret.lastIndex])
  have hcurrent : ¬ (args.term ≠
      (withPeers leader (update next q v) (update mtch q w)).currentTerm ∨
      (withPeers leader (update next q v) (update mtch q w)).role ≠ .leader) :=
    not_or.mpr ⟨not_not.mpr hready.term, not_not.mpr hi⟩
  have hsettle := sendAppendEntries_matched hcurrent hready.success rfl rfl hready.upTo.symm
    (by rw [update_self]; exact hw.trans_lt hsnap) hk
  have hi₁ : (c₁.servers i).raft.role = .leader := by rw [hraft₁]; exact hi
  obtain ⟨c', hgo, hsame, hleader', -⟩ := round_goes (hgo₁.mirrored hr) hi₁ hq
    (round_append hready.exchange (by rw [hraft₁]; exact hsettle))
  refine ⟨c', k, hgo₁.trans hgo, fun s hsi hsq => (hsame s hsi hsq).trans (hsame₁ s hsi hsq), ?_,
    ?_, fun Q hQ hall => ?_⟩
  · rw [hleader']
    show ({ withPeers leader (update next q v) (update mtch q w) with
      nextIndex := some (update (update next q v) q (leader.log.lastIndex + 1))
      matchIndex := some (update (update mtch q w) q leader.log.lastIndex)
      commitIndex := k } : Raft n C) = _
    rw [update_idem, update_idem]
    rfl
  · rcases hkor with heq | ⟨hlt, -⟩
    · exact heq.ge
    · exact hlt.le
  · rw [update_idem] at hk
    refine le_commitIndex { (withPeers leader (update next q v) (update mtch q w) : Raft n C)
      with matchIndex := some (update mtch q leader.log.lastIndex) } rfl he het hsnap hQ rfl
      (fun s hs hsi => ?_) hb hk
    by_cases hsq : s = q
    · rw [hsq, update_self]
    · rw [update_of_ne hsq]
      exact hall s hs (fun h => hsi (h.trans hme.symm)) hsq

lemma catchUpAll (hr : Mirrored c) (hi : (c.servers i).raft.role = .leader)
    {l : List (Fin n)} (hnd : l.Nodup) (hnot : i ∉ l)
    (hpeers : ∀ q ∈ l, (c.servers q).raft.currentTerm = (c.servers i).raft.currentTerm ∧
      Coherent (c.servers q).raft)
    (hn : (c.servers i).raft.nextIndex = some next)
    (hm : (c.servers i).raft.matchIndex = some mtch)
    (hnew : ∀ q ∈ l, (c.servers i).raft.snapshotIndex < next q ∧
      next q ≤ (c.servers i).raft.log.lastIndex + 1 ∧ mtch q = 0)
    (hsnap : (c.servers i).raft.snapshotIndex < (c.servers i).raft.log.lastIndex) {e : Entry C}
    (he : (c.servers i).raft.log.lastEntry = .ok e)
    (het : e.term = (c.servers i).raft.currentTerm) :
    ∃ c' next' mtch' k, Goes Silent c c' ∧
      (c'.servers i).raft = { (c.servers i).raft with
        nextIndex := some next', matchIndex := some mtch', commitIndex := k } ∧
      (c.servers i).raft.commitIndex ≤ k ∧ (l ≠ [] → ∀ Q, Majority Q →
        (∀ s ∈ Q, s ≠ i → s ∈ l ∨ mtch s = (c.servers i).raft.log.lastIndex) →
        (c.servers i).raft.log.lastIndex ≤ k) := by
  induction l generalizing c next mtch with
  | nil =>
    refine ⟨c, next, mtch, _, .refl, ?_, le_rfl, fun h => absurd rfl h⟩
    rw [← hn, ← hm]
  | cons q l ih =>
    obtain ⟨hql, hnd⟩ := List.nodup_cons.mp hnd
    rw [List.mem_cons, not_or] at hnot
    obtain ⟨hterm, hco⟩ := hpeers q List.mem_cons_self
    obtain ⟨hlt, hle, hzero⟩ := hnew q List.mem_cons_self
    obtain ⟨c₁, k₁, hgo₁, hsame₁, hraft₁, hmono₁, hcommit₁⟩ := catchUp hr (Ne.symm hnot.1) hi hterm
      hco hn hm hlt hle hzero hsnap he het
    have hne : ∀ p ∈ l, p ≠ i ∧ p ≠ q := fun p hp =>
      ⟨fun h => hnot.2 (h ▸ hp), fun h => hql (h ▸ hp)⟩
    have hn₁ : (c₁.servers i).raft.nextIndex =
        some (update next q ((c.servers i).raft.log.lastIndex + 1)) := by rw [hraft₁]; rfl
    have hm₁ : (c₁.servers i).raft.matchIndex =
        some (update mtch q (c.servers i).raft.log.lastIndex) := by rw [hraft₁]; rfl
    obtain ⟨c', next', mtch', k, hgo, hraft, hmono, hcommit⟩ := ih (hgo₁.mirrored hr)
      (by rw [hraft₁]; exact hi) hnd hnot.2 (fun p hp => by
        rw [hraft₁, hsame₁ p (hne p hp).1 (hne p hp).2]
        exact hpeers p (List.mem_cons_of_mem _ hp))
      hn₁ hm₁ (fun p hp => by
        rw [hraft₁, update_of_ne (hne p hp).2, update_of_ne (hne p hp).2]
        exact hnew p (List.mem_cons_of_mem _ hp))
      (by rw [hraft₁]; exact hsnap) (by rw [hraft₁]; exact he) (by rw [hraft₁]; exact het)
    rw [hraft₁] at hraft hmono hcommit
    refine ⟨c', next', mtch', k, hgo₁.trans hgo, hraft, hmono₁.trans hmono, fun _ Q hQ hall => ?_⟩
    by_cases hl : l = []
    · subst hl
      refine (hcommit₁ Q hQ fun s hs hsi hsq => ?_).trans hmono
      rcases hall s hs hsi with hmem | heq
      · exact absurd (List.mem_singleton.mp hmem) hsq
      · exact heq
    · refine hcommit hl Q hQ fun s hs hsi => ?_
      by_cases hsq : s = q
      · exact Or.inr (by rw [hsq, update_self]; rfl)
      · rw [update_of_ne hsq]
        exact (hall s hs hsi).imp (fun h => (List.mem_cons.mp h).resolve_left hsq) id

end Mit6824.RaftCatchUp
