import Mit6824.RaftBranches

/-!
Two rules of Figure 2 of the Raft paper as the code has them.

A leader commits what a majority has: the position it reads in the sorted copy of `matchIndex` is
the greatest index that `n / 2 + 1` servers have. A receiver of entries cuts its log at the first
conflict; the code writes the entries over the log first, and then cuts only where the next term
is lower.
-/

namespace Mit6824.RaftRules

open Mit6824.Labgob Mit6824.Quorum Mit6824.RaftLog Mit6824.RaftState Mit6824.RaftReplication
open Function

variable {n : ℕ} {C : Type}

/-! ### The commit index of a leader -/

def matched (rf : Raft n C) (matchIndex : Fin n → ℕ) (k : ℕ) : Finset (Fin n) :=
  Finset.univ.filter fun i => k ≤ if i = rf.me then rf.log.lastIndex else matchIndex i

lemma matched_eq (rf : Raft n C) (matchIndex : Fin n → ℕ) (k : ℕ) :
    matched rf matchIndex k =
      Finset.univ.filter fun i => k ≤ update matchIndex rf.me rf.log.lastIndex i := by
  simp only [matched, update_apply]

lemma leaderCommit_cases {rf rf' : Raft n C} {matchIndex : Fin n → ℕ}
    (hm : rf.matchIndex = some matchIndex) (h : leaderCommit rf = .ok rf') :
    rf' = rf ∨ ∃ k, (sorted (update matchIndex rf.me rf.log.lastIndex))[(n + 1) / 2 - 1]? = some k ∧
      rf.commitIndex < k ∧ rf' = { rf with commitIndex := k } := by
  have hs : getSortedMatchIndex rf =
      .ok (sorted (update matchIndex rf.me rf.log.lastIndex)) := by rw [getSortedMatchIndex, hm]
  unfold leaderCommit at h
  rw [hs] at h
  simp only [bind, Except.bind, pure, Except.pure] at h
  split at h
  · next k least hk _ =>
    split at h
    · exact Or.inl (Except.ok.inj h).symm
    · cases he : rf.log.entry k with
      | error e => rw [he] at h; cases h
      | ok e =>
        rw [he] at h
        dsimp only at h
        split at h
        · next hc => exact Or.inr ⟨k, hk, hc.2, (Except.ok.inj h).symm⟩
        · exact Or.inl (Except.ok.inj h).symm
  · cases h

/-- **The commit candidate.** The entry of the sorted copy of `matchIndex` that `leaderCommit`
reads is the greatest index that `n / 2 + 1` servers have, the leader with all of its log among
them; and `leaderCommit` leaves the commit index or raises it to an index that so many have. -/
theorem leaderCommit_majority (rf : Raft n C) (matchIndex : Fin n → ℕ)
    (hm : rf.matchIndex = some matchIndex) :
    (∃ serverMatchedIndex k, getSortedMatchIndex rf = .ok serverMatchedIndex ∧
      serverMatchedIndex[(n + 1) / 2 - 1]? = some k ∧
      IsGreatest {k | n / 2 + 1 ≤ (matched rf matchIndex k).card} k) ∧
    ∀ rf', leaderCommit rf = .ok rf' → rf' = rf ∨
      (rf.commitIndex < rf'.commitIndex ∧
        n / 2 + 1 ≤ (matched rf matchIndex rf'.commitIndex).card ∧
        rf' = { rf with commitIndex := rf'.commitIndex }) := by
  have hn : 0 < n := rf.me.pos
  have hhalf : n - ((n + 1) / 2 - 1) = n / 2 + 1 := by omega
  have hgreatest : ∀ k,
      (sorted (update matchIndex rf.me rf.log.lastIndex))[(n + 1) / 2 - 1]? = some k →
      IsGreatest {k | n / 2 + 1 ≤ (matched rf matchIndex k).card} k := by
    intro k hk
    have := sorted_isGreatest _ _ k hk
    simp only [hhalf] at this
    simpa only [matched_eq] using this
  constructor
  · have hlt : (n + 1) / 2 - 1 < (sorted (update matchIndex rf.me rf.log.lastIndex)).length := by
      rw [sorted_length]
      omega
    have hk := List.getElem?_eq_getElem hlt
    exact ⟨_, _, by rw [getSortedMatchIndex, hm], hk, hgreatest _ hk⟩
  · intro rf' h
    rcases leaderCommit_cases hm h with rfl | ⟨k, hk, hlt, rfl⟩
    · exact Or.inl rfl
    · exact Or.inr ⟨hlt, (hgreatest k hk).1, rfl⟩

/-- What the peers of a leader have, itself left out. -/
def acked (i : Fin n) : ℕ := [0, 3, 4, 1].getD i 0

/-- A leader of term `2` with entries up to index `4`, the last three of its own term. -/
def committing (me : Fin n) : Raft n ℕ :=
  { (blank me makePersister : Raft n ℕ) with
    currentTerm := 2
    log := ⟨[⟨0, 0⟩, ⟨1, 5⟩, ⟨2, 6⟩, ⟨2, 7⟩, ⟨2, 8⟩], 0⟩
    matchIndex := some acked
    role := .leader }

theorem leaderCommit_majority_even :
    ∃ rf', leaderCommit (committing (0 : Fin 4)) = .ok rf' ∧ rf'.commitIndex = 3 ∧
      4 / 2 + 1 ≤ (matched (committing (0 : Fin 4)) acked 3).card := by
  obtain ⟨-, hcommit⟩ := leaderCommit_majority (committing (0 : Fin 4)) acked rfl
  refine ⟨_, rfl, rfl, ?_⟩
  rcases hcommit _ rfl with h | ⟨-, h, -⟩
  · have : (3 : ℕ) = 0 := congrArg Raft.commitIndex h
    cases this
  · exact h

/-! ### The receiver of entries -/

/-- The rule of the paper: the entries of a log above `prevLogIndex` and the new ones. Existing
entries stay as long as their terms are those of the new ones; at the first conflict the log is
cut and the rest of the new entries appended. -/
def receive : List (Entry C) → List (Entry C) → List (Entry C)
  | old, [] => old
  | [], e :: new => e :: new
  | o :: old, e :: new => if o.term = e.term then o :: receive old new else e :: new

/-- The log that Figure 2 prescribes. -/
def figureTwo (l : Log C) (prevLogIndex : ℕ) (entries : List (Entry C)) : Log C :=
  { l with entries := l.entries.take (prevLogIndex + 1 - l.index0) ++
      receive (l.entries.drop (prevLogIndex + 1 - l.index0)) entries }

def Conflict (old new : List (Entry C)) (i : ℕ) : Prop :=
  ∃ o e, old[i]? = some o ∧ new[i]? = some e ∧ o.term ≠ e.term

/-- When the code follows the rule. Up to the first conflict the existing entries are the new
ones, and if there is a conflict nothing stands behind the new entries, or what stands there
begins with a lower term than that of the last of them. -/
structure ObeysRule (old new : List (Entry C)) : Prop where
  same : ∀ i o e, old[i]? = some o → new[i]? = some e → (∀ j ≤ i, ¬ Conflict old new j) → o = e
  cut : ∀ i, Conflict old new i → ∀ next last, old[new.length]? = some next →
    new.getLast? = some last → next.term < last.term

/-- What `place` leaves behind the entries that it writes after an entry `last`. -/
def behind (last : Entry C) (old new : List (Entry C)) : List (Entry C) :=
  match old[new.length]? with
  | none => []
  | some next => if (new.getLast?.getD last).term > next.term then [] else old.drop new.length

lemma not_conflict_nil_left {new : List (Entry C)} {i : ℕ} : ¬ Conflict [] new i := by
  rintro ⟨o, e, ho, -⟩
  simp at ho

lemma not_conflict_nil_right {old : List (Entry C)} {i : ℕ} : ¬ Conflict old [] i := by
  rintro ⟨o, e, -, he, -⟩
  simp at he

lemma conflict_cons_zero {o e : Entry C} {old new : List (Entry C)} :
    Conflict (o :: old) (e :: new) 0 ↔ o.term ≠ e.term := by
  simp [Conflict]

lemma conflict_cons_succ {o e : Entry C} {old new : List (Entry C)} {i : ℕ} :
    Conflict (o :: old) (e :: new) (i + 1) ↔ Conflict old new i := by
  simp [Conflict]

lemma obeysRule_nil_left (new : List (Entry C)) : ObeysRule [] new :=
  ⟨fun i o e ho => by simp at ho, fun i hc => absurd hc not_conflict_nil_left⟩

lemma obeysRule_nil_right (old : List (Entry C)) : ObeysRule old [] :=
  ⟨fun i o e _ he => by simp at he, fun i hc => absurd hc not_conflict_nil_right⟩

lemma obeysRule_cons {o e : Entry C} {old new : List (Entry C)} (ht : o.term = e.term) :
    ObeysRule (o :: old) (e :: new) ↔ o = e ∧ ObeysRule old new := by
  have hzero : ¬ Conflict (o :: old) (e :: new) 0 := fun h => conflict_cons_zero.mp h ht
  constructor
  · intro h
    refine ⟨h.same 0 o e rfl rfl fun j hj => by rwa [Nat.le_zero.mp hj], ⟨?_, ?_⟩⟩
    · intro i o' e' ho he hno
      refine h.same (i + 1) o' e' ho he fun j hj => ?_
      cases j with
      | zero => exact hzero
      | succ j => exact fun hc => hno j (by omega) (conflict_cons_succ.mp hc)
    · intro i hc next last hnext hlast
      refine h.cut (i + 1) (conflict_cons_succ.mpr hc) next last hnext ?_
      rw [List.getLast?_cons, hlast]
      rfl
  · rintro ⟨rfl, h⟩
    constructor
    · intro i o' e' ho he hno
      cases i with
      | zero => exact Option.some.inj (ho.symm.trans he)
      | succ i =>
        exact h.same i o' e' ho he fun j hj hc =>
          hno (j + 1) (by omega) (conflict_cons_succ.mpr hc)
    · intro i hc next last hnext hlast
      cases i with
      | zero => exact absurd hc hzero
      | succ i =>
        have hc' := conflict_cons_succ.mp hc
        -- there is a new entry behind, so the last one is the same
        have hne : new ≠ [] := by
          rintro rfl
          exact not_conflict_nil_right hc'
        refine h.cut i hc' next last hnext ?_
        rwa [List.getLast?_cons_of_ne_nil hne] at hlast

lemma obeysRule_cons_of_ne {o e : Entry C} {old new : List (Entry C)} (ht : o.term ≠ e.term)
    (last : Entry C) :
    ObeysRule (o :: old) (e :: new) ↔ behind last (o :: old) (e :: new) = [] := by
  have hzero : Conflict (o :: old) (e :: new) 0 := conflict_cons_zero.mpr ht
  unfold behind
  constructor
  · intro h
    split
    · rfl
    · next next hnext =>
      rw [if_pos]
      rw [List.getLast?_cons]
      exact h.cut 0 hzero next _ hnext List.getLast?_cons
  · intro h
    refine ⟨fun i o' e' _ _ hno => absurd hzero (hno 0 (Nat.zero_le i)), ?_⟩
    intro i _ next last' hnext hlast
    rw [hnext] at h
    dsimp only at h
    split at h
    · next hgt => rwa [hlast] at hgt
    · have hlt := (List.getElem?_eq_some_iff.mp hnext).1
      exact absurd (List.drop_eq_nil_iff.mp h) (by omega)

lemma append_behind_eq_receive (old new : List (Entry C)) (last : Entry C)
    (hsort : (last :: old).Pairwise fun x y => x.term ≤ y.term) :
    new ++ behind last old new = receive old new ↔ ObeysRule old new := by
  induction new generalizing old last with
  | nil =>
    have hkeep : behind last old [] = old := by
      unfold behind
      cases old with
      | nil => rfl
      | cons o old =>
        have := List.rel_of_pairwise_cons hsort List.mem_cons_self
        exact if_neg (not_lt.mpr this)
    rw [List.nil_append, hkeep]
    cases old <;> exact iff_of_true (by rw [receive]) (obeysRule_nil_right _)
  | cons e new ih =>
    cases old with
    | nil => exact iff_of_true (by simp [behind, receive]) (obeysRule_nil_left _)
    | cons o old =>
      rw [receive]
      by_cases ht : o.term = e.term
      · have hsort' : (e :: old).Pairwise fun x y => x.term ≤ y.term := by
          have := List.pairwise_cons.mp (List.pairwise_cons.mp hsort).2
          exact List.pairwise_cons.mpr ⟨fun x hx => ht ▸ this.1 x hx, this.2⟩
        have hbehind : behind last (o :: old) (e :: new) = behind e old new := by
          simp [behind, List.getLast?_cons]
        rw [if_pos ht, hbehind, List.cons_append, List.cons.injEq, ih old e hsort',
          obeysRule_cons ht, eq_comm]
      · rw [if_neg ht, obeysRule_cons_of_ne ht last, List.append_right_eq_self]

lemma drop_entry {lg : Log C} {p : ℕ} {e : Entry C} (he : lg.entry p = .ok e) :
    lg.entries.drop (p - lg.index0) = e :: lg.entries.drop (p + 1 - lg.index0) := by
  obtain ⟨hge, -⟩ := Log.range_of_entry he
  obtain ⟨hlt, rfl⟩ := List.getElem?_eq_some_iff.mp (Log.getElem?_of_entry he)
  rw [List.drop_eq_getElem_cons hlt, show p - lg.index0 + 1 = p + 1 - lg.index0 by omega]

/-- What `place` makes of a log above one of its entries. -/
lemma place_behind {lg : Log C} {p : ℕ} {prev : Entry C} (hprev : lg.entry p = .ok prev)
    (new : List (Entry C)) :
    lg.place (p + 1) new = .ok { lg with
      entries := lg.entries.take (p + 1 - lg.index0) ++
        (new ++ behind prev (lg.entries.drop (p + 1 - lg.index0)) new) } := by
  obtain ⟨hge, hlt⟩ := Log.range_of_entry hprev
  obtain ⟨k, hk⟩ : ∃ k, p = lg.index0 + k := ⟨p - lg.index0, by omega⟩
  subst hk
  have hpos : lg.index0 + k + 1 - lg.index0 = k + 1 := by omega
  have hget : lg.entries[k]? = some prev := by
    have := Log.getElem?_of_entry hprev
    rwa [Nat.add_sub_cancel_left] at this
  -- the last of the entries that are written, or the one before them
  have hcons : (prev :: new).dropLast ++ [new.getLast?.getD prev] = prev :: new :=
    List.dropLast_append_getLast? _ List.getLast?_cons
  have hsplit : lg.entries.take (k + 1) ++ new =
      lg.entries.take k ++ (prev :: new).dropLast ++ [new.getLast?.getD prev] := by
    rw [List.append_assoc, hcons, List.take_add_one, hget, List.append_assoc]
    rfl
  have hlen : (lg.entries.take (k + 1) ++ new).length = k + 1 + new.length := by
    rw [List.length_append, List.length_take]
    omega
  have hwritten : lg.entries.take (lg.index0 + k + 1 - lg.index0) ++ new =
      lg.entries.take k ++ (prev :: new).dropLast ++ [new.getLast?.getD prev] := by
    rw [hpos, hsplit]
  rewrite [Log.place_eq (by omega) (by omega) hwritten, ← hsplit, hlen, hpos, behind,
    List.getElem?_drop, List.drop_drop, List.append_assoc]
  rfl

variable [Coded (Persisted n C)]

/-- **The receiver's rule.** A request in the term of the follower or a later one, whose previous
entry the follower has, is answered with success, and the log it leaves is the one that Figure 2
prescribes exactly if the condition holds of the entries above the previous one. -/
theorem appendEntries_figureTwo (rf : Raft n C) (args : AppendEntriesArgs n C) (prev : Entry C)
    (hsort : rf.log.entries.Pairwise fun x y => x.term ≤ y.term)
    (hterm : rf.currentTerm ≤ args.term) (hsnap : rf.snapshotIndex ≤ args.prevLogIndex)
    (hprev : rf.log.entry args.prevLogIndex = .ok prev) (hmatch : prev.term = args.prevLogTerm) :
    ∃ rf' reply, appendEntries rf args = .ok (rf', reply) ∧ reply.success = true ∧
      (rf'.log = figureTwo rf.log args.prevLogIndex args.entries ↔
        ObeysRule (rf.log.entries.drop (args.prevLogIndex + 1 - rf.log.index0)) args.entries) := by
  have hplace := place_behind hprev args.entries
  refine ⟨_, _, appendEntries_match hterm hsnap hprev hmatch hplace, rfl, ?_⟩
  rw [log_followerCommit]
  show Log.mk _ _ = figureTwo _ _ _ ↔ _
  unfold figureTwo
  rw [Log.mk.injEq, List.append_cancel_left_eq, and_iff_left rfl]
  refine append_behind_eq_receive _ _ prev ?_
  rw [← drop_entry hprev]
  exact hsort.sublist (List.drop_sublist _ _)

/-- A follower of term `5` whose log has entries of terms `1`, `2` and a third one. -/
def receiving (me : Fin n) (third : ℕ) : Raft n ℕ :=
  { (blank me makePersister : Raft n ℕ) with
    currentTerm := 5
    log := ⟨[⟨0, 0⟩, ⟨1, 7⟩, ⟨2, 8⟩, ⟨third, 9⟩], 0⟩ }

/-- One entry of term `3` behind the first one. -/
def request (leaderId : Fin n) : AppendEntriesArgs n ℕ := ⟨5, leaderId, 1, 1, [⟨3, 6⟩], 0⟩

theorem appendEntries_figureTwo_cut :
    ∃ rf' reply, appendEntries (receiving (1 : Fin 3) 2) (request 0) = .ok (rf', reply) ∧
      rf'.log = figureTwo (receiving (1 : Fin 3) 2).log 1 [⟨3, 6⟩] ∧
      rf'.log.entries = [⟨0, 0⟩, ⟨1, 7⟩, ⟨3, 6⟩] := by
  obtain ⟨rf', reply, hok, -, hiff⟩ := appendEntries_figureTwo (receiving (1 : Fin 3) 2)
    (request 0) ⟨1, 7⟩ (by decide) (by decide) (by decide) (by decide) rfl
  have hlog := hiff.mpr ((obeysRule_cons_of_ne (by decide) ⟨1, 7⟩).mpr rfl)
  exact ⟨rf', reply, hok, hlog, by rw [hlog]; rfl⟩

/-- The entry of term `3` is written over the one of term `2`, with which it conflicts, and the
entry of term `5` behind stays. -/
theorem appendEntries_not_figureTwo :
    (receiving (1 : Fin 3) 5).log.entries.Pairwise (fun x y => x.term ≤ y.term) ∧
      (receiving (1 : Fin 3) 5).log.entry 1 = .ok ⟨1, 7⟩ ∧
      ∃ rf' reply, appendEntries (receiving (1 : Fin 3) 5) (request 0) = .ok (rf', reply) ∧
        reply.success = true ∧ rf'.log.entries = [⟨0, 0⟩, ⟨1, 7⟩, ⟨3, 6⟩, ⟨5, 9⟩] ∧
        (figureTwo (receiving (1 : Fin 3) 5).log 1 [⟨3, 6⟩]).entries =
          [⟨0, 0⟩, ⟨1, 7⟩, ⟨3, 6⟩] :=
  ⟨by decide, by decide, _, _, rfl, rfl, rfl, rfl⟩

end Mit6824.RaftRules
