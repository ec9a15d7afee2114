import Mit6824.ShardProtocol

/-!
Requests that are done were executed.

A server has one request at a time to each group, so the numbers of its requests to a group come
to that group's log in order. But the number of a server also comes to a group with the shards of
another group. As long as that does not overtake a request to the group, a request that is done
there was executed there.
-/

namespace Mit6824.ShardAcks

open Mit6824.GoData Mit6824.ShardServer Mit6824.ShardReplica Mit6824.ShardProtocol Mit6824.Runs
open World

variable {w : World}

/-- The numbers that a `PUT_SHARDS` brings along overtake no request to its group. -/
def MergesKeepLine (w : World) : Event → Prop
  | .commit g (.putShards args) => (w.st g).Executes g (.putShards args) →
      ∀ r ∈ w.issued, r.dst = g → r.op.seqNum ≤ mark args.clientSeqNumMap r.op.clientId →
        r.op.seqNum ≤ (w.st g).marks r.op.clientId
  | _ => True

instance (w : World) : ∀ ev, Decidable (MergesKeepLine w ev)
  | .commit _ (.putShards _) => show Decidable (_ → _) from inferInstance
  | .publish _ | .ask _ | .issue _ | .commit _ (.putAppend _) | .commit _ (.get _)
  | .commit _ (.getShards _) | .commit _ (.deleteShards _) | .commit _ (.setConfig _) =>
    .isTrue trivial

def ExecutedIn (g : ℕ) (log : List Op) (op : Op) : Prop :=
  ∃ q, q ++ [op] <+: log ∧ (state g q).Executes g op

lemma ExecutedIn.mono {g : ℕ} {p q : List Op} {op : Op} (h : ExecutedIn g p op) (hpq : p <+: q) :
    ExecutedIn g q op := by
  obtain ⟨r, hr, hex⟩ := h
  exact ⟨r, hr.trans hpq, hex⟩

structure Acks (w : World) : Prop where
  unique : ∀ r ∈ w.issued, ∀ r' ∈ w.issued, r.op.clientId = r'.op.clientId →
    r.op.seqNum = r'.op.seqNum → r = r'
  line : ∀ r ∈ w.issued, ∀ r' ∈ w.issued, r.op.clientId = r'.op.clientId → r.dst = r'.dst →
    r.op.seqNum < r'.op.seqNum → w.Acked r.dst r.op.clientId r.op.seqNum
  bounded : ∀ g h i e, (w.st g).marks (.server h i e) = 0 ∨
    ∃ r ∈ w.issued, r.op.clientId = .server h i e ∧
      (w.st g).marks (.server h i e) ≤ r.op.seqNum
  executed : ∀ r ∈ w.issued, ∀ p, p <+: w.logs r.dst →
    r.op.seqNum ≤ (state r.dst p).marks r.op.clientId → ExecutedIn r.dst p r.op

lemma acks_init : Acks World.init where
  unique := fun _ h => by cases h
  line := fun _ h => by cases h
  bounded := fun _ _ _ _ => Or.inl rfl
  executed := fun _ h => by cases h

/-- The number of a client after a command: it had it, it was brought along, or it is the number
of the command. -/
lemma le_apply_marks {g n : ℕ} {st : GroupState} {op : Op} {c : ClientId}
    (h : n ≤ (st.apply g op).marks c) (hlt : st.marks c < n) :
    st.Executes g op ∧ (n ≤ mark op.merged c ∨ (c = op.clientId ∧ n ≤ op.seqNum)) := by
  by_cases hex : st.Executes g op
  · refine ⟨hex, ?_⟩
    rw [GroupState.apply_of_executes hex] at h
    change n ≤ bump st.marks op c at h
    unfold bump at h
    split at h
    · next hc =>
      rcases le_max_iff.mp h with h | h
      · exact Or.inl ((le_max_iff.mp h).resolve_left (Nat.not_le.mpr hlt))
      · exact Or.inr ⟨hc, h⟩
    · rw [max_eq_left (Nat.zero_le _)] at h
      exact Or.inl ((le_max_iff.mp h).resolve_left (Nat.not_le.mpr hlt))
  · rw [GroupState.apply_of_not hex] at h
    omega

/-- Only a `PUT_SHARDS` brings numbers along, and they are the numbers of another group. -/
lemma merged_le (hw : Sound w) {g : ℕ} {op : Op} (hrule : w.Rule (.commit g op)) {c : ClientId}
    {n : ℕ} (hn : 0 < n) (h : n ≤ mark op.merged c) :
    ∃ args, op = .putShards args ∧ n ≤ mark args.clientSeqNumMap c ∧ ∃ o, n ≤ (w.st o).marks c := by
  cases op with
  | putShards args =>
    refine ⟨args, rfl, h, ?_⟩
    obtain ⟨m, hm⟩ := hw.issued_of_commit hrule id
    have hj := hw.justified _ hm
    obtain ⟨data, map, seq, client⟩ := args
    cases hj with
    | put _ _ hg => exact ⟨_, le_trans h (hg.marks c)⟩
  | _ => exact absurd h (Nat.not_le.mpr hn)

lemma Acks.issue (h : Acks w) {r : Issue} (hin : w.InLine r) (hj : w.Justified r) :
    Acks (w.next (.issue r)) := by
  obtain ⟨hpos, hlt⟩ := hin
  refine ⟨?_, ?_, ?_, ?_⟩
  · intro r₁ h₁ r₂ h₂ hc hs
    rcases List.mem_append.mp h₁ with hr₁ | hr₁ <;> rcases List.mem_append.mp h₂ with hr₂ | hr₂
    · exact h.unique r₁ hr₁ r₂ hr₂ hc hs
    · rw [List.mem_singleton.mp hr₂] at hc hs
      exact absurd hs (hlt r₁ hr₁ hc).1.ne
    · rw [List.mem_singleton.mp hr₁] at hc hs
      exact absurd hs (hlt r₂ hr₂ hc.symm).1.ne'
    · rw [List.mem_singleton.mp hr₁, List.mem_singleton.mp hr₂]
  · intro r₁ h₁ r₂ h₂ hc hd hs
    rcases List.mem_append.mp h₁ with hr₁ | hr₁ <;> rcases List.mem_append.mp h₂ with hr₂ | hr₂
    · exact h.line r₁ hr₁ r₂ hr₂ hc hd hs
    · rw [List.mem_singleton.mp hr₂] at hc hd
      exact (hlt r₁ hr₁ hc).2 hd
    · rw [List.mem_singleton.mp hr₁] at hc hs
      exact absurd hs (hlt r₂ hr₂ hc.symm).1.asymm
    · rw [List.mem_singleton.mp hr₁, List.mem_singleton.mp hr₂] at hs
      exact absurd hs (Nat.lt_irrefl _)
  · intro g k i e
    rcases h.bounded g k i e with h0 | ⟨r', hr', hb⟩
    · exact Or.inl h0
    · exact Or.inr ⟨r', List.mem_append_left _ hr', hb⟩
  · intro r' hr' p hp hle
    rcases List.mem_append.mp hr' with hr' | hr'
    · exact h.executed r' hr' p hp hle
    · -- a new request is above every number of its client
      obtain rfl := List.mem_singleton.mp hr'
      obtain ⟨k, i, e, hc⟩ := hj.server
      have hmono : (state r'.dst p).marks r'.op.clientId ≤ (w.st r'.dst).marks r'.op.clientId :=
        marks_mono hp _
      rw [hc] at hle hmono
      rcases h.bounded r'.dst k i e with h0 | ⟨r₂, hr₂, hc₂, hb⟩
      · omega
      · have := (hlt r₂ hr₂ (hc₂.trans hc.symm)).1
        omega

lemma Acks.commit (h : Acks w) (hw : Sound w) {g : ℕ} {op : Op}
    (hrule : w.Rule (.commit g op)) (hcond : MergesKeepLine w (.commit g op)) :
    Acks (w.next (.commit g op)) := by
  have hl := later_next w (.commit g op)
  refine ⟨h.unique, fun r hr r' hr' hc hd hs => hl.acked (h.line r hr r' hr' hc hd hs), ?_, ?_⟩
  · intro g' k i e
    by_cases hg : g' = g
    · subst hg
      rw [next_commit_st]
      by_cases hlt : (w.st g').marks (.server k i e) < ((w.st g').apply g' op).marks (.server k i e)
      · right
        obtain ⟨-, hm | ⟨hc, hs⟩⟩ := le_apply_marks le_rfl hlt
        · obtain ⟨args, -, -, o, ho⟩ := merged_le hw hrule (by omega) hm
          rcases h.bounded o k i e with h0 | ⟨r, hr, hcr, hb⟩
          · omega
          · exact ⟨r, hr, hcr, ho.trans hb⟩
        · obtain ⟨m, hm⟩ := hw.issued_of_server hrule hc.symm
          exact ⟨_, hm, hc.symm, hs⟩
      · have hle := Nat.not_lt.mp hlt
        rcases h.bounded g' k i e with h0 | ⟨r, hr, hcr, hb⟩
        · exact Or.inl (by omega)
        · exact Or.inr ⟨r, hr, hcr, hle.trans hb⟩
    · rw [next_commit_st_of_ne w op hg]
      exact h.bounded g' k i e
  · intro r hr p hp hle
    by_cases hg : r.dst = g
    · rw [hg] at hp hle ⊢
      rw [next_commit_logs] at hp
      rcases prefix_snoc hp with hp | rfl
      · have := h.executed r hr p (hg ▸ hp) (hg ▸ hle)
        rwa [hg] at this
      · by_cases hold : r.op.seqNum ≤ (w.st g).marks r.op.clientId
        · have := h.executed r hr (w.logs r.dst) List.prefix_rfl (hg ▸ hold)
          rw [hg] at this
          exact this.mono (List.prefix_append _ _)
        · rw [state_snoc] at hle
          obtain ⟨hex, hm | ⟨hc, hs⟩⟩ := le_apply_marks hle (Nat.not_le.mp hold)
          · by_cases h0 : 0 < r.op.seqNum
            · obtain ⟨args, rfl, hmap, -⟩ := merged_le hw hrule h0 hm
              exact absurd (hcond hex r hr hg hmap) hold
            · omega
          · -- a later request of the client came to the log, so this one was done before
            obtain ⟨k, i, e, hsv⟩ := (hw.justified r hr).server
            obtain ⟨m, hm⟩ := hw.issued_of_server hrule (hc.symm.trans hsv)
            rcases Nat.lt_or_eq_of_le hs with hlt | heq
            · have := h.line r hr _ hm hc hg hlt
              rw [hg] at this
              exact absurd this hold
            · obtain rfl := h.unique r hr _ hm hc heq
              exact ⟨w.logs g, List.prefix_rfl, hex⟩
    · rw [next_commit_logs_of_ne w op hg] at hp
      exact h.executed r hr p hp hle

theorem Acks.next (h : Acks w) (hw : Sound w) {ev : Event} (hrule : w.Rule ev)
    (hcond : MergesKeepLine w ev) : Acks (w.next ev) := by
  cases ev with
  | publish config => exact ⟨h.unique, h.line, h.bounded, h.executed⟩
  | ask op => exact ⟨h.unique, h.line, h.bounded, h.executed⟩
  | issue r => exact h.issue hrule.2 hrule.1
  | commit g op => exact h.commit hw hrule hcond

end Mit6824.ShardAcks
