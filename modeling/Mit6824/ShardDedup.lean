import Mit6824.ShardAcks

/-!
Operations of clerks are done once.

The number of a clerk comes to a group with an operation of the clerk or with the numbers of
another group, so it can always be traced back to a log that has executed an operation of that
clerk. A clerk that has one operation at a time draws a number when the operations before are
done somewhere; so everything below a number of the clerk has been executed.
-/

namespace Mit6824.ShardDedup

open Mit6824.GoData Mit6824.ShardServer Mit6824.ShardReplica Mit6824.ShardProtocol Mit6824.Runs
open Mit6824.ShardAcks World

variable {w : World}

/-- A clerk asks for an operation when every number below is done at some group. -/
def AsksInTurn (w : World) : Event → Prop
  | .ask op => ∀ n, 0 < n → n < op.seqNum → ∃ g, w.Acked g op.clientId n
  | _ => True

structure Dedup (w : World) : Prop where
  behind : ∀ op ∈ w.asked, ∀ n, 0 < n → n < op.seqNum → ∃ g, w.Acked g op.clientId n
  executed : ∀ g c n, 0 < n → w.Acked g (.clerk c) n →
    ∃ op ∈ w.asked, op.clientId = .clerk c ∧ op.seqNum = n ∧ ∃ g', ExecutedIn g' (w.logs g') op

lemma dedup_init : Dedup World.init where
  behind := fun _ h => absurd h List.not_mem_nil
  executed := fun _ _ _ hn h => absurd hn (Nat.not_lt.mpr h)

lemma Dedup.commit (h : Dedup w) (hw : Sound w) {g : ℕ} {op : Op}
    (hrule : w.Rule (.commit g op)) : Dedup (w.next (.commit g op)) := by
  have hl := later_next w (.commit g op)
  have hold : ∀ g' c n, 0 < n → w.Acked g' (.clerk c) n →
      ∃ op' ∈ w.asked, op'.clientId = .clerk c ∧ op'.seqNum = n ∧
        ∃ g', ExecutedIn g' ((w.next (.commit g op)).logs g') op' := by
    intro g' c n hn ha
    obtain ⟨op', hin, hc, hs, k, hex⟩ := h.executed g' c n hn ha
    exact ⟨op', hin, hc, hs, k, hex.mono (hl.logs k)⟩
  refine ⟨fun op' hin n hn hlt => ?_, fun g' c n hn ha => ?_⟩
  · obtain ⟨k, hk⟩ := h.behind op' hin n hn hlt
    exact ⟨k, hl.acked hk⟩
  · by_cases hack : w.Acked g' (.clerk c) n
    · exact hold g' c n hn hack
    · by_cases hg : g' = g
      · subst hg
        rw [World.Acked, next_commit_st] at ha
        obtain ⟨hex, hm | ⟨hc, hs⟩⟩ := le_apply_marks ha (Nat.not_le.mp hack)
        · obtain ⟨-, -, -, o, ho⟩ := merged_le hw hrule hn hm
          exact hold o c n hn ho
        · have hask : op ∈ w.asked := by
            refine hrule.resolve_right ?_
            rintro ⟨m, hm⟩
            obtain ⟨k, i, e, hsv⟩ := (hw.justified _ hm).server
            rw [hsv] at hc
            cases hc
          rcases Nat.lt_or_eq_of_le hs with hlt | heq
          · obtain ⟨k, hk⟩ := h.behind op hask n hn hlt
            rw [← hc] at hk
            exact hold k c n hn hk
          · exact ⟨op, hask, hc.symm, heq.symm, g', w.logs g', by rw [next_commit_logs], hex⟩
      · rw [World.Acked, next_commit_st_of_ne w op hg] at ha
        exact absurd ha hack

theorem Dedup.next (h : Dedup w) (hw : Sound w) {ev : Event} (hrule : w.Rule ev)
    (hturn : AsksInTurn w ev) : Dedup (w.next ev) := by
  cases ev with
  | publish config => exact ⟨h.behind, h.executed⟩
  | ask op =>
    refine ⟨fun op' hin n hn hlt => ?_, fun g c n hn ha => ?_⟩
    · rcases List.mem_append.mp hin with hin | hin
      · exact h.behind op' hin n hn hlt
      · rw [List.mem_singleton.mp hin] at hlt ⊢
        exact hturn n hn hlt
    · obtain ⟨op', hin, hrest⟩ := h.executed g c n hn ha
      exact ⟨op', List.mem_append_left _ hin, hrest⟩
  | issue r => exact ⟨h.behind, h.executed⟩
  | commit g op => exact h.commit hw hrule

/-- **A log executes a number of a client once.** -/
theorem executed_once {g : ℕ} {log p q : List Op} {op op' : Op} (hp : p ++ [op] <+: log)
    (hq : q ++ [op'] <+: log) (hex : (state g p).Executes g op)
    (hex' : (state g q).Executes g op') (hc : op.clientId = op'.clientId)
    (hs : op.seqNum = op'.seqNum) : p = q := by
  have hnot : ∀ {p q : List Op} {op op' : Op}, p ++ [op] <+: q → (state g p).Executes g op →
      (state g q).Executes g op' → op.clientId = op'.clientId → op.seqNum ≠ op'.seqNum := by
    intro p q op op' hpq hex hex' hc hs
    have hle : op.seqNum ≤ (state g (p ++ [op])).marks op.clientId := by
      rw [state_snoc]
      exact GroupState.seqNum_le_apply hex
    have hmono : _ ≤ (state g q).marks op.clientId := marks_mono hpq op.clientId
    have hlt := hex'.1
    rw [← hc, ← hs] at hlt
    omega
  rcases prefix_trichotomy hp hq with ⟨rfl, -⟩ | hpq | hqp
  · rfl
  · exact absurd hs (hnot hpq hex hex' hc)
  · exact absurd hs.symm (hnot hqp hex' hex hc.symm)

end Mit6824.ShardDedup
