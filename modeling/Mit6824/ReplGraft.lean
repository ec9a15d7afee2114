import Mit6824.ReplExt

/-!
Grafting: a server writes entries of the leader over its log and keeps what it had behind
them, unless the terms would then go down.

The server does not compare the entries behind with the leader's. That this is safe rests on
what was sent: entries up to at least the length the leader's log had at the election, from a
point up to which the two logs agree, or to a server that is aligned.
-/

namespace Mit6824.Repl

open Mit6824.Quorum Mit6824.TermLog Function

variable {S E : Type*} [Termed E]

/-- Write `v` over the beginning of `l`; keep the rest of `l` unless it starts with a smaller
term than `v` ends with. -/
def graft (v l : List E) : List E :=
  if termAt l (v.length + 1) < lastTerm v then v else v ++ l.drop v.length

lemma prefix_graft (v l : List E) : v <+: graft v l := by
  unfold graft
  split
  · exact List.prefix_rfl
  · exact List.prefix_append _ _

lemma length_le_graft {v l : List E} : v.length ≤ (graft v l).length :=
  (prefix_graft v l).length_le

variable {a : State S E}

lemma graft_eq_self (h : LogInv a) {s : S} {v : List E} (hv : v <+: a.log s) :
    graft v (a.log s) = a.log s := by
  have hmono : lastTerm v ≤ termAt (a.log s) (v.length + 1) := by
    rw [← termAt_length v, termAt_eq_of_le hv le_rfl]
    exact h.termAt_mono (h.log s) (Nat.le_succ _)
  rw [graft, if_neg (by omega)]
  obtain ⟨r, hr⟩ := hv
  rw [← hr, List.drop_left]

omit [Termed E] in
lemma take_succ_ne_nil {l : List E} {i : ℕ} (h : i < l.length) : l.take (i + 1) ≠ [] := by
  rw [← List.length_pos_iff, List.length_take]
  omega

/-- If the entry behind `v` has the leader's term, the server has all of `v`. -/
lemma prefix_of_termAt_succ (h : LogInv a) {s : S} {v : List E} (hv : v <+: a.llog (a.term s))
    (hlt : v.length < (a.log s).length)
    (ht : termAt (a.log s) (v.length + 1) = a.term s) : v <+: a.log s := by
  have hp : (a.log s).take (v.length + 1) <+: a.log s := List.take_prefix _ _
  have hl := (h.log s _ hp (take_succ_ne_nil hlt)).2
  rw [lastTerm_take, ht] at hl
  refine (List.prefix_of_prefix_length_le hv hl ?_).trans hp
  rw [List.length_take]; omega

omit [Termed E] in
/-- An aligned server keeps a prefix of the leader's log. -/
lemma graft_aligned {s : S} {t k : ℕ} (hk : a.base t ≤ k)
    (hal : (a.log s).drop (a.base t) <+: (a.llog t).drop (a.base t)) :
    (a.llog t).take k ++ (a.log s).drop k = (a.llog t).take (max k (a.log s).length) := by
  obtain ⟨r, hr⟩ := hal
  have hdrop : (a.log s).drop k <+: (a.llog t).drop k := by
    have h1 := congrArg (List.drop (k - a.base t)) hr
    rw [List.drop_drop, show a.base t + (k - a.base t) = k by omega] at h1
    rw [← h1]
    by_cases hlen : k - a.base t ≤ ((a.log s).drop (a.base t)).length
    · rw [List.drop_append_of_le_length hlen, List.drop_drop,
        show a.base t + (k - a.base t) = k by omega]
      exact List.prefix_append _ _
    · have : (a.log s).drop k = [] := by
        rw [List.length_drop] at hlen
        exact List.drop_eq_nil_of_le (by omega)
      rw [this]; exact List.nil_prefix
  rw [List.prefix_iff_eq_take.mp hdrop, List.length_drop]
  conv_rhs => rw [show max k (a.log s).length = k + ((a.log s).length - k) by omega,
    List.take_add]

/-- **Grafting yields the server's own log or a prefix of the leader's.** -/
theorem graft_cases (h : LogInv a) {s : S} {k : ℕ} (he : Elected a (a.term s))
    (hk : a.base (a.term s) ≤ k) (hkl : k ≤ (a.llog (a.term s)).length)
    (hor : Aligned a s (a.term s) ∨ a.base (a.term s) < k ∨
      (a.llog (a.term s)).take k <+: a.log s) :
    graft ((a.llog (a.term s)).take k) (a.log s) = a.log s ∨
      ∃ m, k ≤ m ∧ graft ((a.llog (a.term s)).take k) (a.log s) = (a.llog (a.term s)).take m ∧
        ∀ l, l <+: a.llog (a.term s) → l <+: a.log s → l.length ≤ m := by
  set v := (a.llog (a.term s)).take k with hv
  have hvl : v <+: a.llog (a.term s) := List.take_prefix _ _
  have hlen : v.length = k := by simp [hv]; omega
  by_cases hvs : v <+: a.log s
  · exact Or.inl (graft_eq_self h hvs)
  right
  have hshort : ∀ l, l <+: a.llog (a.term s) → l <+: a.log s → l.length ≤ k := by
    intro l hl hls
    by_contra hlt
    exact hvs ((List.prefix_of_prefix_length_le hvl hl (by omega)).trans hls)
  by_cases hcut : termAt (a.log s) (v.length + 1) < lastTerm v
  · exact ⟨k, le_rfl, by rw [graft, if_pos hcut], hshort⟩
  by_cases hend : (a.log s).length ≤ k
  · refine ⟨k, le_rfl, ?_, hshort⟩
    rw [graft, if_neg hcut, hlen, List.drop_eq_nil_of_le hend, List.append_nil]
  rcases hor with hal | hlt | hpre
  · refine ⟨max k (a.log s).length, le_max_left _ _, ?_,
      fun l _ hls => hls.length_le.trans (le_max_right _ _)⟩
    rw [graft, if_neg hcut, hlen, hv]
    exact graft_aligned hk (hal.2 rfl)
  · -- the last entry of `v` is of the leader's term, and so is the one kept behind it
    have hne : v ≠ [] := by
      intro h0; rw [h0] at hlen; simp at hlen; omega
    have hvt : lastTerm v = a.term s := (h.shape_prefix he hvl hne).2 (by omega)
    have hle : termAt (a.log s) (v.length + 1) ≤ a.term s := by
      obtain ⟨e, hm, hte⟩ :=
        lastTerm_mem (take_succ_ne_nil (by omega : v.length < (a.log s).length))
      rw [← lastTerm_take, hte]
      exact h.le_term s e (List.mem_of_mem_take hm)
    exact absurd (prefix_of_termAt_succ h hvl (by omega) (by omega)) hvs
  · exact absurd hpre hvs

variable [Fintype S] [DecidableEq S]

lemma Act.graft (h : LogInv a) {s : S} {k : ℕ} (he : Elected a (a.term s))
    (hs : a.lead (a.term s) ≠ some s) (hc : ¬ a.cand s) (hk : a.base (a.term s) ≤ k)
    (hkl : k ≤ (a.llog (a.term s)).length)
    (hor : Aligned a s (a.term s) ∨ a.base (a.term s) < k ∨
      (a.llog (a.term s)).take k <+: a.log s) :
    Act s a (setLog a s (graft ((a.llog (a.term s)).take k) (a.log s))) := by
  rcases graft_cases h he hk hkl hor with hg | ⟨m, -, hg, hkeep⟩
  · rw [hg, setLog, update_eq_self]
    exact Act.refl s a
  · rw [hg]
    exact Act.adopt he hs hc hkeep

end Mit6824.Repl
