import Mit6824.ReplVote

/-!
Log matching: two logs with the same term at an index are equal up to it.

Every log of a run is grounded: each of its prefixes is a prefix of the log of the leader
whose term its last entry has. Two prefixes of equal length whose last entries have the same
term are then prefixes of one log, hence equal.
-/

namespace Mit6824.Repl

open Mit6824.Quorum Mit6824.TermLog Function

variable {S E : Type*} [Termed E]

/-- Every prefix was first in the log of the leader of its last term. -/
def Grounded (a : State S E) (l : List E) : Prop :=
  ∀ p, p <+: l → p ≠ [] → Elected a (lastTerm p) ∧ p <+: a.llog (lastTerm p)

structure LogInv (a : State S E) : Prop where
  log : ∀ s, Grounded a (a.log s)
  llog : ∀ {t}, Elected a t → Grounded a (a.llog t)
  clog : ∀ {t c}, a.vote c t c → Grounded a (a.clog t c) ∧ ∀ e ∈ a.clog t c, term e < t
  le_term : ∀ s, ∀ e ∈ a.log s, term e ≤ a.term s
  base_le : ∀ {t}, Elected a t → a.base t ≤ (a.llog t).length
  shape : ∀ {t}, Elected a t → ∀ p e, p ++ [e] <+: a.llog t →
    (p.length < a.base t → term e < t) ∧ (a.base t ≤ p.length → term e = t)
  own : ∀ {t L}, a.lead t = some L → a.term L = t → a.log L = a.llog t
  stands : ∀ {s}, a.cand s → a.log s = a.clog (a.term s) s
  pos : ∀ {t}, Elected a t → 0 < t
  vote_pos : ∀ {v t c}, a.vote v t c → 0 < t

lemma grounded_nil (a : State S E) : Grounded a [] := by
  intro p hp hne
  exact absurd (List.prefix_nil.mp hp) hne

lemma logInv_init : LogInv (State.init : State S E) where
  log := fun _ => grounded_nil _
  llog := by rintro t ⟨L, hL⟩; simp [State.init] at hL
  clog := fun h => h.elim
  le_term := by intro s e he; simp [State.init] at he
  base_le := by rintro t ⟨L, hL⟩; simp [State.init] at hL
  shape := by rintro t ⟨L, hL⟩; simp [State.init] at hL
  own := fun h => by simp [State.init] at h
  stands := fun h => h.elim
  pos := by rintro t ⟨L, hL⟩; simp [State.init] at hL
  vote_pos := fun h => h.elim

variable {a b : State S E}

lemma Grounded.mono {l p : List E} (h : Grounded a l) (hp : p <+: l) : Grounded a p :=
  fun q hq hne => h q (hq.trans hp) hne

/-- **Log matching.** -/
theorem Grounded.matching {x y p q : List E} (hx : Grounded a x) (hy : Grounded a y)
    (hp : p <+: x) (hq : q <+: y) (hlen : p.length = q.length) (ht : lastTerm p = lastTerm q) :
    p = q := by
  rcases eq_or_ne p [] with rfl | hne
  · exact (List.length_eq_zero_iff.mp (by simpa using hlen.symm)).symm
  · have hne' : q ≠ [] := by
      rintro rfl; exact hne (List.length_eq_zero_iff.mp (by simpa using hlen))
    have h1 := (hx p hp hne).2
    have h2 := (hy q hq hne').2
    rw [← ht] at h2
    exact prefix_eq_of_length h1 h2 hlen

/-- The same at a position: equal terms at `i` give equal logs up to `i`. -/
lemma Grounded.take_eq {x y : List E} (hx : Grounded a x) (hy : Grounded a y) {i : ℕ}
    (hix : i ≤ x.length) (hiy : i ≤ y.length) (ht : termAt x i = termAt y i) :
    x.take i = y.take i :=
  hx.matching hy (List.take_prefix _ _) (List.take_prefix _ _) (by simp; omega) ht

lemma LogInv.shape_prefix (h : LogInv a) {t : ℕ} (he : Elected a t) {l : List E}
    (hl : l <+: a.llog t) (hne : l ≠ []) :
    (l.length ≤ a.base t → lastTerm l < t) ∧ (a.base t < l.length → lastTerm l = t) := by
  obtain ⟨p, e, rfl⟩ := (List.eq_nil_or_concat l).resolve_left hne
  simp only [List.concat_eq_append, lastTerm_snoc, List.length_append,
    List.length_singleton] at hl ⊢
  obtain ⟨h1, h2⟩ := h.shape he p e hl
  exact ⟨fun hb => h1 (by omega), fun hb => h2 (by omega)⟩

lemma LogInv.lastTerm_le (h : LogInv a) {t : ℕ} (he : Elected a t) {l : List E}
    (hl : l <+: a.llog t) : lastTerm l ≤ t := by
  rcases eq_or_ne l [] with rfl | hne
  · simp
  · have := h.shape_prefix he hl hne
    rcases Nat.lt_or_ge (a.base t) l.length with hb | hb
    · exact (this.2 hb).le
    · exact (this.1 hb).le

/-- Terms never decrease along a grounded log. -/
lemma LogInv.lastTerm_mono (h : LogInv a) {x p q : List E} (hx : Grounded a x) (hpq : p <+: q)
    (hq : q <+: x) : lastTerm p ≤ lastTerm q := by
  rcases eq_or_ne q [] with rfl | hne
  · rw [List.prefix_nil.mp hpq]
  · obtain ⟨he, hl⟩ := hx q hq hne
    exact h.lastTerm_le he (hpq.trans hl)

lemma LogInv.termAt_mono (h : LogInv a) {x : List E} (hx : Grounded a x) {i j : ℕ}
    (hij : i ≤ j) : termAt x i ≤ termAt x j :=
  h.lastTerm_mono hx (List.take_prefix_take_left hij) (List.take_prefix _ _)

lemma LogInv.mem_llog_le (h : LogInv a) {t : ℕ} (he : Elected a t) {e : E}
    (hm : e ∈ a.llog t) : term e ≤ t := by
  obtain ⟨x, y, hxy⟩ := List.append_of_mem hm
  have hp : x ++ [e] <+: a.llog t := ⟨y, by rw [hxy]; simp⟩
  have := h.lastTerm_le he hp
  simpa using this

/-- A shared prefix of an earlier leader's log lies in what a later leader was elected with. -/
lemma LogInv.length_le_base (h : LogInv a) {t u : ℕ} (ht : Elected a t) (hu : Elected a u)
    (htu : t < u) {l : List E} (hl : l <+: a.llog t) (hl' : l <+: a.llog u) :
    l.length ≤ a.base u := by
  by_contra hlt
  have hne : l ≠ [] := by rintro rfl; simp at hlt
  have h1 := (h.shape_prefix hu hl' hne).2 (by omega)
  have h2 := h.lastTerm_le ht hl
  omega

/-! ### The steps keep the logs in order -/

/-- Leaders stay, and their logs only grow. -/
def Grows (a b : State S E) : Prop :=
  ∀ t, Elected a t → Elected b t ∧ a.llog t <+: b.llog t

lemma Grounded.grows {l : List E} (h : Grounded a l) (hg : Grows a b) : Grounded b l := by
  intro p hp hne
  obtain ⟨he, hl⟩ := h p hp hne
  exact ⟨(hg _ he).1, hl.trans (hg _ he).2⟩

variable [DecidableEq S]

lemma LogInv.setLog (h : LogInv a) {s : S} {l : List E} (hl : Grounded a l)
    (hle : ∀ e ∈ l, term e ≤ a.term s) (hs : a.lead (a.term s) ≠ some s) (hc : ¬ a.cand s) :
    LogInv (setLog a s l) where
  log := by
    intro v
    have hg : Grows a (Repl.setLog a s l) := fun t he => ⟨he, List.prefix_rfl⟩
    by_cases hv : v = s
    · subst hv
      rw [log_setLog]
      exact hl.grows hg
    · rw [show (Repl.setLog a s l).log v = a.log v by simp [Repl.setLog, hv]]
      exact (h.log v).grows hg
  llog := h.llog
  clog := h.clog
  le_term := by
    intro v
    by_cases hv : v = s
    · subst hv; simpa [Repl.setLog] using hle
    · simpa [Repl.setLog, hv] using h.le_term v
  base_le := h.base_le
  shape := h.shape
  own := by
    intro t L hL hterm
    have hLs : L ≠ s := by rintro rfl; rw [← hterm] at hL; exact hs hL
    simpa [Repl.setLog, hLs] using h.own hL hterm
  stands := by
    intro v hv
    have hvs : v ≠ s := by rintro rfl; exact hc hv
    simpa [Repl.setLog, hvs] using h.stands hv
  pos := h.pos
  vote_pos := h.vote_pos

variable [Fintype S]

lemma LogInv.bump (h : LogInv a) (hv : VoteInv a) {s : S} {t : ℕ} (ht : a.term s < t) :
    LogInv (bump a s t) where
  log := h.log
  llog := h.llog
  clog := h.clog
  le_term := by
    intro v e he
    have := h.le_term v e he
    by_cases hvs : v = s
    · subst hvs; simp [Repl.bump]; omega
    · simpa [Repl.bump, hvs] using this
  base_le := h.base_le
  shape := h.shape
  own := by
    intro u L hL hterm
    by_cases hLs : L = s
    · subst hLs
      have := (hv.led hL).1
      simp [Repl.bump] at hterm; omega
    · exact h.own hL (by simpa [Repl.bump, hLs] using hterm)
  stands := by
    intro v hc
    by_cases hvs : v = s
    · subst hvs; simp [Repl.bump] at hc
    · simpa [Repl.bump, hvs] using h.stands (by simpa [Repl.bump, hvs] using hc)
  pos := h.pos
  vote_pos := h.vote_pos

lemma LogInv.campaign (h : LogInv a) (hv : VoteInv a) (s : S) : LogInv (campaign a s) where
  log := h.log
  llog := h.llog
  clog := by
    intro t c hvote
    by_cases htc : t = a.term s + 1 ∧ c = s
    · obtain ⟨rfl, rfl⟩ := htc
      have : (Repl.campaign a c).clog (a.term c + 1) c = a.log c := by simp [Repl.campaign]
      rw [this]
      exact ⟨h.log c, fun e he => Nat.lt_succ_of_le (h.le_term c e he)⟩
    · have : (Repl.campaign a s).clog t c = a.clog t c := by simp [Repl.campaign, htc]
      rw [this]
      rcases hvote with hvote | ⟨h1, h2, -⟩
      · exact h.clog hvote
      · exact absurd ⟨h2, h1⟩ htc
  le_term := by
    intro v e he
    have := h.le_term v e he
    by_cases hvs : v = s
    · subst hvs; simp [Repl.campaign]; omega
    · simpa [Repl.campaign, hvs] using this
  base_le := h.base_le
  shape := h.shape
  own := by
    intro t L hL hterm
    by_cases hLs : L = s
    · subst hLs
      have := (hv.led hL).1
      simp [Repl.campaign] at hterm; omega
    · exact h.own hL (by simpa [Repl.campaign, hLs] using hterm)
  stands := by
    intro v hc
    by_cases hvs : v = s
    · subst hvs; simp [Repl.campaign]
    · simpa [Repl.campaign, hvs] using h.stands (by simpa [Repl.campaign, hvs] using hc)
  pos := h.pos
  vote_pos := by
    rintro v t c (hvote | ⟨-, rfl, -⟩)
    · exact h.vote_pos hvote
    · omega

lemma LogInv.elect (h : LogInv a) (hv : VoteInv a) {c : S} (hc : a.cand c)
    (hfresh : ¬ Elected a (a.term c)) : LogInv (elect a c) := by
  have hg : Grows a (Repl.elect a c) := by
    intro u hu
    have hne : u ≠ a.term c := by rintro rfl; exact hfresh hu
    exact ⟨(elected_elect_iff hne).mpr hu, by rw [llog_elect_of_ne hne]⟩
  have hstand := hv.stands hc
  refine ⟨fun s => (h.log s).grows hg, ?_, fun hvote => ⟨(h.clog hvote).1.grows hg,
    (h.clog hvote).2⟩, h.le_term, ?_, ?_, ?_, ?_, ?_, h.vote_pos⟩
  · intro t he
    by_cases ht : t = a.term c
    · subst ht; rw [llog_elect_self]; exact (h.log c).grows hg
    · rw [llog_elect_of_ne ht]; exact (h.llog ((elected_elect_iff ht).mp he)).grows hg
  · intro t he
    by_cases ht : t = a.term c
    · subst ht; rw [llog_elect_self, base_elect_self]
    · rw [llog_elect_of_ne ht, base_elect_of_ne ht]
      exact h.base_le ((elected_elect_iff ht).mp he)
  · intro t he p e hp
    by_cases ht : t = a.term c
    · -- the candidate's entries are older than its term
      subst ht
      rw [llog_elect_self] at hp
      rw [base_elect_self]
      have hmem : e ∈ a.log c := hp.subset (by simp)
      have hlen := hp.length_le
      simp only [List.length_append, List.length_singleton] at hlen
      rw [h.stands hc] at hmem
      exact ⟨fun _ => (h.clog hstand.2.1).2 e hmem, fun hb => by omega⟩
    · rw [llog_elect_of_ne ht] at hp
      rw [base_elect_of_ne ht]
      exact h.shape ((elected_elect_iff ht).mp he) p e hp
  · intro t L hL hterm
    by_cases ht : t = a.term c
    · subst ht
      obtain rfl : c = L := by simpa using hL
      rw [llog_elect_self]; rfl
    · rw [llog_elect_of_ne ht]
      exact h.own (lead_elect_of_ne ht ▸ hL) hterm
  · intro s hs
    by_cases hsc : s = c
    · subst hsc; simp [Repl.elect] at hs
    · exact h.stands (by simpa [Repl.elect, hsc] using hs)
  · intro t he
    by_cases ht : t = a.term c
    · subst ht; exact h.vote_pos hstand.2.1
    · exact h.pos ((elected_elect_iff ht).mp he)

omit [Termed E] [Fintype S] in
lemma grows_propose (a : State S E) (L : S) (e : E) : Grows a (propose a L e) :=
  fun t ht => ⟨ht, llog_le_propose t⟩

omit [Fintype S] in
/-- The leader's new log is grounded: its new prefix is the new log of its own term. -/
lemma LogInv.grounded_propose (h : LogInv a) {L : S} {e : E}
    (hel : Elected a (a.term L)) (he : term e = a.term L) :
    Grounded (propose a L e) (a.llog (a.term L) ++ [e]) := by
  intro p hp hne
  rcases List.prefix_concat_iff.mp hp with rfl | hp'
  · rw [lastTerm_snoc, he]
    exact ⟨hel, by rw [llog_propose_self]⟩
  · exact (h.llog hel).grows (grows_propose a L e) p hp' hne

lemma LogInv.propose (h : LogInv a) (hv : VoteInv a) {L : S} {e : E}
    (hl : a.lead (a.term L) = some L) (he : term e = a.term L) : LogInv (propose a L e) := by
  have hel : Elected a (a.term L) := ⟨L, hl⟩
  have hown := h.own hl rfl
  have hg := grows_propose a L e
  have hnew := h.grounded_propose hel he
  refine ⟨?_, ?_, fun hvote => ⟨(h.clog hvote).1.grows hg, (h.clog hvote).2⟩, ?_, ?_, ?_, ?_,
    ?_, h.pos, h.vote_pos⟩
  · intro s
    by_cases hs : s = L
    · subst hs; rw [log_propose_self, hown]; exact hnew
    · rw [log_propose_of_ne hs]; exact (h.log s).grows hg
  · intro t ht
    by_cases hterm : t = a.term L
    · subst hterm; rw [llog_propose_self]; exact hnew
    · rw [llog_propose_of_ne hterm]; exact (h.llog ht).grows hg
  · intro s x hx
    by_cases hs : s = L
    · subst hs
      rw [log_propose_self] at hx
      rcases List.mem_append.mp hx with hx' | hx'
      · exact h.le_term s x hx'
      · rw [List.mem_singleton.mp hx', he]; exact le_rfl
    · rw [log_propose_of_ne hs] at hx
      exact h.le_term s x hx
  · intro t ht
    exact (h.base_le ht).trans (hg t ht).2.length_le
  · intro t ht p x hp
    by_cases hterm : t = a.term L
    · subst hterm
      rw [llog_propose_self] at hp
      rcases List.prefix_concat_iff.mp hp with heq | hp'
      · obtain ⟨rfl, hx⟩ := List.append_inj' heq rfl
        obtain rfl : x = e := by simpa using hx
        refine ⟨fun hb => ?_, fun _ => he⟩
        have := h.base_le hel
        exact absurd hb (by show ¬ _ < a.base _; omega)
      · exact h.shape hel p x hp'
    · rw [llog_propose_of_ne hterm] at hp
      exact h.shape ht p x hp
  · intro t M hM hterm
    by_cases hML : M = L
    · subst hML
      obtain rfl : a.term M = t := hterm
      rw [llog_propose_self, log_propose_self, hown]
    · have ht : t ≠ a.term L := by
        rintro rfl
        have : a.lead (a.term L) = some M := hM
        rw [hl] at this
        exact hML (Option.some.inj this).symm
      rw [llog_propose_of_ne ht, log_propose_of_ne hML]
      exact h.own hM hterm
  · intro s hs
    have hsL : s ≠ L := by
      rintro rfl; exact (hv.led hl).2 rfl hs
    rw [log_propose_of_ne hsL]
    exact h.stands hs

/-- **The logs stay matched.** -/
theorem LogInv.step (h : LogInv a) (hv : VoteInv a) (hs : Step a b) : LogInv b := by
  cases hs with
  | bump s t ht => exact h.bump hv ht
  | yield s hc he =>
    refine ⟨h.log, h.llog, h.clog, h.le_term, h.base_le, h.shape, h.own, ?_, h.pos, h.vote_pos⟩
    intro v hvc
    by_cases hvs : v = s
    · subst hvs; simp [Repl.yield] at hvc
    · exact h.stands (by simpa [Repl.yield, hvs] using hvc)
  | retire s =>
    refine ⟨h.log, h.llog, h.clog, h.le_term, h.base_le, h.shape, h.own, ?_, h.pos, h.vote_pos⟩
    intro v hvc
    by_cases hvs : v = s
    · subst hvs; simp [Repl.retire] at hvc
    · exact h.stands (by simpa [Repl.retire, hvs] using hvc)
  | campaign s => exact h.campaign hv s
  | grant v c hheld hvc hc hu =>
    refine ⟨h.log, h.llog, ?_, h.le_term, h.base_le, h.shape, h.own, h.stands, h.pos, ?_⟩
    · rintro t d (hd | ⟨h1, h2, h3⟩)
      · exact h.clog hd
      · subst h2 h3; exact h.clog hc
    · rintro w t d (hd | ⟨-, rfl, -⟩)
      · exact h.vote_pos hd
      · exact h.vote_pos hc
  | elect c Q hc hQ hvote => exact h.elect hv hc (hv.fresh hc hQ hvote)
  | propose L e hl he => exact h.propose hv hl he
  | cut s p m he hs hc hpm hne =>
    exact h.setLog ((h.log s).mono (List.take_prefix _ _))
      (fun e hm => h.le_term s e (List.mem_of_mem_take hm)) hs hc
  | adopt s m he hs hc hkeep =>
    exact h.setLog ((h.llog he).mono (List.take_prefix _ _))
      (fun e hm => h.mem_llog_le he (List.mem_of_mem_take hm)) hs hc
  | acknowledge s l he hl hs =>
    exact ⟨h.log, h.llog, h.clog, h.le_term, h.base_le, h.shape, h.own, h.stands, h.pos,
      h.vote_pos⟩
  | compact s k hk =>
    exact ⟨h.log, h.llog, h.clog, h.le_term, h.base_le, h.shape, h.own, h.stands, h.pos,
      h.vote_pos⟩

end Mit6824.Repl
