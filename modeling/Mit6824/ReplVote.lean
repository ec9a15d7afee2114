import Mit6824.ReplState

/-!
Elections: a term has at most one leader, although a server may vote twice in it.

While a term has no leader its servers vote at most once in it. The majority that elects a
leader votes for nobody else in the term, ever: its members hold their vote and do not stand,
and only a server that stands can forget the vote it cast.
-/

namespace Mit6824.Repl

open Mit6824.Quorum Mit6824.TermLog Function

variable {S E : Type*} [Fintype S]

structure VoteInv (a : State S E) : Prop where
  le_term : ∀ {v t c}, a.vote v t c → t ≤ a.term v
  stood : ∀ {v t c}, a.vote v t c → a.vote c t c
  held : ∀ {v c}, a.vote v (a.term v) c → a.held v = some c ∨ Elected a (a.term v)
  stands : ∀ {s}, a.cand s →
    a.held s = some s ∧ a.vote s (a.term s) s ∧ ∀ c, a.vote s (a.term s) c → c = s
  single : ∀ {v t c c'}, ¬ Elected a t → a.vote v t c → a.vote v t c' → c = c'
  quorum : ∀ {t L}, a.lead t = some L → ∃ Q, Majority Q ∧ ∀ v ∈ Q, a.vote v t L ∧
    (∀ c, a.vote v t c → c = L) ∧ (a.term v = t → a.held v = some L ∧ ¬ a.cand v)
  led : ∀ {t L}, a.lead t = some L → t ≤ a.term L ∧ (a.term L = t → ¬ a.cand L)

lemma voteInv_init : VoteInv (State.init : State S E) where
  le_term := fun h => h.elim
  stood := fun h => h.elim
  held := fun h => h.elim
  stands := fun h => h.elim
  single := fun _ h => h.elim
  quorum := fun h => by simp [State.init] at h
  led := fun h => by simp [State.init] at h

variable [DecidableEq S] {a : State S E}

/-- **A candidate with a majority of votes is the first leader of its term.** -/
theorem VoteInv.fresh (h : VoteInv a) {c : S} {Q : Finset S} (hc : a.cand c) (hQ : Majority Q)
    (hv : ∀ v ∈ Q, a.vote v (a.term c) c) : ¬ Elected a (a.term c) := by
  rintro ⟨L, hL⟩
  obtain ⟨P, hP, hPL⟩ := h.quorum hL
  obtain ⟨v, hvP, hvQ⟩ := hP.inter hQ
  obtain rfl := (hPL v hvP).2.1 c (hv v hvQ)
  exact (h.led hL).2 rfl hc

lemma VoteInv.bump (h : VoteInv a) {s : S} {t : ℕ} (ht : a.term s < t) :
    VoteInv (bump a s t) where
  le_term := by
    intro v u c hv
    have := h.le_term hv
    by_cases hvs : v = s
    · subst hvs; simp [Repl.bump]; omega
    · simpa [Repl.bump, hvs] using this
  stood := h.stood
  held := by
    intro v c hv
    by_cases hvs : v = s
    · -- nothing was voted in the term just entered
      subst hvs
      have := h.le_term (by simpa [Repl.bump] using hv : a.vote v t c)
      omega
    · simpa [Repl.bump, hvs, Elected] using h.held (by simpa [Repl.bump, hvs] using hv)
  stands := by
    intro v hv
    by_cases hvs : v = s
    · subst hvs; simp [Repl.bump] at hv
    · simpa [Repl.bump, hvs] using h.stands (by simpa [Repl.bump, hvs] using hv)
  single := fun he => h.single he
  quorum := by
    intro u L hL
    obtain ⟨Q, hQ, hQL⟩ := h.quorum hL
    refine ⟨Q, hQ, fun v hv => ⟨(hQL v hv).1, (hQL v hv).2.1, ?_⟩⟩
    by_cases hvs : v = s
    · subst hvs
      intro hterm
      have := h.le_term (hQL v hv).1
      simp [Repl.bump] at hterm
      omega
    · simpa [Repl.bump, hvs] using (hQL v hv).2.2
  led := by
    intro u L hL
    have := h.led hL
    by_cases hLs : L = s
    · subst hLs; simp [Repl.bump]; omega
    · simpa [Repl.bump, hLs] using this

lemma VoteInv.yield (h : VoteInv a) {s : S} (hc : a.cand s) (he : Elected a (a.term s)) :
    VoteInv (yield a s) where
  le_term := h.le_term
  stood := h.stood
  held := by
    intro v c hv
    by_cases hvs : v = s
    · subst hvs; exact Or.inr he
    · simpa [Repl.yield, hvs, Elected] using h.held hv
  stands := by
    intro v hv
    by_cases hvs : v = s
    · subst hvs; simp [Repl.yield] at hv
    · simpa [Repl.yield, hvs] using h.stands (by simpa [Repl.yield, hvs] using hv)
  single := fun he => h.single he
  quorum := by
    intro u L hL
    obtain ⟨Q, hQ, hQL⟩ := h.quorum hL
    refine ⟨Q, hQ, fun v hv => ⟨(hQL v hv).1, (hQL v hv).2.1, ?_⟩⟩
    by_cases hvs : v = s
    · -- a member of the majority does not stand, so it is not the one that yields
      subst hvs
      intro hterm
      exact absurd hc ((hQL v hv).2.2 hterm).2
    · simpa [Repl.yield, hvs] using (hQL v hv).2.2
  led := by
    intro u L hL
    have := h.led hL
    by_cases hLs : L = s
    · subst hLs; exact ⟨this.1, by simp [Repl.yield]⟩
    · simpa [Repl.yield, hLs] using this

lemma VoteInv.retire (h : VoteInv a) (s : S) : VoteInv (retire a s) where
  le_term := h.le_term
  stood := h.stood
  held := h.held
  stands := by
    intro v hv
    by_cases hvs : v = s
    · subst hvs; simp [Repl.retire] at hv
    · exact h.stands (by simpa [Repl.retire, hvs] using hv)
  single := fun he => h.single he
  quorum := by
    intro u L hL
    obtain ⟨Q, hQ, hQL⟩ := h.quorum hL
    refine ⟨Q, hQ, fun v hv => ⟨(hQL v hv).1, (hQL v hv).2.1, fun hterm => ?_⟩⟩
    have := (hQL v hv).2.2 hterm
    by_cases hvs : v = s
    · subst hvs; exact ⟨this.1, by simp [Repl.retire]⟩
    · exact ⟨this.1, by simpa [Repl.retire, hvs] using this.2⟩
  led := by
    intro u L hL
    have := h.led hL
    by_cases hLs : L = s
    · subst hLs; exact ⟨this.1, by simp [Repl.retire]⟩
    · exact ⟨this.1, by simpa [Repl.retire, hLs] using this.2⟩

lemma VoteInv.campaign (h : VoteInv a) (s : S) : VoteInv (campaign a s) := by
  -- the candidate has not voted in the term it enters
  have hnew : ∀ c, ¬ a.vote s (a.term s + 1) c := fun c hv => by
    have := h.le_term hv; omega
  constructor
  case le_term =>
    rintro v t c (hv | ⟨rfl, rfl, rfl⟩)
    · have := h.le_term hv
      by_cases hvs : v = s
      · subst hvs; simp [Repl.campaign]; omega
      · simpa [Repl.campaign, hvs] using this
    · simp [Repl.campaign]
  case stood =>
    rintro v t c (hv | ⟨rfl, rfl, rfl⟩)
    · exact Or.inl (h.stood hv)
    · exact Or.inr ⟨rfl, rfl, rfl⟩
  case held =>
    intro v c hv
    by_cases hvs : v = s
    · subst hvs
      simp only [Repl.campaign, update_self] at hv ⊢
      rcases hv with hv | ⟨-, -, rfl⟩
      · exact absurd hv (hnew c)
      · exact Or.inl rfl
    · simp only [Repl.campaign, update_of_ne hvs, hvs, false_and, or_false] at hv ⊢
      exact h.held hv
  case stands =>
    intro v hv
    by_cases hvs : v = s
    · subst hvs
      simp only [Repl.campaign, update_self]
      refine ⟨trivial, by simp, ?_⟩
      rintro c (hv | ⟨-, -, rfl⟩)
      · exact absurd hv (hnew c)
      · rfl
    · simp only [Repl.campaign, update_of_ne hvs, hvs, false_and, or_false] at hv ⊢
      exact h.stands hv
  case single =>
    rintro v t c c' he (hv | ⟨rfl, rfl, rfl⟩) (hv' | ⟨h1, h2, h3⟩)
    · exact h.single he hv hv'
    · subst h1 h2; exact absurd hv (hnew c)
    · exact absurd hv' (hnew c')
    · exact h3.symm
  case quorum =>
    intro u L hL
    obtain ⟨Q, hQ, hQL⟩ := h.quorum hL
    refine ⟨Q, hQ, fun v hv => ?_⟩
    obtain ⟨hvL, hone, hstill⟩ := hQL v hv
    refine ⟨Or.inl hvL, ?_, ?_⟩
    · rintro c (hc | ⟨rfl, rfl, rfl⟩)
      · exact hone c hc
      · exact absurd hvL (hnew L)
    · by_cases hvs : v = s
      · subst hvs
        intro hterm
        have := h.le_term hvL
        simp [Repl.campaign] at hterm
        omega
      · simpa [Repl.campaign, hvs] using hstill
  case led =>
    intro u L hL
    have := h.led hL
    by_cases hLs : L = s
    · subst hLs; simp [Repl.campaign]; omega
    · simpa [Repl.campaign, hLs] using this

lemma VoteInv.grant (h : VoteInv a) {v c : S} (hheld : a.held v = none ∨ a.held v = some c)
    (hv : ¬ a.cand v) (hc : a.vote c (a.term v) c) : VoteInv (grant a v c) := by
  -- before the election the voter holds what it voted, so it can only vote the same again
  have hsame : ∀ c', ¬ Elected a (a.term v) → a.vote v (a.term v) c' → c' = c := by
    intro c' he hvote
    rcases h.held hvote with hh | hh
    · rcases hheld with h0 | h0 <;> rw [h0] at hh
      · cases hh
      · exact (Option.some.inj hh).symm
    · exact absurd hh he
  constructor
  case le_term =>
    rintro w t c' (hw | ⟨rfl, rfl, rfl⟩)
    · exact h.le_term hw
    · exact le_rfl
  case stood =>
    rintro w t c' (hw | ⟨rfl, rfl, rfl⟩)
    · exact Or.inl (h.stood hw)
    · exact Or.inl hc
  case held =>
    intro w c' hw
    simp only [Repl.grant] at hw ⊢
    by_cases hwv : w = v
    · subst hwv
      rcases hw with hw | ⟨-, -, rfl⟩
      · by_cases he : Elected a (a.term w)
        · exact Or.inr he
        · rw [hsame c' he hw]; simp
      · simp
    · simp only [hwv, false_and, or_false] at hw
      rw [update_of_ne hwv]; exact h.held hw
  case stands =>
    intro w hw
    have hwv : w ≠ v := by rintro rfl; exact hv hw
    simp only [Repl.grant, update_of_ne hwv, hwv, false_and, or_false]
    exact h.stands hw
  case single =>
    rintro w t c1 c2 he (h1 | ⟨rfl, rfl, rfl⟩) (h2 | ⟨e1, e2, e3⟩)
    · exact h.single he h1 h2
    · subst e1 e2 e3; exact hsame c1 he h1
    · exact (hsame c2 he h2).symm
    · exact e3.symm
  case quorum =>
    intro u L hL
    obtain ⟨Q, hQ, hQL⟩ := h.quorum hL
    refine ⟨Q, hQ, fun w hw => ?_⟩
    obtain ⟨hwL, hone, hstill⟩ := hQL w hw
    by_cases hwv : w = v
    · subst hwv
      -- a member of the majority holds its vote for the leader
      have hcL : u = a.term w → c = L := by
        intro hu
        rcases hheld with h0 | h0 <;> rw [(hstill hu.symm).1] at h0
        · cases h0
        · exact (Option.some.inj h0).symm
      refine ⟨Or.inl hwL, ?_, ?_⟩
      · rintro c' (hc' | ⟨-, rfl, rfl⟩)
        · exact hone c' hc'
        · exact hcL rfl
      · intro hu
        simp only [Repl.grant, update_self]
        exact ⟨by rw [hcL hu.symm], (hstill hu).2⟩
    · simp only [Repl.grant, update_of_ne hwv, hwv, false_and, or_false]
      exact ⟨hwL, hone, hstill⟩
  case led => exact h.led

lemma VoteInv.elect (h : VoteInv a) {c : S} {Q : Finset S} (hc : a.cand c) (hQ : Majority Q)
    (hv : ∀ v ∈ Q, a.vote v (a.term c) c) : VoteInv (elect a c) := by
  have hfresh := h.fresh hc hQ hv
  have hne : ∀ {t L}, a.lead t = some L → t ≠ a.term c := by
    rintro t L hL rfl; exact hfresh ⟨L, hL⟩
  have hold : ∀ {t}, ¬ Elected (Repl.elect a c) t → ¬ Elected a t := by
    rintro t he ⟨L, hL⟩
    exact he ((elected_elect_iff (hne hL)).mpr ⟨L, hL⟩)
  have hcand : ∀ v, v ≠ c → (Repl.elect a c).cand v = a.cand v := by
    intro v hvc; simp [Repl.elect, hvc]
  refine ⟨h.le_term, h.stood, ?_, ?_, fun he => h.single (hold he), ?_, ?_⟩
  · intro v c' hvote
    rcases h.held hvote with hh | ⟨L, hL⟩
    · exact Or.inl hh
    · exact Or.inr ((elected_elect_iff (hne hL)).mpr ⟨L, hL⟩)
  · intro v hvc
    by_cases hvs : v = c
    · subst hvs; simp [Repl.elect] at hvc
    · exact h.stands (by simpa [Repl.elect, hvs] using hvc)
  · intro t L hL
    by_cases ht : t = a.term c
    · subst ht
      obtain rfl : c = L := by simpa using hL
      refine ⟨Q, hQ, fun v hvQ => ⟨hv v hvQ, fun c' hc' => h.single hfresh hc' (hv v hvQ), ?_⟩⟩
      intro hterm
      have hterm' : a.term v = a.term c := hterm
      refine ⟨?_, ?_⟩
      · have := h.held (v := v) (c := c) (by rw [hterm']; exact hv v hvQ)
        rcases this with hh | hh
        · exact hh
        · rw [hterm'] at hh; exact absurd hh hfresh
      · by_cases hvc : v = c
        · subst hvc; simp [Repl.elect]
        · rw [hcand v hvc]
          intro hstand
          have := (h.stands hstand).2.2 c (by rw [hterm']; exact hv v hvQ)
          exact hvc this.symm
    · have hL' : a.lead t = some L := lead_elect_of_ne ht ▸ hL
      obtain ⟨P, hP, hPL⟩ := h.quorum hL'
      refine ⟨P, hP, fun v hvP => ⟨(hPL v hvP).1, (hPL v hvP).2.1, fun hterm => ?_⟩⟩
      have hvc : v ≠ c := by rintro rfl; exact ht hterm.symm
      rw [hcand v hvc]
      exact (hPL v hvP).2.2 hterm
  · intro t L hL
    by_cases ht : t = a.term c
    · subst ht
      obtain rfl : c = L := by simpa using hL
      exact ⟨le_rfl, by simp [Repl.elect]⟩
    · have hL' : a.lead t = some L := lead_elect_of_ne ht ▸ hL
      refine ⟨(h.led hL').1, fun hterm => ?_⟩
      have hLc : L ≠ c := by rintro rfl; exact ht hterm.symm
      rw [hcand L hLc]
      exact (h.led hL').2 hterm

variable [Termed E]

/-- **The votes stay in order.** -/
theorem VoteInv.step {b : State S E} (h : VoteInv a) (hs : Step a b) : VoteInv b := by
  cases hs with
  | bump s t ht => exact h.bump ht
  | yield s hc he => exact h.yield hc he
  | retire s => exact h.retire s
  | campaign s => exact h.campaign s
  | grant v c hheld hv hc hu => exact h.grant hheld hv hc
  | elect c Q hc hQ hv => exact h.elect hc hQ hv
  | propose L e hl he => exact ⟨h.le_term, h.stood, h.held, h.stands, h.single, h.quorum, h.led⟩
  | cut s p m he hs hc hpm hne =>
    exact ⟨h.le_term, h.stood, h.held, h.stands, h.single, h.quorum, h.led⟩
  | adopt s m he hs hc hkeep =>
    exact ⟨h.le_term, h.stood, h.held, h.stands, h.single, h.quorum, h.led⟩
  | acknowledge s l he hl hs =>
    exact ⟨h.le_term, h.stood, h.held, h.stands, h.single, h.quorum, h.led⟩
  | compact s k hk => exact ⟨h.le_term, h.stood, h.held, h.stands, h.single, h.quorum, h.led⟩

end Mit6824.Repl
