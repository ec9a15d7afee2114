import Mit6824.ReplMatch

/-!
Leader completeness: a prefix that enough servers acknowledged in a term is in the log of the
leader of every later term.

Enough means a majority, when the last entry of the prefix has the term of its leader, or all
servers, whatever that term is. What an acknowledged prefix can suffer is said without knowing
whether it is committed: the server still has it, or some later leader lacks it. A vote hands
this on to the candidate, and an election to the new leader; by induction on the term no
leader is the first to lack a committed prefix.
-/

namespace Mit6824.Repl

open Mit6824.Quorum Mit6824.TermLog Function

variable {S E : Type*}

/-- Some leader after term `t` and before term `n` lacks the prefix. -/
def Dropped (a : State S E) (t n : ℕ) (l : List E) : Prop :=
  ∃ u, t < u ∧ u < n ∧ Elected a u ∧ ¬ l <+: a.llog u

/-- The prefix of the log of term `t` is in `x`, or was dropped by a leader before `n`. -/
def Survives (a : State S E) (t n : ℕ) (l x : List E) : Prop := l <+: x ∨ Dropped a t n l

/-- `l` is a prefix of the log of term `t` that server `s` acknowledged in `t`. -/
def Acked (a : State S E) (s : S) (t : ℕ) (l : List E) : Prop :=
  Elected a t ∧ l <+: a.llog t ∧ l.length ≤ a.ack s t

structure AckInv [Fintype S] [Termed E] (a : State S E) : Prop where
  pos : ∀ {s t}, 0 < a.ack s t → Elected a t ∧ t ≤ a.term s
  le : ∀ {s t}, Elected a t → a.ack s t ≤ (a.llog t).length
  kept : ∀ {s t l}, Acked a s t l → Survives a t (a.term s + 1) l (a.log s)
  cast : ∀ {v t c u l}, a.vote v t c → u < t → Acked a v u l → lastTerm l = u →
    Survives a u (t + 1) l (a.clog t c)
  stood : ∀ {t c u l}, a.vote c t c → u < t → Acked a c u l →
    Survives a u (t + 1) l (a.clog t c)
  won : ∀ {t L}, a.lead t = some L → ∃ Q, Majority Q ∧ ∀ v ∈ Q, t ≤ a.term v ∧
    ∀ u l, u < t → Acked a v u l → lastTerm l = u → Survives a u t l (a.llog t)
  won_all : ∀ {t L}, a.lead t = some L → ∀ u l, u < t → Acked a L u l →
    Survives a u t l (a.llog t)

lemma Dropped.mono {a : State S E} {t n m : ℕ} {l : List E} (h : Dropped a t n l) (hnm : n ≤ m) :
    Dropped a t m l := by
  obtain ⟨u, h1, h2, h3⟩ := h
  exact ⟨u, h1, by omega, h3⟩

lemma Survives.mono {a : State S E} {t n m : ℕ} {l x y : List E} (h : Survives a t n l x)
    (hnm : n ≤ m) (hxy : x <+: y) : Survives a t m l y := by
  rcases h with h | h
  · exact Or.inl (h.trans hxy)
  · exact Or.inr (h.mono hnm)

lemma survives_nil (a : State S E) (t n : ℕ) {l : List E} (h : l.length ≤ 0) (x : List E) :
    Survives a t n l x := by
  obtain rfl : l = [] := List.length_eq_zero_iff.mp (by omega)
  exact Or.inl (List.nil_prefix)

variable [Termed E] {a b : State S E}

/-- Prefixes handed to an up-to-date candidate: the candidate has them, or the leader of its
last term dropped them. -/
lemma LogInv.survives_upToDate (h : LogInv a) {t u : ℕ} {l x y : List E} (hu : Elected a u)
    (hl : l <+: a.llog u) (hlu : lastTerm l = u) (hly : l <+: y) (hy : Grounded a y)
    (hx : Grounded a x) (hxt : ∀ e ∈ x, term e < t) (hxy : UpToDate x y) :
    Survives a u t l x := by
  have hupos := h.pos hu
  have hlast : u ≤ lastTerm y := by
    rw [← hlu]; exact h.lastTerm_mono hy hly List.prefix_rfl
  have hxlast : u ≤ lastTerm x := by rcases hxy with hxy | ⟨hxy, -⟩ <;> omega
  have hxne : x ≠ [] := by rintro rfl; simp at hxlast; omega
  have hyne : y ≠ [] := by rintro rfl; simp at hlast; omega
  obtain ⟨hew, hxw⟩ := hx x List.prefix_rfl hxne
  have hwt : lastTerm x < t := by
    obtain ⟨e, he, heq⟩ := lastTerm_mem hxne
    rw [heq]; exact hxt e he
  rcases Nat.eq_or_lt_of_le hxlast with heq | hlt
  · -- both logs end in the term of the prefix, and the candidate's is the longer one
    left
    have hlen : y.length ≤ x.length := by
      rcases hxy with hxy | ⟨-, hxy⟩
      · omega
      · exact hxy
    rw [← heq] at hxw
    exact List.prefix_of_prefix_length_le hl hxw (hly.length_le.trans hlen)
  · by_cases hin : l <+: a.llog (lastTerm x)
    · -- the candidate's log reaches past what the leader of its last term was elected with
      left
      have h1 := h.length_le_base hu hew hlt hl hin
      have h2 : a.base (lastTerm x) < x.length := by
        by_contra hb
        have := (h.shape_prefix hew hxw hxne).1 (by omega)
        omega
      exact List.prefix_of_prefix_length_le hin hxw (by omega)
    · exact Or.inr ⟨lastTerm x, hlt, hwt, hew, hin⟩

variable [Fintype S]

lemma ackInv_init : AckInv (State.init : State S E) where
  pos := fun h => by simp [State.init] at h
  le := fun _ => by simp [State.init]
  kept := fun h => survives_nil _ _ _ h.2.2 _
  cast := fun h => h.elim
  stood := fun h => h.elim
  won := fun h => by simp [State.init] at h
  won_all := fun h => by simp [State.init] at h

lemma AckInv.le_term (h : AckInv a) {s : S} {t : ℕ} {l : List E} (hl : Acked a s t l)
    (hne : l ≠ []) : t ≤ a.term s :=
  (h.pos (by have := List.length_pos_iff.mpr hne; have := hl.2.2; omega)).2

variable [DecidableEq S]

/-- A leader that lacks a prefix of an earlier log lacks it for good. -/
lemma Dropped.step (h : LogInv a) (hv : VoteInv a) (hs : Step a b) {t n : ℕ} {l : List E}
    (ht : Elected a t) (hl : l <+: a.llog t) (hd : Dropped a t n l) : Dropped b t n l := by
  obtain ⟨u, htu, hun, hu, hno⟩ := hd
  refine ⟨u, htu, hun, ?_⟩
  cases hs with
  | bump | yield | retire | campaign | grant | cut | adopt | acknowledge | compact =>
    exact ⟨hu, hno⟩
  | elect c Q hc hQ hvote =>
    have hne : u ≠ a.term c := by rintro rfl; exact hv.fresh hc hQ hvote hu
    exact ⟨(elected_elect_iff hne).mpr hu, by rwa [llog_elect_of_ne hne]⟩
  | propose L e hL he =>
    refine ⟨hu, fun hin => hno ?_⟩
    by_cases hterm : u = a.term L
    · subst hterm
      rw [llog_propose_self] at hin
      rcases List.prefix_concat_iff.mp hin with rfl | hin'
      · -- the new entry is younger than the prefix
        have := h.lastTerm_le ht hl
        rw [lastTerm_snoc, he] at this
        omega
      · exact hin'
    · rwa [llog_propose_of_ne hterm] at hin

lemma Survives.step (h : LogInv a) (hv : VoteInv a) (hs : Step a b) {t n : ℕ} {l x : List E}
    (ht : Elected a t) (hl : l <+: a.llog t) (hd : Survives a t n l x) : Survives b t n l x := by
  rcases hd with hd | hd
  · exact Or.inl hd
  · exact Or.inr (hd.step h hv hs ht hl)

lemma AckInv.bump (h : AckInv a) {s : S} {t : ℕ} (ht : a.term s < t) : AckInv (bump a s t) := by
  have hmono : ∀ v, a.term v ≤ (Repl.bump a s t).term v := by
    intro v
    by_cases hvs : v = s
    · subst hvs; simp [Repl.bump]; omega
    · simp [Repl.bump, hvs]
  refine ⟨fun hp => ⟨(h.pos hp).1, (h.pos hp).2.trans (hmono _)⟩, h.le, ?_, h.cast, h.stood, ?_,
    h.won_all⟩
  · intro v u l hl
    exact (h.kept hl).mono (Nat.succ_le_succ (hmono v)) List.prefix_rfl
  · intro u L hL
    obtain ⟨Q, hQ, hw⟩ := h.won hL
    exact ⟨Q, hQ, fun v hv => ⟨(hw v hv).1.trans (hmono v), (hw v hv).2⟩⟩

lemma AckInv.campaign (h : AckInv a) (hv : VoteInv a) (s : S) : AckInv (campaign a s) := by
  have hmono : ∀ v, a.term v ≤ (Repl.campaign a s).term v := by
    intro v
    by_cases hvs : v = s
    · subst hvs; simp [Repl.campaign]
    · simp [Repl.campaign, hvs]
  have hnew : (Repl.campaign a s).clog (a.term s + 1) s = a.log s := by simp [Repl.campaign]
  -- nobody has voted for the candidate in the term it enters
  have hold : ∀ {v t c}, a.vote v t c → (Repl.campaign a s).clog t c = a.clog t c := by
    intro v t c hvote
    have hne : ¬ (t = a.term s + 1 ∧ c = s) := by
      rintro ⟨rfl, rfl⟩
      have := hv.le_term (hv.stood hvote)
      omega
    simp [Repl.campaign, hne]
  refine ⟨fun hp => ⟨(h.pos hp).1, (h.pos hp).2.trans (hmono _)⟩, h.le, ?_, ?_, ?_, ?_,
    h.won_all⟩
  · intro v u l hl
    exact (h.kept hl).mono (Nat.succ_le_succ (hmono v)) List.prefix_rfl
  · rintro v t c u l (hvote | ⟨rfl, rfl, rfl⟩) hut hl hlu
    · rw [hold hvote]; exact h.cast hvote hut hl hlu
    · rw [hnew]; exact (h.kept hl).mono (by omega) List.prefix_rfl
  · rintro t c u l (hvote | ⟨rfl, rfl, -⟩) hut hl
    · rw [hold hvote]; exact h.stood hvote hut hl
    · rw [hnew]; exact (h.kept hl).mono (by omega) List.prefix_rfl
  · intro u L hL
    obtain ⟨Q, hQ, hw⟩ := h.won hL
    exact ⟨Q, hQ, fun v hv => ⟨(hw v hv).1.trans (hmono v), (hw v hv).2⟩⟩

lemma AckInv.grant (h : AckInv a) (hlog : LogInv a) {v c : S} (hc : a.vote c (a.term v) c)
    (hu : UpToDate (a.clog (a.term v) c) (a.log v)) : AckInv (grant a v c) := by
  refine ⟨h.pos, h.le, h.kept, ?_, ?_, h.won, h.won_all⟩
  · rintro w t d u l (hvote | ⟨rfl, rfl, rfl⟩) hut hl hlu
    · exact h.cast hvote hut hl hlu
    · rcases h.kept hl with hin | hd
      · have := hlog.clog hc
        exact (hlog.survives_upToDate hl.1 hl.2.1 hlu hin (hlog.log w) this.1 this.2 hu).mono
          (by omega) List.prefix_rfl
      · exact Or.inr hd
  · rintro t d u l (hvote | ⟨rfl, rfl, rfl⟩) hut hl
    · exact h.stood hvote hut hl
    · exact h.stood hc hut hl

section Elect

variable {c s : S} {t : ℕ}

/-- In the term of an election, only its winner has acknowledged anything. -/
lemma AckInv.elect_ack_other (h : AckInv a) (hfresh : ¬ Elected a (a.term c)) (hsc : s ≠ c) :
    (elect a c).ack s (a.term c) = 0 := by
  have : a.ack s (a.term c) = 0 := by
    by_contra h0
    exact hfresh (h.pos (Nat.pos_of_ne_zero h0)).1
  rw [ack_elect_of_ne fun hst => hsc hst.1, this]

omit [Termed E] [Fintype S] in
lemma Acked.of_elect {l : List E} (ht : t ≠ a.term c) (h : Acked (elect a c) s t l) :
    Acked a s t l := by
  obtain ⟨h1, h2, h3⟩ := h
  exact ⟨(elected_elect_iff ht).mp h1, llog_elect_of_ne ht ▸ h2,
    ack_elect_of_ne (fun hst => ht hst.2) ▸ h3⟩

lemma AckInv.elect_survives (h : AckInv a) (hlog : LogInv a) (hv : VoteInv a)
    (hs : Step a (elect a c)) (hfresh : ¬ Elected a (a.term c)) {n : ℕ} {l x : List E}
    (hst : s = c → t ≠ a.term c) (hl : Acked (elect a c) s t l)
    (hsurv : Acked a s t l → Survives a t n l x) : Survives (elect a c) t n l x := by
  by_cases ht : t = a.term c
  · have hsc : s ≠ c := fun hsc => hst hsc ht
    subst ht
    have hlen := hl.2.2
    rw [h.elect_ack_other hfresh hsc] at hlen
    exact survives_nil _ _ _ hlen _
  · have hl' := hl.of_elect ht
    exact (hsurv hl').step hlog hv hs hl'.1 hl'.2.1

lemma survives_elect (hlog : LogInv a) (hv : VoteInv a) (hs : Step a (elect a c))
    (hc : a.cand c) (hfresh : ¬ Elected a (a.term c)) {u : ℕ} {l : List E} (hu : Elected a u)
    (hl : l <+: a.llog u) (hsurv : Survives a u (a.term c + 1) l (a.clog (a.term c) c)) :
    Survives (elect a c) u (a.term c) l ((elect a c).llog (a.term c)) := by
  rw [llog_elect_self, hlog.stands hc]
  refine Survives.step hlog hv hs hu hl ?_
  rcases hsurv with hin | ⟨w, h1, h2, h3, h4⟩
  · exact Or.inl hin
  · have hne : w ≠ a.term c := by
      rintro rfl
      exact hfresh h3
    exact Or.inr ⟨w, h1, by omega, h3, h4⟩

end Elect

lemma AckInv.elect (h : AckInv a) (hlog : LogInv a) (hv : VoteInv a) {c : S} {Q : Finset S}
    (hc : a.cand c) (hQ : Majority Q) (hvote : ∀ v ∈ Q, a.vote v (a.term c) c) :
    AckInv (elect a c) := by
  have hs : Step a (Repl.elect a c) := .elect c Q hc hQ hvote
  have hfresh := hv.fresh hc hQ hvote
  have hstand := hv.stands hc
  constructor
  case pos =>
    intro s t hp
    by_cases ht : t = a.term c
    · subst ht
      by_cases hsc : s = c
      · subst hsc; exact ⟨⟨s, lead_elect_self⟩, le_rfl⟩
      · rw [h.elect_ack_other hfresh hsc] at hp; omega
    · rw [ack_elect_of_ne fun hst => ht hst.2] at hp
      exact ⟨(elected_elect_iff ht).mpr (h.pos hp).1, (h.pos hp).2⟩
  case le =>
    intro s t he
    by_cases ht : t = a.term c
    · subst ht
      by_cases hsc : s = c
      · subst hsc; simp [Repl.elect]
      · rw [h.elect_ack_other hfresh hsc]; exact Nat.zero_le _
    · rw [ack_elect_of_ne fun hst => ht hst.2, llog_elect_of_ne ht]
      exact h.le ((elected_elect_iff ht).mp he)
  case kept =>
    intro s t l hl
    by_cases hst : s = c ∧ t = a.term c
    · obtain ⟨rfl, rfl⟩ := hst
      exact Or.inl (by have := hl.2.1; rwa [llog_elect_self] at this)
    · exact h.elect_survives hlog hv hs hfresh (fun hsc ht => hst ⟨hsc, ht⟩) hl h.kept
  case cast =>
    intro v t d u l hd hut hl hlu
    refine h.elect_survives hlog hv hs hfresh ?_ hl fun hl' => h.cast hd hut hl' hlu
    rintro rfl rfl
    have := hv.le_term hd
    omega
  case stood =>
    intro t d u l hd hut hl
    refine h.elect_survives hlog hv hs hfresh ?_ hl fun hl' => h.stood hd hut hl'
    rintro rfl rfl
    have := hv.le_term hd
    omega
  case won =>
    intro t L hL
    by_cases ht : t = a.term c
    · subst ht
      refine ⟨Q, hQ, fun v hvQ => ⟨hv.le_term (hvote v hvQ), fun u l hut hl hlu => ?_⟩⟩
      have hl' := hl.of_elect (by omega)
      exact survives_elect hlog hv hs hc hfresh hl'.1 hl'.2.1 (h.cast (hvote v hvQ) hut hl' hlu)
    · obtain ⟨P, hP, hw⟩ := h.won (lead_elect_of_ne ht ▸ hL)
      refine ⟨P, hP, fun v hvP => ⟨(hw v hvP).1, fun u l hut hl hlu => ?_⟩⟩
      rw [llog_elect_of_ne ht]
      refine h.elect_survives hlog hv hs hfresh ?_ hl fun hl' => (hw v hvP).2 u l hut hl' hlu
      rintro rfl rfl
      have := (hw v hvP).1
      omega
  case won_all =>
    intro t L hL u l hut hl
    by_cases ht : t = a.term c
    · subst ht
      obtain rfl : c = L := by simpa using hL
      have hl' := hl.of_elect (by omega)
      exact survives_elect hlog hv hs hc hfresh hl'.1 hl'.2.1 (h.stood hstand.2.1 hut hl')
    · have hL' : a.lead t = some L := lead_elect_of_ne ht ▸ hL
      rw [llog_elect_of_ne ht]
      refine h.elect_survives hlog hv hs hfresh ?_ hl fun hl' => h.won_all hL' u l hut hl'
      rintro rfl rfl
      have := (hv.led hL').1
      omega

section Propose

variable {L s : S} {e : E} {t : ℕ} {l : List E}

lemma Acked.of_propose (h : AckInv a) (hst : ¬ (s = L ∧ t = a.term L))
    (hl : Acked (propose a L e) s t l) : Acked a s t l := by
  obtain ⟨h1, h2, h3⟩ := hl
  rw [ack_propose_of_ne hst] at h3
  exact ⟨h1, List.prefix_of_prefix_length_le h2 (llog_le_propose t) (h3.trans (h.le h1)), h3⟩

lemma AckInv.propose_survives (h : AckInv a) (hlog : LogInv a) (hv : VoteInv a)
    (hs : Step a (propose a L e)) {n : ℕ} {x y : List E} (hst : ¬ (s = L ∧ t = a.term L))
    (hl : Acked (propose a L e) s t l) (hxy : x <+: y)
    (hsurv : Acked a s t l → Survives a t n l x) : Survives (propose a L e) t n l y := by
  have hl' := hl.of_propose h hst
  exact ((hsurv hl').step hlog hv hs hl'.1 hl'.2.1).mono le_rfl hxy

end Propose

lemma AckInv.propose (h : AckInv a) (hlog : LogInv a) (hv : VoteInv a) {L : S} {e : E}
    (hl : a.lead (a.term L) = some L) (he : term e = a.term L) : AckInv (propose a L e) := by
  have hs : Step a (Repl.propose a L e) := .propose L e hl he
  have hown := hlog.own hl rfl
  constructor
  case pos =>
    intro s t hp
    by_cases hst : s = L ∧ t = a.term L
    · obtain ⟨rfl, rfl⟩ := hst; exact ⟨⟨s, hl⟩, le_rfl⟩
    · rw [ack_propose_of_ne hst] at hp; exact h.pos hp
  case le =>
    intro s t ht
    by_cases hst : s = L ∧ t = a.term L
    · obtain ⟨rfl, rfl⟩ := hst; rw [ack_propose_self, llog_propose_self, hown]; simp
    · rw [ack_propose_of_ne hst]; exact (h.le ht).trans (llog_le_propose t).length_le
  case kept =>
    intro s t l hl
    by_cases hst : s = L ∧ t = a.term L
    · obtain ⟨rfl, rfl⟩ := hst
      left
      have := hl.2.1
      rwa [llog_propose_self, ← hown, ← log_propose_self] at this
    · exact h.propose_survives hlog hv hs hst hl (log_le_propose s) h.kept
  case cast =>
    intro v t d u l hd hut hl hlu
    refine h.propose_survives hlog hv hs ?_ hl List.prefix_rfl fun hl' => h.cast hd hut hl' hlu
    rintro ⟨rfl, rfl⟩
    have := hv.le_term hd
    omega
  case stood =>
    intro t d u l hd hut hl
    refine h.propose_survives hlog hv hs ?_ hl List.prefix_rfl fun hl' => h.stood hd hut hl'
    rintro ⟨rfl, rfl⟩
    have := hv.le_term hd
    omega
  case won =>
    intro t M hM
    obtain ⟨Q, hQ, hw⟩ := h.won hM
    refine ⟨Q, hQ, fun v hvQ => ⟨(hw v hvQ).1, fun u l hut hl hlu => ?_⟩⟩
    refine h.propose_survives hlog hv hs ?_ hl (llog_le_propose t) fun hl' =>
      (hw v hvQ).2 u l hut hl' hlu
    rintro ⟨rfl, rfl⟩
    have := (hw v hvQ).1
    omega
  case won_all =>
    intro t M hM u l hut hl
    refine h.propose_survives hlog hv hs ?_ hl (llog_le_propose t) fun hl' =>
      h.won_all hM u l hut hl'
    rintro ⟨rfl, rfl⟩
    have := (hv.led hM).1
    omega

/-- A new log keeps the acknowledgements if it keeps, or its term's leader lacks, every prefix
that is acknowledged in this or an earlier term. -/
lemma AckInv.setLog (h : AckInv a) {s : S} {x : List E}
    (hx : ∀ t l, t ≤ a.term s → l <+: a.llog t → Elected a t → l <+: a.log s →
      Survives a t (a.term s + 1) l x) : AckInv (setLog a s x) := by
  refine ⟨h.pos, h.le, ?_, h.cast, h.stood, h.won, h.won_all⟩
  intro v t l hl
  by_cases hvs : v = s
  · subst hvs
    rw [log_setLog]
    rcases eq_or_ne l [] with rfl | hne
    · exact Or.inl List.nil_prefix
    rcases h.kept hl with hin | hd
    · exact hx t l (h.le_term hl hne) hl.2.1 hl.1 hin
    · exact Or.inr hd
  · rw [show (Repl.setLog a s x).log v = a.log v by simp [Repl.setLog, hvs]]
    exact h.kept hl

lemma AckInv.cut (h : AckInv a) {s : S} {p m : ℕ} (he : Elected a (a.term s))
    (hpm : p ≤ m + 1) (hne : termAt (a.log s) p ≠ termAt (a.llog (a.term s)) p) :
    AckInv (Repl.setLog a s ((a.log s).take m)) := by
  refine h.setLog fun t l ht hl het hin => ?_
  rcases Nat.lt_or_ge m l.length with hm | hm
  · -- the prefix reaches the conflict, so the leader of the term lacks it
    have hno : ¬ l <+: a.llog (a.term s) := by
      intro hin'
      apply hne
      rw [← termAt_eq_of_le hin (by omega), ← termAt_eq_of_le hin' (by omega)]
    rcases Nat.eq_or_lt_of_le ht with rfl | hlt
    · exact absurd hl hno
    · exact Or.inr ⟨a.term s, hlt, by omega, he, hno⟩
  · exact Or.inl (List.prefix_take_iff.mpr ⟨hin, hm⟩)

lemma AckInv.adopt (h : AckInv a) {s : S} {m : ℕ} (he : Elected a (a.term s))
    (hkeep : ∀ l, l <+: a.llog (a.term s) → l <+: a.log s → l.length ≤ m) :
    AckInv (Repl.setLog a s ((a.llog (a.term s)).take m)) := by
  refine h.setLog fun t l ht hl het hin => ?_
  by_cases hin' : l <+: a.llog (a.term s)
  · left
    exact List.prefix_take_iff.mpr ⟨hin', hkeep l hin' hin⟩
  · rcases Nat.eq_or_lt_of_le ht with rfl | hlt
    · exact absurd hl hin'
    · exact Or.inr ⟨a.term s, hlt, by omega, he, hin'⟩

lemma AckInv.acknowledge (h : AckInv a) (hv : VoteInv a) {s : S} {l : List E}
    (he : Elected a (a.term s)) (hl : l <+: a.llog (a.term s)) (hs : l <+: a.log s) :
    AckInv (acknowledge a s l.length) := by
  have hack : ∀ {v t}, ¬ (v = s ∧ t = a.term s) →
      (Repl.acknowledge a s l.length).ack v t = a.ack v t := by
    intro v t hvt; simp [Repl.acknowledge, hvt]
  have hack' : (Repl.acknowledge a s l.length).ack s (a.term s)
      = max (a.ack s (a.term s)) l.length := by simp [Repl.acknowledge]
  have hacked : ∀ {v t x}, ¬ (v = s ∧ t = a.term s) →
      Acked (Repl.acknowledge a s l.length) v t x → Acked a v t x := by
    rintro v t x hvt ⟨h1, h2, h3⟩; exact ⟨h1, h2, hack hvt ▸ h3⟩
  constructor
  case pos =>
    intro v t hp
    by_cases hvt : v = s ∧ t = a.term s
    · obtain ⟨rfl, rfl⟩ := hvt; exact ⟨he, le_rfl⟩
    · rw [hack hvt] at hp; exact h.pos hp
  case le =>
    intro v t het
    by_cases hvt : v = s ∧ t = a.term s
    · obtain ⟨rfl, rfl⟩ := hvt
      rw [hack']; exact max_le (h.le het) hl.length_le
    · rw [hack hvt]; exact h.le het
  case kept =>
    intro v t x hx
    by_cases hvt : v = s ∧ t = a.term s
    · obtain ⟨rfl, rfl⟩ := hvt
      obtain ⟨h1, h2, h3⟩ := hx
      rw [hack'] at h3
      rcases le_max_iff.mp h3 with h3 | h3
      · exact h.kept ⟨h1, h2, h3⟩
      · exact Or.inl ((List.prefix_of_prefix_length_le h2 hl h3).trans hs)
    · exact h.kept (hacked hvt hx)
  case cast =>
    intro v t c u x hvote hut hx hxu
    refine h.cast hvote hut (hacked ?_ hx) hxu
    rintro ⟨rfl, rfl⟩
    have := hv.le_term hvote
    omega
  case stood =>
    intro t c u x hvote hut hx
    refine h.stood hvote hut (hacked ?_ hx)
    rintro ⟨rfl, rfl⟩
    have := hv.le_term hvote
    omega
  case won =>
    intro t L hL
    obtain ⟨Q, hQ, hw⟩ := h.won hL
    refine ⟨Q, hQ, fun v hvQ => ⟨(hw v hvQ).1, fun u x hut hx hxu => ?_⟩⟩
    refine (hw v hvQ).2 u x hut (hacked ?_ hx) hxu
    rintro ⟨rfl, rfl⟩
    have := (hw v hvQ).1
    omega
  case won_all =>
    intro t L hL u x hut hx
    refine h.won_all hL u x hut (hacked ?_ hx)
    rintro ⟨rfl, rfl⟩
    have := (hv.led hL).1
    omega

/-- **The acknowledgements stay accounted for.** -/
theorem AckInv.step (h : AckInv a) (hlog : LogInv a) (hv : VoteInv a) (hs : Step a b) :
    AckInv b := by
  cases hs with
  | bump s t ht => exact h.bump ht
  | campaign s => exact h.campaign hv s
  | grant v c hheld hvc hc hu => exact h.grant hlog hc hu
  | elect c Q hc hQ hvote => exact h.elect hlog hv hc hQ hvote
  | propose L e hl he => exact h.propose hlog hv hl he
  | cut s p m he hs hc hpm hne => exact h.cut he hpm hne
  | adopt s m he hs hc hkeep => exact h.adopt he hkeep
  | acknowledge s l he hl hs => exact h.acknowledge hv he hl hs
  | yield | retire | compact =>
    exact ⟨h.pos, h.le, h.kept, h.cast, h.stood, h.won, h.won_all⟩

/-! ### The invariant of a run -/

structure Inv (a : State S E) : Prop where
  vote : VoteInv a
  log : LogInv a
  ack : AckInv a

omit [DecidableEq S] in
lemma inv_init : Inv (State.init : State S E) := ⟨voteInv_init, logInv_init, ackInv_init⟩

lemma Inv.step (h : Inv a) (hs : Step a b) : Inv b :=
  ⟨h.vote.step hs, h.log.step h.vote hs, h.ack.step h.log h.vote hs⟩

theorem Inv.reach (h : Inv a) (hr : Reach a b) : Inv b := by
  induction hr with
  | refl => exact h
  | tail _ hs ih => exact ih.step hs

/-! ### Leader completeness -/

/-- Enough servers acknowledged the prefix in term `t`. -/
def Committed (a : State S E) (t : ℕ) (l : List E) : Prop :=
  Elected a t ∧ l <+: a.llog t ∧
    ((lastTerm l = t ∧ ∃ Q, Majority Q ∧ ∀ q ∈ Q, l.length ≤ a.ack q t) ∨
      ∀ s, l.length ≤ a.ack s t)

/-- **Leader completeness.** -/
theorem Inv.complete (h : Inv a) {t : ℕ} {l : List E} (hc : Committed a t l) :
    ∀ u, t < u → Elected a u → l <+: a.llog u := by
  obtain ⟨het, hlt, henough⟩ := hc
  intro u
  induction u using Nat.strong_induction_on with
  | _ u ih =>
    rintro htu ⟨L, hL⟩
    have hsurv : Survives a t u l (a.llog u) := by
      rcases henough with ⟨hterm, Q, hQ, hq⟩ | hall
      · -- the two majorities share a server
        obtain ⟨P, hP, hw⟩ := h.ack.won hL
        obtain ⟨v, hvP, hvQ⟩ := hP.inter hQ
        exact (hw v hvP).2 t l htu ⟨het, hlt, hq v hvQ⟩ hterm
      · exact h.ack.won_all hL t l htu ⟨het, hlt, hall L⟩
    rcases hsurv with hin | ⟨w, htw, hwu, hew, hno⟩
    · exact hin
    · exact absurd (ih w hwu htw hew) hno

/-- The prefix is known to be committed by term `t`. -/
def Decided (a : State S E) (t : ℕ) (l : List E) : Prop :=
  l = [] ∨ ∃ u x, u ≤ t ∧ Committed a u x ∧ l <+: x

omit [DecidableEq S] in
lemma decided_nil (a : State S E) (t : ℕ) : Decided a t ([] : List E) := Or.inl rfl

omit [DecidableEq S] in
lemma Committed.decided {t : ℕ} {l : List E} (h : Committed a t l) : Decided a t l :=
  Or.inr ⟨t, l, le_rfl, h, List.prefix_rfl⟩

omit [DecidableEq S] in
lemma Decided.mono {t u : ℕ} {l x : List E} (h : Decided a t l) (htu : t ≤ u) (hx : x <+: l) :
    Decided a u x := by
  rcases h with rfl | ⟨w, y, hw, hy, hly⟩
  · exact Or.inl (List.prefix_nil.mp hx)
  · exact Or.inr ⟨w, y, by omega, hy, hx.trans hly⟩

/-- The leader of the term has every prefix decided by it. -/
theorem Inv.decided_prefix (h : Inv a) {t : ℕ} {l : List E} (hd : Decided a t l)
    (he : Elected a t) : l <+: a.llog t := by
  rcases hd with rfl | ⟨u, x, hut, hc, hlx⟩
  · exact List.nil_prefix
  · rcases Nat.eq_or_lt_of_le hut with rfl | hlt
    · exact hlx.trans hc.2.1
    · exact hlx.trans (h.complete hc t hlt he)

/-- **Decided prefixes agree.** -/
theorem Inv.decided_total (h : Inv a) {t u : ℕ} {l x : List E} (hl : Decided a t l)
    (hx : Decided a u x) : l <+: x ∨ x <+: l := by
  rcases hl with rfl | ⟨t', l', -, hcl, hll⟩
  · exact Or.inl List.nil_prefix
  rcases hx with rfl | ⟨u', x', -, hcx, hxx⟩
  · exact Or.inr List.nil_prefix
  -- the leader of the later of the two terms has both
  have hw : Decided a (max t' u') l' := hcl.decided.mono (le_max_left _ _) List.prefix_rfl
  have hw' : Decided a (max t' u') x' := hcx.decided.mono (le_max_right _ _) List.prefix_rfl
  have he : Elected a (max t' u') := by
    rcases max_choice t' u' with hm | hm <;> rw [hm]
    · exact hcl.1
    · exact hcx.1
  exact List.prefix_or_prefix_of_prefix (hll.trans (h.decided_prefix hw he))
    (hxx.trans (h.decided_prefix hw' he))

lemma Inv.decided_eq (h : Inv a) {t u : ℕ} {l x : List E} (hl : Decided a t l)
    (hx : Decided a u x) (hlen : l.length = x.length) : l = x := by
  rcases h.decided_total hl hx with hp | hp
  · exact hp.eq_of_length hlen
  · exact (hp.eq_of_length hlen.symm).symm

/-- A majority has every decided prefix. -/
theorem Inv.decided_majority [Nonempty S] (h : Inv a) {t : ℕ} {l : List E} (hd : Decided a t l) :
    ∃ Q, Majority Q ∧ ∀ q ∈ Q, l <+: a.log q := by
  rcases hd with rfl | ⟨u, x, -, hc, hlx⟩
  · exact ⟨Finset.univ, majority_univ, fun _ _ => List.nil_prefix⟩
  -- who acknowledged it still has it, since no later leader lacks it
  have hkept : ∀ q, x.length ≤ a.ack q u → l <+: a.log q := by
    intro q hq
    rcases h.ack.kept ⟨hc.1, hc.2.1, hq⟩ with hin | ⟨w, huw, -, hew, hno⟩
    · exact hlx.trans hin
    · exact absurd (h.complete hc w huw hew) hno
  rcases hc.2.2 with ⟨-, Q, hQ, hq⟩ | hall
  · exact ⟨Q, hQ, fun q hmem => hkept q (hq q hmem)⟩
  · exact ⟨Finset.univ, majority_univ, fun q _ => hkept q (hall q)⟩

/-- **Counting.** A prefix is decided once a majority has it and its last entry is of the term,
or once all have it; knowing it decided counts as having it. -/
theorem Inv.counted (h : Inv a) {t k : ℕ} (he : Elected a t) (hk : k ≤ (a.llog t).length)
    {Q : Finset S} (hQ : ∀ q ∈ Q, k ≤ a.ack q t ∨ ∃ l, Decided a t l ∧ k ≤ l.length)
    (hor : (Majority Q ∧ termAt (a.llog t) k = t) ∨ Q = Finset.univ) :
    Decided a t ((a.llog t).take k) := by
  have hlen : ((a.llog t).take k).length = k := by rw [List.length_take]; omega
  by_cases hd : ∃ l, Decided a t l ∧ k ≤ l.length
  · obtain ⟨l, hl, hkl⟩ := hd
    refine hl.mono le_rfl (List.prefix_of_prefix_length_le (List.take_prefix _ _)
      (h.decided_prefix hl he) (by omega))
  · have hack : ∀ q ∈ Q, k ≤ a.ack q t := fun q hq => (hQ q hq).resolve_right hd
    refine Committed.decided ⟨he, List.take_prefix _ _, ?_⟩
    rw [hlen]
    rcases hor with ⟨hmaj, ht⟩ | rfl
    · exact Or.inl ⟨ht, Q, hmaj, hack⟩
    · exact Or.inr fun s => hack s (Finset.mem_univ s)

end Mit6824.Repl
