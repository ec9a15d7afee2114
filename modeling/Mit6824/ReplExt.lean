import Mit6824.ReplCommit

/-!
What a run keeps: everything it has recorded, and for each server what it shares with the
leader of its term for as long as it stays in the term.

`Aligned` and `Covers` are the two facts about a server and a leader that outlive single
steps. An aligned server has, beyond the length the leader's log had at the election, only
entries of the leader. A server that covers `k` has the leader's first `k` entries, or has
compacted that far.
-/

namespace Mit6824.Repl

open Mit6824.Quorum Mit6824.TermLog Function

variable {S E : Type*}

/-- In term `t`, the server's entries beyond the leader's log at the election are the
leader's. -/
def Aligned (a : State S E) (s : S) (t : ℕ) : Prop :=
  t ≤ a.term s ∧
    (a.term s = t → (a.log s).drop (a.base t) <+: (a.llog t).drop (a.base t))

/-- In term `t`, the server has the leader's log up to `k`, or has compacted that far. -/
def Covers (a : State S E) (s : S) (t k : ℕ) : Prop :=
  t ≤ a.term s ∧ (a.term s = t → k ≤ a.snap s ∨ (a.llog t).take k <+: a.log s)

/-- What was so stays so. -/
structure Ext (a b : State S E) : Prop where
  term : ∀ s, a.term s ≤ b.term s
  snap : ∀ s, a.snap s ≤ b.snap s
  lead : ∀ {t L}, a.lead t = some L → b.lead t = some L
  llog : ∀ {t}, Elected a t → a.llog t <+: b.llog t
  base : ∀ {t}, Elected a t → b.base t = a.base t
  ack : ∀ s t, a.ack s t ≤ b.ack s t
  vote : ∀ {v t c}, a.vote v t c → b.vote v t c
  clog : ∀ {t c}, a.vote c t c → b.clog t c = a.clog t c
  keep : ∀ {s l}, b.term s = a.term s → Elected a (a.term s) → l <+: a.llog (a.term s) →
    l <+: a.log s → l <+: b.log s
  aligned : ∀ {s t}, Elected a t → Aligned a s t → Aligned b s t

variable {a b c : State S E}

lemma Ext.refl (a : State S E) : Ext a a :=
  ⟨fun _ => le_rfl, fun _ => le_rfl, fun h => h, fun _ => List.prefix_rfl, fun _ => rfl,
    fun _ _ => le_rfl, fun h => h, fun _ => rfl, fun _ _ _ h => h, fun _ h => h⟩

lemma Ext.elected (h : Ext a b) {t : ℕ} (he : Elected a t) : Elected b t := by
  obtain ⟨L, hL⟩ := he
  exact ⟨L, h.lead hL⟩

lemma Ext.trans (h : Ext a b) (h' : Ext b c) : Ext a c where
  term := fun s => (h.term s).trans (h'.term s)
  snap := fun s => (h.snap s).trans (h'.snap s)
  lead := fun hl => h'.lead (h.lead hl)
  llog := fun he => (h.llog he).trans (h'.llog (h.elected he))
  base := fun he => (h'.base (h.elected he)).trans (h.base he)
  ack := fun s t => (h.ack s t).trans (h'.ack s t)
  vote := fun hv => h'.vote (h.vote hv)
  clog := fun hv => (h'.clog (h.vote hv)).trans (h.clog hv)
  keep := by
    intro s l hterm he hl hs
    have hb : b.term s = a.term s := le_antisymm (hterm ▸ h'.term s) (h.term s)
    refine h'.keep (hterm.trans hb.symm) ?_ ?_ (h.keep hb he hl hs)
    · rw [hb]; exact h.elected he
    · rw [hb]; exact hl.trans (h.llog he)
  aligned := fun he hal => h'.aligned (h.elected he) (h.aligned he hal)

lemma Ext.covers (h : Ext a b) {s : S} {t k : ℕ} (he : Elected a t)
    (hk : k ≤ (a.llog t).length) (hc : Covers a s t k) : Covers b s t k := by
  refine ⟨hc.1.trans (h.term s), fun hterm => ?_⟩
  have hat : a.term s = t := le_antisymm (hterm ▸ h.term s) hc.1
  rcases hc.2 hat with hs | hl
  · exact Or.inl (hs.trans (h.snap s))
  · right
    obtain ⟨r, hr⟩ := h.llog he
    rw [← hr, List.take_append_of_le_length hk]
    subst hat
    exact h.keep hterm he (List.take_prefix _ _) hl

section Decided

variable [Fintype S] [Termed E]

lemma Committed.ext (h : Ext a b) {t : ℕ} {l : List E} (hc : Committed a t l) :
    Committed b t l := by
  obtain ⟨he, hl, henough⟩ := hc
  refine ⟨h.elected he, hl.trans (h.llog he), ?_⟩
  rcases henough with ⟨hterm, Q, hQ, hq⟩ | hall
  · exact Or.inl ⟨hterm, Q, hQ, fun q hm => (hq q hm).trans (h.ack q t)⟩
  · exact Or.inr fun s => (hall s).trans (h.ack s t)

lemma Decided.ext (h : Ext a b) {t : ℕ} {l : List E} (hd : Decided a t l) : Decided b t l := by
  rcases hd with rfl | ⟨u, x, hu, hc, hlx⟩
  · exact Or.inl rfl
  · exact Or.inr ⟨u, x, hu, hc.ext h, hlx⟩

end Decided

/-! ### Steps of one server -/

/-- Only server `j` acted. -/
structure Frame (j : S) (a b : State S E) : Prop where
  term : ∀ {i}, i ≠ j → b.term i = a.term i
  held : ∀ {i}, i ≠ j → b.held i = a.held i
  cand : ∀ {i}, i ≠ j → (b.cand i ↔ a.cand i)
  log : ∀ {i}, i ≠ j → b.log i = a.log i
  snap : ∀ {i}, i ≠ j → b.snap i = a.snap i
  lead : ∀ {i t}, i ≠ j → b.lead t = some i → a.lead t = some i
  llog : ∀ {i t}, i ≠ j → b.lead t = some i → b.llog t = a.llog t
  base : ∀ {i t}, i ≠ j → b.lead t = some i → b.base t = a.base t

lemma Frame.refl (j : S) (a : State S E) : Frame j a a :=
  ⟨fun _ => rfl, fun _ => rfl, fun _ => Iff.rfl, fun _ => rfl, fun _ => rfl, fun _ h => h,
    fun _ _ => rfl, fun _ _ => rfl⟩

lemma cut_keep [Termed E] {s : S} {p m : ℕ} (hpm : p ≤ m + 1)
    (hne : termAt (a.log s) p ≠ termAt (a.llog (a.term s)) p) {l : List E}
    (hl : l <+: a.llog (a.term s)) (hs : l <+: a.log s) : l <+: (a.log s).take m := by
  refine List.prefix_take_iff.mpr ⟨hs, ?_⟩
  by_contra hlen
  apply hne
  rw [← termAt_eq_of_le hs (by omega), ← termAt_eq_of_le hl (by omega)]

variable [DecidableEq S]

lemma frame_setLog (s : S) (x : List E) : Frame s a (setLog a s x) :=
  ⟨fun _ => rfl, fun _ => rfl, fun _ => Iff.rfl, fun hi => by simp [setLog, hi], fun _ => rfl,
    fun _ h => h, fun _ _ => rfl, fun _ _ => rfl⟩

lemma ext_setLog {s : S} {x : List E}
    (hkeep : Elected a (a.term s) → ∀ l, l <+: a.llog (a.term s) → l <+: a.log s → l <+: x)
    (hal : Elected a (a.term s) → (a.log s).drop (a.base (a.term s)) <+:
        (a.llog (a.term s)).drop (a.base (a.term s)) →
      x.drop (a.base (a.term s)) <+: (a.llog (a.term s)).drop (a.base (a.term s))) :
    Ext a (setLog a s x) where
  term := fun _ => le_rfl
  snap := fun _ => le_rfl
  lead := fun h => h
  llog := fun _ => List.prefix_rfl
  base := fun _ => rfl
  ack := fun _ _ => le_rfl
  vote := fun h => h
  clog := fun _ => rfl
  keep := by
    intro v l hterm he hl hv
    by_cases hvs : v = s
    · subst hvs; simpa [setLog] using hkeep he l hl hv
    · simpa [setLog, hvs] using hv
  aligned := by
    rintro v t he ⟨hle, hal'⟩
    refine ⟨hle, fun hterm => ?_⟩
    have hterm' : a.term v = t := hterm
    by_cases hvs : v = s
    · subst hvs hterm'
      simpa [setLog] using hal he (hal' rfl)
    · simpa [setLog, hvs] using hal' hterm

lemma ext_raise {s : S} {t : ℕ} (ht : a.term s < t) {b : State S E}
    (hterm : b.term = update a.term s t) (hsnap : b.snap = a.snap) (hlead : b.lead = a.lead)
    (hllog : b.llog = a.llog) (hbase : b.base = a.base) (hack : b.ack = a.ack)
    (hvote : ∀ {v u d}, a.vote v u d → b.vote v u d)
    (hclog : ∀ {u d}, a.vote d u d → b.clog u d = a.clog u d) (hlog : b.log = a.log) :
    Ext a b := by
  have hmono : ∀ v, a.term v ≤ b.term v := by
    intro v
    rw [hterm]
    by_cases hvs : v = s
    · subst hvs; simp; omega
    · simp [hvs]
  refine ⟨hmono, fun v => by rw [hsnap], fun h => by rw [hlead]; exact h,
    fun _ => by rw [hllog], fun _ => by rw [hbase], fun v u => by rw [hack], hvote, hclog,
    fun _ _ _ h => by rw [hlog]; exact h, ?_⟩
  rintro v u he ⟨hle, hal⟩
  refine ⟨hle.trans (hmono v), fun hbu => ?_⟩
  rw [hlog, hbase, hllog]
  exact hal (le_antisymm (hbu ▸ hmono v) hle)

variable [Fintype S] [Termed E]

lemma Inv.ext_elect (h : Inv a) {c : S} {Q : Finset S} (hc : a.cand c) (hQ : Majority Q)
    (hvote : ∀ v ∈ Q, a.vote v (a.term c) c) : Ext a (elect a c) := by
  have hfresh := h.vote.fresh hc hQ hvote
  have hne : ∀ {t}, Elected a t → t ≠ a.term c := by rintro t he rfl; exact hfresh he
  refine ⟨fun _ => le_rfl, fun _ => le_rfl, ?_, ?_, ?_, ?_, fun h => h, fun _ => rfl,
    fun _ _ _ h => h, ?_⟩
  · intro t L hL; rwa [lead_elect_of_ne (hne ⟨L, hL⟩)]
  · intro t he; rw [llog_elect_of_ne (hne he)]
  · intro t he; exact base_elect_of_ne (hne he)
  · intro s t
    by_cases hst : s = c ∧ t = a.term c
    · obtain ⟨rfl, rfl⟩ := hst
      have : a.ack s (a.term s) = 0 := by
        by_contra h0; exact hfresh (h.ack.pos (Nat.pos_of_ne_zero h0)).1
      omega
    · rw [ack_elect_of_ne hst]
  · rintro s t he ⟨hle, hal⟩
    refine ⟨hle, fun hterm => ?_⟩
    rw [llog_elect_of_ne (hne he), base_elect_of_ne (hne he)]
    exact hal hterm

lemma Inv.ext_propose (h : Inv a) {L : S} (e : E) (hl : a.lead (a.term L) = some L) :
    Ext a (propose a L e) := by
  have hown := h.log.own hl rfl
  have hel : Elected a (a.term L) := ⟨L, hl⟩
  refine ⟨fun _ => le_rfl, fun _ => le_rfl, fun h => h, fun _ => llog_le_propose _,
    fun _ => rfl, ?_, fun h => h, fun _ => rfl, ?_, ?_⟩
  · intro s t
    by_cases hst : s = L ∧ t = a.term L
    · obtain ⟨rfl, rfl⟩ := hst
      have := h.ack.le (s := s) hel
      rw [← hown] at this
      rw [ack_propose_self]
      omega
    · rw [ack_propose_of_ne hst]
  · intro s l _ _ _ hs
    exact hs.trans (log_le_propose s)
  · rintro s t het ⟨hle, hal⟩
    refine ⟨hle, fun hterm => ?_⟩
    obtain rfl : a.term s = t := hterm
    by_cases hsL : s = L
    · subst hsL
      rw [log_propose_self, llog_propose_self, hown]
    · rw [log_propose_of_ne hsL]
      exact (hal rfl).trans ((llog_le_propose _).drop _)

lemma Inv.ext_step (h : Inv a) (hs : Step a b) : Ext a b := by
  cases hs with
  | bump s t ht =>
    exact ext_raise ht rfl rfl rfl rfl rfl rfl (fun hv => hv) (fun _ => rfl) rfl
  | campaign s =>
    refine ext_raise (Nat.lt_succ_self (a.term s)) rfl rfl rfl rfl rfl rfl Or.inl ?_ rfl
    intro u d hd
    have hne : ¬ (u = a.term s + 1 ∧ d = s) := by
      rintro ⟨rfl, rfl⟩
      have := h.vote.le_term hd
      omega
    simp [campaign, hne]
  | yield s hc he =>
    exact ⟨fun _ => le_rfl, fun _ => le_rfl, fun h => h, fun _ => List.prefix_rfl, fun _ => rfl,
      fun _ _ => le_rfl, fun h => h, fun _ => rfl, fun _ _ _ h => h, fun _ h => h⟩
  | retire s =>
    exact ⟨fun _ => le_rfl, fun _ => le_rfl, fun h => h, fun _ => List.prefix_rfl, fun _ => rfl,
      fun _ _ => le_rfl, fun h => h, fun _ => rfl, fun _ _ _ h => h, fun _ h => h⟩
  | grant v c hheld hvc hc hu =>
    exact ⟨fun _ => le_rfl, fun _ => le_rfl, fun h => h, fun _ => List.prefix_rfl, fun _ => rfl,
      fun _ _ => le_rfl, Or.inl, fun _ => rfl, fun _ _ _ h => h, fun _ h => h⟩
  | elect c Q hc hQ hvote => exact h.ext_elect hc hQ hvote
  | propose L e hl he => exact h.ext_propose e hl
  | cut s p m he hs hc hpm hne =>
    refine ext_setLog (fun _ l hl hs => cut_keep hpm hne hl hs) fun _ hal => ?_
    rw [List.drop_take]
    exact (List.take_prefix _ _).trans hal
  | adopt s m he hs hc hkeep =>
    refine ext_setLog (fun _ l hl hs => List.prefix_take_iff.mpr ⟨hl, hkeep l hl hs⟩) fun _ _ => ?_
    rw [List.drop_take]
    exact List.take_prefix _ _
  | acknowledge s l he hl hs =>
    refine ⟨fun _ => le_rfl, fun _ => le_rfl, fun h => h, fun _ => List.prefix_rfl, fun _ => rfl,
      ?_, fun h => h, fun _ => rfl, fun _ _ _ h => h, fun _ h => h⟩
    intro v t
    by_cases hvt : v = s ∧ t = a.term s
    · obtain ⟨rfl, rfl⟩ := hvt; simp [acknowledge]
    · simp [acknowledge, hvt]
  | compact s k hk =>
    refine ⟨fun _ => le_rfl, ?_, fun h => h, fun _ => List.prefix_rfl, fun _ => rfl,
      fun _ _ => le_rfl, fun h => h, fun _ => rfl, fun _ _ _ h => h, fun _ h => h⟩
    intro v
    by_cases hvs : v = s
    · subst hvs; simpa [compact] using hk
    · simp [compact, hvs]

theorem Inv.ext (h : Inv a) (hr : Reach a b) : Ext a b := by
  induction hr with
  | refl => exact Ext.refl a
  | tail hr hs ih => exact ih.trans ((h.reach hr).ext_step hs)

/-- A server does not drop a decided prefix that it has. -/
lemma Inv.kept_step (h : Inv a) (hs : Step a b) {s : S} {l : List E}
    (hd : Decided a (a.term s) l) (hl : l <+: a.log s) : l <+: b.log s := by
  cases hs with
  | propose L e _ _ =>
    exact hl.trans (log_le_propose s)
  | cut v p m he _ _ hpm hne =>
    by_cases hsv : s = v
    · subst hsv
      simpa [setLog] using cut_keep hpm hne (h.decided_prefix hd he) hl
    · simpa [setLog, hsv] using hl
  | adopt v m he _ _ hkeep =>
    by_cases hsv : s = v
    · subst hsv
      have hp := h.decided_prefix hd he
      simpa [setLog] using List.prefix_take_iff.mpr ⟨hp, hkeep l hp hl⟩
    · simpa [setLog, hsv] using hl
  | _ => exact hl

theorem Inv.kept (h : Inv a) (hr : Reach a b) {s : S} {l : List E}
    (hd : Decided a (a.term s) l) (hl : l <+: a.log s) : l <+: b.log s := by
  induction hr with
  | refl => exact hl
  | tail hr hs ih =>
    have hE := h.ext hr
    exact (h.reach hr).kept_step hs ((hd.ext hE).mono (hE.term s) List.prefix_rfl) ih

/-- A run in which only server `j` acts. -/
structure Act (j : S) (a b : State S E) : Prop where
  reach : Reach a b
  frame : Frame j a b

lemma Act.refl (j : S) (a : State S E) : Act j a a := ⟨.refl, Frame.refl j a⟩

lemma Act.bump {s : S} {t : ℕ} (h : a.term s < t) : Act s a (bump a s t) :=
  ⟨.single (.bump s t h), ⟨fun hi => by simp [Repl.bump, hi], fun hi => by simp [Repl.bump, hi],
    fun hi => by simp [Repl.bump, hi], fun _ => rfl, fun _ => rfl, fun _ h => h, fun _ _ => rfl,
    fun _ _ => rfl⟩⟩

lemma Act.yield {s : S} (hc : a.cand s) (he : Elected a (a.term s)) : Act s a (yield a s) :=
  ⟨.single (.yield s hc he), ⟨fun _ => rfl, fun hi => by simp [Repl.yield, hi],
    fun hi => by simp [Repl.yield, hi], fun _ => rfl, fun _ => rfl, fun _ h => h, fun _ _ => rfl,
    fun _ _ => rfl⟩⟩

lemma Act.retire (s : S) : Act s a (retire a s) :=
  ⟨.single (.retire s), ⟨fun _ => rfl, fun _ => rfl, fun hi => by simp [Repl.retire, hi],
    fun _ => rfl, fun _ => rfl, fun _ h => h, fun _ _ => rfl, fun _ _ => rfl⟩⟩

lemma Act.campaign (s : S) : Act s a (campaign a s) :=
  ⟨.single (.campaign s), ⟨fun hi => by simp [Repl.campaign, hi],
    fun hi => by simp [Repl.campaign, hi], fun hi => by simp [Repl.campaign, hi], fun _ => rfl,
    fun _ => rfl, fun _ h => h, fun _ _ => rfl, fun _ _ => rfl⟩⟩

lemma Act.grant {v d : S} (hheld : a.held v = none ∨ a.held v = some d) (hv : ¬ a.cand v)
    (hc : a.vote d (a.term v) d) (hu : UpToDate (a.clog (a.term v) d) (a.log v)) :
    Act v a (grant a v d) :=
  ⟨.single (.grant v d hheld hv hc hu), ⟨fun _ => rfl, fun hi => by simp [Repl.grant, hi],
    fun _ => Iff.rfl, fun _ => rfl, fun _ => rfl, fun _ h => h, fun _ _ => rfl, fun _ _ => rfl⟩⟩

lemma Act.elect {d : S} {Q : Finset S} (hc : a.cand d) (hQ : Majority Q)
    (hv : ∀ v ∈ Q, a.vote v (a.term d) d) : Act d a (elect a d) := by
  have hne : ∀ {i t}, i ≠ d → (Repl.elect a d).lead t = some i → t ≠ a.term d := by
    rintro i t hi hl rfl
    exact hi (by simpa using hl.symm)
  refine ⟨.single (.elect d Q hc hQ hv), ⟨fun _ => rfl, fun _ => rfl,
    fun hi => by simp [Repl.elect, hi], fun _ => rfl, fun _ => rfl, ?_, ?_, ?_⟩⟩
  · intro i t hi hl; rwa [lead_elect_of_ne (hne hi hl)] at hl
  · intro i t hi hl; exact llog_elect_of_ne (hne hi hl)
  · intro i t hi hl; exact base_elect_of_ne (hne hi hl)

lemma Act.propose {L : S} {e : E} (hl : a.lead (a.term L) = some L) (he : term e = a.term L) :
    Act L a (propose a L e) := by
  refine ⟨.single (.propose L e hl he), ⟨fun _ => rfl, fun _ => rfl, fun _ => Iff.rfl,
    log_propose_of_ne, fun _ => rfl, fun _ h => h, ?_, fun _ _ => rfl⟩⟩
  intro i t hi hi'
  have ht : t ≠ a.term L := by
    rintro rfl
    have : a.lead (a.term L) = some i := hi'
    rw [hl] at this
    exact hi (Option.some.inj this).symm
  exact llog_propose_of_ne ht

lemma Act.cut {s : S} {p m : ℕ} (he : Elected a (a.term s)) (hs : a.lead (a.term s) ≠ some s)
    (hc : ¬ a.cand s) (hpm : p ≤ m + 1)
    (hne : termAt (a.log s) p ≠ termAt (a.llog (a.term s)) p) :
    Act s a (setLog a s ((a.log s).take m)) :=
  ⟨.single (.cut s p m he hs hc hpm hne), frame_setLog s _⟩

lemma Act.adopt {s : S} {m : ℕ} (he : Elected a (a.term s)) (hs : a.lead (a.term s) ≠ some s)
    (hc : ¬ a.cand s) (hkeep : ∀ l, l <+: a.llog (a.term s) → l <+: a.log s → l.length ≤ m) :
    Act s a (setLog a s ((a.llog (a.term s)).take m)) :=
  ⟨.single (.adopt s m he hs hc hkeep), frame_setLog s _⟩

lemma Act.acknowledge {s : S} {l : List E} (he : Elected a (a.term s))
    (hl : l <+: a.llog (a.term s)) (hs : l <+: a.log s) :
    Act s a (acknowledge a s l.length) :=
  ⟨.single (.acknowledge s l he hl hs), ⟨fun _ => rfl, fun _ => rfl, fun _ => Iff.rfl,
    fun _ => rfl, fun _ => rfl, fun _ h => h, fun _ _ => rfl, fun _ _ => rfl⟩⟩

lemma Act.compact {s : S} {k : ℕ} (h : a.snap s ≤ k) : Act s a (compact a s k) :=
  ⟨.single (.compact s k h), ⟨fun _ => rfl, fun _ => rfl, fun _ => Iff.rfl, fun _ => rfl,
    fun hi => by simp [Repl.compact, hi], fun _ h => h, fun _ _ => rfl, fun _ _ => rfl⟩⟩

end Mit6824.Repl
