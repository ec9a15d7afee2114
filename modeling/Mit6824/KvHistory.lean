import Mit6824.KvSteps

/-!
What the clerks of a key/value service leave behind: where the operations in the log come from,
and what the history says of the log.

If the operations of each client enter the log first in the order of their numbers, a number
that is done is in the log. They do so if every clerk has one open operation at a time.
-/

namespace Mit6824.KvHistory

open Mit6824.GoData Mit6824.Labgob Mit6824.Sessions Mit6824.KvServer Mit6824.KvReplay
open Mit6824.KvSystem Mit6824.KvSteps Mit6824.Runs Function

variable {n : ℕ}

/-- The operation is on its way to the log, or in it. -/
def Submitted (x : System n) (op : Op) : Prop :=
  op ∈ x.log ∨ op ∈ x.started ∨ ∃ call ∈ x.calls, call.op = op

def answeredOp : Moment → Option Op
  | .invoked _ _ => none
  | .returned op _ _ => some op

/-- What returned before an invocation was answered from what was in the log by then. -/
def InTime : Moment → Moment → Prop
  | .returned _ _ p, .invoked _ l => p ≤ l
  | _, _ => True

/-- The part of a step that neither the log nor the clerks see. -/
structure Quiet (x x' : System n) : Prop where
  log : x'.log = x.log
  clerks : x'.clerks = x.clerks
  history : x'.history = x.history
  pending : ∀ op, Submitted x' op → Submitted x op ∨ ∃ c, op ∈ (x.clerks c).open_

lemma Quiet.of_eq {x x' : System n} (hlog : x'.log = x.log) (hclerks : x'.clerks = x.clerks)
    (hhist : x'.history = x.history) (hstarted : x'.started = x.started)
    (hcalls : x'.calls = x.calls) : Quiet x x' :=
  ⟨hlog, hclerks, hhist, fun op h => Or.inl (by rwa [Submitted, hlog, hstarted, hcalls] at h)⟩

lemma Quiet.of_set {x x' : System n} {k : ℕ} {call : Call n} {stage : Stage}
    (hcall : x.calls[k]? = some call) (hlog : x'.log = x.log) (hclerks : x'.clerks = x.clerks)
    (hhist : x'.history = x.history)
    (hstarted : x'.started = x.started ∨ x'.started = x.started ++ [call.op])
    (hcalls : x'.calls = x.calls.set k { call with stage := stage }) : Quiet x x' := by
  have hmem := List.mem_of_getElem? hcall
  refine ⟨hlog, hclerks, hhist, fun op h => Or.inl ?_⟩
  rcases h with h | h | ⟨c, hc, hop⟩
  · exact Or.inl (hlog ▸ h)
  · rcases hstarted with hst | hst
    · exact Or.inr (Or.inl (hst ▸ h))
    · rw [hst] at h
      rcases List.mem_append.mp h with h | h
      · exact Or.inr (Or.inl h)
      · exact Or.inr (Or.inr ⟨call, hmem, (List.mem_singleton.mp h).symm⟩)
  · rw [hcalls] at hc
    rcases List.mem_or_eq_of_mem_set hc with hc | rfl
    · exact Or.inr (Or.inr ⟨c, hc, hop⟩)
    · exact Or.inr (Or.inr ⟨call, hmem, hop⟩)

lemma Quiet.of_send {x : System n} {c i : ℕ} {s : Fin n} {op : Op}
    (hop : (x.clerks c).open_[i]? = some op) :
    Quiet x { x with calls := x.calls ++ [⟨op, s, .sent⟩] } := by
  refine ⟨rfl, rfl, rfl, fun op' h => ?_⟩
  rcases h with h | h | ⟨call, hc, rfl⟩
  · exact Or.inl (Or.inl h)
  · exact Or.inl (Or.inr (Or.inl h))
  · rcases List.mem_append.mp hc with hc | hc
    · exact Or.inl (Or.inr (Or.inr ⟨call, hc, rfl⟩))
    · obtain rfl := List.mem_singleton.mp hc
      exact Or.inr ⟨c, List.mem_of_getElem? hop⟩

def afterInvoke (x : System n) (c : ℕ) (op : Op) : System n :=
  { x with
    clerks := update x.clerks c ⟨(x.clerks c).seqNum + 1, (x.clerks c).open_ ++ [op]⟩
    history := x.history ++ [.invoked op x.log.length] }

def afterReturn (x : System n) (op : Op) (value : GoString) (place : ℕ) : System n :=
  { x with
    clerks := update x.clerks op.clientId { x.clerks op.clientId with
      open_ := (x.clerks op.clientId).open_.erase op }
    history := x.history ++ [.returned op value place] }

variable {x x' : System n}

lemma mem_open_afterInvoke {c c' : ℕ} {op op' : Op} :
    op' ∈ ((afterInvoke x c op).clerks c').open_ ↔
      op' ∈ (x.clerks c').open_ ∨ (c' = c ∧ op' = op) := by
  unfold afterInvoke
  dsimp only
  rw [update_apply]
  split
  · next hc => simp [hc]
  · next hc => simp [hc]

lemma seqNum_le_afterInvoke (c c' : ℕ) (op : Op) :
    (x.clerks c').seqNum ≤ ((afterInvoke x c op).clerks c').seqNum := by
  unfold afterInvoke
  dsimp only
  rw [update_apply]
  split
  · next hc => exact hc ▸ Nat.le_succ _
  · exact le_rfl

lemma mem_open_of_afterReturn {c : ℕ} {op op' : Op} {value : GoString} {place : ℕ}
    (h : op' ∈ ((afterReturn x op value place).clerks c).open_) : op' ∈ (x.clerks c).open_ := by
  unfold afterReturn at h
  dsimp only at h
  rw [update_apply] at h
  split at h
  · next hc => exact hc ▸ List.mem_of_mem_erase h
  · exact h

lemma seqNum_afterReturn (c : ℕ) (op : Op) (value : GoString) (place : ℕ) :
    ((afterReturn x op value place).clerks c).seqNum = (x.clerks c).seqNum := by
  unfold afterReturn
  dsimp only
  rw [update_apply]
  split
  · next hc => rw [hc]
  · rfl

/-! ### Where operations come from -/

def SameId (op op' : Op) : Prop := op.clientId = op'.clientId ∧ op.seqNum = op'.seqNum

/-- What the history says of the log and the clerks, in every run. -/
structure Traced (x : System n) : Prop where
  pending : ∀ op, Submitted x op → ∃ l, .invoked op l ∈ x.history
  open_ : ∀ c, ∀ op ∈ (x.clerks c).open_, op.clientId = c ∧ ∃ l, .invoked op l ∈ x.history
  nodup : ∀ c, (x.clerks c).open_.Nodup
  seq : ∀ op l, .invoked op l ∈ x.history →
    0 < op.seqNum ∧ op.seqNum ≤ (x.clerks op.clientId).seqNum
  place : ∀ op l, .invoked op l ∈ x.history →
    l ≤ x.log.length ∧ ∀ op' ∈ x.log.take l, ¬ SameId op' op
  unique : ∀ op l op' l', .invoked op l ∈ x.history → .invoked op' l' ∈ x.history →
    SameId op op' → op = op' ∧ l = l'
  returned : ∀ op value place, .returned op value place ∈ x.history →
    Answered x.log op value place ∧ op ∉ (x.clerks op.clientId).open_ ∧
      ∃ l, .invoked op l ∈ x.history
  once : (x.history.filterMap answeredOp).Nodup
  order : x.history.Pairwise InTime

lemma traced_init : Traced (System.init : System n) where
  pending := by rintro op (h | h | ⟨call, h, -⟩) <;> cases h
  open_ := fun c op h => by cases h
  nodup := fun c => List.nodup_nil
  seq := fun op l h => by cases h
  place := fun op l h => by cases h
  unique := fun op l op' l' h => by cases h
  returned := fun op v p h => by cases h
  once := List.nodup_nil
  order := List.Pairwise.nil

lemma Traced.quiet (h : Traced x) (hq : Quiet x x') : Traced x' where
  pending := fun op hp => by
    rw [hq.history]
    rcases hq.pending op hp with hp | ⟨c, hc⟩
    · exact h.pending op hp
    · exact (h.open_ c op hc).2
  open_ := by rw [hq.clerks, hq.history]; exact h.open_
  nodup := by rw [hq.clerks]; exact h.nodup
  seq := by rw [hq.clerks, hq.history]; exact h.seq
  place := by rw [hq.log, hq.history]; exact h.place
  unique := by rw [hq.history]; exact h.unique
  returned := by rw [hq.log, hq.clerks, hq.history]; exact h.returned
  once := by rw [hq.history]; exact h.once
  order := by rw [hq.history]; exact h.order

lemma mem_snoc_invoked {h : List Moment} {op op' : Op} {l l' : ℕ} :
    Moment.invoked op l ∈ h ++ [.invoked op' l'] ↔ .invoked op l ∈ h ∨ (op = op' ∧ l = l') := by
  simp

lemma mem_snoc_returned {h : List Moment} {op op' : Op} {v v' : GoString} {p p' : ℕ} :
    Moment.returned op v p ∈ h ++ [.returned op' v' p'] ↔
      .returned op v p ∈ h ∨ (op = op' ∧ v = v' ∧ p = p') := by
  simp

/-- A number that is allocated is new: everything invoked before is below it. -/
lemma Traced.not_sameId_next (h : Traced x) (c : ℕ) (type : OpType) (key value : GoString)
    {op : Op} {l : ℕ} (hl : .invoked op l ∈ x.history) :
    ¬ SameId op ((x.clerks c).next c type key value) := by
  rintro ⟨hc, hs⟩
  have hle := (h.seq op l hl).2
  rw [show op.clientId = c from hc] at hle
  have hseq : op.seqNum = (x.clerks c).seqNum + 1 := hs
  omega

lemma Traced.next_not_open (h : Traced x) (c : ℕ) (type : OpType) (key value : GoString) :
    (x.clerks c).next c type key value ∉ (x.clerks c).open_ := by
  intro hin
  obtain ⟨-, l, hl⟩ := h.open_ c _ hin
  exact h.not_sameId_next c type key value hl ⟨rfl, rfl⟩

lemma Traced.invoke (h : Traced x) (c : ℕ) (type : OpType) (key value : GoString) :
    Traced (afterInvoke x c ((x.clerks c).next c type key value)) := by
  set op := (x.clerks c).next c type key value with hop
  have hnew : ∀ op' l, .invoked op' l ∈ x.history → ¬ SameId op' op :=
    fun op' l hl => h.not_sameId_next c type key value hl
  have hnotin : op ∉ (x.clerks c).open_ := h.next_not_open c type key value
  constructor
  case pending =>
    intro op' hp
    obtain ⟨l, hl⟩ := h.pending op' hp
    exact ⟨l, List.mem_append_left _ hl⟩
  case open_ =>
    intro c' op' hin
    rcases mem_open_afterInvoke.mp hin with hin | ⟨rfl, rfl⟩
    · obtain ⟨hc, l, hl⟩ := h.open_ c' op' hin
      exact ⟨hc, l, List.mem_append_left _ hl⟩
    · exact ⟨rfl, _, mem_snoc_invoked.mpr (Or.inr ⟨rfl, rfl⟩)⟩
  case nodup =>
    intro c'
    by_cases hc : c' = c
    · subst hc
      simp only [afterInvoke, update_self]
      exact List.nodup_append.mpr ⟨h.nodup c', List.nodup_singleton op,
        fun a ha b hb hab => hnotin (by rw [← List.mem_singleton.mp hb, ← hab]; exact ha)⟩
    · simp only [afterInvoke, update_of_ne hc]
      exact h.nodup c'
  case seq =>
    intro op' l hl
    rcases mem_snoc_invoked.mp hl with hl | ⟨rfl, rfl⟩
    · obtain ⟨hpos, hle⟩ := h.seq op' l hl
      exact ⟨hpos, hle.trans (seqNum_le_afterInvoke _ _ _)⟩
    · refine ⟨Nat.succ_pos _, ?_⟩
      show op.seqNum ≤ (update x.clerks c _ c).seqNum
      rw [update_self]
      exact le_rfl
  case place =>
    intro op' l hl
    rcases mem_snoc_invoked.mp hl with hl | ⟨rfl, rfl⟩
    · exact h.place op' l hl
    · refine ⟨le_rfl, fun op' hin => ?_⟩
      obtain ⟨l, hl⟩ := h.pending op' (Or.inl (List.mem_of_mem_take hin))
      exact hnew op' l hl
  case unique =>
    intro op₁ l₁ op₂ l₂ h₁ h₂ hid
    rcases mem_snoc_invoked.mp h₁ with h₁ | ⟨rfl, rfl⟩
    · rcases mem_snoc_invoked.mp h₂ with h₂ | ⟨rfl, rfl⟩
      · exact h.unique op₁ l₁ op₂ l₂ h₁ h₂ hid
      · exact absurd hid (hnew op₁ l₁ h₁)
    · rcases mem_snoc_invoked.mp h₂ with h₂ | ⟨rfl, rfl⟩
      · exact absurd ⟨hid.1.symm, hid.2.symm⟩ (hnew op₂ l₂ h₂)
      · exact ⟨rfl, rfl⟩
  case returned =>
    intro op' v p hr
    have hr : Moment.returned op' v p ∈ x.history := by simpa [afterInvoke] using hr
    obtain ⟨hans, hnot, l, hl⟩ := h.returned op' v p hr
    refine ⟨hans, fun hin => ?_, l, List.mem_append_left _ hl⟩
    rcases mem_open_afterInvoke.mp hin with hin | ⟨-, rfl⟩
    · exact hnot hin
    · exact hnew op l hl ⟨rfl, rfl⟩
  case once =>
    show ((x.history ++ [Moment.invoked op x.log.length]).filterMap answeredOp).Nodup
    rw [List.filterMap_append]
    exact (List.append_nil _).symm ▸ h.once
  case order =>
    refine List.pairwise_append.mpr ⟨h.order, List.pairwise_singleton _ _, fun m hm m' hm' => ?_⟩
    obtain rfl := List.mem_singleton.mp hm'
    cases m with
    | invoked op' l => trivial
    | returned op' v p => exact (h.returned op' v p hm).1.le

lemma Traced.ret (h : Traced x) {op : Op} {value : GoString} {place : ℕ}
    (hans : Answered x.log op value place) (hop : op ∈ (x.clerks op.clientId).open_) :
    Traced (afterReturn x op value place) := by
  have hinv : ∀ op' l, .invoked op' l ∈ (afterReturn x op value place).history →
      .invoked op' l ∈ x.history := by
    intro op' l hl
    simpa [afterReturn] using hl
  constructor
  case pending =>
    intro op' hp
    obtain ⟨l, hl⟩ := h.pending op' hp
    exact ⟨l, List.mem_append_left _ hl⟩
  case open_ =>
    intro c op' hin
    obtain ⟨hc, l, hl⟩ := h.open_ c op' (mem_open_of_afterReturn hin)
    exact ⟨hc, l, List.mem_append_left _ hl⟩
  case nodup =>
    intro c
    by_cases hc : c = op.clientId
    · simp only [afterReturn, hc, update_self]
      exact (h.nodup _).erase op
    · simp only [afterReturn, update_of_ne hc]
      exact h.nodup c
  case seq =>
    intro op' l hl
    rw [seqNum_afterReturn]
    exact h.seq op' l (hinv op' l hl)
  case place =>
    intro op' l hl
    exact h.place op' l (hinv op' l hl)
  case unique =>
    intro op₁ l₁ op₂ l₂ h₁ h₂ hid
    exact h.unique op₁ l₁ op₂ l₂ (hinv _ _ h₁) (hinv _ _ h₂) hid
  case returned =>
    intro op' v p hr
    rcases mem_snoc_returned.mp hr with hr | ⟨rfl, rfl, rfl⟩
    · obtain ⟨hans', hnot, l, hl⟩ := h.returned op' v p hr
      exact ⟨hans', fun hin => hnot (mem_open_of_afterReturn hin), l, List.mem_append_left _ hl⟩
    · obtain ⟨-, l, hl⟩ := h.open_ _ op' hop
      refine ⟨hans, fun hin => ?_, l, List.mem_append_left _ hl⟩
      simp only [afterReturn, update_self] at hin
      exact (h.nodup _).not_mem_erase hin
  case once =>
    show ((x.history ++ [Moment.returned op value place]).filterMap answeredOp).Nodup
    rw [List.filterMap_append]
    refine List.nodup_append.mpr ⟨h.once, List.nodup_singleton op, ?_⟩
    rintro a ha b hb rfl
    obtain rfl := List.mem_singleton.mp hb
    obtain ⟨m, hm, hma⟩ := List.mem_filterMap.mp ha
    cases m with
    | invoked op' l => cases hma
    | returned op' v p =>
      obtain rfl := Option.some.inj hma
      exact (h.returned op' v p hm).2.1 hop
  case order =>
    refine List.pairwise_append.mpr ⟨h.order, List.pairwise_singleton _ _, fun m hm m' hm' => ?_⟩
    obtain rfl := List.mem_singleton.mp hm'
    cases m <;> trivial

lemma Traced.commit (h : Traced x) {i : ℕ} {op : Op} (hop : x.started[i]? = some op) :
    Traced { x with log := x.log ++ [op], started := x.started.eraseIdx i } where
  pending := by
    rintro op' (hp | hp | hp)
    · rcases List.mem_append.mp hp with hp | hp
      · exact h.pending op' (Or.inl hp)
      · obtain rfl := List.mem_singleton.mp hp
        exact h.pending op' (Or.inr (Or.inl (List.mem_of_getElem? hop)))
    · exact h.pending op' (Or.inr (Or.inl (List.mem_of_mem_eraseIdx hp)))
    · exact h.pending op' (Or.inr (Or.inr hp))
  open_ := h.open_
  nodup := h.nodup
  seq := h.seq
  place := fun op' l hl => by
    obtain ⟨hle, hnot⟩ := h.place op' l hl
    exact ⟨hle.trans (by simp), by rwa [List.take_append_of_le_length hle]⟩
  unique := h.unique
  returned := fun op' v p hr => by
    obtain ⟨hans, hrest⟩ := h.returned op' v p hr
    exact ⟨hans.grow [op], hrest⟩
  once := h.once
  order := h.order

/-! ### Runs -/

section

variable [Coded (ℕ × Data × GoMap ℕ ℕ)]

/-- **What an action does to the log and the clerks.** -/
theorem step_cases {act : Action n} (hs : step x act = some x') :
    (∃ c type key value, act = .act (.invoke c type key value) ∧
      x' = afterInvoke x c ((x.clerks c).next c type key value)) ∨
    (∃ call ∈ x.calls, ∃ value place, call.stage = .replied ⟨.ok, value⟩ place ∧
      call.op ∈ (x.clerks call.op.clientId).open_ ∧ x' = afterReturn x call.op value place) ∨
    (∃ i op, act = .commit i ∧ x.started[i]? = some op ∧
      x' = { x with log := x.log ++ [op], started := x.started.eraseIdx i }) ∨
    Quiet x x' := by
  cases act with
  | commit i =>
    obtain ⟨op, hop, rfl⟩ := step_commit_iff.mp hs
    exact Or.inr (Or.inr (Or.inl ⟨i, op, rfl, hop, rfl⟩))
  | act a =>
    obtain ⟨e, seen, ha, -, rfl⟩ := step_act_iff.mp hs
    cases App.acts_of_step ha with
    | invoke c type key value => exact Or.inl ⟨c, type, key, value, rfl, rfl⟩
    | @«return» k place call value hcall hstage hopen =>
      exact Or.inr (Or.inl ⟨call, List.mem_of_getElem? hcall, value, place, hstage, hopen, rfl⟩)
    | send hop => exact Or.inr (Or.inr (Or.inr (.of_send hop)))
    | started hcall => exact Or.inr (Or.inr (Or.inr (.of_set hcall rfl rfl rfl (Or.inr rfl) rfl)))
    | done hcall _ | refused hcall | wake hcall _ | answer hcall _ =>
      exact Or.inr (Or.inr (Or.inr (.of_set hcall rfl rfl rfl (Or.inl rfl) rfl)))
    | _ => exact Or.inr (Or.inr (Or.inr (.of_eq rfl rfl rfl rfl rfl)))

theorem Traced.step {act : Action n} (h : Traced x) (hx : Inv x)
    (hs : KvSystem.step x act = some x') : Traced x' := by
  rcases step_cases hs with ⟨c, type, key, value, -, rfl⟩ | ⟨call, hc, v, p, hst, hop, rfl⟩ |
    ⟨i, op, -, hop, rfl⟩ | hq
  · exact h.invoke c type key value
  · exact h.ret (hx.answered hc hst) hop
  · exact h.commit hop
  · exact h.quiet hq

end

/-! ### Order of numbers -/

/-- What enters the log is in turn: all lower numbers of its client are there. -/
def CommitsInTurn (x : System n) : Action n → Prop
  | .commit i => ∀ op, x.started[i]? = some op →
      Finset.Ico 1 op.seqNum ⊆ numbers x.log op.clientId
  | .act _ => True

/-- A clerk invokes an operation when its last one has returned. -/
def Sequential (x : System n) : Action n → Prop
  | .act a => OneAtATime x.toApp a
  | .commit _ => True

instance (x : System n) : ∀ act, Decidable (CommitsInTurn x act)
  | .commit i => decidable_of_iff
      (∀ op ∈ x.started[i]?, Finset.Ico 1 op.seqNum ⊆ numbers x.log op.clientId) Iff.rfl
  | .act _ => .isTrue trivial

instance (x : System n) : ∀ act, Decidable (Sequential x act)
  | .act a => inferInstanceAs (Decidable (OneAtATime x.toApp a))
  | .commit _ => .isTrue trivial

/-- What is answered is in the log, if that is in order. -/
lemma mem_numbers_of_answered {log : List Op} {op : Op} {v : GoString} {p : ℕ} (hlog : InOrder log)
    (hans : Answered log op v p) (hpos : 0 < op.seqNum) :
    op.seqNum ∈ numbers (log.take p) op.clientId := by
  rw [(hlog.take p).numbers_eq, Finset.mem_Icc]
  exact ⟨hpos, hans.done⟩

/-- What is answered is fresh somewhere in the prefix it was answered from. -/
lemma exists_fresh_of_answered (h : Traced x) (hlog : InOrder x.log) {op : Op} {v : GoString}
    {l p : ℕ} (hl : .invoked op l ∈ x.history) (hans : Answered x.log op v p) :
    ∃ k < p, x.log[k]? = some op ∧ Fresh (x.log.take k) op := by
  have hin := mem_numbers_of_answered hlog hans (h.seq op l hl).1
  obtain ⟨k, op', hk, hc, hs, hf⟩ := (hlog.take p).exists_fresh hin
  have hlt : k < p := lt_of_lt_of_le (List.getElem?_eq_some_iff.mp hk).1 (by simp)
  rw [List.getElem?_take_of_lt hlt] at hk
  rw [List.take_take, min_eq_left hlt.le] at hf
  obtain ⟨l', hl'⟩ := h.pending op' (Or.inl (List.mem_of_getElem? hk))
  obtain rfl : op' = op := (h.unique _ l' _ l hl' hl ⟨hc, hs⟩).1
  exact ⟨k, hlt, hk, hf⟩

lemma inOrder_commit (h : Traced x) (hlog : InOrder x.log) {op : Op} (hop : op ∈ x.started)
    (hturn : Finset.Ico 1 op.seqNum ⊆ numbers x.log op.clientId) : InOrder (x.log ++ [op]) := by
  refine hlog.snoc ?_
  obtain ⟨l, hl⟩ := h.pending op (Or.inr (Or.inl hop))
  have hpos := (h.seq op l hl).1
  have hnum := hlog.numbers_eq op.clientId
  rw [client_eq, seq_eq, hlog.card_numbers]
  rw [hnum] at hturn ⊢
  rw [Finset.mem_Icc]
  by_cases hle : op.seqNum ≤ high x.log op.clientId
  · exact Or.inl ⟨hpos, hle⟩
  · right
    by_cases h1 : op.seqNum = 1
    · omega
    · have hbelow : op.seqNum - 1 ∈ Finset.Ico 1 op.seqNum := Finset.mem_Ico.mpr (by omega)
      have := Finset.mem_Icc.mp (hturn hbelow)
      omega

/-- With one open operation at a time, all numbers but the open one are in the log. -/
structure OneOpen (x : System n) : Prop where
  last : ∀ c, ∀ op ∈ (x.clerks c).open_, op.seqNum = (x.clerks c).seqNum
  covered : ∀ c m, 0 < m → m ≤ (x.clerks c).seqNum →
    m ∈ numbers x.log c ∨ ∃ op ∈ (x.clerks c).open_, op.seqNum = m

lemma oneOpen_init : OneOpen (System.init : System n) :=
  ⟨fun _ _ h => absurd h List.not_mem_nil,
    fun _ _ hpos hle => absurd hle (Nat.not_le.mpr hpos)⟩

lemma OneOpen.invoke (h : OneOpen x) {c : ℕ} (hopen : (x.clerks c).open_ = []) (type : OpType)
    (key value : GoString) : OneOpen (afterInvoke x c ((x.clerks c).next c type key value)) := by
  refine ⟨fun c' op hop => ?_, fun c' m hpos hle => ?_⟩
  · by_cases hc : c' = c
    · subst hc
      simp only [afterInvoke, update_self, hopen, List.nil_append, List.mem_singleton] at hop ⊢
      rw [hop]
      rfl
    · simp only [afterInvoke, update_of_ne hc] at hop ⊢
      exact h.last c' op hop
  · by_cases hc : c' = c
    · subst hc
      simp only [afterInvoke, update_self, hopen, List.nil_append, List.mem_singleton,
        exists_eq_left] at hle ⊢
      by_cases hm : m ≤ (x.clerks c').seqNum
      · have hcov := h.covered c' m hpos hm
        rw [hopen] at hcov
        exact Or.inl (hcov.resolve_right (by simp))
      · exact Or.inr (show (x.clerks c').seqNum + 1 = m by omega)
    · simp only [afterInvoke, update_of_ne hc] at hle ⊢
      exact h.covered c' m hpos hle

/-- What returns is in the log. -/
lemma OneOpen.ret (h : OneOpen x) {op : Op} (v : GoString) (p : ℕ)
    (hin : op.seqNum ∈ numbers x.log op.clientId) : OneOpen (afterReturn x op v p) := by
  refine ⟨fun c op' hop' => ?_, fun c m hpos hle => ?_⟩
  · by_cases hc : c = op.clientId
    · subst hc
      simp only [afterReturn, update_self] at hop' ⊢
      exact h.last _ op' (List.mem_of_mem_erase hop')
    · simp only [afterReturn, update_of_ne hc] at hop' ⊢
      exact h.last c op' hop'
  · by_cases hc : c = op.clientId
    · subst hc
      simp only [afterReturn, update_self] at hle ⊢
      rcases h.covered _ m hpos hle with hm | ⟨op', hop', rfl⟩
      · exact Or.inl hm
      · by_cases heq : op' = op
        · exact Or.inl (heq ▸ hin)
        · exact Or.inr ⟨op', (List.mem_erase_of_ne heq).mpr hop', rfl⟩
    · simp only [afterReturn, update_of_ne hc] at hle ⊢
      exact h.covered c m hpos hle

lemma OneOpen.commit (h : OneOpen x) (op : Op) (rest : List Op) :
    OneOpen { x with log := x.log ++ [op], started := rest } := by
  refine ⟨h.last, fun c m hpos hle => (h.covered c m hpos hle).imp_left fun hm => ?_⟩
  show m ∈ numbers (x.log ++ [op]) c
  rw [numbers_snoc]
  split
  · exact Finset.mem_insert_of_mem hm
  · exact hm

/-- All lower numbers have returned. -/
lemma OneOpen.commitsInTurn (h : OneOpen x) (ht : Traced x) (act : Action n) :
    CommitsInTurn x act := by
  cases act with
  | commit i =>
    intro op hop m hm
    obtain ⟨hpos, hlt⟩ := Finset.mem_Ico.mp hm
    obtain ⟨l, hl⟩ := ht.pending op (Or.inr (Or.inl (List.mem_of_getElem? hop)))
    have hle := (ht.seq op l hl).2
    rcases h.covered op.clientId m hpos (by omega) with hin | ⟨op', hop', rfl⟩
    · exact hin
    · have := h.last _ op' hop'
      omega
  | _ => trivial

variable [Coded (ℕ × Data × GoMap ℕ ℕ)]

lemma inOrder_step {act : Action n} (ht : Traced x) (ho : InOrder x.log)
    (hturn : CommitsInTurn x act)
    (hs : step x act = some x') : InOrder x'.log := by
  rcases step_cases hs with ⟨c, type, key, value, -, rfl⟩ | ⟨call, hc, v, p, hst, hop, rfl⟩ |
    ⟨i, op, rfl, hop, rfl⟩ | hq
  · exact ho
  · exact ho
  · exact inOrder_commit ht ho (List.mem_of_getElem? hop) (hturn op hop)
  · rw [hq.log]
    exact ho

lemma OneOpen.step {act : Action n} (h : OneOpen x) (hi : Inv x) (ht : Traced x)
    (ho : InOrder x.log) (hseq : Sequential x act) (hs : KvSystem.step x act = some x') :
    OneOpen x' := by
  rcases step_cases hs with ⟨c, type, key, value, rfl, rfl⟩ | ⟨call, hc, v, p, hst, hop, rfl⟩ |
    ⟨i, op, rfl, hop, rfl⟩ | hq
  · exact h.invoke hseq type key value
  · obtain ⟨-, l, hl⟩ := ht.open_ _ call.op hop
    have hin := mem_numbers_of_answered ho (hi.answered hc hst) (ht.seq _ l hl).1
    exact h.ret v p (numbers_take_subset _ _ _ hin)
  · exact h.commit op _
  · exact ⟨by rw [hq.clerks]; exact h.last, by rw [hq.clerks, hq.log]; exact h.covered⟩

theorem inOrder_of_commitsInTurn (hr : ReachesIf step CommitsInTurn (System.init : System n) x) :
    Inv x ∧ Traced x ∧ InOrder x.log := by
  refine hr.inv (I := fun x => Inv x ∧ Traced x ∧ InOrder x.log)
    ⟨inv_init, traced_init, inOrder_nil⟩ ?_
  rintro y act y' ⟨hi, ht, ho⟩ hturn hs
  exact ⟨hi.step hs, ht.step hi hs, inOrder_step ht ho hturn hs⟩

theorem inOrder_of_sequential (hr : ReachesIf step Sequential (System.init : System n) x) :
    Inv x ∧ Traced x ∧ InOrder x.log := by
  suffices h : Inv x ∧ Traced x ∧ InOrder x.log ∧ OneOpen x from ⟨h.1, h.2.1, h.2.2.1⟩
  refine hr.inv (I := fun x => Inv x ∧ Traced x ∧ InOrder x.log ∧ OneOpen x)
    ⟨inv_init, traced_init, inOrder_nil, oneOpen_init⟩ ?_
  rintro y act y' ⟨hi, ht, ho, h1⟩ hseq hs
  exact ⟨hi.step hs, ht.step hi hs, inOrder_step ht ho (h1.commitsInTurn ht act) hs,
    h1.step hi ht ho hseq hs⟩

end Mit6824.KvHistory
