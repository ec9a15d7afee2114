import Mit6824.PorcModels
import Mit6824.PorcSearch

/-!
What `checkSingle` returns.

It comes to its end without a panic, it returns whether the history is linearizable, and with
`computePartial` it returns for every operation one of the longest orders in which the history can
begin and which have that operation.
-/

namespace Mit6824.PorcVerdict

open Mit6824.LinkedList Mit6824.Schedules Mit6824.MapOrder Mit6824.PorcBitset
open Mit6824.PorcChecker Mit6824.PorcEntries Mit6824.PorcModels Mit6824.PorcSearch
open Function Relation

variable {σ ι ο : Type} {model : Model σ ι ο} {history : List (Operation ι ο)}
  {sorter : Sorter ι ο} {computePartial : Bool}

/-- An order in which the history can begin: what returned before one of its operations was called
is in it before that operation. -/
structure PartialLinearization (model : Model σ ι ο) (history : List (Operation ι ο))
    (l : List ℕ) : Prop where
  nodup : l.Nodup
  lt : ∀ i ∈ l, i < history.length
  order : ∀ l₁ i l₂, l = l₁ ++ i :: l₂ → ∀ (j : ℕ) (a b : Operation ι ο), history[j]? = some a →
    history[i]? = some b → a.ret < b.call → j ∈ l₁
  accepted : (l.foldlM (accepts model history) model.init).isSome

lemma partialLinearization_iff (sorter : Sorter ι ο) (ht : Timed history) {l : List ℕ} :
    PartialLinearization model history l ↔ Schedule (marks sorter history) l ∧
      (l.foldlM (accepts model history) model.init).isSome := by
  rw [schedule_iff (paired_marks sorter ht)]
  constructor
  · rintro ⟨hnd, hlt, horder, hacc⟩
    refine ⟨⟨hnd, fun i hi => call_mem_marks.mpr (hlt i hi), fun l₁ i l₂ hl j hb => ?_⟩, hacc⟩
    have hj := List.getElem?_eq_getElem (ret_mem_marks.mp hb.ret_mem)
    have hi := List.getElem?_eq_getElem (call_mem_marks.mp hb.call_mem)
    exact horder l₁ i l₂ hl j _ _ hj hi ((before_marks_iff hj hi).mp hb)
  · rintro ⟨⟨hnd, hmem, hbefore⟩, hacc⟩
    refine ⟨hnd, fun i hi => call_mem_marks.mp (hmem i hi), ?_, hacc⟩
    intro l₁ i l₂ hl j a b ha hb hlt
    exact hbefore l₁ i l₂ hl j ((before_marks_iff ha hb).mpr hlt)

variable [DecidableEq σ]

section Returns

variable {nodes : List (Node ι ο)} {st : Search σ} {ok : Bool} {longest : Longest}

def Returns (model : Model σ ι ο) (computePartial : Bool) (nodes : List (Node ι ο)) (st : Search σ)
    (ok : Bool) (longest : Longest) : Prop :=
  ∃ st', Steps model nodes computePartial st st' ∧
    iteration model computePartial nodes false st' = some (.returned ok longest)

lemma Returns.cases (h : Returns model computePartial nodes st ok longest) :
    iteration model computePartial nodes false st = some (.returned ok longest) ∨
      ∃ st', iteration model computePartial nodes false st = some (.running st') ∧
        Returns model computePartial nodes st' ok longest := by
  obtain ⟨st', hsteps, hret⟩ := h
  rcases hsteps.cases_head with rfl | ⟨st₁, hstep, hsteps⟩
  · exact .inl hret
  · exact .inr ⟨st₁, hstep, st', hsteps, hret⟩

lemma Returns.exists_loop (h : Returns model computePartial nodes st ok longest) :
    ∃ k, ∀ rounds, k ≤ rounds → loop model computePartial nodes rounds st = .ok (ok, longest) := by
  obtain ⟨st', hsteps, hret⟩ := h
  induction hsteps using ReflTransGen.head_induction_on with
  | refl =>
    refine ⟨1, fun rounds hle => ?_⟩
    obtain ⟨k, rfl⟩ := Nat.exists_eq_add_of_le' hle
    rw [loop, hret]
  | head hstep _ ih =>
    obtain ⟨k, hk⟩ := ih
    refine ⟨k + 1, fun rounds hle => ?_⟩
    obtain ⟨k', rfl⟩ := Nat.exists_eq_add_of_le' (Nat.le_of_add_left_le hle)
    rw [loop, hstep]
    exact hk k' (by omega)

end Returns

structure Verdict (model : Model σ ι ο) (history : List (Operation ι ο)) (computePartial ok : Bool)
    (longest : Longest) : Prop where
  ok_iff : ok = true ↔ Linearizable model history
  sound : ∀ i seq, longest[i]? = some (some seq) → PartialLinearization model history seq ∧ i ∈ seq
  longest : computePartial = true → ∀ l, PartialLinearization model history l → ∀ i ∈ l,
    ∃ seq, longest[i]? = some (some seq) ∧ l.length ≤ seq.length

/-! ### The two ends -/

lemma verdict_found (ht : Timed history) {st : Search σ} (hgood : Good model history
      (makeLinkedEntries (makeEntries sorter history)).nodes computePartial st)
    (hrest : rest (makeLinkedEntries (makeEntries sorter history)).nodes st.linearized = []) :
    ∃ longest, iteration model computePartial
        (makeLinkedEntries (makeEntries sorter history)).nodes false st =
          some (.returned true longest) ∧
      Verdict model history computePartial true longest := by
  have hboard := board sorter ht
  obtain ⟨l, hseq, -, hhas, hsched, hfold⟩ := hgood.stacked.path
  rw [map_mark_nodes ht] at hsched
  obtain ⟨hnd, hmem, -⟩ := (schedule_iff (paired_marks sorter ht)).mp hsched
  have hl : ∀ i, i ∈ l ↔ i < history.length := by
    refine fun i => ⟨fun hi => call_mem_marks.mp (hmem i hi), fun hi => (hhas i).mp ?_⟩
    by_contra hnot
    have hleft : Mark.call i ∈ left (makeLinkedEntries (makeEntries sorter history)).nodes
        st.linearized :=
      List.mem_filter.mpr ⟨(hboard.call_mem i).mpr hi, decide_eq_true hnot⟩
    rw [← map_rest, hrest] at hleft
    cases hleft
  have hperm : l.Perm (List.range history.length) :=
    (List.perm_ext_iff_of_nodup hnd List.nodup_range).mpr fun i => by rw [hl, List.mem_range]
  have hbegin : PartialLinearization model history l :=
    (partialLinearization_iff sorter ht).mpr ⟨hsched, by simp [hfold]⟩
  refine ⟨st.longest.map fun _ => some l, ?_, ?_, ?_, ?_⟩
  · rw [iteration, if_pos (by rw [next_head hboard hgood.stacked, hrest]; rfl), hseq]
    rfl
  · exact iff_of_true rfl ((linearizable_iff sorter ht).mpr ⟨l, hperm, hsched, by simp [hfold]⟩)
  · intro i seq h
    rw [List.getElem?_map, Option.map_eq_some_iff] at h
    obtain ⟨x, hx, hs⟩ := h
    obtain rfl := Option.some.inj hs
    exact ⟨hbegin, (hl i).mpr (hgood.room ▸ (List.getElem?_eq_some_iff.mp hx).1)⟩
  · intro _ l' hl' i hi
    refine ⟨l, ?_, (hl'.nodup.subperm fun j hj => (hl j).mpr (hl'.lt j hj)).length_le⟩
    rw [List.getElem?_map, List.getElem?_eq_getElem (hgood.room ▸ hl'.lt i hi)]
    rfl

lemma verdict_failed (ht : Timed history) {st : Search σ} (hgood : Good model history
      (makeLinkedEntries (makeEntries sorter history)).nodes computePartial st)
    (hcalls : st.calls = [])
    (hrest : rest (makeLinkedEntries (makeEntries sorter history)).nodes st.linearized ≠ [])
    {e : ℕ} {nd : Node ι ο} (hentry : st.entry = some e)
    (hnd : (makeLinkedEntries (makeEntries sorter history)).nodes[e]? = some nd)
    (hret : nd.matched = none)
    (htried : ∀ i ∈ opened (left (makeLinkedEntries (makeEntries sorter history)).nodes
      st.linearized), Tried model history (makeLinkedEntries (makeEntries sorter history)).nodes
        computePartial st.longest st.linearized st.state i) :
    iteration model computePartial (makeLinkedEntries (makeEntries sorter history)).nodes false st =
        some (.returned false st.longest) ∧
      Verdict model history computePartial false st.longest := by
  have hboard := board sorter ht
  obtain ⟨hst, -, hroom, hsound⟩ := hgood
  have hhead := next_head hboard hst
  have hlen := hst.length_linearized
  obtain ⟨l, hseq, hl, hhas, hsched, hfold⟩ := hst.path
  rw [hcalls] at hl
  obtain rfl := List.length_eq_zero_iff.mp hl
  have hnone : ∀ i, ¬ Has st.linearized i := fun i h => List.not_mem_nil ((hhas i).mp h)
  have hall : left (makeLinkedEntries (makeEntries sorter history)).nodes st.linearized =
      marks sorter history := by
    rw [left, map_mark_nodes ht]
    exact List.filter_eq_self.mpr fun m _ => decide_eq_true (hnone m.id)
  have hstate : st.state = model.init := (Option.some.inj hfold).symm
  have hdone := done_of_tried hboard (by rw [← map_rest]; simpa using hrest) hlen htried
    fun _ i hi => absurd hi (hnone i)
  rw [hstate] at hdone
  refine ⟨?_, ?_, ?_, ?_⟩
  · rw [iteration, if_neg (by rw [hhead]; simpa using hrest), if_neg (by simp)]
    simp [hentry, hnd, hret, backtrack, hcalls]
  · refine iff_of_false (by simp) fun hlin => ?_
    obtain ⟨l, hperm, hs, hacc⟩ := (linearizable_iff sorter ht).mp hlin
    obtain ⟨m, hm, hml⟩ := hdone.dead l (hall ▸ hs) hacc
    refine hml (hperm.mem_iff.mpr (List.mem_range.mpr ?_))
    rw [hall] at hm
    cases m with
    | call i => exact call_mem_marks.mp hm
    | ret i => exact ret_mem_marks.mp hm
  · intro i seq h
    obtain ⟨hs, hacc, hi⟩ := hsound i seq h
    rw [map_mark_nodes ht] at hs
    exact ⟨(partialLinearization_iff sorter ht).mpr ⟨hs, hacc⟩, hi⟩
  · intro hc l hl i hi
    obtain ⟨hs, hacc⟩ := (partialLinearization_iff sorter ht).mp hl
    obtain ⟨seq, hseq, hle⟩ := hdone.noted hc l (hall ▸ hs) hacc i (.inr hi)
    exact ⟨seq, hseq, by omega⟩

omit [DecidableEq σ] in
lemma good_startSearch (model : Model σ ι ο) (history : List (Operation ι ο))
    (sorter : Sorter ι ο) (computePartial : Bool) : Good model history
    (makeLinkedEntries (makeEntries sorter history)).nodes computePartial
    (startSearch model (makeEntries sorter history)) := by
  have hlen : (makeLinkedEntries (makeEntries sorter history)).nodes.length =
      (makeEntries sorter history).length := length_nodes 0 _
  have hst : Stacked model history (makeLinkedEntries (makeEntries sorter history)).nodes []
      (startSearch model (makeEntries sorter history)).links (newBitset history.length)
      model.init := by
    refine .nil ?_
    rw [hlen]
    exact linked_startSearch
  constructor
  · simpa only [startSearch, length_startSearch] using hst
  · intro h e he
    cases he
  · simp only [startSearch, length_startSearch, List.length_replicate]
  · intro i seq h
    simp only [startSearch, List.getElem?_replicate] at h
    split at h <;> cases h

/-- **The search comes to its end, with the verdict.** -/
theorem exists_returns (halike : EqualAlike model) (ht : Timed history) (sorter : Sorter ι ο)
    (computePartial : Bool) : ∃ ok longest, Verdict model history computePartial ok longest ∧
      Returns model computePartial (makeLinkedEntries (makeEntries sorter history)).nodes
        (startSearch model (makeEntries sorter history)) ok longest := by
  have hboard := board sorter ht
  have hgood := good_startSearch model history sorter computePartial
  set st := startSearch model (makeEntries sorter history) with hst
  by_cases hnil : rest (makeLinkedEntries (makeEntries sorter history)).nodes st.linearized = []
  · obtain ⟨longest, hit, hv⟩ := verdict_found ht hgood hnil
    exact ⟨true, longest, hv, st, .refl, hit⟩
  · have hentry : st.entry =
        (rest (makeLinkedEntries (makeEntries sorter history)).nodes st.linearized).head? := by
      simp only [hst, startSearch, makeLinkedEntries, rest_newBitset, length_nodes,
        List.range_eq_range']
      exact (chained_chainFrom 0 _).root
    cases explore hboard halike _ _ [] st le_rfl ⟨hgood, rfl, hentry, by simp⟩ hnil with
    | found st' hsteps hgood' hrest =>
      obtain ⟨longest, hit, hv⟩ := verdict_found ht hgood' hrest
      exact ⟨true, longest, hv, st', hsteps, hit⟩
    | failed c g e nd hsteps hnd hret hgood' hgrows hcache htried =>
      obtain ⟨hit, hv⟩ := verdict_failed ht hgood' rfl hnil rfl hnd hret htried
      exact ⟨false, g, hv, _, hsteps, hit⟩

/-- **The checker decides linearizability.** -/
theorem checkSingle_decides (halike : EqualAlike model) (ht : Timed history) (sorter : Sorter ι ο)
    (computePartial : Bool) : ∃ ok longest k, (ok = true ↔ Linearizable model history) ∧
      ∀ rounds, k ≤ rounds → checkSingle model (makeEntries sorter history) computePartial rounds =
        .ok (ok, longest) := by
  obtain ⟨ok, longest, hv, hret⟩ := exists_returns halike ht sorter computePartial
  obtain ⟨k, hk⟩ := hret.exists_loop
  exact ⟨ok, longest, k, hv.ok_iff, hk⟩

lemma loop_mono {nodes : List (Node ι ο)} {k k' : ℕ} {st : Search σ} {r : Bool × Longest}
    (h : loop model computePartial nodes k st = .ok r) (hle : k ≤ k') :
    loop model computePartial nodes k' st = .ok r := by
  induction k generalizing k' st with
  | zero => cases h
  | succ k ih =>
    obtain ⟨k', rfl⟩ := Nat.exists_eq_add_of_le' (Nat.le_of_add_left_le hle)
    rw [loop] at h ⊢
    split at h
    · cases h
    · exact h
    · exact ih h (by omega)

/-- Two values are put, one after the other, and then the first is read. -/
def staleRead : List KvOperation :=
  [⟨0, ⟨1, [97], [1]⟩, 0, ⟨[]⟩, 1⟩, ⟨0, ⟨1, [97], [2]⟩, 2, ⟨[]⟩, 3⟩,
    ⟨1, ⟨0, [97], []⟩, 4, ⟨[1]⟩, 5⟩]

theorem checkSingle_decides_stale : ¬ Linearizable kvModel staleRead := by
  have halike : EqualAlike kvModel := equalAlike_of_none rfl
  obtain ⟨ok, longest, k, hiff, hk⟩ := checkSingle_decides halike
    (show Timed staleRead by decide) insertionSorter false
  have hrun : checkSingle kvModel (makeEntries insertionSorter staleRead) false 10 =
      .ok (false, [none, none, none]) := by
    decide +kernel
  have hret := loop_mono hrun (Nat.le_max_left 10 k)
  have heq := (hk _ (Nat.le_max_right 10 k)).symm.trans hret
  rw [← hiff, (Prod.mk.inj (Except.ok.inj heq)).1]
  simp

end Mit6824.PorcVerdict
