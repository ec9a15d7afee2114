import Mit6824.RaftLog
import Mit6824.ReplGraft

/-!
What the log operations do to the log as a whole.

A log that starts at `index0` retains the part above `index0` of a list that is never
compacted. Its first entry stands for position `index0`; of it only the term matters.
-/

namespace Mit6824.RaftLog

open Mit6824.TermLog Mit6824.Repl

variable {C : Type} {lg : Log C} {l : List (Entry C)}

/-- The log holds the entries of `l` above its start. -/
structure Retains (lg : Log C) (l : List (Entry C)) : Prop where
  le : lg.index0 ≤ l.length
  entries : ∃ h, lg.entries = h :: l.drop lg.index0 ∧ h.term = termAt l lg.index0

namespace Log

lemma assert_ok {p : Prop} [Decidable p] {msg : String} (h : p) :
    assert p msg = .ok () := if_pos h

lemma entry_eq {lg : Log C} {i : ℕ} {e : Entry C} (hi : lg.index0 ≤ i)
    (he : lg.entries[i - lg.index0]? = some e) : lg.entry i = .ok e := by
  simp [entry, assert_ok hi, he, bind, Except.bind, pure, Except.pure]

/-- An entry that can be read is in range. -/
lemma range_of_entry {lg : Log C} {i : ℕ} {e : Entry C} (h : lg.entry i = .ok e) :
    lg.index0 ≤ i ∧ i < lg.index0 + lg.entries.length := by
  by_cases hi : lg.index0 ≤ i
  · refine ⟨hi, ?_⟩
    by_contra hlt
    have hnone : lg.entries[i - lg.index0]? = none := List.getElem?_eq_none_iff.mpr (by omega)
    simp [entry, assert_ok hi, hnone, bind, Except.bind] at h
  · simp [entry, assert, hi, bind, Except.bind] at h

lemma getElem?_of_entry {lg : Log C} {i : ℕ} {e : Entry C} (h : lg.entry i = .ok e) :
    lg.entries[i - lg.index0]? = some e := by
  obtain ⟨hi, hlt⟩ := range_of_entry h
  have hget := List.getElem?_eq_getElem (show i - lg.index0 < lg.entries.length by omega)
  rw [hget, Except.ok.inj ((entry_eq hi hget).symm.trans h)]

lemma exists_entry {lg : Log C} {i : ℕ} (hi : lg.index0 ≤ i)
    (hlt : i < lg.index0 + lg.entries.length) : ∃ e, lg.entry i = .ok e :=
  ⟨_, entry_eq hi (List.getElem?_eq_getElem (by omega))⟩

lemma overlap_eq (es : List (Entry C)) (i : ℕ) (a : List (Entry C)) (hi : i ≤ es.length) :
    ∃ j rest, overlap es i a = (es.take i ++ a.take j ++ es.drop (i + j), i + j, rest) ∧
      rest = a.drop j ∧ j ≤ a.length ∧ (j = a.length ∨ es.length ≤ i + j) := by
  induction a generalizing es i with
  | nil => exact ⟨0, [], by simp [overlap], by simp, by simp, by simp⟩
  | cons x a ih =>
    by_cases hlt : i < es.length
    · obtain ⟨j, rest, hov, hrest, hj, hend⟩ := ih (es.set i x) (i + 1)
        (by rw [List.length_set]; omega)
      refine ⟨j + 1, rest, ?_, by simpa using hrest, by simpa using hj, ?_⟩
      · rw [overlap, if_pos hlt, hov]
        have hset : es.set i x = es.take i ++ x :: es.drop (i + 1) :=
          List.set_eq_take_append_cons_drop.trans (if_pos hlt)
        have htake : (es.set i x).take (i + 1) = es.take i ++ [x] := by
          rw [hset, List.take_append, List.length_take]
          simp [show i + 1 - min i es.length = 1 by omega]
        have hdrop : (es.set i x).drop (i + 1 + j) = es.drop (i + (j + 1)) := by
          rw [List.drop_set_of_lt (by omega), show i + 1 + j = i + (j + 1) by omega]
        rw [htake, hdrop]
        simp [show i + 1 + j = i + (j + 1) by omega]
      · rcases hend with h | h
        · exact Or.inl (by simp [h])
        · exact Or.inr (by rw [List.length_set] at h; omega)
    · exact ⟨0, x :: a, by simp [overlap, hlt], by simp, by simp, Or.inr (by omega)⟩

lemma place_eq {lg : Log C} {index : ℕ} {a : List (Entry C)} (hi : lg.index0 ≤ index)
    (hle : index ≤ lg.index0 + lg.entries.length)
    {v : List (Entry C)} {last : Entry C}
    (hv : lg.entries.take (index - lg.index0) ++ a = v ++ [last]) :
    lg.place index a = .ok { lg with entries := v ++ [last] ++
      match lg.entries[(v ++ [last]).length]? with
      | none => []
      | some next => if last.term > next.term then []
          else lg.entries.drop (v ++ [last]).length } := by
  obtain ⟨j, rest, hov, rfl, hj, hend⟩ :=
    overlap_eq lg.entries (index - lg.index0) a (by omega)
  have hall : lg.entries.take (index - lg.index0) ++ a.take j ++
      lg.entries.drop (index - lg.index0 + j) ++ a.drop j =
      v ++ [last] ++ lg.entries.drop (v ++ [last]).length := by
    rw [← hv]
    have hlen : (lg.entries.take (index - lg.index0) ++ a).length =
        index - lg.index0 + a.length := by simp; omega
    rw [hlen]
    rcases hend with rfl | hend
    · simp
    · rw [List.drop_eq_nil_of_le hend,
        List.drop_eq_nil_of_le (by omega : lg.entries.length ≤ index - lg.index0 + a.length)]
      simp
  have hnext : index - lg.index0 + j + (a.drop j).length = (v ++ [last]).length := by
    rw [← hv]; simp; omega
  rw [place, assert_ok hi]
  simp only [bind, Except.bind, pure, Except.pure, hov, hall, hnext]
  have hget : (v ++ [last] ++ lg.entries.drop (v ++ [last]).length)[(v ++ [last]).length]? =
      lg.entries[(v ++ [last]).length]? := by
    rw [List.getElem?_append_right le_rfl]; simp
  rw [hget]
  rcases hc : lg.entries[(v ++ [last]).length]? with _ | next
  · have : lg.entries.drop (v ++ [last]).length = [] :=
      List.drop_eq_nil_of_le (List.getElem?_eq_none_iff.mp hc)
    simp only [this, List.append_nil]
  · have hlast : (v ++ [last] ++ lg.entries.drop (v ++ [last]).length)[
        (v ++ [last]).length - 1]? = some last := by
      rw [List.getElem?_append_left (by simp)]; simp
    simp only [List.length_append, List.length_singleton] at hlast ⊢
    simp only [hlast]
    split <;> simp [List.take_append]

lemma exists_written {lg : Log C} {index : ℕ} {a : List (Entry C)}
    (hle : index ≤ lg.index0 + lg.entries.length) (hne : lg.index0 < index ∨ a ≠ []) :
    ∃ v last, lg.entries.take (index - lg.index0) ++ a = v ++ [last] := by
  have hwritten : lg.entries.take (index - lg.index0) ++ a ≠ [] := by
    rcases hne with hlt | ha
    · refine List.append_ne_nil_of_left_ne_nil (List.ne_nil_of_length_pos ?_) a
      rw [List.length_take]
      omega
    · exact List.append_ne_nil_of_right_ne_nil _ ha
  obtain ⟨v, last, hv⟩ := (List.eq_nil_or_concat _).resolve_left hwritten
  exact ⟨v, last, hv.trans List.concat_eq_append⟩

/-- What `place` leaves of a log and of the entries that it writes, if something stands before
their end. -/
lemma place_spec (lg : Log C) (index : ℕ) (a : List (Entry C)) (hi : lg.index0 ≤ index)
    (hle : index ≤ lg.index0 + lg.entries.length) (hne : lg.index0 < index ∨ a ≠ []) :
    ∃ lg', lg.place index a = .ok lg' ∧ lg'.index0 = lg.index0 ∧
      (∀ i e, i < index → lg.entry i = .ok e → lg'.entry i = .ok e) ∧
      ∀ i e, index ≤ i → a[i - index]? = some e → lg'.entry i = .ok e := by
  have hlen : (lg.entries.take (index - lg.index0)).length = index - lg.index0 := by
    rw [List.length_take]
    omega
  obtain ⟨v, last, hv⟩ := exists_written hle hne
  refine ⟨_, place_eq hi hle hv, rfl, fun i e hlt he => ?_, fun i e hge he => ?_⟩
  · obtain ⟨hge, -⟩ := range_of_entry he
    refine entry_eq hge ?_
    dsimp only
    rw [← hv, List.append_assoc, List.getElem?_append_left (by omega),
      List.getElem?_take_of_lt (by omega), getElem?_of_entry he]
  · have hlt := (List.getElem?_eq_some_iff.mp he).1
    refine entry_eq (hi.trans hge) ?_
    dsimp only
    rw [← hv, List.append_assoc, List.getElem?_append_right (by omega), hlen,
      show i - lg.index0 - (index - lg.index0) = i - index by omega,
      List.getElem?_append_left hlt, he]

/-- What `cutOffTail` leaves above the start. -/
lemma cutOffTail_spec (lg : Log C) (index : ℕ) (hlt : lg.index0 < index)
    (hle : index ≤ lg.index0 + lg.entries.length) :
    ∃ lg', lg.cutOffTail index = .ok lg' ∧ lg'.index0 = lg.index0 ∧
      lg'.index0 + lg'.entries.length = index ∧
      ∀ i e, lg'.entry i = .ok e ↔ i < index ∧ lg.entry i = .ok e := by
  refine ⟨{ lg with entries := lg.entries.take (index - lg.index0) }, ?_, rfl, ?_, fun i e => ?_⟩
  · rw [cutOffTail, if_neg (by omega), if_pos ⟨by omega, by omega⟩]
  · simp only [List.length_take]
    omega
  · constructor
    · intro h
      obtain ⟨hge, hi⟩ := range_of_entry h
      have hget := getElem?_of_entry h
      simp only [List.length_take] at hge hi hget
      rw [List.getElem?_take_of_lt (by omega)] at hget
      exact ⟨by omega, entry_eq hge hget⟩
    · rintro ⟨hi, h⟩
      obtain ⟨hge, -⟩ := range_of_entry h
      refine entry_eq hge ?_
      simp only
      rw [List.getElem?_take_of_lt (by omega), getElem?_of_entry h]

end Log

namespace Retains

lemma lastIndex (h : Retains lg l) : lg.lastIndex = l.length := by
  obtain ⟨hd, he, -⟩ := h.entries
  have := h.le
  simp [Log.lastIndex, he]
  omega

lemma length_entries (h : Retains lg l) :
    lg.entries.length = l.length - lg.index0 + 1 := by
  obtain ⟨hd, he, -⟩ := h.entries
  simp [he]

lemma drop_one (h : Retains lg l) : lg.entries.drop 1 = l.drop lg.index0 := by
  obtain ⟨hd, he, -⟩ := h.entries
  simp [he]

lemma getElem?_entries (h : Retains lg l) {i : ℕ} (hi : lg.index0 < i) :
    lg.entries[i - lg.index0]? = l[i - 1]? := by
  obtain ⟨hd, he, -⟩ := h.entries
  rw [he, show i - lg.index0 = (i - 1 - lg.index0) + 1 by omega, List.getElem?_cons_succ,
    List.getElem?_drop, show lg.index0 + (i - 1 - lg.index0) = i - 1 by omega]

/-- Reading an entry in range: the term it has in the whole log, and the entry itself above
the start. -/
lemma entry (h : Retains lg l) {i : ℕ} (hi : lg.index0 ≤ i) (hil : i ≤ l.length) :
    ∃ e, lg.entry i = .ok e ∧ e.term = termAt l i ∧ (lg.index0 < i → l[i - 1]? = some e) := by
  rcases Nat.eq_or_lt_of_le hi with rfl | hlt
  · obtain ⟨hd, he, ht⟩ := h.entries
    exact ⟨hd, Log.entry_eq le_rfl (by simp [he]), ht, fun h => absurd h (lt_irrefl _)⟩
  · have hlen : i - 1 < l.length := by omega
    have hget := h.getElem?_entries hlt
    rw [List.getElem?_eq_getElem hlen] at hget
    refine ⟨l[i - 1], Log.entry_eq hi hget, ?_, fun _ => List.getElem?_eq_getElem hlen⟩
    have := termAt_succ (List.getElem?_eq_getElem hlen)
    rw [show i - 1 + 1 = i by omega] at this
    exact this.symm

lemma le_of_entry (h : Retains lg l) {i : ℕ} {e : Entry C} (he : lg.entry i = .ok e) :
    i ≤ l.length := by
  have hr := Log.range_of_entry he
  have hle := h.le
  rw [h.length_entries] at hr
  omega

lemma term_of_entry (h : Retains lg l) {i : ℕ} {e : Entry C} (he : lg.entry i = .ok e) :
    e.term = termAt l i := by
  obtain ⟨x, hx, ht, -⟩ := h.entry (Log.range_of_entry he).1 (h.le_of_entry he)
  rw [he] at hx
  rw [Except.ok.inj hx, ht]

lemma lastEntry (h : Retains lg l) : ∃ e, lg.lastEntry = .ok e ∧ e.term = lastTerm l := by
  obtain ⟨e, he, ht, -⟩ := h.entry (i := l.length) h.le le_rfl
  exact ⟨e, by rw [Log.lastEntry, h.lastIndex, he], by rw [ht, termAt_length]⟩

lemma slice (h : Retains lg l) {i : ℕ} (hi : lg.index0 ≤ i) (hil : i ≤ l.length) :
    lg.slice (i + 1) = .ok (l.drop i) := by
  obtain ⟨hd, he, -⟩ := h.entries
  rw [Log.slice, if_pos ⟨by omega, by rw [h.length_entries]; omega⟩, he,
    show i + 1 - lg.index0 = (i - lg.index0) + 1 by omega, List.drop_succ_cons, List.drop_drop,
    show lg.index0 + (i - lg.index0) = i by omega]

lemma append (h : Retains lg l) (e : Entry C) : Retains (lg.append [e]) (l ++ [e]) := by
  obtain ⟨hd, he, ht⟩ := h.entries
  refine ⟨by have := h.le; simp [Log.append]; omega, hd, ?_, ?_⟩
  · simp [Log.append, he, List.drop_append_of_le_length h.le]
  · rw [ht]
    exact termAt_eq_of_le (List.prefix_append _ _) h.le

lemma cutOffHead (h : Retains lg l) {i : ℕ} (hi : lg.index0 ≤ i) (hil : i ≤ l.length) :
    ∃ lg', lg.cutOffHead i = .ok lg' ∧ lg'.index0 = i ∧ Retains lg' l := by
  obtain ⟨hd, he, ht⟩ := h.entries
  refine ⟨⟨lg.entries.drop (i - lg.index0), i⟩, ?_, rfl, hil, ?_⟩
  · rw [Log.cutOffHead, if_pos ⟨hi, by rw [h.length_entries]; omega⟩]
  · rcases Nat.eq_or_lt_of_le hi with rfl | hlt
    · exact ⟨hd, by simp [he], ht⟩
    · have hlen : i - 1 < l.length := by omega
      refine ⟨l[i - 1], ?_, ?_⟩
      · have hdrop : lg.entries.drop (i - lg.index0) = l.drop (i - 1) := by
          rw [he, show i - lg.index0 = (i - 1 - lg.index0) + 1 by omega, List.drop_succ_cons,
            List.drop_drop, show lg.index0 + (i - 1 - lg.index0) = i - 1 by omega]
        rw [hdrop, List.drop_eq_getElem_cons hlen, show i - 1 + 1 = i by omega]
      · have := termAt_succ (List.getElem?_eq_getElem hlen)
        rw [show i - 1 + 1 = i by omega] at this
        exact this.symm

lemma cutOffTail (h : Retains lg l) {i : ℕ} (hi : lg.index0 ≤ i) (hil : i ≤ l.length) :
    ∃ lg' m, lg.cutOffTail i = .ok lg' ∧ lg'.index0 = lg.index0 ∧ Retains lg' (l.take m) ∧
      lg.index0 ≤ m ∧ m ≤ i ∧ i ≤ m + 1 := by
  obtain ⟨hd, he, ht⟩ := h.entries
  have hle := h.le
  have hterm : ∀ m, lg.index0 ≤ m → hd.term = termAt (l.take m) lg.index0 := by
    intro m hm
    rw [ht]
    exact (termAt_eq_of_le (List.take_prefix _ _) (by rw [List.length_take]; omega)).symm
  rcases Nat.eq_or_lt_of_le hi with rfl | hlt
  · refine ⟨{ lg with entries := lg.entries.take 1 }, lg.index0, ?_, rfl, ⟨?_, hd, ?_, ?_⟩,
      le_rfl, le_rfl, by omega⟩
    · rw [Log.cutOffTail, if_pos rfl, if_pos (by simp [he])]
    · rw [List.length_take]; exact le_min le_rfl hle
    · simp [he]
    · exact hterm _ le_rfl
  · refine ⟨{ lg with entries := lg.entries.take (i - lg.index0) }, i - 1, ?_, rfl,
      ⟨?_, hd, ?_, ?_⟩, by omega, by omega, by omega⟩
    · rw [Log.cutOffTail, if_neg (by omega), if_pos ⟨hi, by rw [h.length_entries]; omega⟩]
    · rw [List.length_take]; exact le_min (Nat.le_sub_one_of_lt hlt) hle
    · simp only
      rw [he, show i - lg.index0 = (i - 1 - lg.index0) + 1 by omega, List.take_succ_cons,
        List.drop_take]
    · exact hterm _ (by omega)

/-- The last entry of a list above a position, with an entry of the right term before it. -/
lemma last_term {w v : List (Entry C)} {i : ℕ} {hd last : Entry C} (hi : i ≤ w.length)
    (hcons : hd :: w.drop i = v ++ [last]) (ht : hd.term = termAt w i) :
    last.term = lastTerm w := by
  rcases List.eq_nil_or_concat (w.drop i) with h0 | ⟨x, e, h0⟩
  · rw [h0] at hcons
    have hl : hd = last := by simpa using congrArg List.getLast? hcons
    have hlen : i = w.length := le_antisymm hi (List.drop_eq_nil_iff.mp h0)
    rw [← hl, ht, hlen, termAt_length]
  · rw [h0, List.concat_eq_append] at hcons
    have hl : e = last := by simpa [List.getLast?_cons] using congrArg List.getLast? hcons
    have hsplit := List.take_append_drop i w
    rw [h0, List.concat_eq_append, ← List.append_assoc] at hsplit
    rw [← hsplit, lastTerm_snoc, hl]
    rfl

/-- What `place` keeps behind the entries it wrote. -/
lemma place_tail (h : Retains lg l) {w es : List (Entry C)} {last : Entry C}
    (hw : lg.index0 ≤ w.length) (hes : es.length = w.length - lg.index0 + 1)
    (hlast : last.term = lastTerm w) :
    (match lg.entries[es.length]? with
      | none => []
      | some next => if last.term > next.term then [] else lg.entries.drop es.length) =
      if termAt l (w.length + 1) < lastTerm w then [] else l.drop w.length := by
  have hdrop : lg.entries.drop es.length = l.drop w.length := by
    obtain ⟨hd, he, -⟩ := h.entries
    rw [he, hes, List.drop_succ_cons, List.drop_drop,
      show lg.index0 + (w.length - lg.index0) = w.length by omega]
  have hget : lg.entries[es.length]? = l[w.length]? := by
    have := h.getElem?_entries (i := w.length + 1) (by omega)
    rw [hes, show w.length - lg.index0 + 1 = w.length + 1 - lg.index0 by omega, this]
    rfl
  rw [hget, hdrop, hlast]
  rcases hn : l[w.length]? with _ | next
  · simp [List.drop_eq_nil_of_le (List.getElem?_eq_none_iff.mp hn)]
  · rw [termAt_succ hn]
    rfl

/-- Writing entries so that the log then starts with the entries of `w` grafts `w`. -/
lemma place (h : Retains lg l) {w a : List (Entry C)} {index : ℕ} {e : Entry C}
    (hi : lg.index0 ≤ index) (hil : index ≤ l.length + 1) (hw : lg.index0 ≤ w.length)
    (hcons : lg.entries.take (index - lg.index0) ++ a = e :: w.drop lg.index0)
    (ht : e.term = termAt w lg.index0) :
    ∃ lg', lg.place index a = .ok lg' ∧ lg'.index0 = lg.index0 ∧ Retains lg' (graft w l) := by
  have hle := h.le
  obtain ⟨v, last, hv⟩ := (List.eq_nil_or_concat (e :: w.drop lg.index0)).resolve_left (by simp)
  rw [List.concat_eq_append] at hv
  have hlast := last_term hw hv ht
  have hes : (v ++ [last]).length = w.length - lg.index0 + 1 := by
    rw [← hv, List.length_cons, List.length_drop]
  refine ⟨_, Log.place_eq hi (by rw [h.length_entries]; omega) (hcons.trans hv), rfl, ?_, e,
    ?_, ?_⟩
  · exact hw.trans length_le_graft
  · simp only
    rw [h.place_tail hw hes hlast, ← hv, graft]
    split
    · rw [List.append_nil]
    · rw [List.drop_append_of_le_length hw, List.cons_append]
  · rw [ht]
    exact termAt_eq_of_le (prefix_graft w l) hw

lemma place_above (h : Retains lg l) {p : ℕ} (hp : lg.index0 ≤ p) (hpl : p ≤ l.length)
    (a : List (Entry C)) :
    ∃ lg', lg.place (p + 1) a = .ok lg' ∧ lg'.index0 = lg.index0 ∧
      Retains lg' (graft (l.take p ++ a) l) := by
  obtain ⟨hd, he, ht⟩ := h.entries
  have hlen : lg.index0 ≤ (l.take p).length := by rw [List.length_take]; omega
  refine h.place (by omega) (by omega) (by rw [List.length_append]; omega) (e := hd) ?_ ?_
  · rw [he, show p + 1 - lg.index0 = (p - lg.index0) + 1 by omega, List.take_succ_cons,
      List.drop_append_of_le_length hlen, List.drop_take, List.cons_append]
  · rw [ht, ← termAt_eq_of_le (List.take_prefix p l) hlen]
    exact termAt_eq_of_le (List.prefix_append _ _) hlen

lemma place_start (h : Retains lg l) {x a : List (Entry C)} {e : Entry C}
    (hx : x.length + 1 = lg.index0) :
    ∃ lg', lg.place lg.index0 (e :: a) = .ok lg' ∧ lg'.index0 = lg.index0 ∧
      Retains lg' (graft (x ++ e :: a) l) := by
  have hsplit : x ++ e :: a = (x ++ [e]) ++ a := by simp
  have hlen : lg.index0 = (x ++ [e]).length := by simp [hx]
  have hle := h.le
  refine h.place le_rfl (by omega) (by rw [hsplit, List.length_append]; omega) (e := e) ?_ ?_
  · rw [hsplit, hlen, List.drop_left]
    simp
  · rw [hsplit, hlen, ← termAt_eq_of_le (List.prefix_append _ _) le_rfl, termAt_length,
      lastTerm_snoc]
    rfl

end Retains

end Mit6824.RaftLog
