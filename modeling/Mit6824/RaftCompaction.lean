import Mit6824.RaftLogSpec

/-!
Compaction does not show.

A log that starts at `index0` is the end of a list of all entries that were ever kept. An operation
within the log does to it what it does to that list, but that `cutOffHead` leaves the list alone.
So from `index0` on both read the same.
-/

namespace Mit6824.RaftCompaction

open Mit6824.RaftLog

variable {C : Type}

/-- What changes a log. -/
inductive Operation (C : Type)
  | append (a : List (Entry C))
  | place (index : ℕ) (a : List (Entry C))
  | cutOffTail (index : ℕ)
  | cutOffHead (index : ℕ)
  deriving DecidableEq, Repr

namespace Operation

def exec (l : Log C) : Operation C → Except Panic (Log C)
  | append a => .ok (l.append a)
  | place index a => l.place index a
  | cutOffTail index => l.cutOffTail index
  | cutOffHead index => l.cutOffHead index

/-- The same operations on a log whose head is never cut off. -/
def execWhole (l : Log C) : Operation C → Except Panic (Log C)
  | cutOffHead _ => .ok l
  | op => op.exec l

/-- The operation is at an index within the log; it overwrites or cuts off at the start only if an
entry stays there. -/
def Within (l : Log C) : Operation C → Prop
  | append _ => True
  | place index a => (l.index0 < index ∨ index = l.index0 ∧ a ≠ []) ∧
      index ≤ l.index0 + l.entries.length
  | cutOffTail index => l.index0 < index ∧ index ≤ l.index0 + l.entries.length
  | cutOffHead index => l.index0 ≤ index ∧ index < l.index0 + l.entries.length

instance (l : Log C) : ∀ op, Decidable (Within l op)
  | append _ => .isTrue trivial
  | place _ _ | cutOffTail _ | cutOffHead _ => inferInstanceAs (Decidable (_ ∧ _))

end Operation

open Operation

/-- Each operation of the sequence is within the log that it finds. -/
def AllWithin : Log C → List (Operation C) → Prop
  | _, [] => True
  | l, op :: ops => op.Within l ∧
      match op.exec l with
      | .ok l' => AllWithin l' ops
      | .error _ => True

/-- The log is what compaction has left of the list; it has kept an entry if it has dropped one. -/
structure Trims (whole : List (Entry C)) (l : Log C) : Prop where
  split : ∃ head, head.length = l.index0 ∧ whole = head ++ l.entries
  kept : l.index0 = 0 ∨ l.entries ≠ []

variable {whole : List (Entry C)} {l : Log C}

/-! ### Reading -/

lemma Trims.lastIndex (h : Trims whole l) : l.lastIndex = (Log.mk whole 0).lastIndex := by
  obtain ⟨head, hlen, rfl⟩ := h.split
  simp [Log.lastIndex, hlen]

lemma Trims.getElem? (h : Trims whole l) {index : ℕ} (hi : l.index0 ≤ index) :
    l.entries[index - l.index0]? = whole[index]? := by
  obtain ⟨head, hlen, rfl⟩ := h.split
  rw [List.getElem?_append_right (by omega), hlen]

lemma Trims.entry (h : Trims whole l) {index : ℕ} (hi : l.index0 ≤ index) :
    l.entry index = (Log.mk whole 0).entry index := by
  unfold Log.entry
  rw [Log.assert_ok hi, Log.assert_ok (Nat.zero_le index), h.getElem? hi]
  rfl

lemma Trims.lastEntry (h : Trims whole l) : l.lastEntry = (Log.mk whole 0).lastEntry := by
  unfold Log.lastEntry
  rw [← h.lastIndex]
  refine h.entry ?_
  rcases h.kept with h0 | hne
  · omega
  · have := List.length_pos_of_ne_nil hne
    unfold Log.lastIndex
    omega

lemma Trims.slice (h : Trims whole l) {index : ℕ} (hi : l.index0 ≤ index) :
    l.slice index = (Log.mk whole 0).slice index := by
  obtain ⟨head, hlen, rfl⟩ := h.split
  have hiff : index - l.index0 ≤ l.entries.length ↔ index ≤ (head ++ l.entries).length := by
    rw [List.length_append]
    omega
  have hdrop : (head ++ l.entries).drop index = l.entries.drop (index - l.index0) := by
    rw [List.drop_append, List.drop_eq_nil_of_le (show head.length ≤ index by omega), hlen,
      List.nil_append]
  simp only [Log.slice, hi, Nat.zero_le, true_and, Nat.sub_zero, hiff, hdrop]

/-! ### Changing -/

lemma Trims.append (h : Trims whole l) (a : List (Entry C)) : Trims (whole ++ a) (l.append a) := by
  obtain ⟨head, hlen, rfl⟩ := h.split
  refine ⟨⟨head, hlen, List.append_assoc _ _ _⟩, h.kept.imp_right fun hne => ?_⟩
  exact List.append_ne_nil_of_left_ne_nil hne a

lemma Trims.place (h : Trims whole l) {index : ℕ} {a : List (Entry C)}
    (hw : (Operation.place index a).Within l) :
    ∃ l' whole', l.place index a = .ok l' ∧
      (Log.mk whole 0).place index a = .ok ⟨whole', 0⟩ ∧ Trims whole' l' := by
  obtain ⟨head, hlen, rfl⟩ := h.split
  obtain ⟨hstart, hle⟩ := hw
  obtain ⟨v, last, hv⟩ := Log.exists_written hle (hstart.imp_right And.right)
  have hwhole : (head ++ l.entries).take (index - 0) ++ a = (head ++ v) ++ [last] := by
    rw [Nat.sub_zero, List.take_append, List.take_of_length_le (by omega), hlen, List.append_assoc,
      hv, List.append_assoc]
  have hnext : (head ++ v ++ [last]).length = head.length + (v ++ [last]).length := by
    rw [List.append_assoc, List.length_append]
  have hget : (head ++ l.entries)[(head ++ v ++ [last]).length]? =
      l.entries[(v ++ [last]).length]? := by
    rw [hnext, List.getElem?_append_right (Nat.le_add_right _ _), Nat.add_sub_cancel_left]
  have hdrop : (head ++ l.entries).drop (head ++ v ++ [last]).length =
      l.entries.drop (v ++ [last]).length := by
    rw [hnext, ← List.drop_drop, List.drop_left]
  refine ⟨_, _, Log.place_eq (by omega) hle hv, Log.place_eq (Nat.zero_le _)
    (by rw [List.length_append]; omega) hwhole, ⟨⟨head, hlen, ?_⟩, Or.inr (by simp)⟩⟩
  dsimp only
  rw [hget, hdrop, List.append_assoc head, List.append_assoc head]

lemma Trims.cutOffTail (h : Trims whole l) {index : ℕ}
    (hw : (Operation.cutOffTail index : Operation C).Within l) :
    ∃ l' whole', l.cutOffTail index = .ok l' ∧
      (Log.mk whole 0).cutOffTail index = .ok ⟨whole', 0⟩ ∧ Trims whole' l' := by
  obtain ⟨head, hlen, rfl⟩ := h.split
  obtain ⟨hlt, hle⟩ := hw
  refine ⟨{ l with entries := l.entries.take (index - l.index0) },
    (head ++ l.entries).take index, ?_, ?_, ⟨⟨head, hlen, ?_⟩, Or.inr ?_⟩⟩
  · rw [Log.cutOffTail, if_neg (by omega), if_pos ⟨by omega, by omega⟩]
  · have hbound : index ≤ (head ++ l.entries).length := by
      rw [List.length_append]
      omega
    rw [Log.cutOffTail, if_neg (show index ≠ 0 by omega), if_pos ⟨Nat.zero_le _, hbound⟩]
    rfl
  · rw [List.take_append, List.take_of_length_le (by omega), hlen]
  · refine List.ne_nil_of_length_pos ?_
    rw [List.length_take]
    omega

lemma Trims.cutOffHead (h : Trims whole l) {index : ℕ}
    (hw : (Operation.cutOffHead index : Operation C).Within l) :
    ∃ l', l.cutOffHead index = .ok l' ∧ Trims whole l' := by
  obtain ⟨head, hlen, rfl⟩ := h.split
  obtain ⟨hle, hlt⟩ := hw
  refine ⟨⟨l.entries.drop (index - l.index0), index⟩, if_pos ⟨hle, by omega⟩,
    ⟨⟨head ++ l.entries.take (index - l.index0), ?_, ?_⟩, Or.inr (List.ne_nil_of_length_pos ?_)⟩⟩
  · show (head ++ l.entries.take (index - l.index0)).length = index
    rw [List.length_append, List.length_take]
    omega
  · rw [List.append_assoc, List.take_append_drop]
  · rw [List.length_drop]
    omega

lemma Trims.exec (h : Trims whole l) {op : Operation C} (hw : op.Within l) :
    ∃ l' whole', op.exec l = .ok l' ∧ op.execWhole ⟨whole, 0⟩ = .ok ⟨whole', 0⟩ ∧
      Trims whole' l' := by
  cases op with
  | append a => exact ⟨_, _, rfl, rfl, h.append a⟩
  | place index a => exact h.place hw
  | cutOffTail index => exact h.cutOffTail hw
  | cutOffHead index =>
    obtain ⟨l', hl', h'⟩ := h.cutOffHead hw
    exact ⟨l', whole, hl', rfl, h'⟩

/-- **A sequence of operations.** -/
lemma Trims.run (h : Trims whole l) {ops : List (Operation C)} (hw : AllWithin l ops) :
    ∃ l' whole', ops.foldlM Operation.exec l = .ok l' ∧
      ops.foldlM Operation.execWhole ⟨whole, 0⟩ = .ok ⟨whole', 0⟩ ∧ Trims whole' l' := by
  induction ops generalizing whole l with
  | nil => exact ⟨l, whole, rfl, rfl, h⟩
  | cons op ops ih =>
    obtain ⟨hop, hops⟩ := hw
    obtain ⟨l₁, whole₁, hl, hwhole, h₁⟩ := h.exec hop
    rw [hl] at hops
    obtain ⟨l', whole', hl', hwhole', h'⟩ := ih h₁ hops
    refine ⟨l', whole', ?_, ?_, h'⟩
    · rw [List.foldlM_cons, hl]
      exact hl'
    · rw [List.foldlM_cons, hwhole]
      exact hwhole'

/-- **Compaction is transparent.** A sequence of operations within the log comes to its end on the
log and on the list of all entries, which no `cutOffHead` trims, and then both have the same last
index and the same last entry, and read the same entries and slices from `index0` on. -/
theorem compaction_transparent (whole : List (Entry C)) (l : Log C) (h : Trims whole l)
    (ops : List (Operation C)) (hw : AllWithin l ops) :
    ∃ l' whole', ops.foldlM Operation.exec l = .ok l' ∧
      ops.foldlM Operation.execWhole ⟨whole, 0⟩ = .ok ⟨whole', 0⟩ ∧
      l'.lastIndex = (Log.mk whole' 0).lastIndex ∧ l'.lastEntry = (Log.mk whole' 0).lastEntry ∧
      ∀ index, l'.index0 ≤ index → l'.entry index = (Log.mk whole' 0).entry index ∧
        l'.slice index = (Log.mk whole' 0).slice index := by
  obtain ⟨l', whole', hl, hwhole, h'⟩ := h.run hw
  exact ⟨l', whole', hl, hwhole, h'.lastIndex, h'.lastEntry,
    fun index hi => ⟨h'.entry hi, h'.slice hi⟩⟩

/-- Three entries are appended, the log is compacted up to the second, the rest is overwritten
from the first index on, and what is appended then is cut off. -/
def compacting : List (Operation ℕ) :=
  [.append [⟨1, 7⟩, ⟨1, 8⟩, ⟨2, 9⟩], .cutOffHead 2, .place 2 [⟨1, 8⟩, ⟨4, 6⟩],
    .append [⟨4, 5⟩], .cutOffTail 4]

theorem compaction_transparent_overwritten :
    ∃ l' whole', compacting.foldlM Operation.exec (makeLog 1 0) = .ok l' ∧ l'.index0 = 2 ∧
      l'.lastIndex = 3 ∧ l'.entry 3 = .ok ⟨4, 6⟩ ∧
      compacting.foldlM Operation.execWhole (makeLog 1 0) = .ok ⟨whole', 0⟩ ∧
      (Log.mk whole' 0).lastIndex = 3 ∧ (Log.mk whole' 0).entry 3 = .ok ⟨4, 6⟩ := by
  have hw : AllWithin (makeLog 1 0) compacting :=
    ⟨trivial, by decide, by decide, trivial, by decide, trivial⟩
  obtain ⟨l', whole', hl, hwhole, hlast, -, hread⟩ := compaction_transparent [⟨0, 0⟩] (makeLog 1 0)
    ⟨⟨[], rfl, rfl⟩, Or.inl rfl⟩ compacting hw
  obtain rfl := Except.ok.inj hl
  refine ⟨_, whole', rfl, rfl, rfl, rfl, hwhole, hlast.symm, ?_⟩
  exact (hread 3 (by decide)).1.symm

end Mit6824.RaftCompaction
