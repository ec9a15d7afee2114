import Mathlib.Data.List.Basic
import Mathlib.Tactic.Linarith

/-!
Logs as lists of entries that carry a term, and the two things a replica reads off one: the
term of the last entry, and which of two logs is the more up to date.

Positions are counted from one, as in the protocol: `termAt l i` is the term of the `i`-th
entry and `termAt l 0 = 0` stands for the entry before the first.
-/

namespace Mit6824.TermLog

class Termed (E : Type*) where
  term : E → ℕ

export Termed (term)

variable {E : Type*}

lemma prefix_eq_of_length {l m x : List E} (hl : l <+: x) (hm : m <+: x)
    (h : l.length = m.length) : l = m := by
  rw [List.prefix_iff_eq_take.mp hl, List.prefix_iff_eq_take.mp hm, h]

variable [Termed E]

/-- The term of the last entry, and `0` for the empty log. -/
def lastTerm (l : List E) : ℕ := (l.getLast?.map term).getD 0

def termAt (l : List E) (i : ℕ) : ℕ := lastTerm (l.take i)

@[simp] lemma lastTerm_nil : lastTerm ([] : List E) = 0 := rfl

@[simp] lemma lastTerm_snoc (l : List E) (e : E) : lastTerm (l ++ [e]) = term e := by
  simp [lastTerm]

lemma termAt_length (l : List E) : termAt l l.length = lastTerm l := by
  simp [termAt]

lemma lastTerm_take (l : List E) (i : ℕ) : lastTerm (l.take i) = termAt l i := rfl

lemma termAt_succ {l : List E} {i : ℕ} {e : E} (h : l[i]? = some e) :
    termAt l (i + 1) = term e := by
  obtain ⟨hi, rfl⟩ := List.getElem?_eq_some_iff.mp h
  rw [termAt, ← List.take_append_getElem hi, lastTerm_snoc]

lemma termAt_eq_of_le {l x : List E} (h : l <+: x) {i : ℕ} (hi : i ≤ l.length) :
    termAt l i = termAt x i := by
  obtain ⟨r, rfl⟩ := h
  rw [termAt, termAt, List.take_append_of_le_length hi]

lemma lastTerm_mem {l : List E} (h : l ≠ []) : ∃ e ∈ l, lastTerm l = term e := by
  obtain ⟨r, e, rfl⟩ := (List.eq_nil_or_concat l).resolve_left h
  exact ⟨e, by simp, by simp⟩

/-- The first log is at least as up to date as the second. -/
def UpToDate (x y : List E) : Prop :=
  lastTerm y < lastTerm x ∨ (lastTerm y = lastTerm x ∧ y.length ≤ x.length)

end Mit6824.TermLog
