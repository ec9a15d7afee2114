import Mathlib.Data.Finset.Card
import Mathlib.Order.Interval.Finset.Nat
import Mathlib.Tactic.Linarith

/-!
Logs of numbered commands, and duplicates told by one high-water mark for each client.

Every command carries its client and a number. `high log c` is the highest number of `c` in
the log; a command is fresh after a log that has no number of its client as high. A log is in
order if the commands of each client occur in it first as `1, 2, 3, ...`: then the fresh
commands are exactly the first occurrences, and the mark counts them.
-/

namespace Mit6824.Sessions

class Numbered (ι : outParam Type*) (Op : Type*) where
  client : Op → ι
  seq : Op → ℕ

export Numbered (client seq)

variable {ι Op : Type*} [DecidableEq ι] [Numbered ι Op]

def high (log : List Op) (c : ι) : ℕ :=
  log.foldr (fun op n => if client op = c then max (seq op) n else n) 0

@[simp] lemma high_nil (c : ι) : high ([] : List Op) c = 0 := rfl

lemma high_cons (op : Op) (log : List Op) (c : ι) :
    high (op :: log) c = if client op = c then max (seq op) (high log c) else high log c := rfl

lemma high_append (p q : List Op) (c : ι) : high (p ++ q) c = max (high p c) (high q c) := by
  induction p with
  | nil => simp
  | cons op p ih =>
    rw [List.cons_append, high_cons, high_cons, ih]
    split
    · rw [max_assoc]
    · rfl

lemma high_snoc (p : List Op) (op : Op) (c : ι) :
    high (p ++ [op]) c = if client op = c then max (high p c) (seq op) else high p c := by
  rw [high_append, high_cons, high_nil]
  split <;> simp

lemma high_le_append (p q : List Op) (c : ι) : high p c ≤ high (p ++ q) c := by
  rw [high_append]
  exact le_max_left _ _

lemma high_take_mono (log : List Op) {j k : ℕ} (h : j ≤ k) (c : ι) :
    high (log.take j) c ≤ high (log.take k) c := by
  obtain ⟨d, rfl⟩ := Nat.exists_eq_add_of_le h
  rw [List.take_add]
  exact high_le_append _ _ _

lemma le_high {log : List Op} {op : Op} (h : op ∈ log) : seq op ≤ high log (client op) := by
  obtain ⟨p, q, rfl⟩ := List.append_of_mem h
  rw [high_append, high_cons, if_pos rfl]
  exact le_max_of_le_right (le_max_left _ _)

lemma exists_of_le_high {log : List Op} {c : ι} {n : ℕ} (hn : 0 < n) (h : n ≤ high log c) :
    ∃ op ∈ log, client op = c ∧ n ≤ seq op := by
  induction log with
  | nil => exact absurd h (by simp; omega)
  | cons op log ih =>
    rw [high_cons] at h
    split at h
    · next hc =>
      rcases le_max_iff.mp h with h | h
      · exact ⟨op, List.mem_cons_self, hc, h⟩
      · obtain ⟨op', hop', h'⟩ := ih h
        exact ⟨op', List.mem_cons_of_mem _ hop', h'⟩
    · obtain ⟨op', hop', h'⟩ := ih h
      exact ⟨op', List.mem_cons_of_mem _ hop', h'⟩

/-- No command of the client before has a number as high. -/
def Fresh (log : List Op) (op : Op) : Prop := high log (client op) < seq op

instance (log : List Op) (op : Op) : Decidable (Fresh log op) := Nat.decLt _ _

/-- A fresh command sets the mark of its client. -/
lemma Fresh.high_snoc {log : List Op} {op : Op} (h : Fresh log op) (c : ι) :
    high (log ++ [op]) c = if c = client op then seq op else high log c := by
  rw [Sessions.high_snoc]
  by_cases hc : c = client op
  · subst hc
    rw [if_pos rfl, if_pos rfl]
    exact max_eq_right (Nat.le_of_lt h)
  · rw [if_neg hc, if_neg (Ne.symm hc)]

/-- Any other command is below the mark of its client. -/
lemma high_snoc_of_not_fresh {log : List Op} {op : Op} (h : ¬ Fresh log op) (c : ι) :
    high (log ++ [op]) c = high log c := by
  rw [high_snoc]
  split
  · next hc =>
    subst hc
    exact max_eq_left (Nat.not_lt.mp h)
  · rfl

def fresh (log : List Op) : List Op :=
  log.foldl (fun (acc : List Op × List Op) op =>
    (acc.1 ++ [op], if Fresh acc.1 op then acc.2 ++ [op] else acc.2)) ([], []) |>.2

lemma fresh_fold (log : List Op) :
    (log.foldl (fun (acc : List Op × List Op) op =>
      (acc.1 ++ [op], if Fresh acc.1 op then acc.2 ++ [op] else acc.2)) ([], [])).1 = log := by
  induction log using List.reverseRecOn with
  | nil => rfl
  | append_singleton log op ih => rw [List.foldl_append, List.foldl_cons, List.foldl_nil, ih]

@[simp] lemma fresh_nil : fresh ([] : List Op) = [] := rfl

lemma fresh_snoc (log : List Op) (op : Op) :
    fresh (log ++ [op]) = if Fresh log op then fresh log ++ [op] else fresh log := by
  unfold fresh
  rw [List.foldl_append, List.foldl_cons, List.foldl_nil, fresh_fold]

/-! ### Logs in order -/

def numbers (log : List Op) (c : ι) : Finset ℕ :=
  ((log.filter fun op => client op = c).map seq).toFinset

@[simp] lemma numbers_nil (c : ι) : numbers ([] : List Op) c = ∅ := rfl

lemma mem_numbers {log : List Op} {c : ι} {n : ℕ} :
    n ∈ numbers log c ↔ ∃ op ∈ log, client op = c ∧ seq op = n := by
  simp [numbers, and_assoc]

lemma numbers_snoc (log : List Op) (op : Op) (c : ι) :
    numbers (log ++ [op]) c =
      if client op = c then insert (seq op) (numbers log c) else numbers log c := by
  ext n
  split
  · next h => simp [mem_numbers, or_and_right, exists_or, h, or_comm, eq_comm]
  · next h => simp [mem_numbers, or_and_right, exists_or, h]

lemma numbers_take_subset (log : List Op) (k : ℕ) (c : ι) :
    numbers (log.take k) c ⊆ numbers log c := by
  intro n hn
  obtain ⟨op, hop, h⟩ := mem_numbers.mp hn
  exact mem_numbers.mpr ⟨op, List.mem_of_mem_take hop, h⟩

/-- The commands of each client occur first as `1, 2, 3, ...`; any may occur again later. -/
def InOrder (log : List Op) : Prop :=
  ∀ p op q, log = p ++ op :: q →
    seq op ∈ numbers p (client op) ∨ seq op = (numbers p (client op)).card + 1

lemma inOrder_nil : InOrder ([] : List Op) := fun p op q h => by simp at h

lemma InOrder.left {p q : List Op} (h : InOrder (p ++ q)) : InOrder p := by
  rintro p' op q' rfl
  exact h p' op (q' ++ q) (by simp)

lemma InOrder.take {log : List Op} (h : InOrder log) (k : ℕ) : InOrder (log.take k) := by
  rw [← List.take_append_drop k log] at h
  exact h.left

lemma InOrder.last {log : List Op} {op : Op} (h : InOrder (log ++ [op])) :
    seq op ∈ numbers log (client op) ∨ seq op = (numbers log (client op)).card + 1 :=
  h log op [] rfl

lemma InOrder.snoc {log : List Op} {op : Op} (h : InOrder log)
    (hop : seq op ∈ numbers log (client op) ∨ seq op = (numbers log (client op)).card + 1) :
    InOrder (log ++ [op]) := by
  intro p x q hpq
  rcases List.eq_nil_or_concat q with rfl | ⟨q, y, rfl⟩
  · obtain ⟨rfl, rfl⟩ := List.append_inj' hpq rfl |>.imp id List.singleton_inj.mp
    exact hop
  · rw [List.concat_eq_append, ← List.cons_append, ← List.append_assoc] at hpq
    exact h p x q (List.append_inj' hpq rfl).1

lemma InOrder.numbers_eq {log : List Op} (h : InOrder log) (c : ι) :
    numbers log c = Finset.Icc 1 (high log c) := by
  induction log using List.reverseRecOn with
  | nil => simp
  | append_singleton log op ih =>
    have ih := ih h.left
    rw [numbers_snoc, high_snoc]
    split
    · next hc =>
      subst hc
      rcases h.last with hold | hnew
      · -- a number that has occurred is below the mark
        rw [Finset.insert_eq_of_mem hold, ih]
        rw [ih, Finset.mem_Icc] at hold
        rw [max_eq_left hold.2]
      · rw [ih, Nat.card_Icc, Nat.add_sub_cancel] at hnew
        rw [ih, hnew, max_eq_right (Nat.le_succ _)]
        ext n
        simp only [Finset.mem_insert, Finset.mem_Icc]
        omega
    · exact ih

/-- The mark of a client counts its commands. -/
lemma InOrder.card_numbers {log : List Op} (h : InOrder log) (c : ι) :
    (numbers log c).card = high log c := by
  rw [h.numbers_eq, Nat.card_Icc, Nat.add_sub_cancel]

/-- The commands of each client occur first in the order of their numbers; any may occur again
later, and numbers may be left out. -/
def Rising (log : List Op) : Prop :=
  ∀ p op q, log = p ++ op :: q → seq op ∈ numbers p (client op) ∨ Fresh p op

lemma Rising.left {p q : List Op} (h : Rising (p ++ q)) : Rising p := by
  rintro p' op q' rfl
  exact h p' op (q' ++ q) (by simp)

lemma Rising.fresh_iff {log : List Op} {op : Op} (h : Rising (log ++ [op])) :
    Fresh log op ↔ seq op ∉ numbers log (client op) := by
  constructor
  · intro hlt hmem
    obtain ⟨op', hop', hc, hs⟩ := mem_numbers.mp hmem
    have hle := le_high hop'
    rw [hc, hs] at hle
    exact absurd hlt (Nat.not_lt.mpr hle)
  · exact (h log op [] rfl).resolve_left

lemma InOrder.rising {log : List Op} (h : InOrder log) : Rising log := by
  intro p op q hlog
  refine (h p op q hlog).imp_right fun hnew => ?_
  rw [hlog] at h
  rw [h.left.card_numbers] at hnew
  show high p (client op) < seq op
  omega

lemma InOrder.fresh_iff {log : List Op} {op : Op} (h : InOrder (log ++ [op])) :
    Fresh log op ↔ seq op ∉ numbers log (client op) := h.rising.fresh_iff

/-- Every number of an ordered log is fresh somewhere. -/
lemma InOrder.exists_fresh {log : List Op} (h : InOrder log) {c : ι} {n : ℕ}
    (hn : n ∈ numbers log c) :
    ∃ k op, log[k]? = some op ∧ client op = c ∧ seq op = n ∧ Fresh (log.take k) op := by
  induction log using List.reverseRecOn with
  | nil => simp at hn
  | append_singleton log op ih =>
    by_cases hold : n ∈ numbers log c
    · obtain ⟨k, op', hk, hc, hs, hf⟩ := ih h.left hold
      have hlt := (List.getElem?_eq_some_iff.mp hk).1
      refine ⟨k, op', ?_, hc, hs, ?_⟩
      · rw [List.getElem?_append_left hlt, hk]
      · rwa [List.take_append_of_le_length hlt.le]
    · obtain ⟨op', hop', rfl, rfl⟩ := mem_numbers.mp hn
      rcases List.mem_append.mp hop' with hop' | hop'
      · exact absurd (mem_numbers.mpr ⟨op', hop', rfl, rfl⟩) hold
      · obtain rfl := List.mem_singleton.mp hop'
        refine ⟨log.length, op', by simp, rfl, rfl, ?_⟩
        rw [List.take_left]
        exact h.fresh_iff.mpr hold

omit [DecidableEq ι] [Numbered ι Op] in
lemma mem_take_of_getElem? {log : List Op} {j k : ℕ} {op : Op} (hj : log[j]? = some op)
    (hjk : j < k) : op ∈ log.take k := by
  refine List.mem_iff_getElem?.mpr ⟨j, ?_⟩
  rw [List.getElem?_take_of_lt hjk, hj]

lemma fresh_unique {log : List Op} {j k : ℕ} {op op' : Op} (hj : log[j]? = some op)
    (hk : log[k]? = some op') (hc : client op = client op') (hs : seq op = seq op')
    (hfj : Fresh (log.take j) op) (hfk : Fresh (log.take k) op') : j = k := by
  have hnot : ∀ {i m : ℕ} {o o' : Op}, log[i]? = some o → client o = client o' → seq o = seq o' →
      Fresh (log.take m) o' → ¬ i < m := by
    intro i m o o' ho hco hso hf hlt
    have hle := le_high (mem_take_of_getElem? ho hlt)
    unfold Fresh at hf
    rw [hco, hso] at hle
    omega
  have h₁ := hnot hj hc hs hfk
  have h₂ := hnot hk hc.symm hs.symm hfj
  omega

def firsts (log : List Op) : List Op :=
  log.foldl (fun acc op => if seq op ∈ numbers acc (client op) then acc else acc ++ [op]) []

lemma firsts_snoc (log : List Op) (op : Op) :
    firsts (log ++ [op]) =
      if seq op ∈ numbers (firsts log) (client op) then firsts log else firsts log ++ [op] := by
  unfold firsts
  rw [List.foldl_append, List.foldl_cons, List.foldl_nil]

lemma numbers_firsts (log : List Op) (c : ι) : numbers (firsts log) c = numbers log c := by
  induction log using List.reverseRecOn with
  | nil => rfl
  | append_singleton log op ih =>
    rw [firsts_snoc, numbers_snoc]
    split
    · next hold =>
      split
      · next hc =>
        subst hc
        rw [ih, Finset.insert_eq_of_mem (ih ▸ hold)]
      · exact ih
    · rw [numbers_snoc, ih]

/-- **The fresh commands are the first occurrences**, if these rise. -/
theorem Rising.fresh_eq_firsts {log : List Op} (h : Rising log) : fresh log = firsts log := by
  induction log using List.reverseRecOn with
  | nil => rfl
  | append_singleton log op ih =>
    rw [fresh_snoc, firsts_snoc, ih h.left, numbers_firsts]
    by_cases hold : seq op ∈ numbers log (client op)
    · rw [if_pos hold, if_neg fun hf => h.fresh_iff.mp hf hold]
    · rw [if_neg hold, if_pos (h.fresh_iff.mpr hold)]

/-- In an ordered log the fresh commands are the first occurrences. -/
theorem InOrder.fresh_eq_firsts {log : List Op} (h : InOrder log) : fresh log = firsts log :=
  h.rising.fresh_eq_firsts

end Mit6824.Sessions
