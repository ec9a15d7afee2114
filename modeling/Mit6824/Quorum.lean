import Mathlib.Data.Fintype.Card
import Mathlib.Data.List.FinRange
import Mathlib.Data.List.Sort
import Mathlib.Tactic.Linarith

/-!
Majorities of a finite set of servers, and the median of a vector as a majority.

Two majorities share a member. Sorting a vector of `n` numbers, the entry at position `j` is the
greatest number that `n - j` components reach; the one at position `(n + 1) / 2 - 1` is reached by
a majority, and the one at position `0` by all of them.
-/

namespace Mit6824.Quorum

/-- More than half of the servers. -/
def Majority {S : Type*} [Fintype S] (Q : Finset S) : Prop := Fintype.card S < 2 * Q.card

lemma majority_univ {S : Type*} [Fintype S] [Nonempty S] : Majority (Finset.univ : Finset S) := by
  have hpos := Fintype.card_pos (α := S)
  unfold Majority
  rw [Finset.card_univ]
  omega

/-- **Two majorities meet.** -/
theorem Majority.inter {S : Type*} [Fintype S] [DecidableEq S] {P Q : Finset S}
    (hP : Majority P) (hQ : Majority Q) : ∃ v ∈ P, v ∈ Q := by
  unfold Majority at hP hQ
  obtain ⟨v, hv⟩ := Finset.inter_nonempty_of_card_lt_card_add_card (Finset.subset_univ P)
    (Finset.subset_univ Q) (by rw [Finset.card_univ]; omega)
  exact ⟨v, Finset.mem_inter.mp hv⟩

/-! ### The median -/

/-- The components of a vector in increasing order. -/
def sorted {n : ℕ} (f : Fin n → ℕ) : List ℕ := (List.ofFn f).insertionSort (· ≤ ·)

@[simp] lemma sorted_length {n : ℕ} (f : Fin n → ℕ) : (sorted f).length = n := by
  simp [sorted]

lemma card_filter_eq_countP {n : ℕ} (f : Fin n → ℕ) (p : ℕ → Prop) [DecidablePred p] :
    (Finset.univ.filter fun i => p (f i)).card = (List.ofFn f).countP p := by
  rw [List.ofFn_eq_map, List.countP_map, List.countP_eq_length_filter]
  rfl

/-- At least `n - j` components reach the entry at position `j`. -/
lemma card_ge_sorted {n : ℕ} (f : Fin n → ℕ) (j k : ℕ) (hj : (sorted f)[j]? = some k) :
    n - j ≤ (Finset.univ.filter fun i => k ≤ f i).card := by
  obtain ⟨hlt, rfl⟩ := List.getElem?_eq_some_iff.mp hj
  have hperm : (sorted f).Perm (List.ofFn f) := List.perm_insertionSort _ _
  have hsort : (sorted f).Pairwise (· ≤ ·) := List.pairwise_insertionSort _ _
  rw [card_filter_eq_countP f (fun m => (sorted f)[j] ≤ m), ← hperm.countP_eq]
  have htail : ∀ m ∈ (sorted f).drop j, (sorted f)[j] ≤ m := by
    intro m hm
    rw [List.drop_eq_getElem_cons hlt] at hm
    rcases List.mem_cons.mp hm with rfl | hm'
    · exact le_rfl
    · have := hsort.sublist (List.drop_sublist j _)
      rw [List.drop_eq_getElem_cons hlt] at this
      exact List.rel_of_pairwise_cons this hm'
  have hdrop : ((sorted f).drop j).countP (fun m => (sorted f)[j] ≤ m) = n - j := by
    rw [List.countP_eq_length.mpr (by simpa using htail)]; simp
  rw [← hdrop]
  exact (List.drop_sublist j _).countP_le

/-- At most `n - j - 1` components are above the entry at position `j`. -/
lemma card_gt_sorted {n : ℕ} (f : Fin n → ℕ) (j k : ℕ) (hj : (sorted f)[j]? = some k) :
    (Finset.univ.filter fun i => k < f i).card ≤ n - j - 1 := by
  obtain ⟨hlt, rfl⟩ := List.getElem?_eq_some_iff.mp hj
  have hperm : (sorted f).Perm (List.ofFn f) := List.perm_insertionSort _ _
  have hsort : (sorted f).Pairwise (· ≤ ·) := List.pairwise_insertionSort _ _
  have hhead : ((sorted f).take (j + 1)).countP (fun m => (sorted f)[j] < m) = 0 := by
    rw [List.countP_eq_zero]
    intro m hm
    obtain ⟨i, hi, rfl⟩ := List.getElem_of_mem hm
    rw [List.length_take] at hi
    rw [List.getElem_take, decide_eq_true_eq, not_lt]
    rcases Nat.lt_or_eq_of_le (show i ≤ j by omega) with hij | rfl
    · exact List.pairwise_iff_getElem.mp hsort i j (by omega) hlt hij
    · exact le_rfl
  rw [card_filter_eq_countP f (fun m => (sorted f)[j] < m)]
  calc (List.ofFn f).countP (fun m => (sorted f)[j] < m)
      = ((sorted f).take (j + 1) ++ (sorted f).drop (j + 1)).countP
          (fun m => (sorted f)[j] < m) := by rw [List.take_append_drop, hperm.countP_eq]
    _ = ((sorted f).drop (j + 1)).countP (fun m => (sorted f)[j] < m) := by
          rw [List.countP_append, hhead, Nat.zero_add]
    _ ≤ ((sorted f).drop (j + 1)).length := List.countP_le_length
    _ = n - j - 1 := by rw [List.length_drop, sorted_length]; omega

/-- **Order statistics.** The entry at position `j` is the greatest number that `n - j` components
reach. -/
theorem sorted_isGreatest {n : ℕ} (f : Fin n → ℕ) (j k : ℕ) (hj : (sorted f)[j]? = some k) :
    IsGreatest {m | n - j ≤ (Finset.univ.filter fun i => m ≤ f i).card} k := by
  refine ⟨card_ge_sorted f j k hj, fun m hm => ?_⟩
  by_contra hlt
  have hjn : j < n := by
    have := (List.getElem?_eq_some_iff.mp hj).1
    rwa [sorted_length] at this
  have hsub : (Finset.univ.filter fun i => m ≤ f i) ⊆ Finset.univ.filter fun i => k < f i := by
    intro i hi
    rw [Finset.mem_filter] at hi ⊢
    exact ⟨hi.1, (not_le.mp hlt).trans_le hi.2⟩
  have hle : n - j ≤ n - j - 1 :=
    calc n - j ≤ (Finset.univ.filter fun i => m ≤ f i).card := hm
      _ ≤ (Finset.univ.filter fun i => k < f i).card := Finset.card_le_card hsub
      _ ≤ n - j - 1 := card_gt_sorted f j k hj
  omega

/-- **The median is reached by a majority.** -/
theorem median_majority {n : ℕ} (f : Fin n → ℕ) (k : ℕ)
    (hk : (sorted f)[(n + 1) / 2 - 1]? = some k) :
    Majority (Finset.univ.filter fun i => k ≤ f i) := by
  have hn : 0 < n := by
    have := (List.getElem?_eq_some_iff.mp hk).1
    rw [sorted_length] at this; omega
  have := card_ge_sorted f _ k hk
  unfold Majority
  rw [Fintype.card_fin]; omega

lemma le_median {n : ℕ} (f : Fin n → ℕ) {k m : ℕ} (hk : (sorted f)[(n + 1) / 2 - 1]? = some k)
    {Q : Finset (Fin n)} (hQ : Majority Q) (hm : ∀ q ∈ Q, m ≤ f q) : m ≤ k := by
  refine (sorted_isGreatest f _ k hk).2 ?_
  have hsub : Q ⊆ Finset.univ.filter fun i => m ≤ f i := fun q hq =>
    Finset.mem_filter.mpr ⟨Finset.mem_univ q, hm q hq⟩
  have hle := Finset.card_le_card hsub
  unfold Majority at hQ
  rw [Fintype.card_fin] at hQ
  show n - ((n + 1) / 2 - 1) ≤ _
  omega

lemma least_le {n : ℕ} (f : Fin n → ℕ) (k : ℕ) (hk : (sorted f)[0]? = some k) (i : Fin n) :
    k ≤ f i := by
  have h := card_ge_sorted f 0 k hk
  have hall : (Finset.univ.filter fun i => k ≤ f i) = Finset.univ := by
    apply Finset.eq_univ_of_card
    have := Finset.card_le_univ (Finset.univ.filter fun i => k ≤ f i)
    rw [Fintype.card_fin] at this ⊢; omega
  have hi := Finset.mem_univ i
  rw [← hall] at hi
  exact (Finset.mem_filter.mp hi).2

lemma sorted_le {n : ℕ} (f : Fin n → ℕ) {j k b : ℕ} (hk : (sorted f)[j]? = some k)
    (hb : ∀ i, f i ≤ b) : k ≤ b := by
  have hmem : k ∈ List.ofFn f :=
    (List.perm_insertionSort _ _).mem_iff.mp (List.mem_of_getElem? hk)
  obtain ⟨i, rfl⟩ := (List.mem_ofFn' f k).mp hmem
  exact hb i

end Mit6824.Quorum
