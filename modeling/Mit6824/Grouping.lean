import Mathlib.Data.List.Nodup
import Mathlib.Data.List.Perm.Basic
import Mathlib.Order.Lattice
import Mathlib.Tactic.Common

/-!
Runs of equal keys in a list.

In a list that is sorted by its keys each key has one run, with all values of that key. So what is
made of the runs, if the order of the values of a key does not matter, depends on the list only up
to the order; and it can be made in parts, one for each class of a partition of the keys.
-/

namespace Mit6824.Grouping

open scoped List

variable {A K V B : Type*} [LinearOrder K] (key : A → K) (val : A → V)

/-- The runs, at most as many as the fuel. -/
def runsFuel : ℕ → List A → List (K × List V)
  | 0, _ => []
  | _ + 1, [] => []
  | n + 1, a :: l =>
    (key a, val a :: (l.takeWhile (key · = key a)).map val) ::
      runsFuel n (l.dropWhile (key · = key a))

/-- The maximal runs of elements of one key, each with its values. -/
def runs (l : List A) : List (K × List V) := runsFuel key val l.length l

def values (k : K) (l : List A) : List V := (l.filter (key · = k)).map val

def Sorted (l : List A) : Prop := l.Pairwise fun a b => key a ≤ key b

lemma length_dropWhile_le (p : A → Bool) (l : List A) : (l.dropWhile p).length ≤ l.length :=
  (List.dropWhile_sublist p).length_le

lemma runsFuel_congr {n m : ℕ} {l : List A} (hn : l.length ≤ n) (hm : l.length ≤ m) :
    runsFuel key val n l = runsFuel key val m l := by
  induction n generalizing m l with
  | zero =>
    obtain rfl : l = [] := List.length_eq_zero_iff.mp (by omega)
    cases m <;> rfl
  | succ n ih =>
    cases l with
    | nil => cases m <;> rfl
    | cons a l =>
      rw [List.length_cons] at hn hm
      obtain ⟨m, rfl⟩ : ∃ m', m = m' + 1 := ⟨m - 1, by omega⟩
      have hdrop := length_dropWhile_le (key · = key a) l
      rw [runsFuel, runsFuel, ih (m := m) (by omega) (by omega)]

lemma runs_cons (a : A) (l : List A) : runs key val (a :: l) =
    (key a, val a :: (l.takeWhile (key · = key a)).map val) ::
      runs key val (l.dropWhile (key · = key a)) := by
  rw [runs, List.length_cons, runsFuel,
    runsFuel_congr key val (length_dropWhile_le _ l) (Nat.le_refl _)]
  rfl

/-! ### Sorted lists -/

variable {key val} {l : List A}

/-- At the head of a sorted list a run has all elements of its key, and the rest has none. -/
lemma Sorted.head_run {k : K} (h : Sorted key l) (hk : ∀ a ∈ l, k ≤ key a) :
    l.takeWhile (key · = k) = l.filter (key · = k) ∧
      l.dropWhile (key · = k) = l.filter (key · ≠ k) := by
  induction l with
  | nil => exact ⟨rfl, rfl⟩
  | cons a l ih =>
    obtain ⟨hle, hl⟩ := List.pairwise_cons.mp h
    by_cases ha : key a = k
    · obtain ⟨htake, hdrop⟩ := ih hl fun b hb => hk b (List.mem_cons_of_mem a hb)
      simp [ha, htake, hdrop]
    · have hlt : ∀ b ∈ a :: l, key b ≠ k := by
        intro b hb hbk
        rcases List.mem_cons.mp hb with rfl | hb
        · exact ha hbk
        · exact ha (le_antisymm (hbk ▸ hle b hb) (hk a List.mem_cons_self))
      have hnone : (a :: l).filter (key · = k) = [] := by simpa using hlt
      have hall : (a :: l).filter (key · ≠ k) = a :: l := by simpa using hlt
      rw [hnone, hall]
      simp [ha]

section

variable (p : K → Prop) [DecidablePred p] {k : K}

omit [LinearOrder K] in
lemma mem_map_filter : k ∈ (l.filter fun a => p (key a)).map key ↔ k ∈ l.map key ∧ p k := by
  simp only [List.mem_map, List.mem_filter, decide_eq_true_eq]
  constructor
  · rintro ⟨a, ⟨ha, hp⟩, rfl⟩
    exact ⟨⟨a, ha, rfl⟩, hp⟩
  · rintro ⟨⟨a, ha, rfl⟩, hp⟩
    exact ⟨a, ⟨ha, hp⟩, rfl⟩

lemma values_filter (hk : p k) :
    values key val k (l.filter fun a => p (key a)) = values key val k l := by
  unfold values
  rw [List.filter_filter]
  congr 2
  funext a
  by_cases ha : key a = k <;> simp [ha, hk]

end

lemma values_perm {l' : List A} (h : l.Perm l') (k : K) :
    (values key val k l).Perm (values key val k l') := (h.filter _).map val

/-- **In a sorted list every key has one run, with all its values.** -/
theorem Sorted.runs_eq (val : A → V) (h : Sorted key l) : ∃ keys : List K, keys.Nodup ∧
    (∀ k, k ∈ keys ↔ k ∈ l.map key) ∧
      runs key val l = keys.map fun k => (k, values key val k l) := by
  induction hn : l.length using Nat.strongRecOn generalizing l with
  | _ n ih =>
    cases l with
    | nil => exact ⟨[], by simp, by simp, rfl⟩
    | cons a l =>
      obtain ⟨hle, hl⟩ := List.pairwise_cons.mp h
      obtain ⟨htake, hdrop⟩ := Sorted.head_run hl hle
      have hlen : (l.filter (key · ≠ key a)).length < n := by
        have := List.length_filter_le (fun b => decide (key b ≠ key a)) l
        rw [List.length_cons] at hn
        omega
      -- the runs after the first are those of the other keys
      obtain ⟨keys, hnd, hmem, heq⟩ := ih _ hlen (List.Pairwise.filter _ hl) rfl
      have hother : ∀ k, k ∈ keys ↔ k ∈ l.map key ∧ k ≠ key a := fun k =>
        (hmem k).trans (mem_map_filter (· ≠ key a))
      refine ⟨key a :: keys, List.nodup_cons.mpr ⟨fun ha => ((hother _).mp ha).2 rfl, hnd⟩,
        fun k => ?_, ?_⟩
      · rw [List.mem_cons, hother, List.map_cons, List.mem_cons]
        tauto
      · rw [runs_cons, htake, hdrop, heq, List.map_cons]
        congr 1
        · simp [values]
        · refine List.map_congr_left fun k hk => ?_
          have hne : k ≠ key a := ((hother k).mp hk).2
          rw [values_filter (· ≠ key a) hne]
          simp [values, hne.symm]

/-- **Runs in parts.** If a list is split by a class of the keys, and each part is sorted by itself,
the runs of the parts give what the runs of the whole give. -/
theorem runs_partition (part : K → ℕ) {n : ℕ} (hpart : ∀ k, part k < n) (f : K → List V → List B)
    (hf : ∀ k vs vs', vs.Perm vs' → f k vs = f k vs') {s : List A} {t : ℕ → List A}
    (hs : s.Perm l) (hsorted : Sorted key s)
    (ht : ∀ j, (t j).Perm (l.filter fun a => part (key a) = j)) (htsorted : ∀ j, Sorted key (t j)) :
    ((List.range n).flatMap fun j => (runs key val (t j)).flatMap fun r => f r.1 r.2).Perm
      ((runs key val s).flatMap fun r => f r.1 r.2) := by
  obtain ⟨keys, hnd, hmem, heq⟩ := hsorted.runs_eq val
  choose ks hknd hkmem hkeq using fun j => (htsorted j).runs_eq val
  have hin : ∀ j k, k ∈ ks j ↔ k ∈ l.map key ∧ part k = j := by
    intro j k
    rw [hkmem, ((ht j).map key).mem_iff]
    exact mem_map_filter (part · = j)
  -- a run of a part has the values that its key has in the whole
  have hvals : ∀ j, ∀ k ∈ ks j, f k (values key val k (t j)) = f k (values key val k s) := by
    intro j k hk
    refine hf k _ _ ?_
    calc values key val k (t j)
        ~ values key val k (l.filter fun a => part (key a) = j) := values_perm (ht j) k
      _ = values key val k l := values_filter (part · = j) ((hin j k).mp hk).2
      _ ~ values key val k s := (values_perm hs k).symm
  have hkeys : ((List.range n).flatMap ks).Perm keys := by
    refine (List.perm_ext_iff_of_nodup ?_ hnd).mpr fun k => ?_
    · refine List.nodup_flatMap.mpr ⟨fun j _ => hknd j, List.nodup_range.imp fun {i j} hij => ?_⟩
      intro k hi hj
      exact hij (((hin i k).mp hi).2.symm.trans ((hin j k).mp hj).2)
    · rw [hmem, (hs.map key).mem_iff, List.mem_flatMap]
      constructor
      · rintro ⟨j, -, hk⟩
        exact ((hin j k).mp hk).1
      · exact fun hk => ⟨part k, List.mem_range.mpr (hpart k), (hin _ k).mpr ⟨hk, rfl⟩⟩
  have hparts : ∀ j, ((runs key val (t j)).flatMap fun r => f r.1 r.2) =
      (ks j).flatMap fun k => f k (values key val k s) := by
    intro j
    rw [hkeq, List.flatMap_map]
    exact List.flatMap_congr (hvals j)
  simp only [hparts]
  calc (List.range n).flatMap (fun j => (ks j).flatMap fun k => f k (values key val k s))
      = ((List.range n).flatMap ks).flatMap fun k => f k (values key val k s) :=
        List.flatMap_assoc.symm
    _ ~ keys.flatMap fun k => f k (values key val k s) := hkeys.flatMap_right _
    _ = (runs key val s).flatMap fun r => f r.1 r.2 := by rw [heq, List.flatMap_map]

end Mit6824.Grouping
