import Mathlib.Data.Finmap
import Mathlib.Logic.Equiv.Finset
import Mathlib.Tactic.Linarith

/-!
Strings and maps as Go has them, and maps to numbers in which a missing key counts as zero.
-/

namespace Mit6824.GoData

/-- A string is a sequence of bytes. -/
abbrev GoString := List UInt8

abbrev GoMap (K V : Type) := Finmap fun _ : K => V

variable {K V : Type} [DecidableEq K]

/-- The number of a key. -/
def mark (m : GoMap K ℕ) (k : K) : ℕ := (m.lookup k).getD 0

@[simp] lemma mark_empty (k : K) : mark (∅ : GoMap K ℕ) k = 0 := rfl

@[simp] lemma mark_insert_self (m : GoMap K ℕ) (k : K) (n : ℕ) : mark (m.insert k n) k = n := by
  simp [mark]

lemma mark_insert_of_ne (m : GoMap K ℕ) {k k' : K} (n : ℕ) (h : k' ≠ k) :
    mark (m.insert k n) k' = mark m k' := by
  rw [mark, Finmap.lookup_insert_of_ne _ h, mark]

lemma mark_insert (m : GoMap K ℕ) (k k' : K) (n : ℕ) :
    mark (m.insert k n) k' = if k' = k then n else mark m k' := by
  split
  · next h => rw [h, mark_insert_self]
  · next h => exact mark_insert_of_ne m n h

/-- The key is given an entry if it has none. -/
def touch (m : GoMap K ℕ) (k : K) : GoMap K ℕ := if k ∈ m then m else m.insert k 0

@[simp] lemma mark_touch (m : GoMap K ℕ) (k k' : K) : mark (touch m k) k' = mark m k' := by
  unfold touch
  split
  · rfl
  · next h =>
    rw [mark_insert]
    split
    · next hk => rw [hk, mark, Finmap.lookup_eq_none.mpr h]; rfl
    · rfl

lemma mark_union (m m' : GoMap K ℕ) (k : K) :
    mark (m ∪ m') k = if k ∈ m then mark m k else mark m' k := by
  split
  · next h => rw [mark, Finmap.lookup_union_left h, mark]
  · next h => rw [mark, Finmap.lookup_union_right h, mark]

lemma mark_of_notMem {m : GoMap K ℕ} {k : K} (h : k ∉ m) : mark m k = 0 := by
  rw [mark, Finmap.lookup_eq_none.mpr h]; rfl

/-! ### Maximum -/

/-- The number of the key is raised, or left if it is higher. -/
def raise (m : GoMap K ℕ) (k : K) (n : ℕ) : GoMap K ℕ := m.insert k (max (mark m k) n)

lemma mark_raise (m : GoMap K ℕ) (k k' : K) (n : ℕ) :
    mark (raise m k n) k' = if k' = k then max (mark m k) n else mark m k' :=
  mark_insert m k k' _

lemma raise_comm (m : GoMap K ℕ) (k : K) (n : ℕ) (k' : K) (n' : ℕ) :
    raise (raise m k n) k' n' = raise (raise m k' n') k n := by
  by_cases h : k = k'
  · subst h
    simp only [raise, mark_insert_self, Finmap.insert_insert]
    rw [max_right_comm]
  · simp only [raise]
    rw [mark_insert_of_ne _ _ (Ne.symm h), mark_insert_of_ne _ _ h,
      Finmap.insert_insert_of_ne _ h]

/-- The numbers of both maps by maximum. -/
def merge (m m' : GoMap K ℕ) : GoMap K ℕ :=
  m'.foldl (fun acc k n => raise acc k n) raise_comm m

omit [DecidableEq K] in
lemma foldl_toFinmap {δ : Type} (f : δ → K → V → δ) (H) (d : δ) (a : AList fun _ : K => V) :
    Finmap.foldl f H d a.toFinmap = a.entries.foldl (fun d e => f d e.1 e.2) d := rfl

lemma mark_toFinmap (a : AList fun _ : K => ℕ) (k : K) :
    mark a.toFinmap k = (a.entries.dlookup k).getD 0 := rfl

lemma mark_foldl_raise (l : List (Sigma fun _ : K => ℕ)) (hl : l.NodupKeys) (m : GoMap K ℕ)
    (k : K) : mark (l.foldl (fun acc e => raise acc e.1 e.2) m) k =
      max (mark m k) ((l.dlookup k).getD 0) := by
  induction l generalizing m with
  | nil => simp
  | cons e l ih =>
    obtain ⟨k₁, n⟩ := e
    obtain ⟨hnot, hl'⟩ := List.nodupKeys_cons.mp hl
    rw [List.foldl_cons, ih hl', mark_raise]
    by_cases h : k = k₁
    · subst h
      have hnone : l.dlookup k = none := List.dlookup_eq_none.mpr hnot
      simp [hnone, max_comm]
    · rw [if_neg h, List.dlookup_cons_ne _ _ h]

lemma mark_merge (m m' : GoMap K ℕ) (k : K) :
    mark (merge m m') k = max (mark m k) (mark m' k) := by
  induction m' using Finmap.induction_on with
  | H a =>
    unfold merge
    rw [foldl_toFinmap, mark_toFinmap, mark_foldl_raise _ a.nodupKeys]

/-! ### Slices -/

lemma getElem?_append_singleton {α : Type*} {l : List α} {a b : α} {i : ℕ} :
    (l ++ [a])[i]? = some b ↔ l[i]? = some b ∨ i = l.length ∧ a = b := by
  rcases Nat.lt_trichotomy i l.length with hlt | rfl | hgt
  · simp [List.getElem?_append_left hlt, hlt.ne]
  · simp
  · have hl : l[i]? = none := List.getElem?_eq_none hgt.le
    have hla : (l ++ [a])[i]? = none := List.getElem?_eq_none (by simpa using Nat.succ_le_of_lt hgt)
    simp [hl, hla, hgt.ne']

lemma take_succ_of_getElem? {α : Type*} {l : List α} {a : α} {i : ℕ} (h : l[i]? = some a) :
    l.take (i + 1) = l.take i ++ [a] := by
  rw [List.take_add_one, h]
  rfl

/-! ### Codes, to run services whose snapshots are coded -/

instance encodableUInt8 : Encodable UInt8 :=
  Encodable.ofLeftInverse UInt8.toNat (fun n => UInt8.ofNat n) fun _ => UInt8.ofNat_toNat

instance [Encodable K] [Encodable V] : Encodable (GoMap K V) :=
  Encodable.ofLeftInjection Finmap.entries
    (fun s => if h : s.keys.Nodup then some ⟨s, Multiset.nodup_keys.mp h⟩ else none) fun m => by
      rw [dif_pos (Multiset.nodup_keys.mpr m.nodupKeys)]

end Mit6824.GoData
