import Mathlib.Algebra.BigOperators.Ring.Finset
import Mathlib.Algebra.Order.BigOperators.Group.Finset
import Mathlib.Data.Fintype.BigOperators
import Mathlib.Order.Bounds.Basic
import Mathlib.Tactic.Linarith

/-!
Items spread over owners: how many each owner has, when that is balanced, and how few items have
to move.

With `q` and `r` the quotient and the remainder of the items by the owners, an assignment is
balanced if everyone has `q` and `r` of them one more; it is enough that one of the two bounds
holds. New owners cost what they come to have, so as few items as possible move if old owners have
one more wherever they can.
-/

namespace Mit6824.Balance

open Finset Function

variable {ι G : Type*} [Fintype ι] [DecidableEq ι] [DecidableEq G]
variable {owner owner' : ι → G} {i : ι} {g h m : G} {S T : Finset G} {q r : ℕ}

/-- How many items an owner has. -/
def load (owner : ι → G) (g : G) : ℕ := (univ.filter fun i => owner i = g).card

omit [DecidableEq ι] in
lemma load_le (owner : ι → G) (g : G) : load owner g ≤ Fintype.card ι := card_filter_le _ _

omit [DecidableEq ι] in
lemma load_pos : 0 < load owner g ↔ ∃ i, owner i = g := by
  rw [load, card_pos]
  exact ⟨fun ⟨i, hi⟩ => ⟨i, (mem_filter.mp hi).2⟩, fun ⟨i, hi⟩ => ⟨i, by simp [hi]⟩⟩

omit [DecidableEq ι] in
lemma load_eq_card : load owner g = Fintype.card ι ↔ ∀ i, owner i = g := by
  rw [load, ← card_univ, card_filter_eq_iff]
  simp

/-! ### Moving one item -/

lemma load_update_self (hi : owner i ≠ g) : load (update owner i g) g = load owner g + 1 := by
  have hset : (univ.filter fun j => update owner i g j = g) =
      insert i (univ.filter fun j => owner j = g) := by
    ext j
    by_cases hj : j = i
    · simp [hj]
    · simp [hj]
  rw [load, hset, card_insert_of_notMem (by simp [hi]), load]

lemma load_update_owner (hi : owner i ≠ g) :
    load (update owner i g) (owner i) + 1 = load owner (owner i) := by
  have hset : (univ.filter fun j => owner j = owner i) =
      insert i (univ.filter fun j => update owner i g j = owner i) := by
    ext j
    by_cases hj : j = i
    · simp [hj]
    · simp [hj]
  rw [load, load, hset, card_insert_of_notMem (by simp [Ne.symm hi])]

lemma load_update_of_ne (hg : h ≠ g) (ho : h ≠ owner i) :
    load (update owner i g) h = load owner h := by
  unfold load
  congr 1
  ext j
  by_cases hj : j = i
  · simp [hj, hg.symm, ho.symm]
  · simp [hj]


/-! ### Balance -/

/-- Any two of the owners differ by at most one. -/
def Balanced (owner : ι → G) (S : Finset G) : Prop :=
  ∀ g ∈ S, ∀ h ∈ S, load owner g ≤ load owner h + 1

instance (owner : ι → G) (S : Finset G) : Decidable (Balanced owner S) :=
  inferInstanceAs (Decidable (∀ g ∈ S, ∀ h ∈ S, load owner g ≤ load owner h + 1))

omit [DecidableEq ι] in
lemma Balanced.subset (hb : Balanced owner S) (hT : T ⊆ S) : Balanced owner T :=
  fun g hg h hh => hb g (hT hg) h (hT hh)

/-- The owners that have more than a number of items. -/
def above (owner : ι → G) (S : Finset G) (q : ℕ) : Finset G := S.filter fun g => q < load owner g

/-- Everyone has at least `q`. If there are to be `N` owners in the end and everyone who comes gets
more than `q`, then at least `r` have more. -/
structure Floor (owner : ι → G) (S : Finset G) (N q r : ℕ) : Prop where
  base : ∀ g ∈ S, q ≤ load owner g
  room : r + S.card ≤ (above owner S q).card + N

/-- No one has more than `q + 1`, and at most `r` have more than `q`. -/
structure Roof (owner : ι → G) (S : Finset G) (q r : ℕ) : Prop where
  top : ∀ g ∈ S, load owner g ≤ q + 1
  room : (above owner S q).card ≤ r

section

omit [DecidableEq ι]

lemma mem_above : g ∈ above owner S q ↔ g ∈ S ∧ q < load owner g := mem_filter

lemma sum_load_le (owner : ι → G) (S : Finset G) : ∑ g ∈ S, load owner g ≤ Fintype.card ι := by
  unfold load
  rw [sum_card_fiberwise_eq_card_filter]
  exact card_le_univ _

lemma sum_load (hS : ∀ i, owner i ∈ S) : ∑ g ∈ S, load owner g = Fintype.card ι := by
  unfold load
  rw [sum_card_fiberwise_eq_card_filter, filter_true_of_mem fun i _ => hS i, card_univ]

lemma sum_above (owner : ι → G) (S : Finset G) (q : ℕ) :
    ∑ g ∈ S, (q + if q < load owner g then 1 else 0) = S.card * q + (above owner S q).card := by
  rw [sum_add_distrib, sum_const, Nat.nsmul_eq_mul, above, card_filter]

lemma card_above_add_le (hbase : ∀ g ∈ S, q ≤ load owner g) :
    S.card * q + (above owner S q).card ≤ Fintype.card ι := by
  rw [← sum_above]
  refine (sum_le_sum fun g hg => ?_).trans (sum_load_le owner S)
  have := hbase g hg
  split <;> omega

lemma le_card_above_add (hS : ∀ i, owner i ∈ S) (htop : ∀ g ∈ S, load owner g ≤ q + 1) :
    Fintype.card ι ≤ S.card * q + (above owner S q).card := by
  rw [← sum_above, ← sum_load hS]
  refine sum_le_sum fun g hg => ?_
  have := htop g hg
  split <;> omega

lemma exists_le_load (hS : ∀ i, owner i ∈ S) (hcard : S.card * q ≤ Fintype.card ι) (hg : g ∈ S)
    (hlt : load owner g < q) : ∃ h ∈ S, q < load owner h := by
  by_contra hall
  push Not at hall
  have hlt : ∑ h ∈ S, load owner h < ∑ _h ∈ S, q := sum_lt_sum hall ⟨g, hg, hlt⟩
  rw [sum_load hS, sum_const, Nat.nsmul_eq_mul] at hlt
  omega

lemma balanced_of_bounds (h : ∀ g ∈ S, q ≤ load owner g ∧ load owner g ≤ q + 1) :
    Balanced owner S := by
  intro g hg g' hg'
  have := (h g hg).2
  have := (h g' hg').1
  omega

lemma Balanced.floor {N : ℕ} (hb : Balanced owner S) (hS : ∀ i, owner i ∈ S)
    (hcard : Fintype.card ι = N * q + r) (hr : r ≤ N) (hN : S.card ≤ N) :
    Floor owner S N q r := by
  have hmul : S.card * q ≤ N * q := Nat.mul_le_mul_right q hN
  constructor
  · intro g hg
    by_contra hlt
    obtain ⟨h, hh, hgt⟩ := exists_le_load hS (by omega) hg (Nat.lt_of_not_le hlt)
    have := hb h hh g hg
    omega
  · by_cases hall : ∀ g ∈ S, q < load owner g
    · rw [above, filter_true_of_mem hall]
      omega
    · push Not at hall
      obtain ⟨g, hg, hle⟩ := hall
      have := le_card_above_add hS (q := q) fun h hh => (hb h hh g hg).trans (by omega)
      omega

lemma Balanced.roof (hb : Balanced owner S) (hcard : Fintype.card ι = S.card * q + r)
    (hr : r < S.card) : Roof owner S q r := by
  constructor
  · intro g hg
    by_contra hgt
    have hbase : ∀ h ∈ S, q + 1 ≤ load owner h := fun h hh => by
      have := hb g hg h hh
      omega
    have := card_above_add_le hbase
    rw [Nat.mul_succ] at this
    omega
  · by_cases hnone : ∀ g ∈ S, load owner g ≤ q
    · rw [above, filter_false_of_mem fun g hg => Nat.not_lt.mpr (hnone g hg), card_empty]
      omega
    · push Not at hnone
      obtain ⟨g, hg, hgt⟩ := hnone
      have hbase : ∀ h ∈ S, q ≤ load owner h := fun h hh => by
        have := hb g hg h hh
        omega
      have := card_above_add_le hbase
      omega

section

variable (hS : ∀ i, owner i ∈ S) (hcard : Fintype.card ι = S.card * q + r)
include hS hcard

lemma Balanced.bounds (hb : Balanced owner S) (hr : r < S.card) (hg : g ∈ S) :
    q ≤ load owner g ∧ load owner g ≤ q + 1 :=
  ⟨(hb.floor hS hcard hr.le le_rfl).base g hg, (hb.roof hcard hr).top g hg⟩

lemma Balanced.card_above (hb : Balanced owner S) (hr : r < S.card) :
    (above owner S q).card = r := by
  have := (hb.floor hS hcard hr.le le_rfl).room
  have := (hb.roof hcard hr).room
  omega

lemma Roof.balanced (h : Roof owner S q r) : Balanced owner S := by
  have hroom := h.room
  -- no one has less than `q`, since the others do not make up for it
  refine balanced_of_bounds (q := q) fun g hg => ⟨?_, h.top g hg⟩
  by_contra hlt
  have : ∑ g ∈ S, load owner g < ∑ g ∈ S, (q + if q < load owner g then 1 else 0) := by
    refine sum_lt_sum (fun h' hh' => ?_) ⟨g, hg, ?_⟩
    · have := h.top h' hh'
      split <;> omega
    · omega
  rw [sum_load hS, sum_above] at this
  omega

lemma Floor.balanced (h : Floor owner S S.card q r) : Balanced owner S := by
  have hroom := h.room
  refine balanced_of_bounds (q := q) fun g hg => ⟨h.base g hg, ?_⟩
  by_contra hgt
  have : ∑ g ∈ S, (q + if q < load owner g then 1 else 0) < ∑ g ∈ S, load owner g := by
    refine sum_lt_sum (fun h' hh' => ?_) ⟨g, hg, ?_⟩
    · have := h.base h' hh'
      split <;> omega
    · split <;> omega
  rw [sum_load hS, sum_above] at this
  omega

end

end

/-! ### How many items move -/

/-- How many items have another owner. -/
def moved (owner owner' : ι → G) : ℕ := (univ.filter fun i => owner' i ≠ owner i).card

def moveCounts (owner : ι → G) (S : Finset G) : Set ℕ :=
  {k | ∃ o : ι → G, (∀ i, o i ∈ S) ∧ Balanced o S ∧ k = moved owner o}

lemma sum_sub_le_moved {o : ι → G} (ho : ∀ i, o i ∈ S) :
    ∑ g ∈ S, (load o g - load owner g) ≤ moved owner o := by
  have hfiber : moved owner o = ∑ g ∈ S, ((univ.filter fun i => o i ≠ owner i).filter
      fun i => o i = g).card := card_eq_sum_card_fiberwise fun i _ => ho i
  rw [hfiber]
  refine sum_le_sum fun g _ => ?_
  have hsub : (univ.filter fun i => o i = g) ⊆
      ((univ.filter fun i => o i ≠ owner i).filter fun i => o i = g) ∪
        univ.filter fun i => owner i = g := by
    intro i hi
    rw [mem_union, mem_filter, mem_filter, mem_filter]
    rw [mem_filter] at hi
    by_cases hi' : o i = owner i
    · exact Or.inr ⟨mem_univ i, hi'.symm.trans hi.2⟩
    · exact Or.inl ⟨⟨mem_univ i, hi'⟩, hi.2⟩
  have := (card_le_card hsub).trans (card_union_le _ _)
  unfold load
  omega

section

omit [DecidableEq ι]

variable (hS : ∀ i, owner i ∈ S) (hT : Disjoint S T)
include hS hT

lemma load_new (hg : g ∈ T) : load owner g = 0 := by
  refine Nat.eq_zero_of_not_pos fun hpos => ?_
  obtain ⟨i, rfl⟩ := load_pos.mp hpos
  exact disjoint_left.mp hT (hS i) hg

lemma moved_eq_sum (hmoves : ∀ i, owner' i = owner i ∨ owner' i ∈ T) :
    moved owner owner' = ∑ g ∈ T, load owner' g := by
  have hmaps : Set.MapsTo owner' (univ.filter fun i => owner' i ≠ owner i : Finset ι) T :=
    fun i hi => (hmoves i).resolve_left (mem_filter.mp hi).2
  rw [moved, card_eq_sum_card_fiberwise hmaps]
  refine sum_congr rfl fun g hg => ?_
  unfold load
  congr 1
  ext i
  simp only [mem_filter, mem_univ, true_and, and_iff_right_iff_imp]
  rintro rfl heq
  exact disjoint_left.mp hT (hS i) (heq ▸ hg)

end

lemma exists_fewer_of_back {o : ι → G} (ho : ∀ i, o i ∈ S)
    (hbounds : ∀ g ∈ S, q ≤ load o g ∧ load o g ≤ q + 1) (hg : owner i ∈ S) (hi : o i ≠ owner i)
    (hle : load o (owner i) ≤ q) (hlt : q < load o (o i)) :
    ∃ k ∈ moveCounts owner S, k < moved owner o := by
  refine ⟨_, ⟨update o i (owner i), fun j => ?_, balanced_of_bounds (q := q) fun x hx => ?_, rfl⟩,
    ?_⟩
  · rw [update_apply]
    split
    · exact hg
    · exact ho j
  · have hx' := hbounds x hx
    have hself := load_update_self hi
    have howner := load_update_owner hi
    by_cases h1 : x = owner i
    · rw [h1, hself]
      rw [h1] at hx'
      omega
    · by_cases h2 : x = o i
      · rw [h2] at hx' ⊢
        omega
      · rw [load_update_of_ne h1 h2]
        exact hx'
  · refine card_lt_card ⟨fun j hj => ?_, fun hsub => ?_⟩
    · rw [mem_filter] at hj ⊢
      have hne : j ≠ i := fun heq => hj.2 (by rw [heq, update_self])
      rw [update_of_ne hne] at hj
      exact hj
    · have := (mem_filter.mp (hsub (mem_filter.mpr ⟨mem_univ i, hi⟩))).2
      exact this (update_self i (owner i) o)

section

omit [DecidableEq ι]

lemma card_above_union (o : ι → G) (hT : Disjoint S T) (q : ℕ) :
    (above o (S ∪ T) q).card = (above o S q).card + (above o T q).card := by
  unfold above
  rw [filter_union, card_union_of_disjoint (disjoint_filter_filter hT)]

lemma Balanced.sum_new {o : ι → G} (ho : ∀ i, o i ∈ S ∪ T) (hb : Balanced o (S ∪ T))
    (hcard : Fintype.card ι = (S ∪ T).card * q + r) (hr : r < (S ∪ T).card) :
    ∑ g ∈ T, load o g = T.card * q + (above o T q).card := by
  rw [← sum_above]
  refine sum_congr rfl fun g hg => ?_
  have := hb.bounds ho hcard hr (mem_union_right S hg)
  split <;> omega

end

section

variable (hS : ∀ i, owner i ∈ S) (hT : Disjoint S T)
  (hcard : Fintype.card ι = (S ∪ T).card * q + r) (hr : r < (S ∪ T).card)
include hS hT hcard hr

/-- The new owners have to be given all that they come to have, and so have old ones that had no
more than the quotient if they are to have more. -/
lemma le_moved {o : ι → G} (ho : ∀ i, o i ∈ S ∪ T) (hb : Balanced o (S ∪ T)) :
    T.card * q + r ≤ moved owner o + (above owner S q).card := by
  have hmoved : ∑ g ∈ S ∪ T, (load o g - load owner g) ≤ moved owner o := sum_sub_le_moved ho
  have hnew : ∑ g ∈ T, (load o g - load owner g) = ∑ g ∈ T, load o g :=
    sum_congr rfl fun g hg => by rw [load_new hS hT hg, Nat.sub_zero]
  have hold : (above o S q).card ≤
      ∑ g ∈ S, (load o g - load owner g) + (above owner S q).card := by
    unfold above
    rw [card_filter, card_filter, ← sum_add_distrib]
    refine sum_le_sum fun g _ => ?_
    split_ifs <;> omega
  rw [sum_union hT, hnew, hb.sum_new ho hcard hr] at hmoved
  have habove := hb.card_above ho hcard hr
  rw [card_above_union o hT] at habove
  omega

variable (hmoves : ∀ i, owner' i = owner i ∨ owner' i ∈ T) (hb : Balanced owner' (S ∪ T))
include hmoves hb

omit [Fintype ι] [DecidableEq ι] hT hcard hr hb in
lemma mem_union_of_moves (i : ι) : owner' i ∈ S ∪ T := by
  rcases hmoves i with heq | hin
  · exact heq ▸ mem_union_left T (hS i)
  · exact mem_union_right S hin

lemma exists_fewer (hg : g ∈ S) (hlt : q < load owner g) (hle : load owner' g ≤ q) (hh : h ∈ T)
    (hmore : q < load owner' h) : ∃ k ∈ moveCounts owner (S ∪ T), k < moved owner owner' := by
  have hown' := mem_union_of_moves hS hmoves
  have hbounds := fun x hx => hb.bounds hown' hcard hr (g := x) hx
  -- an item that the old owner has lost
  obtain ⟨i, rfl, hi⟩ : ∃ i, owner i = g ∧ owner' i ≠ g := by
    by_contra hall
    push Not at hall
    have hsub : (univ.filter fun i => owner i = g) ⊆ univ.filter fun i => owner' i = g :=
      fun i hi => mem_filter.mpr ⟨mem_univ i, hall i (mem_filter.mp hi).2⟩
    have := card_le_card hsub
    unfold load at hlt hle
    omega
  have hmem := mem_union_left T hg
  by_cases htop : q < load owner' (owner' i)
  · exact exists_fewer_of_back hown' hbounds hmem hi hle htop
  · -- the owner that has the item now is given another one first
    obtain ⟨j, rfl⟩ := load_pos.mp (Nat.zero_lt_of_lt hmore)
    have htT : owner' i ∈ T := (hmoves i).resolve_left hi
    have hji : owner' j ≠ owner' i := fun heq => htop (heq ▸ hmore)
    have hne : i ≠ j := fun heq => hji (heq ▸ rfl)
    have hself := load_update_self hji
    have howner := load_update_owner hji
    have hgT : ∀ x ∈ T, owner i ≠ x := fun x hx heq => disjoint_left.mp hT hg (heq ▸ hx)
    set o := update owner' j (owner' i) with ho
    have hoi : o i = owner' i := update_of_ne hne _ _
    have hown : ∀ l, o l ∈ S ∪ T := fun l => by
      rw [ho, update_apply]
      split
      · exact hown' i
      · exact hown' l
    have hbounds' : ∀ x ∈ S ∪ T, q ≤ load o x ∧ load o x ≤ q + 1 := fun x hx => by
      have hx' := hbounds x hx
      by_cases h1 : x = owner' i
      · rw [h1] at hx' ⊢
        omega
      · by_cases h2 : x = owner' j
        · rw [h2] at hx' ⊢
          omega
        · rwa [ho, load_update_of_ne h1 h2]
    have hle' : load o (owner i) ≤ q := by
      rwa [ho, load_update_of_ne (hgT _ htT) (hgT _ hh)]
    have hmore' : q < load o (o i) := by
      have := (hbounds _ (hown' i)).1
      rw [hoi]
      omega
    obtain ⟨k, hk, hk'⟩ := exists_fewer_of_back hown hbounds' hmem (hoi ▸ hi) hle' hmore'
    refine ⟨k, hk, hk'.trans_le (card_le_card fun l hl => ?_)⟩
    rw [mem_filter] at hl ⊢
    by_cases hlj : l = j
    · exact ⟨mem_univ l, fun heq => disjoint_left.mp hT (hS l) (heq ▸ hlj ▸ hh)⟩
    · rwa [ho, update_of_ne hlj] at hl

/-- **When as few items as possible move**, if items move to new owners only: no new owner has one
more than the others, or all old owners that can have one more do. -/
theorem isLeast_moved_iff : IsLeast (moveCounts owner (S ∪ T)) (moved owner owner') ↔
    (∀ g ∈ T, load owner' g ≤ q) ∨ ∀ g ∈ S, q < load owner g → q < load owner' g := by
  have hown' := mem_union_of_moves hS hmoves
  have hmoved := moved_eq_sum hS hT hmoves
  rw [hb.sum_new hown' hcard hr] at hmoved
  constructor
  · intro hleast
    by_contra hnot
    push Not at hnot
    obtain ⟨⟨h, hh, hmore⟩, g, hg, hlt, hle⟩ := hnot
    obtain ⟨k, hk, hk'⟩ := exists_fewer hS hT hcard hr hmoves hb hg hlt hle hh hmore
    exact absurd (hleast.2 hk) (Nat.not_le.mpr hk')
  · intro hcases
    refine ⟨⟨owner', hown', hb, rfl⟩, ?_⟩
    rintro k ⟨o, ho, hbo, rfl⟩
    rcases hcases with hnone | hkept
    · have hempty : above owner' T q = ∅ := filter_eq_empty_iff.mpr fun g hg =>
        Nat.not_lt.mpr (hnone g hg)
      rw [hempty, card_empty] at hmoved
      calc moved owner owner' = T.card * q := hmoved
        _ ≤ T.card * q + (above o T q).card := Nat.le_add_right _ _
        _ = ∑ g ∈ T, load o g := (hbo.sum_new ho hcard hr).symm
        _ = ∑ g ∈ T, (load o g - load owner g) :=
          sum_congr rfl fun g hg => by rw [load_new hS hT hg, Nat.sub_zero]
        _ ≤ ∑ g ∈ S ∪ T, (load o g - load owner g) :=
          sum_le_sum_of_subset subset_union_right
        _ ≤ moved owner o := sum_sub_le_moved ho
    · have hsub : above owner S q ⊆ above owner' S q := fun g hg =>
        mem_above.mpr ⟨(mem_above.mp hg).1, hkept g (mem_above.mp hg).1 (mem_above.mp hg).2⟩
      have hle := card_le_card hsub
      have habove := hb.card_above hown' hcard hr
      rw [card_above_union owner' hT] at habove
      have := le_moved hS hT hcard hr ho hbo
      omega

end

end Mit6824.Balance
