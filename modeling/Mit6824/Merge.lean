import Mathlib.Data.List.Sort
import Mathlib.Order.Lattice
import Mathlib.Tactic.Common

/-!
Orders of parts, put together.

Things that take time are in an order that keeps their times if none that ended before another
began comes after it. Each of them then has a moment at which it can be thought to happen: the
latest beginning up to it. Orders of the parts of a whole are put together by sorting by the
moments.
-/

namespace Mit6824.Merge

variable {α T : Type*} [LinearOrder T] (call ret : α → T)

/-- No one ended before one that comes earlier began. -/
def KeepsTime (l : List α) : Prop := l.Pairwise fun a b => ¬ ret b < call a

/-- The things of a list with their moments, where `m` is the latest beginning so far. -/
def stamp (m : T) : List α → List (T × α)
  | [] => []
  | a :: l => (max m (call a), a) :: stamp (max m (call a)) l

def stamps : List α → List (T × α)
  | [] => []
  | a :: l => stamp call (call a) (a :: l)

variable {call ret} {l : List α} {m : T}

lemma map_stamp : (stamp call m l).map Prod.snd = l := by
  induction l generalizing m with
  | nil => rfl
  | cons a l ih => rw [stamp, List.map_cons, ih]

lemma map_stamps : (stamps call l).map Prod.snd = l := by
  cases l with
  | nil => rfl
  | cons a l => exact map_stamp

lemma le_of_mem_stamp {x : T × α} (hx : x ∈ stamp call m l) : m ≤ x.1 ∧ call x.2 ≤ x.1 := by
  induction l generalizing m with
  | nil => cases hx
  | cons a l ih =>
    rcases List.mem_cons.mp hx with rfl | hx
    · exact ⟨le_max_left .., le_max_right ..⟩
    · obtain ⟨hm, hc⟩ := ih hx
      exact ⟨(le_max_left ..).trans hm, hc⟩

lemma pairwise_stamp : (stamp call m l).Pairwise fun x y => x.1 ≤ y.1 := by
  induction l generalizing m with
  | nil => exact .nil
  | cons a l ih => exact .cons (fun x hx => (le_of_mem_stamp hx).1) ih

/-- Before the moment of a thing is over, it has not ended. -/
lemma stamp_le (hk : KeepsTime call ret l) (ht : ∀ a ∈ l, call a ≤ ret a)
    (hm : ∀ a ∈ l, m ≤ ret a) {x : T × α} (hx : x ∈ stamp call m l) : x.1 ≤ ret x.2 := by
  induction l generalizing m with
  | nil => cases hx
  | cons a l ih =>
    obtain ⟨ha, hk⟩ := List.pairwise_cons.mp hk
    rcases List.mem_cons.mp hx with rfl | hx
    · exact max_le (hm a List.mem_cons_self) (ht a List.mem_cons_self)
    · refine ih hk (fun b hb => ht b (List.mem_cons_of_mem _ hb)) (fun b hb => ?_) hx
      exact max_le (hm b (List.mem_cons_of_mem _ hb)) (not_lt.mp (ha b hb))

lemma mem_stamps (hk : KeepsTime call ret l) (ht : ∀ a ∈ l, call a ≤ ret a) {x : T × α}
    (hx : x ∈ stamps call l) : call x.2 ≤ x.1 ∧ x.1 ≤ ret x.2 := by
  cases l with
  | nil => cases hx
  | cons a l =>
    refine ⟨(le_of_mem_stamp hx).2, stamp_le hk ht (fun b hb => ?_) hx⟩
    rcases List.mem_cons.mp hb with rfl | hb
    · exact ht b List.mem_cons_self
    · exact not_lt.mp (List.rel_of_pairwise_cons hk hb)

lemma pairwise_stamps : (stamps call l).Pairwise fun x y => x.1 ≤ y.1 := by
  cases l with
  | nil => exact .nil
  | cons a l => exact pairwise_stamp

/-- **The parts put together.** -/
theorem exists_merge {parts : List (List α)} (hk : ∀ l ∈ parts, KeepsTime call ret l)
    (ht : ∀ l ∈ parts, ∀ a ∈ l, call a ≤ ret a) :
    ∃ l, l.Perm parts.flatten ∧ KeepsTime call ret l ∧ ∀ p ∈ parts, p.Sublist l := by
  have : Std.Total fun x y : T × α => x.1 ≤ y.1 := ⟨fun x y => le_total x.1 y.1⟩
  have : IsTrans (T × α) fun x y => x.1 ≤ y.1 := ⟨fun _ _ _ => le_trans⟩
  set all := (parts.map (stamps call)).flatten with hall
  set sorted := all.insertionSort fun x y => x.1 ≤ y.1 with hsorted
  have hperm : sorted.Perm all := List.perm_insertionSort _ _
  refine ⟨sorted.map Prod.snd, ?_, ?_, ?_⟩
  · refine (hperm.map _).trans ?_
    rw [hall, List.map_flatten, List.map_map]
    refine List.Perm.of_eq (congrArg _ ?_)
    exact (List.map_congr_left fun l _ => map_stamps).trans (List.map_id _)
  · refine List.pairwise_map.mpr ((List.pairwise_insertionSort _ all).imp_of_mem ?_)
    intro x y hx hy hxy hlt
    have hmoment : ∀ z ∈ sorted, call z.2 ≤ z.1 ∧ z.1 ≤ ret z.2 := by
      intro z hz
      obtain ⟨l, hl, hz⟩ := List.mem_flatten.mp (hperm.mem_iff.mp hz)
      obtain ⟨p, hp, rfl⟩ := List.mem_map.mp hl
      exact mem_stamps (hk p hp) (ht p hp) hz
    exact absurd (((hmoment x hx).1.trans hxy).trans (hmoment y hy).2) (not_le.mpr hlt)
  · intro p hp
    have hsub : (stamps call p).Sublist all :=
      List.sublist_flatten_of_mem (List.mem_map_of_mem hp)
    have := (List.sublist_insertionSort pairwise_stamps hsub).map Prod.snd
    rwa [map_stamps] at this

end Mit6824.Merge
