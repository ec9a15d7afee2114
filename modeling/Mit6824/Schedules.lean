import Mathlib.Data.List.Nodup
import Mathlib.Data.List.Perm.Basic
import Mathlib.Tactic.Common

/-!
Orders of operations that overlap in time.

A record lists the calls and the returns of operations in the order of time. An operation may be
taken as the next one if no other operation that is left has returned before it was called, that
is if it is called before the first return of those that are left. The sequences that come of it
are those that keep the order of operations of which one returned before the other was called.
-/

namespace Mit6824.Schedules

variable {I : Type*}

inductive Mark (I : Type*)
  | call (i : I)
  | ret (i : I)
  deriving DecidableEq

def Mark.id : Mark I → I
  | call i => i
  | ret i => i

@[simp] lemma id_call (i : I) : (Mark.call i).id = i := rfl
@[simp] lemma id_ret (i : I) : (Mark.ret i).id = i := rfl

def opened : List (Mark I) → List I
  | .call i :: h => i :: opened h
  | _ => []

/-- The first returned before the second was called. -/
def Before (h : List (Mark I)) (i j : I) : Prop := [Mark.ret i, Mark.call j].Sublist h

/-- Every operation is called, and then returns. -/
structure Paired (h : List (Mark I)) : Prop where
  nodup : h.Nodup
  returns : ∀ i, .call i ∈ h ↔ .ret i ∈ h
  forth : ∀ i, ¬ Before h i i

variable [DecidableEq I]

/-- The record of the other operations. -/
def without (h : List (Mark I)) (i : I) : List (Mark I) := h.filter fun m => m.id ≠ i

/-- The operations are taken one after the other. -/
inductive Schedule : List (Mark I) → List I → Prop
  | nil (h : List (Mark I)) : Schedule h []
  | cons {h : List (Mark I)} {i : I} {l : List I} (hi : i ∈ opened h)
      (hl : Schedule (without h i) l) : Schedule h (i :: l)

variable {h : List (Mark I)} {i j : I} {l : List I}

omit [DecidableEq I] in
lemma call_mem_of_mem_opened (hi : i ∈ opened h) : .call i ∈ h := by
  induction h with
  | nil => cases hi
  | cons m h ih =>
    cases m with
    | call k =>
      rcases List.mem_cons.mp hi with rfl | hi
      · exact List.mem_cons_self
      · exact List.mem_cons_of_mem _ (ih hi)
    | ret k => cases hi

omit [DecidableEq I] in
lemma before_cons_call {k : I} : Before (.call k :: h) i j ↔ Before h i j := by
  constructor
  · intro hb
    cases hb with
    | cons _ hb => exact hb
  · exact fun hb => hb.cons _

omit [DecidableEq I] in
lemma Before.ret_mem (hb : Before h i j) : .ret i ∈ h := hb.mem (by simp)

omit [DecidableEq I] in
lemma Before.call_mem (hb : Before h i j) : .call j ∈ h := hb.mem (by simp)

omit [DecidableEq I] in
lemma mem_opened_iff (hnd : h.Nodup) : i ∈ opened h ↔ .call i ∈ h ∧ ∀ j, ¬ Before h j i := by
  induction h with
  | nil => simp [opened]
  | cons m h ih =>
    obtain ⟨hm, hnd'⟩ := List.nodup_cons.mp hnd
    cases m with
    | call k =>
      simp only [opened, List.mem_cons, before_cons_call, ih hnd', Mark.call.injEq]
      constructor
      · rintro (rfl | ⟨hi, hno⟩)
        · exact ⟨.inl rfl, fun j hj => hm hj.call_mem⟩
        · exact ⟨.inr hi, hno⟩
      · rintro ⟨rfl | hi, hno⟩
        · exact .inl rfl
        · exact .inr ⟨hi, hno⟩
    | ret k =>
      simp only [opened, List.not_mem_nil, false_iff, not_and, not_forall, not_not]
      intro hi
      have hi : Mark.call i ∈ h := by simpa using hi
      exact ⟨k, List.cons_sublist_cons.mpr (List.singleton_sublist.mpr hi)⟩

omit [DecidableEq I] in
lemma mem_opened_append {h₂ : List (Mark I)} (hcalls : ∀ m ∈ h, ∃ j, m = .call j) :
    i ∈ opened (h ++ .call i :: h₂) := by
  induction h with
  | nil => exact List.mem_cons_self
  | cons m h ih =>
    obtain ⟨j, rfl⟩ := hcalls m List.mem_cons_self
    exact List.mem_cons_of_mem _ (ih fun m hm => hcalls m (List.mem_cons_of_mem _ hm))

omit [DecidableEq I] in
lemma mem_of_mem_opened_append {h₂ : List (Mark I)} (hi : i ∈ opened (h ++ .ret j :: h₂)) :
    .call i ∈ h := by
  induction h with
  | nil => cases hi
  | cons m h ih =>
    cases m with
    | call k =>
      rcases List.mem_cons.mp hi with rfl | hi
      · exact List.mem_cons_self
      · exact List.mem_cons_of_mem _ (ih hi)
    | ret k => cases hi

/-! ### The other operations -/

lemma mem_without {m : Mark I} : m ∈ without h i ↔ m ∈ h ∧ m.id ≠ i := by
  simp [without]

lemma before_without {k : I} : Before (without h k) i j ↔ Before h i j ∧ i ≠ k ∧ j ≠ k := by
  constructor
  · intro hb
    exact ⟨hb.trans List.filter_sublist, (mem_without.mp hb.ret_mem).2,
      (mem_without.mp hb.call_mem).2⟩
  · rintro ⟨hb, hi, hj⟩
    have := hb.filter fun m => m.id ≠ k
    simpa [Before, without, Mark.id, hi, hj] using this

lemma Paired.without (hp : Paired h) (i : I) : Paired (without h i) where
  nodup := hp.nodup.filter _
  returns := fun j => by
    rw [mem_without, mem_without, hp.returns j]
    rfl
  forth := fun j hb => hp.forth j (before_without.mp hb).1

lemma Schedule.append {l' : List I} (hl : Schedule h l)
    (hl' : Schedule (h.filter fun m => m.id ∉ l) l') : Schedule h (l ++ l') := by
  induction hl with
  | nil h => simpa using hl'
  | @cons h i l hi hl ih =>
    refine .cons hi (ih ?_)
    rw [Schedules.without, List.filter_filter]
    simpa [Bool.and_comm] using hl'

/-! ### What the schedules are -/

/-- **Schedules keep the order of time**, and all sequences that do are schedules: what has
returned before an operation is called has been taken before it. -/
theorem schedule_iff (hp : Paired h) : Schedule h l ↔ l.Nodup ∧ (∀ i ∈ l, .call i ∈ h) ∧
    ∀ l₁ i l₂, l = l₁ ++ i :: l₂ → ∀ j, Before h j i → j ∈ l₁ := by
  constructor
  · intro hs
    induction hs with
    | nil h => simp
    | @cons h i l hi hs ih =>
      obtain ⟨hnd, hmem, hbefore⟩ := ih (hp.without i)
      obtain ⟨hcall, hno⟩ := (mem_opened_iff hp.nodup).mp hi
      have hil : i ∉ l := fun hil => (mem_without.mp (hmem i hil)).2 rfl
      refine ⟨List.nodup_cons.mpr ⟨hil, hnd⟩, ?_, ?_⟩
      · intro k hk
        rcases List.mem_cons.mp hk with rfl | hk
        · exact hcall
        · exact (mem_without.mp (hmem k hk)).1
      · intro l₁ k l₂ hl j hb
        cases l₁ with
        | nil =>
          obtain ⟨rfl, -⟩ := List.cons.inj hl
          exact absurd hb (hno j)
        | cons i' l₁ =>
          obtain ⟨rfl, rfl⟩ := List.cons.inj hl
          by_cases hji : j = i
          · exact hji ▸ List.mem_cons_self
          · have hki : k ≠ i := fun hki => hil (by simp [hki])
            exact List.mem_cons_of_mem _ (hbefore l₁ k l₂ rfl j (before_without.mpr ⟨hb, hji, hki⟩))
  · rintro ⟨hnd, hmem, hbefore⟩
    induction l generalizing h with
    | nil => exact .nil h
    | cons i l ih =>
      obtain ⟨hil, hnd⟩ := List.nodup_cons.mp hnd
      have hopen : i ∈ opened h := by
        refine (mem_opened_iff hp.nodup).mpr ⟨hmem i List.mem_cons_self, fun j hb => ?_⟩
        exact List.not_mem_nil (hbefore [] i l rfl j hb)
      refine .cons hopen (ih (hp.without i) hnd ?_ ?_)
      · intro k hk
        exact mem_without.mpr ⟨hmem k (List.mem_cons_of_mem _ hk), fun hki => hil (hki ▸ hk)⟩
      · rintro l₁ k l₂ rfl j hb
        obtain ⟨hb, hj, -⟩ := before_without.mp hb
        exact (List.mem_cons.mp (hbefore (i :: l₁) k l₂ rfl j hb)).resolve_left hj

/-- The schedules of all operations. -/
theorem schedule_iff_pairwise (hp : Paired h) (hnd : l.Nodup) (hl : ∀ i, .call i ∈ h ↔ i ∈ l) :
    Schedule h l ↔ l.Pairwise fun i j => ¬ Before h j i := by
  rw [schedule_iff hp]
  constructor
  · rintro ⟨-, -, hbefore⟩
    refine List.pairwise_iff_forall_sublist.mpr fun {i j} hij hb => ?_
    obtain ⟨r₁, r₂, rfl, hi, hj⟩ := List.cons_sublist_iff.mp hij
    obtain ⟨l₁, l₂, rfl⟩ := List.append_of_mem hi
    have hj₁ := hbefore l₁ i (l₂ ++ r₂) (by simp) j hb
    exact (List.nodup_append.mp hnd).2.2 j (by simp [hj₁]) j (List.singleton_sublist.mp hj) rfl
  · intro hpw
    refine ⟨hnd, fun i hi => (hl i).mpr hi, ?_⟩
    rintro l₁ i l₂ rfl j hb
    have hj := (hl j).mp ((hp.returns j).mpr hb.ret_mem)
    rcases List.mem_append.mp hj with hj | hj
    · exact hj
    · rcases List.mem_cons.mp hj with rfl | hj
      · exact absurd hb (hp.forth j)
      · have := (List.pairwise_append.mp hpw).2.1
        exact absurd hb (List.rel_of_pairwise_cons this hj)

end Mit6824.Schedules
