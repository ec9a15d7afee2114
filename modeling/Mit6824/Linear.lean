import Mathlib.Data.List.Pairwise
import Mathlib.Tactic.Common

/-!
Linearizability of a history of calls with respect to a sequential object.

A history lists invocations and returns in the order of time. A linearization is a sequence of
calls with their results that the object could give one after the other: it holds every call
that has returned, with the result it returned, it may hold calls that have not returned yet,
and it keeps the order of calls of which one returned before the other was invoked.
-/

namespace Mit6824.Linear

variable {I Op R σ : Type*}

inductive Event (I Op R : Type*)
  | inv (i : I) (op : Op)
  | ret (i : I) (r : R)
  deriving DecidableEq

/-- A sequential object. -/
structure Spec (σ Op R : Type*) where
  init : σ
  next : σ → Op → σ
  result : σ → Op → R

/-- A call with its result. -/
structure Done (I Op R : Type*) where
  id : I
  op : Op
  result : R

variable (spec : Spec σ Op R)

/-- The state after the calls. -/
def after (s : σ) (l : List (Done I Op R)) : σ := l.foldl (fun s x => spec.next s x.op) s

/-- The results are those the object gives, one call after the other. -/
def Legal : σ → List (Done I Op R) → Prop
  | _, [] => True
  | s, x :: l => x.result = spec.result s x.op ∧ Legal (spec.next s x.op) l

/-- The first call returned before the second was invoked. -/
def Precedes (h : List (Event I Op R)) (i j : I) : Prop :=
  ∃ a r b op c, h = a ++ .ret i r :: (b ++ .inv j op :: c)

structure Linearization (h : List (Event I Op R)) (lin : List (Done I Op R)) : Prop where
  nodup : (lin.map Done.id).Nodup
  invoked : ∀ x ∈ lin, .inv x.id x.op ∈ h
  returned : ∀ i r, .ret i r ∈ h → ∃ x ∈ lin, x.id = i ∧ x.result = r
  legal : Legal spec spec.init lin
  order : lin.Pairwise fun x y => ¬ Precedes h y.id x.id

def Linearizable (h : List (Event I Op R)) : Prop := ∃ lin, Linearization spec h lin

variable {spec}

@[simp] lemma after_nil (s : σ) : after spec s ([] : List (Done I Op R)) = s := rfl

lemma after_append (s : σ) (l m : List (Done I Op R)) :
    after spec s (l ++ m) = after spec (after spec s l) m := by
  unfold after
  rw [List.foldl_append]

lemma legal_append {s : σ} {l m : List (Done I Op R)} :
    Legal spec s (l ++ m) ↔ Legal spec s l ∧ Legal spec (after spec s l) m := by
  induction l generalizing s with
  | nil => simp [Legal]
  | cons x l ih =>
    rw [List.cons_append, Legal, Legal, ih, and_assoc]
    rfl

/-- Calls that leave the state alone are legal in any order. -/
lemma legal_of_reads {s : σ} {l : List (Done I Op R)} (hread : ∀ x ∈ l, spec.next s x.op = s)
    (hres : ∀ x ∈ l, x.result = spec.result s x.op) :
    Legal spec s l ∧ after spec s l = s := by
  induction l with
  | nil => exact ⟨trivial, rfl⟩
  | cons x l ih =>
    obtain ⟨hl, ha⟩ := ih (fun y hy => hread y (List.mem_cons_of_mem _ hy))
      (fun y hy => hres y (List.mem_cons_of_mem _ hy))
    have hx := hread x List.mem_cons_self
    refine ⟨⟨hres x List.mem_cons_self, ?_⟩, ?_⟩
    · rw [hx]; exact hl
    · show after spec (spec.next s x.op) l = s
      rw [hx]; exact ha

/-- **The rule of ranks.** A sequence of calls that is sorted by ranks keeps the order of time if
a call that precedes another has the lower rank. -/
theorem order_of_rank {h : List (Event I Op R)} {ranked : List (Done I Op R × ℕ)}
    (hsort : ranked.Pairwise fun x y => x.2 ≤ y.2)
    (hrank : ∀ x ∈ ranked, ∀ y ∈ ranked, Precedes h x.1.id y.1.id → x.2 < y.2) :
    (ranked.map Prod.fst).Pairwise fun x y => ¬ Precedes h y.id x.id := by
  refine List.pairwise_map.mpr (hsort.imp_of_mem ?_)
  intro x y hx hy hle hp
  exact absurd (hrank y hy x hx hp) (Nat.not_lt.mpr hle)

end Mit6824.Linear
