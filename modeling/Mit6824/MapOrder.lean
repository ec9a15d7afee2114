import Mathlib.Control.Lawful
import Mit6824.GoData

/-!
Programs that range over maps.

A range over a map visits the keys in an order that the program does not choose, each time anew.
Here a program is given the orders that its ranges take, and what it does is what it does under
all of them. It may stop early: it panics, or is still in a loop when the iterations that it was
given are used up.
-/

namespace Mit6824.MapOrder

open Mit6824.GoData

/-- An order to visit keys in. -/
structure Order (K : Type) where
  visit : Finset K → List K
  visits : ∀ s, (visit s : Multiset K) = s.val

/-- Why a program has not come to its end. -/
inductive Stop
  | panicked
  | running
  deriving DecidableEq, Repr

abbrev Prog (K : Type) := ExceptT Stop (StateM (ℕ → Order K))

variable {K V α β : Type}

/-- The keys of the map, in the next order. -/
def range (m : GoMap K V) : Prog K (List K) := do
  let orders ← get
  set fun n => orders (n + 1)
  return (orders 0).visit m.keys

namespace Prog

/-- How the program ends. -/
def outcome (x : Prog K α) (orders : ℕ → Order K) : Except Stop α := (x.run.run orders).1

def left (x : Prog K α) (orders : ℕ → Order K) : ℕ → Order K := (x.run.run orders).2

variable {x : Prog K α} {f : α → Prog K β} {orders : ℕ → Order K}

lemma outcome_bind_ok {a : α} (h : x.outcome orders = .ok a) :
    (x >>= f).outcome orders = (f a).outcome (x.left orders) := by
  unfold outcome left at *
  rw [ExceptT.run_bind, StateT.run_bind]
  simp only [bind, h]

lemma outcome_bind_error {e : Stop} (h : x.outcome orders = .error e) :
    (x >>= f).outcome orders = .error e := by
  unfold outcome at *
  rw [ExceptT.run_bind, StateT.run_bind]
  simp only [bind, h]
  rfl

lemma outcome_bind_eq_ok {b : β} (h : (x >>= f).outcome orders = .ok b) :
    ∃ a, x.outcome orders = .ok a ∧ (f a).outcome (x.left orders) = .ok b := by
  cases hx : x.outcome orders with
  | ok a => exact ⟨a, rfl, by rwa [outcome_bind_ok hx] at h⟩
  | error e =>
    rw [outcome_bind_error hx] at h
    cases h

/-- A program that ends with a value worked out of its last result. -/
lemma outcome_bind_pure {g : α → β} :
    (x >>= fun a => pure (g a)).outcome orders = (x.outcome orders).map g := by
  cases hx : x.outcome orders with
  | ok a => exact outcome_bind_ok hx
  | error e => exact outcome_bind_error hx

end Prog

open Prog

/-! ### What every execution ends in -/

/-- Every execution comes to an end, with a value that has the property. -/
def Ensures (x : Prog K α) (P : α → Prop) : Prop :=
  ∀ orders, ∃ a, x.outcome orders = .ok a ∧ P a

section

variable {x : Prog K α} {f : α → Prog K β} {P P' : α → Prop} {Q : β → Prop}

lemma Ensures.pure {a : α} (h : P a) : Ensures (pure a : Prog K α) P := fun _ => ⟨a, rfl, h⟩

lemma Ensures.mono (h : Ensures x P) (himp : ∀ a, P a → P' a) : Ensures x P' := fun orders =>
  let ⟨a, ha, hP⟩ := h orders
  ⟨a, ha, himp a hP⟩

lemma Ensures.bind (h : Ensures x P) (hf : ∀ a, P a → Ensures (f a) Q) : Ensures (x >>= f) Q := by
  intro orders
  obtain ⟨a, ha, hP⟩ := h orders
  rw [outcome_bind_ok ha]
  exact hf a hP _

lemma ensures_range [DecidableEq K] (m : GoMap K V) :
    Ensures (range m) fun l => l.Nodup ∧ ∀ k, k ∈ l ↔ k ∈ m := by
  intro orders
  have hv := (orders 0).visits m.keys
  refine ⟨(orders 0).visit m.keys, rfl, ?_, fun k => ?_⟩
  · rw [← Multiset.coe_nodup, hv]
    exact m.keys.nodup
  · rw [← Multiset.mem_coe, hv, Finset.mem_val, Finmap.mem_keys]

/-- **Loops.** The invariant is about the part of the list that has been visited; a loop that is
left early owes the postcondition at once. -/
lemma Ensures.forIn {l : List α} {b : β} {g : α → β → Prog K (ForInStep β)}
    {I : List α → β → Prop} (h₀ : I [] b)
    (hstep : ∀ p a q b, l = p ++ a :: q → I p b → Ensures (g a b) fun
      | .yield b' => I (p ++ [a]) b'
      | .done b' => Q b')
    (hend : ∀ b, I l b → Q b) : Ensures (forIn l b g) Q := by
  suffices H : ∀ q p b, l = p ++ q → I p b → Ensures (ForIn.forIn q b g) Q from H l [] b rfl h₀
  intro q
  induction q with
  | nil =>
    intro p b hl hI
    rw [List.append_nil] at hl
    rw [List.forIn_nil]
    exact .pure (hend b (hl ▸ hI))
  | cons a q ih =>
    intro p b hl hI
    rw [List.forIn_cons]
    refine (hstep p a q b hl hI).bind fun r hr => ?_
    cases r with
    | done b' => exact .pure hr
    | yield b' => exact ih (p ++ [a]) b' (by simp [hl]) hr

lemma Ensures.forIn_range {n : ℕ} {b : β} {g : ℕ → β → Prog K (ForInStep β)} {I : ℕ → β → Prop}
    (h₀ : I 0 b)
    (hstep : ∀ i b, i < n → I i b → Ensures (g i b) fun
      | .yield b' => I (i + 1) b'
      | .done b' => Q b')
    (hend : ∀ b, I n b → Q b) : Ensures (ForIn.forIn (List.range n) b g) Q := by
  refine Ensures.forIn (I := fun p b => I p.length b) h₀ (fun p i q b hl hI => ?_) fun b hI =>
    hend b (by rwa [List.length_range] at hI)
  have hlen : p.length < (List.range n).length := by
    rw [hl]
    simp
  have hi : i = p.length := by
    have hget : (List.range n)[p.length]? = some i := by rw [hl]; simp
    rw [List.getElem?_range (by simpa using hlen)] at hget
    exact (Option.some.inj hget).symm
  subst hi
  refine (hstep p.length b (by simpa using hlen) hI).mono fun r hr => ?_
  cases r with
  | done b' => exact hr
  | yield b' => simpa using hr

end

/-! ### Ends -/

/-- No execution is still in a loop when its iterations are used up. -/
def Ends (x : Prog K α) : Prop := ∀ orders, x.outcome orders ≠ .error .running

section

variable {x : Prog K α} {f : α → Prog K β} {P : α → Prop}

lemma Ends.pure (a : α) : Ends (pure a : Prog K α) := fun _ h => nomatch h

lemma Ends.panicked : Ends (throw .panicked : Prog K α) := fun _ h => nomatch h

lemma Ensures.ends (h : Ensures x P) : Ends x := by
  intro orders hrun
  obtain ⟨a, ha, -⟩ := h orders
  rw [ha] at hrun
  cases hrun

lemma Ends.bind (h : Ends x) (hf : ∀ a, Ends (f a)) : Ends (x >>= f) := by
  intro orders hrun
  cases hx : x.outcome orders with
  | ok a =>
    rw [outcome_bind_ok hx] at hrun
    exact hf a _ hrun
  | error e =>
    rw [outcome_bind_error hx] at hrun
    obtain rfl := Except.error.inj hrun
    exact h orders hx

/-- A loop over a list ends if its body does. -/
lemma Ends.forIn {l : List α} {b : β} {g : α → β → Prog K (ForInStep β)}
    (hg : ∀ a b, Ends (g a b)) : Ends (forIn l b g) := by
  induction l generalizing b with
  | nil =>
    rw [List.forIn_nil]
    exact .pure b
  | cons a l ih =>
    rw [List.forIn_cons]
    refine (hg a b).bind fun r => ?_
    cases r with
    | done b' => exact .pure b'
    | yield b' => exact ih

end

/-! ### Determinism -/

/-- All executions end alike. -/
def Det (x : Prog K α) : Prop := ∀ orders orders', x.outcome orders = x.outcome orders'

section

variable {x : Prog K α} {f : α → Prog K β} {P : α → Prop}

lemma Det.pure (a : α) : Det (pure a : Prog K α) := fun _ _ => rfl

lemma Det.throw (e : Stop) : Det (throw e : Prog K α) := fun _ _ => rfl

lemma Det.of_ensures (h : Ensures x P) (huniq : ∀ a a', P a → P a' → a = a') : Det x := by
  intro orders orders'
  obtain ⟨a, ha, hP⟩ := h orders
  obtain ⟨a', ha', hP'⟩ := h orders'
  rw [ha, ha', huniq a a' hP hP']

lemma Det.bind (h : Det x) (hf : ∀ a, Det (f a)) : Det (x >>= f) := by
  intro orders orders'
  cases hx : x.outcome orders with
  | ok a => rw [outcome_bind_ok hx, outcome_bind_ok ((h orders' orders).trans hx), hf a]
  | error e => rw [outcome_bind_error hx, outcome_bind_error ((h orders' orders).trans hx)]

lemma Det.forIn {l : List α} {b : β} {g : α → β → Prog K (ForInStep β)}
    (hg : ∀ a b, Det (g a b)) : Det (forIn l b g) := by
  induction l generalizing b with
  | nil =>
    rw [List.forIn_nil]
    exact .pure b
  | cons a l ih =>
    rw [List.forIn_cons]
    refine (hg a b).bind fun r => ?_
    cases r with
    | done b' => exact .pure b'
    | yield b' => exact ih

end

/-! ### More iterations -/

/-- The second program, which is given more iterations, ends as the first does in every execution
in which that comes to its end. -/
def Extends (x x' : Prog K α) : Prop :=
  ∀ orders orders', x.outcome orders ≠ .error .running → x'.outcome orders' = x.outcome orders

section

variable {x x' : Prog K α} {f f' : α → Prog K β}

lemma Extends.of_det (h : Det x) : Extends x x := fun orders orders' _ => h orders' orders

lemma Extends.det (h : Extends x x) : Det x := by
  intro orders orders'
  by_cases hrun : x.outcome orders = .error .running
  · by_contra hne
    exact hne (h orders' orders fun hrun' => hne (hrun.trans hrun'.symm))
  · exact (h orders orders' hrun).symm

lemma Extends.bind (h : Extends x x') (hf : ∀ a, Extends (f a) (f' a)) :
    Extends (x >>= f) (x' >>= f') := by
  intro orders orders' hne
  cases hx : x.outcome orders with
  | ok a =>
    rw [outcome_bind_ok hx] at hne ⊢
    have hx' : x'.outcome orders' = .ok a := (h orders orders' (by rw [hx]; simp)).trans hx
    rw [outcome_bind_ok hx']
    exact hf a _ _ hne
  | error e =>
    rw [outcome_bind_error hx] at hne ⊢
    have hx' : x'.outcome orders' = .error e :=
      (h orders orders' (by rw [hx]; simpa using hne)).trans hx
    exact outcome_bind_error hx'

lemma Extends.forIn {l : List α} {b : β} {g g' : α → β → Prog K (ForInStep β)}
    (hg : ∀ a b, Extends (g a b) (g' a b)) : Extends (forIn l b g) (forIn l b g') := by
  induction l generalizing b with
  | nil =>
    rw [List.forIn_nil, List.forIn_nil]
    exact .of_det (.pure b)
  | cons a l ih =>
    rw [List.forIn_cons, List.forIn_cons]
    refine (hg a b).bind fun r => ?_
    cases r with
    | done b' => exact .of_det (.pure b')
    | yield b' => exact ih

end

def Order.ascending [LinearOrder K] : Order K where
  visit s := Quot.liftOn s.val (fun l => l.insertionSort (· ≤ ·)) fun l l' h =>
    List.Perm.eq_of_pairwise (fun _ _ _ _ => le_antisymm)
      (List.pairwise_insertionSort (· ≤ ·) l) (List.pairwise_insertionSort (· ≤ ·) l')
      ((List.perm_insertionSort _ l).trans (h.trans (List.perm_insertionSort _ l').symm))
  visits s := by
    obtain ⟨m, hm⟩ := s
    induction m using Quot.inductionOn with
    | h l => exact Quot.sound (List.perm_insertionSort _ l)

def Order.reverse (o : Order K) : Order K where
  visit s := (o.visit s).reverse
  visits s := (Multiset.coe_reverse _).trans (o.visits s)

end Mit6824.MapOrder
