import Mathlib.Data.List.Chain
import Mathlib.Data.List.Nodup
import Mathlib.Logic.Function.Basic
import Mathlib.Tactic.Common

/-!
Doubly linked lists.

A node is taken out by its own links, which stay as they are, so it can be put back by them. What
has been taken out is put back in the opposite order, and then all links are again as they were.
-/

namespace Mit6824.LinkedList

open Function

variable {α : Type*} [DecidableEq α]

/-- The links of the nodes of a heap. -/
@[ext] structure Links (α : Type*) where
  next : α → Option α
  prev : α → Option α

namespace Links

def empty : Links α := ⟨fun _ => none, fun _ => none⟩

def setNext (L : Links α) (x : α) (y : Option α) : Links α := { L with next := update L.next x y }

def setPrev (L : Links α) (x : α) (y : Option α) : Links α := { L with prev := update L.prev x y }

def setBack (L : Links α) (x : α) (y : Option α) : Links α :=
  match L.next x with
  | none => L
  | some z => L.setPrev z y

/-- A node is taken out. There is one before it. -/
def detach (L : Links α) (x : α) : Option (Links α) := do
  let p ← L.prev x
  let L := L.setNext p (L.next x)
  return L.setBack x (L.prev x)

/-- A node is taken out that has nodes before and after it. -/
def detachInner (L : Links α) (x : α) : Option (Links α) := do
  let p ← L.prev x
  let L := L.setNext p (L.next x)
  let n ← L.next x
  return L.setPrev n (L.prev x)

def attach (L : Links α) (x : α) : Option (Links α) := do
  let p ← L.prev x
  let L := L.setNext p (some x)
  return L.setBack x (some x)

def attachInner (L : Links α) (x : α) : Option (Links α) := do
  let p ← L.prev x
  let L := L.setNext p (some x)
  let n ← L.next x
  return L.setPrev n (some x)

end Links

variable {L : Links α} {l l₁ l₂ : List α} {x p : α}

/-- The nodes are linked in this order, and the last has no next one. -/
structure Linked (L : Links α) (l : List α) : Prop where
  nodup : l.Nodup
  chain : l.IsChain fun x y => L.next x = some y ∧ L.prev y = some x
  last : ∀ x, l.getLast? = some x → L.next x = none

omit [DecidableEq α] in
lemma Linked.next_eq (l₁ : List α) (h : Linked L (l₁ ++ x :: l₂)) : L.next x = l₂.head? := by
  cases l₂ with
  | nil => exact h.last x (by simp)
  | cons y l₂ => exact (List.isChain_append_cons_cons.mp h.chain).2.1.1

/-- The links after the node between `p` and `o` has been taken out. -/
def Links.skip (L : Links α) (p : α) (o : Option α) : Links α :=
  match o with
  | none => L.setNext p none
  | some y => (L.setNext p (some y)).setPrev y (some p)

@[simp] lemma skip_next (p : α) (o : Option α) : (L.skip p o).next = update L.next p o := by
  cases o <;> rfl

lemma skip_prev_self (p y : α) : (L.skip p (some y)).prev y = some p := update_self ..

lemma skip_prev_of_ne {o : Option α} {y : α} (h : o ≠ some y) :
    (L.skip p o).prev y = L.prev y := by
  cases o with
  | none => rfl
  | some z => exact update_of_ne (fun hz => h (by rw [hz])) ..

omit [DecidableEq α] in
lemma Linked.split (h : Linked L (l₁ ++ p :: x :: l₂)) :
    L.next p = some x ∧ L.prev x = some p ∧ L.next x = l₂.head? ∧
      ∀ y, l₂.head? = some y → L.prev y = some x := by
  obtain ⟨-, ⟨hpx, hxp⟩, hx⟩ := List.isChain_append_cons_cons.mp h.chain
  refine ⟨hpx, hxp, Linked.next_eq (l₁ ++ [p]) (by simpa using h), fun y hy => ?_⟩
  exact ((List.isChain_cons.mp hx).1 y hy).2

omit [DecidableEq α] in
lemma Linked.ne (h : Linked L (l₁ ++ p :: x :: l₂)) : x ≠ p := by
  rintro rfl
  simpa using (List.nodup_append.mp h.nodup).2.1

lemma Linked.detach_eq (h : Linked L (l₁ ++ p :: x :: l₂)) :
    L.detach x = some (L.skip p l₂.head?) := by
  obtain ⟨-, hp, hn, -⟩ := h.split
  have hn' : (L.setNext p l₂.head?).next x = l₂.head? := hn ▸ update_of_ne h.ne ..
  have hp' : (L.setNext p l₂.head?).prev x = some p := hp
  rw [Links.detach, hp, hn]
  simp only [Option.bind_eq_bind, Option.bind_some, Links.setBack, hn', hp']
  cases l₂.head? <;> rfl

/-- The links of a node that has been taken out lead back to where it was. -/
lemma Linked.attach_skip (h : Linked L (l₁ ++ p :: x :: l₂)) :
    (L.skip p l₂.head?).attach x = some L := by
  obtain ⟨hpx, hp, hn, hback⟩ := h.split
  have hx₂ : x ∉ l₂ := (List.nodup_cons.mp (List.nodup_cons.mp
    (List.nodup_append.mp h.nodup).2.1).2).1
  have hprev : (L.skip p l₂.head?).prev x = some p := by
    rw [skip_prev_of_ne fun hx => hx₂ (List.mem_of_mem_head? hx), hp]
  have hnext : update (update L.next p l₂.head?) p (some x) = L.next := by
    rw [update_idem, ← hpx, update_eq_self]
  rw [Links.attach, hprev]
  simp only [Option.bind_eq_bind, Option.bind_some, Links.setBack, Links.setNext, skip_next, hnext,
    hn]
  cases hy : l₂.head? with
  | none => rfl
  | some y =>
    have hy' : update (update L.prev y (some p)) y (some x) = L.prev := by
      rw [update_idem, ← hback y hy, update_eq_self]
    exact congrArg some (Links.ext rfl hy')

lemma Linked.detachInner_eq {y : α} (h : Linked L (l₁ ++ p :: x :: y :: l₂)) :
    L.detachInner x = some (L.skip p (some y)) := by
  obtain ⟨-, hp, hn, -⟩ := h.split
  have hn' : (L.setNext p (some y)).next x = some y :=
    (update_of_ne h.ne ..).trans hn
  have hp' : (L.setNext p (some y)).prev x = some p := hp
  rw [Links.detachInner, hp, hn]
  simp only [Option.bind_eq_bind, Option.bind_some, List.head?_cons, hn', hp']
  rfl

lemma Linked.attachInner_skip {y : α} (h : Linked L (l₁ ++ p :: x :: y :: l₂)) :
    (L.skip p (some y)).attachInner x = some L := by
  obtain ⟨hpx, hp, hn, hback⟩ := h.split
  have hprev : (L.skip p (some y)).prev x = some p := by
    refine (skip_prev_of_ne fun hx => ?_).trans hp
    have hxy := (List.nodup_cons.mp (List.nodup_append.mp h.nodup).2.1).2
    simp [Option.some.inj hx] at hxy
  have hnext : update (update L.next p (some y)) p (some x) = L.next := by
    rw [update_idem, ← hpx, update_eq_self]
  have hprev' : update (update L.prev y (some p)) y (some x) = L.prev := by
    rw [update_idem, ← hback y rfl, update_eq_self]
  rw [Links.attachInner, hprev]
  simp only [Option.bind_eq_bind, Option.bind_some, Links.setNext, skip_next, hnext, hn,
    List.head?_cons]
  exact congrArg some (Links.ext rfl hprev')

lemma Linked.skip (h : Linked L (l₁ ++ p :: x :: l₂)) :
    Linked (L.skip p l₂.head?) (l₁ ++ p :: l₂) := by
  obtain ⟨hnd, hch, hlast⟩ := h
  obtain ⟨h₁, h₂, hlink⟩ := List.isChain_append.mp hch
  have hnd' : (l₁ ++ p :: l₂).Nodup := hnd.sublist (by simp)
  obtain ⟨-, hnd₂, hdis⟩ := List.nodup_append.mp hnd'
  obtain ⟨hp₂, hnd₂⟩ := List.nodup_cons.mp hnd₂
  have hnext : ∀ u, u ≠ p → (L.skip p l₂.head?).next u = L.next u := by
    intro u hu
    rw [skip_next, update_of_ne hu]
  have hprev : ∀ u, u ∉ l₂ ∨ u ∈ l₂.tail → (L.skip p l₂.head?).prev u = L.prev u := by
    intro u hu
    refine skip_prev_of_ne fun hhead => ?_
    obtain ⟨t, rfl⟩ := List.head?_eq_some_iff.mp hhead
    rcases hu with hu | hu
    · exact hu List.mem_cons_self
    · exact (List.nodup_cons.mp hnd₂).1 hu
  have hl₁ : ∀ u ∈ l₁, u ≠ p ∧ u ∉ l₂ := fun u hu =>
    ⟨hdis u hu p List.mem_cons_self, fun hu' => hdis u hu u (List.mem_cons_of_mem _ hu') rfl⟩
  refine ⟨hnd', List.isChain_append.mpr ⟨?_, List.isChain_cons.mpr ⟨?_, ?_⟩, ?_⟩, ?_⟩
  · refine h₁.imp_of_mem_imp fun u v hu hv huv => ?_
    rwa [hnext u (hl₁ u hu).1, hprev v (.inl (hl₁ v hv).2)]
  · intro y hy
    rw [skip_next, update_self, hy]
    exact ⟨rfl, skip_prev_self p y⟩
  · refine h₂.tail.tail.imp_of_mem_tail_imp fun u v hu hv huv => ?_
    rwa [hnext u (fun hup => hp₂ (hup ▸ hu)), hprev v (.inr hv)]
  · intro u hu v hv
    obtain rfl : p = v := Option.some.inj hv
    rw [hnext u (hl₁ u (List.mem_of_mem_getLast? hu)).1, hprev p (.inl hp₂)]
    exact hlink u hu p rfl
  · intro u hu
    cases l₂ with
    | nil =>
      obtain rfl : p = u := by simpa using hu
      simp
    | cons y t =>
      have hmem : u ∈ y :: t := List.mem_of_mem_getLast? (by simpa using hu)
      rw [hnext u fun hup => hp₂ (hup ▸ hmem)]
      exact hlast u (by simpa using hu)

/-- **Taking out and putting back.** -/
theorem Linked.detach (h : Linked L (p :: (l₁ ++ x :: l₂))) :
    ∃ L', L.detach x = some L' ∧ Linked L' (p :: (l₁ ++ l₂)) ∧ L'.attach x = some L ∧
      (l₂ ≠ [] → L.detachInner x = some L' ∧ L'.attachInner x = some L) := by
  obtain ⟨l₀, q, hq⟩ : ∃ l₀ q, p :: l₁ = l₀ ++ [q] :=
    ⟨_, _, (List.dropLast_append_getLast (List.cons_ne_nil p l₁)).symm⟩
  have hsplit : ∀ l, p :: (l₁ ++ l) = l₀ ++ q :: l := fun l => by
    rw [← List.cons_append, hq, List.append_assoc, List.singleton_append]
  rw [hsplit] at h ⊢
  refine ⟨_, h.detach_eq, h.skip, h.attach_skip, fun hne => ?_⟩
  obtain ⟨y, l₂, rfl⟩ := List.exists_cons_of_ne_nil hne
  exact ⟨h.detachInner_eq, h.attachInner_skip⟩

lemma Linked.cons {y : α} (h : Linked L (y :: l)) (hx : x ∉ y :: l) :
    Linked ((L.setPrev y (some x)).setNext x (some y)) (x :: y :: l) := by
  obtain ⟨hnd, hch, hlast⟩ := h
  have hnext : ∀ u ∈ y :: l, update L.next x (some y) u = L.next u := fun u hu =>
    update_of_ne (fun hux : u = x => hx (hux ▸ hu)) ..
  refine ⟨List.nodup_cons.mpr ⟨hx, hnd⟩, List.isChain_cons_cons.mpr ⟨⟨?_, ?_⟩, ?_⟩, fun u hu => ?_⟩
  · exact update_self ..
  · exact update_self ..
  · refine hch.imp_of_mem_tail_imp fun u v hu hv huv => ⟨?_, ?_⟩
    · exact (hnext u hu).trans huv.1
    · exact (update_of_ne (fun hvy : v = y => (List.nodup_cons.mp hnd).1 (hvy ▸ hv)) ..).trans
        huv.2
  · rw [List.getLast?_cons_cons] at hu
    exact (hnext u (List.mem_of_mem_getLast? hu)).trans (hlast u hu)

end Mit6824.LinkedList
