import Mit6824.PorcChecker
import Mit6824.Schedules

/-!
What the checker is for, and what its search is given.

A history is linearizable if its operations can be put in an order that the model accepts, and
that keeps the order of operations of which one returned before the other was called. The entries
of the history list the calls and returns in the order of time, and the orders in question are the
schedules of that list.
-/

namespace Mit6824.PorcEntries

open Mit6824.LinkedList Mit6824.Schedules Mit6824.PorcChecker Function

variable {σ ι ο : Type}

/-! ### Linearizability -/

/-- The model accepts the operations, one after the other. -/
def Legal (model : Model σ ι ο) : σ → List (Operation ι ο) → Prop
  | _, [] => True
  | s, op :: l =>
    (model.step s op.input op.output).1 ∧ Legal model (model.step s op.input op.output).2 l

def Linearizable (model : Model σ ι ο) (history : List (Operation ι ο)) : Prop :=
  ∃ lin : List (Operation ι ο), lin.Perm history ∧
    lin.Pairwise (fun a b => ¬ b.ret < a.call) ∧ Legal model model.init lin

/-- No operation returns before it is called. -/
def Timed (history : List (Operation ι ο)) : Prop := ∀ op ∈ history, op.call ≤ op.ret

instance : Decidable (Timed history) :=
  inferInstanceAs (Decidable (∀ op ∈ history, op.call ≤ op.ret))

/-! ### Entries -/

def Entry.mark (e : Entry ι ο) : Mark ℕ :=
  match e.kind with
  | .callEntry => .call e.id
  | .returnEntry => .ret e.id

def callOf (id : ℕ) (op : Operation ι ο) : Entry ι ο :=
  ⟨.callEntry, .inl op.input, id, op.call, op.clientId⟩

def returnOf (id : ℕ) (op : Operation ι ο) : Entry ι ο :=
  ⟨.returnEntry, .inr op.output, id, op.ret, op.clientId⟩

variable {history : List (Operation ι ο)} {sorter : Sorter ι ο} {i j : ℕ}

lemma mem_entriesFrom {k : ℕ} {e : Entry ι ο} : e ∈ entriesFrom k history ↔
    ∃ i op, history[i]? = some op ∧ (e = callOf (k + i) op ∨ e = returnOf (k + i) op) := by
  induction history generalizing k with
  | nil => simp [entriesFrom]
  | cons op history ih =>
    rw [entriesFrom, List.mem_cons, List.mem_cons, ih]
    constructor
    · rintro (rfl | rfl | ⟨i, op', hop, he⟩)
      · exact ⟨0, op, rfl, .inl rfl⟩
      · exact ⟨0, op, rfl, .inr rfl⟩
      · exact ⟨i + 1, op', hop, by rwa [Nat.add_right_comm] at he⟩
    · rintro ⟨i, op', hop, he⟩
      cases i with
      | zero =>
        obtain rfl := Option.some.inj hop
        rcases he with rfl | rfl
        · exact .inl rfl
        · exact .inr (.inl rfl)
      | succ i => exact .inr (.inr ⟨i, op', hop, by rwa [Nat.add_right_comm]⟩)

lemma nodup_entriesFrom (k : ℕ) (history : List (Operation ι ο)) :
    ((entriesFrom k history).map Entry.mark).Nodup := by
  induction history generalizing k with
  | nil => exact List.nodup_nil
  | cons op history ih =>
    have hid : ∀ m ∈ (entriesFrom (k + 1) history).map Entry.mark, m.id ≠ k := by
      intro m hm
      obtain ⟨e, he, rfl⟩ := List.mem_map.mp hm
      obtain ⟨i, op', -, rfl | rfl⟩ := mem_entriesFrom.mp he
      · show k + 1 + i ≠ k
        omega
      · show k + 1 + i ≠ k
        omega
    refine List.nodup_cons.mpr ⟨?_, List.nodup_cons.mpr ⟨fun h => hid _ h rfl, ih (k + 1)⟩⟩
    rintro (_ | ⟨_, h⟩)
    exact hid _ h rfl

lemma mem_makeEntries {e : Entry ι ο} : e ∈ makeEntries sorter history ↔
    ∃ i op, history[i]? = some op ∧ (e = callOf i op ∨ e = returnOf i op) := by
  rw [makeEntries, (sorter.perm _).mem_iff, mem_entriesFrom]
  simp

lemma nodup_makeEntries : ((makeEntries sorter history).map Entry.mark).Nodup :=
  ((sorter.perm _).map _).nodup_iff.mpr (nodup_entriesFrom 0 history)

/-- The calls and returns of the history, in the order of its entries. -/
def marks (sorter : Sorter ι ο) (history : List (Operation ι ο)) : List (Mark ℕ) :=
  (makeEntries sorter history).map Entry.mark

lemma call_mem_marks : .call i ∈ marks sorter history ↔ i < history.length := by
  rw [marks, List.mem_map]
  constructor
  · rintro ⟨e, he, hm⟩
    obtain ⟨j, op, hop, rfl | rfl⟩ := mem_makeEntries.mp he
    · obtain rfl : j = i := Mark.call.inj hm
      exact (List.getElem?_eq_some_iff.mp hop).1
    · cases hm
  · intro hi
    exact ⟨_, mem_makeEntries.mpr ⟨i, _, List.getElem?_eq_getElem hi, .inl rfl⟩, rfl⟩

lemma ret_mem_marks : .ret i ∈ marks sorter history ↔ i < history.length := by
  rw [marks, List.mem_map]
  constructor
  · rintro ⟨e, he, hm⟩
    obtain ⟨j, op, hop, rfl | rfl⟩ := mem_makeEntries.mp he
    · cases hm
    · obtain rfl : j = i := Mark.ret.inj hm
      exact (List.getElem?_eq_some_iff.mp hop).1
  · intro hi
    exact ⟨_, mem_makeEntries.mpr ⟨i, _, List.getElem?_eq_getElem hi, .inr rfl⟩, rfl⟩

/-- Two members of a list are in one of the two orders. -/
lemma pair_sublist_or {α : Type*} {l : List α} {x y : α} (hx : x ∈ l) (hy : y ∈ l) (hne : x ≠ y) :
    [x, y].Sublist l ∨ [y, x].Sublist l := by
  obtain ⟨l₁, l₂, rfl⟩ := List.append_of_mem hx
  rcases List.mem_append.mp hy with hy | hy
  · exact .inr (List.Sublist.append (List.singleton_sublist.mpr hy)
      (List.singleton_sublist.mpr List.mem_cons_self))
  · have hy : y ∈ l₂ := (List.mem_cons.mp hy).resolve_left hne.symm
    exact .inl ((List.cons_sublist_cons.mpr (List.singleton_sublist.mpr hy)).trans
      (List.sublist_append_right l₁ _))

lemma eq_callOf {e : Entry ι ο} {a : Operation ι ο} (he : e ∈ makeEntries sorter history)
    (hm : Entry.mark e = .call i) (ha : history[i]? = some a) : e = callOf i a := by
  obtain ⟨j, op, hop, rfl | rfl⟩ := mem_makeEntries.mp he
  · obtain rfl : j = i := Mark.call.inj hm
    rw [Option.some.inj (hop.symm.trans ha)]
  · cases hm

lemma eq_returnOf {e : Entry ι ο} {a : Operation ι ο} (he : e ∈ makeEntries sorter history)
    (hm : Entry.mark e = .ret i) (ha : history[i]? = some a) : e = returnOf i a := by
  obtain ⟨j, op, hop, rfl | rfl⟩ := mem_makeEntries.mp he
  · cases hm
  · obtain rfl : j = i := Mark.ret.inj hm
    rw [Option.some.inj (hop.symm.trans ha)]

/-- **The entries tell the order of time**: an operation returns before another is called in the
list just when it does by the clock. -/
lemma before_marks_iff {a b : Operation ι ο} (ha : history[i]? = some a)
    (hb : history[j]? = some b) : Before (marks sorter history) i j ↔ a.ret < b.call := by
  have hsorted : ∀ x y, [x, y].Sublist (makeEntries sorter history) → ¬ less y x :=
    fun x y hxy => List.pairwise_iff_forall_sublist.mp (sorter.sorted (entriesFrom 0 history)) hxy
  constructor
  · intro h
    obtain ⟨l, hl, hmap⟩ := List.sublist_map_iff.mp h
    obtain ⟨x, l', rfl, hx, hmap⟩ := List.map_eq_cons_iff.mp hmap.symm
    obtain ⟨y, l'', rfl, hy, hnil⟩ := List.map_eq_cons_iff.mp hmap
    obtain rfl := List.map_eq_nil_iff.mp hnil
    obtain rfl := eq_returnOf (hl.mem (by simp)) hx ha
    obtain rfl := eq_callOf (hl.mem (by simp)) hy hb
    have hless := hsorted _ _ hl
    by_contra hle
    refine hless ?_
    by_cases heq : b.call = a.ret
    · simp [less, callOf, returnOf, heq]
    · have hlt : b.call < a.ret := by omega
      simp [less, callOf, returnOf, heq, hlt]
  · intro hlt
    have hx : returnOf i a ∈ makeEntries sorter history := mem_makeEntries.mpr ⟨i, a, ha, .inr rfl⟩
    have hy : callOf j b ∈ makeEntries sorter history := mem_makeEntries.mpr ⟨j, b, hb, .inl rfl⟩
    rcases pair_sublist_or hx hy (fun h => by cases h) with hl | hl
    · exact hl.map Entry.mark
    · refine absurd ?_ (hsorted _ _ hl)
      simp [less, callOf, returnOf, hlt.ne, hlt]

lemma paired_marks (sorter : Sorter ι ο) (ht : Timed history) : Paired (marks sorter history) where
  nodup := nodup_makeEntries
  returns := fun i => by rw [call_mem_marks, ret_mem_marks]
  forth := fun i hb => by
    have hi := call_mem_marks.mp hb.call_mem
    have hop := List.getElem?_eq_getElem hi
    exact absurd ((before_marks_iff hop hop).mp hb) (not_lt.mpr (ht _ (List.getElem_mem hi)))

/-! ### Orders of a history, by the numbers of its operations -/

def accepts (model : Model σ ι ο) (history : List (Operation ι ο)) (s : σ) (i : ℕ) : Option σ := do
  let op ← history[i]?
  let (ok, s') := model.step s op.input op.output
  if ok then some s' else none

variable {model : Model σ ι ο} {l : List ℕ} {lin : List (Operation ι ο)}

lemma accepts_eq {s : σ} {op : Operation ι ο} (hop : history[i]? = some op) :
    accepts model history s i =
      if (model.step s op.input op.output).1 then some (model.step s op.input op.output).2
      else none := by
  rw [accepts, hop]
  rfl

lemma exists_of_mem {α β : Type*} {R : α → β → Prop} {l : List α} {m : List β} {a : α}
    (h : List.Forall₂ R l m) (ha : a ∈ l) : ∃ b ∈ m, R a b := by
  induction h with
  | nil => cases ha
  | cons hab _ ih =>
    rcases List.mem_cons.mp ha with rfl | ha
    · exact ⟨_, List.mem_cons_self, hab⟩
    · obtain ⟨b, hb, hR⟩ := ih ha
      exact ⟨b, List.mem_cons_of_mem _ hb, hR⟩

/-- The operations with these numbers. -/
abbrev Numbered (history : List (Operation ι ο)) : List ℕ → List (Operation ι ο) → Prop :=
  List.Forall₂ fun i op => history[i]? = some op

lemma Numbered.legal_iff (h : Numbered history l lin) (s : σ) :
    Legal model s lin ↔ (l.foldlM (accepts model history) s).isSome := by
  induction h generalizing s with
  | nil => simp [Legal]
  | @cons i op l lin hop h ih =>
    rw [List.foldlM_cons, accepts_eq hop, Legal, ih]
    split
    · next hok => simp [hok]
    · next hok => simp [hok]

lemma Numbered.pairwise_iff (h : Numbered history l lin) :
    lin.Pairwise (fun a b => ¬ b.ret < a.call) ↔
      l.Pairwise fun i j => ¬ Before (marks sorter history) j i := by
  induction h with
  | nil => simp
  | @cons i op l lin hop h ih =>
    rw [List.pairwise_cons, List.pairwise_cons, ih]
    refine and_congr ?_ Iff.rfl
    constructor
    · intro hlin j hj hb
      obtain ⟨b, hb', hjb⟩ := exists_of_mem h hj
      exact hlin b hb' ((before_marks_iff hjb hop).mp hb)
    · intro hl b hb hlt
      obtain ⟨j, hj, hjb⟩ := exists_of_mem h.flip hb
      exact hl j hj ((before_marks_iff hjb hop).mpr hlt)

lemma numbered_range : Numbered history (List.range history.length) history := by
  refine List.forall₂_iff_get.mpr ⟨by simp, fun i hi hi' => ?_⟩
  simp

/-- **Linearizability in schedules.** -/
theorem linearizable_iff (sorter : Sorter ι ο) (ht : Timed history) : Linearizable model history ↔
    ∃ l : List ℕ, l.Perm (List.range history.length) ∧ Schedule (marks sorter history) l ∧
      (l.foldlM (accepts model history) model.init).isSome := by
  have hsched : ∀ l, l.Perm (List.range history.length) → (Schedule (marks sorter history) l ↔
      l.Pairwise fun i j => ¬ Before (marks sorter history) j i) := by
    intro l hl
    have hnd := hl.nodup_iff.mpr List.nodup_range
    refine schedule_iff_pairwise (paired_marks sorter ht) hnd fun i => ?_
    rw [call_mem_marks, hl.mem_iff, List.mem_range]
  constructor
  · rintro ⟨lin, hperm, hpw, hlegal⟩
    obtain ⟨l, hl, hn⟩ : ∃ l, l.Perm (List.range history.length) ∧ Numbered history l lin := by
      have hcomp : Relation.Comp (Numbered history) List.Perm (List.range history.length) lin :=
        ⟨history, numbered_range, hperm.symm⟩
      rw [List.forall₂_comp_perm_eq_perm_comp_forall₂] at hcomp
      obtain ⟨l, hl, hn⟩ := hcomp
      exact ⟨l, hl.symm, hn⟩
    exact ⟨l, hl, (hsched l hl).mpr (hn.pairwise_iff.mp hpw), (hn.legal_iff _).mp hlegal⟩
  · rintro ⟨l, hl, hs, hacc⟩
    obtain ⟨lin, hn, hperm⟩ := List.perm_comp_forall₂ hl numbered_range
    have hn : Numbered history l lin := hn
    exact ⟨lin, hperm, hn.pairwise_iff.mpr ((hsched l hl).mp hs), (hn.legal_iff _).mpr hacc⟩

/-! ### The list of nodes -/

lemma linked_insertBefore {L : Links ℕ} {l : List ℕ} {x : ℕ} (h : Linked L l) (hx : x ∉ l)
    (hnext : L.next x = none) (hprev : ∀ y, l.head? = some y → L.prev y = none) :
    Linked (insertBefore L x l.head?) (x :: l) := by
  cases l with
  | nil => exact ⟨List.nodup_singleton x, List.isChain_singleton x, fun y hy => by
      obtain rfl : x = y := Option.some.inj hy
      exact hnext⟩
  | cons y l =>
    simp only [insertBefore, List.head?_cons, hprev y rfl]
    exact h.cons hx

/-- A list that has been made from its end up to the address `i`. -/
structure Chained (i n : ℕ) (c : Chain ι ο) : Prop where
  root : c.root = (List.range' i n).head?
  linked : Linked c.links (List.range' i n)
  next : ∀ a, a ∉ List.range' i n → c.links.next a = none
  prev : ∀ a, a ∉ List.range' (i + 1) (n - 1) → c.links.prev a = none

lemma Chained.push {i n : ℕ} {c : Chain ι ο} (h : Chained (i + 1) n c) :
    Linked (insertBefore c.links i c.root) (List.range' i (n + 1)) ∧
    (∀ a, a ∉ List.range' i (n + 1) → (insertBefore c.links i c.root).next a = none) ∧
    ∀ a, a ∉ List.range' (i + 1) n → (insertBefore c.links i c.root).prev a = none := by
  obtain ⟨hroot, hlinked, hnext, hprev⟩ := h
  have hnil : ∀ y, (List.range' (i + 1) n).head? = some y → c.links.prev y = none := by
    intro y hy
    cases n with
    | zero => cases hy
    | succ n =>
      obtain rfl : i + 1 = y := Option.some.inj hy
      exact hprev _ (by simp [List.mem_range'_1])
  have hi : i ∉ List.range' (i + 1) n := by simp [List.mem_range'_1]
  rw [hroot]
  refine ⟨?_, ?_, ?_⟩
  · rw [List.range'_succ]
    exact linked_insertBefore hlinked hi (hnext i hi) hnil
  · intro a ha
    rw [List.range'_succ, List.mem_cons, not_or] at ha
    cases n with
    | zero => exact hnext a ha.2
    | succ n =>
      simp only [List.range'_succ, List.head?_cons, insertBefore, hnil _ rfl]
      exact (update_of_ne ha.1 ..).trans (hnext a ha.2)
  · intro a ha
    cases n with
    | zero => exact hprev a (by simp)
    | succ n =>
      simp only [List.range'_succ, List.head?_cons, insertBefore, hnil _ rfl]
      rw [List.range'_succ, List.mem_cons, not_or] at ha
      exact (update_of_ne ha.1 ..).trans (hprev a ha.2)

lemma chained_chainFrom (i : ℕ) (es : List (Entry ι ο)) :
    Chained i es.length (chainFrom i es) := by
  induction es generalizing i with
  | nil => exact ⟨rfl, ⟨List.nodup_nil, List.isChain_nil, fun _ h => by cases h⟩,
      fun _ _ => rfl, fun _ _ => rfl⟩
  | cons e es ih =>
    obtain ⟨hlinked, hnext, hprev⟩ := (ih (i + 1)).push
    rw [chainFrom, List.length_cons]
    cases e.kind with
    | callEntry => exact ⟨rfl, hlinked, hnext, hprev⟩
    | returnEntry => exact ⟨rfl, hlinked, hnext, hprev⟩

lemma length_eq {L : Links ℕ} (l₀ : List ℕ) {l : List ℕ} {k : ℕ} (h : Linked L (l₀ ++ l))
    (hk : l.length ≤ k) :
    PorcChecker.length L k l.head? = l.length := by
  induction l generalizing l₀ k with
  | nil => cases k <;> rfl
  | cons x l ih =>
    obtain ⟨k, rfl⟩ : ∃ k', k = k' + 1 := ⟨k - 1, by simp at hk; omega⟩
    rw [List.head?_cons, PorcChecker.length, h.next_eq,
      ih (l₀ ++ [x]) (by simpa using h) (by simpa using hk), List.length_cons]

lemma length_entriesFrom (k : ℕ) : (entriesFrom k history).length = 2 * history.length := by
  induction history generalizing k with
  | nil => rfl
  | cons op history ih => simp only [entriesFrom, List.length_cons, ih]; omega

lemma length_makeEntries : (makeEntries sorter history).length = 2 * history.length := by
  rw [makeEntries, (sorter.perm _).length_eq, length_entriesFrom]

lemma matchOf_chainFrom {i id : ℕ} {es : List (Entry ι ο)} (h : .ret id ∈ es.map Entry.mark) :
    ∃ k e, (chainFrom i es).matchOf id = some (i + k) ∧ es[k]? = some e ∧
      Entry.mark e = .ret id := by
  induction es generalizing i with
  | nil => cases h
  | cons e es ih =>
    have htail : .ret id ∈ es.map Entry.mark → Entry.mark e ≠ .ret id →
        ∃ k e', (chainFrom i (e :: es)).matchOf id = some (i + k) ∧ (e :: es)[k]? = some e' ∧
          Entry.mark e' = .ret id := by
      intro h hne
      obtain ⟨k, e', hk, he', hm⟩ := ih (i := i + 1) h
      refine ⟨k + 1, e', ?_, he', hm⟩
      rw [Nat.add_right_comm, Nat.add_assoc] at hk
      rw [chainFrom]
      cases hkind : e.kind with
      | callEntry => exact hk
      | returnEntry =>
        have hid : id ≠ e.id := by
          rintro rfl
          exact hne (by simp [Entry.mark, hkind])
        exact (update_of_ne hid ..).trans hk
    by_cases hm : Entry.mark e = .ret id
    · refine ⟨0, e, ?_, rfl, hm⟩
      rw [chainFrom]
      cases hkind : e.kind with
      | callEntry => simp [Entry.mark, hkind] at hm
      | returnEntry =>
        obtain rfl : e.id = id := by simpa [Entry.mark, hkind] using hm
        exact update_self ..
    · exact htail ((List.mem_cons.mp h).resolve_left (Ne.symm hm)) hm

lemma nodes_chainFrom (i : ℕ) (es : List (Entry ι ο)) :
    List.Forall₂ (fun (e : Entry ι ο) (nd : Node ι ο) => nd.value = e.value ∧ nd.id = e.id) es
      (chainFrom i es).nodes := by
  induction es generalizing i with
  | nil => exact .nil
  | cons e es ih =>
    rw [chainFrom]
    cases e.kind with
    | callEntry => exact .cons ⟨rfl, rfl⟩ (ih (i + 1))
    | returnEntry => exact .cons ⟨rfl, rfl⟩ (ih (i + 1))

lemma getElem?_nodes_chainFrom {i k : ℕ} {es : List (Entry ι ο)} {e : Entry ι ο}
    (he : es[k]? = some e) : (chainFrom i es).nodes[k]? = some ⟨e.value,
      match e.kind with
      | .returnEntry => none
      | .callEntry => (chainFrom (i + k + 1) (es.drop (k + 1))).matchOf e.id, e.id⟩ := by
  induction es generalizing i k with
  | nil => cases he
  | cons e' es ih =>
    cases k with
    | zero =>
      obtain rfl := Option.some.inj he
      rw [chainFrom]
      cases e'.kind <;> rfl
    | succ k =>
      have hk := ih (i := i + 1) he
      rw [show i + 1 + k = i + (k + 1) by omega] at hk
      rw [chainFrom, List.drop_succ_cons]
      cases e'.kind with
      | callEntry => exact hk
      | returnEntry => exact hk

/-! ### The board of the search -/

def Node.mark (nd : Node ι ο) : Mark ℕ :=
  match nd.matched with
  | some _ => .call nd.id
  | none => .ret nd.id

/-- The nodes of a history. -/
structure Board (history : List (Operation ι ο)) (nodes : List (Node ι ο)) : Prop where
  paired : Paired (nodes.map Node.mark)
  call_mem : ∀ i, .call i ∈ nodes.map Node.mark ↔ i < history.length
  call : ∀ (a m : ℕ) (nd : Node ι ο), nodes[a]? = some nd → nd.matched = some m →
    ∃ (op : Operation ι ο) (nd' : Node ι ο), history[nd.id]? = some op ∧ nd.value = .inl op.input ∧
      nodes[m]? = some nd' ∧ nd'.matched = none ∧ nd'.id = nd.id ∧ nd'.value = .inr op.output

lemma matched_of_call (ht : Timed history) {k : ℕ} {e : Entry ι ο}
    (he : (makeEntries sorter history)[k]? = some e) (hm : Entry.mark e = .call i) :
    ∃ m e', (makeLinkedEntries (makeEntries sorter history)).nodes[k]? =
        some ⟨e.value, some m, i⟩ ∧ (makeEntries sorter history)[m]? = some e' ∧
      Entry.mark e' = .ret i := by
  set es := makeEntries sorter history
  have hp := paired_marks sorter ht
  have hkind : e.kind = .callEntry ∧ e.id = i := by
    unfold Entry.mark at hm
    split at hm
    · next hk => exact ⟨hk, Mark.call.inj hm⟩
    · cases hm
  obtain ⟨hkind, rfl⟩ := hkind
  have hmem : .ret e.id ∈ (es.drop (k + 1)).map Entry.mark := by
    have hret : Mark.ret e.id ∈ es.map Entry.mark :=
      (hp.returns e.id).mp (List.mem_map.mpr ⟨e, List.mem_of_getElem? he, hm⟩)
    have hsplit : es = es.take k ++ e :: es.drop (k + 1) := by
      obtain ⟨hlt, hget⟩ := List.getElem?_eq_some_iff.mp he
      rw [← hget, List.cons_getElem_drop_succ, List.take_append_drop]
    rw [hsplit, List.map_append, List.map_cons, List.mem_append, List.mem_cons] at hret
    rcases hret with hret | hret | hret
    · refine absurd ?_ (hp.forth e.id)
      show ([Mark.ret e.id] ++ [Mark.call e.id]).Sublist (es.map Entry.mark)
      rw [hsplit, List.map_append, List.map_cons, hm]
      exact (List.singleton_sublist.mpr hret).append (List.singleton_sublist.mpr List.mem_cons_self)
    · rw [hm] at hret
      cases hret
    · exact hret
  obtain ⟨k', e', hmatch, he', hm'⟩ := matchOf_chainFrom (i := 0 + k + 1) hmem
  refine ⟨0 + k + 1 + k', e', ?_, ?_, hm'⟩
  · rw [makeLinkedEntries, getElem?_nodes_chainFrom he, hkind, ← hmatch]
  · rw [List.getElem?_drop] at he'
    rwa [Nat.zero_add]

lemma matched_of_ret {es : List (Entry ι ο)} {k : ℕ} {e : Entry ι ο} (he : es[k]? = some e)
    (hm : Entry.mark e = .ret i) : (makeLinkedEntries es).nodes[k]? = some ⟨e.value, none, i⟩ := by
  unfold Entry.mark at hm
  split at hm
  · cases hm
  · next hk =>
    obtain rfl := Mark.ret.inj hm
    rw [makeLinkedEntries, getElem?_nodes_chainFrom he, hk]

lemma length_nodes (i : ℕ) (es : List (Entry ι ο)) : (chainFrom i es).nodes.length = es.length :=
  (nodes_chainFrom i es).length_eq.symm

lemma map_mark_nodes (ht : Timed history) :
    (makeLinkedEntries (makeEntries sorter history)).nodes.map Node.mark =
      marks sorter history := by
  refine List.ext_getElem? fun k => ?_
  rw [marks, List.getElem?_map, List.getElem?_map]
  cases he : (makeEntries sorter history)[k]? with
  | none =>
    have hlen : (makeLinkedEntries (makeEntries sorter history)).nodes[k]? = none := by
      rw [List.getElem?_eq_none_iff, makeLinkedEntries, length_nodes]
      exact List.getElem?_eq_none_iff.mp he
    rw [hlen]
    rfl
  | some e =>
    cases hm : Entry.mark e with
    | call i =>
      obtain ⟨m, e', hnode, -, -⟩ := matched_of_call ht he hm
      rw [hnode]
      simp [Node.mark, hm]
    | ret i =>
      rw [matched_of_ret he hm]
      simp [Node.mark, hm]

/-- **The nodes that `makeLinkedEntries` makes are those of the history.** -/
theorem board (sorter : Sorter ι ο) (ht : Timed history) :
    Board history (makeLinkedEntries (makeEntries sorter history)).nodes := by
  refine ⟨?_, ?_, fun a m nd hnd hmatch => ?_⟩
  · rw [map_mark_nodes ht]
    exact paired_marks sorter ht
  · intro i
    rw [map_mark_nodes ht]
    exact call_mem_marks
  · obtain ⟨hlt, -⟩ := List.getElem?_eq_some_iff.mp hnd
    rw [makeLinkedEntries, length_nodes] at hlt
    have he := List.getElem?_eq_getElem hlt
    cases hm : Entry.mark (makeEntries sorter history)[a] with
    | ret i =>
      rw [matched_of_ret he hm] at hnd
      obtain rfl := Option.some.inj hnd
      cases hmatch
    | call i =>
      obtain ⟨m', e', hnode, he', hm'⟩ := matched_of_call ht he hm
      obtain rfl := Option.some.inj (hnode.symm.trans hnd)
      obtain rfl := Option.some.inj hmatch
      have hi : i < history.length :=
        call_mem_marks.mp (List.mem_map.mpr ⟨_, List.mem_of_getElem? he, hm⟩)
      have hop := List.getElem?_eq_getElem hi
      refine ⟨history[i], ⟨e'.value, none, i⟩, hop, ?_, matched_of_ret he' hm', rfl, rfl, ?_⟩
      · rw [eq_callOf (List.mem_of_getElem? he) hm hop]
        rfl
      · rw [eq_returnOf (List.mem_of_getElem? he') hm' hop]
        rfl

/-- Before the loop the nodes are linked in their order, after the head. -/
lemma linked_startSearch : Linked (startSearch model (makeEntries sorter history)).links
    ((makeEntries sorter history).length :: List.range (makeEntries sorter history).length) := by
  set es := makeEntries sorter history
  obtain ⟨hroot, hlinked, hnext, hprev⟩ := chained_chainFrom 0 es
  simp only [startSearch, makeLinkedEntries]
  rw [hroot, List.range_eq_range']
  refine linked_insertBefore hlinked (by simp) (hnext _ (by simp)) fun y hy => hprev y ?_
  cases hn : es.length with
  | zero =>
    rw [hn] at hy
    cases hy
  | succ n =>
    rw [hn] at hy
    obtain rfl : 0 = y := Option.some.inj hy
    simp [List.mem_range'_1]

lemma length_startSearch : PorcChecker.length
    (makeLinkedEntries (makeEntries sorter history)).links (makeEntries sorter history).length
    (makeLinkedEntries (makeEntries sorter history)).root / 2 = history.length := by
  have hc := chained_chainFrom 0 (makeEntries sorter history)
  rw [makeLinkedEntries, hc.root, length_eq [] hc.linked (by simp), List.length_range',
    length_makeEntries]
  omega

end Mit6824.PorcEntries
