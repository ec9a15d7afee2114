import Mathlib.Data.Finset.Card
import Mathlib.Logic.Relation
import Mit6824.PorcEntries

/-!
The search of the checker (`checkSingle` of `porcupine/checker.go`).

The loop walks through the list of the entries that are left. The stack tells how its state came
about: each call on it was open when it was made, and taking it back restores the links, the set
and the state of before. What has been tried from a set of calls and a state is remembered, and
what is remembered and not on the stack cannot be continued to all operations.
-/

namespace Mit6824.PorcSearch

open Mit6824.LinkedList Mit6824.Schedules Mit6824.PorcBitset Mit6824.PorcChecker
open Mit6824.PorcEntries Function Relation

variable {σ ι ο : Type}

/-! ### What is left -/

section Left

variable (nodes : List (Node ι ο))

def markAt (a : ℕ) : Mark ℕ := (nodes[a]?.map Node.mark).getD (.ret 0)

/-- The addresses of the entries that are left. -/
def rest (b : Bitset) : List ℕ :=
  (List.range nodes.length).filter fun a => ¬ Has b (markAt nodes a).id

def left (b : Bitset) : List (Mark ℕ) := (nodes.map Node.mark).filter fun m => ¬ Has b m.id

variable {nodes} {b b' : Bitset} {a i : ℕ}

lemma markAt_eq {nd : Node ι ο} (h : nodes[a]? = some nd) : markAt nodes a = Node.mark nd := by
  rw [markAt, h]
  rfl

lemma map_rest : (rest nodes b).map (markAt nodes) = left nodes b := by
  have hall : (List.range nodes.length).map (markAt nodes) = nodes.map Node.mark := by
    refine List.ext_getElem (by simp) fun k hk hk' => ?_
    have hlt : k < nodes.length := by simpa using hk'
    rw [List.getElem_map, List.getElem_map, List.getElem_range,
      markAt_eq (List.getElem?_eq_getElem hlt)]
  rw [rest, left, ← hall, List.filter_map]
  rfl

lemma left_set (h : b.set i = some b') : left nodes b' = without (left nodes b) i := by
  rw [left, left, without, List.filter_filter]
  refine List.filter_congr fun m _ => ?_
  simp [has_set h, and_comm]

lemma rest_set (h : b.set i = some b') :
    rest nodes b' = (rest nodes b).filter fun a => (markAt nodes a).id ≠ i := by
  rw [rest, rest, List.filter_filter]
  refine List.filter_congr fun m _ => ?_
  simp [has_set h, and_comm]

lemma rest_newBitset {n : ℕ} : rest nodes (newBitset n) = List.range nodes.length :=
  List.filter_eq_self.mpr fun _ _ => decide_eq_true not_has_newBitset

lemma nodup_rest : (rest nodes b).Nodup := List.nodup_range.filter _

lemma lt_of_mem_rest (h : a ∈ rest nodes b) : a < nodes.length :=
  List.mem_range.mp (List.mem_filter.mp h).1

lemma not_has_of_mem_rest (h : a ∈ rest nodes b) : ¬ Has b (markAt nodes a).id := by
  simpa using (List.mem_filter.mp h).2

lemma exists_of_mem_opened {pre suf : List ℕ} {e j : ℕ} (hrest : rest nodes b = pre ++ e :: suf)
    (he : markAt nodes e = .ret j) (hi : i ∈ opened (left nodes b)) :
    ∃ a ∈ pre, markAt nodes a = .call i := by
  rw [← map_rest, hrest, List.map_append, List.map_cons, he] at hi
  exact List.mem_map.mp (mem_of_mem_opened_append hi)

lemma mem_opened_left {pre suf : List ℕ} (hrest : rest nodes b = pre ++ a :: suf)
    (hpre : ∀ a ∈ pre, ∃ j, markAt nodes a = .call j) (ha : markAt nodes a = .call i) :
    i ∈ opened (left nodes b) := by
  rw [← map_rest, hrest, List.map_append, List.map_cons, ha]
  refine mem_opened_append fun m hm => ?_
  obtain ⟨a', ha', rfl⟩ := List.mem_map.mp hm
  exact hpre a' ha'

end Left

section Board

variable {history : List (Operation ι ο)} {nodes : List (Node ι ο)} {b b' : Bitset} {a i : ℕ}

lemma exists_node (h : markAt nodes a = .call i) :
    ∃ nd m, nodes[a]? = some nd ∧ nd.matched = some m ∧ nd.id = i := by
  unfold markAt at h
  cases hnd : nodes[a]? with
  | none => simp [hnd] at h
  | some nd =>
    rw [hnd] at h
    have h : Node.mark nd = .call i := h
    unfold Node.mark at h
    split at h
    · next m hm => exact ⟨nd, m, rfl, hm, Mark.call.inj h⟩
    · cases h

lemma exists_of_ret (ha : a < nodes.length) (h : markAt nodes a = .ret i) :
    ∃ nd, nodes[a]? = some nd ∧ nd.matched = none := by
  refine ⟨nodes[a], List.getElem?_eq_getElem ha, ?_⟩
  rw [markAt_eq (List.getElem?_eq_getElem ha), Node.mark] at h
  split at h
  · cases h
  · next hnone => exact hnone

lemma mark_of_matched_none {nd : Node ι ο} (h : nd.matched = none) : Node.mark nd = .ret nd.id := by
  rw [Node.mark, h]

variable (hboard : Board history nodes)

include hboard

lemma markAt_inj {a a' : ℕ} (ha : a < nodes.length) (ha' : a' < nodes.length)
    (h : markAt nodes a = markAt nodes a') : a = a' := by
  have hlen : a < (nodes.map Node.mark).length := by simpa using ha
  refine (List.getElem?_inj hlen hboard.paired.nodup).mp ?_
  rw [markAt_eq (List.getElem?_eq_getElem ha), markAt_eq (List.getElem?_eq_getElem ha')] at h
  rw [List.getElem?_map, List.getElem?_map, List.getElem?_eq_getElem ha,
    List.getElem?_eq_getElem ha', Option.map_some, Option.map_some, h]

/-- A call that is left has its return later in the list. -/
lemma matched_mem (pre : List ℕ) {suf : List ℕ} {nd : Node ι ο} {m : ℕ}
    (hrest : rest nodes b = pre ++ a :: suf) (hnd : nodes[a]? = some nd)
    (hm : nd.matched = some m) :
    m ∈ suf ∧ markAt nodes m = .ret nd.id := by
  obtain ⟨op, nd', -, -, hnd', hret, hid, -⟩ := hboard.call a m nd hnd hm
  have hmark : markAt nodes m = .ret nd.id := by
    rw [markAt_eq hnd', mark_of_matched_none hret, hid]
  have hcall : markAt nodes a = .call nd.id := by
    rw [markAt_eq hnd, Node.mark, hm]
  have ha : a ∈ rest nodes b := hrest ▸ List.mem_append_right _ List.mem_cons_self
  have hmem : m ∈ rest nodes b := by
    refine List.mem_filter.mpr ⟨List.mem_range.mpr (List.getElem?_eq_some_iff.mp hnd').1, ?_⟩
    have hnot := not_has_of_mem_rest ha
    rw [hcall] at hnot
    rw [hmark]
    exact decide_eq_true hnot
  refine ⟨?_, hmark⟩
  rw [hrest] at hmem
  rcases List.mem_append.mp hmem with hpre | hmem
  · -- the return would stand before the call
    refine absurd ?_ (hboard.paired.forth nd.id)
    have hsub : [m, a].Sublist (rest nodes b) := by
      rw [hrest]
      exact List.Sublist.append (List.singleton_sublist.mpr hpre)
        (List.singleton_sublist.mpr List.mem_cons_self)
    have hmap := hsub.map (markAt nodes)
    rw [map_rest, List.map_cons, List.map_singleton, hmark, hcall] at hmap
    exact hmap.trans List.filter_sublist
  · refine (List.mem_cons.mp hmem).resolve_left ?_
    rintro rfl
    rw [hmark] at hcall
    cases hcall

/-- The two entries of an operation are the ones that go. -/
lemma rest_set_eq {pre mid suf : List ℕ} {m : ℕ}
    (hrest : rest nodes b = pre ++ a :: (mid ++ m :: suf)) (hcall : markAt nodes a = .call i)
    (hret : markAt nodes m = .ret i) (hset : b.set i = some b') :
    rest nodes b' = pre ++ (mid ++ suf) := by
  have hlt : ∀ x ∈ rest nodes b, x < nodes.length := fun x hx => lt_of_mem_rest hx
  have hnd : (rest nodes b).Nodup := nodup_rest
  have hkeep : ∀ x ∈ rest nodes b, x ≠ a → x ≠ m → (markAt nodes x).id ≠ i := by
    intro x hx hxa hxm hid
    cases hmark : markAt nodes x with
    | call j =>
      rw [hmark] at hid
      obtain rfl : j = i := hid
      exact hxa (markAt_inj hboard (hlt x hx) (hlt a (by simp [hrest])) (hmark.trans hcall.symm))
    | ret j =>
      rw [hmark] at hid
      obtain rfl : j = i := hid
      exact hxm (markAt_inj hboard (hlt x hx) (hlt m (by simp [hrest])) (hmark.trans hret.symm))
  rw [hrest] at hkeep hnd
  have hout : a ∉ pre ++ (mid ++ suf) ∧ m ∉ pre ++ (mid ++ suf) := by
    simp only [List.nodup_append, List.nodup_cons, List.mem_append, List.mem_cons] at hnd ⊢
    grind
  have hself : ∀ l : List ℕ, l.Sublist (pre ++ (mid ++ suf)) →
      l.filter (fun x => (markAt nodes x).id ≠ i) = l := by
    intro l hl
    refine List.filter_eq_self.mpr fun x hx => decide_eq_true (hkeep x ?_ ?_ ?_)
    · have := hl.mem hx
      simp only [List.mem_append, List.mem_cons] at this ⊢
      tauto
    · rintro rfl
      exact hout.1 (hl.mem hx)
    · rintro rfl
      exact hout.2 (hl.mem hx)
  rw [rest_set hset, hrest, List.filter_append, List.filter_cons_of_neg (by simp [hcall]),
    List.filter_append, List.filter_cons_of_neg (by simp [hret]), hself pre (by simp),
    hself mid (by simp), hself suf (by simp)]

/-- **Lifting.** A call and its return leave the list, and come back with all links as before. -/
lemma lift_spec {pre suf : List ℕ} {nd : Node ι ο} {m : ℕ} {L : Links ℕ}
    (hlinked : Linked L (nodes.length :: rest nodes b)) (hrest : rest nodes b = pre ++ a :: suf)
    (hnd : nodes[a]? = some nd) (hm : nd.matched = some m) (hset : b.set nd.id = some b') :
    ∃ L', lift nodes L a = some L' ∧ Linked L' (nodes.length :: rest nodes b') ∧
      unlift nodes L' a = some L := by
  obtain ⟨hmem, hret⟩ := matched_mem hboard _ hrest hnd hm
  have hcall : markAt nodes a = .call nd.id := by
    rw [markAt_eq hnd, Node.mark, hm]
  obtain ⟨mid, suf, rfl⟩ := List.append_of_mem hmem
  rw [rest_set_eq hboard hrest hcall hret hset]
  rw [hrest] at hlinked
  obtain ⟨L₁, -, hlinked₁, -, hinner⟩ := hlinked.detach
  obtain ⟨hdetach, hattach⟩ := hinner (by simp)
  rw [← List.append_assoc] at hlinked₁
  obtain ⟨L₂, hdetach₂, hlinked₂, hattach₂, -⟩ := hlinked₁.detach
  rw [List.append_assoc] at hlinked₂
  refine ⟨L₂, ?_, hlinked₂, ?_⟩
  · simp [lift, hdetach, hnd, hm, hdetach₂]
  · simp [unlift, hnd, hm, hattach₂, hattach]

end Board

/-! ### The stack -/

section Stack

variable (model : Model σ ι ο) (history : List (Operation ι ο)) (nodes : List (Node ι ο))

/-- How the links, the set and the state come of the calls on the stack. -/
inductive Stacked : List (ℕ × σ) → Links ℕ → Bitset → σ → Prop
  | nil {L : Links ℕ} (hlinked : Linked L (nodes.length :: List.range nodes.length)) :
    Stacked [] L (newBitset history.length) model.init
  | push {calls : List (ℕ × σ)} {L L' : Links ℕ} {b b' : Bitset} {s s' : σ} {a i : ℕ}
    (hst : Stacked calls L b s) (ha : a ∈ rest nodes b) (hcall : markAt nodes a = .call i)
    (hopen : i ∈ opened (left nodes b)) (hacc : accepts model history s i = some s')
    (hlift : lift nodes L a = some L') (hset : b.set i = some b') :
    Stacked ((a, s) :: calls) L' b' s'

def card (b : Bitset) : ℕ := ((Finset.range history.length).filter (Has b)).card

variable {model history nodes} {calls : List (ℕ × σ)} {L : Links ℕ} {b b' : Bitset} {s s' : σ}
  {a i : ℕ}

lemma card_set (hset : b.set i = some b') (hi : i < history.length) (hnot : ¬ Has b i) :
    card history b' = card history b + 1 := by
  have hinsert : (Finset.range history.length).filter (Has b') =
      insert i ((Finset.range history.length).filter (Has b)) := by
    ext j
    simp only [Finset.mem_filter, Finset.mem_range, Finset.mem_insert, has_set hset]
    constructor
    · rintro ⟨hj, hb | rfl⟩
      · exact .inr ⟨hj, hb⟩
      · exact .inl rfl
    · rintro (rfl | ⟨hj, hb⟩)
      · exact ⟨hi, .inr rfl⟩
      · exact ⟨hj, .inl hb⟩
  rw [card, hinsert, Finset.card_insert_of_notMem (by simp [hnot]), card]

variable (hboard : Board history nodes)

include hboard

lemma Stacked.linked (h : Stacked model history nodes calls L b s) :
    Linked L (nodes.length :: rest nodes b) := by
  induction h with
  | nil hlinked => rwa [rest_newBitset]
  | push hst ha hcall hopen hacc hlift hset ih =>
    obtain ⟨pre, suf, hrest⟩ := List.append_of_mem ha
    obtain ⟨nd, m, hnd, hm, rfl⟩ := exists_node hcall
    obtain ⟨L'', hlift', hlinked, -⟩ := lift_spec hboard ih hrest hnd hm hset
    obtain rfl := Option.some.inj (hlift.symm.trans hlift')
    exact hlinked

omit hboard in
/-- **The way to where the search stands.** The calls on the stack are a schedule that the model
accepts. -/
lemma Stacked.path (h : Stacked model history nodes calls L b s) :
    ∃ l, seqOf nodes calls = some l ∧ l.length = calls.length ∧ (∀ i, Has b i ↔ i ∈ l) ∧
      Schedule (nodes.map Node.mark) l ∧ l.foldlM (accepts model history) model.init = some s := by
  induction h with
  | nil hlinked =>
    exact ⟨[], rfl, rfl, fun i => by simp [not_has_newBitset], .nil _, rfl⟩
  | @push calls L L' b b' s s' a i hst ha hcall hopen hacc hlift hset ih =>
    obtain ⟨l, hseq, hlen, hhas, hsched, hfold⟩ := ih
    obtain ⟨nd, m, hnd, hm, rfl⟩ := exists_node hcall
    refine ⟨l ++ [nd.id], ?_, by simp [hlen], fun j => ?_, ?_, ?_⟩
    · simp only [seqOf, List.reverse_cons, List.mapM_append] at hseq ⊢
      simp [hseq, hnd]
    · rw [has_set hset, hhas, List.mem_append, List.mem_singleton]
    · refine hsched.append (.cons ?_ (.nil _))
      have hleft : left nodes b = (nodes.map Node.mark).filter fun m => m.id ∉ l :=
        List.filter_congr fun m _ => by simp [hhas]
      rwa [hleft] at hopen
    · rw [List.foldlM_append, hfold]
      simp [hacc]

omit hboard in
lemma Stacked.length_linearized (h : Stacked model history nodes calls L b s) :
    b.length = (newBitset history.length).length := by
  induction h with
  | nil => rfl
  | push _ _ _ _ _ _ hset ih => rw [length_set hset, ih]

lemma lt_of_call (hcall : markAt nodes a = .call i) : i < history.length := by
  obtain ⟨nd, m, hnd, hm, rfl⟩ := exists_node hcall
  refine (hboard.call_mem nd.id).mp (List.mem_map.mpr ⟨nd, List.mem_of_getElem? hnd, ?_⟩)
  rw [Node.mark, hm]

lemma Stacked.card_eq (h : Stacked model history nodes calls L b s) :
    card history b = calls.length := by
  induction h with
  | nil => simp [card, not_has_newBitset]
  | @push calls L L' b b' s s' a i hst ha hcall hopen hacc hlift hset ih =>
    have hnot := not_has_of_mem_rest ha
    rw [hcall] at hnot
    rw [card_set hset (lt_of_call hboard hcall) hnot, ih, List.length_cons]

end Stack

/-! ### The longest sequences -/

section Longest

variable {longest longest' longest'' : Longest} {seq : List ℕ} {i k : ℕ}

/-- A sequence of at least this length has been noted for the operation. -/
def Noted (longest : Longest) (i k : ℕ) : Prop :=
  ∃ seq, longest[i]? = some (some seq) ∧ k ≤ seq.length

structure Grows (longest longest' : Longest) : Prop where
  length_eq : longest'.length = longest.length
  noted : ∀ i k, Noted longest i k → Noted longest' i k

lemma Grows.refl (longest : Longest) : Grows longest longest := ⟨rfl, fun _ _ h => h⟩

lemma Grows.trans (h : Grows longest longest') (h' : Grows longest' longest'') :
    Grows longest longest'' :=
  ⟨h'.length_eq.trans h.length_eq, fun i k hn => h'.noted i k (h.noted i k hn)⟩

lemma noted_set (hi : i < longest.length) : Noted (longest.set i (some seq)) i seq.length :=
  ⟨seq, List.getElem?_set_self hi, le_rfl⟩

lemma grows_set (hold : ∀ k, Noted longest i k → k ≤ seq.length) :
    Grows longest (longest.set i (some seq)) := by
  refine ⟨List.length_set, fun j k hn => ?_⟩
  by_cases hij : i = j
  · subst hij
    have hlt : i < longest.length :=
      let ⟨_, hsq, _⟩ := hn
      (List.getElem?_eq_some_iff.mp hsq).1
    exact ⟨seq, List.getElem?_set_self hlt, hold k hn⟩
  · obtain ⟨sq, hsq, hk⟩ := hn
    exact ⟨sq, by rwa [List.getElem?_set_ne hij], hk⟩

lemma getElem?_set_some {j : ℕ} {sq : List ℕ}
    (h : (longest.set i (some seq))[j]? = some (some sq)) :
    longest[j]? = some (some sq) ∨ j = i ∧ sq = seq := by
  by_cases hij : i = j
  · subst hij
    have hlt : i < longest.length := by
      simpa using (List.getElem?_eq_some_iff.mp h).1
    rw [List.getElem?_set_self hlt] at h
    exact .inr ⟨rfl, (Option.some.inj (Option.some.inj h)).symm⟩
  · rw [List.getElem?_set_ne hij] at h
    exact .inl h

lemma improve_spec (seq : List ℕ) (hi : i < longest.length) :
    ∃ longest', improve seq longest i = some longest' ∧ Grows longest longest' ∧
      Noted longest' i seq.length ∧ ∀ j sq, longest'[j]? = some (some sq) →
        longest[j]? = some (some sq) ∨ j = i ∧ sq = seq := by
  unfold improve
  rw [List.getElem?_eq_getElem hi]
  have hget := List.getElem?_eq_getElem hi
  cases hold : longest[i] with
  | none =>
    rw [hold] at hget
    refine ⟨_, rfl, grows_set ?_, noted_set hi, fun j sq => getElem?_set_some⟩
    rintro k ⟨sq, hsq, -⟩
    rw [hget] at hsq
    cases hsq
  | some old =>
    rw [hold] at hget
    dsimp only
    split
    · next hlt =>
      refine ⟨_, rfl, grows_set ?_, noted_set hi, fun j sq => getElem?_set_some⟩
      rintro k ⟨sq, hsq, hk⟩
      obtain rfl := Option.some.inj (Option.some.inj (hget.symm.trans hsq))
      omega
    · next hle => exact ⟨_, rfl, .refl _, ⟨old, hget, by omega⟩, fun j sq h => .inl h⟩

lemma foldlM_improve (seq : List ℕ) {l : List ℕ} (hl : ∀ i ∈ l, i < longest.length) :
    ∃ longest', l.foldlM (improve seq) longest = some longest' ∧ Grows longest longest' ∧
      (∀ i ∈ l, Noted longest' i seq.length) ∧ ∀ j sq, longest'[j]? = some (some sq) →
        longest[j]? = some (some sq) ∨ j ∈ l ∧ sq = seq := by
  induction l generalizing longest with
  | nil => exact ⟨longest, rfl, .refl _, by simp, fun j sq h => .inl h⟩
  | cons i l ih =>
    obtain ⟨longest₁, h₁, hg₁, hn₁, hs₁⟩ := improve_spec seq (hl i List.mem_cons_self)
    obtain ⟨longest₂, h₂, hg₂, hn₂, hs₂⟩ := ih fun j hj => by
      rw [hg₁.length_eq]
      exact hl j (List.mem_cons_of_mem _ hj)
    refine ⟨longest₂, ?_, hg₁.trans hg₂, ?_, ?_⟩
    · rw [List.foldlM_cons, h₁]
      exact h₂
    · intro j hj
      rcases List.mem_cons.mp hj with rfl | hj
      · exact hg₂.noted _ _ hn₁
      · exact hn₂ j hj
    · intro j sq h
      rcases hs₂ j sq h with h | ⟨hj, rfl⟩
      · rcases hs₁ j sq h with h | ⟨rfl, rfl⟩
        · exact .inl h
        · exact .inr ⟨List.mem_cons_self, rfl⟩
      · exact .inr ⟨List.mem_cons_of_mem _ hj, rfl⟩

end Longest

/-! ### What has been tried -/

section Exhausted

variable (model : Model σ ι ο) (history : List (Operation ι ο)) (nodes : List (Node ι ο))
  (computePartial : Bool)

/-- From these calls and this state there is no way to all operations, and the longest ways have
been noted. -/
structure Exhausted (longest : Longest) (b : Bitset) (s : σ) : Prop where
  dead : ∀ l, Schedule (left nodes b) l → (l.foldlM (accepts model history) s).isSome →
    ∃ m ∈ left nodes b, m.id ∉ l
  noted : computePartial = true → ∀ l, Schedule (left nodes b) l →
    (l.foldlM (accepts model history) s).isSome → ∀ i, Has b i ∨ i ∈ l →
      Noted longest i (card history b + l.length)

/-- The call leads to what is done, if it can be made. -/
def Tried (longest : Longest) (b : Bitset) (s : σ) (i : ℕ) : Prop :=
  ∀ s' b', accepts model history s i = some s' → b.set i = some b' →
    Exhausted model history nodes computePartial longest b' s'

variable {model history nodes computePartial} {longest longest' : Longest} {b b' : Bitset}
  {s s' : σ} {i : ℕ}

lemma Exhausted.mono (h : Exhausted model history nodes computePartial longest b s)
    (hg : Grows longest longest') : Exhausted model history nodes computePartial longest' b s :=
  ⟨h.dead, fun hc l hl hacc i hi => hg.noted _ _ (h.noted hc l hl hacc i hi)⟩

lemma Tried.mono (h : Tried model history nodes computePartial longest b s i)
    (hg : Grows longest longest') : Tried model history nodes computePartial longest' b s i :=
  fun s' b' hacc hset => (h s' b' hacc hset).mono hg

/-- **When all open calls have been tried.** -/
lemma done_of_tried (hboard : Board history nodes) (hleft : left nodes b ≠ [])
    (hlen : b.length = (newBitset history.length).length)
    (htried : ∀ i ∈ opened (left nodes b), Tried model history nodes computePartial longest b s i)
    (hnoted : computePartial = true → ∀ i, Has b i → Noted longest i (card history b)) :
    Exhausted model history nodes computePartial longest b s := by
  -- a way from here begins with an open call, and goes on from where that leads to
  have hstep : ∀ i l, i ∈ opened (left nodes b) →
      ((i :: l).foldlM (accepts model history) s).isSome →
      ∃ s' b', b.set i = some b' ∧ left nodes b' = without (left nodes b) i ∧
        card history b' = card history b + 1 ∧ (∀ j, Has b' j ↔ Has b j ∨ j = i) ∧
        (l.foldlM (accepts model history) s').isSome ∧
        Exhausted model history nodes computePartial longest b' s' := by
    intro i l hi hacc
    have hmem := List.mem_filter.mp (call_mem_of_mem_opened hi)
    have hlt : i < history.length := (hboard.call_mem i).mp hmem.1
    obtain ⟨b', hset⟩ := exists_set (i := i) (hlen ▸ lt_length_newBitset hlt)
    cases hs : accepts model history s i with
    | none => simp [hs] at hacc
    | some s' =>
      refine ⟨s', b', hset, left_set hset, card_set hset hlt (of_decide_eq_true hmem.2),
        fun j => has_set hset, ?_, htried i hi s' b' hs hset⟩
      simpa [hs] using hacc
  constructor
  · intro l hl hacc
    cases hl with
    | nil =>
      obtain ⟨m, h, hm⟩ := List.exists_cons_of_ne_nil hleft
      exact ⟨m, by simp [hm], List.not_mem_nil⟩
    | @cons _ i l hi hl =>
      obtain ⟨s', b', hset, hleft', -, -, hacc', hdone⟩ := hstep i l hi hacc
      obtain ⟨m, hm, hml⟩ := hdone.dead l (hleft' ▸ hl) hacc'
      rw [hleft', mem_without] at hm
      refine ⟨m, hm.1, fun h => ?_⟩
      rcases List.mem_cons.mp h with h | h
      · exact hm.2 h
      · exact hml h
  · intro hc l hl hacc j hj
    cases hl with
    | nil => exact hnoted hc j (hj.resolve_right List.not_mem_nil)
    | @cons _ i l hi hl =>
      obtain ⟨s', b', hset, hleft', hcard, hhas, hacc', hdone⟩ := hstep i l hi hacc
      have := hdone.noted hc l (hleft' ▸ hl) hacc' j (by
        rw [hhas]
        rcases hj with hj | hj
        · exact .inl (.inl hj)
        · rcases List.mem_cons.mp hj with rfl | hj
          · exact .inl (.inr rfl)
          · exact .inr hj)
      rw [hcard] at this
      rwa [List.length_cons, Nat.add_comm l.length, ← Nat.add_assoc]

end Exhausted

/-! ### The loop -/

/-- States that the model takes as equal accept the same operations, and lead to equal states. -/
def EqualAlike [DecidableEq σ] (model : Model σ ι ο) : Prop :=
  ∀ s t, model.equal.getD shallowEqual s t = true → ∀ i o, (model.step s i o).1 = true →
    (model.step t i o).1 = true ∧
      model.equal.getD shallowEqual (model.step s i o).2 (model.step t i o).2 = true

lemma equalAlike_of_none [DecidableEq σ] {model : Model σ ι ο} (h : model.equal = none) :
    EqualAlike model := by
  intro s t hst i o hok
  rw [h] at hst ⊢
  obtain rfl : s = t := of_decide_eq_true hst
  exact ⟨hok, decide_eq_true rfl⟩

section Loop

variable [DecidableEq σ] {model : Model σ ι ο} {history : List (Operation ι ο)}
  {nodes : List (Node ι ο)} {computePartial : Bool}

lemma isSome_of_equal (halike : EqualAlike model) {l : List ℕ} {s t : σ}
    (hst : model.equal.getD shallowEqual s t = true)
    (hs : (l.foldlM (accepts model history) s).isSome) :
    (l.foldlM (accepts model history) t).isSome := by
  induction l generalizing s t with
  | nil => rfl
  | cons i l ih =>
    rw [List.foldlM_cons] at hs ⊢
    cases hop : history[i]? with
    | none => simp [accepts, hop] at hs
    | some op =>
      rw [accepts_eq hop] at hs ⊢
      split at hs
      · next hok =>
        obtain ⟨hok', hequal⟩ := halike s t hst _ _ hok
        rw [if_pos hok']
        exact ih hequal hs
      · cases hs

lemma Exhausted.of_equal (halike : EqualAlike model) {longest : Longest} {b : Bitset} {s t : σ}
    (hst : model.equal.getD shallowEqual s t = true)
    (h : Exhausted model history nodes computePartial longest b t) :
    Exhausted model history nodes computePartial longest b s :=
  ⟨fun l hl hacc => h.dead l hl (isSome_of_equal halike hst hacc),
    fun hc l hl hacc => h.noted hc l hl (isSome_of_equal halike hst hacc)⟩

variable (model history nodes computePartial)

def NotesWays (longest : Longest) : Prop :=
  ∀ i seq, longest[i]? = some (some seq) → Schedule (nodes.map Node.mark) seq ∧
    (seq.foldlM (accepts model history) model.init).isSome ∧ i ∈ seq

/-- What is remembered of more calls than the stack has is done. -/
def Remembered (cache : BitVec 64 → List (CacheEntry σ)) (longest : Longest) (k : ℕ) : Prop :=
  ∀ h e, e ∈ cache h → k < card history e.linearized →
    Exhausted model history nodes computePartial longest e.linearized e.state

structure Good (st : Search σ) : Prop where
  stacked : Stacked model history nodes st.calls st.links st.linearized st.state
  remembered : Remembered model history nodes computePartial st.cache st.longest st.calls.length
  room : st.longest.length = history.length
  sound : NotesWays model history nodes st.longest

def Steps : Search σ → Search σ → Prop :=
  ReflTransGen fun st st' => iteration model computePartial nodes false st = some (.running st')

/-- The search comes to a place where all operations have been taken, or it comes back to where
it is with nothing left to try. -/
inductive Explored (st : Search σ) : Prop
  | found (st' : Search σ) (hsteps : Steps model nodes computePartial st st')
    (hgood : Good model history nodes computePartial st') (hrest : rest nodes st'.linearized = [])
  | failed (cache : BitVec 64 → List (CacheEntry σ)) (longest : Longest) (e : ℕ) (nd : Node ι ο)
    (hsteps : Steps model nodes computePartial st
      { st with entry := some e, cache := cache, longest := longest })
    (hnd : nodes[e]? = some nd) (hret : nd.matched = none)
    (hgood : Good model history nodes computePartial
      { st with entry := some e, cache := cache, longest := longest })
    (hgrows : Grows st.longest longest)
    (hcache : ∀ h x, x ∈ cache h → x ∈ st.cache h ∨
      Exhausted model history nodes computePartial longest x.linearized x.state)
    (htried : ∀ i ∈ opened (left nodes st.linearized),
      Tried model history nodes computePartial longest st.linearized st.state i)

omit [DecidableEq σ] in
def made (st : Search σ) (links : Links ℕ) (a : ℕ) (s' : σ) (b' : Bitset)
    (first : Option ℕ) : Search σ :=
  { st with
    links := links, entry := first, state := s', linearized := b',
    cache := update st.cache b'.hash (st.cache b'.hash ++ [⟨b', s'⟩]),
    calls := (a, st.state) :: st.calls }

/-- The search stands between the entries, and the calls before it have been tried. -/
structure Standing (st : Search σ) (pre suf : List ℕ) : Prop where
  good : Good model history nodes computePartial st
  entries : rest nodes st.linearized = pre ++ suf
  entry : st.entry = suf.head?
  tried : ∀ a ∈ pre, ∃ i, markAt nodes a = .call i ∧
    Tried model history nodes computePartial st.longest st.linearized st.state i

/-- The search has come to the next entry, and has tried the call. -/
structure MovedOn (st : Search σ) (suf : List ℕ) (i : ℕ)
    (cache : BitVec 64 → List (CacheEntry σ)) (longest : Longest) : Prop where
  steps : Steps model nodes computePartial st
    { st with entry := suf.head?, cache := cache, longest := longest }
  remembered : Remembered model history nodes computePartial cache longest st.calls.length
  sound : NotesWays model history nodes longest
  grows : Grows st.longest longest
  cache : ∀ h x, x ∈ cache h → x ∈ st.cache h ∨
    Exhausted model history nodes computePartial longest x.linearized x.state
  tried : Tried model history nodes computePartial longest st.linearized st.state i

variable {model history nodes computePartial} {st : Search σ} {pre suf : List ℕ} {a i : ℕ}
  (hboard : Board history nodes)

include hboard

omit [DecidableEq σ] in
lemma next_head (hst : Stacked model history nodes st.calls st.links st.linearized st.state) :
    st.links.next nodes.length = (rest nodes st.linearized).head? :=
  Linked.next_eq [] (hst.linked hboard)

omit [DecidableEq σ] in
lemma next_entry (hst : Stacked model history nodes st.calls st.links st.linearized st.state)
    (hrest : rest nodes st.linearized = pre ++ a :: suf) : st.links.next a = suf.head? := by
  have hlinked := hst.linked hboard
  rw [hrest] at hlinked
  exact Linked.next_eq (nodes.length :: pre) hlinked

lemma iteration_call (hst : Stacked model history nodes st.calls st.links st.linearized st.state)
    (hrest : rest nodes st.linearized = pre ++ a :: suf) (hentry : st.entry = some a)
    {nd : Node ι ο} {m : ℕ} (hnd : nodes[a]? = some nd) (hm : nd.matched = some m) :
    ∃ op, history[nd.id]? = some op ∧ ∃ nd', nodes[m]? = some nd' ∧
      iteration model computePartial nodes false st = advance model nodes st a nd nd' ∧
      callStep model st.state nd.value nd'.value =
        some (model.step st.state op.input op.output) := by
  obtain ⟨op, nd', hop, hv, hnd', -, -, hv'⟩ := hboard.call a m nd hnd hm
  refine ⟨op, hop, nd', hnd', ?_, ?_⟩
  · have hhead : st.links.next nodes.length ≠ none := by
      rw [next_head hboard hst, hrest]
      simp
    rw [iteration, if_neg hhead, if_neg (by simp)]
    simp [hentry, hnd, hm, hnd']
  · rw [hv, hv']
    rfl

lemma step_refused (hst : Stacked model history nodes st.calls st.links st.linearized st.state)
    (hrest : rest nodes st.linearized = pre ++ a :: suf) (hentry : st.entry = some a)
    (hcall : markAt nodes a = .call i) (hacc : accepts model history st.state i = none) :
    iteration model computePartial nodes false st =
      some (.running { st with entry := suf.head? }) := by
  obtain ⟨nd, m, hnd, hm, rfl⟩ := exists_node hcall
  obtain ⟨op, hop, nd', -, hit, hcs⟩ := iteration_call hboard hst hrest hentry hnd hm
  rw [accepts_eq hop] at hacc
  have hno : (model.step st.state op.input op.output).1 = false := by
    by_contra hok
    rw [if_pos (by simpa using hok)] at hacc
    cases hacc
  rw [hit, advance, hcs]
  simp [hno, next_entry hboard hst hrest]

lemma step_seen (hst : Stacked model history nodes st.calls st.links st.linearized st.state)
    (hrest : rest nodes st.linearized = pre ++ a :: suf) (hentry : st.entry = some a)
    (hcall : markAt nodes a = .call i) {s' : σ} {b' : Bitset}
    (hacc : accepts model history st.state i = some s') (hset : st.linearized.set i = some b')
    (hseen : cacheContains model st.cache ⟨b', s'⟩ = true) :
    iteration model computePartial nodes false st =
      some (.running { st with entry := suf.head? }) := by
  obtain ⟨nd, m, hnd, hm, rfl⟩ := exists_node hcall
  obtain ⟨op, hop, nd', -, hit, hcs⟩ := iteration_call hboard hst hrest hentry hnd hm
  rw [accepts_eq hop] at hacc
  split at hacc
  · next hok =>
    obtain rfl := Option.some.inj hacc
    rw [hit, advance, hcs]
    simp [hok, hset, hseen, next_entry hboard hst hrest]
  · cases hacc

lemma step_made (computePartial : Bool)
    (hst : Stacked model history nodes st.calls st.links st.linearized st.state)
    (hrest : rest nodes st.linearized = pre ++ a :: suf) (hentry : st.entry = some a)
    (hcall : markAt nodes a = .call i) {s' : σ} {b' : Bitset} {L : Links ℕ}
    (hacc : accepts model history st.state i = some s') (hset : st.linearized.set i = some b')
    (hseen : cacheContains model st.cache ⟨b', s'⟩ = false)
    (hlift : lift nodes st.links a = some L) :
    iteration model computePartial nodes false st =
      some (.running (made st L a s' b' (L.next nodes.length))) := by
  obtain ⟨nd, m, hnd, hm, rfl⟩ := exists_node hcall
  obtain ⟨op, hop, nd', -, hit, hcs⟩ := iteration_call hboard hst hrest hentry hnd hm
  rw [accepts_eq hop] at hacc
  split at hacc
  · next hok =>
    obtain rfl := Option.some.inj hacc
    rw [hit, advance, hcs]
    simp [hok, hset, hseen, hlift, made]
  · cases hacc

lemma step_back (computePartial : Bool)
    (hst : Stacked model history nodes st.calls st.links st.linearized st.state)
    (hrest : rest nodes st.linearized ≠ []) {e : ℕ} (hentry : st.entry = some e) {nd : Node ι ο}
    (hnd : nodes[e]? = some nd) (hret : nd.matched = none) {s₀ : σ} {calls : List (ℕ × σ)}
    (hcalls : st.calls = (a, s₀) :: calls) (hcall : markAt nodes a = .call i) {longest : Longest}
    (hlongest : notePartial computePartial nodes st.calls st.longest = some longest)
    {b₀ : Bitset} {L₀ : Links ℕ}
    (hclear : st.linearized.clear i = some b₀) (hunlift : unlift nodes st.links a = some L₀) :
    iteration model computePartial nodes false st = some (.running
      { st with
        links := L₀, entry := L₀.next a, state := s₀, linearized := b₀, calls := calls,
        longest := longest }) := by
  have hhead : st.links.next nodes.length ≠ none := by
    rw [next_head hboard hst]
    simpa using hrest
  obtain ⟨nd', m, hnd', -, rfl⟩ := exists_node hcall
  rw [hcalls] at hlongest
  rw [iteration, if_neg hhead, if_neg (by simp)]
  simp [hentry, hnd, hret, backtrack, hcalls, hlongest, hnd', hclear, hunlift]

omit [DecidableEq σ] in
lemma notePartial_spec (computePartial : Bool) {calls : List (ℕ × σ)} {L : Links ℕ} {b : Bitset}
    {s : σ} {longest : Longest}
    (hst : Stacked model history nodes calls L b s) (hroom : longest.length = history.length)
    (hsound : NotesWays model history nodes longest) :
    ∃ longest', notePartial computePartial nodes calls longest = some longest' ∧
      Grows longest longest' ∧ NotesWays model history nodes longest' ∧
      (computePartial = true → ∀ i, Has b i → Noted longest' i (card history b)) := by
  unfold notePartial
  split
  · obtain ⟨l, hseq, hlen, hhas, hsched, hfold⟩ := hst.path
    have hlt : ∀ i ∈ l, i < longest.length := fun i hi =>
      hroom ▸ (hboard.call_mem i).mp (((schedule_iff hboard.paired).mp hsched).2.1 i hi)
    obtain ⟨longest', heq, hgrows, hnoted, hnew⟩ := foldlM_improve l hlt
    refine ⟨longest', by simp [hseq, heq], hgrows, ?_, ?_⟩
    · intro i sq h
      rcases hnew i sq h with h | ⟨hi, rfl⟩
      · exact hsound i sq h
      · exact ⟨hsched, by simp [hfold], hi⟩
    · intro _ i hi
      rw [hst.card_eq hboard, ← hlen]
      exact hnoted i ((hhas i).mp hi)
  · next hno => exact ⟨longest, rfl, .refl _, hsound, fun h => absurd h hno⟩

omit hboard in
lemma exists_of_cacheContains {cache : BitVec 64 → List (CacheEntry σ)} {e : CacheEntry σ}
    (h : cacheContains model cache e = true) : ∃ k x, x ∈ cache k ∧ x.linearized = e.linearized ∧
      model.equal.getD shallowEqual e.state x.state = true := by
  obtain ⟨x, hx, heq⟩ := List.any_eq_true.mp h
  obtain ⟨hb, hs⟩ := Bool.and_eq_true_iff.mp heq
  exact ⟨_, x, hx, (equals_iff.mp hb).symm, hs⟩

omit hboard in
lemma Explored.trans {entry : Option ℕ} {cache : BitVec 64 → List (CacheEntry σ)}
    {longest : Longest} (hsteps : Steps model nodes computePartial st
      { st with entry := entry, cache := cache, longest := longest })
    (hgrows : Grows st.longest longest) (hcache : ∀ h x, x ∈ cache h → x ∈ st.cache h ∨
      Exhausted model history nodes computePartial longest x.linearized x.state)
    (h : Explored model history nodes computePartial
      { st with entry := entry, cache := cache, longest := longest }) :
    Explored model history nodes computePartial st := by
  cases h with
  | found st' hsteps' hgood hrest => exact .found st' (hsteps.trans hsteps') hgood hrest
  | failed cache' longest' e nd hsteps' hnd hret hgood hgrows' hcache' htried =>
    refine .failed cache' longest' e nd (hsteps.trans hsteps') hnd hret hgood
      (hgrows.trans hgrows') ?_ htried
    intro h x hx
    rcases hcache' h x hx with hx | hx
    · exact (hcache h x hx).imp_right fun hd => hd.mono hgrows'
    · exact .inr hx

omit [DecidableEq σ] in
lemma exists_lift (hst : Stacked model history nodes st.calls st.links st.linearized st.state)
    (hrest : rest nodes st.linearized = pre ++ a :: suf) (hcall : markAt nodes a = .call i)
    {b' : Bitset} (hset : st.linearized.set i = some b') :
    ∃ L, lift nodes st.links a = some L ∧ unlift nodes L a = some st.links := by
  obtain ⟨nd, m, hnd, hm, rfl⟩ := exists_node hcall
  obtain ⟨L, hlift, -, hunlift⟩ := lift_spec hboard (hst.linked hboard) hrest hnd hm hset
  exact ⟨L, hlift, hunlift⟩

omit [DecidableEq σ] hboard in
lemma mem_cache_made {L : Links ℕ} {s' : σ} {b' : Bitset} {o : Option ℕ} {h : BitVec 64}
    {x : CacheEntry σ} (hx : x ∈ (made st L a s' b' o).cache h) :
    x ∈ st.cache h ∨ x = ⟨b', s'⟩ := by
  by_cases hh : h = b'.hash
  · subst hh
    have hx : x ∈ st.cache b'.hash ++ [⟨b', s'⟩] := by
      simpa only [made, update_self] using hx
    simpa using hx
  · exact .inl (by simpa only [made, update_of_ne hh] using hx)

omit hboard in
lemma length_rest_lt {b b' : Bitset} (ha : a ∈ rest nodes b) (hcall : markAt nodes a = .call i)
    (hset : b.set i = some b') : (rest nodes b').length < (rest nodes b).length := by
  rw [rest_set hset]
  exact List.length_filter_lt_length_iff_exists.mpr ⟨a, ha, by simp [hcall]⟩

omit [DecidableEq σ] in
lemma good_made (hgood : Good model history nodes computePartial st)
    (ha : a ∈ rest nodes st.linearized) (hcall : markAt nodes a = .call i)
    (hopen : i ∈ opened (left nodes st.linearized)) {s' : σ} {b' : Bitset} {L : Links ℕ}
    {o : Option ℕ} (hacc : accepts model history st.state i = some s')
    (hlift : lift nodes st.links a = some L) (hset : st.linearized.set i = some b') :
    Good model history nodes computePartial (made st L a s' b' o) := by
  obtain ⟨hst, hrem, hroom, hsound⟩ := hgood
  have hst' : Stacked model history nodes ((a, st.state) :: st.calls) L b' s' :=
    .push hst ha hcall hopen hacc hlift hset
  refine ⟨hst', fun h x hx hlt => ?_, hroom, hsound⟩
  have hlt : st.calls.length + 1 < card history x.linearized := hlt
  rcases mem_cache_made hx with hx | rfl
  · exact hrem h x hx (by omega)
  · rw [hst'.card_eq hboard] at hlt
    exact absurd hlt (lt_irrefl _)

omit [DecidableEq σ] hboard in
lemma tried_of_done {b' : Bitset} {s' : σ} {g : Longest}
    (hacc : accepts model history st.state i = some s') (hset : st.linearized.set i = some b')
    (hdone : Exhausted model history nodes computePartial g b' s') :
    Tried model history nodes computePartial g st.linearized st.state i := by
  intro s'' b'' hacc' hset'
  obtain rfl := Option.some.inj (hacc.symm.trans hacc')
  obtain rfl := Option.some.inj (hset.symm.trans hset')
  exact hdone

/-- **Back from a call** that all has been tried after. -/
lemma come_back (hst : Stacked model history nodes st.calls st.links st.linearized st.state)
    (hrest : rest nodes st.linearized = pre ++ a :: suf) (hcall : markAt nodes a = .call i)
    {b' : Bitset} {s' : σ} {L : Links ℕ} {o : Option ℕ}
    (hacc : accepts model history st.state i = some s') (hset : st.linearized.set i = some b')
    (hlift : lift nodes st.links a = some L) (hnil : rest nodes b' ≠ [])
    (hstep : iteration model computePartial nodes false st = some (.running (made st L a s' b' o)))
    (hrem : Remembered model history nodes computePartial st.cache st.longest st.calls.length)
    {c : BitVec 64 → List (CacheEntry σ)} {g : Longest} {e : ℕ} {nd : Node ι ο}
    (hsteps : Steps model nodes computePartial (made st L a s' b' o)
      { made st L a s' b' o with entry := some e, cache := c, longest := g })
    (hnd : nodes[e]? = some nd) (hret : nd.matched = none)
    (hgood : Good model history nodes computePartial
      { made st L a s' b' o with entry := some e, cache := c, longest := g })
    (hgrows : Grows st.longest g)
    (hcache : ∀ h x, x ∈ c h → x ∈ (made st L a s' b' o).cache h ∨
      Exhausted model history nodes computePartial g x.linearized x.state)
    (htried : ∀ j ∈ opened (left nodes b'), Tried model history nodes computePartial g b' s' j) :
    ∃ g', MovedOn model history nodes computePartial st suf i c g' := by
  obtain ⟨hst', -, hroom, hsound⟩ := hgood
  obtain ⟨L', hlift', hunlift⟩ := exists_lift hboard hst hrest hcall hset
  obtain rfl := Option.some.inj (hlift.symm.trans hlift')
  have hnot : ¬ Has st.linearized i := by
    have ha : a ∈ rest nodes st.linearized := by simp [hrest]
    have := not_has_of_mem_rest ha
    rwa [hcall] at this
  obtain ⟨g', hnote, hgrows', hsound', hnoted⟩ := notePartial_spec hboard computePartial
    hst' hroom hsound
  have hleft : left nodes b' ≠ [] := by
    rw [← map_rest]
    simpa using hnil
  have hdone : Exhausted model history nodes computePartial g' b' s' :=
    done_of_tried hboard hleft hst'.length_linearized (fun j hj => (htried j hj).mono hgrows')
      hnoted
  have hcache' : ∀ h x, x ∈ c h → x ∈ st.cache h ∨
      Exhausted model history nodes computePartial g' x.linearized x.state := by
    intro h x hx
    rcases hcache h x hx with hx | hx
    · rcases mem_cache_made hx with hx | rfl
      · exact .inl hx
      · exact .inr hdone
    · exact .inr (hx.mono hgrows')
  refine ⟨g', ?_, ?_, hsound', hgrows.trans hgrows', hcache', tried_of_done hacc hset hdone⟩
  · have hback := step_back hboard computePartial hst' hnil rfl hnd hret rfl
      hcall hnote (clear_of_set hset hnot) hunlift
    rw [next_entry hboard hst hrest] at hback
    have hforth : Steps model nodes computePartial st _ := .head hstep hsteps
    exact hforth.tail hback
  · intro h x hx hlt
    rcases hcache' h x hx with hx | hx
    · exact (hrem h x hx hlt).mono (hgrows.trans hgrows')
    · exact hx

omit [DecidableEq σ] in
/-- A call has its return after it, and that is no call. -/
lemma Standing.ne_nil (h : Standing model history nodes computePartial st pre suf)
    (hne : pre ++ suf ≠ []) : suf ≠ [] := by
  rintro rfl
  have hrest := h.entries
  rw [List.append_nil] at hrest hne
  obtain ⟨a, pre', rfl⟩ := List.exists_cons_of_ne_nil hne
  obtain ⟨i, hcall, -⟩ := h.tried a List.mem_cons_self
  obtain ⟨nd, m, hnd, hm, rfl⟩ := exists_node hcall
  obtain ⟨hmem, hret⟩ := matched_mem hboard [] hrest hnd hm
  obtain ⟨j, hj, -⟩ := h.tried m (List.mem_cons_of_mem _ hmem)
  rw [hret] at hj
  cases hj

omit hboard in
/-- At a return all calls that can come first have been tried. -/
lemma Standing.explored_ret (h : Standing model history nodes computePartial st pre (a :: suf))
    {j : ℕ} (hmark : markAt nodes a = .ret j) : Explored model history nodes computePartial st := by
  have hlt : a < nodes.length := lt_of_mem_rest (b := st.linearized) (by simp [h.entries])
  obtain ⟨nd, hnd, hret⟩ := exists_of_ret hlt hmark
  have hself : { st with entry := some a, cache := st.cache, longest := st.longest } = st := by
    rw [← show st.entry = some a from h.entry]
  refine .failed st.cache st.longest a nd (hself ▸ .refl) hnd hret (hself.symm ▸ h.good) (.refl _)
    (fun h x hx => .inl hx) fun i hi => ?_
  obtain ⟨a', ha', hcall⟩ := exists_of_mem_opened h.entries hmark hi
  obtain ⟨i', hcall', htried⟩ := h.tried a' ha'
  rw [hcall] at hcall'
  obtain rfl := Mark.call.inj hcall'
  exact htried

omit hboard in
lemma Standing.next (h : Standing model history nodes computePartial st pre (a :: suf))
    (hmark : markAt nodes a = .call i) {c : BitVec 64 → List (CacheEntry σ)} {g : Longest}
    (hm : MovedOn model history nodes computePartial st suf i c g) :
    Standing model history nodes computePartial
      { st with entry := suf.head?, cache := c, longest := g } (pre ++ [a]) suf := by
  have hgood := h.good
  refine ⟨⟨hgood.stacked, hm.remembered, hm.grows.length_eq.trans hgood.room, hm.sound⟩,
    by simp [h.entries], rfl, fun a' ha' => ?_⟩
  rcases List.mem_append.mp ha' with ha' | ha'
  · obtain ⟨i', hi', ht⟩ := h.tried a' ha'
    exact ⟨i', hi', ht.mono hm.grows⟩
  · obtain rfl := List.mem_singleton.mp ha'
    exact ⟨i, hmark, hm.tried⟩

omit hboard in
lemma Standing.stay (h : Standing model history nodes computePartial st pre (a :: suf))
    (hstep : iteration model computePartial nodes false st =
      some (.running { st with entry := suf.head? }))
    (htried : Tried model history nodes computePartial st.longest st.linearized st.state i) :
    MovedOn model history nodes computePartial st suf i st.cache st.longest :=
  ⟨.single hstep, h.good.remembered, h.good.sound, .refl _, fun _ _ hx => .inl hx, htried⟩

/-- **A call is tried**, if what is left after it is explored: the search finds, or moves on. -/
lemma Standing.call (h : Standing model history nodes computePartial st pre (a :: suf))
    (halike : EqualAlike model) (hmark : markAt nodes a = .call i)
    (hinner : ∀ st', (rest nodes st'.linearized).length < (rest nodes st.linearized).length →
      Good model history nodes computePartial st' →
      st'.entry = (rest nodes st'.linearized).head? → rest nodes st'.linearized ≠ [] →
      Explored model history nodes computePartial st') :
    Explored model history nodes computePartial st ∨
      ∃ c g, MovedOn model history nodes computePartial st suf i c g := by
  have hst := h.good.stacked
  have hentry : st.entry = some a := h.entry
  cases hacc : accepts model history st.state i with
  | none =>
    refine .inr ⟨_, _, h.stay (step_refused hboard hst h.entries hentry hmark hacc) ?_⟩
    intro s' b' hacc' _
    rw [hacc] at hacc'
    cases hacc'
  | some s' =>
    have hil := lt_of_call hboard hmark
    have ha : a ∈ rest nodes st.linearized := by simp [h.entries]
    have hnot : ¬ Has st.linearized i := by
      have := not_has_of_mem_rest ha
      rwa [hmark] at this
    obtain ⟨b', hset⟩ := exists_set (i := i) (hst.length_linearized ▸ lt_length_newBitset hil)
    have hcard : card history b' = st.calls.length + 1 := by
      rw [card_set hset hil hnot, hst.card_eq hboard]
    cases hseen : cacheContains model st.cache ⟨b', s'⟩ with
    | true =>
      -- what is remembered of so many calls is done
      obtain ⟨k, x, hx, hxb, hequal⟩ := exists_of_cacheContains hseen
      have hxb : x.linearized = b' := hxb
      have hdone := h.good.remembered k x hx (by rw [hxb, hcard]; exact Nat.lt_succ_self _)
      rw [hxb] at hdone
      exact .inr ⟨_, _, h.stay (step_seen hboard hst h.entries hentry hmark hacc hset hseen)
        (tried_of_done hacc hset (hdone.of_equal halike hequal))⟩
    | false =>
      obtain ⟨L, hlift, -⟩ := exists_lift hboard hst h.entries hmark hset
      have hopen := mem_opened_left h.entries (fun a ha => (h.tried a ha).imp fun _ h => h.1) hmark
      have hgood := good_made (o := L.next nodes.length) hboard h.good ha hmark hopen hacc hlift
        hset
      have hstep := step_made hboard computePartial hst h.entries hentry hmark hacc hset hseen hlift
      by_cases hnil : rest nodes b' = []
      · exact .inl (.found _ (.single hstep) hgood hnil)
      · have hlt := length_rest_lt ha hmark hset
        cases hinner _ hlt hgood (next_head hboard hgood.stacked) hnil with
        | found st' hsteps hgood' hrest' =>
          exact .inl (.found st' (.head hstep hsteps) hgood' hrest')
        | failed c g e nd hsteps hnd hret hgood' hgrows hcache htried =>
          exact .inr ⟨c, come_back hboard hst h.entries hmark hacc hset hlift hnil hstep
            h.good.remembered hsteps hnd hret hgood' hgrows hcache htried⟩

/-- **The search explores.** The induction is on the number of the entries that are left, and in
it on those that have not been tried. -/
theorem explore (halike : EqualAlike model) (n : ℕ) :
    ∀ (suf pre : List ℕ) (st : Search σ), (rest nodes st.linearized).length ≤ n →
      Standing model history nodes computePartial st pre suf → pre ++ suf ≠ [] →
      Explored model history nodes computePartial st := by
  induction n with
  | zero =>
    intro suf pre st hlen h hne
    rw [Nat.le_zero, List.length_eq_zero_iff, h.entries] at hlen
    exact absurd hlen hne
  | succ n ih =>
    intro suf
    induction suf with
    | nil => exact fun pre st _ h hne => absurd rfl (h.ne_nil hboard hne)
    | cons a suf ihs =>
      intro pre st hlen h hne
      cases hmark : markAt nodes a with
      | ret j => exact h.explored_ret hmark
      | call i =>
        rcases h.call hboard halike hmark fun st' hlt hgood hentry hnil =>
          ih _ [] st' (Nat.le_of_lt_succ (hlt.trans_le hlen)) ⟨hgood, rfl, hentry, by simp⟩ hnil
          with hexp | ⟨c, g, hm⟩
        · exact hexp
        · exact .trans hm.steps hm.grows hm.cache
            (ihs (pre ++ [a]) _ hlen (h.next hmark hm) (by simp))

end Loop

end Mit6824.PorcSearch
