import Mit6824.Merge
import Mit6824.PorcEntries
import Mit6824.PorcModels

/-!
The partition by keys (`models/kv.go`).

A history of a map is linearizable just when for every key the operations on that key are: what a
map does to one key does not depend on the others, and orders of the parts can be put together.
-/

namespace Mit6824.PorcKv

open Mit6824.GoData Mit6824.MapOrder Mit6824.Merge Mit6824.PorcChecker Mit6824.PorcEntries
open Mit6824.PorcModels Function

/-- A map from strings to strings, of which `kvModel` is one key. -/
def mapModel : Model (GoString → GoString) KvInput KvOutput where
  partition := none
  init := fun _ => []
  step := fun m inp out =>
    let (ok, value) := kvStep (m inp.key) inp out
    (ok, update m inp.key value)
  equal := none

variable {history lin : List KvOperation}

def onKey (k : GoString) (history : List KvOperation) : List KvOperation :=
  history.filter fun op => op.input.key = k

/-- The keys of a map do not disturb each other. -/
lemma legal_mapModel {m : GoString → GoString} :
    Legal mapModel m lin ↔ ∀ k, Legal kvModel (m k) (onKey k lin) := by
  induction lin generalizing m with
  | nil => simp [Legal, onKey]
  | cons op lin ih =>
    set key := op.input.key with hkey
    set value := (kvStep (m key) op.input op.output).2 with hvalue
    have hcons : Legal mapModel m (op :: lin) ↔ (kvStep (m key) op.input op.output).1 ∧
        ∀ k, Legal kvModel (update m key value k) (onKey k lin) := by
      rw [← ih]
      rfl
    have hsame : Legal kvModel (m key) (onKey key (op :: lin)) ↔
        (kvStep (m key) op.input op.output).1 ∧ Legal kvModel value (onKey key lin) := by
      rw [onKey, List.filter_cons_of_pos (by simp [hkey])]
      rfl
    have hother : ∀ k, k ≠ key → onKey k (op :: lin) = onKey k lin := fun k hk =>
      List.filter_cons_of_neg (by simpa [← hkey] using Ne.symm hk)
    rw [hcons]
    constructor
    · rintro ⟨hok, hlin⟩ k
      by_cases hk : k = key
      · subst hk
        refine hsame.mpr ⟨hok, ?_⟩
        have := hlin key
        rwa [update_self] at this
      · rw [hother k hk]
        have := hlin k
        rwa [update_of_ne hk] at this
    · intro hlin
      obtain ⟨hok, hval⟩ := hsame.mp (hlin key)
      refine ⟨hok, fun k => ?_⟩
      by_cases hk : k = key
      · rw [hk, update_self]
        exact hval
      · rw [update_of_ne hk, ← hother k hk]
        exact hlin k

/-! ### What the partition is -/

lemma lookup_foldl (history : List KvOperation) (m : GoMap GoString (List KvOperation))
    (k : GoString) :
    ((history.foldl (fun m v => m.insert v.input.key ((m.lookup v.input.key).getD [] ++ [v]))
      m).lookup k).getD [] = (m.lookup k).getD [] ++ onKey k history := by
  induction history generalizing m with
  | nil => simp [onKey]
  | cons op history ih =>
    rw [List.foldl_cons, ih]
    by_cases hk : op.input.key = k
    · subst hk
      simp [onKey, Finmap.lookup_insert]
    · rw [Finmap.lookup_insert_of_ne _ (Ne.symm hk)]
      simp [onKey, hk]

lemma lookup_byKey (k : GoString) : ((byKey history).lookup k).getD [] = onKey k history := by
  simpa [byKey] using lookup_foldl history ∅ k

lemma mem_foldl {m : GoMap GoString (List KvOperation)} {k : GoString} :
    k ∈ history.foldl (fun m v => m.insert v.input.key ((m.lookup v.input.key).getD [] ++ [v])) m ↔
      k ∈ m ∨ ∃ op ∈ history, op.input.key = k := by
  induction history generalizing m with
  | nil => simp
  | cons op history ih =>
    rw [List.foldl_cons, ih, Finmap.mem_insert, List.exists_mem_cons_iff, @eq_comm _ k,
      @or_comm (op.input.key = k), or_assoc]

lemma mem_byKey {k : GoString} : k ∈ byKey history ↔ ∃ op ∈ history, op.input.key = k := by
  simp [byKey, mem_foldl, Finmap.notMem_empty]

def keys (history : List KvOperation) : List GoString := Order.ascending.visit (byKey history).keys

lemma kvPartition_eq : kvPartition history = (keys history).map fun k => onKey k history :=
  List.map_congr_left fun k _ => lookup_byKey k

lemma nodup_keys : (keys history).Nodup := by
  rw [← Multiset.coe_nodup, keys, Order.visits]
  exact (byKey history).keys.nodup

lemma mem_keys {k : GoString} : k ∈ keys history ↔ ∃ op ∈ history, op.input.key = k := by
  rw [← Multiset.mem_coe, keys, Order.visits, Finset.mem_val, Finmap.mem_keys, mem_byKey]

/-! ### Locality -/

/-- Lists with the same operations on every key. -/
lemma perm_of_onKey {l l' : List KvOperation} (h : ∀ k, (onKey k l).Perm (onKey k l')) :
    l.Perm l' := by
  refine List.perm_iff_count.mpr fun op => ?_
  have hcount : ∀ l : List KvOperation, l.count op = (onKey op.input.key l).count op := fun l =>
    (List.count_filter (by simp)).symm
  rw [hcount l, hcount l', (h op.input.key).count_eq]

lemma flatten_map_of_nil {K α : Type*} {f : K → List α} {ks : List K} {k : K} (hnd : ks.Nodup)
    (hk : k ∈ ks) (hnil : ∀ k' ∈ ks, k' ≠ k → f k' = []) : (ks.map f).flatten = f k := by
  induction ks with
  | nil => cases hk
  | cons k' ks ih =>
    obtain ⟨hk', hnd⟩ := List.nodup_cons.mp hnd
    rw [List.map_cons, List.flatten_cons]
    by_cases h : k' = k
    · subst h
      have hrest : (ks.map f).flatten = [] := by
        rw [List.flatten_eq_nil_iff, List.forall_mem_map]
        exact fun k hk => hnil k (List.mem_cons_of_mem _ hk) fun h => hk' (h ▸ hk)
      rw [hrest, List.append_nil]
    · rw [hnil k' List.mem_cons_self h, List.nil_append]
      exact ih hnd ((List.mem_cons.mp hk).resolve_left (Ne.symm h))
        fun k hk => hnil k (List.mem_cons_of_mem _ hk)

/-- What has been put together of the orders of the keys has them for its parts. -/
lemma onKey_merge {f : GoString → List KvOperation} {ks : List GoString} {l : List KvOperation}
    (hnd : ks.Nodup) (hkey : ∀ k, ∀ op ∈ f k, op.input.key = k) (hl : l.Perm (ks.map f).flatten)
    {k : GoString} (hk : k ∈ ks) (hsub : (f k).Sublist l) : onKey k l = f k := by
  have hself : onKey k (f k) = f k :=
    List.filter_eq_self.mpr fun op hop => decide_eq_true (hkey k op hop)
  have hperm : (onKey k l).Perm (f k) := by
    refine (hl.filter _).trans (List.Perm.of_eq ?_)
    rw [List.filter_flatten, List.map_map]
    refine (flatten_map_of_nil hnd hk fun k' _ hne => ?_).trans hself
    exact List.filter_eq_nil_iff.mpr fun op hop hdec =>
      hne ((hkey k' op hop).symm.trans (of_decide_eq_true hdec))
  have hsub' : (f k).Sublist (onKey k l) := hself ▸ hsub.filter _
  exact (hsub'.eq_of_length hperm.length_eq.symm).symm

/-- **Locality.** A history is linearizable as one of a map just when all parts are. -/
lemma linearizable_mapModel_iff (ht : Timed history) : Linearizable mapModel history ↔
    ∀ part ∈ kvPartition history, Linearizable kvModel part := by
  rw [kvPartition_eq, List.forall_mem_map]
  constructor
  · rintro ⟨lin, hperm, hpw, hlegal⟩ k _
    exact ⟨onKey k lin, hperm.filter _, hpw.filter _, legal_mapModel.mp hlegal k⟩
  · intro hparts
    have hnil : ∀ k, k ∉ keys history → onKey k history = [] := fun k hk =>
      List.filter_eq_nil_iff.mpr fun op hop hkey =>
        hk (mem_keys.mpr ⟨op, hop, of_decide_eq_true hkey⟩)
    have hall : ∀ k, Linearizable kvModel (onKey k history) := by
      intro k
      by_cases hk : k ∈ keys history
      · exact hparts k hk
      · rw [hnil k hk]
        exact ⟨[], .nil, .nil, trivial⟩
    choose f hperm hpw hlegal using hall
    have hkey : ∀ k, ∀ op ∈ f k, op.input.key = k := fun k op hop =>
      of_decide_eq_true (List.mem_filter.mp ((hperm k).mem_iff.mp hop)).2
    obtain ⟨l, hl, hkeeps, hsub⟩ : ∃ l : List KvOperation,
        l.Perm ((keys history).map f).flatten ∧ KeepsTime Operation.call Operation.ret l ∧
          ∀ p ∈ (keys history).map f, p.Sublist l := by
      refine exists_merge (List.forall_mem_map.mpr fun k _ => hpw k)
        (List.forall_mem_map.mpr fun k _ op hop => ht op ?_)
      exact List.mem_of_mem_filter ((hperm k).mem_iff.mp hop)
    have honKey : ∀ k, onKey k l = f k := by
      intro k
      by_cases hk : k ∈ keys history
      · exact onKey_merge nodup_keys hkey hl hk (hsub _ (List.mem_map_of_mem hk))
      · have hf : f k = [] := List.perm_nil.mp (hnil k hk ▸ hperm k)
        rw [hf]
        refine List.filter_eq_nil_iff.mpr fun op hop hdec => hk ?_
        obtain ⟨p, hp, hop⟩ := List.mem_flatten.mp (hl.mem_iff.mp hop)
        obtain ⟨k', hk', rfl⟩ := List.mem_map.mp hp
        rwa [← of_decide_eq_true hdec, hkey k' op hop]
    refine ⟨l, perm_of_onKey fun k => honKey k ▸ hperm k, hkeeps, legal_mapModel.mpr fun k => ?_⟩
    rw [honKey]
    exact hlegal k

end Mit6824.PorcKv
