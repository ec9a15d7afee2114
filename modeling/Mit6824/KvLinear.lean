import Mit6824.KvHistory

/-!
Linearizability of the key/value service.

A write takes effect where it is fresh in the log, and a read takes effect after the prefix of
the log that the answering server had applied, which need not be where the read is in the log.
-/

namespace Mit6824.KvLinear

open Mit6824.GoData Mit6824.Labgob Mit6824.Sessions Mit6824.KvServer Mit6824.KvReplay
open Mit6824.KvSystem Mit6824.KvSteps Mit6824.KvHistory Mit6824.Linear Mit6824.Runs Function

/-- A map from strings to strings in which a missing key has the empty string. -/
def mapSpec : Spec (GoString → GoString) Op GoString where
  init := fun _ => []
  next := fun m op =>
    match op.type with
    | .put => update m op.key op.value
    | .append => update m op.key (m op.key ++ op.value)
    | .get => m
  result := fun m op =>
    match op.type with
    | .get => m op.key
    | _ => []

def asMap (data : Data) : GoString → GoString := fun key => (storeGet data key).1

lemma asMap_insert (data : Data) (key value : GoString) :
    asMap (data.insert key value) = update (asMap data) key value := by
  funext key'
  unfold asMap storeGet
  by_cases h : key' = key
  · subst h
    rw [Finmap.lookup_insert, update_self]
  · rw [Finmap.lookup_insert_of_ne _ h, update_of_ne h]

/-- **The store refines the map.** -/
lemma asMap_exec (data : Data) (op : Op) :
    asMap (exec data op) = mapSpec.next (asMap data) op := by
  cases htype : op.type with
  | put => simp only [exec, mapSpec, htype, storePut, asMap_insert]
  | append =>
    simp only [exec, mapSpec, htype, storeAppend]
    cases hl : data.lookup op.key with
    | none => simp [asMap_insert, asMap, storeGet, hl]
    | some val => simp [asMap_insert, asMap, storeGet, hl]
  | get => simp only [exec, mapSpec, htype]

lemma value_reply (data : Data) (op : Op) :
    (KVServer.reply ⟨data, ∅⟩ op).value = mapSpec.result (asMap data) op := by
  cases htype : op.type <;> simp [KVServer.reply, mapSpec, htype, asMap]

/-! ### The order in which the operations take effect -/

abbrev Effect := Done (ℕ × ℕ) Op GoString

def effect (op : Op) (value : GoString) : Effect := ⟨(op.clientId, op.seqNum), op, value⟩

def readAt (place : ℕ) : Moment → Option Effect
  | .returned op value p => if op.type = .get ∧ p = place then some (effect op value) else none
  | .invoked _ _ => none

/-- The reads that were answered after the first commands of the log. -/
def readsAt (history : List Moment) (place : ℕ) : List Effect := history.filterMap (readAt place)

def writeAt (log : List Op) (k : ℕ) : List Effect :=
  match log[k]? with
  | some op => if op.type ≠ .get ∧ Fresh (log.take k) op then [effect op []] else []
  | none => []

/-- What takes effect up to a place of the log, each with its place. -/
def line (log : List Op) (history : List Moment) : ℕ → List (Effect × ℕ)
  | 0 => (readsAt history 0).map (·, 0)
  | k + 1 => line log history k ++ (writeAt log k ++ readsAt history (k + 1)).map (·, k + 1)

lemma mem_readsAt {history : List Moment} {place : ℕ} {d : Effect} :
    d ∈ readsAt history place ↔
      ∃ op value, .returned op value place ∈ history ∧ op.type = .get ∧ d = effect op value := by
  unfold readsAt
  rw [List.mem_filterMap]
  constructor
  · rintro ⟨m, hm, hd⟩
    cases m with
    | invoked op l => cases hd
    | returned op value p =>
      by_cases h : op.type = .get ∧ p = place
      · rw [readAt, if_pos h] at hd
        obtain ⟨hget, rfl⟩ := h
        exact ⟨op, value, hm, hget, (Option.some.inj hd).symm⟩
      · rw [readAt, if_neg h] at hd
        cases hd
  · rintro ⟨op, value, hm, hget, rfl⟩
    exact ⟨_, hm, if_pos ⟨hget, rfl⟩⟩

lemma mem_writeAt {log : List Op} {k : ℕ} {d : Effect} :
    d ∈ writeAt log k ↔
      ∃ op, log[k]? = some op ∧ op.type ≠ .get ∧ Fresh (log.take k) op ∧ d = effect op [] := by
  unfold writeAt
  cases hop : log[k]? with
  | none => simp
  | some op =>
    simp only [Option.some.injEq]
    by_cases h : op.type ≠ .get ∧ Fresh (log.take k) op
    · rw [if_pos h, List.mem_singleton]
      constructor
      · exact fun hd => ⟨op, rfl, h.1, h.2, hd⟩
      · rintro ⟨op', rfl, -, -, hd⟩
        exact hd
    · rw [if_neg h]
      constructor
      · exact fun hd => absurd hd List.not_mem_nil
      · rintro ⟨op', rfl, hget, hf, -⟩
        exact absurd ⟨hget, hf⟩ h

/-- What takes effect at a place: the reads there, or the write before it. -/
def EffectAt (log : List Op) (history : List Moment) (d : Effect) (place : ℕ) : Prop :=
  d ∈ readsAt history place ∨ ∃ k, place = k + 1 ∧ d ∈ writeAt log k

lemma mem_line {log : List Op} {history : List Moment} {k place : ℕ} {d : Effect} :
    (d, place) ∈ line log history k ↔ place ≤ k ∧ EffectAt log history d place := by
  induction k with
  | zero =>
    simp only [line, List.mem_map, Prod.mk.injEq, EffectAt]
    constructor
    · rintro ⟨d', hd', rfl, rfl⟩
      exact ⟨le_rfl, Or.inl hd'⟩
    · rintro ⟨hle, hd | ⟨k, rfl, -⟩⟩
      · obtain rfl := Nat.le_zero.mp hle
        exact ⟨d, hd, rfl, rfl⟩
      · omega
  | succ k ih =>
    rw [line, List.mem_append, ih, List.mem_map]
    simp only [List.mem_append, Prod.mk.injEq]
    constructor
    · rintro (⟨hle, hd⟩ | ⟨d', hd' | hd', rfl, rfl⟩)
      · exact ⟨by omega, hd⟩
      · exact ⟨le_rfl, Or.inr ⟨k, rfl, hd'⟩⟩
      · exact ⟨le_rfl, Or.inl hd'⟩
    · rintro ⟨hle, hd⟩
      by_cases hk : place ≤ k
      · exact Or.inl ⟨hk, hd⟩
      · obtain rfl : place = k + 1 := by omega
        refine Or.inr ⟨d, ?_, rfl, rfl⟩
        rcases hd with hd | ⟨k', hk', hd⟩
        · exact Or.inr hd
        · obtain rfl : k = k' := by omega
          exact Or.inl hd

lemma line_sorted (log : List Op) (history : List Moment) (k : ℕ) :
    (line log history k).Pairwise fun x y => x.2 ≤ y.2 := by
  induction k with
  | zero => exact List.pairwise_map.mpr (List.pairwise_of_forall fun _ _ => le_rfl)
  | succ k ih =>
    refine List.pairwise_append.mpr ⟨ih,
      List.pairwise_map.mpr (List.pairwise_of_forall fun _ _ => le_rfl), ?_⟩
    rintro ⟨d, p⟩ hd y hy
    obtain ⟨d', -, rfl⟩ := List.mem_map.mp hy
    exact (mem_line.mp hd).1.trans (Nat.le_succ k)

/-- **The results are those of the map.** -/
lemma line_legal {log : List Op} {history : List Moment}
    (hreads : ∀ op value p, .returned op value p ∈ history → Answered log op value p) {k : ℕ}
    (hk : k ≤ log.length) :
    Legal mapSpec mapSpec.init ((line log history k).map Prod.fst) ∧
      after mapSpec mapSpec.init ((line log history k).map Prod.fst) =
        asMap (storeOf (log.take k)) := by
  -- reads change nothing and get the value of the prefix they were answered from
  have hr : ∀ p, Legal mapSpec (asMap (storeOf (log.take p))) (readsAt history p) ∧
      after mapSpec (asMap (storeOf (log.take p))) (readsAt history p) =
        asMap (storeOf (log.take p)) := by
    intro p
    refine legal_of_reads (fun d hd => ?_) (fun d hd => ?_)
    all_goals obtain ⟨op, value, hm, hget, rfl⟩ := mem_readsAt.mp hd
    · simp [effect, mapSpec, hget]
    · rw [← value_reply]
      exact (hreads op value p hm).value
  induction k with
  | zero =>
    simp only [line, List.map_map]
    have hmap : (readsAt history 0).map (Prod.fst ∘ fun d => (d, 0)) = readsAt history 0 :=
      List.map_id _
    rw [hmap]
    exact hr 0
  | succ k ih =>
    obtain ⟨hlegal, hafter⟩ := ih (Nat.le_of_succ_le hk)
    have hop : log[k]? = some log[k] := List.getElem?_eq_getElem hk
    have hmap : (writeAt log k ++ readsAt history (k + 1)).map (Prod.fst ∘ fun d => (d, k + 1)) =
        writeAt log k ++ readsAt history (k + 1) := List.map_id _
    -- the write takes the prefix to the next one
    have hw : Legal mapSpec (asMap (storeOf (log.take k))) (writeAt log k) ∧
        after mapSpec (asMap (storeOf (log.take k))) (writeAt log k) =
          asMap (storeOf (log.take (k + 1))) := by
      rw [take_succ_of_getElem? hop, storeOf_snoc]
      unfold writeAt
      rw [hop]
      dsimp only
      by_cases hf : Fresh (log.take k) log[k]
      · rw [if_pos hf, asMap_exec]
        by_cases hget : log[k].type = .get
        · rw [if_neg fun h => h.1 hget]
          exact ⟨trivial, by simp [mapSpec, hget]⟩
        · rw [if_pos ⟨hget, hf⟩]
          refine ⟨⟨?_, trivial⟩, rfl⟩
          cases htype : log[k].type <;> simp_all [effect, mapSpec]
      · rw [if_neg hf, if_neg fun h => hf h.2]
        exact ⟨trivial, rfl⟩
    rw [line, List.map_append, List.map_map, hmap, legal_append, legal_append, after_append,
      after_append, hafter, hw.2]
    exact ⟨⟨hlegal, hw.1, (hr _).1⟩, (hr _).2⟩

/-! ### Linearizability -/

variable {n : ℕ} {x : System n}

/-- What takes effect has been invoked. -/
lemma EffectAt.invoked (ht : Traced x) {d : Effect} {p : ℕ} (h : EffectAt x.log x.history d p) :
    d.id = (d.op.clientId, d.op.seqNum) ∧ ∃ l, .invoked d.op l ∈ x.history := by
  rcases h with h | ⟨k, -, h⟩
  · obtain ⟨op, value, hm, -, rfl⟩ := mem_readsAt.mp h
    exact ⟨rfl, (ht.returned op value p hm).2.2⟩
  · obtain ⟨op, hop, -, -, rfl⟩ := mem_writeAt.mp h
    exact ⟨rfl, ht.pending op (Or.inl (List.mem_of_getElem? hop))⟩

lemma returned_unique (ht : Traced x) {op : Op} {v v' : GoString} {p p' : ℕ}
    (h : .returned op v p ∈ x.history) (h' : .returned op v' p' ∈ x.history) :
    v = v' ∧ p = p' := by
  by_contra hne
  have hpair := List.pairwise_filterMap.mp ht.once
  have hsymm : Std.Symm fun m m' : Moment =>
      ∀ a, answeredOp m = some a → ∀ b, answeredOp m' = some b → a ≠ b :=
    ⟨fun m m' hmm a ha b hb hab => hmm b hb a ha hab.symm⟩
  refine hpair.forall h h' (fun heq => hne ?_) op rfl op rfl rfl
  exact ⟨(Moment.returned.inj heq).2.1, (Moment.returned.inj heq).2.2⟩

lemma EffectAt.unique (ht : Traced x) {d d' : Effect} {p p' : ℕ}
    (h : EffectAt x.log x.history d p) (h' : EffectAt x.log x.history d' p')
    (hid : d.id = d'.id) : d.op = d'.op ∧ p = p' := by
  obtain ⟨hd, l, hl⟩ := h.invoked ht
  obtain ⟨hd', l', hl'⟩ := h'.invoked ht
  rw [hd, hd', Prod.mk.injEq] at hid
  have hop : d.op = d'.op := (ht.unique _ l _ l' hl hl' hid).1
  refine ⟨hop, ?_⟩
  rcases h with h | ⟨k, rfl, h⟩ <;> rcases h' with h' | ⟨k', rfl, h'⟩
  · obtain ⟨op, value, hm, -, rfl⟩ := mem_readsAt.mp h
    obtain ⟨op', value', hm', -, rfl⟩ := mem_readsAt.mp h'
    obtain rfl : op = op' := hop
    exact (returned_unique ht hm hm').2
  · obtain ⟨op, value, -, hget, rfl⟩ := mem_readsAt.mp h
    obtain ⟨op', -, hget', -, rfl⟩ := mem_writeAt.mp h'
    obtain rfl : op = op' := hop
    exact absurd hget hget'
  · obtain ⟨op, -, hget, -, rfl⟩ := mem_writeAt.mp h
    obtain ⟨op', value, -, hget', rfl⟩ := mem_readsAt.mp h'
    obtain rfl : op = op' := hop
    exact absurd hget' hget
  · obtain ⟨op, hk, -, hf, rfl⟩ := mem_writeAt.mp h
    obtain ⟨op', hk', -, hf', rfl⟩ := mem_writeAt.mp h'
    obtain rfl : op = op' := hop
    rw [fresh_unique hk hk' rfl rfl hf hf']

lemma line_nodup (ht : Traced x) (k : ℕ) :
    (line x.log x.history k).Pairwise fun d d' => d.1.id ≠ d'.1.id := by
  -- reads at one place are different operations
  have hreads : ∀ p, (readsAt x.history p).Pairwise fun d d' => d.id ≠ d'.id := by
    intro p
    have hpair := List.pairwise_filterMap.mp ht.once
    refine List.pairwise_filterMap.mpr (hpair.imp_of_mem ?_)
    rintro m m' hm hm' hne d hd d' hd' hid
    have hin : d ∈ readsAt x.history p := List.mem_filterMap.mpr ⟨m, hm, hd⟩
    have hin' : d' ∈ readsAt x.history p := List.mem_filterMap.mpr ⟨m', hm', hd'⟩
    have hop := (EffectAt.unique ht (Or.inl hin) (Or.inl hin') hid).1
    have hans : ∀ {m d}, readAt p m = some d → answeredOp m = some d.op := by
      intro m d hd
      cases m with
      | invoked op l => cases hd
      | returned op v q =>
        simp only [readAt] at hd
        split at hd
        · obtain rfl := Option.some.inj hd
          rfl
        · cases hd
    exact hne d.op (hans hd) d'.op (hans hd') hop
  induction k with
  | zero => exact List.pairwise_map.mpr (hreads 0)
  | succ k ih =>
    refine List.pairwise_append.mpr ⟨ih, List.pairwise_map.mpr ?_, ?_⟩
    · refine List.pairwise_append.mpr ⟨?_, hreads _, fun d hd d' hd' hid => ?_⟩
      · unfold writeAt
        split
        · split
          · exact List.pairwise_singleton _ _
          · exact List.Pairwise.nil
        · exact List.Pairwise.nil
      · have hop := (EffectAt.unique ht (Or.inr ⟨k, rfl, hd⟩) (Or.inl hd') hid).1
        obtain ⟨op, -, hget, -, rfl⟩ := mem_writeAt.mp hd
        obtain ⟨op', v, -, hget', rfl⟩ := mem_readsAt.mp hd'
        obtain rfl : op = op' := hop
        exact hget hget'
    · rintro ⟨d, p⟩ hd y hy hid
      obtain ⟨d', hd', rfl⟩ := List.mem_map.mp hy
      obtain ⟨hle, hat⟩ := mem_line.mp hd
      have hat' : EffectAt x.log x.history d' (k + 1) := by
        rcases List.mem_append.mp hd' with hd' | hd'
        · exact Or.inr ⟨k, rfl, hd'⟩
        · exact Or.inl hd'
      have := (hat.unique ht hat' hid).2
      omega

/-- What returned took effect in the prefix it was answered from. -/
lemma EffectAt.le_returned (ht : Traced x) {d : Effect} {p q : ℕ} {op : Op} {v : GoString}
    (h : EffectAt x.log x.history d p) (hr : .returned op v q ∈ x.history)
    (hid : d.id = (op.clientId, op.seqNum)) : p ≤ q := by
  obtain ⟨hans, -, l, hl⟩ := ht.returned op v q hr
  obtain ⟨hd, l', hl'⟩ := h.invoked ht
  rw [hd, Prod.mk.injEq] at hid
  have hop : d.op = op := (ht.unique _ l' _ l hl' hl hid).1
  rcases h with h | ⟨k, rfl, h⟩
  · obtain ⟨op', v', hm, -, rfl⟩ := mem_readsAt.mp h
    obtain rfl : op' = op := hop
    exact (returned_unique ht hm hr).2.le
  · obtain ⟨op', -, -, hf, rfl⟩ := mem_writeAt.mp h
    obtain rfl : op' = op := hop
    -- at and after the place of the answer the operation is not fresh
    by_contra hlt
    have hmono : high (x.log.take q) op'.clientId ≤ high (x.log.take k) op'.clientId :=
      high_take_mono _ (by omega) _
    have hdone := hans.done
    have hlow : high (x.log.take k) op'.clientId < op'.seqNum := hf
    omega

/-- What was invoked takes effect after what was in the log by then. -/
lemma EffectAt.invoked_lt (ht : Traced x) (ho : InOrder x.log) {d : Effect} {p l : ℕ} {op : Op}
    (h : EffectAt x.log x.history d p) (hl : .invoked op l ∈ x.history)
    (hid : d.id = (op.clientId, op.seqNum)) : l < p := by
  obtain ⟨hd, l', hl'⟩ := h.invoked ht
  rw [hd, Prod.mk.injEq] at hid
  obtain ⟨hop, rfl⟩ := ht.unique _ l' _ l hl' hl hid
  have hnot := (ht.place op l' hl).2
  rcases h with h | ⟨k, rfl, h⟩
  · obtain ⟨op', v, hm, -, rfl⟩ := mem_readsAt.mp h
    obtain rfl : op' = op := hop
    obtain ⟨o, hin, hc, hs⟩ := mem_numbers.mp
      (mem_numbers_of_answered ho (ht.returned op' v p hm).1 (ht.seq op' l' hl).1)
    by_contra hlt
    exact hnot o (List.take_subset_take_left _ (Nat.not_lt.mp hlt) hin) ⟨hc, hs⟩
  · obtain ⟨op', hk, -, -, rfl⟩ := mem_writeAt.mp h
    obtain rfl : op' = op := hop
    by_contra hlt
    exact hnot op' (mem_take_of_getElem? hk (by omega)) ⟨rfl, rfl⟩

/-- Operations of which one returned before the other was invoked take effect in that order. -/
lemma lt_of_precedes (ht : Traced x) (ho : InOrder x.log) {d d' : Effect} {p p' : ℕ}
    (h : EffectAt x.log x.history d p) (h' : EffectAt x.log x.history d' p')
    (hprec : Precedes x.events d.id d'.id) : p < p' := by
  obtain ⟨a, r, b, op, c, heq⟩ := hprec
  unfold System.events at heq
  obtain ⟨a', rest, hx, -, hrest⟩ := List.map_eq_append_iff.mp heq
  obtain ⟨m, rest', rfl, hm, hrest'⟩ := List.map_eq_cons_iff.mp hrest
  obtain ⟨b', rest'', rfl, -, hrest''⟩ := List.map_eq_append_iff.mp hrest'
  obtain ⟨m', c', rfl, hm', -⟩ := List.map_eq_cons_iff.mp hrest''
  have hord := ht.order
  rw [hx] at hord
  have hin : InTime m m' :=
    (List.pairwise_cons.mp (List.pairwise_append.mp hord).2.1).1 m' (by simp)
  cases m with
  | invoked op₁ l => cases hm
  | returned op₁ v q =>
    cases m' with
    | returned op₂ v' q' => cases hm'
    | invoked op₂ l =>
      have hmem : Moment.returned op₁ v q ∈ x.history := by rw [hx]; simp
      have hmem' : Moment.invoked op₂ l ∈ x.history := by rw [hx]; simp
      have hle := h.le_returned ht hmem (Event.ret.inj hm).1.symm
      have hlt := h'.invoked_lt ht ho hmem' (Event.inv.inj hm').1.symm
      have hql : q ≤ l := hin
      omega

lemma exists_effectAt (ht : Traced x) (ho : InOrder x.log) {op : Op} {v : GoString} {p : ℕ}
    (hr : .returned op v p ∈ x.history) :
    ∃ q ≤ p, EffectAt x.log x.history (effect op v) q := by
  obtain ⟨hans, -, l, hl⟩ := ht.returned op v p hr
  by_cases hget : op.type = .get
  · exact ⟨p, le_rfl, Or.inl (mem_readsAt.mpr ⟨op, v, hr, hget, rfl⟩)⟩
  · obtain ⟨k, hlt, hk, hf⟩ := exists_fresh_of_answered ht ho hl hans
    have hv : v = [] := by
      rw [hans.value, value_reply]
      cases htype : op.type <;> simp_all [mapSpec]
    exact ⟨k + 1, hlt, Or.inr ⟨k, rfl, mem_writeAt.mpr ⟨op, hk, hget, hf, by rw [hv]⟩⟩⟩

theorem linearizable_of_inOrder (ht : Traced x) (ho : InOrder x.log) :
    Linearizable mapSpec x.events := by
  have hle : ∀ op value p, .returned op value p ∈ x.history → Answered x.log op value p :=
    fun op value p h => (ht.returned op value p h).1
  have hat : ∀ {d p}, (d, p) ∈ line x.log x.history x.log.length →
      EffectAt x.log x.history d p := fun h => (mem_line.mp h).2
  refine ⟨(line x.log x.history x.log.length).map Prod.fst, ?_, ?_, ?_, ?_, ?_⟩
  · rw [List.map_map]
    exact List.pairwise_map.mpr (line_nodup ht _)
  · intro d hd
    obtain ⟨⟨d, p⟩, hin, rfl⟩ := List.mem_map.mp hd
    obtain ⟨hid, l, hl⟩ := (hat hin).invoked ht
    exact List.mem_map.mpr ⟨_, hl, by rw [hid]; rfl⟩
  · intro i r hr
    obtain ⟨m, hm, hev⟩ := List.mem_map.mp hr
    cases m with
    | invoked op l => cases hev
    | returned op v p =>
      obtain ⟨rfl, rfl⟩ := Event.ret.inj hev
      obtain ⟨q, hq, hat'⟩ := exists_effectAt ht ho hm
      have hlen : q ≤ x.log.length := hq.trans (hle op v p hm).le
      exact ⟨effect op v, List.mem_map.mpr ⟨_, mem_line.mpr ⟨hlen, hat'⟩, rfl⟩, rfl, rfl⟩
  · exact (line_legal hle le_rfl).1
  · refine order_of_rank (line_sorted _ _ _) fun d hd d' hd' hprec => ?_
    exact lt_of_precedes ht ho (hat hd) (hat hd') hprec

/-- **Linearizability.** In every run in which each clerk has one open operation at a time, what
the clerks see is what a map could give to one operation after the other. -/
theorem kvraft_linearizable [Coded (ℕ × Data × GoMap ℕ ℕ)] (x : System n)
    (hr : ReachesIf step Sequential System.init x) :
    Linearizable mapSpec x.events := by
  obtain ⟨-, ht, ho⟩ := inOrder_of_sequential hr
  exact linearizable_of_inOrder ht ho

/-- A put is started at two servers and enters the log twice; the first restarts, the second
answers. Meanwhile another clerk reads, and the first clerk goes on with an append. -/
def retried : List (Action 2) :=
  let put : Op := ⟨.put, [97], [120], 1, 1⟩
  let get : Op := ⟨.get, [97], [], 1, 2⟩
  List.flatten [[.invoke 1 .put [97] [120], .send 1 0 0, .handle 0 true, .send 1 0 1,
      .handle 1 true].map .act,
    [.commit 0, .commit 0],
    [.apply 1 put 1, .note 1, .invoke 2 .get [97] [], .send 2 0 1, .handle 2 true].map .act,
    [.commit 0],
    [.restart 0, .wake 1, .answer 1, .return 1, .apply 1 put 2, .invoke 1 .append [97] [121],
      .apply 1 get 3, .note 1, .wake 2, .answer 2, .return 2].map .act]

theorem kvraft_linearizable_retried :
    ∃ x : System 2, ReachesIf step Sequential System.init x ∧
      x.history.map Moment.event = [.inv (1, 1) ⟨.put, [97], [120], 1, 1⟩,
        .inv (2, 1) ⟨.get, [97], [], 1, 2⟩, .ret (1, 1) [],
        .inv (1, 2) ⟨.append, [97], [121], 2, 1⟩, .ret (2, 1) [120]] ∧
      Linearizable mapSpec x.events := by
  have hrun : (runIf step Sequential System.init retried).map
      (fun x => x.history.map Moment.event) =
      some [.inv (1, 1) ⟨.put, [97], [120], 1, 1⟩, .inv (2, 1) ⟨.get, [97], [], 1, 2⟩,
        .ret (1, 1) [], .inv (1, 2) ⟨.append, [97], [121], 2, 1⟩, .ret (2, 1) [120]] := by
    decide +kernel
  obtain ⟨x, hx, hev⟩ := Option.map_eq_some_iff.mp hrun
  have hr := reachesIf_of_runIf hx
  exact ⟨x, hr, hev, kvraft_linearizable x hr⟩

end Mit6824.KvLinear
