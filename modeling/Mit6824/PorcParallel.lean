import Mit6824.PorcVerdict
import Mit6824.Runs

/-!
The partitions of a history, checked in parallel (`checkParallel` of `porcupine/checker.go`).

Every partition has a goroutine that searches it. The main goroutine receives their results until
it knows the answer or the time is over; it then sets `kill`, which every search reads in each of
its rounds. The goroutines take their steps in any order.
-/

namespace Mit6824.PorcParallel

open Mit6824.Runs Mit6824.PorcChecker Mit6824.PorcEntries Mit6824.PorcModels Mit6824.PorcSearch
open Mit6824.PorcVerdict Mit6824.GoData

variable {σ ι ο : Type}

inductive CheckResult
  | unknown
  | ok
  | illegal
  deriving DecidableEq

inductive Worker (σ : Type)
  | searching (st : Search σ)
  | finished

/-- Where the main goroutine is: at its `select`, waiting for the rest of the results, or at its
end. -/
inductive Phase
  | selecting
  | draining
  | returned (result : CheckResult)
  | panicked
  deriving DecidableEq

structure Check (σ : Type) where
  workers : List (Worker σ)
  longest : List (Option Longest)
  results : List Bool
  kill : Bool
  count : ℕ
  ok : Bool
  timedOut : Bool
  phase : Phase

inductive Act
  | work (i : ℕ)
  | receive
  | timeout
  | wait
  deriving DecidableEq

def result (ok timedOut : Bool) : CheckResult :=
  if !ok then .illegal else if timedOut then .unknown else .ok

section Steps

variable [DecidableEq σ] (model : Model σ ι ο) (computeInfo timeout : Bool)
  (history : List (List (Entry ι ο)))

def Check.init : Check σ where
  workers := history.map fun sub => .searching (startSearch model sub)
  longest := List.replicate history.length none
  results := []
  kill := false
  count := 0
  ok := true
  timedOut := false
  phase := .selecting

/-- The loop is left. With `computeInfo` the other results are waited for. -/
def leave (x : Check σ) : Check σ :=
  { x with phase := if computeInfo then .draining else .returned (result x.ok x.timedOut) }

def send (x : Check σ) (i : ℕ) (ok : Bool) (longest : Longest) : Check σ :=
  { x with
    workers := x.workers.set i .finished, longest := x.longest.set i (some longest),
    results := x.results ++ [ok] }

def work (x : Check σ) (i : ℕ) : Option (Check σ) :=
  match x.workers[i]?, history[i]? with
  | some (.searching st), some sub =>
    match iteration model computeInfo (makeLinkedEntries sub).nodes x.kill st with
    | none => some { x with phase := .panicked }
    | some (.running st) => some { x with workers := x.workers.set i (.searching st) }
    | some (.returned ok longest) => some (send x i ok longest)
  | _, _ => none

def receive (x : Check σ) : Option (Check σ) :=
  match x.phase, x.results with
  | .selecting, r :: results =>
    let x := { x with results := results, count := x.count + 1, ok := x.ok && r }
    if !x.ok && !computeInfo then some (leave computeInfo { x with kill := true })
    else if x.count ≥ history.length then some (leave computeInfo x)
    else some x
  | _, _ => none

def step (x : Check σ) : Act → Option (Check σ)
  | .work i => if x.phase = .panicked then none else work model computeInfo history x i
  | .receive => receive computeInfo history x
  | .timeout =>
    if x.phase = .selecting ∧ timeout = true then
      some (leave computeInfo { x with timedOut := true, kill := true })
    else none
  | .wait =>
    if x.phase = .draining then
      if x.count < history.length then
        match x.results with
        | _ :: results => some { x with results := results, count := x.count + 1 }
        | [] => none
      else some { x with phase := .returned (result x.ok x.timedOut) }
    else none

end Steps

/-! ### Rounds of a search, also of one that is killed -/

section Rounds

variable [DecidableEq σ] {model : Model σ ι ο} {computeInfo : Bool} {nodes : List (Node ι ο)}
  {st st' : Search σ}

def Addressed (nodes : List (Node ι ο)) (st : Search σ) : Prop :=
  ∀ c ∈ st.calls, c.1 < nodes.length

omit [DecidableEq σ] in
lemma exists_seqOf {calls : List (ℕ × σ)} (h : ∀ c ∈ calls, c.1 < nodes.length) :
    ∃ l, seqOf nodes calls = some l := by
  induction calls with
  | nil => exact ⟨[], rfl⟩
  | cons c calls ih =>
    obtain ⟨l, hl⟩ := ih fun c hc => h c (List.mem_cons_of_mem _ hc)
    have hlt := h c List.mem_cons_self
    have hc := List.getElem?_eq_getElem hlt
    refine ⟨l ++ [nodes[c.1].id], ?_⟩
    simp only [seqOf, List.reverse_cons, List.mapM_append] at hl ⊢
    simp [hl, hc]

lemma iteration_killed (h : Addressed nodes st) :
    ∃ ok longest, iteration model computeInfo nodes true st = some (.returned ok longest) := by
  unfold iteration
  split
  · obtain ⟨l, hl⟩ := exists_seqOf h
    exact ⟨true, _, by rw [hl]; rfl⟩
  · exact ⟨false, _, rfl⟩

lemma calls_of_advance {e : ℕ} {nd nd' : Node ι ο}
    (h : advance model nodes st e nd nd' = some (.running st')) :
    st'.calls = st.calls ∨ st'.calls = (e, st.state) :: st.calls := by
  obtain ⟨⟨ok, s⟩, -, h⟩ := Option.bind_eq_some_iff.mp h
  dsimp only at h
  split at h
  · obtain ⟨b, -, h⟩ := Option.bind_eq_some_iff.mp h
    split at h
    · cases h
      exact .inl rfl
    · obtain ⟨L, -, h⟩ := Option.bind_eq_some_iff.mp h
      cases h
      exact .inr rfl
  · cases h
    exact .inl rfl

omit [DecidableEq σ] in
lemma calls_of_backtrack (h : backtrack computeInfo nodes st = some (.running st')) :
    ∃ c, st.calls = c :: st'.calls := by
  unfold backtrack at h
  split at h
  · cases h
  · next e s calls hcalls =>
    obtain ⟨g, -, h⟩ := Option.bind_eq_some_iff.mp h
    obtain ⟨nd, -, h⟩ := Option.bind_eq_some_iff.mp h
    obtain ⟨b, -, h⟩ := Option.bind_eq_some_iff.mp h
    obtain ⟨L, -, h⟩ := Option.bind_eq_some_iff.mp h
    cases h
    exact ⟨_, hcalls⟩

lemma Addressed.iteration (h : Addressed nodes st)
    (hit : iteration model computeInfo nodes false st = some (.running st')) :
    Addressed nodes st' := by
  unfold PorcChecker.iteration at hit
  split at hit
  · obtain ⟨l, -, hl⟩ := Option.bind_eq_some_iff.mp hit
    cases hl
  · rw [if_neg (by simp)] at hit
    obtain ⟨e, he, hit⟩ := Option.bind_eq_some_iff.mp hit
    obtain ⟨nd, hnd, hit⟩ := Option.bind_eq_some_iff.mp hit
    split at hit
    · obtain ⟨nd', -, hit⟩ := Option.bind_eq_some_iff.mp hit
      intro c hc
      rcases calls_of_advance hit with hcalls | hcalls
      · exact h c (hcalls ▸ hc)
      · rw [hcalls] at hc
        rcases List.mem_cons.mp hc with rfl | hc
        · exact (List.getElem?_eq_some_iff.mp hnd).1
        · exact h c hc
    · obtain ⟨c, hcalls⟩ := calls_of_backtrack hit
      exact fun c' hc' => h c' (hcalls ▸ List.mem_cons_of_mem _ hc')

end Rounds

/-! ### What is known of the results -/

section Invariant

variable [DecidableEq σ] (model : Model σ ι ο) (computeInfo timeout : Bool)
  (history : List (List (Entry ι ο))) (v : ℕ → Bool) (g : ℕ → Longest)

/-- The searches come to their ends, with these results. -/
def Ends : Prop := ∀ i sub, history[i]? = some sub →
  Returns model computeInfo (makeLinkedEntries sub).nodes (startSearch model sub) (v i) (g i)

/-- The searches in the order in which they have sent their results. -/
structure Tally (x : Check σ) (sent : List ℕ) : Prop where
  nodup : sent.Nodup
  mem : ∀ i, i ∈ sent ↔ x.workers[i]? = some .finished
  length : sent.length = x.count + x.results.length

/-- At the `select` all results are those of searches that came to their ends. -/
structure Open (x : Check σ) (sent : List ℕ) : Prop where
  kill : x.kill = false
  timedOut : x.timedOut = false
  more : x.count < history.length ∨ history.length = 0
  results : ∃ received, sent.map v = received ++ x.results ∧ received.length = x.count ∧
    x.ok = received.all id

/-- After it the answer is known. -/
structure Decided (x : Check σ) : Prop where
  illegal : x.ok = false → ∃ i < history.length, v i = false
  legal : x.ok = true → x.timedOut = false → ∀ i < history.length, v i = true
  timedOut : x.timedOut = true → timeout = true

structure Inv (x : Check σ) : Prop where
  workers : x.workers.length = history.length
  slots : x.longest.length = history.length
  searching : ∀ i st sub, x.workers[i]? = some (.searching st) → history[i]? = some sub →
    Addressed (makeLinkedEntries sub).nodes st ∧
      Returns model computeInfo (makeLinkedEntries sub).nodes st (v i) (g i)
  alive : x.phase ≠ .panicked
  sent : ∃ sent, Tally x sent ∧ (x.phase = .selecting → Open history v x sent)
  decided : x.phase ≠ .selecting → Decided timeout history v x
  returned : ∀ r, x.phase = .returned r → r = result x.ok x.timedOut ∧
    (computeInfo = true → history.length ≤ x.count)
  noted : ∀ i, x.workers[i]? = some .finished → x.kill = false →
    x.longest[i]? = some (some (g i))
  killed : computeInfo = true → x.kill = true → x.timedOut = true

variable {model computeInfo timeout history v g}

lemma inv_init (hends : Ends model computeInfo history v g) :
    Inv model computeInfo timeout history v g (Check.init model history) := by
  have hget : ∀ (i : ℕ) (w : Worker σ), (Check.init model history).workers[i]? = some w →
      ∃ sub, history[i]? = some sub ∧ w = .searching (startSearch model sub) := by
    intro i w hw
    obtain ⟨sub, hsub, rfl⟩ := Option.map_eq_some_iff.mp (List.getElem?_map ▸ hw)
    exact ⟨sub, hsub, rfl⟩
  have hno : ∀ i : ℕ, (Check.init model history).workers[i]? ≠ some .finished := by
    intro i hi
    obtain ⟨sub, -, hw⟩ := hget i _ hi
    cases hw
  refine ⟨by simp [Check.init], by simp [Check.init], ?_, by simp [Check.init], ?_,
    fun h => absurd rfl h, by simp [Check.init], fun i hi => absurd hi (hno i), ?_⟩
  · intro i st sub hst hsub
    obtain ⟨sub', hsub', hw⟩ := hget i _ hst
    obtain rfl := Option.some.inj (hsub.symm.trans hsub')
    obtain rfl := Worker.searching.inj hw
    exact ⟨fun c hc => (List.not_mem_nil hc).elim, hends i sub hsub⟩
  · refine ⟨[], ⟨List.nodup_nil, fun i => by simp [hno i], rfl⟩, fun _ => ⟨rfl, rfl, ?_, [], ?_⟩⟩
    · show 0 < history.length ∨ _
      omega
    · exact ⟨rfl, rfl, rfl⟩
  · intro _ hk
    cases hk

variable {x x' : Check σ} {i : ℕ} {st : Search σ} {sub : List (Entry ι ο)}

omit [DecidableEq σ] in
lemma getElem?_set_worker (hw : x.workers[i]? = some (.searching st)) (w : Worker σ) (j : ℕ) :
    (x.workers.set i w)[j]? = if j = i then some w else x.workers[j]? := by
  have hlt := (List.getElem?_eq_some_iff.mp hw).1
  rw [List.getElem?_set]
  by_cases hij : i = j
  · rw [if_pos hij, if_pos hlt, if_pos hij.symm]
  · rw [if_neg hij, if_neg (Ne.symm hij)]

lemma Inv.go (h : Inv model computeInfo timeout history v g x)
    (hw : x.workers[i]? = some (.searching st)) (hsub : history[i]? = some sub) {st' : Search σ}
    (haddr : Addressed (makeLinkedEntries sub).nodes st')
    (hret : Returns model computeInfo (makeLinkedEntries sub).nodes st' (v i) (g i)) :
    Inv model computeInfo timeout history v g
      { x with workers := x.workers.set i (.searching st') } := by
  obtain ⟨sent, ⟨hnd, hmem, hlen⟩, hopen⟩ := h.sent
  have hfin : ∀ j : ℕ, (x.workers.set i (.searching st'))[j]? = some .finished ↔
      x.workers[j]? = some .finished := by
    intro j
    rw [getElem?_set_worker hw]
    by_cases hj : j = i
    · subst hj
      rw [if_pos rfl, hw]
      exact iff_of_false (fun h => by cases h) (fun h => by cases h)
    · rw [if_neg hj]
  refine { h with
    workers := by rw [List.length_set]; exact h.workers
    searching := fun j st'' sub' hst hsub' => ?_
    sent := ⟨sent, ⟨hnd, fun j => (hmem j).trans (hfin j).symm, hlen⟩, fun hp => ?_⟩
    noted := fun j hj => h.noted j ((hfin j).mp hj)
    decided := fun hp => ⟨(h.decided hp).illegal, (h.decided hp).legal, (h.decided hp).timedOut⟩ }
  · rw [getElem?_set_worker hw] at hst
    by_cases hj : j = i
    · subst hj
      rw [if_pos rfl] at hst
      obtain rfl := Worker.searching.inj (Option.some.inj hst)
      obtain rfl := Option.some.inj (hsub.symm.trans hsub')
      exact ⟨haddr, hret⟩
    · rw [if_neg hj] at hst
      exact h.searching j st'' sub' hst hsub'
  · obtain ⟨hk, ht, hmore, hres⟩ := hopen hp
    exact ⟨hk, ht, hmore, hres⟩

/-- A search sends its result. Unless it has been killed, this is its own one. -/
lemma Inv.send (h : Inv model computeInfo timeout history v g x)
    (hw : x.workers[i]? = some (.searching st)) {ok : Bool} {longest : Longest}
    (hres : x.kill = false → ok = v i ∧ longest = g i) :
    Inv model computeInfo timeout history v g (send x i ok longest) := by
  obtain ⟨sent, ⟨hnd, hmem, hlen⟩, hopen⟩ := h.sent
  have hi : i ∉ sent := fun hi => by
    rw [hmem, hw] at hi
    cases hi
  unfold PorcParallel.send
  refine { h with
    workers := by rw [List.length_set]; exact h.workers
    slots := by rw [List.length_set]; exact h.slots
    searching := fun j st' sub hst hsub => ?_
    sent := ⟨sent ++ [i], ⟨?_, fun j => ?_, ?_⟩, fun hp => ?_⟩
    noted := fun j hj hk => ?_
    decided := fun hp => ⟨(h.decided hp).illegal, (h.decided hp).legal, (h.decided hp).timedOut⟩ }
  · rw [getElem?_set_worker hw] at hst
    by_cases hj : j = i
    · rw [if_pos hj] at hst
      cases hst
    · rw [if_neg hj] at hst
      exact h.searching j st' sub hst hsub
  · exact List.nodup_append.mpr ⟨hnd, List.nodup_singleton i, fun a ha b hb => by
      obtain rfl := List.mem_singleton.mp hb
      exact fun hab => hi (hab ▸ ha)⟩
  · rw [getElem?_set_worker hw, List.mem_append, List.mem_singleton, hmem]
    by_cases hj : j = i
    · simp [hj]
    · simp [hj]
  · simp only [List.length_append, List.length_singleton]
    omega
  · obtain ⟨hk, ht, hmore, received, hmap, hcount, hok⟩ := hopen hp
    refine ⟨hk, ht, hmore, received, ?_, hcount, hok⟩
    rw [List.map_append, hmap, List.map_singleton, ← (hres hk).1, List.append_assoc]
  · rw [getElem?_set_worker hw] at hj
    by_cases hji : j = i
    · subst hji
      rw [List.getElem?_set_self (by rw [h.slots, ← h.workers]
                                     exact (List.getElem?_eq_some_iff.mp hw).1), (hres hk).2]
    · rw [if_neg hji] at hj
      rw [List.getElem?_set_ne (Ne.symm hji)]
      exact h.noted j hj hk

lemma Inv.work (h : Inv model computeInfo timeout history v g x)
    (hs : work model computeInfo history x i = some x') :
    Inv model computeInfo timeout history v g x' := by
  unfold PorcParallel.work at hs
  split at hs
  · next st sub hw hsub =>
    obtain ⟨haddr, hret⟩ := h.searching i st sub hw hsub
    cases hk : x.kill with
    | true =>
      obtain ⟨ok, longest, hit⟩ : ∃ ok longest, iteration model computeInfo
          (makeLinkedEntries sub).nodes x.kill st = some (.returned ok longest) := by
        rw [hk]
        exact iteration_killed haddr
      rw [hit] at hs
      obtain rfl := Option.some.inj hs
      exact h.send hw fun hk' => absurd (hk.symm.trans hk') (by simp)
    | false =>
      rcases hret.cases with hit | ⟨st', hit, hret'⟩
      · rw [← hk] at hit
        rw [hit] at hs
        obtain rfl := Option.some.inj hs
        exact h.send hw fun _ => ⟨rfl, rfl⟩
      · have haddr' := haddr.iteration hit
        rw [← hk] at hit
        rw [hit] at hs
        obtain rfl := Option.some.inj hs
        exact h.go hw hsub haddr' hret'
  · cases hs

lemma Inv.lt_of_sent (h : Inv model computeInfo timeout history v g x) {sent : List ℕ}
    (ht : Tally x sent) : ∀ i ∈ sent, i < history.length := fun i hi =>
  h.workers ▸ (List.getElem?_eq_some_iff.mp ((ht.mem i).mp hi)).1

lemma Inv.length_sent_le (h : Inv model computeInfo timeout history v g x) {sent : List ℕ}
    (ht : Tally x sent) : sent.length ≤ history.length := by
  have hsub := ht.nodup.subperm fun i hi => List.mem_range.mpr (h.lt_of_sent ht i hi)
  simpa using hsub.length_le

/-- When as many results have been sent as there are searches, all have. -/
lemma Inv.mem_sent (h : Inv model computeInfo timeout history v g x) {sent : List ℕ}
    (ht : Tally x sent) (hle : history.length ≤ sent.length) {i : ℕ} (hi : i < history.length) :
    i ∈ sent := by
  have hsub := ht.nodup.subperm fun i hi => List.mem_range.mpr (h.lt_of_sent ht i hi)
  have hperm := hsub.perm_of_length_le (by simpa using hle)
  exact hperm.mem_iff.mpr (List.mem_range.mpr hi)

lemma Inv.leave {y : Check σ} (h : Inv model computeInfo timeout history v g x)
    (hworkers : y.workers = x.workers) (hlongest : y.longest = x.longest)
    (hsent : ∃ sent, Tally y sent) (hdecided : Decided timeout history v y)
    (hkill : y.kill = false → x.kill = false)
    (hkilled : computeInfo = true → y.kill = true → y.timedOut = true) :
    Inv model computeInfo timeout history v g (leave computeInfo y) := by
  obtain ⟨sent, hnd, hmem, hlen⟩ := hsent
  have hphase : (PorcParallel.leave computeInfo y).phase ≠ .selecting ∧
      (PorcParallel.leave computeInfo y).phase ≠ .panicked := by
    unfold PorcParallel.leave
    cases computeInfo <;> simp
  refine ⟨?_, ?_, ?_, hphase.2, ⟨sent, ⟨hnd, hmem, hlen⟩, fun hp => absurd hp hphase.1⟩,
    fun _ => ⟨hdecided.illegal, hdecided.legal, hdecided.timedOut⟩, ?_, ?_, hkilled⟩
  · exact (congrArg _ hworkers).trans h.workers
  · exact (congrArg _ hlongest).trans h.slots
  · intro i st sub hst hsub
    exact h.searching i st sub (hworkers ▸ hst) hsub
  · intro r hr
    unfold PorcParallel.leave at hr ⊢
    cases computeInfo with
    | true => cases hr
    | false => exact ⟨(Phase.returned.inj hr).symm, fun hc => by cases hc⟩
  · intro i hi hk
    exact hlongest ▸ h.noted i (hworkers ▸ hi) (hkill hk)

/-- A result that was received and is `false` is one of a search. -/
lemma exists_illegal {sent : List ℕ} {received rest : List Bool}
    (hlt : ∀ i ∈ sent, i < history.length) (hmap : sent.map v = received ++ rest)
    (hall : received.all id = false) : ∃ i < history.length, v i = false := by
  obtain ⟨r, hr, hrf⟩ := List.all_eq_false.mp hall
  obtain ⟨i, hi, rfl⟩ := List.mem_map.mp (hmap ▸ List.mem_append_left rest hr)
  exact ⟨i, hlt i hi, by simpa using hrf⟩

lemma Inv.receive (h : Inv model computeInfo timeout history v g x)
    (hs : receive computeInfo history x = some x') :
    Inv model computeInfo timeout history v g x' := by
  unfold PorcParallel.receive at hs
  split at hs
  · next r results hphase hresults =>
    obtain ⟨sent, htally, hopen⟩ := h.sent
    obtain ⟨hk, hto, hmore, received, hmap, hcount, hok⟩ := hopen hphase
    rw [hresults] at hmap
    have hmap' : sent.map v = (received ++ [r]) ++ results := by
      rw [hmap, List.append_assoc, List.singleton_append]
    have hok' : (x.ok && r) = (received ++ [r]).all id := by
      rw [hok, List.all_append]
      simp
    have hlen : sent.length = x.count + 1 + results.length := by
      rw [htally.length, hresults, List.length_cons]
      omega
    have hlt := h.lt_of_sent htally
    have hle := h.length_sent_le htally
    have hillegal : (x.ok && r) = false → ∃ i < history.length, v i = false := fun hf =>
      exists_illegal hlt hmap' (hok' ▸ hf)
    dsimp only at hs
    split at hs
    · next hstop =>
      obtain ⟨hf, hinfo⟩ := Bool.and_eq_true_iff.mp hstop
      have hf : (x.ok && r) = false := by rwa [Bool.not_eq_true'] at hf
      have hinfo : computeInfo = false := by rwa [Bool.not_eq_true'] at hinfo
      obtain rfl := Option.some.inj hs
      refine h.leave rfl rfl ⟨sent, htally.nodup, htally.mem, hlen⟩ ⟨fun _ => hillegal hf, ?_, ?_⟩
        (fun hk' => by cases hk') fun hc => absurd hc (by simp [hinfo])
      · intro hok''
        exact absurd (hf.symm.trans hok'') (by simp)
      · intro ht
        exact absurd (hto.symm.trans ht) (by simp)
    · split at hs
      · next hend =>
        obtain rfl := Option.some.inj hs
        refine h.leave rfl rfl ⟨sent, htally.nodup, htally.mem, hlen⟩ ⟨hillegal, ?_, ?_⟩
          (fun hk' => hk') fun _ hk' => absurd (hk.symm.trans hk') (by simp)
        · intro hok'' _ i hi
          have hend : history.length ≤ x.count + 1 := hend
          obtain rfl : results = [] := List.length_eq_zero_iff.mp (by omega)
          have hmem := h.mem_sent htally (by omega) hi
          have hall : (received ++ [r]).all id = true := hok' ▸ hok''
          rw [List.append_nil] at hmap'
          exact List.all_eq_true.mp hall _ (hmap' ▸ List.mem_map_of_mem hmem)
        · intro ht
          exact absurd (hto.symm.trans ht) (by simp)
      · next hend =>
        obtain rfl := Option.some.inj hs
        have hend : ¬ x.count + 1 ≥ history.length := hend
        refine { h with
          sent := ⟨sent, ⟨htally.nodup, htally.mem, hlen⟩, fun _ =>
            ⟨hk, hto, .inl (by show x.count + 1 < history.length; omega), received ++ [r], hmap',
              by simp [hcount], hok'⟩⟩
          decided := fun hp => absurd hphase hp
          returned := fun q hq => by rw [hphase] at hq; cases hq }
  · cases hs

/-- **Every step keeps the invariant.** -/
theorem Inv.step (h : Inv model computeInfo timeout history v g x) {act : Act}
    (hs : step model computeInfo timeout history x act = some x') :
    Inv model computeInfo timeout history v g x' := by
  cases act with
  | work i =>
    simp only [PorcParallel.step] at hs
    split at hs
    · cases hs
    · exact h.work hs
  | receive => exact h.receive hs
  | timeout =>
    simp only [PorcParallel.step] at hs
    split at hs
    · next hp =>
      obtain rfl := Option.some.inj hs
      obtain ⟨sent, htally, hopen⟩ := h.sent
      obtain ⟨-, -, -, received, hmap, -, hok⟩ := hopen hp.1
      refine h.leave rfl rfl ⟨sent, htally.nodup, htally.mem, htally.length⟩ ⟨?_, ?_, ?_⟩
        (fun hk => by cases hk) fun _ _ => rfl
      · intro hf
        exact exists_illegal (h.lt_of_sent htally) hmap (hok ▸ hf)
      · intro _ hto
        cases hto
      · exact fun _ => hp.2
    · cases hs
  | wait =>
    simp only [PorcParallel.step] at hs
    split at hs
    · next hp =>
      obtain ⟨sent, htally, -⟩ := h.sent
      have hd := h.decided (by rw [hp]; simp)
      split at hs
      · split at hs
        · next r results hresults =>
          obtain rfl := Option.some.inj hs
          refine { h with
            sent := ⟨sent, ⟨htally.nodup, htally.mem, ?_⟩, fun hp' => ?_⟩
            decided := fun _ => ⟨hd.illegal, hd.legal, hd.timedOut⟩
            returned := fun q hq => by rw [hp] at hq; cases hq }
          · rw [htally.length, hresults, List.length_cons]
            show _ = x.count + 1 + results.length
            omega
          · rw [hp] at hp'
            cases hp'
        · cases hs
      · next hend =>
        obtain rfl := Option.some.inj hs
        refine { h with
          alive := by simp
          sent := ⟨sent, ⟨htally.nodup, htally.mem, htally.length⟩, fun hp' => by cases hp'⟩
          decided := fun _ => ⟨hd.illegal, hd.legal, hd.timedOut⟩
          returned := fun q hq => ⟨(Phase.returned.inj hq).symm, fun _ => Nat.le_of_not_lt hend⟩ }
    · cases hs

theorem inv_of_reaches (hends : Ends model computeInfo history v g)
    (hr : Reaches (step model computeInfo timeout history) (Check.init model history) x) :
    Inv model computeInfo timeout history v g x :=
  ReachesIf.inv hr (inv_init hends) fun _ _ _ h _ hs => h.step hs

/-! ### The end of the check -/

lemma finish_of_steps (hsub : history[i]? = some sub) {st' : Search σ} {ok : Bool}
    {longest : Longest} (hsteps : Steps model (makeLinkedEntries sub).nodes computeInfo st st')
    (hret : iteration model computeInfo (makeLinkedEntries sub).nodes false st' =
      some (.returned ok longest)) :
    ∀ x : Check σ, x.workers[i]? = some (.searching st) → x.kill = false → x.phase ≠ .panicked →
      ∃ x', Reaches (step model computeInfo timeout history) x x' ∧ x'.phase = x.phase ∧
        x'.workers = x.workers.set i .finished := by
  induction hsteps using Relation.ReflTransGen.head_induction_on with
  | refl =>
    intro x hw hk hp
    have hs : step model computeInfo timeout history x (.work i) =
        some (send x i ok longest) := by
      simp only [step, if_neg hp, work, hw, hsub, hk, hret]
    exact ⟨_, .single ⟨_, trivial, hs⟩, rfl, rfl⟩
  | @head st st₁ hstep _ ih =>
    intro x hw hk hp
    have hs : step model computeInfo timeout history x (.work i) =
        some { x with workers := x.workers.set i (.searching st₁) } := by
      simp only [step, if_neg hp, work, hw, hsub, hk, hstep]
    obtain ⟨x', hr, hphase, hworkers⟩ := ih { x with workers := x.workers.set i (.searching st₁) }
      (by rw [getElem?_set_worker hw, if_pos rfl]) hk hp
    refine ⟨x', .head ⟨_, trivial, hs⟩ hr, hphase, ?_⟩
    rw [hworkers, List.set_set]

/-- Whatever else has happened, a search can be brought to its end. -/
lemma Inv.finish (h : Inv model computeInfo timeout history v g x)
    (hw : x.workers[i]? = some (.searching st)) :
    ∃ x', Reaches (PorcParallel.step model computeInfo timeout history) x x' ∧
      x'.phase = x.phase ∧ x'.workers = x.workers.set i .finished := by
  have hlt := (List.getElem?_eq_some_iff.mp hw).1
  rw [h.workers] at hlt
  have hsub := List.getElem?_eq_getElem hlt
  obtain ⟨haddr, st', hsteps, hret⟩ := h.searching i st _ hw hsub
  cases hk : x.kill with
  | false => exact finish_of_steps hsub hsteps hret x hw hk h.alive
  | true =>
    obtain ⟨ok, longest, hit⟩ : ∃ ok longest, iteration model computeInfo
        (makeLinkedEntries history[i]).nodes true st = some (.returned ok longest) :=
      iteration_killed haddr
    have hs : PorcParallel.step model computeInfo timeout history x (.work i) =
        some (PorcParallel.send x i ok longest) := by
      simp only [PorcParallel.step, if_neg h.alive, PorcParallel.work, hw, hsub, hk, hit]
    exact ⟨_, .single ⟨_, trivial, hs⟩, rfl, rfl⟩

def AllSent (history : List (List (Entry ι ο))) (x : Check σ) : Prop :=
  ∀ i < history.length, x.workers[i]? = some .finished

lemma Inv.finishAll (h : Inv model computeInfo timeout history v g x) :
    ∃ x', Reaches (PorcParallel.step model computeInfo timeout history) x x' ∧
      x'.phase = x.phase ∧ AllSent history x' := by
  suffices H : ∀ k ≤ history.length, ∃ x',
      Reaches (PorcParallel.step model computeInfo timeout history) x x' ∧ x'.phase = x.phase ∧
        ∀ i < k, x'.workers[i]? = some .finished from H _ le_rfl
  intro k
  induction k with
  | zero => exact fun _ => ⟨x, .refl, rfl, fun i hi => absurd hi (Nat.not_lt_zero i)⟩
  | succ k ih =>
    intro hk
    obtain ⟨x₁, hr, hphase, hfin⟩ := ih (by omega)
    have h₁ : Inv model computeInfo timeout history v g x₁ :=
      ReachesIf.inv hr h fun _ _ _ h _ hs => h.step hs
    cases hw : x₁.workers[k]? with
    | none => exact absurd (List.getElem?_eq_none_iff.mp hw) (by rw [h₁.workers]; omega)
    | some w =>
      cases w with
      | finished =>
        refine ⟨x₁, hr, hphase, fun i hi => ?_⟩
        rcases Nat.lt_succ_iff_lt_or_eq.mp hi with hi | rfl
        · exact hfin i hi
        · exact hw
      | searching st =>
        obtain ⟨x₂, hr₂, hphase₂, hworkers⟩ := h₁.finish hw
        refine ⟨x₂, hr.trans hr₂, hphase₂.trans hphase, fun i hi => ?_⟩
        rw [hworkers, getElem?_set_worker hw]
        split
        · rfl
        · exact hfin i (by omega)

lemma Inv.count_add_length (h : Inv model computeInfo timeout history v g x)
    (hall : AllSent history x) : x.count + x.results.length = history.length := by
  obtain ⟨sent, htally, -⟩ := h.sent
  have hsub : (List.range history.length).Subperm sent := List.nodup_range.subperm fun i hi =>
    (htally.mem i).mpr (hall i (List.mem_range.mp hi))
  have hge := hsub.length_le
  have hle := h.length_sent_le htally
  rw [List.length_range] at hge
  rw [← htally.length]
  omega

lemma Inv.drain (h : Inv model computeInfo timeout history v g x) (hall : AllSent history x)
    (hp : x.phase ≠ .selecting) :
    ∃ x' r, Reaches (PorcParallel.step model computeInfo timeout history) x x' ∧
      x'.phase = .returned r := by
  cases hphase : x.phase with
  | selecting => exact absurd hphase hp
  | returned r => exact ⟨x, r, .refl, hphase⟩
  | panicked => exact absurd hphase h.alive
  | draining =>
    induction hn : history.length - x.count generalizing x with
    | zero =>
      have hend : ¬ x.count < history.length := by omega
      have hs : PorcParallel.step model computeInfo timeout history x .wait =
          some { x with phase := .returned (result x.ok x.timedOut) } := by
        simp only [PorcParallel.step, if_pos hphase, if_neg hend]
      exact ⟨_, _, .single ⟨_, trivial, hs⟩, rfl⟩
    | succ n ih =>
      have hlen := h.count_add_length hall
      obtain ⟨r, results, hresults⟩ : ∃ r results, x.results = r :: results :=
        List.exists_cons_of_length_pos (by omega)
      have hmore : x.count < history.length := by omega
      have hs : PorcParallel.step model computeInfo timeout history x .wait =
          some { x with results := results, count := x.count + 1 } := by
        simp only [PorcParallel.step, if_pos hphase, if_pos hmore, hresults]
      obtain ⟨x', q, hr, hq⟩ := ih (h.step hs) hall hp hphase (by
        show history.length - (x.count + 1) = n
        omega)
      exact ⟨x', q, .head ⟨_, trivial, hs⟩ hr, hq⟩

omit [DecidableEq σ] in
lemma leave_phase (computeInfo : Bool) (x : Check σ) :
    (leave computeInfo x).phase ≠ .selecting := by
  unfold leave
  cases computeInfo <;> simp

omit [DecidableEq σ] in
/-- A result is received: the loop is left, or there is one result less. -/
lemma exists_receive (history : List (List (Entry ι ο))) (computeInfo : Bool) {r : Bool}
    {results : List Bool} (hp : x.phase = .selecting) (hresults : x.results = r :: results) :
    ∃ x', receive computeInfo history x = some x' ∧ x'.workers = x.workers ∧
      (x'.phase ≠ .selecting ∨ x'.results = results) := by
  simp only [receive, hp, hresults]
  split
  · exact ⟨_, rfl, rfl, .inl (leave_phase _ _)⟩
  · split
    · exact ⟨_, rfl, rfl, .inl (leave_phase _ _)⟩
    · exact ⟨_, rfl, rfl, .inr rfl⟩

/-- **The check can come to its end** from every state, unless it waits for nothing. -/
lemma Inv.progress (h : Inv model computeInfo timeout history v g x)
    (hne : history ≠ [] ∨ timeout = true) :
    ∃ x' r, Reaches (PorcParallel.step model computeInfo timeout history) x x' ∧
      x'.phase = .returned r := by
  obtain ⟨x₁, hr₁, -, hall⟩ := h.finishAll
  suffices H : ∃ x' r, Reaches (PorcParallel.step model computeInfo timeout history) x₁ x' ∧
      x'.phase = .returned r by
    obtain ⟨x', r, hr, hx'⟩ := H
    exact ⟨x', r, hr₁.trans hr, hx'⟩
  have h₁ : Inv model computeInfo timeout history v g x₁ :=
    ReachesIf.inv hr₁ h fun _ _ _ h _ hs => h.step hs
  clear hr₁ h
  induction hn : x₁.results.length generalizing x₁ with
  | zero =>
    by_cases hp : x₁.phase = .selecting
    · -- all results have been received, so there was none to receive
      obtain ⟨sent, -, hopen⟩ := h₁.sent
      have hlen := h₁.count_add_length hall
      have hzero : history.length = 0 := (hopen hp).more.resolve_left (by omega)
      have htime := hne.resolve_left (fun h => h (List.length_eq_zero_iff.mp hzero))
      have hs : PorcParallel.step model computeInfo timeout history x₁ .timeout =
          some (PorcParallel.leave computeInfo { x₁ with timedOut := true, kill := true }) := by
        simp only [PorcParallel.step, hp, htime, and_self, if_true]
      obtain ⟨x', r, hr, hx'⟩ := (h₁.step hs).drain hall (leave_phase _ _)
      exact ⟨x', r, .head ⟨_, trivial, hs⟩ hr, hx'⟩
    · exact h₁.drain hall hp
  | succ n ih =>
    by_cases hp : x₁.phase = .selecting
    · obtain ⟨r, results, hresults⟩ : ∃ r results, x₁.results = r :: results :=
        List.exists_cons_of_length_pos (by omega)
      obtain ⟨x₂, hs, hworkers, hnext⟩ := exists_receive history computeInfo hp hresults
      have hall₂ : AllSent history x₂ := fun i hi => hworkers ▸ hall i hi
      have hs : PorcParallel.step model computeInfo timeout history x₁ .receive = some x₂ := hs
      have hrest : ∃ x' r, Reaches (PorcParallel.step model computeInfo timeout history) x₂ x' ∧
          x'.phase = .returned r := by
        rcases hnext with hleft | hresults₂
        · exact (h₁.step hs).drain hall₂ hleft
        · exact ih x₂ hall₂ (h₁.step hs) (by rw [hresults₂]; simpa [hresults] using hn)
      obtain ⟨x', r, hr, hx'⟩ := hrest
      exact ⟨x', r, .head ⟨_, trivial, hs⟩ hr, hx'⟩
    · exact h₁.drain hall hp

end Invariant

/-! ### Results -/

def subhistories (sorter : Sorter ι ο) (parts : List (List (Operation ι ο))) :
    List (List (Entry ι ο)) :=
  parts.map (makeEntries sorter)

section Results

variable [DecidableEq σ] {model : Model σ ι ο} {computeInfo timeout : Bool}
  {parts : List (List (Operation ι ο))} {x : Check σ}

lemma exists_ends (halike : EqualAlike model) (ht : ∀ part ∈ parts, Timed part)
    (sorter : Sorter ι ο) (computeInfo : Bool) : ∃ v g,
      Ends model computeInfo (subhistories sorter parts) v g ∧
      ∀ (i : ℕ) (part : List (Operation ι ο)), parts[i]? = some part →
        Verdict model part computeInfo (v i) (g i) := by
  have hpart : ∀ i : ℕ, ∃ ok longest, ∀ part, parts[i]? = some part →
      Verdict model part computeInfo ok longest ∧
      Returns model computeInfo (makeLinkedEntries (makeEntries sorter part)).nodes
        (startSearch model (makeEntries sorter part)) ok longest := by
    intro i
    cases hi : parts[i]? with
    | none => exact ⟨true, [], fun part hp => by cases hp⟩
    | some part =>
      obtain ⟨ok, longest, hv, hret⟩ :=
        exists_returns halike (ht part (List.mem_of_getElem? hi)) sorter computeInfo
      refine ⟨ok, longest, fun part' hp => ?_⟩
      obtain rfl := Option.some.inj hp
      exact ⟨hv, hret⟩
  choose v g hvg using hpart
  refine ⟨v, g, fun i sub hsub => ?_, fun i part hi => (hvg i part hi).1⟩
  obtain ⟨part, hi, rfl⟩ := Option.map_eq_some_iff.mp (List.getElem?_map ▸ hsub)
  exact (hvg i part hi).2

lemma result_eq (ok timedOut : Bool) : (result ok timedOut = .ok ↔ ok = true ∧ timedOut = false) ∧
    (result ok timedOut = .illegal ↔ ok = false) ∧
    (result ok timedOut = .unknown ↔ ok = true ∧ timedOut = true) := by
  cases ok <;> cases timedOut <;> decide

lemma answer_of_reaches (halike : EqualAlike model) (ht : ∀ part ∈ parts, Timed part)
    {sorter : Sorter ι ο}
    (hr : Reaches (step model computeInfo timeout (subhistories sorter parts))
      (Check.init model (subhistories sorter parts)) x) {r : CheckResult}
    (hphase : x.phase = .returned r) :
    (r = .ok → ∀ part ∈ parts, Linearizable model part) ∧
    (r = .illegal → ∃ part ∈ parts, ¬ Linearizable model part) ∧
    (r = .unknown → timeout = true) := by
  obtain ⟨v, g, hends, hv⟩ := exists_ends halike ht sorter computeInfo
  have h := inv_of_reaches hends hr
  obtain ⟨rfl, -⟩ := h.returned r hphase
  have hd := h.decided (by rw [hphase]; simp)
  obtain ⟨hok, hillegal, hunknown⟩ := result_eq x.ok x.timedOut
  have hlen : (subhistories sorter parts).length = parts.length := List.length_map _
  refine ⟨fun h' part hp => ?_, fun h' => ?_, fun h' => hd.timedOut (hunknown.mp h').2⟩
  · obtain ⟨i, hi⟩ := List.mem_iff_getElem?.mp hp
    have hlt := (List.getElem?_eq_some_iff.mp hi).1
    obtain ⟨hok', hto⟩ := hok.mp h'
    exact (hv i part hi).ok_iff.mp (hd.legal hok' hto i (hlen ▸ hlt))
  · obtain ⟨i, hlt, hvi⟩ := hd.illegal (hillegal.mp h')
    rw [hlen] at hlt
    refine ⟨parts[i], List.getElem_mem hlt, fun hlin => ?_⟩
    have := (hv i _ (List.getElem?_eq_getElem hlt)).ok_iff.mpr hlin
    rw [hvi] at this
    cases this

lemma alive_of_reaches (halike : EqualAlike model) (ht : ∀ part ∈ parts, Timed part)
    {sorter : Sorter ι ο}
    (hr : Reaches (step model computeInfo timeout (subhistories sorter parts))
      (Check.init model (subhistories sorter parts)) x) : x.phase ≠ .panicked := by
  obtain ⟨v, g, hends, -⟩ := exists_ends halike ht sorter computeInfo
  exact (inv_of_reaches hends hr).alive

/-- **The answer is right, in every order of the steps.** The check never panics, `Ok` means that
all partitions are linearizable, `Illegal` that one is not, and `Unknown` that time was over. -/
theorem checkParallel_result (halike : EqualAlike model) (ht : ∀ part ∈ parts, Timed part)
    (sorter : Sorter ι ο)
    (hr : Reaches (step model computeInfo timeout (subhistories sorter parts))
      (Check.init model (subhistories sorter parts)) x) :
    x.phase ≠ .panicked ∧ ∀ r, x.phase = .returned r →
      (r = .ok → ∀ part ∈ parts, Linearizable model part) ∧
      (r = .illegal → ∃ part ∈ parts, ¬ Linearizable model part) ∧
      (r = .unknown → timeout = true) :=
  ⟨alive_of_reaches halike ht hr, fun _ hphase => answer_of_reaches halike ht hr hphase⟩

theorem checkParallel_result_stale : ∃ x : Check GoString,
    Reaches (step kvModel false false (subhistories insertionSorter [[], staleRead]))
      (Check.init kvModel (subhistories insertionSorter [[], staleRead])) x ∧
    x.phase = .returned .illegal ∧ ∃ part ∈ [[], staleRead], ¬ Linearizable kvModel part := by
  have hrun : (run (step kvModel false false (subhistories insertionSorter [[], staleRead]))
      (Check.init kvModel (subhistories insertionSorter [[], staleRead]))
      ([.work 0] ++ List.replicate 6 (.work 1) ++ [.receive, .receive])).map Check.phase =
        some (.returned .illegal) := by
    decide +kernel
  obtain ⟨x, hx, hphase⟩ := Option.map_eq_some_iff.mp hrun
  have hr := reaches_of_run hx
  exact ⟨x, hr, hphase, ((checkParallel_result (equalAlike_of_none rfl) (by decide) insertionSorter
    hr).2 _ hphase).2.1 rfl⟩

/-- **When the check returns.** It can come to its end from everywhere, but for a history without
partitions and without a timeout: then it waits for a result that nobody sends. -/
theorem checkParallel_returns (halike : EqualAlike model) (ht : ∀ part ∈ parts, Timed part)
    (sorter : Sorter ι ο) :
    (∀ x, Reaches (step model computeInfo timeout (subhistories sorter parts))
        (Check.init model (subhistories sorter parts)) x →
      ∃ x' r, Reaches (step model computeInfo timeout (subhistories sorter parts)) x x' ∧
        x'.phase = .returned r) ↔ parts ≠ [] ∨ timeout = true := by
  constructor
  · intro hall
    by_contra hno
    obtain ⟨rfl, htime⟩ : parts = [] ∧ timeout = false := by simpa using hno
    obtain ⟨x, r, hr, hphase⟩ := hall _ .refl
    have hstuck : x = Check.init model (subhistories sorter []) := by
      refine ReachesIf.inv (I := fun y => y = Check.init model (subhistories sorter [])) hr rfl ?_
      rintro y act y' rfl - hs
      cases act <;> simp [step, work, receive, Check.init, subhistories, htime] at hs
    rw [hstuck] at hphase
    cases hphase
  · intro hne x hr
    obtain ⟨v, g, hends, -⟩ := exists_ends halike ht sorter computeInfo
    refine (inv_of_reaches hends hr).progress (hne.imp_left fun h => ?_)
    simpa [subhistories] using h

/-- A stale read is checked to an end, a history without operations is not. -/
theorem checkParallel_returns_stale :
    (∀ x, Reaches (step kvModel false false (subhistories insertionSorter (kvPartition staleRead)))
        (Check.init kvModel (subhistories insertionSorter (kvPartition staleRead))) x →
      ∃ x' r, Reaches
        (step kvModel false false (subhistories insertionSorter (kvPartition staleRead))) x x' ∧
          x'.phase = .returned r) ∧
    ¬ ∀ x, Reaches (step kvModel false false (subhistories insertionSorter (kvPartition [])))
        (Check.init kvModel (subhistories insertionSorter (kvPartition []))) x →
      ∃ x' r, Reaches (step kvModel false false (subhistories insertionSorter (kvPartition [])))
        x x' ∧ x'.phase = .returned r := by
  have hnil : kvPartition [] = [] := by decide +kernel
  have hparts : kvPartition staleRead ≠ [] := by decide +kernel
  have htimed : ∀ part ∈ kvPartition staleRead, Timed part := by decide +kernel
  refine ⟨(checkParallel_returns (equalAlike_of_none rfl) htimed insertionSorter).mpr
    (Or.inl hparts), fun hall => ?_⟩
  have := (checkParallel_returns (equalAlike_of_none rfl) (by rw [hnil]; simp)
    insertionSorter).mp hall
  simp [hnil] at this

/-- **The longest orders.** With `computeInfo` and in time, every partition has its slot written,
and of the orders in which it can begin and which have an operation, the one that is noted for the
operation is as long as any. -/
theorem checkParallel_longest (halike : EqualAlike model) (ht : ∀ part ∈ parts, Timed part)
    (sorter : Sorter ι ο) (hr : Reaches (step model true timeout (subhistories sorter parts))
      (Check.init model (subhistories sorter parts)) x)
    {r : CheckResult} (hphase : x.phase = .returned r) (hto : x.timedOut = false) {i : ℕ}
    {part : List (Operation ι ο)} (hi : parts[i]? = some part) :
    ∃ longest, x.longest[i]? = some (some longest) ∧ ∀ j,
      (∀ seq, longest[j]? = some (some seq) → PartialLinearization model part seq ∧ j ∈ seq) ∧
      ∀ l, PartialLinearization model part l → j ∈ l →
        ∃ seq, longest[j]? = some (some seq) ∧ l.length ≤ seq.length := by
  obtain ⟨v, g, hends, hv⟩ := exists_ends halike ht sorter true
  have h := inv_of_reaches hends hr
  obtain ⟨sent, htally, -⟩ := h.sent
  have hlt : i < (subhistories sorter parts).length := by
    rw [subhistories, List.length_map]
    exact (List.getElem?_eq_some_iff.mp hi).1
  have hcount := (h.returned r hphase).2 rfl
  have hmem := h.mem_sent htally (by rw [htally.length]; omega) hlt
  have hkill : x.kill = false := by
    by_contra hk
    have := h.killed rfl (by simpa using hk)
    rw [hto] at this
    cases this
  have hverdict := hv i part hi
  exact ⟨g i, h.noted i ((htally.mem i).mp hmem) hkill, fun j =>
    ⟨fun seq hseq => hverdict.sound j seq hseq, fun l hl hj => hverdict.longest rfl l hl j hj⟩⟩

theorem checkParallel_longest_stale :
    ¬ ∃ l, PartialLinearization kvModel staleRead l ∧ 2 ∈ l := by
  have hrun : (run (step kvModel true false (subhistories insertionSorter [staleRead]))
      (Check.init kvModel (subhistories insertionSorter [staleRead]))
      (List.replicate 6 (.work 0) ++ [.receive, .wait])).map
        (fun x => decide (x.phase = .returned .illegal ∧ x.timedOut = false ∧
          x.longest = [some [some [0, 1], some [0, 1], none]])) = some true := by
    decide +kernel
  obtain ⟨x, hx, heq⟩ := Option.map_eq_some_iff.mp hrun
  obtain ⟨hphase, hto, hlongest⟩ := of_decide_eq_true heq
  rintro ⟨l, hl, hmem⟩
  obtain ⟨longest, hslot, hall⟩ := checkParallel_longest (equalAlike_of_none rfl) (by decide)
    insertionSorter (reaches_of_run hx) hphase hto (show [staleRead][0]? = some staleRead from rfl)
  obtain ⟨seq, hseq, -⟩ := (hall 2).2 l hl hmem
  rw [hlongest] at hslot
  obtain rfl := Option.some.inj (Option.some.inj hslot)
  cases hseq

end Results

/-! ### Checking a history -/

/-- The history is partitioned, and the partitions are checked in parallel up to a point. -/
def CheckOperations [DecidableEq σ] (model : Model σ ι ο) (sorter : Sorter ι ο)
    (verbose timeout : Bool) (history : List (Operation ι ο)) (x : Check σ) : Prop :=
  let model := fillDefault model
  let l := subhistories sorter (model.partition.getD noPartition history)
  Reaches (step model verbose timeout l) (Check.init model l) x

lemma legal_fillDefault [DecidableEq σ] {model : Model σ ι ο} {s : σ}
    {l : List (Operation ι ο)} : Legal (fillDefault model) s l ↔ Legal model s l := by
  induction l generalizing s with
  | nil => rfl
  | cons op l ih => exact and_congr_right fun _ => ih

lemma linearizable_fillDefault [DecidableEq σ] {model : Model σ ι ο}
    {history : List (Operation ι ο)} :
    Linearizable (fillDefault model) history ↔ Linearizable model history :=
  exists_congr fun _ => and_congr_right fun _ => and_congr_right fun _ => legal_fillDefault

end Mit6824.PorcParallel
