import Mit6824.MrCoordinator

/-!
The tasks of one phase of a MapReduce job.

A task that is handed out has a timer, and only the timer makes it wait again; so it is handed out
again only after the timer has fired. What is finished stays finished, and so does the flag that
caches it.
-/

namespace Mit6824.MrTasks

open Mit6824.GoData Mit6824.MrCoordinator

/-! ### Timers -/

/-- A timer is there from when its task is handed out until it fires, and the task is not handed
out in between. -/
structure Told (timers : List (ℕ × ℕ)) (history : List Entry) : Prop where
  pending : ∀ id n : ℕ, (id, n) ∈ timers ↔ history[n]? = some (.handed id) ∧ .fired id n ∉ history
  later : ∀ m id n : ℕ, history[m]? = some (.fired id n) → n < m
  turns : ∀ a b id : ℕ, a < b → history[a]? = some (.handed id) → history[b]? = some (.handed id) →
    ∃ m, a < m ∧ m < b ∧ history[m]? = some (.fired id a)

namespace Told

variable {timers timers' : List (ℕ × ℕ)} {history : List Entry} {id n : ℕ}

lemma nil : Told [] [] := ⟨by simp, by simp, by simp⟩

lemma not_fired_length (h : Told timers history) (id : ℕ) : .fired id history.length ∉ history := by
  intro hin
  obtain ⟨m, hm⟩ := List.mem_iff_getElem?.mp hin
  have := h.later m id _ hm
  have := (List.getElem?_eq_some_iff.mp hm).1
  omega

lemma append (h : Told timers history) {e : Entry}
    (hpending : ∀ id n : ℕ, (id, n) ∈ timers' ↔
      (history ++ [e])[n]? = some (.handed id) ∧ .fired id n ∉ history ++ [e])
    (hlater : ∀ id n, e = .fired id n → n < history.length)
    (hturns : ∀ id n : ℕ, e = .handed id → history[n]? = some (.handed id) →
      .fired id n ∈ history) : Told timers' (history ++ [e]) where
  pending := hpending
  later := fun m id n hm => by
    rcases getElem?_append_singleton.mp hm with hm | ⟨rfl, he⟩
    · exact h.later m id n hm
    · exact hlater id n he
  turns := fun a b id hab ha hb => by
    have hlast : ∀ m : ℕ, history[m]? = some (.fired id a) →
        (history ++ [e])[m]? = some (.fired id a) :=
      fun m hm => getElem?_append_singleton.mpr (Or.inl hm)
    have ha : history[a]? = some (.handed id) := by
      rcases getElem?_append_singleton.mp ha with ha | ⟨rfl, -⟩
      · exact ha
      · have := (List.getElem?_eq_some_iff.mp hb).1
        rw [List.length_append, List.length_singleton] at this
        omega
    rcases getElem?_append_singleton.mp hb with hb | ⟨rfl, he⟩
    · obtain ⟨m, ham, hmb, hm⟩ := h.turns a b id hab ha hb
      exact ⟨m, ham, hmb, hlast m hm⟩
    · obtain ⟨m, hm⟩ := List.mem_iff_getElem?.mp (hturns id a he ha)
      exact ⟨m, h.later m id a hm, (List.getElem?_eq_some_iff.mp hm).1, hlast m hm⟩

lemma handed (h : Told timers history) (hfree : ∀ n, (id, n) ∉ timers) :
    Told (timers ++ [(id, history.length)]) (history ++ [.handed id]) := by
  refine h.append (fun id' n => ?_) (by simp) fun id' n he hn => ?_
  · rw [List.mem_append, List.mem_singleton, h.pending, getElem?_append_singleton]
    have hmem : Entry.fired id' n ∉ history ++ [.handed id] ↔ .fired id' n ∉ history := by simp
    rw [hmem, Prod.mk.injEq]
    constructor
    · rintro (⟨hn, hnf⟩ | ⟨rfl, rfl⟩)
      · exact ⟨Or.inl hn, hnf⟩
      · exact ⟨Or.inr ⟨rfl, rfl⟩, h.not_fired_length _⟩
    · rintro ⟨hn | ⟨rfl, hid⟩, hnf⟩
      · exact Or.inl ⟨hn, hnf⟩
      · exact Or.inr ⟨(Entry.handed.inj hid).symm, rfl⟩
  · obtain rfl := Entry.handed.inj he
    by_contra hnf
    exact hfree n ((h.pending id n).mpr ⟨hn, hnf⟩)

lemma fired (h : Told timers history) (hin : (id, n) ∈ timers)
    (hone : (id, n) ∉ timers.erase (id, n)) :
    Told (timers.erase (id, n)) (history ++ [.fired id n]) := by
  have hlt : n < history.length :=
    (List.getElem?_eq_some_iff.mp ((h.pending id n).mp hin).1).1
  refine h.append (fun id' n' => ?_) (fun id' n' he => ?_) (by simp)
  · have hmem : (id', n') ∈ timers.erase (id, n) ↔ (id', n') ∈ timers ∧ (id', n') ≠ (id, n) := by
      by_cases heq : (id', n') = (id, n)
      · rw [heq]
        simp [hone]
      · rw [List.mem_erase_of_ne heq]
        simp [heq]
    rw [hmem, h.pending, getElem?_append_singleton, List.mem_append, List.mem_singleton]
    simp only [reduceCtorEq, and_false, or_false, Entry.fired.injEq, not_or, Prod.mk.injEq, ne_eq,
      and_assoc]
  · obtain ⟨-, rfl⟩ := Entry.fired.inj he
    exact hlt

lemma finished (h : Told timers history) : Told timers (history ++ [.finished id]) := by
  refine h.append (fun id' n => ?_) (by simp) (by simp)
  rw [h.pending, getElem?_append_singleton]
  simp

end Told

/-! ### The tasks of a phase -/

variable {D : Type} {data : List D} {p p' : Phase D} {id : ℕ}

def state (p : Phase D) (id : ℕ) : Option TaskState := (p.tasks[id]?).map TaskOf.state

def AllFinished (p : Phase D) : Prop := ∀ task ∈ p.tasks, task.state = .finished

def Due : Option TaskState → ℕ → Prop
  | none, n => n = 0
  | some .waitting, n => n = 0
  | some .started, n => n = 1
  | some .finished, n => n ≤ 1

lemma Due.le_one {s : Option TaskState} {n : ℕ} (h : Due s n) : n ≤ 1 := by
  rcases s with _ | _ | _ | _ <;> simp only [Due] at h <;> omega

def pending (p : Phase D) (id : ℕ) : ℕ := p.timers.countP (·.1 = id)

structure PhaseOk (data : List D) (p : Phase D) : Prop where
  /-- The tasks are those that were made. -/
  static : ∀ id : ℕ, (p.tasks[id]?).map (fun task => (task.id, task.data)) = (data[id]?).map (id, ·)
  latched : p.allFinished = true → AllFinished p
  due : ∀ id, Due (state p id) (pending p id)
  told : Told p.timers p.history
  reported : ∀ id, state p id = some .finished → .finished id ∈ p.history

/-- What is finished stays finished. -/
structure Forth (p p' : Phase D) : Prop where
  length : p'.tasks.length = p.tasks.length
  finished : ∀ id, state p id = some .finished → state p' id = some .finished
  latched : p.allFinished = true → p'.allFinished = true

lemma Forth.refl (p : Phase D) : Forth p p := ⟨rfl, fun _ h => h, fun h => h⟩

lemma Forth.trans {p'' : Phase D} (h : Forth p p') (h' : Forth p' p'') : Forth p p'' :=
  ⟨h'.length.trans h.length, fun id hid => h'.finished id (h.finished id hid),
    fun hl => h'.latched (h.latched hl)⟩

lemma allFinished_iff : AllFinished p ↔ ∀ id < p.tasks.length, state p id = some .finished := by
  constructor
  · intro h id hid
    rw [state, List.getElem?_eq_getElem hid, Option.map_some, h _ (List.getElem_mem hid)]
  · intro h task htask
    obtain ⟨id, hid, rfl⟩ := List.mem_iff_getElem.mp htask
    have := h id hid
    rw [state, List.getElem?_eq_getElem hid, Option.map_some] at this
    exact Option.some.inj this

lemma Forth.allFinished (h : Forth p p') (hp : AllFinished p) : AllFinished p' := by
  rw [allFinished_iff] at hp ⊢
  rw [h.length]
  exact fun id hid => h.finished id (hp id hid)

lemma PhaseOk.length (h : PhaseOk data p) : p.tasks.length = data.length := by
  refine le_antisymm (Nat.le_of_not_lt fun hlt => ?_) (Nat.le_of_not_lt fun hlt => ?_)
  · have := h.static data.length
    rw [List.getElem?_eq_getElem hlt, List.getElem?_eq_none le_rfl] at this
    cases this
  · have := h.static p.tasks.length
    rw [List.getElem?_eq_getElem hlt, List.getElem?_eq_none le_rfl] at this
    cases this

lemma phaseOk_make (data : List D) : PhaseOk data (.make data) where
  static := fun id => by
    simp [Phase.make, List.getElem?_mapIdx, Function.comp_def]
  latched := fun h => by cases h
  due := fun id => by
    have hstate : state (.make data) id = (data[id]?).map fun _ => .waitting := by
      simp [state, Phase.make, List.getElem?_mapIdx, Function.comp_def]
    rw [hstate]
    cases data[id]? <;> rfl
  told := .nil
  reported := fun id h => by
    simp [state, Phase.make, List.getElem?_mapIdx, Function.comp_def] at h

/-! ### Setting the state of a task -/

lemma state_setState (p : Phase D) (id id' : ℕ) (s : TaskState) :
    state (p.setState id s) id' =
      if id = id' then (state p id').map fun _ => s else state p id' := by
  unfold state Phase.setState
  rw [List.getElem?_modify]
  split
  · simp [Function.comp_def]
  · simp

lemma static_setState (p : Phase D) (id id' : ℕ) (s : TaskState) :
    ((p.setState id s).tasks[id']?).map (fun task => (task.id, task.data)) =
      (p.tasks[id']?).map fun task => (task.id, task.data) := by
  unfold Phase.setState
  rw [List.getElem?_modify]
  split
  · simp [Function.comp_def]
  · simp

@[simp] lemma length_setState (p : Phase D) (id : ℕ) (s : TaskState) :
    (p.setState id s).tasks.length = p.tasks.length := by
  simp [Phase.setState]

/-! ### What happens to a task -/

lemma PhaseOk.fetch (h : PhaseOk data p) {task : TaskOf D} (hf : p.fetch = some task) :
    state p task.id = some .waitting ∧ data[task.id]? = some task.data := by
  have hwait : task.state = .waitting := by simpa using List.find?_some hf
  obtain ⟨id, hid⟩ := List.mem_iff_getElem?.mp (List.mem_of_find?_eq_some hf)
  have hs := h.static id
  rw [hid, Option.map_some, eq_comm, Option.map_eq_some_iff] at hs
  obtain ⟨d, hd, heq⟩ := hs
  obtain ⟨rfl, rfl⟩ := Prod.mk.inj heq
  exact ⟨by rw [state, hid, Option.map_some, hwait], hd⟩

/-- What a step does to a phase: what is finished stays finished, and there is a reason for what
comes to be. -/
structure Next (data : List D) (p q : Phase D) (reason : ℕ → Prop) : Prop where
  ok : PhaseOk data q
  forth : Forth p q
  back : ∀ id, state q id = some .finished → state p id = some .finished ∨ reason id

lemma PhaseOk.change (h : PhaseOk data p) {q : Phase D} {reason : ℕ → Prop} {s₀ s : TaskState}
    (hlen : q.tasks.length = p.tasks.length)
    (hstatic : ∀ id' : ℕ, (q.tasks[id']?).map (fun task => (task.id, task.data)) =
      (p.tasks[id']?).map fun task => (task.id, task.data))
    (hlatch : q.allFinished = p.allFinished) (hs₀ : state p id = some s₀)
    (hstate : ∀ id', state q id' = if id = id' then some s else state p id')
    (hfin : s₀ = .finished → s = .finished) (hdue : Due (some s) (pending q id))
    (hother : ∀ id', id ≠ id' → pending q id' = pending p id') (htold : Told q.timers q.history)
    (hhist : p.history ⊆ q.history)
    (hrep : s = .finished → .finished id ∈ q.history ∧ (s₀ = .finished ∨ reason id)) :
    Next data p q reason := by
  have hforth : Forth p q := by
    refine ⟨hlen, fun id' hid' => ?_, fun hl => hlatch.trans hl⟩
    rw [hstate]
    split
    · next heq =>
      rw [← heq, hs₀] at hid'
      rw [hfin (Option.some.inj hid')]
    · exact hid'
  refine ⟨⟨fun id' => (hstatic id').trans (h.static id'),
    fun hl => hforth.allFinished (h.latched (hlatch ▸ hl)), fun id' => ?_, htold,
      fun id' hid' => ?_⟩, hforth, fun id' hid' => ?_⟩
  · rw [hstate]
    split
    · next heq => exact heq ▸ hdue
    · next hne => exact hother id' hne ▸ h.due id'
  · rw [hstate] at hid'
    split at hid'
    · next heq => exact heq ▸ (hrep (Option.some.inj hid')).1
    · exact hhist (h.reported id' hid')
  · rw [hstate] at hid'
    split at hid'
    · next heq =>
      rw [← heq, hs₀]
      exact (hrep (Option.some.inj hid')).2.imp_left (congrArg some)
    · exact Or.inl hid'

lemma state_setState_of_some {s₀ : TaskState} (hs₀ : state p id = some s₀) (s : TaskState)
    (id' : ℕ) :
    state (p.setState id s) id' = if id = id' then some s else state p id' := by
  rw [state_setState]
  split
  · next heq => rw [← heq, hs₀]; rfl
  · rfl

lemma PhaseOk.start (h : PhaseOk data p) (hw : state p id = some .waitting) :
    Next data p (p.start id) fun _ => False := by
  have hpending : ∀ id', pending (p.start id) id' = pending p id' + if id = id' then 1 else 0 :=
    fun id' => by simp [pending, Phase.start, List.countP_singleton]
  have hfree : pending p id = 0 := by
    have := h.due id
    rwa [hw] at this
  refine h.change (length_setState p id _) (fun id' => static_setState p id id' _) rfl hw
    (state_setState_of_some hw .started) (fun hs => by cases hs) ?_ (fun id' hne => ?_)
    (h.told.handed fun n hn => ?_) (List.subset_append_left _ _) (fun hs => by cases hs)
  · rw [hpending, hfree, if_pos rfl]
    rfl
  · rw [hpending, if_neg hne, Nat.add_zero]
  · exact List.countP_eq_zero.mp hfree _ hn (by simp)

lemma PhaseOk.fire (h : PhaseOk data p) {n : ℕ} (hin : (id, n) ∈ p.timers) :
    Next data p (p.fire (id, n)) fun _ => False := by
  -- this is the only timer of the task
  have hpos : 0 < pending p id := List.countP_pos_iff.mpr ⟨_, hin, by simp⟩
  have hone : pending p id = 1 := le_antisymm (h.due id).le_one hpos
  have hself : (p.timers.erase (id, n)).countP (·.1 = id) = 0 := by
    rw [List.countP_erase, if_pos ⟨hin, by simp⟩]
    exact Nat.sub_eq_zero_of_le hone.le
  have hother : ∀ id', id ≠ id' → (p.timers.erase (id, n)).countP (·.1 = id') = pending p id' := by
    intro id' hne
    rw [List.countP_erase, if_neg (by simp [hne])]
    rfl
  have htold := h.told.fired hin fun hin' => List.countP_eq_zero.mp hself _ hin' (by simp)
  obtain ⟨s₀, hs₀⟩ : ∃ s₀, state p id = some s₀ := by
    have hdue := h.due id
    cases hs : state p id with
    | none =>
      rw [hs, hone] at hdue
      cases hdue
    | some s₀ => exact ⟨s₀, rfl⟩
  unfold Phase.fire
  dsimp only
  split
  · next hnf =>
    have hnf : s₀ ≠ .finished := fun hf => hnf (by rw [← hf]; exact hs₀)
    exact h.change (length_setState p id _) (fun id' => static_setState p id id' _) rfl hs₀
      (state_setState_of_some hs₀ .waitting) (fun hf => absurd hf hnf) hself hother htold
      (List.subset_append_left _ _) fun hs => by cases hs
  · next hf =>
    have hf : state p id = some .finished := not_not.mp hf
    refine h.change rfl (fun _ => rfl) rfl hf (fun id' => ?_) (fun _ => rfl)
      (hself.trans_le (Nat.zero_le _)) hother htold (List.subset_append_left _ _)
      fun _ => ⟨List.mem_append_left _ (h.reported id hf), Or.inl rfl⟩
    split
    · next heq => exact heq ▸ hf
    · rfl

lemma PhaseOk.finish (h : PhaseOk data p) (hlt : id < p.tasks.length) :
    Next data p (p.finish id) (· = id) := by
  obtain ⟨s₀, hs₀⟩ : ∃ s₀, state p id = some s₀ :=
    ⟨_, by rw [state, List.getElem?_eq_getElem hlt]; rfl⟩
  exact h.change (length_setState p id _) (fun id' => static_setState p id id' _) rfl hs₀
    (state_setState_of_some hs₀ .finished) (fun _ => rfl) (h.due id).le_one (fun _ _ => rfl)
    h.told.finished (List.subset_append_left _ _) fun _ => ⟨by simp [Phase.finish], Or.inr rfl⟩

def latch (p : Phase D) : Phase D := { p with allFinished := true }

lemma PhaseOk.latch (h : PhaseOk data p) (hall : AllFinished p) :
    Next data p (latch p) fun _ => False :=
  ⟨⟨h.static, fun _ => hall, h.due, h.told, h.reported⟩, ⟨rfl, fun _ hid => hid, fun _ => rfl⟩,
    fun _ hid => Or.inl hid⟩

lemma PhaseOk.check (h : PhaseOk data p) :
    (p.check = (true, MrTasks.latch p) ∧ AllFinished p) ∨
      (p.check = (false, p) ∧ ¬ AllFinished p) := by
  unfold Phase.check
  split
  · next hl => exact Or.inl ⟨by rw [MrTasks.latch, ← hl], h.latched hl⟩
  · split
    · next hall => exact Or.inl ⟨rfl, by simpa [AllFinished] using hall⟩
    · next hall => exact Or.inr ⟨rfl, by simpa [AllFinished] using hall⟩

/-- Between two times that a task is handed out the timer of the first has fired, and a task that
is started has one timer. -/
def HandedInTurn (p : Phase D) : Prop :=
  (∀ a b id : ℕ, a < b → p.history[a]? = some (.handed id) → p.history[b]? = some (.handed id) →
    ∃ m, a < m ∧ m < b ∧ p.history[m]? = some (.fired id a)) ∧
  ∀ id, state p id = some .started → p.timers.countP (·.1 = id) = 1

lemma PhaseOk.handedInTurn (h : PhaseOk data p) : HandedInTurn p := by
  refine ⟨h.told.turns, fun id hs => ?_⟩
  have := h.due id
  rwa [hs] at this

end Mit6824.MrTasks
