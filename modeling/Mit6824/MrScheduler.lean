import Mit6824.MrSystem
import Mit6824.MrTasks

/-!
The schedule of a MapReduce job: a reduce task is handed out only when all map tasks are finished,
and `Done` is true only when all reduce tasks are.
-/

namespace Mit6824.MrScheduler

open Mit6824.GoData Mit6824.MrCoordinator Mit6824.MrTasks Mit6824.MrWorker Mit6824.MrSystem

/-! ### The coordinator -/

/-- What is finished stays finished. -/
structure Ahead (c c' : Coordinator) : Prop where
  maps : Forth c.maps c'.maps
  reduces : Forth c.reduces c'.reduces

lemma Ahead.refl (c : Coordinator) : Ahead c c := ⟨.refl _, .refl _⟩

section

variable (inputs : List GoString) (nReduce : ℕ)

def mapData : List MapData := inputs.map fun fileName => ⟨fileName, nReduce⟩

def reduceData : List ReduceData := List.replicate nReduce ⟨inputs.length⟩

/-- The tasks that are finished have been reported, and a reduce task has been handed out only
when all map tasks are finished. -/
structure CoordOk (reports : List Report) (c : Coordinator) : Prop where
  maps : PhaseOk (mapData inputs nReduce) c.maps
  reduces : PhaseOk (reduceData inputs nReduce) c.reduces
  order : ∀ id, .handed id ∈ c.reduces.history → AllFinished c.maps
  mapReports : ∀ id, state c.maps id = some .finished → ⟨.map, id⟩ ∈ reports
  reduceReports : ∀ id, state c.reduces id = some .finished → ⟨.reduce, id⟩ ∈ reports

/-- What a call knows: a call in the second loop has seen the map tasks finished, and so has the
worker that gets a reduce task. -/
def CallOk (c : Coordinator) : Call → Prop
  | .looping .map _ => True
  | .looping .reduce _ => c.maps.allFinished = true
  | .replied .done => AllFinished c.reduces
  | .replied (.mapTask task) =>
    ∃ fileName, inputs[task.id]? = some fileName ∧ task.data = ⟨fileName, nReduce⟩
  | .replied (.reduceTask task) =>
    task.id < nReduce ∧ task.data = ⟨inputs.length⟩ ∧ AllFinished c.maps

/-- `Done` in `main` has found the tasks up to its place finished. -/
def MainOk (c : Coordinator) : Main → Prop
  | .sleeping => True
  | .scanning i => ∀ id < i, state c.reduces id = some .finished
  | .returned => AllFinished c.reduces

end

variable {inputs : List GoString} {nReduce : ℕ} {reports : List Report} {c c' : Coordinator}
  {id : ℕ}

lemma CoordOk.length_maps (h : CoordOk inputs nReduce reports c) :
    c.maps.tasks.length = inputs.length := by
  rw [h.maps.length, mapData, List.length_map]

lemma CoordOk.length_reduces (h : CoordOk inputs nReduce reports c) :
    c.reduces.tasks.length = nReduce := by
  rw [h.reduces.length, reduceData, List.length_replicate]

lemma CallOk.ahead {call : Call} (h : CallOk inputs nReduce c call) (ha : Ahead c c') :
    CallOk inputs nReduce c' call := by
  rcases call with ⟨_ | _, _⟩ | (_ | _ | _)
  · trivial
  · exact ha.maps.latched h
  · exact ha.reduces.allFinished h
  · exact h
  · exact ⟨h.1, h.2.1, ha.maps.allFinished h.2.2⟩

lemma CallOk.wake {call : Call} (h : CallOk inputs nReduce c call) :
    CallOk inputs nReduce c call.wake := by
  rcases call with ⟨_ | _, _⟩ | _ <;> exact h

lemma MainOk.ahead {main : Main} (h : MainOk c main) (ha : Ahead c c') : MainOk c' main := by
  cases main with
  | sleeping => trivial
  | scanning i => exact fun id hid => ha.reduces.finished id (h id hid)
  | returned => exact ha.reduces.allFinished h

lemma Ahead.trans {c'' : Coordinator} (h : Ahead c c') (h' : Ahead c' c'') : Ahead c c'' :=
  ⟨h.maps.trans h'.maps, h.reduces.trans h'.reduces⟩

lemma CoordOk.setMaps (h : CoordOk inputs nReduce reports c) {maps : Phase MapData}
    {reason : ℕ → Prop} (hm : Next (mapData inputs nReduce) c.maps maps reason)
    (hrep : ∀ id, reason id → ⟨.map, id⟩ ∈ reports) :
    CoordOk inputs nReduce reports { c with maps := maps } ∧ Ahead c { c with maps := maps } :=
  ⟨⟨hm.ok, h.reduces, fun id hid => hm.forth.allFinished (h.order id hid),
    fun id hid => (hm.back id hid).elim (h.mapReports id) (hrep id), h.reduceReports⟩,
    ⟨hm.forth, .refl _⟩⟩

lemma CoordOk.setReduces (h : CoordOk inputs nReduce reports c) {reduces : Phase ReduceData}
    {reason : ℕ → Prop} (hr : Next (reduceData inputs nReduce) c.reduces reduces reason)
    (hord : ∀ id, .handed id ∈ reduces.history →
      .handed id ∈ c.reduces.history ∨ AllFinished c.maps)
    (hrep : ∀ id, reason id → ⟨.reduce, id⟩ ∈ reports) :
    CoordOk inputs nReduce reports { c with reduces := reduces } ∧
      Ahead c { c with reduces := reduces } :=
  ⟨⟨h.maps, hr.ok, fun id hid => (hord id hid).elim (h.order id) fun hall => hall, h.mapReports,
    fun id hid => (hr.back id hid).elim (h.reduceReports id) (hrep id)⟩, ⟨.refl _, hr.forth⟩⟩

lemma CoordOk.latchMaps (h : CoordOk inputs nReduce reports c) (hall : AllFinished c.maps) :
    CoordOk inputs nReduce reports { c with maps := latch c.maps } ∧
      Ahead c { c with maps := latch c.maps } :=
  h.setMaps (h.maps.latch hall) fun _ hno => hno.elim

lemma CoordOk.latchReduces (h : CoordOk inputs nReduce reports c) (hall : AllFinished c.reduces) :
    CoordOk inputs nReduce reports { c with reduces := latch c.reduces } ∧
      Ahead c { c with reduces := latch c.reduces } :=
  h.setReduces (h.reduces.latch hall) (fun _ hid => Or.inl hid) fun _ hno => hno.elim

lemma CoordOk.mapTasksDone (h : CoordOk inputs nReduce reports c) :
    CoordOk inputs nReduce reports c.mapTasksDone.2 ∧ Ahead c c.mapTasksDone.2 ∧
      (c.mapTasksDone.1 = true → c.mapTasksDone.2.maps.allFinished = true) := by
  unfold Coordinator.mapTasksDone
  rcases h.maps.check with ⟨hcheck, hall⟩ | ⟨hcheck, -⟩
  · rw [hcheck]
    obtain ⟨hc, ha⟩ := h.latchMaps hall
    exact ⟨hc, ha, fun _ => rfl⟩
  · rw [hcheck]
    exact ⟨h, .refl c, fun hd => by cases hd⟩

lemma CoordOk.done (h : CoordOk inputs nReduce reports c) :
    CoordOk inputs nReduce reports c.done.2 ∧ Ahead c c.done.2 ∧
      (c.done.1 = true → AllFinished c.reduces) := by
  unfold Coordinator.done
  rcases h.reduces.check with ⟨hcheck, hall⟩ | ⟨hcheck, -⟩
  · rw [hcheck]
    obtain ⟨hc, ha⟩ := h.latchReduces hall
    exact ⟨hc, ha, fun _ => hall⟩
  · rw [hcheck]
    exact ⟨h, .refl c, fun hd => by cases hd⟩

/-- The second loop of `FetchTask` runs when all map tasks are finished. -/
lemma CoordOk.reduceLoop (h : CoordOk inputs nReduce reports c) (hl : c.maps.allFinished = true) :
    CoordOk inputs nReduce reports c.reduceLoop.1 ∧ Ahead c c.reduceLoop.1 ∧
      CallOk inputs nReduce c.reduceLoop.1 (Fetched.call c.reduceLoop.2) := by
  obtain ⟨hc, ha, hall⟩ := h.done
  unfold Coordinator.reduceLoop
  dsimp only
  split
  · next hd => exact ⟨hc, ha, ha.reduces.allFinished (hall hd)⟩
  · have hl' := ha.maps.latched hl
    split
    · next task hf =>
      obtain ⟨hwait, hdata⟩ := hc.reduces.fetch hf
      have hmaps := hc.maps.latched hl'
      obtain ⟨hc', ha'⟩ := hc.setReduces (hc.reduces.start hwait) (fun _ _ => Or.inr hmaps)
        fun _ hno => hno.elim
      have hlt := (List.getElem?_eq_some_iff.mp hdata).1
      exact ⟨hc', ha.trans ha', by simpa [reduceData] using hlt,
        List.eq_of_mem_replicate (List.mem_of_getElem? hdata), hmaps⟩
    · exact ⟨hc, ha, hl'⟩

lemma CoordOk.mapLoop (h : CoordOk inputs nReduce reports c) :
    CoordOk inputs nReduce reports c.mapLoop.1 ∧ Ahead c c.mapLoop.1 ∧
      CallOk inputs nReduce c.mapLoop.1 (Fetched.call c.mapLoop.2) := by
  obtain ⟨hc, ha, hall⟩ := h.mapTasksDone
  unfold Coordinator.mapLoop
  dsimp only
  split
  · next hd =>
    obtain ⟨hc', ha', hcall⟩ := hc.reduceLoop (hall hd)
    exact ⟨hc', ha.trans ha', hcall⟩
  · split
    · next task hf =>
      obtain ⟨hwait, hdata⟩ := hc.maps.fetch hf
      obtain ⟨hc', ha'⟩ := hc.setMaps (hc.maps.start hwait) fun _ hno => hno.elim
      rw [mapData, List.getElem?_map, Option.map_eq_some_iff] at hdata
      obtain ⟨fileName, hfile, hdata⟩ := hdata
      exact ⟨hc', ha.trans ha', fileName, hfile, hdata.symm⟩
    · exact ⟨hc, ha, trivial⟩

lemma CoordOk.fetchTask (h : CoordOk inputs nReduce reports c) {loop : Kind} {asleep : Bool}
    (hcall : CallOk inputs nReduce c (.looping loop asleep)) :
    CoordOk inputs nReduce reports (c.fetchTask loop).1 ∧ Ahead c (c.fetchTask loop).1 ∧
      CallOk inputs nReduce (c.fetchTask loop).1 (Fetched.call (c.fetchTask loop).2) := by
  cases loop with
  | map => exact h.mapLoop
  | reduce => exact h.reduceLoop hcall

lemma CoordOk.mapTaskFinished (h : CoordOk inputs nReduce reports c) (hin : ⟨.map, id⟩ ∈ reports)
    {wakes : Bool} (hs : c.mapTaskFinished id = some (c', wakes)) :
    CoordOk inputs nReduce reports c' ∧ Ahead c c' := by
  unfold Coordinator.mapTaskFinished at hs
  split at hs
  · next hlt =>
    obtain ⟨hc, ha⟩ := h.setMaps (h.maps.finish hlt) fun id' hid' => hid' ▸ hin
    obtain ⟨hc', ha', -⟩ := hc.mapTasksDone
    obtain ⟨rfl, -⟩ := Prod.mk.inj (Option.some.inj hs)
    exact ⟨hc', ha.trans ha'⟩
  · cases hs

lemma CoordOk.reduceTaskFinished (h : CoordOk inputs nReduce reports c)
    (hin : ⟨.reduce, id⟩ ∈ reports) {wakes : Bool}
    (hs : c.reduceTaskFinished id = some (c', wakes)) :
    CoordOk inputs nReduce reports c' ∧ Ahead c c' := by
  unfold Coordinator.reduceTaskFinished at hs
  split at hs
  · next hlt =>
    have hord : ∀ id', .handed id' ∈ (c.reduces.finish id).history →
        .handed id' ∈ c.reduces.history ∨ AllFinished c.maps := fun id' hid' =>
      Or.inl (by simpa [Phase.finish] using hid')
    obtain ⟨hc, ha⟩ := h.setReduces (h.reduces.finish hlt) hord fun id' hid' => hid' ▸ hin
    obtain ⟨hc', ha', -⟩ := hc.done
    obtain ⟨rfl, -⟩ := Prod.mk.inj (Option.some.inj hs)
    exact ⟨hc', ha.trans ha'⟩
  · cases hs

lemma CoordOk.recoverMapTask (h : CoordOk inputs nReduce reports c) {timer : ℕ × ℕ}
    (hin : timer ∈ c.maps.timers) : CoordOk inputs nReduce reports (c.recoverMapTask timer).1 ∧
      Ahead c (c.recoverMapTask timer).1 :=
  h.setMaps (h.maps.fire hin) fun _ hno => hno.elim

lemma CoordOk.recoverReduceTask (h : CoordOk inputs nReduce reports c) {timer : ℕ × ℕ}
    (hin : timer ∈ c.reduces.timers) :
    CoordOk inputs nReduce reports (c.recoverReduceTask timer).1 ∧
      Ahead c (c.recoverReduceTask timer).1 := by
  refine h.setReduces (h.reduces.fire hin) (fun id hid => Or.inl ?_) fun _ hno => hno.elim
  unfold Phase.fire at hid
  dsimp only at hid
  split at hid <;> simpa [Phase.setState] using hid

lemma CoordOk.poll (h : CoordOk inputs nReduce reports c) {main main' : Main} (hm : MainOk c main)
    {reduces : Phase ReduceData} (hp : pollStep c.reduces main = some (main', reduces)) :
    CoordOk inputs nReduce reports { c with reduces := reduces } ∧
      Ahead c { c with reduces := reduces } ∧ MainOk { c with reduces := reduces } main' := by
  cases main with
  | sleeping =>
    obtain ⟨rfl, rfl⟩ := Prod.mk.inj (Option.some.inj hp)
    refine ⟨h, .refl c, ?_⟩
    split
    · next hl => exact h.reduces.latched hl
    · exact fun id hid => absurd hid (Nat.not_lt_zero id)
  | scanning i =>
    simp only [pollStep] at hp
    split at hp
    · next task htask =>
      obtain ⟨rfl, rfl⟩ := Prod.mk.inj (Option.some.inj hp)
      refine ⟨h, .refl c, ?_⟩
      split
      · next hfin =>
        intro id hid
        rcases Nat.lt_succ_iff_lt_or_eq.mp hid with hid | rfl
        · exact hm id hid
        · show state c.reduces id = _
          rw [state, htask, Option.map_some, hfin]
      · trivial
    · next hnone =>
      obtain ⟨rfl, rfl⟩ := Prod.mk.inj (Option.some.inj hp)
      have hall : AllFinished c.reduces := allFinished_iff.mpr fun id hid =>
        hm id (hid.trans_le (List.getElem?_eq_none_iff.mp hnone))
      obtain ⟨hc, ha⟩ := h.latchReduces hall
      exact ⟨hc, ha, ha.reduces.allFinished hall⟩
  | returned => cases hp

lemma CoordOk.grow (h : CoordOk inputs nReduce reports c) (l : List Report) :
    CoordOk inputs nReduce (reports ++ l) c :=
  ⟨h.maps, h.reduces, h.order, fun id hid => List.mem_append_left l (h.mapReports id hid),
    fun id hid => List.mem_append_left l (h.reduceReports id hid)⟩

/-! ### The system -/

variable (inputs nReduce) in
structure Sched (x : System) : Prop where
  coord : CoordOk inputs nReduce x.reports x.coordinator
  calls : ∀ call ∈ x.calls, CallOk inputs nReduce x.coordinator call
  main : MainOk x.coordinator x.main

variable {x x' : System}

lemma sched_init (files : Files) : Sched inputs nReduce (.init inputs nReduce files) where
  coord := {
    maps := phaseOk_make _
    reduces := phaseOk_make _
    order := fun _ hid => absurd hid List.not_mem_nil
    mapReports := fun id hid => absurd ((phaseOk_make _).reported id hid) List.not_mem_nil
    reduceReports := fun id hid => absurd ((phaseOk_make _).reported id hid) List.not_mem_nil }
  calls := fun _ hcall => absurd hcall List.not_mem_nil
  main := trivial

lemma Sched.settle (h : Sched inputs nReduce x)
    (hc : CoordOk inputs nReduce x.reports c ∧ Ahead x.coordinator c) (wakes : Bool) :
    Sched inputs nReduce (x.settle c wakes) ∧
      Ahead x.coordinator (x.settle c wakes).coordinator := by
  refine ⟨⟨hc.1, fun call hcall => ?_, h.main.ahead hc.2⟩, hc.2⟩
  unfold System.settle at hcall
  cases wakes with
  | false => exact (h.calls call hcall).ahead hc.2
  | true =>
    obtain ⟨call', hcall', rfl⟩ := List.mem_map.mp hcall
    exact ((h.calls call' hcall').ahead hc.2).wake

/-- **A step keeps the schedule in order, and what is finished.** -/
lemma Sched.step [JsonCoder] {app : App} {act : Action} (h : Sched inputs nReduce x)
    (hs : MrSystem.step app x act = some x') :
    Sched inputs nReduce x' ∧ Ahead x.coordinator x'.coordinator := by
  cases steps_of_step hs with
  | fetch _ =>
    refine ⟨⟨h.coord, fun call hcall => ?_, h.main⟩, .refl _⟩
    rcases List.mem_append.mp hcall with hcall | hcall
    · exact h.calls call hcall
    · rw [List.mem_singleton.mp hcall]
      trivial
  | serve hcall =>
    obtain ⟨hc, ha, hok⟩ := h.coord.fetchTask (h.calls _ (List.mem_of_getElem? hcall))
    refine ⟨⟨hc, fun call hin => ?_, h.main.ahead ha⟩, ha⟩
    rcases List.mem_or_eq_of_mem_set hin with hin | rfl
    · exact (h.calls call hin).ahead ha
    · exact hok
  | receive _ | giveUp _ | crash _ => exact ⟨⟨h.coord, h.calls, h.main⟩, .refl _⟩
  | work _ => exact ⟨⟨h.coord.grow _, h.calls, h.main⟩, .refl _⟩
  | mapFinished hin hfin => exact h.settle (h.coord.mapTaskFinished hin hfin) _
  | reduceFinished hin hfin => exact h.settle (h.coord.reduceTaskFinished hin hfin) _
  | fireMap hin => exact h.settle (h.coord.recoverMapTask hin) _
  | fireReduce hin => exact h.settle (h.coord.recoverReduceTask hin) _
  | poll hpoll =>
    obtain ⟨hc, ha, hm⟩ := h.coord.poll h.main hpoll
    exact ⟨⟨hc, fun call hcall => (h.calls call hcall).ahead ha, hm⟩, ha⟩

end Mit6824.MrScheduler
