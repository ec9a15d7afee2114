import Mit6824.MrWorker
import Mit6824.Runs

/-!
A MapReduce job: the coordinator with its timers and the calls it serves, the loop of its `main`,
any number of workers, and the files.

A worker dies at any time; a call that it has made is served all the same. A report that has been
sent is served at any time, several times, or never. `main` polls `Done` without the mutex, one
task after the other.
-/

namespace Mit6824.MrSystem

open Mit6824.GoData Mit6824.MrCoordinator Mit6824.MrWorker Mit6824.Runs Function

/-- Where a `FetchTask` is. -/
inductive Call
  /-- It is to run a loop, or sleeps in `Cond.Wait`. -/
  | looping (loop : Kind) (asleep : Bool)
  | replied (reply : FetchTaskReply)
  deriving DecidableEq

/-- `Cond.Broadcast` -/
def Call.wake : Call → Call
  | .looping loop _ => .looping loop false
  | call => call

inductive Main
  | sleeping
  /-- `Done` has found the first tasks finished. -/
  | scanning (i : ℕ)
  /-- `Done` has returned `true`. -/
  | returned
  deriving DecidableEq

structure System where
  coordinator : Coordinator
  calls : List Call
  main : Main
  workers : ℕ → Stage
  files : Files
  /-- The reports that have been sent. -/
  reports : List Report

inductive Action
  | fetch (w : ℕ)
  | serve (call : ℕ)
  | receive (w : ℕ)
  | giveUp (w : ℕ)
  | work (w tmp : ℕ)
  | crash (w : ℕ)
  | deliver (report : Report)
  | fire (kind : Kind) (timer : ℕ × ℕ)
  | poll
  deriving DecidableEq

def System.init (inputs : List GoString) (nReduce : ℕ) (files : Files) : System :=
  ⟨makeCoordinator inputs nReduce, [], .sleeping, fun _ => .idle, files, []⟩

namespace System

def setStage (x : System) (w : ℕ) (stage : Stage) : System :=
  { x with workers := update x.workers w stage }

def settle (x : System) (c : Coordinator) (wakes : Bool) : System :=
  { x with
    coordinator := c
    calls := if wakes then x.calls.map Call.wake else x.calls }

end System

def Fetched.call : Fetched → Call
  | .replied reply => .replied reply
  | .waits loop => .looping loop true

def pollStep (reduces : Phase ReduceData) : Main → Option (Main × Phase ReduceData)
  | .sleeping => some (if reduces.allFinished then .returned else .scanning 0, reduces)
  | .scanning i =>
    match reduces.tasks[i]? with
    | some task => some (if task.state = .finished then .scanning (i + 1) else .sleeping, reduces)
    | none => some (.returned, { reduces with allFinished := true })
  | .returned => none

variable [JsonCoder] (app : App)

def step (x : System) : Action → Option System
  | .fetch w => do
    let .idle := x.workers w | none
    return { x.setStage w (.fetching x.calls.length) with
      calls := x.calls ++ [.looping .map false] }
  | .serve k => do
    let .looping loop false ← x.calls[k]? | none
    let (c, fetched) := x.coordinator.fetchTask loop
    return { x with coordinator := c, calls := x.calls.set k (Fetched.call fetched) }
  | .receive w => do
    let .fetching k := x.workers w | none
    let .replied reply ← x.calls[k]? | none
    return x.setStage w (MrWorker.receive reply)
  | .giveUp w => do
    let .fetching _ := x.workers w | none
    return x.setStage w .idle
  | .work w tmp => do
    let done ← app.work x.files tmp (x.workers w)
    return { x.setStage w done.stage with
      files := done.files, reports := x.reports ++ done.reports }
  | .crash w => some (x.setStage w .dead)
  | .deliver report => do
    guard (report ∈ x.reports)
    let (c, done) ← match report.kind with
      | .map => x.coordinator.mapTaskFinished report.taskId
      | .reduce => x.coordinator.reduceTaskFinished report.taskId
    return x.settle c done
  | .fire .map timer => do
    guard (timer ∈ x.coordinator.maps.timers)
    let (c, wakes) := x.coordinator.recoverMapTask timer
    return x.settle c wakes
  | .fire .reduce timer => do
    guard (timer ∈ x.coordinator.reduces.timers)
    let (c, wakes) := x.coordinator.recoverReduceTask timer
    return x.settle c wakes
  | .poll => do
    let (main, reduces) ← pollStep x.coordinator.reduces x.main
    return { x with
      main := main
      coordinator := { x.coordinator with reduces := reduces } }

@[grind intro]
inductive Steps (x : System) : Action → System → Prop
  | fetch {w : ℕ} (hidle : x.workers w = .idle) :
      Steps x (.fetch w) { x.setStage w (.fetching x.calls.length) with
        calls := x.calls ++ [.looping .map false] }
  | serve {k : ℕ} {loop : Kind} (hcall : x.calls[k]? = some (.looping loop false)) :
      Steps x (.serve k) { x with
        coordinator := (x.coordinator.fetchTask loop).1
        calls := x.calls.set k (Fetched.call (x.coordinator.fetchTask loop).2) }
  | receive {w k : ℕ} {reply : FetchTaskReply} (hcall : x.calls[k]? = some (.replied reply)) :
      Steps x (.receive w) (x.setStage w (MrWorker.receive reply))
  | giveUp (w : ℕ) : Steps x (.giveUp w) (x.setStage w .idle)
  | work {w tmp : ℕ} {done : Worked} (hwork : app.work x.files tmp (x.workers w) = some done) :
      Steps x (.work w tmp) { x.setStage w done.stage with
        files := done.files, reports := x.reports ++ done.reports }
  | crash (w : ℕ) : Steps x (.crash w) (x.setStage w .dead)
  | mapFinished {id : ℕ} {c : Coordinator} {done : Bool} (hin : ⟨.map, id⟩ ∈ x.reports)
      (hfin : x.coordinator.mapTaskFinished id = some (c, done)) :
      Steps x (.deliver ⟨.map, id⟩) (x.settle c done)
  | reduceFinished {id : ℕ} {c : Coordinator} {done : Bool} (hin : ⟨.reduce, id⟩ ∈ x.reports)
      (hfin : x.coordinator.reduceTaskFinished id = some (c, done)) :
      Steps x (.deliver ⟨.reduce, id⟩) (x.settle c done)
  | fireMap {timer : ℕ × ℕ} (hin : timer ∈ x.coordinator.maps.timers) :
      Steps x (.fire .map timer) (x.settle (x.coordinator.recoverMapTask timer).1
        (x.coordinator.recoverMapTask timer).2)
  | fireReduce {timer : ℕ × ℕ} (hin : timer ∈ x.coordinator.reduces.timers) :
      Steps x (.fire .reduce timer) (x.settle (x.coordinator.recoverReduceTask timer).1
        (x.coordinator.recoverReduceTask timer).2)
  | poll {main : Main} {reduces : Phase ReduceData}
      (hpoll : pollStep x.coordinator.reduces x.main = some (main, reduces)) :
      Steps x .poll { x with
        main := main
        coordinator := { x.coordinator with reduces := reduces } }

variable {app}

lemma steps_of_step {x x' : System} {act : Action} (hs : step app x act = some x') :
    Steps app x act x' := by
  rcases act with w | k | w | w | ⟨w, tmp⟩ | w | ⟨_ | _, id⟩ | ⟨_ | _, timer⟩ | _ <;>
    grind [step, Option.bind_eq_bind, Option.bind_eq_some_iff, Option.guard_eq_some',
      Option.pure_def]

/-! ### Scripts -/

def take (w call : ℕ) : List Action := [.fetch w, .serve call, .receive w]

def advance (w tmp n : ℕ) : List Action := List.replicate n (.work w tmp)

def letters : App where
  mapf := fun _ content => content.map fun b => ⟨[b], ascii ['1']⟩
  reducef := fun _ values => itoa values.length
  sorter := insertionSorter

end Mit6824.MrSystem
