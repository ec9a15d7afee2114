import Mit6824.GoData

/-!
The coordinator of MapReduce (`mr/coordinator.go`).

The map tasks and the reduce tasks are two lists of the same kind, each with the flag that caches
that all of it is finished. A method runs under the mutex, up to its return or to `Cond.Wait`.
-/

namespace Mit6824.MrCoordinator

open Mit6824.GoData

inductive TaskState
  | waitting
  | started
  | finished
  deriving DecidableEq

/-- A task; its place in the list is its id. -/
structure TaskOf (D : Type) where
  id : ℕ
  data : D
  state : TaskState
  deriving DecidableEq

structure MapData where
  fileName : GoString
  nReduce : ℕ
  deriving DecidableEq

structure ReduceData where
  nMap : ℕ
  deriving DecidableEq

abbrev MapTask := TaskOf MapData

abbrev ReduceTask := TaskOf ReduceData

/-- What happens to a task; a timer is that of the entry with the number. -/
inductive Entry
  | handed (id : ℕ)
  | finished (id : ℕ)
  | fired (id n : ℕ)
  deriving DecidableEq

/-- A list of tasks. `timers` are the goroutines that wait to recover a task, each with the number
of the entry in which the task was handed out. No method looks at the numbers or at `history`. -/
structure Phase (D : Type) where
  tasks : List (TaskOf D)
  allFinished : Bool
  timers : List (ℕ × ℕ)
  history : List Entry
  deriving DecidableEq

namespace Phase

variable {D : Type}

def make (data : List D) : Phase D :=
  ⟨data.mapIdx fun i d => ⟨i, d, .waitting⟩, false, [], []⟩

def fetch (p : Phase D) : Option (TaskOf D) := p.tasks.find? (·.state = .waitting)

def setState (p : Phase D) (id : ℕ) (state : TaskState) : Phase D :=
  { p with tasks := p.tasks.modify id fun task => { task with state := state } }

def start (p : Phase D) (id : ℕ) : Phase D :=
  { p.setState id .started with
    timers := p.timers ++ [(id, p.history.length)]
    history := p.history ++ [.handed id] }

def fire (p : Phase D) (timer : ℕ × ℕ) : Phase D :=
  let p := { p with
    timers := p.timers.erase timer
    history := p.history ++ [.fired timer.1 timer.2] }
  if (p.tasks[timer.1]?).map TaskOf.state ≠ some .finished then p.setState timer.1 .waitting else p

/-- Whether the timer recovers the task, and so wakes the workers that wait. -/
def recovers (p : Phase D) (timer : ℕ × ℕ) : Bool :=
  (p.tasks[timer.1]?).map TaskOf.state ≠ some .finished

def finish (p : Phase D) (id : ℕ) : Phase D :=
  { p.setState id .finished with history := p.history ++ [.finished id] }

/-- Whether all tasks are finished; if so, that is noted. -/
def check (p : Phase D) : Bool × Phase D :=
  if p.allFinished then (true, p)
  else if p.tasks.all (·.state = .finished) then (true, { p with allFinished := true })
  else (false, p)

end Phase

structure Coordinator where
  /-- `MapTasks` and `mapTasksDone`. -/
  maps : Phase MapData
  /-- `ReduceTasks` and `done`. -/
  reduces : Phase ReduceData
  deriving DecidableEq

/-- Which of the two loops of `FetchTask`, which of the two kinds of tasks. -/
inductive Kind
  | map
  | reduce
  deriving DecidableEq

inductive FetchTaskReply
  | done
  | mapTask (task : MapTask)
  | reduceTask (task : ReduceTask)
  deriving DecidableEq

/-- How far `FetchTask` comes before it gives the mutex away. -/
inductive Fetched
  | replied (reply : FetchTaskReply)
  | waits (loop : Kind)
  deriving DecidableEq

def makeCoordinator (files : List GoString) (nReduce : ℕ) : Coordinator where
  maps := .make (files.map fun fileName => ⟨fileName, nReduce⟩)
  reduces := .make (List.replicate nReduce ⟨files.length⟩)

namespace Coordinator

def fetchMapTask (c : Coordinator) : Option MapTask := c.maps.fetch

def fetchReduceTask (c : Coordinator) : Option ReduceTask := c.reduces.fetch

def mapTaskStarted (c : Coordinator) (task : MapTask) : Coordinator :=
  { c with maps := c.maps.start task.id }

def reduceTaskStarted (c : Coordinator) (task : ReduceTask) : Coordinator :=
  { c with reduces := c.reduces.start task.id }

def mapTasksDone (c : Coordinator) : Bool × Coordinator :=
  let (done, maps) := c.maps.check
  (done, { c with maps := maps })

def done (c : Coordinator) : Bool × Coordinator :=
  let (done, reduces) := c.reduces.check
  (done, { c with reduces := reduces })

/-- The second loop of `FetchTask`. -/
def reduceLoop (c : Coordinator) : Coordinator × Fetched :=
  let (done, c) := c.done
  if done then (c, .replied .done)
  else
    match c.fetchReduceTask with
    | some task =>
      (c.reduceTaskStarted task, .replied (.reduceTask { task with state := .started }))
    | none => (c, .waits .reduce)

/-- The first loop of `FetchTask`. -/
def mapLoop (c : Coordinator) : Coordinator × Fetched :=
  let (done, c) := c.mapTasksDone
  if done then c.reduceLoop
  else
    match c.fetchMapTask with
    | some task => (c.mapTaskStarted task, .replied (.mapTask { task with state := .started }))
    | none => (c, .waits .map)

/-- `FetchTask`, from the loop in which it is. -/
def fetchTask (c : Coordinator) : Kind → Coordinator × Fetched
  | .map => c.mapLoop
  | .reduce => c.reduceLoop

/-- `MapTaskFinished`, and whether it wakes the workers that wait; `none` for an index out of
range. -/
def mapTaskFinished (c : Coordinator) (taskId : ℕ) : Option (Coordinator × Bool) :=
  if taskId < c.maps.tasks.length then
    let (done, c) := { c with maps := c.maps.finish taskId }.mapTasksDone
    some (c, done)
  else none

def reduceTaskFinished (c : Coordinator) (taskId : ℕ) : Option (Coordinator × Bool) :=
  if taskId < c.reduces.tasks.length then
    let (done, c) := { c with reduces := c.reduces.finish taskId }.done
    some (c, done)
  else none

/-- A recovery timer of a map task fires. -/
def recoverMapTask (c : Coordinator) (timer : ℕ × ℕ) : Coordinator × Bool :=
  ({ c with maps := c.maps.fire timer }, c.maps.recovers timer)

def recoverReduceTask (c : Coordinator) (timer : ℕ × ℕ) : Coordinator × Bool :=
  ({ c with reduces := c.reduces.fire timer }, c.reduces.recovers timer)

end Coordinator

end Mit6824.MrCoordinator
