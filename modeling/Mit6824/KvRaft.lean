import Mit6824.KvLinear
import Mit6824.RaftTraces

/-!
The key/value service on top of Raft.

The servers and clerks of the service are one machine, the Raft cluster below them is the other.
They meet where a handler calls `Start`, where the applier of a server receives from `applyCh`,
where the server hands a snapshot to Raft, and where both restart.
-/

namespace Mit6824.KvRaft

open Mit6824.GoData Mit6824.Labgob Mit6824.KvServer Mit6824.KvSystem Mit6824.KvSteps
open Mit6824.KvHistory Mit6824.KvLinear Mit6824.Linear Mit6824.Runs Mit6824.Compose
open Mit6824.RaftState Mit6824.RaftCluster Mit6824.RaftPort Mit6824.RaftTraces Function

/-! ### The service without Raft -/

/-- The servers and the clerks, and what the clerks have seen. -/
structure Front (n : ℕ) extends App n where
  history : List (Event (ℕ × ℕ) Op GoString)

variable {n : ℕ}

def Front.init : Front n := ⟨.init, []⟩

def Front.after (e : Front n) (a : App n) : Sight n → Front n
  | .invoked op => ⟨a, e.history ++ [.inv (op.clientId, op.seqNum) op]⟩
  | .returned op value _ => ⟨a, e.history ++ [.ret (op.clientId, op.seqNum) value]⟩
  | .nothing | .log _ => { e with toApp := a }

/-- The clerks invoke one operation at a time. -/
def Paced (e : Front n) (act : Act n) : Prop := OneAtATime e.toApp act

instance (e : Front n) (act : Act n) : Decidable (Paced e act) :=
  inferInstanceAs (Decidable (OneAtATime e.toApp act))

def label : Sight n → Option (Label n Op)
  | .log l => some l
  | _ => none

def positions (e : App n) : Fin n → ℕ := KvSystem.Server.applied ∘ e.servers

def move (pos : Fin n → ℕ) : Sight n → Fin n → ℕ
  | .log (.command s _ index) | .log (.restore s _ index) => update pos s index
  | .log (.restart s) => update pos s 0
  | _ => pos

lemma positions_setServer (e : App n) (s : Fin n) (sv : KvSystem.Server) :
    positions (e.setServer s sv) = update (positions e) s sv.applied := comp_update ..

lemma positions_same {e : App n} {s : Fin n} {sv : KvSystem.Server}
    (h : sv.applied = (e.servers s).applied) : positions (e.setServer s sv) = positions e := by
  rw [positions_setServer, h]
  exact update_eq_self s (positions e)

section Service

variable [Coded (ℕ × Data × GoMap ℕ ℕ)]

lemma positions_of_step {e a : App n} {act : Act n} {seen : Sight n}
    (h : e.step act = some (a, seen)) : positions a = move (positions e) seen := by
  cases App.acts_of_step h with
  | done _ _ | started _ | refused _ | note _ | restore _ _ | restored _ =>
    exact positions_same rfl
  | install _ | restart _ => exact positions_setServer ..
  | apply op index _ =>
    rw [positions_setServer]
    unfold KvSystem.Server.apply
    dsimp only
    split <;> rfl
  | _ => rfl

def app (e : Front n) (act : Act n) : Option (Front n × Option (Label n Op)) := do
  let (a, seen) ← e.toApp.step act
  return (e.after a seen, label seen)

lemma app_eq_some_iff {e e' : Front n} {act : Act n} {l : Option (Label n Op)} :
    app e act = some (e', l) ↔
      ∃ a seen, e.toApp.step act = some (a, seen) ∧ e.after a seen = e' ∧ label seen = l := by
  simp [app, Option.bind_eq_some_iff]

/-! ### The service with a log -/

/-- The key/value system that a log and the service make. Its history also has the places of the
operations in the log. -/
def system (w : Service n Op × Front n) (history : List Moment) : System n where
  toApp := w.2.toApp
  log := w.1.log
  started := w.1.started
  snapshots := w.1.snapshots
  history := history

/-- The history is that of the clerks, and the servers have applied what they were delivered. -/
structure Matches (w : Service n Op × Front n) (history : List Moment) : Prop where
  history : history.map Moment.event = w.2.history
  applied : positions w.2.toApp = w.1.pos

variable {w w' : Service n Op × Front n} {history : List Moment}

/-- What the service does alone, the system does. -/
lemma system_right (h : Matches w history) {b : Act n} {e : Front n}
    (hb : app w.2 b = some (e, none)) :
    ∃ history', Matches (w.1, e) history' ∧
      KvSystem.step (system w history) (.act b) = some (system (w.1, e) history') := by
  obtain ⟨a, seen, ha, rfl, hl⟩ := app_eq_some_iff.mp hb
  have hpos := positions_of_step ha
  cases seen with
  | nothing =>
    exact ⟨history, ⟨h.history, hpos.trans h.applied⟩, step_act_iff.mpr ⟨a, _, ha, trivial, rfl⟩⟩
  | log l => cases hl
  | invoked op =>
    refine ⟨history ++ [Moment.invoked op w.1.log.length], ⟨?_, hpos.trans h.applied⟩,
      step_act_iff.mpr ⟨a, _, ha, trivial, rfl⟩⟩
    rw [List.map_append, h.history]
    rfl
  | returned op value place =>
    refine ⟨history ++ [Moment.returned op value place], ⟨?_, hpos.trans h.applied⟩,
      step_act_iff.mpr ⟨a, _, ha, trivial, rfl⟩⟩
    rw [List.map_append, h.history]
    rfl

/-- What the log does alone, the system does. -/
lemma system_left (h : Matches w history) {y : Service n Op}
    (hd : LogService.Steps w.1 none y) :
    ∃ i, Matches (y, w.2) history ∧
      KvSystem.step (system w history) (.commit i) = some (system (y, w.2) history) := by
  cases hd with
  | @commit i op hop => exact ⟨i, ⟨h.history, h.applied⟩, by simp [KvSystem.step, system, hop]⟩

lemma system_both (h : Matches w history) {y : Service n Op} {e : Front n} {b : Act n}
    {l : Label n Op} (hd : LogService.Steps w.1 (some l) y) (hb : app w.2 b = some (e, some l)) :
    Matches (y, e) history ∧
      KvSystem.step (system w history) (.act b) = some (system (y, e) history) := by
  obtain ⟨a, seen, ha, rfl, hl⟩ := app_eq_some_iff.mp hb
  obtain rfl : seen = .log l := by
    cases seen with
    | log l' => rw [Option.some.inj hl]
    | _ => cases hl
  have hpos := positions_of_step ha
  rw [h.applied] at hpos
  have hat : ∀ s, (w.2.servers s).applied = w.1.pos s := congrFun h.applied
  refine ⟨⟨h.history, ?_⟩, ?_⟩
  · cases hd <;> exact hpos
  · cases hd with
    | start s c accepted => cases accepted <;> exact step_act_iff.mpr ⟨a, _, ha, trivial, rfl⟩
    | @command s c hc =>
      refine step_act_iff.mpr ⟨a, _, ha, ⟨?_, ?_⟩, rfl⟩
      · show w.1.log[(w.2.servers s).applied]? = some c
        rw [hat, hc]
      · show w.1.pos s + 1 = (w.2.servers s).applied + 1
        rw [hat]
    | @restore s i index data hi hlt =>
      refine step_act_iff.mpr ⟨a, _, ha, ⟨List.mem_of_getElem? hi, ?_⟩, rfl⟩
      show (w.2.servers s).applied < index
      rw [hat]
      exact hlt
    | snapshot hle => exact step_act_iff.mpr ⟨a, _, ha, trivial, rfl⟩
    | restart s => exact step_act_iff.mpr ⟨a, _, ha, trivial, rfl⟩

/-- **The service with a log is the key/value system.** -/
lemma system_step (h : Matches w history) {act : Joint _ (Act n)}
    (hs : Steps LogService.step app w act w') :
    ∃ history' act', Matches w' history' ∧
      (OnRight Paced w act → Sequential (system w history) act') ∧
      KvSystem.step (system w history) act' = some (system w' history') := by
  cases hs with
  | left hd =>
    obtain ⟨i, hm, hstep⟩ := system_left h (LogService.steps_of_step hd)
    exact ⟨history, .commit i, hm, fun _ => trivial, hstep⟩
  | @right b _ hb =>
    obtain ⟨history', hm, hstep⟩ := system_right h hb
    exact ⟨history', .act b, hm, id, hstep⟩
  | @both _ b _ _ _ hd hb =>
    obtain ⟨hm, hstep⟩ := system_both h (LogService.steps_of_step hd) hb
    exact ⟨history, .act b, hm, id, hstep⟩

/-! ### The service with Raft -/

variable [Coded (Persisted n Op)] [Inhabited Op] [Coded (List Op)]

/-- **The service on Raft is the key/value system.** Under `K` the clerks invoke one operation
at a time. -/
theorem reaches_system {w : Port n Op × Front n} {K : Prop}
    (hr : ReachesIf (joint raft app) (OnRight fun e act => K → Paced e act)
      (Port.init, Front.init) w) :
    ∃ y history, Refines w.1 y ∧ Matches (y, w.2) history ∧
      ReachesIf KvSystem.step (fun x act => K → Sequential x act) System.init
        (system (y, w.2) history) := by
  obtain ⟨y, hy, hr'⟩ := raft_simulates.joint hr refines_init
  obtain ⟨x, ⟨history, hm, rfl⟩, hx⟩ : ∃ x,
      (∃ history, Matches (y, w.2) history ∧ x = system (y, w.2) history) ∧
      ReachesIf KvSystem.step (fun x act => K → Sequential x act) System.init x := by
    refine hr'.forward (R := fun w x => ∃ history, Matches w history ∧ x = system w history)
      ⟨[], ⟨rfl, rfl⟩, rfl⟩ ?_
    rintro w act w' _ ⟨history, hm, rfl⟩ hP hs
    obtain ⟨history', act', hm', hseq, hstep⟩ := system_step hm (joint_eq_some_iff.mp hs)
    refine ⟨_, ⟨history', hm', rfl⟩, .single ⟨act', fun hk => hseq ?_, hstep⟩⟩
    cases act with
    | left a => trivial
    | right b => exact hP hk
    | both a b => exact hP hk
  exact ⟨y, history, hy, hm, hx⟩

end Service

/-- The value that stands for the command of an entry that has none. -/
instance inhabitedOp : Inhabited Op := ⟨⟨.get, [], [], 0, 0⟩⟩

def typeOf : ℕ → OpType
  | 0 => .put
  | 1 => .append
  | _ => .get

def OpType.num : OpType → ℕ
  | .put => 0
  | .append => 1
  | .get => 2

instance encodableOp : Encodable Op :=
  Encodable.ofLeftInverse (fun op => (OpType.num op.type, op.key, op.value, op.seqNum, op.clientId))
    (fun t => ⟨typeOf t.1, t.2.1, t.2.2.1, t.2.2.2.1, t.2.2.2.2⟩)
    (fun ⟨type, _, _, _, _⟩ => by cases type <;> rfl)

/-- Server `j` restarts, server `i` is elected and serves a put of one clerk and a get of
another. -/
def served (i j : Fin 2) : List (Joint (RaftCluster.Action 2 Op × Bytes) (Act 2)) :=
  [.both (.crash j, []) (.restart j), .left (.leaderElection i, []), .left (.requestVote 0, []),
    .left (.countVote 0, []), .left (.finishElection i 1, []),
    .right (.invoke 1 .put [97] [120]), .right (.send 1 0 i),
    .both (.start i ⟨.put, [97], [120], 1, 1⟩, []) (.handle 0 true),
    .left (.leaderHeartbeat i, []), .left (.appendEntries 0, []), .left (.sendAppendEntries 0, []),
    .left (.choose i, []), .both (.deliver i, []) (.apply i ⟨.put, [97], [120], 1, 1⟩ 1),
    .right (.note i), .left (.record i, []), .right (.wake 0), .right (.answer 0),
    .right (.return 0), .right (.invoke 2 .get [97] []), .right (.send 2 0 i),
    .both (.start i ⟨.get, [97], [], 1, 2⟩, []) (.handle 1 true),
    .left (.leaderHeartbeat i, []), .left (.appendEntries 1, []), .left (.sendAppendEntries 1, []),
    .left (.choose i, []), .both (.deliver i, []) (.apply i ⟨.get, [97], [], 1, 2⟩ 2),
    .right (.note i), .right (.wake 1), .right (.answer 1), .right (.return 1)]

lemma exists_served : ∃ w : Port 2 Op × Front 2, ReachesIf (joint raft app) (OnRight Paced)
    (Port.init, Front.init) w ∧ w.2.history = [.inv (1, 1) ⟨.put, [97], [120], 1, 1⟩,
      .ret (1, 1) [], .inv (2, 1) ⟨.get, [97], [], 1, 2⟩, .ret (2, 1) [120]] := by
  have hrun : (Runs.runIf (joint raft app) (OnRight Paced) (Port.init, Front.init)
      (served 0 1)).map (fun w => w.2.history) =
        some [.inv (1, 1) ⟨.put, [97], [120], 1, 1⟩, .ret (1, 1) [],
          .inv (2, 1) ⟨.get, [97], [], 1, 2⟩, .ret (2, 1) [120]] := by
    decide +kernel
  obtain ⟨w, hw, hh⟩ := Option.map_eq_some_iff.mp hrun
  exact ⟨w, Runs.reachesIf_of_runIf hw, hh⟩

end Mit6824.KvRaft
