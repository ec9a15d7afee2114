import Mit6824.Completed
import Mit6824.KvRaft
import Mit6824.PorcKv
import Mit6824.PorcParallel

/-!
The service and the checker of its histories.

The tests of the service write down each operation with a time before its call and a time after
its return, and let the checker look at the operations with the model of a single key.
-/

namespace Mit6824.KvChecked

open Mit6824.GoData Mit6824.Labgob Mit6824.KvServer Mit6824.KvSystem Mit6824.KvHistory
open Mit6824.KvLinear Mit6824.KvRaft Mit6824.RaftPort Mit6824.RaftState Mit6824.Runs
open Mit6824.Compose Mit6824.Linear Mit6824.Completed Mit6824.PorcChecker Mit6824.PorcSearch
open Mit6824.PorcModels Mit6824.PorcKv Mit6824.PorcParallel Mit6824.PorcVerdict Function

/-! ### The checker with the model of a key -/

section Checker

variable {history : List KvOperation} {sorter : Sorter KvInput KvOutput} {verbose timeout : Bool}
  {x : Check GoString}

lemma timed_kvPartition (ht : PorcEntries.Timed history) :
    ∀ part ∈ kvPartition history, PorcEntries.Timed part := by
  rw [kvPartition_eq, List.forall_mem_map]
  exact fun k _ op hop => ht op (List.mem_of_mem_filter hop)

lemma equalAlike_kvModel : EqualAlike (fillDefault kvModel) :=
  (equalAlike_of_none rfl : EqualAlike kvModel)

lemma answer_kvModel (ht : PorcEntries.Timed history)
    (hr : CheckOperations kvModel sorter verbose timeout history x) {r : CheckResult}
    (hphase : x.phase = .returned r) :
    (r = .ok → PorcEntries.Linearizable mapModel history) ∧
    (r = .illegal → ¬ PorcEntries.Linearizable mapModel history) ∧
    (r = .unknown → timeout = true) := by
  obtain ⟨hok, hillegal, hunknown⟩ :=
    answer_of_reaches equalAlike_kvModel (timed_kvPartition ht) hr hphase
  refine ⟨fun h => (linearizable_mapModel_iff ht).mpr fun part hpart => ?_, fun h hlin => ?_,
    hunknown⟩
  · exact linearizable_fillDefault.mp (hok h part hpart)
  · obtain ⟨part, hpart, hno⟩ := hillegal h
    exact hno (linearizable_fillDefault.mpr ((linearizable_mapModel_iff ht).mp hlin part hpart))

/-- **The check by keys is a check of the map.** -/
theorem checkOperations_kvModel (ht : PorcEntries.Timed history)
    (hr : CheckOperations kvModel sorter verbose timeout history x) :
    x.phase ≠ .panicked ∧ ∀ r, x.phase = .returned r →
      (r = .ok → PorcEntries.Linearizable mapModel history) ∧
      (r = .illegal → ¬ PorcEntries.Linearizable mapModel history) ∧
      (r = .unknown → timeout = true) :=
  ⟨alive_of_reaches equalAlike_kvModel (timed_kvPartition ht) hr,
    fun _ hphase => answer_kvModel ht hr hphase⟩

end Checker

/-- The reads of one key do not hide what is wrong with the other. -/
theorem checkOperations_kvModel_stale :
    ¬ PorcEntries.Linearizable mapModel (⟨2, ⟨0, [98], []⟩, 0, ⟨[]⟩, 9⟩ :: staleRead) := by
  set l := subhistories insertionSorter
    (kvPartition (⟨2, ⟨0, [98], []⟩, 0, ⟨[]⟩, 9⟩ :: staleRead)) with hl
  have hrun : (run (step (fillDefault kvModel) false false l) (Check.init (fillDefault kvModel) l)
      (List.replicate 6 (.work 0) ++ [.receive])).map Check.phase =
        some (.returned .illegal) := by
    rw [hl]
    decide +kernel
  obtain ⟨x, hx, hphase⟩ := Option.map_eq_some_iff.mp hrun
  exact ((checkOperations_kvModel (by decide) (reaches_of_run hx)).2 _ hphase).2.1 rfl

/-! ### What the tests write down -/

/-- The client of each call, and the times that are taken before and after it. -/
structure Times where
  cli : ℕ × ℕ → ℕ
  start : ℕ × ℕ → ℤ
  stop : ℕ × ℕ → ℤ
  le : ∀ i, start i ≤ stop i

/-- What `Get`, `Put` and `Append` of the tests append to their log. -/
def record (t : Times) (d : Effect) : KvOperation where
  clientId := t.cli d.id
  input :=
    match d.op.type with
    | .get => ⟨0, d.op.key, []⟩
    | .put => ⟨1, d.op.key, d.op.value⟩
    | .append => ⟨2, d.op.key, d.op.value⟩
  call := t.start d.id
  output :=
    match d.op.type with
    | .get => ⟨d.result⟩
    | _ => ⟨[]⟩
  ret := t.stop d.id

variable {n : ℕ}

end Mit6824.KvChecked
