import Mit6824.MrFiles

/-!
A MapReduce job gives what the sequential program gives.

The output of a reduce task is made of the records of its part, in the order of their keys; the
parts are a partition of all records by their keys. So the outputs together have the lines that
the sequential program makes of all records at once.
-/

namespace Mit6824.MrOutput

open Mit6824.GoData Mit6824.Grouping Mit6824.MrCoordinator Mit6824.MrTasks Mit6824.MrWorker
open Mit6824.MrSystem Mit6824.MrScheduler Mit6824.MrFiles Mit6824.Runs Function

/-! ### Lines -/

lemma lines_loop (line a b : GoString) :
    lines.loop line (a ++ 10 :: b) = lines.loop line (a ++ [10]) ++ lines.loop [] b := by
  induction a generalizing line with
  | nil => simp [lines.loop]
  | cons c a ih =>
    simp only [List.cons_append, lines.loop]
    split
    · rw [ih, List.cons_append]
    · rw [ih]

lemma lines_flatten (chunks : List GoString) (h : ∀ chunk ∈ chunks, ∃ a, chunk = a ++ [10]) :
    lines chunks.flatten = chunks.flatMap lines := by
  induction chunks with
  | nil => rfl
  | cons chunk chunks ih =>
    obtain ⟨a, rfl⟩ := h chunk List.mem_cons_self
    have ih := ih fun chunk' hc => h chunk' (List.mem_cons_of_mem _ hc)
    rw [List.flatten_cons, List.flatMap_cons, ← ih, List.append_assoc]
    exact lines_loop [] a chunks.flatten

lemma lines_reduceLines (app : App) (kva : List KeyValue) :
    lines (app.reduceLines kva).flatten =
      (runs KeyValue.key KeyValue.value kva).flatMap fun run =>
        lines (app.line (run.1, run.2)) := by
  rw [lines_flatten, App.reduceLines, List.flatMap_map]
  intro chunk hc
  obtain ⟨run, -, rfl⟩ := List.mem_map.mp hc
  exact ⟨_, rfl⟩

lemma Sorter.sorted_sort (sorter : Sorter) (kva : List KeyValue) :
    Sorted KeyValue.key (sorter.sort kva) :=
  (sorter.sorted kva).imp not_lt.mp

/-! ### Outputs -/

lemma forall₂_of_mapM {A B : Type} {f : A → Option B} {l : List A} {r : List B}
    (h : l.mapM f = some r) : List.Forall₂ (fun a b => f a = some b) l r := by
  induction l generalizing r with
  | nil =>
    obtain rfl := Option.some.inj h
    exact .nil
  | cons a l ih =>
    rw [List.mapM_cons] at h
    obtain ⟨b, hb, h⟩ := Option.bind_eq_some_iff.mp h
    obtain ⟨r', hr', h⟩ := Option.bind_eq_some_iff.mp h
    obtain rfl := Option.some.inj h
    exact .cons hb (ih hr')

section

variable {job : Job} {kvas : List (List KeyValue)}

/-- The records that the sequential program reads. -/
def Read (job : Job) (kvas : List (List KeyValue)) : Prop :=
  List.Forall₂ (fun fileName kva => (job.start fileName).map (job.app.mapf fileName) = some kva)
    job.inputs kvas

/-- What a map task makes is what the sequential program makes of the input. -/
lemma bucket_of_read (hread : Read job kvas) (hprot : ∀ f ∈ job.inputs, Protected job f) {i j : ℕ}
    {kva : List KeyValue} (hb : Bucket job i j kva) :
    kvas[i]?.map (List.filter fun kv => ihash kv.key % job.nReduce = j) = some kva := by
  obtain ⟨all, ⟨fileName, content, hi, hstart, rfl⟩, rfl⟩ := hb
  have hstart := hstart (hprot fileName (List.mem_of_getElem? hi))
  obtain ⟨hlt, rfl⟩ := List.getElem?_eq_some_iff.mp hi
  have hlt' : i < kvas.length := by rwa [← hread.length_eq]
  have hget := hread.get hlt hlt'
  rw [List.get_eq_getElem, hstart, List.get_eq_getElem] at hget
  rw [List.getElem?_eq_getElem hlt', Option.map_some, ← Option.some.inj hget]

lemma gathered_of_read (hread : Read job kvas) (hprot : ∀ f ∈ job.inputs, Protected job f) {j : ℕ}
    {ls : List (List KeyValue)} (hlen : ls.length = job.inputs.length) (hls : Gathered job j ls) :
    ls.flatten = kvas.flatten.filter fun kv => ihash kv.key % job.nReduce = j := by
  rw [List.filter_flatten]
  congr 1
  refine List.ext_getElem? fun i => ?_
  rw [List.getElem?_map]
  cases hi : ls[i]? with
  | none =>
    have hle := List.getElem?_eq_none_iff.mp hi
    rw [List.getElem?_eq_none (by rw [← hread.length_eq]; omega), Option.map_none]
  | some kva => exact (bucket_of_read hread hprot (hls i kva hi)).symm

/-- **The outputs have the lines of the sequential program.** -/
lemma lines_of_results (hn : 0 < job.nReduce)
    (hperm : ∀ key vs vs', vs.Perm vs' → job.app.reducef key vs = job.app.reducef key vs')
    (hread : Read job kvas) (hprot : ∀ f ∈ job.inputs, Protected job f) {outs : ℕ → GoString}
    (houts : ∀ j < job.nReduce, Result job j (outs j)) :
    ((List.range job.nReduce).flatMap fun j => lines (outs j)).Perm
      (lines (job.app.reduceLines (job.app.sorter.sort kvas.flatten)).flatten) := by
  have hpart : ∀ j < job.nReduce, outs j = (job.app.reduceLines (job.app.sorter.sort
      (kvas.flatten.filter fun kv => ihash kv.key % job.nReduce = j))).flatten := by
    intro j hj
    obtain ⟨ls, hlen, hls, hout⟩ := houts j hj
    rw [hout, gathered_of_read hread hprot hlen hls]
  have hlines : (List.range job.nReduce).flatMap (fun j => lines (outs j)) =
      (List.range job.nReduce).flatMap fun j => (runs KeyValue.key KeyValue.value
        (job.app.sorter.sort
          (kvas.flatten.filter fun kv => ihash kv.key % job.nReduce = j))).flatMap fun run =>
            lines (job.app.line (run.1, run.2)) :=
    List.flatMap_congr fun j hj => by
      rw [hpart j (List.mem_range.mp hj), lines_reduceLines]
  rw [hlines, lines_reduceLines]
  have hline : ∀ key vs vs', vs.Perm vs' →
      lines (job.app.line (key, vs)) = lines (job.app.line (key, vs')) := fun key vs vs' h => by
    simp only [App.line, hperm key vs vs' h]
  exact runs_partition (fun key => ihash key % job.nReduce) (fun key => Nat.mod_lt _ hn)
    (fun key vs => lines (job.app.line (key, vs))) hline
    (job.app.sorter.perm _) (Sorter.sorted_sort _ _) (fun j => job.app.sorter.perm _)
    fun j => Sorter.sorted_sort _ _

end

/-- **A MapReduce job gives what the sequential program gives**, if no input has the name of a file
that the job writes: in every run, once `Done` is true, every output is there, and together they
have the lines that the sequential program writes for the same inputs. Inputs are plain names in
the working directory, so that two names are one file only if they are equal. -/
theorem output_sequential [JsonCoder] (job : Job) (hn : 1 ≤ job.nReduce)
    (hperm : ∀ key vs vs', vs.Perm vs' → job.app.reducef key vs = job.app.reducef key vs')
    (hnames : ∀ f ∈ job.inputs, (∀ i < job.inputs.length, ∀ j < job.nReduce,
      f ≠ intermediateName i j) ∧ ∀ j < job.nReduce, f ≠ outName j) (x : System)
    (hr : Reaches (MrSystem.step job.app) (.init job.inputs job.nReduce job.start) x)
    (hdone : x.coordinator.done.1 = true) :
    ∃ outs : ℕ → GoString, (∀ j < job.nReduce, x.files (outName j) = some (outs j)) ∧
      ∀ out, job.app.mrsequential job.inputs job.start = some out →
        ((List.range job.nReduce).flatMap fun j => lines (outs j)).Perm (lines out) := by
  have h := inv_of_reaches hr
  have hreduced : ∀ j < job.nReduce, Reduced job x.files j := by
    intro j hj
    have hfin := h.finished_of_done (h.sched.coord.done.2.2 hdone) j hj
    exact (h.files.reports _ (h.sched.coord.reduceReports j hfin)).2
  have hfile : ∀ j < job.nReduce, Result job j ((x.files (outName j)).getD []) ∧
      x.files (outName j) = some ((x.files (outName j)).getD []) := by
    intro j hj
    obtain ⟨content, hresult, hfile⟩ := hreduced j hj
    rw [hfile]
    exact ⟨hresult, rfl⟩
  refine ⟨fun j => (x.files (outName j)).getD [], fun j hj => (hfile j hj).2, fun out hout => ?_⟩
  unfold App.mrsequential at hout
  split at hout
  · cases hout
  · obtain ⟨kvas, hkvas, rfl⟩ := Option.map_eq_some_iff.mp hout
    have hread : Read job kvas := forall₂_of_mapM hkvas
    refine lines_of_results hn hperm hread (fun f hf => ⟨hf, fun hnone => ?_, (hnames f hf).1,
      (hnames f hf).2⟩) fun j hj => (hfile j hj).1
    -- the sequential program could open every input
    obtain ⟨i, hlt, rfl⟩ := List.mem_iff_getElem.mp hf
    have hget := hread.get hlt (by rwa [← hread.length_eq])
    rw [List.get_eq_getElem, hnone] at hget
    cases hget

lemma letters_perm (key : GoString) (vs vs' : List GoString) (h : vs.Perm vs') :
    letters.reducef key vs = letters.reducef key vs' :=
  congrArg itoa h.length_eq

/-- The worker of the second reduce task dies, and another one does it. -/
def reducedTwice : List Action := List.flatten
  [mappedTwice, advance 0 2 3, [.deliver ⟨.reduce, 0⟩, .crash 1, .fire .reduce (1, 1),
    .deliver ⟨.map, 0⟩], take 3 5, advance 3 2 7, [.deliver ⟨.reduce, 1⟩]]

theorem output_sequential_recovered :
    ∃ x, Reaches (MrSystem.step letterCount.app)
        (.init letterCount.inputs letterCount.nReduce letterCount.start) x ∧
      ∃ (outs : ℕ → GoString) (out : GoString),
        letters.mrsequential letterCount.inputs letterCount.start = some out ∧
        (∀ j < 2, x.files (outName j) = some (outs j)) ∧
        ((List.range 2).flatMap fun j => lines (outs j)).Perm (lines out) := by
  have hrun : (run (MrSystem.step letterCount.app)
      (.init letterCount.inputs letterCount.nReduce letterCount.start) reducedTwice).map (fun x =>
        x.coordinator.done.1) = some true := by decide +kernel
  have hout : (letters.mrsequential letterCount.inputs letterCount.start).isSome = true := by
    decide +kernel
  obtain ⟨x, hx, hdone⟩ := Option.map_eq_some_iff.mp hrun
  obtain ⟨out, hout⟩ := Option.isSome_iff_exists.mp hout
  have hr := reaches_of_run hx
  obtain ⟨outs, hfiles, hlines⟩ := output_sequential letterCount (by decide) letters_perm
    (by decide +kernel) x hr hdone
  exact ⟨x, hr, outs, out, hout, hfiles, hlines out hout⟩

/-- The second input has the name of the first intermediate file. -/
def overwritten : Job where
  app := letters
  inputs := [ascii ['x'], intermediateName 0 0]
  nReduce := 1
  start := fun fileName =>
    if fileName = ascii ['x'] then some (ascii ['a', 'b'])
    else if fileName = intermediateName 0 0 then some (ascii ['a'])
    else none

/-- One worker does all tasks; the second map task reads what the first has written. -/
def alone : List Action := List.flatten
  [take 0 0, advance 0 0 8, [.deliver ⟨.map, 0⟩], take 0 1, advance 0 0 54, [.deliver ⟨.map, 1⟩],
    take 0 2, advance 0 0 21, [.deliver ⟨.reduce, 0⟩]]

theorem output_not_sequential :
    ∃ x content out, Reaches (MrSystem.step overwritten.app)
        (.init overwritten.inputs overwritten.nReduce overwritten.start) x ∧
      x.coordinator.done.1 = true ∧ x.files (outName 0) = some content ∧
      letters.mrsequential overwritten.inputs overwritten.start = some out ∧
      (lines content).length = 16 ∧ lines out = [ascii ['a', ' ', '2'], ascii ['b', ' ', '1']] ∧
      ¬ (lines content).Perm (lines out) := by
  have hrun : (run (MrSystem.step overwritten.app)
      (.init overwritten.inputs overwritten.nReduce overwritten.start) alone).map (fun x =>
        decide (x.coordinator.done.1 = true ∧
          (x.files (outName 0)).map (fun content => (lines content).length) = some 16)) =
      some true := by decide +kernel
  have hseq : (letters.mrsequential overwritten.inputs overwritten.start).map lines =
      some [ascii ['a', ' ', '2'], ascii ['b', ' ', '1']] := by decide +kernel
  obtain ⟨x, hx, hd⟩ := Option.map_eq_some_iff.mp hrun
  obtain ⟨hdone, hfile⟩ := of_decide_eq_true hd
  obtain ⟨content, hfile, hlen⟩ := Option.map_eq_some_iff.mp hfile
  obtain ⟨out, hout, hlines⟩ := Option.map_eq_some_iff.mp hseq
  refine ⟨x, content, out, reaches_of_run hx, hdone, hfile, hout, hlen, hlines, fun hperm => ?_⟩
  have := hperm.length_eq
  rw [hlen, hlines] at this
  cases this

end Mit6824.MrOutput
