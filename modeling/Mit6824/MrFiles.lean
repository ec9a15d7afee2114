import Mit6824.MrScheduler

/-!
The files of a MapReduce job.

A map task that has been reported has left its intermediate files, each with the records of its
part; a reduce task that has been reported has left its output. A file of either kind only ever
gets what belongs there, whoever writes it and however often, so it stays. The inputs are read as
they were at the start unless the job itself writes to them.
-/

namespace Mit6824.MrFiles

open Mit6824.GoData Mit6824.MrCoordinator Mit6824.MrTasks Mit6824.MrWorker Mit6824.MrSystem
open Mit6824.MrScheduler Mit6824.Runs Function

/-- What is run on which files. -/
structure Job where
  app : App
  inputs : List GoString
  nReduce : ℕ
  /-- The files at the start. -/
  start : Files

section

variable (job : Job)

/-- An input that is there, and is no file that the job writes. -/
structure Protected (fileName : GoString) : Prop where
  mem : fileName ∈ job.inputs
  there : job.start fileName ≠ none
  not_intermediate : ∀ i < job.inputs.length, ∀ j < job.nReduce, fileName ≠ intermediateName i j
  not_out : ∀ j < job.nReduce, fileName ≠ outName j

/-- The records of a map task, as made from what its input may be. -/
def Mapped (i : ℕ) (kva : List KeyValue) : Prop :=
  ∃ fileName content, job.inputs[i]? = some fileName ∧
    (Protected job fileName → job.start fileName = some content) ∧
    kva = job.app.mapf fileName content

/-- The records of a map task for a reduce task. -/
def Bucket (i j : ℕ) (kva : List KeyValue) : Prop :=
  ∃ all, Mapped job i all ∧ kva = all.filter fun kv => ihash kv.key % job.nReduce = j

/-- The records of the first map tasks for a reduce task. -/
def Gathered (j : ℕ) (ls : List (List KeyValue)) : Prop :=
  ∀ (i : ℕ) (kva : List KeyValue), ls[i]? = some kva → Bucket job i j kva

/-- What belongs into an output file. -/
def Result (j : ℕ) (content : GoString) : Prop :=
  ∃ ls, ls.length = job.inputs.length ∧ Gathered job j ls ∧
    content = (job.app.reduceLines (job.app.sorter.sort ls.flatten)).flatten

variable [JsonCoder]

def Made (files : Files) (i j : ℕ) : Prop :=
  ∃ kva, Bucket job i j kva ∧ files (intermediateName i j) = some (kva.map JsonCoder.encode).flatten

def Reduced (files : Files) (j : ℕ) : Prop :=
  ∃ content, Result job j content ∧ files (outName j) = some content

/-- The first parts of a map task have been written. -/
structure Spilled (files : Files) (i : ℕ) (omap : List (List KeyValue)) (j : ℕ) : Prop where
  records : ∃ all, Mapped job i all ∧ omap = partition job.nReduce all
  made : ∀ j' < j, j' < job.nReduce → Made job files i j'

def OutputOk (files : Files) : Output → Prop
  | .bucket i omap j => Spilled job files i omap j ∧ j < job.nReduce
  | .result j => j < job.nReduce

/-- What belongs into the file. -/
def Right : Output → GoString → Prop
  | .bucket i _ j, content =>
    ∃ kva, Bucket job i j kva ∧ content = (kva.map JsonCoder.encode).flatten
  | .result j, content => Result job j content

def ReportOk (files : Files) : Report → Prop
  | ⟨.map, i⟩ => i < job.inputs.length ∧ ∀ j < job.nReduce, Made job files i j
  | ⟨.reduce, j⟩ => j < job.nReduce ∧ Reduced job files j

def StageOk (files : Files) (reports : List Report) : Stage → Prop
  | .mapping task =>
    ∃ fileName, job.inputs[task.id]? = some fileName ∧ task.data = ⟨fileName, job.nReduce⟩
  | .spilling i omap j => Spilled job files i omap j
  | .gathering task i intermediate => task.id < job.nReduce ∧ task.data = ⟨job.inputs.length⟩ ∧
      (∀ i < job.inputs.length, ⟨.map, i⟩ ∈ reports) ∧ i ≤ job.inputs.length ∧
      ∃ ls, ls.length = i ∧ Gathered job task.id ls ∧ intermediate = ls.flatten
  | .creating output chunks => OutputOk job files output ∧ Right job output chunks.flatten
  | .writing output tmp chunks => OutputOk job files output ∧
      (∀ fileName, Protected job fileName → fileName ≠ tempName tmp) ∧
      ∃ written, files (tempName tmp) = some written ∧ Right job output (written ++ chunks.flatten)
  | .reporting report => ReportOk job files report
  | .idle | .fetching _ | .exited | .dead => True

/-- Nothing that has been made is lost. -/
structure Kept (files files' : Files) : Prop where
  same : ∀ fileName, Protected job fileName → files' fileName = files fileName
  made : ∀ i < job.inputs.length, ∀ j < job.nReduce, Made job files i j → Made job files' i j
  reduced : ∀ j < job.nReduce, Reduced job files j → Reduced job files' j

end

def temp : Stage → Option ℕ
  | .writing _ tmp _ => some tmp
  | _ => none

variable {job : Job} {files files' : Files} {i j tmp : ℕ} {omap : List (List KeyValue)}
  {reports reports' : List Report}

lemma Mapped.lt {all : List KeyValue} (h : Mapped job i all) :
    i < job.inputs.length := by
  obtain ⟨fileName, content, hi, -⟩ := h
  exact (List.getElem?_eq_some_iff.mp hi).1

lemma output_ne_temp (output : Output) (tmp : ℕ) : tempName tmp ≠ output.fileName := by
  cases output with
  | bucket i omap j => exact tempName_ne_intermediateName tmp i j
  | result j => exact tempName_ne_outName tmp j

section

variable [JsonCoder]

lemma Kept.refl (files : Files) : Kept job files files :=
  ⟨fun _ _ => rfl, fun _ _ _ _ h => h, fun _ _ h => h⟩

lemma Spilled.keep (h : Spilled job files i omap j)
    (hk : Kept job files files') :
    Spilled job files' i omap j := by
  obtain ⟨all, hall, -⟩ := h.records
  exact ⟨h.records, fun j' hj' hlt => hk.made i hall.lt j' hlt (h.made j' hj' hlt)⟩

lemma OutputOk.keep {output : Output} (h : OutputOk job files output)
    (hk : Kept job files files') :
    OutputOk job files' output := by
  cases output with
  | bucket i omap j => exact ⟨h.1.keep hk, h.2⟩
  | result j => exact h

lemma ReportOk.keep {report : Report} (h : ReportOk job files report)
    (hk : Kept job files files') :
    ReportOk job files' report := by
  obtain ⟨_ | _, id⟩ := report
  · exact ⟨h.1, fun j hj => hk.made id h.1 j hj (h.2 j hj)⟩
  · exact ⟨h.1, hk.reduced id h.1 h.2⟩

lemma StageOk.keep {stage : Stage} (h : StageOk job files reports stage)
    (hk : Kept job files files') (hsub : reports ⊆ reports')
    (htemp : ∀ tmp, temp stage = some tmp → files' (tempName tmp) = files (tempName tmp)) :
    StageOk job files' reports' stage := by
  cases stage with
  | spilling i omap j => exact Spilled.keep h hk
  | gathering task i intermediate =>
    obtain ⟨hid, hdata, hall, hrest⟩ := h
    exact ⟨hid, hdata, fun i hi => hsub (hall i hi), hrest⟩
  | creating output chunks => exact ⟨h.1.keep hk, h.2⟩
  | writing output tmp chunks =>
    obtain ⟨hout, hprot, written, hfile, hright⟩ := h
    exact ⟨hout.keep hk, hprot, written, (htemp tmp rfl).trans hfile, hright⟩
  | reporting report => exact ReportOk.keep h hk
  | mapping task => exact h
  | _ => trivial

/-! ### Writing -/

lemma kept_temp (files : Files) (content : Option GoString)
    (hprot : ∀ fileName, Protected job fileName → fileName ≠ tempName tmp) :
    Kept job files (update files (tempName tmp) content) where
  same := fun fileName hf => update_of_ne (hprot fileName hf) _ _
  made := fun i _ j _ hm => by
    obtain ⟨kva, hkva, hfile⟩ := hm
    exact ⟨kva, hkva, by rw [update_of_ne (tempName_ne_intermediateName tmp i j).symm, hfile]⟩
  reduced := fun j _ hr => by
    obtain ⟨content, hc, hfile⟩ := hr
    exact ⟨content, hc, by rw [update_of_ne (tempName_ne_outName tmp j).symm, hfile]⟩

/-- Another file of the job, or the same again. -/
lemma kept_output {output : Output} (hok : OutputOk job files output)
    {content : GoString} (hright : Right job output content) :
    Kept job files (update files output.fileName (some content)) where
  same := fun fileName hf => by
    refine update_of_ne ?_ _ _
    cases output with
    | bucket i omap j =>
      obtain ⟨all, hall, -⟩ := hok.1.records
      exact hf.not_intermediate i hall.lt j hok.2
    | result j => exact hf.not_out j hok
  made := fun i _ j _ hm => by
    obtain ⟨kva, hkva, hfile⟩ := hm
    by_cases hname : intermediateName i j = output.fileName
    · cases output with
      | bucket i' omap j' =>
        obtain ⟨rfl, rfl⟩ := intermediateName_inj hname
        obtain ⟨kva', hkva', rfl⟩ := hright
        exact ⟨kva', hkva', update_self _ _ _⟩
      | result j' => exact absurd hname (intermediateName_ne_outName i j j')
    · exact ⟨kva, hkva, by rw [update_of_ne hname, hfile]⟩
  reduced := fun j _ hr => by
    obtain ⟨content', hc, hfile⟩ := hr
    by_cases hname : outName j = output.fileName
    · cases output with
      | bucket i' omap j' => exact absurd hname.symm (intermediateName_ne_outName i' j' j)
      | result j' =>
        obtain rfl := outName_inj hname
        exact ⟨content, hright, update_self _ _ _⟩
    · exact ⟨content', hc, by rw [update_of_ne hname, hfile]⟩

lemma Kept.trans {files'' : Files} (h : Kept job files files')
    (h' : Kept job files' files'') :
    Kept job files files'' :=
  ⟨fun fileName hf => (h'.same fileName hf).trans (h.same fileName hf),
    fun i hi j hj hm => h'.made i hi j hj (h.made i hi j hj hm),
    fun j hj hr => h'.reduced j hj (h.reduced j hj hr)⟩

lemma stageOk_next {output : Output} (hok : OutputOk job files output)
    {content : GoString} (hright : Right job output content) :
    StageOk job (update files output.fileName (some content)) reports
      output.next := by
  have hk := kept_output hok hright
  cases output with
  | bucket i omap j =>
    refine ⟨hok.1.records, fun j' hj' hlt => ?_⟩
    rcases Nat.lt_succ_iff_lt_or_eq.mp hj' with hj' | rfl
    · exact (hok.1.keep hk).made j' hj' hlt
    · obtain ⟨kva, hkva, rfl⟩ := hright
      exact ⟨kva, hkva, update_self _ _ _⟩
  | result j => exact ⟨hok, content, hright, update_self _ _ _⟩

/-! ### A step of a worker -/

/-- What a step of a worker does. -/
structure Did (job : Job) (files : Files) (reports : List Report) (stage : Stage)
    (done : Worked) : Prop where
  kept : Kept job files done.files
  next : StageOk job done.files (reports ++ done.reports) done.stage
  told : ∀ report ∈ done.reports, ReportOk job done.files report
  /-- The temporary files of other workers are left alone. -/
  others : ∀ tmp, files (tempName tmp) ≠ none → temp stage ≠ some tmp →
    done.files (tempName tmp) = files (tempName tmp) ∧ temp done.stage ≠ some tmp

lemma did_quiet {stage stage' : Stage} (h : StageOk job files reports stage')
    (htemp : temp stage' = none) : Did job files reports stage ⟨files, stage', []⟩ where
  kept := .refl files
  next := by rwa [List.append_nil]
  told := fun _ hr => absurd hr List.not_mem_nil
  others := fun tmp _ _ => ⟨rfl, by rw [htemp]; nofun⟩

variable {done : Worked}

lemma did_mapping {task : MapTask} (h : StageOk job files reports (.mapping task))
    (hsame : ∀ fileName, Protected job fileName → files fileName = job.start fileName)
    (hw : job.app.work files tmp (.mapping task) = some done) :
    Did job files reports (.mapping task) done := by
  obtain ⟨fileName, hi, hdata⟩ := h
  simp only [App.work] at hw
  split at hw
  · obtain rfl := Option.some.inj hw
    exact did_quiet trivial rfl
  · next content hfile =>
    split at hw
    · obtain rfl := Option.some.inj hw
      exact did_quiet trivial rfl
    · obtain rfl := Option.some.inj hw
      rw [hdata] at hfile ⊢
      refine did_quiet ⟨⟨_, ⟨fileName, content, hi, fun hp => ?_, rfl⟩, rfl⟩,
        fun j hj => absurd hj (Nat.not_lt_zero j)⟩ rfl
      rw [← hsame fileName hp, hfile]

lemma did_spilling (h : Spilled job files i omap j)
    (hw : job.app.work files tmp (.spilling i omap j) = some done) :
    Did job files reports (.spilling i omap j) done := by
  obtain ⟨all, hall, rfl⟩ := h.records
  simp only [App.work] at hw
  split at hw
  · next ikva hj =>
    obtain rfl := Option.some.inj hw
    have hlt : j < job.nReduce := by
      simpa using (List.getElem?_eq_some_iff.mp hj).1
    rw [getElem?_partition hlt] at hj
    exact did_quiet ⟨⟨h, hlt⟩, ikva, ⟨all, hall, (Option.some.inj hj).symm⟩, rfl⟩ rfl
  · next hj =>
    obtain rfl := Option.some.inj hw
    have hle : job.nReduce ≤ j := by simpa using List.getElem?_eq_none_iff.mp hj
    exact did_quiet ⟨hall.lt, fun j' hj' => h.made j' (hj'.trans_le hle) hj'⟩ rfl

lemma did_gathering {task : ReduceTask} {intermediate : List KeyValue}
    (h : StageOk job files reports (.gathering task i intermediate))
    (hreports : ∀ report ∈ reports, ReportOk job files report)
    (hw : job.app.work files tmp (.gathering task i intermediate) = some done) :
    Did job files reports (.gathering task i intermediate) done := by
  obtain ⟨hid, hdata, hall, hle, ls, hlen, hls, rfl⟩ := h
  simp only [App.work] at hw
  split at hw
  · next hlt =>
    rw [hdata] at hlt
    split at hw
    · obtain rfl := Option.some.inj hw
      exact did_quiet trivial rfl
    · next content hfile =>
      obtain rfl := Option.some.inj hw
      obtain ⟨kva, hkva, hmade⟩ := (hreports _ (hall i hlt)).2 task.id hid
      rw [hfile] at hmade
      obtain rfl := Option.some.inj hmade
      refine did_quiet ⟨hid, hdata, hall, hlt, ls ++ [kva], by simp [hlen], fun i' kva' hi' => ?_,
        by rw [decodeFile_encode]; simp⟩ rfl
      rcases getElem?_append_singleton.mp hi' with hi' | ⟨rfl, rfl⟩
      · exact hls i' kva' hi'
      · rwa [hlen]
  · next hge =>
    obtain rfl := Option.some.inj hw
    rw [hdata] at hge
    exact did_quiet ⟨hid, ls, hlen.trans (le_antisymm hle (Nat.le_of_not_lt hge)), hls, rfl⟩ rfl

/-- `CreateTemp` takes a name that no file has, so neither an input nor another worker's. -/
lemma did_creating {output : Output} {chunks : List GoString}
    (h : StageOk job files reports (.creating output chunks))
    (hsame : ∀ fileName, Protected job fileName → files fileName = job.start fileName)
    (hw : job.app.work files tmp (.creating output chunks) = some done) :
    Did job files reports (.creating output chunks) done := by
  simp only [App.work] at hw
  split at hw
  · next hnone =>
    obtain rfl := Option.some.inj hw
    have hprot : ∀ fileName, Protected job fileName → fileName ≠ tempName tmp := by
      rintro fileName hp rfl
      exact hp.there ((hsame _ hp).symm.trans hnone)
    have hk := kept_temp files (some []) hprot
    refine ⟨hk, ⟨h.1.keep hk, hprot, [], update_self _ _ _, h.2⟩,
      fun _ hr => absurd hr List.not_mem_nil, fun tmp' hin _ => ⟨?_, ?_⟩⟩
    · exact update_of_ne (fun heq => hin (by rw [heq, hnone])) _ _
    · rintro heq
      obtain rfl := Option.some.inj heq
      exact hin hnone
  · cases hw

lemma did_writing {output : Output} {tmp' : ℕ} {chunks : List GoString}
    (h : StageOk job files reports (.writing output tmp' chunks))
    (hw : job.app.work files tmp (.writing output tmp' chunks) = some done) :
    Did job files reports (.writing output tmp' chunks) done := by
  obtain ⟨hout, hprot, written, hfile, hright⟩ := h
  have hother : ∀ {t}, temp (.writing output tmp' chunks) ≠ some t → tempName t ≠ tempName tmp' :=
    fun hne heq => hne (congrArg some (tempName_inj heq).symm)
  cases chunks with
  | cons chunk chunks =>
    simp only [App.work, hfile] at hw
    obtain rfl := Option.some.inj hw
    have hk := kept_temp files (some (written ++ chunk)) hprot
    refine ⟨hk, ⟨hout.keep hk, hprot, written ++ chunk, update_self _ _ _, ?_⟩,
      fun _ hr => absurd hr List.not_mem_nil, fun t _ hne => ⟨update_of_ne (hother hne) _ _, hne⟩⟩
    rwa [List.append_assoc]
  | nil =>
    simp only [App.work, hfile] at hw
    obtain rfl := Option.some.inj hw
    rw [List.flatten_nil, List.append_nil] at hright
    have hk := kept_temp files none hprot
    have hk' := kept_output (hout.keep hk) hright
    refine ⟨hk.trans hk', stageOk_next (hout.keep hk) hright,
      fun _ hr => absurd hr List.not_mem_nil, fun t _ hne => ⟨?_, ?_⟩⟩
    · exact (update_of_ne (output_ne_temp output t) _ _).trans (update_of_ne (hother hne) _ _)
    · cases output <;> nofun

/-- **A worker leaves files that are right.** -/
lemma StageOk.work {stage : Stage} (h : StageOk job files reports stage)
    (hsame : ∀ fileName, Protected job fileName → files fileName = job.start fileName)
    (hreports : ∀ report ∈ reports, ReportOk job files report)
    (hw : job.app.work files tmp stage = some done) : Did job files reports stage done := by
  cases stage with
  | mapping task => exact did_mapping h hsame hw
  | spilling i omap j => exact did_spilling h hw
  | gathering task i intermediate => exact did_gathering h hreports hw
  | creating output chunks => exact did_creating h hsame hw
  | writing output tmp' chunks => exact did_writing h hw
  | reporting report =>
    obtain rfl := Option.some.inj hw
    refine ⟨.refl files, trivial, fun r hr => ?_, fun tmp _ _ => ⟨rfl, nofun⟩⟩
    rw [List.mem_singleton.mp hr]
    exact h
  | idle => cases hw
  | fetching k => cases hw
  | exited => cases hw
  | dead => cases hw

/-! ### Runs -/

variable {x x' : System}

structure FilesOk (job : Job) (x : System) : Prop where
  same : ∀ fileName, Protected job fileName → x.files fileName = job.start fileName
  reports : ∀ report ∈ x.reports, ReportOk job x.files report
  stages : ∀ w, StageOk job x.files x.reports (x.workers w)
  /-- No two workers have a temporary file in common. -/
  temps : ∀ w w' tmp, temp (x.workers w) = some tmp → temp (x.workers w') = some tmp → w = w'

structure Inv (job : Job) (x : System) : Prop where
  sched : Sched job.inputs job.nReduce x
  files : FilesOk job x

lemma inv_init (job : Job) : Inv job (.init job.inputs job.nReduce job.start) where
  sched := sched_init job.start
  files := {
    same := fun _ _ => rfl
    reports := fun _ hr => absurd hr List.not_mem_nil
    stages := fun _ => trivial
    temps := fun _ _ _ hw => by cases hw }

lemma StageOk.temp_there {stage : Stage} (h : StageOk job files reports stage)
    (ht : temp stage = some tmp) : files (tempName tmp) ≠ none := by
  cases stage with
  | writing output tmp' chunks =>
    obtain rfl := Option.some.inj ht
    obtain ⟨-, -, written, hfile, -⟩ := h
    rw [hfile]
    nofun
  | _ => cases ht

lemma FilesOk.frame (h : FilesOk job x) (hf : x'.files = x.files) (hr : x'.reports = x.reports)
    (hw : x'.workers = x.workers) : FilesOk job x' := by
  obtain ⟨hsame, hreports, hstages, htemps⟩ := h
  rw [← hf] at hsame hreports hstages
  rw [← hr] at hreports hstages
  rw [← hw] at hstages htemps
  exact ⟨hsame, hreports, hstages, htemps⟩

lemma FilesOk.setStage (h : FilesOk job x) {w : ℕ} {stage : Stage}
    (hok : StageOk job x.files x.reports stage) (htemp : temp stage = none) :
    FilesOk job (x.setStage w stage) where
  same := h.same
  reports := h.reports
  stages := fun w' => by
    show StageOk job x.files x.reports (update x.workers w stage w')
    rw [update_apply]
    split
    · exact hok
    · exact h.stages w'
  temps := fun w₁ w₂ tmp h₁ h₂ => by
    have hne : ∀ {w'}, temp (update x.workers w stage w') = some tmp →
        temp (x.workers w') = some tmp := by
      intro w' hw'
      rw [update_apply] at hw'
      split at hw'
      · rw [htemp] at hw'
        cases hw'
      · exact hw'
    exact h.temps w₁ w₂ tmp (hne h₁) (hne h₂)

lemma FilesOk.work (h : FilesOk job x) {w : ℕ} {done : Worked}
    (hd : Did job x.files x.reports (x.workers w) done) :
    FilesOk job { x.setStage w done.stage with
      files := done.files, reports := x.reports ++ done.reports } where
  same := fun fileName hp => (hd.kept.same fileName hp).trans (h.same fileName hp)
  reports := fun report hr => by
    rcases List.mem_append.mp hr with hr | hr
    · exact (h.reports report hr).keep hd.kept
    · exact hd.told report hr
  stages := fun w' => by
    show StageOk job done.files _ (update x.workers w done.stage w')
    rw [update_apply]
    split
    · exact hd.next
    · next hne =>
      refine (h.stages w').keep hd.kept (List.subset_append_left _ _) fun tmp ht => ?_
      exact (hd.others tmp ((h.stages w').temp_there ht)
        fun ht' => hne (h.temps w' w tmp ht ht')).1
  temps := fun w₁ w₂ tmp h₁ h₂ => by
    have hfresh : ∀ w', w' ≠ w → temp (x.workers w') = some tmp → temp done.stage ≠ some tmp :=
      fun w' hne ht => (hd.others tmp ((h.stages w').temp_there ht)
        fun ht' => hne (h.temps w' w tmp ht ht')).2
    change temp (update x.workers w done.stage w₁) = some tmp at h₁
    change temp (update x.workers w done.stage w₂) = some tmp at h₂
    rw [update_apply] at h₁ h₂
    split at h₁ <;> split at h₂
    · next h₁' h₂' => rw [h₁', h₂']
    · next h₂' => exact absurd h₁ (hfresh w₂ h₂' h₂)
    · next h₁' _ => exact absurd h₂ (hfresh w₁ h₁' h₁)
    · exact h.temps w₁ w₂ tmp h₁ h₂

/-- What a worker gets of the coordinator. -/
lemma stageOk_receive {reply : FetchTaskReply} (hs : Sched job.inputs job.nReduce x)
    (hcall : CallOk job.inputs job.nReduce x.coordinator (.replied reply)) :
    StageOk job x.files x.reports (receive reply) := by
  cases reply with
  | done => trivial
  | mapTask task => exact hcall
  | reduceTask task =>
    obtain ⟨hid, hdata, hall⟩ := hcall
    refine ⟨hid, hdata, fun i hi => ?_, Nat.zero_le _, [], rfl, fun i kva hi => (by cases hi), rfl⟩
    exact hs.coord.mapReports i (allFinished_iff.mp hall i (hs.coord.length_maps ▸ hi))

/-- **Every step keeps the schedule and the files in order.** -/
lemma Inv.step {act : Action} (h : Inv job x) (hs : MrSystem.step job.app x act = some x') :
    Inv job x' := by
  refine ⟨(h.sched.step hs).1, ?_⟩
  cases steps_of_step hs with
  | @fetch w _ =>
    have hok : StageOk job x.files x.reports (.fetching x.calls.length) := trivial
    exact (h.files.setStage (w := w) hok rfl).frame rfl rfl rfl
  | @receive _ _ reply hcall =>
    refine h.files.setStage (stageOk_receive h.sched
      (h.sched.calls _ (List.mem_of_getElem? hcall))) ?_
    cases reply <;> rfl
  | giveUp _ | crash _ => exact h.files.setStage trivial rfl
  | work hwork => exact h.files.work ((h.files.stages _).work h.files.same h.files.reports hwork)
  | serve _ | mapFinished _ _ | reduceFinished _ _ | fireMap _ | fireReduce _ | poll _ =>
    exact h.files.frame rfl rfl rfl

theorem inv_of_reaches
    (hr : Reaches (MrSystem.step job.app) (.init job.inputs job.nReduce job.start) x) : Inv job x :=
  ReachesIf.inv hr (inv_init job) fun _ _ _ h _ hs => h.step hs

/-! ### The schedule -/

lemma Inv.finished_of_all (h : Inv job x) (hall : AllFinished x.coordinator.maps) :
    ∀ i < job.inputs.length, state x.coordinator.maps i = some .finished := fun i hi =>
  allFinished_iff.mp hall i (h.sched.coord.length_maps ▸ hi)

lemma Inv.finished_of_done (h : Inv job x) (hall : AllFinished x.coordinator.reduces) :
    ∀ j < job.nReduce, state x.coordinator.reduces j = some .finished := fun j hj =>
  allFinished_iff.mp hall j (h.sched.coord.length_reduces ▸ hj)

/-- No report has an index out of range. -/
lemma Inv.deliver (h : Inv job x) {report : Report} (hin : report ∈ x.reports) :
    ∃ x', MrSystem.step job.app x (.deliver report) = some x' := by
  have hok := h.files.reports report hin
  obtain ⟨kind, id⟩ := report
  cases kind with
  | map =>
    have hlt : id < x.coordinator.maps.tasks.length := h.sched.coord.length_maps ▸ hok.1
    simp [MrSystem.step, hin, Coordinator.mapTaskFinished, hlt]
  | reduce =>
    have hlt : id < x.coordinator.reduces.tasks.length := h.sched.coord.length_reduces ▸ hok.1
    simp [MrSystem.step, hin, Coordinator.reduceTaskFinished, hlt]

/-- **The schedule is safe.** In every run: what is finished stays finished; a reduce task has been
handed out only when every map task has been reported as finished, so that no worker misses an
intermediate file; `Done` is answered only when every reduce task is finished; tasks are handed out
in turn with their timers; and every report can be served. -/
theorem scheduler_safe (job : Job) (x : System)
    (hr : Reaches (MrSystem.step job.app) (.init job.inputs job.nReduce job.start) x) :
    (∀ act x', MrSystem.step job.app x act = some x' → ∀ id,
      (state x.coordinator.maps id = some .finished →
        state x'.coordinator.maps id = some .finished) ∧
      (state x.coordinator.reduces id = some .finished →
        state x'.coordinator.reduces id = some .finished)) ∧
    (∀ id, .handed id ∈ x.coordinator.reduces.history → ∀ i < job.inputs.length,
      .finished i ∈ x.coordinator.maps.history) ∧
    (∀ w task i intermediate, x.workers w = .gathering task i intermediate →
      i < task.data.nMap → x.files (intermediateName i task.id) ≠ none) ∧
    (.replied .done ∈ x.calls ∨ x.main = .returned ∨ x.coordinator.done.1 = true →
      ∀ j < job.nReduce, state x.coordinator.reduces j = some .finished) ∧
    HandedInTurn x.coordinator.maps ∧ HandedInTurn x.coordinator.reduces ∧
    ∀ report ∈ x.reports, ∃ x', MrSystem.step job.app x (.deliver report) = some x' := by
  have h := inv_of_reaches hr
  refine ⟨fun act x' hs id => ?_, fun id hid i hi => ?_, fun w task i intermediate hw hlt => ?_,
    fun hdone => ?_, h.sched.coord.maps.handedInTurn, h.sched.coord.reduces.handedInTurn,
    fun report hin => h.deliver hin⟩
  · have ha := (h.sched.step hs).2
    exact ⟨ha.maps.finished id, ha.reduces.finished id⟩
  · exact h.sched.coord.maps.reported i (h.finished_of_all (h.sched.coord.order id hid) i hi)
  · have hstage := h.files.stages w
    rw [hw] at hstage
    obtain ⟨hid, hdata, hall, -⟩ := hstage
    rw [hdata] at hlt
    obtain ⟨kva, -, hfile⟩ := (h.files.reports _ (hall i hlt)).2 task.id hid
    rw [hfile]
    nofun
  · refine h.finished_of_done ?_
    rcases hdone with hcall | hmain | hdone
    · exact h.sched.calls _ hcall
    · have := h.sched.main
      rwa [hmain] at this
    · exact h.sched.coord.done.2.2 hdone

end

/-- The letters of two files, in two parts. -/
def letterCount : Job where
  app := letters
  inputs := [ascii ['x'], ascii ['y']]
  nReduce := 2
  start := fun fileName =>
    if fileName = ascii ['x'] then some (ascii ['a', 'b'])
    else if fileName = ascii ['y'] then some (ascii ['a'])
    else none

/-- The first map task is recovered while it is run, and run once more; its second worker is done
when the first reduce task is being run. -/
def mappedTwice : List Action := List.flatten
  [take 0 0, take 1 1, [.fire .map (0, 0)], take 2 2, advance 2 1 4, advance 0 0 11,
    [.deliver ⟨.map, 0⟩], advance 1 0 10, [.deliver ⟨.map, 1⟩], take 0 3, take 1 4, advance 0 0 4,
    advance 2 1 7]

theorem scheduler_safe_recovered :
    ∃ x, Reaches (MrSystem.step letterCount.app)
        (.init letterCount.inputs letterCount.nReduce letterCount.start) x ∧
      x.coordinator.maps.history[0]? = some (.handed 0) ∧
      x.coordinator.maps.history[3]? = some (.handed 0) ∧ HandedInTurn x.coordinator.maps ∧
      .handed 0 ∈ x.coordinator.reduces.history ∧
      ∀ i < letterCount.inputs.length, .finished i ∈ x.coordinator.maps.history := by
  have hrun : (run (MrSystem.step letterCount.app)
      (.init letterCount.inputs letterCount.nReduce letterCount.start) mappedTwice).map (fun x =>
        decide (x.coordinator.maps.history[0]? = some (.handed 0) ∧
          x.coordinator.maps.history[3]? = some (.handed 0) ∧
          .handed 0 ∈ x.coordinator.reduces.history)) = some true := by decide +kernel
  obtain ⟨x, hx, hd⟩ := Option.map_eq_some_iff.mp hrun
  obtain ⟨hfirst, hsecond, hreduce⟩ := of_decide_eq_true hd
  have hr := reaches_of_run hx
  obtain ⟨-, hreported, -, -, hturn, -⟩ := scheduler_safe letterCount x hr
  exact ⟨x, hr, hfirst, hsecond, hturn, hreduce, hreported 0 hreduce⟩

end Mit6824.MrFiles
