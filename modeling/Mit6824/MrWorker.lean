import Mit6824.Grouping
import Mit6824.MrCoordinator
import Mathlib.Data.List.Lex
import Mathlib.Data.List.Sort
import Mathlib.Logic.Function.Basic

/-!
The workers of MapReduce (`mr/worker.go`), and the sequential program (`main/mrsequential.go`).

All files are in one directory, under their names. A worker writes to a temporary file and renames
it; what it reads of a file it reads at once, as no file changes under its name but by a rename.
-/

namespace Mit6824.MrWorker

open Mit6824.GoData Mit6824.Grouping Mit6824.MrCoordinator Function

/-! ### Strings -/

instance linearOrderUInt8 : LinearOrder UInt8 where
  le_refl := UInt8.le_refl
  le_trans := fun _ _ _ => UInt8.le_trans
  lt_iff_le_not_ge := fun a b => by
    rw [UInt8.not_le]
    exact ⟨fun h => ⟨UInt8.le_of_lt h, h⟩, And.right⟩
  le_antisymm := fun _ _ => UInt8.le_antisymm
  le_total := UInt8.le_total
  toDecidableLE := inferInstance
  toDecidableEq := inferInstance
  toDecidableLT := inferInstance

def ascii (s : List Char) : GoString := s.map fun c => c.toNat.toUInt8

/-- A number as `%d` prints it. -/
def itoa (n : ℕ) : GoString := ascii (Nat.toDigits 10 n)

/-- `mr-%d-%d.m` -/
def intermediateName (mapId reduceId : ℕ) : GoString :=
  ascii ['m', 'r', '-'] ++ itoa mapId ++ ascii ['-'] ++ itoa reduceId ++ ascii ['.', 'm']

/-- `mr-out-%d.r` -/
def outName (reduceId : ℕ) : GoString :=
  ascii ['m', 'r', '-', 'o', 'u', 't', '-'] ++ itoa reduceId ++ ascii ['.', 'r']

/-- `mr-*.tmp`, with a number that `os.CreateTemp` chooses. -/
def tempName (n : ℕ) : GoString :=
  ascii ['m', 'r', '-'] ++ itoa n ++ ascii ['.', 't', 'm', 'p']

lemma digit_bounds {n : ℕ} {c : Char} (h : c ∈ Nat.toDigits 10 n) : 48 ≤ c.toNat ∧ c.toNat ≤ 57 :=
  Char.isDigit_iff_toNat.mp (Nat.isDigit_of_mem_toDigits (by decide) le_rfl h)

lemma toNat_ascii {c : Char} (h : c.toNat ≤ 57) : c.toNat.toUInt8.toNat = c.toNat := by
  rw [Nat.toUInt8, UInt8.toNat_ofNat']
  omega

lemma eq_of_itoa {n n' : ℕ} (h : itoa n = itoa n') : n = n' := by
  have hback : ∀ n, (itoa n).map (fun b => Char.ofNat b.toNat) = Nat.toDigits 10 n := by
    intro n
    unfold itoa ascii
    rw [List.map_map]
    refine (List.map_congr_left fun c hc => ?_).trans (List.map_id _)
    show Char.ofNat c.toNat.toUInt8.toNat = c
    rw [toNat_ascii (digit_bounds hc).2, Char.ofNat_toNat]
  rw [← Nat.ofDigitChars_toDigits (b := 10) (n := n) (by decide) le_rfl,
    ← Nat.ofDigitChars_toDigits (b := 10) (n := n') (by decide) le_rfl, ← hback, ← hback, h]

lemma dash_notMem_itoa (n : ℕ) : 45 ∉ itoa n := by
  intro h
  obtain ⟨c, hc, hdash⟩ := List.mem_map.mp h
  have hbounds := digit_bounds hc
  have := congrArg UInt8.toNat hdash
  rw [toNat_ascii hbounds.2] at this
  have : c.toNat = 45 := this
  omega

lemma tempName_inj {n n' : ℕ} (h : tempName n = tempName n') : n = n' := by
  unfold tempName at h
  exact eq_of_itoa (List.append_cancel_left (List.append_cancel_right h))

lemma outName_inj {j j' : ℕ} (h : outName j = outName j') : j = j' := by
  unfold outName at h
  exact eq_of_itoa (List.append_cancel_left (List.append_cancel_right h))

lemma intermediateName_inj {i i' j j' : ℕ} (h : intermediateName i j = intermediateName i' j') :
    i = i' ∧ j = j' := by
  unfold intermediateName at h
  have h := List.append_cancel_right h
  simp only [List.append_assoc, List.append_cancel_left_eq] at h
  obtain ⟨hi, -, hj⟩ := (List.append_cons_inj_of_notMem (dash_notMem_itoa i)
    (dash_notMem_itoa j)).mp h
  exact ⟨eq_of_itoa hi, eq_of_itoa hj⟩

lemma getLast?_tempName (n : ℕ) : (tempName n).getLast? = some 112 := by
  rw [tempName, List.getLast?_append]
  rfl

lemma getLast?_intermediateName (i j : ℕ) : (intermediateName i j).getLast? = some 109 := by
  rw [intermediateName, List.getLast?_append]
  rfl

lemma getLast?_outName (j : ℕ) : (outName j).getLast? = some 114 := by
  rw [outName, List.getLast?_append]
  rfl

lemma tempName_ne_intermediateName (n i j : ℕ) : tempName n ≠ intermediateName i j := fun h => by
  have := congrArg List.getLast? h
  rw [getLast?_tempName, getLast?_intermediateName] at this
  exact absurd this (by decide)

lemma tempName_ne_outName (n j : ℕ) : tempName n ≠ outName j := fun h => by
  have := congrArg List.getLast? h
  rw [getLast?_tempName, getLast?_outName] at this
  exact absurd this (by decide)

lemma intermediateName_ne_outName (i j j' : ℕ) : intermediateName i j ≠ outName j' := fun h => by
  have := congrArg List.getLast? h
  rw [getLast?_intermediateName, getLast?_outName] at this
  exact absurd this (by decide)

/-! ### Data -/

structure KeyValue where
  key : GoString
  value : GoString
  deriving DecidableEq

/-- `fnv.New32a` -/
def fnv32a (s : GoString) : UInt32 :=
  s.foldl (fun h b => (h ^^^ b.toUInt32) * 16777619) 2166136261

def ihash (key : GoString) : ℕ := (fnv32a key &&& 0x7fffffff).toNat

/-- `encoding/json` for records: what is used is that decoding undoes encoding, one record after the
other, and that there is no record in an empty rest. -/
class JsonCoder where
  encode : KeyValue → GoString
  decode : GoString → Option (KeyValue × GoString)
  decode_encode : ∀ kv rest, decode (encode kv ++ rest) = some (kv, rest)
  decode_nil : decode [] = none

/-- `sort.Sort(ByKey(..))`: the order among equal keys is left open. -/
structure Sorter where
  sort : List KeyValue → List KeyValue
  perm : ∀ l, (sort l).Perm l
  sorted : ∀ l, (sort l).Pairwise fun a b => ¬ b.key < a.key

/-- The functions of the plugin, and the sorting of the library. -/
structure App where
  mapf : GoString → GoString → List KeyValue
  reducef : GoString → List GoString → GoString
  sorter : Sorter

/-- The files of the working directory, by their plain names. -/
abbrev Files := GoString → Option GoString

/-- The records by the reduce tasks that they are for. -/
def partition (nReduce : ℕ) (kva : List KeyValue) : List (List KeyValue) :=
  kva.foldl (fun omap kv => omap.modify (ihash kv.key % nReduce) (· ++ [kv]))
    (List.replicate nReduce [])

@[simp] lemma length_partition (nReduce : ℕ) (kva : List KeyValue) :
    (partition nReduce kva).length = nReduce := by
  induction kva using List.reverseRecOn with
  | nil => simp [partition]
  | append_singleton kva kv ih => simpa [partition] using ih

/-- A part has the records with its remainder, in their order. -/
lemma getElem?_partition {nReduce j : ℕ} (hj : j < nReduce) (kva : List KeyValue) :
    (partition nReduce kva)[j]? = some (kva.filter fun kv => ihash kv.key % nReduce = j) := by
  induction kva using List.reverseRecOn with
  | nil => simp [partition, hj]
  | append_singleton kva kv ih =>
    have hstep : partition nReduce (kva ++ [kv]) =
        (partition nReduce kva).modify (ihash kv.key % nReduce) (· ++ [kv]) := by
      simp [partition]
    rw [hstep, List.getElem?_modify, ih, List.filter_append]
    by_cases h : ihash kv.key % nReduce = j <;> simp [h]

/-- The line of a run of records with one key: `%v %v\n`. -/
def App.line (app : App) (run : GoString × List GoString) : GoString :=
  run.1 ++ ascii [' '] ++ app.reducef run.1 run.2 ++ ascii ['\n']

def App.reduceLines (app : App) (intermediate : List KeyValue) : List GoString :=
  (runs KeyValue.key KeyValue.value intermediate).map app.line

section

variable [JsonCoder]

/-- The loop over a decoder; every record takes at least a byte. -/
def decodeLoop : ℕ → GoString → List KeyValue
  | 0, _ => []
  | n + 1, content =>
    match JsonCoder.decode content with
    | some (kv, rest) => kv :: decodeLoop n rest
    | none => []

def decodeFile (content : GoString) : List KeyValue := decodeLoop content.length content

lemma encode_ne_nil (kv : KeyValue) : JsonCoder.encode kv ≠ [] := fun h => by
  have := JsonCoder.decode_encode kv []
  rw [h, List.append_nil, JsonCoder.decode_nil] at this
  cases this

lemma length_le_encode (kva : List KeyValue) :
    kva.length ≤ (kva.map JsonCoder.encode).flatten.length := by
  induction kva with
  | nil => simp
  | cons kv kva ih =>
    have := List.length_pos_of_ne_nil (encode_ne_nil kv)
    simp only [List.length_cons, List.map_cons, List.flatten_cons, List.length_append]
    omega

lemma decodeLoop_encode {n : ℕ} (kva : List KeyValue) (hn : kva.length ≤ n) :
    decodeLoop n (kva.map JsonCoder.encode).flatten = kva := by
  induction kva generalizing n with
  | nil => cases n <;> simp [decodeLoop, JsonCoder.decode_nil]
  | cons kv kva ih =>
    obtain ⟨n, rfl⟩ : ∃ m, n = m + 1 := ⟨n - 1, by rw [List.length_cons] at hn; omega⟩
    rw [List.map_cons, List.flatten_cons, decodeLoop, JsonCoder.decode_encode]
    dsimp only
    rw [ih (Nat.le_of_succ_le_succ hn)]

lemma decodeFile_encode (kva : List KeyValue) :
    decodeFile (kva.map JsonCoder.encode).flatten = kva :=
  decodeLoop_encode kva (length_le_encode kva)

/-! ### Workers -/

/-- What a temporary file is for. -/
inductive Output
  /-- The part of a map task for a reduce task. -/
  | bucket (mapId : ℕ) (omap : List (List KeyValue)) (reduceId : ℕ)
  | result (reduceId : ℕ)

def Output.fileName : Output → GoString
  | .bucket mapId _ reduceId => intermediateName mapId reduceId
  | .result reduceId => outName reduceId

/-- A task that a worker reports as finished. -/
structure Report where
  kind : Kind
  taskId : ℕ
  deriving DecidableEq

inductive Stage
  | idle
  /-- It waits for the reply of a `FetchTask`. -/
  | fetching (call : ℕ)
  /-- `doMapTask` begins. -/
  | mapping (task : MapTask)
  /-- The next part to write. -/
  | spilling (mapId : ℕ) (omap : List (List KeyValue)) (reduceId : ℕ)
  /-- `doReduceTask` has read the first intermediate files. -/
  | gathering (task : ReduceTask) (i : ℕ) (intermediate : List KeyValue)
  | creating (output : Output) (chunks : List GoString)
  | writing (output : Output) (tmp : ℕ) (chunks : List GoString)
  | reporting (report : Report)
  /-- `Worker` has returned. -/
  | exited
  /-- The process has died. -/
  | dead

def Output.next : Output → Stage
  | .bucket mapId omap reduceId => .spilling mapId omap (reduceId + 1)
  | .result reduceId => .reporting ⟨.reduce, reduceId⟩

/-- What a step of a worker leaves: the files, where the worker is, and what it has reported. -/
structure Worked where
  files : Files
  stage : Stage
  reports : List Report

/-- A step of `doMapTask` or `doReduceTask`. `tmp` is the number for a temporary file. -/
def App.work (app : App) (files : Files) (tmp : ℕ) : Stage → Option Worked
  | .mapping task =>
    match files task.data.fileName with
    | none => some ⟨files, .dead, []⟩
    | some content =>
      let kva := app.mapf task.data.fileName content
      -- a remainder by zero panics
      if task.data.nReduce = 0 ∧ kva ≠ [] then some ⟨files, .dead, []⟩
      else some ⟨files, .spilling task.id (partition task.data.nReduce kva) 0, []⟩
  | .spilling mapId omap reduceId =>
    match omap[reduceId]? with
    | some ikva =>
      some ⟨files, .creating (.bucket mapId omap reduceId) (ikva.map JsonCoder.encode), []⟩
    | none => some ⟨files, .reporting ⟨.map, mapId⟩, []⟩
  | .gathering task i intermediate =>
    if i < task.data.nMap then
      match files (intermediateName i task.id) with
      | none => some ⟨files, .dead, []⟩
      | some content =>
        some ⟨files, .gathering task (i + 1) (intermediate ++ decodeFile content), []⟩
    else
      let lines := app.reduceLines (app.sorter.sort intermediate)
      some ⟨files, .creating (.result task.id) lines, []⟩
  | .creating output chunks =>
    match files (tempName tmp) with
    | none => some ⟨update files (tempName tmp) (some []), .writing output tmp chunks, []⟩
    | some _ => none
  | .writing output tmp (chunk :: chunks) =>
    match files (tempName tmp) with
    | some content =>
      some ⟨update files (tempName tmp) (some (content ++ chunk)), .writing output tmp chunks, []⟩
    | none => some ⟨files, .dead, []⟩
  | .writing output tmp [] =>
    match files (tempName tmp) with
    | some content =>
      let files := update (update files (tempName tmp) none) output.fileName (some content)
      some ⟨files, output.next, []⟩
    | none => some ⟨files, .dead, []⟩
  | .reporting report => some ⟨files, .idle, [report]⟩
  | .idle | .fetching _ | .exited | .dead => none

/-- What `Worker` does with the reply of a `FetchTask`. -/
def receive : FetchTaskReply → Stage
  | .done => .exited
  | .mapTask task => .mapping task
  | .reduceTask task => .gathering task 0 []

end

/-! ### The sequential program -/

/-- What `mrsequential` writes to `mr-out-0`; `none` if it has no argument or cannot open one. -/
def App.mrsequential (app : App) (inputs : List GoString) (files : Files) : Option GoString :=
  if inputs = [] then none
  else (inputs.mapM fun fileName => (files fileName).map (app.mapf fileName)).map fun kvas =>
    (app.reduceLines (app.sorter.sort kvas.flatten)).flatten

def lines (content : GoString) : List GoString :=
  loop [] content
where
  loop (line : GoString) : GoString → List GoString
    | [] => if line = [] then [] else [line]
    | b :: rest => if b = 10 then line :: loop [] rest else loop (line ++ [b]) rest

/-! ### A coder and a sorter, to run jobs -/

/-- A string as JSON has it after the opening quote, if only quotes and backslashes are escaped. -/
def quote (s : GoString) : GoString :=
  s.flatMap (fun b => if b = 34 ∨ b = 92 then [92, b] else [b]) ++ [34]

def unquote : GoString → Option (GoString × GoString)
  | [] => none
  | [b] => if b = 34 then some ([], []) else none
  | b :: b' :: rest =>
    if b = 34 then some ([], b' :: rest)
    else if b = 92 then (unquote rest).map fun r => (b' :: r.1, r.2)
    else (unquote (b' :: rest)).map fun r => (b :: r.1, r.2)

lemma quote_ne_nil (s : GoString) : quote s ≠ [] := by simp [quote]

lemma unquote_quote (s rest : GoString) : unquote (quote s ++ rest) = some (s, rest) := by
  induction s with
  | nil => cases rest <;> simp [quote, unquote]
  | cons b s ih =>
    by_cases hb : b = 34 ∨ b = 92
    · have hcons : quote (b :: s) ++ rest = 92 :: b :: (quote s ++ rest) := by simp [quote, hb]
      rw [hcons, unquote, if_neg (by decide), if_pos rfl, ih]
      rfl
    · have hcons : quote (b :: s) ++ rest = b :: (quote s ++ rest) := by simp [quote, hb]
      obtain ⟨b', l, hl⟩ : ∃ b' l, quote s ++ rest = b' :: l :=
        List.exists_cons_of_ne_nil (by simp [quote_ne_nil])
      rw [hcons, hl, unquote, if_neg fun h => hb (Or.inl h), if_neg fun h => hb (Or.inr h),
        ← hl, ih]
      rfl

def expect (text content : GoString) : Option GoString :=
  if text <+: content then some (content.drop text.length) else none

lemma expect_append (text rest : GoString) : expect text (text ++ rest) = some rest := by
  simp [expect]

def openKey : GoString := ascii ['\x7b', '\x22', 'K', 'e', 'y', '\x22', ':', '\x22']

def openValue : GoString := ascii [',', '\x22', 'V', 'a', 'l', 'u', 'e', '\x22', ':', '\x22']

def close : GoString := ascii ['\x7d', '\n']

instance plainCoder : JsonCoder where
  encode := fun kv => openKey ++ (quote kv.key ++ (openValue ++ (quote kv.value ++ close)))
  decode := fun content => do
    let (key, content) ← unquote (← expect openKey content)
    let (value, content) ← unquote (← expect openValue content)
    let content ← expect close content
    return (⟨key, value⟩, content)
  decode_encode := fun kv rest => by
    simp [List.append_assoc, expect_append, unquote_quote]
  decode_nil := by decide

def insertionSorter : Sorter where
  sort := List.insertionSort fun a b => ¬ b.key < a.key
  perm := List.perm_insertionSort _
  sorted :=
    have : Std.Total fun a b : KeyValue => ¬ b.key < a.key :=
      ⟨fun a b => (le_total a.key b.key).imp not_lt.mpr not_lt.mpr⟩
    have : IsTrans KeyValue fun a b => ¬ b.key < a.key :=
      ⟨fun _ _ _ hab hbc => not_lt.mpr ((not_lt.mp hab).trans (not_lt.mp hbc))⟩
    List.pairwise_insertionSort _

end Mit6824.MrWorker
