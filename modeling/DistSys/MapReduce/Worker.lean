import DistSys.Lib.Runs
import DistSys.MapReduce.Coordinator
import Mathlib.Data.List.Lex
import Mathlib.Data.Nat.Digits.Lemmas

/-!
# The MapReduce worker and the sequential program

`mr/worker.go` and `main/mrsequential.go`. The files of a job are found by name, and the names are
the texts that the format strings of the source give. A file of JSON records is represented by the
records that decoding it gives. `sort.Slice` and `sort.Sort` give some permutation that is sorted by
key; nothing else is assumed of them.
-/

namespace DistSys.MapReduce

/-- Go strings are strings of bytes. -/
abbrev Bytes := List UInt8

instance byteOrder : LinearOrder UInt8 where
  le_refl a := UInt8.le_refl a
  le_trans _ _ _ := UInt8.le_trans
  lt_iff_le_not_ge a b := by
    rw [UInt8.lt_iff_toNat_lt, UInt8.le_iff_toNat_le, UInt8.le_iff_toNat_le]
    omega
  le_antisymm _ _ := UInt8.le_antisymm
  le_total a b := UInt8.le_total a b
  toDecidableLE := inferInstance
  toDecidableLT := inferInstance
  toDecidableEq := inferInstance

structure KeyValue where
  key : Bytes
  value : Bytes
  deriving DecidableEq

/-- The 32-bit FNV-1a hash of a key, without its sign bit. -/
def ihash (key : Bytes) : ℕ :=
  (key.foldl (fun h b => (h ^^^ b.toUInt32) * 16777619) (2166136261 : UInt32) &&&
    0x7fffffff).toNat

/-! ## Names of files -/

/-- The decimal digits of a number. -/
def decimal (n : ℕ) : Bytes :=
  if n = 0 then [48] else ((Nat.digits 10 n).map fun d => UInt8.ofNat (48 + d)).reverse

/-- The format `%d`. -/
def formatInt (x : ℤ) : Bytes := if x < 0 then 45 :: decimal x.natAbs else decimal x.natAbs

/-- The format `mr-%d-%d`. -/
def intermediateName (taskId r : ℤ) : Bytes :=
  [109, 114, 45] ++ formatInt taskId ++ 45 :: formatInt r

/-- The format `mr-out-%d`. -/
def outName (taskId : ℤ) : Bytes := [109, 114, 45, 111, 117, 116, 45] ++ formatInt taskId

def generateFileName (r : ℤ) (mMap : ℕ) : List Bytes :=
  (List.range mMap).map fun taskId : ℕ => intermediateName taskId r

/-! ## The worker -/

/-- The functions of an application. -/
structure App where
  mapf : String → Bytes → List KeyValue
  reducef : Bytes → List Bytes → Bytes

/-- A function that sorts by key. -/
structure Sorter where
  sort : List KeyValue → List KeyValue
  perm : ∀ l, (sort l).Perm l
  sorted : ∀ l, (sort l).Pairwise fun a b => a.key ≤ b.key

inductive Content where
  | json (records : List KeyValue)
  | text (bytes : Bytes)
  deriving DecidableEq

/-- The records that the decoder reads before its first error. -/
def Content.decode : Content → List KeyValue
  | .json records => records
  | .text _ => []

abbrev Files := Bytes → Option Content

/-- The pairs of a map task by reduce task. -/
def slots (nReduce : ℕ) (immediate : List KeyValue) : List (List KeyValue) :=
  immediate.foldl (fun slot kv => slot.modify (ihash kv.key % nReduce) fun s => s ++ [kv])
    (List.replicate nReduce [])

/-- One file for each slot, the first of them with number `i`. -/
def writeSlots (taskId : ℤ) : ℕ → List (List KeyValue) → Files → Files
  | _, [], files => files
  | i, slot :: rest, files =>
    writeSlots taskId (i + 1) rest
      (Function.update files (intermediateName taskId i) (some (.json slot)))

/-- The records of the files in order; `none` if one of them cannot be opened. -/
def readAll (files : Files) : List Bytes → Option (List KeyValue)
  | [] => some []
  | filename :: rest =>
    (files filename).bind fun content =>
      (readAll files rest).map fun intermediate => content.decode ++ intermediate

/-- The inner loop: the first index from `j` on with another key. -/
def scan (intermediate : List KeyValue) (key : Bytes) : ℕ → ℕ → ℕ
  | 0, j => j
  | fuel + 1, j =>
    match intermediate[j]? with
    | some kv => if kv.key = key then scan intermediate key fuel (j + 1) else j
    | none => j

/-- The outer loop from index `i` on: the calls of `reducef`. -/
def reduceLoop (intermediate : List KeyValue) : ℕ → ℕ → List (Bytes × List Bytes)
  | 0, _ => []
  | fuel + 1, i =>
    match intermediate[i]? with
    | some kv =>
      let j := scan intermediate kv.key intermediate.length (i + 1)
      (kv.key, ((intermediate.take j).drop i).map KeyValue.value) :: reduceLoop intermediate fuel j
    | none => []

def reduceCalls (intermediate : List KeyValue) : List (Bytes × List Bytes) :=
  reduceLoop intermediate intermediate.length 0

/-- The format `%v %v\n`. -/
def formatLine (key output : Bytes) : Bytes := key ++ 32 :: (output ++ [10])

def App.output (app : App) (calls : List (Bytes × List Bytes)) : Bytes :=
  calls.flatMap fun call => formatLine call.1 (app.reducef call.1 call.2)

/-- The files of a job, the calls of `reducef` with the task that made them, and the tasks that have
been run to completion. -/
structure Work where
  files : Files
  calls : List (ℤ × Bytes × List Bytes)
  finished : List Task

def Work.init : Work := ⟨fun _ => none, [], []⟩

section
variable (app : App) (inputs : String → Option Bytes) (mMap nReduce : ℕ) (sorts : ℤ → Sorter)

def doMap (w : Work) (task : Task) : Option Work :=
  (inputs task.filename).map fun content =>
    { w with
      files := writeSlots task.taskId 0 (slots nReduce (app.mapf task.filename content)) w.files
      finished := w.finished ++ [task] }

def doReduce (w : Work) (task : Task) : Option Work :=
  (readAll w.files (generateFileName (-task.taskId - 1) mMap)).map fun intermediate =>
    let calls := reduceCalls ((sorts task.taskId).sort intermediate)
    { files := Function.update w.files (outName task.taskId) (some (.text (app.output calls)))
      calls := w.calls ++ calls.map fun call => (task.taskId, call)
      finished := w.finished ++ [task] }

/-- A worker runs a task to completion. -/
def Work.step (w : Work) (task : Task) : Option Work :=
  match task.state with
  | .map => doMap app inputs nReduce w task
  | .reduce => doReduce app mMap sorts w task
  | _ => none

/-! ## The sequential program -/

/-- The pairs of all files; `none` if one of them cannot be opened. -/
def mapAll : List String → Option (List KeyValue)
  | [] => some []
  | filename :: rest =>
    (inputs filename).bind fun content =>
      (mapAll rest).map fun intermediate => app.mapf filename content ++ intermediate

/-- The text of `mr-out-0`. -/
def mrsequential (s : Sorter) (inputFiles : List String) : Option Bytes :=
  (mapAll app inputs inputFiles).map fun intermediate =>
    app.output (reduceCalls (s.sort intermediate))

end

/-- The lines of a text. -/
def lines : Bytes → List Bytes
  | [] => []
  | b :: text =>
    if b = 10 then [] :: lines text
    else
      match lines text with
      | [] => [[b]]
      | line :: rest => (b :: line) :: rest

end DistSys.MapReduce
