import MapReduce.Master.ReduceDispatch
import MapReduce.Worker.MapTask

/-!
# Serving a reduce task

`ReduceCallData::do_work` (`w7/src/worker/mrservice.h`) and what it calls of the worker
(`w7/src/worker/workerimpl.cc`, `w7/src/worker/worker.h`). The blobs of a request are downloaded
into one local file, which is reduced and streamed into a second file, which is uploaded to the
container of the outputs.

Read `reduce_do_work_eq` first: it says what is uploaded. A blob that cannot be downloaded is
skipped, and where the reduce function raises the output is empty; so it is if an exception is set
in the interpreter of the worker. None of it reaches the reply.
-/

namespace MapReduce

/-! ## The worker -/

/-- `ReducerInput`: the request of a reduce task. -/
structure ReducerInput where
  containername : Str
  reducerId : Int
  blobs : List Str
  deriving DecidableEq, Repr

/-- The request `invokeReduceTaskAsync` sends for a call. -/
def invokeReduceTask (call : ReduceCall) : ReducerInput :=
  ⟨call.containername, call.jobid, call.blobs⟩

/-- The members of a worker that a reduce task uses, with its local files and the blobs of the
container its outputs go to, and whether an exception is set in its interpreter. -/
structure ReduceWorker where
  fullAddress : Str
  mstrcontainername : Str
  files : Str → Option Str
  outcontainer : Str → Option Str
  errorSet : Bool

/-- The name of the file the blobs of a reduce task are collected in. -/
def kvFileName (address : Str) (reducerId : Int) : Str :=
  ['k', 'v', '-'] ++ address ++ '-' :: Decimal.ofInt reducerId

/-- The name `create_output_file` gives the output of a reducer, which is also that of its blob. -/
def outFileName (reducerId : Int) : Str := ['o', 'u', 't', '_'] ++ Decimal.ofInt reducerId

/-- The container `add_out_blob` uploads to. -/
def outContainerName (mstrcontainername : Str) : Str := mstrcontainername ++ ['o', 'u', 't']

section

variable (unicodePrintable : Char → Bool) (download : Str → Str → Option Str)

/-- `prepare_data`: a blob is appended to the file, or skipped if the download throws. -/
def prepareData (inContainer tmpFile inBlob : Str) : Str :=
  match download inContainer inBlob with
  | none => tmpFile
  | some content => tmpFile ++ content

/-- `stream_to_file` for a reduce function, for each entry of the dictionary it returned. -/
def streamOut (outstream : Str) (entries : List (Str × Int)) : Str :=
  entries.foldl (fun outstream entry => outstream ++
    streamLine (PyText.repr unicodePrintable entry.1) (pyLongAsLong entry.2)) outstream

/-- `instantiate_reduce_function` on a local file: the stream, and whether an exception is set
behind it. With an exception set already, the import of the script fails on it. Where it fails or
the reduce function raises, the exception is printed and cleared, and nothing is streamed. -/
def instantiateReduceFunction (kvfile : Option Str) (errorSet : Bool) (outstream : Str) :
    Str × Bool :=
  if errorSet then (outstream, false)
  else
    match kvfile.bind reducefunc with
    | none => (outstream, false)
    | some dict => (streamOut unicodePrintable outstream dict.entries, overflows dict.entries)

/-- `add_out_file_to_blob`: the output file is uploaded. Opening a file that does not exist
throws. -/
def addOutFileToBlob (outfile : Str) (w : ReduceWorker) : Option (Str × ReduceWorker) := do
  let content ← w.files outfile
  some (outContainerName w.mstrcontainername,
    { w with outcontainer := put w.outcontainer outfile content })

/-- `reduce`. It returns the container of the output. -/
def reduce (kvfilename : Str) (reducerId : Int) (w : ReduceWorker) :
    Option (Str × ReduceWorker) :=
  let outfile := outFileName reducerId
  let (outstream, errorSet) :=
    instantiateReduceFunction unicodePrintable (w.files kvfilename) w.errorSet []
  addOutFileToBlob outfile { w with files := put w.files outfile outstream, errorSet := errorSet }

/-- `ReduceCallData::do_work`. The reply carries no blob name. -/
def reduceDoWork (request : ReducerInput) (w : ReduceWorker) :
    Option (ReduceOutcome × ReduceWorker) := do
  let tmpFilename := kvFileName w.fullAddress request.reducerId
  let tmpFile := request.blobs.foldl (prepareData download request.containername) []
  let (rescontainer, w) ← reduce unicodePrintable tmpFilename request.reducerId
    { w with files := put w.files tmpFilename tmpFile }
  some (.ok rescontainer [], w)

end

/-! ## What is uploaded -/

/-- The output of a reduce task whose collected file has the given content. -/
def reduceOutput (unicodePrintable : Char → Bool) (content : Str) : Str :=
  ((reducefunc content).elim [] Dict.entries).flatMap fun entry =>
    entryLine unicodePrintable (longEntry entry)

/-- Whether an exception is set behind a reduce task whose collected file has the given content. -/
def reduceOverflows (content : Str) : Bool :=
  (reducefunc content).elim false fun dict => overflows dict.entries

/-- The blobs that can be downloaded are collected in order. -/
theorem prepare_data_eq (download : Str → Str → Option Str) (inContainer : Str) (blobs : List Str)
    (tmpFile : Str) :
    blobs.foldl (prepareData download inContainer) tmpFile =
      tmpFile ++ blobs.flatMap fun blob => (download inContainer blob).getD [] := by
  induction blobs generalizing tmpFile with
  | nil => simp
  | cons blob blobs ih =>
      rw [List.foldl_cons, ih, List.flatMap_cons, prepareData]
      cases download inContainer blob <;> simp

/-- The lines of the entries are written in order. -/
theorem stream_out_eq (unicodePrintable : Char → Bool) (outstream : Str)
    (entries : List (Str × Int)) :
    streamOut unicodePrintable outstream entries = outstream ++ entries.flatMap fun entry =>
      entryLine unicodePrintable (longEntry entry) := by
  unfold streamOut
  induction entries generalizing outstream with
  | nil => simp
  | cons entry entries ih =>
      rw [List.foldl_cons, ih, List.flatMap_cons, ← List.append_assoc]
      rfl

/-- The reduce function writes the lines of its dictionary, and nothing if it raises, or if an
exception is set in front of it. -/
theorem instantiate_reduce_function_eq (unicodePrintable : Char → Bool) (content : Str)
    (errorSet : Bool) :
    instantiateReduceFunction unicodePrintable (some content) errorSet [] =
      if errorSet then ([], false)
      else (reduceOutput unicodePrintable content, reduceOverflows content) := by
  unfold instantiateReduceFunction reduceOutput reduceOverflows
  rw [Option.bind_some]
  cases reducefunc content with
  | none => rfl
  | some dict =>
      dsimp only [Option.elim_some]
      rw [stream_out_eq, List.nil_append]

/-- A reduce task is always answered OK. It uploads, under the name of its reducer, the output of
the blobs it could download, or an empty one if an exception is set in front of it. -/
theorem reduce_do_work_eq (unicodePrintable : Char → Bool) (download : Str → Str → Option Str)
    (request : ReducerInput) (w : ReduceWorker) :
    let content := request.blobs.flatMap fun blob =>
      (download request.containername blob).getD []
    ∃ w', reduceDoWork unicodePrintable download request w =
        some (.ok (outContainerName w.mstrcontainername) [], w') ∧
      w'.outcontainer = put w.outcontainer (outFileName request.reducerId)
        (if w.errorSet then [] else reduceOutput unicodePrintable content) ∧
      w'.errorSet = (!w.errorSet && reduceOverflows content) := by
  have hread : ∀ files name content, put files name content name = some content := fun _ _ _ =>
    Function.update_self ..
  simp only [reduceDoWork, reduce, addOutFileToBlob, prepare_data_eq, hread,
    instantiate_reduce_function_eq, List.nil_append, Option.bind_eq_bind, Option.bind_some]
  refine ⟨_, rfl, ?_, ?_⟩
  · cases w.errorSet <;> rfl
  · cases w.errorSet <;> rfl

/-! ## The order of the blobs -/

/-- `sorted` does not depend on the order of the lines. -/
theorem sorted_perm {ls ls' : List Str} (h : ls.Perm ls') :
    PyText.sorted ls = PyText.sorted ls' := by
  have hsort : ∀ ls : List Str, (PyText.sorted ls).Pairwise (· ≤ ·) := fun ls =>
    List.pairwise_insertionSort (· ≤ ·) ls
  refine List.Perm.eq_of_pairwise' (hsort ls) (hsort ls') ?_
  exact (List.perm_insertionSort _ ls).trans (h.trans (List.perm_insertionSort _ ls').symm)

end MapReduce
