import MapReduce.Library.Fields
import MapReduce.Protos
import MapReduce.Worker.Boundary
import MapReduce.Worker.Streams

/-!
# Serving a map task

`MapCallData::do_work` (`w7/src/worker/mrservice.h`) and what it calls of the worker
(`w7/src/worker/workerimpl.cc`, `w7/src/worker/worker.h`). Each piece of a request is read,
mapped and streamed into local files, one for each reducer, which are then uploaded as blobs.

What happens when the storage fails, or when the map function raises, is the subject of
`do_work_maps_iff`: nothing of it reaches the status of the reply. A count that is no `long` leaves
an `OverflowError` set in the interpreter of the worker, and the next call of a script fails on it.
-/

namespace MapReduce

/-! ## The names of the intermediate blobs -/

/-- The name `create_r_intermediate_files` gives a local file. -/
def intermediateFileName (fullAddress : Str) (sid spid i : Int) : Str :=
  let iname := ['i', 'n', 't', '_']
  let iname := iname ++ fullAddress
  let iname := iname ++ ['_']
  let iname := iname ++ Decimal.ofInt sid
  let iname := iname ++ ['_']
  let iname := iname ++ Decimal.ofInt spid
  let iname := iname ++ ['_']
  iname ++ Decimal.ofInt i

/-- The name `add_intermediate_blob` gives a blob, and of the local file it uploads. -/
def intermediateBlobName (address : Str) (sid spid reducerId : Int) : Str :=
  ['i', 'n', 't', '_'] ++ address ++ '_' :: Decimal.ofInt sid ++ '_' :: Decimal.ofInt spid ++
    '_' :: Decimal.ofInt reducerId

/-- The worker uploads the files it wrote. -/
theorem intermediate_file_name_eq (address : Str) (sid spid i : Int) :
    intermediateFileName address sid spid i = intermediateBlobName address sid spid i := by
  simp [intermediateFileName, intermediateBlobName]

/-- A number has no underscore. -/
theorem underscore_not_mem (i : Int) : '_' ∉ Decimal.ofInt i :=
  Decimal.not_mem_of_int (by decide) (by decide) i

/-- The name determines the worker, the shard, the piece and the reducer. -/
theorem intermediate_blob_name_inj {address address' : Str} {sid sid' spid spid' i i' : Int}
    (h : intermediateBlobName address sid spid i = intermediateBlobName address' sid' spid' i') :
    address = address' ∧ sid = sid' ∧ spid = spid' ∧ i = i' := by
  unfold intermediateBlobName at h
  obtain ⟨h, hi⟩ := Fields.append_sep_inj (underscore_not_mem i) (underscore_not_mem i') h
  obtain ⟨h, hspid⟩ := Fields.append_sep_inj (underscore_not_mem spid) (underscore_not_mem spid') h
  obtain ⟨h, hsid⟩ := Fields.append_sep_inj (underscore_not_mem sid) (underscore_not_mem sid') h
  exact ⟨List.append_cancel_left h, Decimal.of_int_injective hsid, Decimal.of_int_injective hspid,
    Decimal.of_int_injective hi⟩

/-! ## The worker -/

/-- What a worker meets while it serves a map task: the answers of the storage, which may fail for
one piece and not for another; the hash of the standard library; which characters outside ASCII
are printable; and the map function, on the content of a file. The map function may raise. -/
structure MapEnv where
  download : Nat → Str → Nat → Nat → Option Str
  hash : Str → Nat
  unicodePrintable : Char → Bool
  mapScript : Str → Option (List (Str × Int))

/-- The members of a worker that a map task uses, with its local intermediate files and the blobs
of its container, and whether an exception is set in its interpreter. -/
structure Worker where
  fullAddress : Str
  wrkrcontainername : Str
  files : Str → Option Str
  wrkrcontainer : Str → Option Str
  errorSet : Bool

/-- The variables of `do_work`: the worker, and the container and the blobs of the reply. -/
structure Serving where
  worker : Worker
  rescontainer : Str
  blobList : List Str

/-- A file or a blob is written. -/
def put (store : Str → Option Str) (name content : Str) : Str → Option Str :=
  Function.update store name (some content)

/-- `close_r_intermediate_files`: the contents written to the streams are in the files. -/
def closeIntermediateFiles (nreducers sid spid : Int) (interFiles : List Str) (w : Worker) :
    Worker :=
  { w with
    files := (List.range nreducers.toNat).foldl (fun files (i : Nat) =>
      put files (intermediateFileName w.fullAddress sid spid i) (interFiles.getD i [])) w.files }

/-- `add_intermediate_blob`: the file of a reducer is uploaded. Opening a file that does not exist
throws. -/
def addIntermediateBlob (reducerId sid spid : Int) (s : Serving) : Option Serving := do
  let blobname := intermediateBlobName s.worker.fullAddress sid spid reducerId
  let content ← s.worker.files blobname
  some {
    worker := { s.worker with wrkrcontainer := put s.worker.wrkrcontainer blobname content }
    rescontainer := s.worker.wrkrcontainername
    blobList := s.blobList ++ [blobname] }

/-- `add_intermediate_file_to_blob`. -/
def addIntermediateFileToBlob (nreducers sid spid : Int) (s : Serving) : Option Serving :=
  (List.range nreducers.toNat).foldlM (fun s (i : Nat) => addIntermediateBlob i sid spid s) s

section

variable (env : MapEnv)

/-- `instantiate_map_function` on the file that a piece was written to: the streams, and whether an
exception is set behind it. With an exception set already, the import of the script fails on it;
with no file, the map function raises when it opens it. Where the import fails or the map function
raises, the exception is printed and cleared, and nothing is streamed. -/
def instantiateMapFunction (nreducers : Int) (outfile : Option Str) (errorSet : Bool)
    (interFiles : List Str) : Option (List Str × Bool) :=
  if errorSet then some (interFiles, false)
  else
    match outfile.bind env.mapScript with
    | none => some (interFiles, false)
    | some entries => do
        let interFiles ← streamDict env.hash env.unicodePrintable nreducers interFiles entries
        some (interFiles, overflows entries)

/-- `map_shard`. It returns `true` whether or not the piece could be read. -/
def mapShard (blobname : Str) (begin_ end_ : Nat) (nReducers sid : Int) (spid : Nat) (s : Serving) :
    Option (Bool × Serving) := do
  let interFiles := openFiles nReducers
  let outfile := writePartialDataToLocalFile (env.download spid) blobname begin_ end_
  let (interFiles, errorSet) ← instantiateMapFunction env nReducers outfile s.worker.errorSet
    interFiles
  let worker := closeIntermediateFiles nReducers sid spid interFiles
    { s.worker with errorSet := errorSet }
  let s ← addIntermediateFileToBlob nReducers sid spid { s with worker := worker }
  some (true, s)

/-- The loop of `do_work` over the pieces of a request. -/
def doWorkLoop (nReducers shardId : Int) : Nat → List ShardTuple → Serving → Option Serving
  | _, [], s => some s
  | pieceId, stuple :: stuples, s => do
      let (_, s) ← mapShard env stuple.blobname (ofInt32 stuple.startoffset)
        (ofInt32 stuple.endoffset) nReducers shardId pieceId s
      doWorkLoop nReducers shardId (pieceId + 1) stuples s

/-- `MapCallData::do_work`. Where the worker has undefined behaviour there is no reply. -/
def doWork (request : MapperInput) (w : Worker) : Option (MapOutcome × Worker) := do
  let s ← doWorkLoop env request.npartition request.shardId 0 request.stuples ⟨w, [], []⟩
  some (.ok s.rescontainer s.blobList, s.worker)

end

/-! ## Writing the blobs of a piece -/

/-- Several files or blobs are written, in order. -/
def putAll (store : Str → Option Str) (l : List (Str × Str)) : Str → Option Str :=
  l.foldl (fun store e => put store e.1 e.2) store

/-- Lists of writes compose. -/
theorem put_all_append (store : Str → Option Str) (l l' : List (Str × Str)) :
    putAll store (l ++ l') = putAll (putAll store l) l' :=
  List.foldl_append

/-- What is not written is unchanged. -/
theorem put_all_of_not_mem {store : Str → Option Str} {l : List (Str × Str)} {name : Str}
    (h : name ∉ l.map Prod.fst) : putAll store l name = store name := by
  induction l generalizing store with
  | nil => rfl
  | cons e l ih =>
      rw [List.map_cons, List.mem_cons, not_or] at h
      show putAll (put store e.1 e.2) l name = store name
      rw [ih h.2, put, Function.update_of_ne h.1]

/-- What is written once can be read. -/
theorem put_all_of_mem {store : Str → Option Str} {l : List (Str × Str)}
    (hnodup : (l.map Prod.fst).Nodup) {e : Str × Str} (h : e ∈ l) :
    putAll store l e.1 = some e.2 := by
  induction l generalizing store with
  | nil => cases h
  | cons e' l ih =>
      rw [List.map_cons, List.nodup_cons] at hnodup
      show putAll (put store e'.1 e'.2) l e.1 = some e.2
      rcases List.mem_cons.mp h with rfl | h
      · rw [put_all_of_not_mem hnodup.1, put, Function.update_self]
      · exact ih hnodup.2 h

/-- The blobs of a piece: for each reducer, the name and the content of its file. -/
def pieceBlobs (address : Str) (nreducers sid spid : Int) (contents : List Str) :
    List (Str × Str) :=
  (List.range nreducers.toNat).map fun (i : Nat) =>
    (intermediateBlobName address sid spid i, contents.getD i [])

/-- Closing the streams writes the files that are uploaded as the blobs of the piece. -/
theorem close_intermediate_files_eq (nreducers sid spid : Int) (contents : List Str) (w : Worker) :
    closeIntermediateFiles nreducers sid spid contents w =
      { w with
        files := putAll w.files (pieceBlobs w.fullAddress nreducers sid spid contents) } := by
  simp only [closeIntermediateFiles, putAll, pieceBlobs, List.foldl_map, intermediate_file_name_eq]

/-- The reducers of a piece have blobs of different names. -/
theorem piece_blobs_nodup (address : Str) (nreducers sid spid : Int) (contents : List Str) :
    ((pieceBlobs address nreducers sid spid contents).map Prod.fst).Nodup := by
  rw [pieceBlobs, List.map_map]
  refine List.nodup_range.map fun i j h => ?_
  exact Int.ofNat.inj (intermediate_blob_name_inj h).2.2.2

/-- From `s` to `t` the worker put the blobs `l` into its container and named them in the reply. -/
structure Added (s : Serving) (l : List (Str × Str)) (t : Serving) : Prop where
  address : t.worker.fullAddress = s.worker.fullAddress
  container : t.worker.wrkrcontainer = putAll s.worker.wrkrcontainer l
  blobList : t.blobList = s.blobList ++ l.map Prod.fst

/-- Nothing is added at first. -/
theorem Added.refl (s : Serving) : Added s [] s := ⟨rfl, rfl, by simp⟩

/-- Additions compose. -/
theorem Added.trans {s t u : Serving} {l l' : List (Str × Str)} (h : Added s l t)
    (h' : Added t l' u) : Added s (l ++ l') u where
  address := h'.address.trans h.address
  container := by rw [h'.container, h.container, put_all_append]
  blobList := by rw [h'.blobList, h.blobList, List.map_append, List.append_assoc]

/-- Uploading the file of one reducer. -/
theorem add_intermediate_blob_spec {reducerId sid spid : Int} {content : Str} {s : Serving}
    (h : s.worker.files (intermediateBlobName s.worker.fullAddress sid spid reducerId) =
      some content) :
    ∃ t, addIntermediateBlob reducerId sid spid s = some t ∧
      Added s [(intermediateBlobName s.worker.fullAddress sid spid reducerId, content)] t ∧
      t.worker.files = s.worker.files ∧ t.worker.errorSet = s.worker.errorSet := by
  simp only [addIntermediateBlob, h, Option.bind_eq_bind, Option.bind_some]
  exact ⟨_, rfl, ⟨rfl, rfl, rfl⟩, rfl, rfl⟩

/-- Uploading the files of the reducers `is`. -/
theorem upload_spec {sid spid : Int} {content : Nat → Str} {is : List Nat} {s : Serving}
    (h : ∀ i ∈ is, s.worker.files (intermediateBlobName s.worker.fullAddress sid spid (i : Nat)) =
      some (content i)) :
    ∃ t, is.foldlM (fun s (i : Nat) => addIntermediateBlob i sid spid s) s = some t ∧
      Added s (is.map fun (i : Nat) =>
        (intermediateBlobName s.worker.fullAddress sid spid i, content i)) t ∧
      t.worker.errorSet = s.worker.errorSet := by
  induction is generalizing s with
  | nil => exact ⟨s, rfl, .refl s, rfl⟩
  | cons i is ih =>
      rw [List.forall_mem_cons] at h
      obtain ⟨t, hone, hfirst, hfiles, herror⟩ := add_intermediate_blob_spec h.1
      obtain ⟨u, hrun, hrest, herror'⟩ := ih (s := t) (by rw [hfiles, hfirst.address]; exact h.2)
      rw [List.foldlM_cons, hone, Option.bind_eq_bind, Option.bind_some]
      rw [hfirst.address] at hrest
      exact ⟨u, hrun, hfirst.trans hrest, herror'.trans herror⟩

/-- Closing and uploading the streams of a piece adds its blobs. -/
theorem add_intermediate_file_to_blob_spec (nreducers sid spid : Int) (contents : List Str)
    (errorSet : Bool) (s : Serving) :
    ∃ t, addIntermediateFileToBlob nreducers sid spid
        ⟨closeIntermediateFiles nreducers sid spid contents { s.worker with errorSet := errorSet },
          s.rescontainer, s.blobList⟩ = some t ∧
      Added s (pieceBlobs s.worker.fullAddress nreducers sid spid contents) t ∧
      t.worker.errorSet = errorSet := by
  rw [close_intermediate_files_eq]
  have hfiles : ∀ i ∈ List.range nreducers.toNat,
      putAll s.worker.files (pieceBlobs s.worker.fullAddress nreducers sid spid contents)
        (intermediateBlobName s.worker.fullAddress sid spid (i : Nat)) =
      some (contents.getD i []) := fun i hi =>
    put_all_of_mem (piece_blobs_nodup ..) (List.mem_map_of_mem hi)
  obtain ⟨t, hrun, hadded, herror⟩ := upload_spec (s := { s with worker := { s.worker with
    files := putAll s.worker.files (pieceBlobs s.worker.fullAddress nreducers sid spid contents),
    errorSet := errorSet } }) hfiles
  exact ⟨t, hrun, ⟨hadded.address, hadded.container, hadded.blobList⟩, herror⟩

/-! ## Serving the pieces -/

section

variable (env : MapEnv)

/-- The dictionary the map function returns for the file of a piece, if the piece can be read and
the map function does not raise. -/
def pieceEntries (pieceId : Nat) (stuple : ShardTuple) : Option (List (Str × Int)) :=
  (writePartialDataToLocalFile (env.download pieceId) stuple.blobname (ofInt32 stuple.startoffset)
    (ofInt32 stuple.endoffset)).bind env.mapScript

/-- The contents of the intermediate files of a piece, and whether an exception is set behind it;
it is undefined behaviour to stream a word without a reducer. -/
def mapPiece (nreducers : Int) (errorSet : Bool) (pieceId : Nat) (stuple : ShardTuple) :
    Option (List Str × Bool) :=
  if errorSet then some (openFiles nreducers, false)
  else
    match pieceEntries env pieceId stuple with
    | none => some (openFiles nreducers, false)
    | some entries =>
        (streamDict env.hash env.unicodePrintable nreducers (openFiles nreducers) entries).map
          fun files => (files, overflows entries)

/-- `instantiate_map_function` on the file of a piece. -/
theorem instantiate_map_function_eq (nreducers : Int) (errorSet : Bool) (pieceId : Nat)
    (stuple : ShardTuple) :
    instantiateMapFunction env nreducers (writePartialDataToLocalFile (env.download pieceId)
      stuple.blobname (ofInt32 stuple.startoffset) (ofInt32 stuple.endoffset)) errorSet
      (openFiles nreducers) = mapPiece env nreducers errorSet pieceId stuple := by
  unfold instantiateMapFunction mapPiece pieceEntries
  split
  · rfl
  · split
    · rfl
    · rw [Option.map_eq_bind]
      rfl

/-- `map_shard` adds the blobs of its piece, whether or not the piece could be read. -/
theorem map_shard_spec {nReducers : Int} (sid : Int) {spid : Nat} {stuple : ShardTuple}
    {contents : List Str} {errorSet : Bool} {s : Serving}
    (h : mapPiece env nReducers s.worker.errorSet spid stuple = some (contents, errorSet)) :
    ∃ t, mapShard env stuple.blobname (ofInt32 stuple.startoffset) (ofInt32 stuple.endoffset)
        nReducers sid spid s = some (true, t) ∧
      Added s (pieceBlobs s.worker.fullAddress nReducers sid spid contents) t ∧
      t.worker.errorSet = errorSet := by
  obtain ⟨t, hrun, hadded⟩ := add_intermediate_file_to_blob_spec nReducers sid spid contents
    errorSet s
  refine ⟨t, ?_, hadded⟩
  simp only [mapShard, instantiate_map_function_eq, h, hrun, Option.bind_eq_bind, Option.bind_some]

/-- The blobs of the pieces from `pieceId` on, where `contents` gives the files of each piece. -/
def requestBlobs (address : Str) (nreducers shardId : Int) (contents : Nat → List Str)
    (pieceId n : Nat) : List (Str × Str) :=
  (List.range' pieceId n).flatMap fun (i : Nat) =>
    pieceBlobs address nreducers shardId i (contents i)

/-- The loop over the pieces adds the blobs of all of them, where `error i` says whether an
exception is set in front of the piece `i`. -/
theorem do_work_loop_spec {nReducers : Int} (shardId : Int) (contents : Nat → List Str)
    (error : Nat → Bool) {stuples : List ShardTuple} {pieceId : Nat}
    (h : ∀ i stuple, stuples[i]? = some stuple →
      mapPiece env nReducers (error (pieceId + i)) (pieceId + i) stuple =
        some (contents (pieceId + i), error (pieceId + i + 1)))
    {s : Serving} (hs : s.worker.errorSet = error pieceId) :
    ∃ t, doWorkLoop env nReducers shardId pieceId stuples s = some t ∧
      Added s (requestBlobs s.worker.fullAddress nReducers shardId contents pieceId
        stuples.length) t ∧
      t.worker.errorSet = error (pieceId + stuples.length) := by
  induction stuples generalizing pieceId s with
  | nil => exact ⟨s, rfl, .refl s, hs⟩
  | cons stuple stuples ih =>
      have hpiece := h 0 stuple rfl
      rw [Nat.add_zero, ← hs] at hpiece
      obtain ⟨t, hone, hfirst, herror⟩ := map_shard_spec env shardId hpiece
      have hnext : ∀ i stuple, stuples[i]? = some stuple →
          mapPiece env nReducers (error (pieceId + 1 + i)) (pieceId + 1 + i) stuple =
            some (contents (pieceId + 1 + i), error (pieceId + 1 + i + 1)) := fun i stuple hi => by
        rw [Nat.add_assoc pieceId, Nat.add_comm 1 i]
        exact h (i + 1) stuple hi
      obtain ⟨u, hrun, hrest, hend⟩ := ih hnext herror
      refine ⟨u, ?_, ?_, ?_⟩
      · simp only [doWorkLoop, hone, Option.bind_eq_bind, Option.bind_some]
        exact hrun
      · rw [hfirst.address] at hrest
        exact hfirst.trans hrest
      · rw [hend, List.length_cons, Nat.add_assoc, Nat.add_comm 1]

/-- If a piece is undefined behaviour, so is the request. -/
theorem do_work_loop_none {nReducers : Int} (shardId : Int) (error : Nat → Bool)
    {stuples : List ShardTuple} {pieceId : Nat}
    (herror : ∀ i stuple out, stuples[i]? = some stuple →
      mapPiece env nReducers (error (pieceId + i)) (pieceId + i) stuple = some out →
        error (pieceId + i + 1) = out.2)
    {i : Nat} {stuple : ShardTuple} (hi : stuples[i]? = some stuple)
    (h : mapPiece env nReducers (error (pieceId + i)) (pieceId + i) stuple = none)
    {s : Serving} (hs : s.worker.errorSet = error pieceId) :
    doWorkLoop env nReducers shardId pieceId stuples s = none := by
  induction stuples generalizing pieceId i s with
  | nil => cases hi
  | cons first stuples ih =>
      rw [doWorkLoop, Option.bind_eq_bind, Option.bind_eq_none_iff]
      rintro ⟨_, t⟩ hone
      cases hpiece : mapPiece env nReducers s.worker.errorSet pieceId first with
      | none => simp [mapShard, instantiate_map_function_eq, hpiece] at hone
      | some out =>
          obtain ⟨contents, errorSet⟩ := out
          obtain ⟨t', hone', -, hnext⟩ := map_shard_spec env shardId hpiece
          rw [hone'] at hone
          obtain rfl : t' = t := congrArg Prod.snd (Option.some.inj hone)
          rw [hs] at hpiece
          cases i with
          | zero =>
              obtain rfl : first = stuple := by simpa using hi
              rw [Nat.add_zero, hpiece] at h
              cases h
          | succ i =>
              have hshift : pieceId + (i + 1) = pieceId + 1 + i := by omega
              rw [hshift] at h
              refine ih (fun i stuple out hi hout => ?_) hi h ?_
              · have hshift' : pieceId + 1 + i = pieceId + (i + 1) := by omega
                rw [hshift'] at hout ⊢
                exact herror (i + 1) stuple out hi hout
              · exact hnext.trans (herror 0 first _ rfl hpiece).symm

/-- The blobs of a request have different names. -/
theorem request_blobs_nodup (address : Str) (nreducers shardId : Int)
    (contents : Nat → List Str) (pieceId n : Nat) :
    ((requestBlobs address nreducers shardId contents pieceId n).map Prod.fst).Nodup := by
  rw [requestBlobs, List.map_flatMap, List.nodup_flatMap]
  refine ⟨fun i _ => piece_blobs_nodup .., ?_⟩
  refine List.Pairwise.imp (fun {i j} hne => ?_) (List.nodup_range' ..)
  intro name hi hj
  simp only [pieceBlobs, List.map_map, List.mem_map, Function.comp_apply] at hi hj
  obtain ⟨r, -, rfl⟩ := hi
  obtain ⟨r', -, heq⟩ := hj
  exact hne (Int.ofNat.inj (intermediate_blob_name_inj heq).2.2.1).symm

/-- Whether an exception is set in front of each piece of a request, if `errorSet` says so for the
first. -/
def errorBefore (request : MapperInput) (errorSet : Bool) : Nat → Bool
  | 0 => errorSet
  | i + 1 => ((request.stuples[i]?).bind
      (mapPiece env request.npartition (errorBefore request errorSet i) i)).elim false Prod.snd

/-- The contents of the files of all pieces of a request. -/
def requestContents (request : MapperInput) (errorSet : Bool) (i : Nat) : List Str :=
  ((request.stuples[i]?).bind
    (mapPiece env request.npartition (errorBefore env request errorSet i) i)).elim [] Prod.fst

/-- If no piece is undefined behaviour, the reply is OK and names the blobs of all pieces. -/
theorem do_work_spec {request : MapperInput} {w : Worker}
    (h : ∀ i stuple, request.stuples[i]? = some stuple →
      mapPiece env request.npartition (errorBefore env request w.errorSet i) i stuple ≠ none) :
    ∃ t, doWork env request w = some (.ok t.rescontainer t.blobList, t.worker) ∧
      Added ⟨w, [], []⟩ (requestBlobs w.fullAddress request.npartition request.shardId
        (requestContents env request w.errorSet) 0 request.stuples.length) t ∧
      t.worker.errorSet = errorBefore env request w.errorSet request.stuples.length := by
  have hpieces : ∀ i stuple, request.stuples[i]? = some stuple →
      mapPiece env request.npartition (errorBefore env request w.errorSet (0 + i)) (0 + i) stuple =
        some (requestContents env request w.errorSet (0 + i),
          errorBefore env request w.errorSet (0 + i + 1)) := by
    intro i stuple hi
    obtain ⟨out, hout⟩ := Option.ne_none_iff_exists'.mp (h i stuple hi)
    rw [Nat.zero_add, requestContents, errorBefore, hi, Option.bind_some, hout]
    rfl
  obtain ⟨t, hrun, hadded, herror⟩ := do_work_loop_spec env request.shardId
    (requestContents env request w.errorSet) (errorBefore env request w.errorSet) hpieces
    (s := ⟨w, [], []⟩) rfl
  rw [Nat.zero_add] at herror
  refine ⟨t, ?_, hadded, herror⟩
  simp only [doWork, hrun, Option.bind_eq_bind, Option.bind_some]

/-- If there is a reply, no piece is undefined behaviour. -/
theorem do_work_defined {request : MapperInput} {w w' : Worker} {outcome : MapOutcome}
    (h : doWork env request w = some (outcome, w')) (i : Nat) (stuple : ShardTuple)
    (hi : request.stuples[i]? = some stuple) :
    mapPiece env request.npartition (errorBefore env request w.errorSet i) i stuple ≠ none := by
  intro hnone
  have hcrash : doWorkLoop env request.npartition request.shardId 0 request.stuples ⟨w, [], []⟩ =
      none := by
    refine do_work_loop_none env request.shardId (errorBefore env request w.errorSet)
      (fun i stuple out hi hout => ?_) hi (by rwa [Nat.zero_add]) rfl
    rw [Nat.zero_add] at hout ⊢
    rw [errorBefore, hi, Option.bind_some, hout]
    rfl
  simp [doWork, hcrash] at h

/-- The reply to a map task names one blob for each piece and each reducer. -/
theorem do_work_blobs {request : MapperInput} {w w' : Worker} {containername : Str}
    {blobs : List Str} (h : doWork env request w = some (.ok containername blobs, w')) :
    blobs = (List.range request.stuples.length).flatMap fun (piece : Nat) =>
      (List.range request.npartition.toNat).map fun (i : Nat) =>
        intermediateBlobName w.fullAddress request.shardId piece i := by
  obtain ⟨t, hrun, hadded, -⟩ := do_work_spec env (do_work_defined env h)
  rw [hrun, Option.some.injEq, Prod.mk.injEq, MapOutcome.ok.injEq] at h
  rw [← h.1.2, hadded.blobList, List.nil_append, requestBlobs, List.map_flatMap,
    ← List.range_eq_range']
  simp only [pieceBlobs, List.map_map, Function.comp_def]

/-- What an exception that is set in front of a later piece takes: a count of the piece before it
that is no `long`. -/
theorem error_before_succ {request : MapperInput} {errorSet : Bool} {i : Nat}
    (h : errorBefore env request errorSet (i + 1) = true) :
    ∃ stuple entries files, request.stuples[i]? = some stuple ∧
      pieceEntries env i stuple = some entries ∧ overflows entries = true ∧
      streamDict env.hash env.unicodePrintable request.npartition (openFiles request.npartition)
        entries = some files := by
  rw [errorBefore] at h
  cases hi : request.stuples[i]? with
  | none =>
      rw [hi] at h
      cases h
  | some stuple =>
      rw [hi, Option.bind_some, mapPiece] at h
      split at h
      · cases h
      · split at h
        · cases h
        · next entries hentries =>
          cases hfiles : streamDict env.hash env.unicodePrintable request.npartition
              (openFiles request.npartition) entries with
          | none =>
              rw [hfiles] at h
              cases h
          | some files =>
              rw [hfiles] at h
              exact ⟨stuple, entries, files, rfl, hentries, h, hfiles⟩

/-- Streaming into no file is undefined behaviour, unless there is nothing to stream. -/
theorem stream_dict_none (hash : Str → Nat) (unicodePrintable : Char → Bool) {nreducers : Int}
    (hR : nreducers ≤ 0) {entries : List (Str × Int)} (hne : entries ≠ []) :
    streamDict hash unicodePrintable nreducers (openFiles nreducers) entries = none := by
  cases entries with
  | nil => exact absurd rfl hne
  | cons e entries => simp [streamDict, streamToFile, hR]

/-- A piece is undefined behaviour if it has a word to stream and there is no reducer. -/
theorem map_piece_eq_none_iff {nreducers : Int} {errorSet : Bool} {pieceId : Nat}
    {stuple : ShardTuple} :
    mapPiece env nreducers errorSet pieceId stuple = none ↔
      errorSet = false ∧ nreducers ≤ 0 ∧
        ∃ entries, pieceEntries env pieceId stuple = some entries ∧ entries ≠ [] := by
  unfold mapPiece
  cases errorSet with
  | true => simp
  | false =>
      cases hentries : pieceEntries env pieceId stuple with
      | none => simp
      | some entries =>
          by_cases hR : nreducers ≤ 0
          · by_cases hne : entries = []
            · simp [hne, streamDict]
            · simp [stream_dict_none env.hash env.unicodePrintable hR hne, hR, hne]
          · simp [stream_dict_eq env.hash env.unicodePrintable (by omega : 1 ≤ nreducers), hR]

/-! ## What is written of a piece -/

/-- The storage answers the download of a piece with bytes that rounding does not run off, and the
map function returns `entries` for the data of the piece. -/
def HasCounts (pieceId : Nat) (stuple : ShardTuple) (entries : List (Str × Int)) : Prop :=
  let begin_ := ofInt32 stuple.startoffset
  let end_ := ofInt32 stuple.endoffset
  ∃ bytes, env.download pieceId stuple.blobname begin_ (end_ - begin_ + extraLen) = some bytes ∧
    Roundable begin_ bytes ∧ env.mapScript (roundedBytes begin_ end_ bytes) = some entries

/-- The sizes of a piece fit in the integers of the worker. -/
def PieceFits (pieceId : Nat) (stuple : ShardTuple) : Prop :=
  let begin_ := ofInt32 stuple.startoffset
  let end_ := ofInt32 stuple.endoffset
  begin_ ≤ end_ ∧ end_ - begin_ < 2 ^ 31 ∧
    ∀ bytes, env.download pieceId stuple.blobname begin_ (end_ - begin_ + extraLen) = some bytes →
      bytes.length < 2 ^ 31

/-- The counts of a piece are in the blobs that the reply names: each is in the blob of the
reducer its key hashes to. -/
def PieceWritten (request : MapperInput) (w : Worker) (blobs : List Str) (pieceId : Nat)
    (stuple : ShardTuple) : Prop :=
  ∃ entries, HasCounts env pieceId stuple entries ∧
    ∀ e ∈ entries, ∃ r < request.npartition.toNat,
      e ∈ entriesFor env.hash env.unicodePrintable request.npartition entries r ∧
      intermediateBlobName w.fullAddress request.shardId pieceId (r : Nat) ∈ blobs ∧
      w.wrkrcontainer (intermediateBlobName w.fullAddress request.shardId pieceId (r : Nat)) =
        some ((entriesFor env.hash env.unicodePrintable request.npartition entries r).flatMap
          (entryLine env.unicodePrintable))

variable {env}

/-- A piece that fits is read as its data. -/
theorem write_partial_data_eq {pieceId : Nat} {stuple : ShardTuple}
    (h : PieceFits env pieceId stuple) {data : Str} :
    writePartialDataToLocalFile (env.download pieceId) stuple.blobname
        (ofInt32 stuple.startoffset) (ofInt32 stuple.endoffset) = some data ↔
      ∃ bytes, env.download pieceId stuple.blobname (ofInt32 stuple.startoffset)
          (ofInt32 stuple.endoffset - ofInt32 stuple.startoffset + extraLen) = some bytes ∧
        Roundable (ofInt32 stuple.startoffset) bytes ∧
        roundedBytes (ofInt32 stuple.startoffset) (ofInt32 stuple.endoffset) bytes = data := by
  obtain ⟨hle, hpiece, hread⟩ := h
  have hlen : sizeAdd (sizeSub (ofInt32 stuple.endoffset) (ofInt32 stuple.startoffset)) extraLen =
      ofInt32 stuple.endoffset - ofInt32 stuple.startoffset + extraLen := by
    rw [size_sub_eq hle (by omega), sizeAdd, Nat.mod_eq_of_lt (by unfold extraLen; omega)]
  simp only [writePartialDataToLocalFile, hlen, Option.bind_eq_bind, Option.bind_eq_some_iff]
  refine exists_congr fun bytes => and_congr_right fun hbytes => ?_
  rw [fix_word_boundary_eq hle hpiece (hread bytes hbytes), rounded_data_eq_some_iff]

/-- The dictionary of a piece that fits. -/
theorem piece_entries_eq_some_iff {pieceId : Nat} {stuple : ShardTuple}
    (h : PieceFits env pieceId stuple) {entries : List (Str × Int)} :
    pieceEntries env pieceId stuple = some entries ↔ HasCounts env pieceId stuple entries := by
  rw [pieceEntries, Option.bind_eq_some_iff]
  simp only [write_partial_data_eq h, HasCounts]
  constructor
  · intro hdata
    obtain ⟨data, ⟨bytes, hbytes, hround, rfl⟩, hentries⟩ := hdata
    exact ⟨bytes, hbytes, hround, hentries⟩
  · intro hbytes
    obtain ⟨bytes, hbytes, hround, hentries⟩ := hbytes
    exact ⟨_, ⟨bytes, hbytes, hround, rfl⟩, hentries⟩

/-- The file of a reducer, of a piece that has a dictionary and no exception set in front of it. -/
theorem map_piece_contents {nreducers : Int} {pieceId : Nat} {stuple : ShardTuple}
    {entries : List (Str × Int)} (hentries : pieceEntries env pieceId stuple = some entries)
    {out : List Str × Bool} (h : mapPiece env nreducers false pieceId stuple = some out) {r : Nat}
    (hr : r < nreducers.toNat) :
    out.1.getD r [] = ((entriesFor env.hash env.unicodePrintable nreducers entries r).map
      longEntry).flatMap (entryLine env.unicodePrintable) := by
  have hR : 1 ≤ nreducers := by omega
  simp only [mapPiece, hentries, stream_dict_eq env.hash env.unicodePrintable hR,
    Bool.false_eq_true, if_false, Option.map_some, Option.some.injEq] at h
  rw [← h]
  simp [hr, entries_for_map_long_entry]

/-- The files of a piece with an exception set in front of it are empty. -/
theorem map_piece_error {nreducers : Int} {pieceId : Nat} {stuple : ShardTuple}
    {out : List Str × Bool} (h : mapPiece env nreducers true pieceId stuple = some out) (r : Nat) :
    out.1.getD r [] = [] := by
  obtain rfl : (openFiles nreducers, false) = out := Option.some.inj h
  rw [openFiles, List.getD_eq_getElem?_getD, List.getElem?_replicate]
  split <;> rfl

section

variable {request : MapperInput} {w : Worker} {t : Serving}
  (hadded : Added ⟨w, [], []⟩ (requestBlobs w.fullAddress request.npartition request.shardId
    (requestContents env request w.errorSet) 0 request.stuples.length) t)
  {i : Nat} {stuple : ShardTuple} (hi : request.stuples[i]? = some stuple)

include hadded hi

/-- The blobs of a piece are named in the reply, with the contents of its files. -/
theorem piece_blob_added {out : List Str × Bool} (hout : mapPiece env request.npartition
      (errorBefore env request w.errorSet i) i stuple = some out)
    {r : Nat} (hr : r < request.npartition.toNat) :
    intermediateBlobName t.worker.fullAddress request.shardId i (r : Nat) ∈ t.blobList ∧
      t.worker.wrkrcontainer (intermediateBlobName t.worker.fullAddress request.shardId i
        (r : Nat)) = some (out.1.getD r []) := by
  have hcontents : requestContents env request w.errorSet i = out.1 := by
    rw [requestContents, hi, Option.bind_some, hout, Option.elim_some]
  have hmem : (intermediateBlobName w.fullAddress request.shardId i (r : Nat),
      (requestContents env request w.errorSet i).getD r []) ∈
      requestBlobs w.fullAddress request.npartition request.shardId
        (requestContents env request w.errorSet) 0 request.stuples.length := by
    obtain ⟨hlen, -⟩ := List.getElem?_eq_some_iff.mp hi
    refine List.mem_flatMap.mpr ⟨i, by simp [List.mem_range']; omega, ?_⟩
    exact List.mem_map.mpr ⟨r, List.mem_range.mpr hr, rfl⟩
  rw [hadded.address, hadded.blobList, hadded.container, ← hcontents]
  refine ⟨?_, put_all_of_mem (request_blobs_nodup ..) hmem⟩
  exact List.mem_append_right _ (List.mem_map_of_mem (f := Prod.fst) hmem)

variable (hdefined : mapPiece env request.npartition (errorBefore env request w.errorSet i) i
    stuple ≠ none) (hfits : PieceFits env i stuple)

include hdefined hfits

/-- The counts of a piece are written if they fit a `long` and no exception is set in front of it.
-/
theorem piece_written {entries : List (Str × Int)} (hentries : HasCounts env i stuple entries)
    (hlong : ∀ e ∈ entries, FitsLong e.2)
    (herror : errorBefore env request w.errorSet i = true → entries = []) :
    PieceWritten env request t.worker t.blobList i stuple := by
  refine ⟨entries, hentries, fun e he => ?_⟩
  have hclear : errorBefore env request w.errorSet i = false := by
    rw [Bool.eq_false_iff]
    exact fun hset => List.ne_nil_of_mem he (herror hset)
  obtain ⟨out, hout⟩ := Option.ne_none_iff_exists'.mp hdefined
  have hread := (piece_entries_eq_some_iff hfits).mpr hentries
  have hR : 1 ≤ request.npartition := by
    by_contra hR
    exact hdefined ((map_piece_eq_none_iff env).mpr
      ⟨hclear, by omega, entries, hread, List.ne_nil_of_mem he⟩)
  have hlt := Nat.mod_lt (env.hash (PyText.repr env.unicodePrintable e.1))
    (by omega : 0 < request.npartition.toNat)
  refine ⟨_, hlt, List.mem_filter.mpr ⟨he, by simp⟩, ?_⟩
  have hadd := piece_blob_added hadded hi hout hlt
  have hkept : ∀ r, (entriesFor env.hash env.unicodePrintable request.npartition entries r).map
      longEntry = entriesFor env.hash env.unicodePrintable request.npartition entries r := fun r =>
    map_long_entry fun e he => hlong e (List.mem_of_mem_filter he)
  rw [hclear] at hout
  rw [map_piece_contents hread hout hlt, hkept] at hadd
  exact hadd

/-- Where the counts of a piece are written, they fit a `long`, and no exception was set in front of
it. -/
theorem fits_long_of_written (hwritten : PieceWritten env request t.worker t.blobList i stuple) :
    ∃ entries, HasCounts env i stuple entries ∧ (∀ e ∈ entries, FitsLong e.2) ∧
      (errorBefore env request w.errorSet i = true → entries = []) := by
  obtain ⟨out, hout⟩ := Option.ne_none_iff_exists'.mp hdefined
  obtain ⟨entries, hentries, hcounts⟩ := hwritten
  have hnil : errorBefore env request w.errorSet i = true → entries = [] := by
    intro hset
    by_contra hne
    obtain ⟨e, he⟩ := List.exists_mem_of_ne_nil entries hne
    obtain ⟨r, hr, her, -, hcontent⟩ := hcounts e he
    rw [(piece_blob_added hadded hi hout hr).2, Option.some.injEq] at hcontent
    rw [hset] at hout
    rw [map_piece_error hout r] at hcontent
    exact entry_lines_ne_nil _ (List.ne_nil_of_mem her) hcontent.symm
  refine ⟨entries, hentries, fun e he => ?_, hnil⟩
  have hclear : errorBefore env request w.errorSet i = false := by
    rw [Bool.eq_false_iff]
    exact fun hset => List.ne_nil_of_mem he (hnil hset)
  obtain ⟨r, hr, her, -, hcontent⟩ := hcounts e he
  rw [(piece_blob_added hadded hi hout hr).2, Option.some.injEq] at hcontent
  rw [hclear] at hout
  rw [map_piece_contents ((piece_entries_eq_some_iff hfits).mpr hentries) hout hr] at hcontent
  exact fits_long_of_entry_lines env.unicodePrintable hcontent e her

end

/-- No exception is set in front of a later piece if the counts fit a `long`, or if there is no
reducer. -/
theorem error_before_eq_false {request : MapperInput} {errorSet : Bool} {i : Nat}
    (h : request.npartition ≤ 0 ∨ ∀ stuple entries, request.stuples[i]? = some stuple →
      pieceEntries env i stuple = some entries → ∀ e ∈ entries, FitsLong e.2) :
    errorBefore env request errorSet (i + 1) = false := by
  rw [Bool.eq_false_iff]
  intro hset
  obtain ⟨stuple, entries, files, hi, hentries, hoverflow, hfiles⟩ := error_before_succ env hset
  rcases h with hR | hlong
  · have hne : entries ≠ [] := by
      rintro rfl
      cases hoverflow
    rw [stream_dict_none env.hash env.unicodePrintable hR hne] at hfiles
    cases hfiles
  · rw [overflows_eq_false_iff.mpr (hlong stuple entries hi hentries)] at hoverflow
    cases hoverflow

variable (env)

/-- A map task that is answered OK has mapped its whole shard, and is not answered OK if some piece
could not be read. -/
def OkIsMapped (request : MapperInput) (w : Worker) : Prop :=
  ∀ outcome w', doWork env request w = some (outcome, w') →
    (∀ containername blobs, outcome = .ok containername blobs →
      ∀ i stuple, request.stuples[i]? = some stuple → PieceWritten env request w' blobs i stuple) ∧
    ((∃ i stuple, request.stuples[i]? = some stuple ∧
        writePartialDataToLocalFile (env.download i) stuple.blobname
          (ofInt32 stuple.startoffset) (ofInt32 stuple.endoffset) = none) →
      ∀ containername blobs, outcome ≠ .ok containername blobs)

/-- Every piece has a dictionary whose counts fit a `long`, and the first has no count if an
exception is set in the interpreter of the worker. -/
def Countable (request : MapperInput) (w : Worker) : Prop :=
  (∀ i stuple, request.stuples[i]? = some stuple →
    ∃ entries, HasCounts env i stuple entries ∧ ∀ e ∈ entries, FitsLong e.2) ∧
  (w.errorSet = true → ∀ stuple entries, request.stuples[0]? = some stuple →
    HasCounts env 0 stuple entries → entries = [])

/-- Some piece has a count to stream, and there is no reducer. -/
def Unstreamable (request : MapperInput) (w : Worker) : Prop :=
  request.npartition ≤ 0 ∧ ∃ i stuple entries, request.stuples[i]? = some stuple ∧
    HasCounts env i stuple entries ∧ entries ≠ [] ∧ (i = 0 → w.errorSet = false)

variable {env}

/-- A request with a count to stream and without a reducer is undefined behaviour. -/
theorem unstreamable_iff {request : MapperInput} {w : Worker}
    (hfits : ∀ i stuple, request.stuples[i]? = some stuple → PieceFits env i stuple) :
    Unstreamable env request w ↔ ∃ i stuple, request.stuples[i]? = some stuple ∧
      mapPiece env request.npartition (errorBefore env request w.errorSet i) i stuple = none := by
  have hfront : request.npartition ≤ 0 → ∀ i,
      errorBefore env request w.errorSet i = false ↔ (i = 0 → w.errorSet = false) := by
    intro hR i
    cases i with
    | zero => simp [errorBefore]
    | succ i => simp [error_before_eq_false (.inl hR)]
  constructor
  · intro hunstreamable
    obtain ⟨hR, i, stuple, entries, hi, hentries, hne, hclear⟩ := hunstreamable
    have hread := (piece_entries_eq_some_iff (hfits i stuple hi)).mpr hentries
    exact ⟨i, stuple, hi, (map_piece_eq_none_iff env).mpr
      ⟨(hfront hR i).mpr hclear, hR, entries, hread, hne⟩⟩
  · intro hnone
    obtain ⟨i, stuple, hi, hnone⟩ := hnone
    obtain ⟨hclear, hR, entries, hentries, hne⟩ := (map_piece_eq_none_iff env).mp hnone
    exact ⟨hR, i, stuple, entries, hi, (piece_entries_eq_some_iff (hfits i stuple hi)).mp hentries,
      hne, (hfront hR i).mp hclear⟩

/-- In front of each piece of a request whose counts fit, no exception is set, unless the first
piece has no count. -/
theorem Countable.error_before {request : MapperInput} {w : Worker}
    (hfits : ∀ i stuple, request.stuples[i]? = some stuple → PieceFits env i stuple)
    (h : Countable env request w) {i : Nat} {stuple : ShardTuple} {entries : List (Str × Int)}
    (hi : request.stuples[i]? = some stuple) (hentries : HasCounts env i stuple entries)
    (hset : errorBefore env request w.errorSet i = true) : entries = [] := by
  cases i with
  | zero => exact h.2 hset stuple entries hi hentries
  | succ i =>
      have hclear : errorBefore env request w.errorSet (i + 1) = false := by
        refine error_before_eq_false (.inr fun stuple entries hi hread => ?_)
        obtain ⟨entries', hentries', hlong⟩ := h.1 i stuple hi
        rw [(piece_entries_eq_some_iff (hfits i stuple hi)).mpr hentries',
          Option.some.injEq] at hread
        exact hread ▸ hlong
      rw [hclear] at hset
      cases hset

variable (env)

/-- A request with a reducer has a reply. -/
theorem map_piece_defined {nreducers : Int} (hR : 1 ≤ nreducers) (errorSet : Bool) (pieceId : Nat)
    (stuple : ShardTuple) : mapPiece env nreducers errorSet pieceId stuple ≠ none := fun hnone => by
  obtain ⟨-, hnone, -⟩ := (map_piece_eq_none_iff env).mp hnone
  omega

/-- Where the sizes of all pieces fit in the integers of the worker, a map task answered OK has
mapped its whole shard exactly if every piece could be read and mapped to counts that fit a `long`,
and no exception was set in front of them. The status never says otherwise: only a request without
reducers but with counts to stream, which is undefined behaviour, has no answer. Whatever the sizes
are, a piece that could not be read or mapped is missing. -/
theorem do_work_maps_iff (request : MapperInput) (w : Worker) :
    ((∀ i stuple, request.stuples[i]? = some stuple → PieceFits env i stuple) →
      (OkIsMapped env request w ↔ Countable env request w ∨ Unstreamable env request w)) ∧
    (1 ≤ request.npartition → OkIsMapped env request w →
      ∀ i stuple, request.stuples[i]? = some stuple →
        ∃ entries, HasCounts env i stuple entries) := by
  refine ⟨fun hfits => ⟨fun hmaps => ?_, fun hcondition outcome w' hrun => ?_⟩,
    fun hR hmaps i stuple hi => ?_⟩
  · rw [unstreamable_iff hfits, or_iff_not_imp_right]
    intro hdefined
    push Not at hdefined
    obtain ⟨t, hrun, hadded, -⟩ := do_work_spec env hdefined
    have hpieces := fun i stuple hi => fits_long_of_written hadded hi (hdefined i stuple hi)
      (hfits i stuple hi) ((hmaps _ _ hrun).1 _ _ rfl i stuple hi)
    refine ⟨fun i stuple hi => ?_, fun hset stuple entries hi hentries => ?_⟩
    · obtain ⟨entries, hentries, hlong, -⟩ := hpieces i stuple hi
      exact ⟨entries, hentries, hlong⟩
    · obtain ⟨entries', hentries', -, hnil⟩ := hpieces 0 stuple hi
      rw [← piece_entries_eq_some_iff (hfits 0 stuple hi)] at hentries hentries'
      rw [hentries', Option.some.injEq] at hentries
      exact hentries ▸ hnil hset
  · have hdefined := do_work_defined env hrun
    have hcount : Countable env request w := by
      refine hcondition.resolve_right fun hnone => ?_
      obtain ⟨i, stuple, hi, hnone⟩ := (unstreamable_iff hfits).mp hnone
      exact hdefined i stuple hi hnone
    obtain ⟨t, hrun', hadded, -⟩ := do_work_spec env hdefined
    rw [hrun', Option.some.injEq, Prod.mk.injEq] at hrun
    obtain ⟨rfl, rfl⟩ := hrun
    constructor
    · intro containername blobs hok i stuple hi
      cases hok
      obtain ⟨entries, hentries, hlong⟩ := hcount.1 i stuple hi
      exact piece_written hadded hi (hdefined i stuple hi) (hfits i stuple hi) hentries hlong
        (hcount.error_before hfits hi hentries)
    · intro hpiece
      obtain ⟨i, stuple, hi, hunread⟩ := hpiece
      obtain ⟨entries, hentries, -⟩ := hcount.1 i stuple hi
      have hread := (piece_entries_eq_some_iff (hfits i stuple hi)).mpr hentries
      rw [pieceEntries, hunread] at hread
      cases hread
  · obtain ⟨t, hrun, -⟩ := do_work_spec env (w := w) fun i stuple _ =>
      map_piece_defined env hR (errorBefore env request w.errorSet i) i stuple
    obtain ⟨entries, hentries, -⟩ := (hmaps _ _ hrun).1 _ _ rfl i stuple hi
    exact ⟨entries, hentries⟩

end

/-- A blob of one word, as the only piece of a shard. -/
theorem do_work_maps_one_word :
    OkIsMapped ⟨fun _ _ _ _ => some ['a'], List.length, fun _ => true, fun c => (mapfunc c).entries⟩
      ⟨2, 0, [⟨['b'], 0, 1⟩]⟩ ⟨['w'], ['c'], fun _ => none, fun _ => none, false⟩ := by
  have hone : ∀ (i : Nat) (stuple : ShardTuple),
      [(⟨['b'], 0, 1⟩ : ShardTuple)][i]? = some stuple → i = 0 ∧ ⟨['b'], 0, 1⟩ = stuple := by
    intro i stuple hi
    simpa [List.getElem?_singleton] using hi
  refine ((do_work_maps_iff _ _ _).1 fun i stuple hi => ?_).mpr (.inl ⟨fun i stuple hi => ?_, ?_⟩)
  · obtain ⟨rfl, rfl⟩ := hone i stuple hi
    exact ⟨by decide, by decide, fun bytes hbytes => by cases hbytes; decide⟩
  · obtain ⟨rfl, rfl⟩ := hone i stuple hi
    exact ⟨[(['a'], 1)], ⟨['a'], rfl, .inl rfl, rfl⟩, by decide⟩
  · intro hset
    cases hset

/-- A shard of one piece whose download fails: the reply is OK and names a blob, which is empty. -/
theorem do_work_unread_piece_ok :
    ∃ w', doWork ⟨fun _ _ _ _ => none, List.length, fun _ => true, fun c => (mapfunc c).entries⟩
        ⟨1, 0, [⟨['b'], 0, 5⟩]⟩ ⟨['w'], ['c'], fun _ => none, fun _ => none, false⟩ =
      some (.ok ['c'] [['i', 'n', 't', '_', 'w', '_', '0', '_', '0', '_', '0']], w') ∧
      writePartialDataToLocalFile (fun _ _ _ => none) ['b'] (ofInt32 0) (ofInt32 5) = none ∧
      w'.wrkrcontainer ['i', 'n', 't', '_', 'w', '_', '0', '_', '0', '_', '0'] = some [] :=
  ⟨_, rfl, rfl, rfl⟩

/-- The end of a piece behind `2 ^ 31` wraps to a negative number: its text is erased, and the reply
is OK. -/
example :
    ∃ w', doWork ⟨fun _ _ _ _ => some ['a'], List.length, fun _ => true,
        fun c => (mapfunc c).entries⟩
        ⟨1, 0, [⟨['b'], 0, -2 ^ 31⟩]⟩ ⟨['w'], ['c'], fun _ => none, fun _ => none, false⟩ =
      some (.ok ['c'] [['i', 'n', 't', '_', 'w', '_', '0', '_', '0', '_', '0']], w') ∧
      w'.wrkrcontainer ['i', 'n', 't', '_', 'w', '_', '0', '_', '0', '_', '0'] = some [] :=
  ⟨_, rfl, rfl⟩

end MapReduce
