import MapReduce.Shuffle
import MapReduce.Wire
import MapReduce.Worker.Pieces
import MapReduce.Worker.ReduceTask

/-!
# What a job computes

A job as its request and its input fix it: the shards, the number of reducers, the blobs of the
container, and the functions every worker of the cluster computes with. From these follow the
dictionary of a piece, the intermediate file of a piece for a reducer, and the output of a reducer
(`Job.output`). None of them mentions a worker, a master or an order of events.

Read `output_counts` first: the outputs hold the counts of all pieces, each word at one reducer.
`output_of_perm` is why the outputs need no order: a reducer sorts its lines.
-/

namespace MapReduce

/-! ## The workers -/

/-- What the workers of a cluster compute with, and the worker that the channel of a client leads
to. -/
structure Workers where
  hash : Str → Nat
  unicodePrintable : Char → Bool
  mapScript : Str → Option (Dict Str Int)
  target : ClientId → Str

namespace Workers

variable (workers : Workers)

/-- `download_range_to_stream` from the container whose blobs are `blobs`. -/
def downloadFrom (blobs : Str → Option Str) (blobname : Str) (offset length : Nat) : Option Str :=
  (blobs blobname).bind fun b => downloadRange b blobname offset length

/-- What a map task meets, where `readable` says for which pieces the storage answers. -/
def mapEnv (blobs : Str → Option Str) (readable : Nat → Bool) : MapEnv where
  download pieceId blobname offset length :=
    if readable pieceId then downloadFrom blobs blobname offset length else none
  hash := workers.hash
  unicodePrintable := workers.unicodePrintable
  mapScript content := (workers.mapScript content).map Dict.entries

/-- The dictionary of a range of the input, empty if the range cannot be mapped. -/
def pieceDict (blobs : Str → Option Str) (d : ShardData) : Dict Str Int :=
  ((writePartialDataToLocalFile (downloadFrom blobs) d.blobName d.begin_ d.end_).bind
    workers.mapScript).getD .empty

/-- The lines of a dictionary for the reducer `j`. -/
def dictFile (nreducers : Int) (dict : Dict Str Int) (j : Nat) : Str :=
  (entriesFor workers.hash workers.unicodePrintable nreducers dict.entries j).flatMap
    (entryLine workers.unicodePrintable)

/-- Where all pieces can be read, the files of a piece hold the lines of its dictionary, and its
counts, if they fit a `long`, leave no exception. -/
theorem map_piece_eq {nreducers : Int} (hR : 1 ≤ nreducers) (blobs : Str → Option Str)
    {readable : Nat → Bool} {i : Nat} (hread : readable i = true) {d : ShardData}
    (hwire : d.toTuple.toData = d)
    (hcounts : ∀ e ∈ (workers.pieceDict blobs d).entries, FitsLong e.2) :
    mapPiece (workers.mapEnv blobs readable) nreducers false i d.toTuple =
      some ((List.range nreducers.toNat).map
        (workers.dictFile nreducers (workers.pieceDict blobs d)), false) := by
  have hdownload : (workers.mapEnv blobs readable).download i = downloadFrom blobs := by
    funext blobname offset length
    exact if_pos hread
  have hentries : pieceEntries (workers.mapEnv blobs readable) i d.toTuple =
      ((writePartialDataToLocalFile (downloadFrom blobs) d.blobName d.begin_ d.end_).bind
        workers.mapScript).map Dict.entries := by
    obtain ⟨hbegin, hend⟩ := to_tuple_to_data_iff.mp hwire
    simp only [pieceEntries, ShardData.toTuple, hdownload, hbegin, hend, Option.map_bind]
    rfl
  unfold mapPiece
  unfold pieceDict at hcounts ⊢
  rw [if_neg Bool.false_ne_true, hentries]
  cases hdict : (writePartialDataToLocalFile (downloadFrom blobs) d.blobName d.begin_ d.end_).bind
      workers.mapScript with
  | none =>
      have hempty : workers.dictFile nreducers .empty = fun _ => [] := rfl
      simp [openFiles, hempty]
  | some dict =>
      rw [hdict, Option.getD_some] at hcounts
      have hstream := stream_dict_eq workers.hash workers.unicodePrintable hR dict.entries
      rw [map_long_entry hcounts] at hstream
      show (streamDict workers.hash workers.unicodePrintable nreducers (openFiles nreducers)
        dict.entries).map (fun files => (files, overflows dict.entries)) = _
      rw [hstream, overflows_eq_false_iff.mpr hcounts]
      rfl

/-- The lines of the files of `dicts`. -/
theorem readlines_dict_files (nreducers : Int) {dicts : List (Dict Str Int)}
    (hkeys : ∀ d ∈ dicts, ∀ k ∈ d.keys, PlainKey workers.unicodePrintable k) (j : Nat) :
    PyText.readlines (dicts.flatMap fun d => workers.dictFile nreducers d j) =
      dicts.flatMap fun d => (entriesFor workers.hash workers.unicodePrintable nreducers d.entries
        j).map (entryLine workers.unicodePrintable) := by
  have hplain : ∀ e ∈ dicts.flatMap (fun d => entriesFor workers.hash workers.unicodePrintable
      nreducers d.entries j), PlainKey workers.unicodePrintable e.1 := by
    intro e he
    obtain ⟨d, hd, he⟩ := List.mem_flatMap.mp he
    exact hkeys d hd e.1 (List.mem_map_of_mem (List.mem_of_mem_filter he))
  have hlines := readlines_entry_lines hplain
  rw [List.flatMap_assoc, List.map_flatMap] at hlines
  exact hlines

/-- The output of a reducer does not depend on the order of its files. -/
theorem output_of_perm (nreducers : Int) {dicts dicts' : List (Dict Str Int)}
    (hperm : dicts.Perm dicts')
    (hkeys : ∀ d ∈ dicts, ∀ k ∈ d.keys, PlainKey workers.unicodePrintable k) (j : Nat) :
    reduceOutput workers.unicodePrintable
        (dicts.flatMap fun d => workers.dictFile nreducers d j) =
      reduceOutput workers.unicodePrintable
        (dicts'.flatMap fun d => workers.dictFile nreducers d j) := by
  have hkeys' : ∀ d ∈ dicts', ∀ k ∈ d.keys, PlainKey workers.unicodePrintable k :=
    fun d hd => hkeys d (hperm.mem_iff.mpr hd)
  have hlines := hperm.flatMap_right fun d => (entriesFor workers.hash workers.unicodePrintable
    nreducers d.entries j).map (entryLine workers.unicodePrintable)
  have hreduce : reducefunc (dicts.flatMap fun d => workers.dictFile nreducers d j) =
      reducefunc (dicts'.flatMap fun d => workers.dictFile nreducers d j) := by
    unfold reducefunc
    rw [workers.readlines_dict_files nreducers hkeys, workers.readlines_dict_files nreducers hkeys',
      sorted_perm hlines]
  unfold reduceOutput
  rw [hreduce]

end Workers

/-! ## The job -/

/-- A job: its workers, the parameters of its request, the blobs of its container and the shards
made of them. The offsets of the shards fit the `int32` fields of the messages, there are no more
shards than mappers, the keys the map function returns are plain, and its counts and their sums fit
a `long`. -/
structure Job extends Workers where
  containername : Str
  nmappers : Int
  nreducers : Int
  input : Str → Option Str
  shards : List FileShard
  ids : IdsAreIndices shards
  pieces : ∀ shard ∈ shards, shard.sets ≠ []
  offsets : ∀ shard ∈ shards, ∀ d ∈ shard.sets, d.begin_ < 2 ^ 31 ∧ d.end_ < 2 ^ 31
  mappers : 1 ≤ nmappers ∧ shards.length ≤ nmappers
  reducers : 1 ≤ nreducers ∧ nreducers < 2 ^ 31
  plain : ∀ shard ∈ shards, ∀ d ∈ shard.sets,
    ∀ k ∈ (toWorkers.pieceDict input d).keys, PlainKey unicodePrintable k
  counts : ∀ shard ∈ shards, ∀ d ∈ shard.sets,
    ∀ e ∈ (toWorkers.pieceDict input d).entries, FitsLong e.2
  sums : ∀ shard ∈ shards, ∀ d ∈ shard.sets, ∀ k ∈ (toWorkers.pieceDict input d).keys,
    FitsLong (shards.flatMap fun shard => shard.sets.map fun d =>
      (toWorkers.pieceDict input d).get k).sum

namespace Job

variable (job : Job)

/-- The dictionaries of the pieces of a shard. -/
def shardDicts (shard : FileShard) : List (Dict Str Int) :=
  shard.sets.map (job.pieceDict job.input)

/-- The dictionaries of all pieces. -/
def dicts : List (Dict Str Int) := job.shards.flatMap job.shardDicts

/-- The intermediate file of a piece for the reducer `j`. -/
def pieceFile (d : ShardData) (j : Nat) : Str :=
  job.dictFile job.nreducers (job.pieceDict job.input d) j

/-- The output of the reducer `j`. -/
def output (j : Nat) : Str :=
  reduceOutput job.unicodePrintable (job.dicts.flatMap fun dict =>
    job.dictFile job.nreducers dict j)

/-- A range of the job survives the messages. -/
theorem wire {shard : FileShard} (hshard : shard ∈ job.shards) {d : ShardData}
    (hd : d ∈ shard.sets) : d.toTuple.toData = d := by
  obtain ⟨hbegin, hend⟩ := job.offsets shard hshard d hd
  exact to_tuple_to_data_iff.mpr ⟨(of_int32_to_int32_iff (by omega)).mpr (Or.inl hbegin),
    (of_int32_to_int32_iff (by omega)).mpr (Or.inl hend)⟩

/-- The keys of the dictionaries are plain. -/
theorem dicts_plain {dict : Dict Str Int} (hdict : dict ∈ job.dicts) {k : Str}
    (hk : k ∈ dict.keys) : PlainKey job.unicodePrintable k := by
  obtain ⟨shard, hshard, hdict⟩ := List.mem_flatMap.mp hdict
  obtain ⟨d, hd, rfl⟩ := List.mem_map.mp hdict
  exact job.plain shard hshard d hd k hk

/-- What the reducers compute from the files of all pieces, in any order: each returns a dictionary
with the sums of the counts of its words. -/
theorem reduce_dicts {dicts : List (Dict Str Int)} (hperm : dicts.Perm job.dicts) (j : Nat) :
    ∃ result,
      reducefunc (dicts.flatMap fun dict => job.dictFile job.nreducers dict j) = some result ∧
      (∀ k, k ∈ result.keys ↔ (∃ d ∈ job.dicts, k ∈ d.keys) ∧
        job.hash (PyText.repr job.unicodePrintable k) % job.nreducers.toNat = j) ∧
      ∀ k ∈ result.keys, result.get k = (job.dicts.map fun d => d.get k).sum := by
  have hplain : ∀ d ∈ dicts, ∀ k ∈ d.keys, PlainKey job.unicodePrintable k :=
    fun d hd k hk => job.dicts_plain (hperm.mem_iff.mp hd) hk
  obtain ⟨result, hresult, hkey, hget⟩ := reduce_files job.hash job.nreducers hplain j
  refine ⟨result, hresult, fun k => ?_, fun k hk => ?_⟩
  · rw [hkey k]
    simp only [hperm.mem_iff]
  · rw [hget k hk, (hperm.map _).sum_eq]

/-- The counts of a reducer fit a `long`. -/
theorem sums_fit {result : Dict Str Int} {j : Nat}
    (hkey : ∀ k, k ∈ result.keys ↔ (∃ d ∈ job.dicts, k ∈ d.keys) ∧
      job.hash (PyText.repr job.unicodePrintable k) % job.nreducers.toNat = j)
    (hget : ∀ k ∈ result.keys, result.get k = (job.dicts.map fun d => d.get k).sum) :
    ∀ e ∈ result.entries, FitsLong e.2 := by
  intro e he
  have hk : e.1 ∈ result.keys := List.mem_map_of_mem he
  obtain ⟨⟨dict, hdict, hmem⟩, -⟩ := (hkey e.1).mp hk
  obtain ⟨shard, hshard, hdict⟩ := List.mem_flatMap.mp hdict
  obtain ⟨d, hd, rfl⟩ := List.mem_map.mp hdict
  have hsum := job.sums shard hshard d hd e.1 hmem
  rw [← result.get_of_mem he, hget e.1 hk, dicts, List.map_flatMap]
  simpa only [shardDicts, List.map_map, Function.comp_def] using hsum

/-- The output of a reducer, from the files of the shards in any order. It leaves no exception. -/
theorem output_eq {shards : List FileShard} (hperm : shards.Perm job.shards) (j : Nat) :
    let content := shards.flatMap fun shard => shard.sets.flatMap fun d => job.pieceFile d j
    reduceOutput job.unicodePrintable content = job.output j ∧ reduceOverflows content = false := by
  have hdicts : (shards.flatMap job.shardDicts).Perm job.dicts :=
    hperm.flatMap_right job.shardDicts
  have hflat : (shards.flatMap fun shard => shard.sets.flatMap fun d => job.pieceFile d j) =
      (shards.flatMap job.shardDicts).flatMap fun dict => job.dictFile job.nreducers dict j := by
    rw [List.flatMap_assoc]
    refine List.flatMap_congr fun shard _ => ?_
    rw [shardDicts, List.flatMap_map]
    rfl
  dsimp only
  rw [hflat]
  constructor
  · refine job.output_of_perm job.nreducers hdicts (fun dict hdict k hk => ?_) j
    exact job.dicts_plain (hdicts.mem_iff.mp hdict) hk
  · obtain ⟨result, hresult, hkey, hget⟩ := job.reduce_dicts hdicts j
    rw [reduceOverflows, hresult, Option.elim_some, overflows_eq_false_iff]
    exact job.sums_fit hkey hget

/-- The outputs hold the counts of all pieces: the output of a reducer has one line for each of
its words, with the sum of the counts of the word, the words are those of the pieces, and no word is
at two reducers. -/
theorem output_counts :
    ∃ result : Nat → Dict Str Int,
      (∀ j, job.output j = (result j).entries.flatMap (entryLine job.unicodePrintable)) ∧
      (∀ i j, i ≠ j → ∀ k ∈ (result i).keys, k ∉ (result j).keys) ∧
      (∀ k, (∃ j < job.nreducers.toNat, k ∈ (result j).keys) ↔ ∃ d ∈ job.dicts, k ∈ d.keys) ∧
      ∀ j, ∀ k ∈ (result j).keys, (result j).get k = (job.dicts.map fun d => d.get k).sum := by
  have hreduce := fun j => job.reduce_dicts (.refl _) j
  choose result hresult hkey hget using hreduce
  refine ⟨result, fun j => ?_, fun i j hne k hi hj => ?_, fun k => ?_, hget⟩
  · rw [output, reduceOutput, hresult j, Option.elim_some, ← List.flatMap_map,
      map_long_entry (job.sums_fit (hkey j) (hget j))]
  · exact hne (((hkey i k).mp hi).2.symm.trans ((hkey j k).mp hj).2)
  · constructor
    · intro hk
      obtain ⟨j, -, hk⟩ := hk
      exact ((hkey j k).mp hk).1
    · intro hk
      have hpos := job.reducers.1
      exact ⟨_, Nat.mod_lt _ (by omega), (hkey _ k).mpr ⟨hk, rfl⟩⟩

end Job

end MapReduce
