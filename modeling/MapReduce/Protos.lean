import MapReduce.Master.Helpers

/-!
# The messages

The messages of `w7/src/protos/mr.proto` that masters and workers exchange, with the fields the
two ends read or write.
-/

namespace MapReduce

/-- An `int32` field assigned to a `size_t`: the value modulo `2 ^ 64`. -/
def ofInt32 (i : Int) : Nat := (i % 2 ^ 64).toNat

/-- The sizes an `int32` field carries unchanged. -/
theorem of_int32_to_int32_iff {n : Nat} (hn : n < 2 ^ 64) :
    ofInt32 (toInt32 n) = n ↔ n < 2 ^ 31 ∨ 2 ^ 64 - 2 ^ 31 ≤ n := by
  unfold ofInt32 toInt32
  rw [Int.bmod_def]
  omega

/-- `ShardTuple`: a byte range of a blob, in a message. -/
structure ShardTuple where
  blobname : Str
  startoffset : Int
  endoffset : Int
  deriving DecidableEq, Repr

/-- `FileShardSet`: a shard, in a checkpoint. -/
structure FileShardSet where
  shardId : Int
  stuples : List ShardTuple
  deriving DecidableEq, Repr

/-- `JobStatus`: a completed map task, in a checkpoint. -/
structure JobStatus where
  shardId : Int
  intContainer : Str
  blobList : List Str
  deriving DecidableEq, Repr

/-- `ReduceJobStatus`: a completed reduce task, in a checkpoint. -/
structure ReduceJobStatus where
  jobid : Int
  outContainer : Str
  deriving DecidableEq, Repr

/-- `CheckPointData`. -/
structure CheckPointData where
  reqId : Int
  nMappers : Int
  nReducers : Int
  inContainer : Str
  shardList : List FileShardSet
  jobList : List JobStatus
  reduceJobList : List ReduceJobStatus
  deriving DecidableEq, Repr

/-- `MapperInput`: the request of a map task. -/
structure MapperInput where
  npartition : Int
  shardId : Int
  stuples : List ShardTuple
  deriving DecidableEq, Repr

/-- How a map call ends: an `IntermediateResult`, or a status with an error code. -/
inductive MapOutcome where
  | ok (containername : Str) (blobs : List Str)
  | error (code : Nat)
  deriving DecidableEq, Repr

end MapReduce
