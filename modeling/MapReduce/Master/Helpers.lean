import Mathlib.Algebra.Group.Int.Defs
import Mathlib.Algebra.GroupWithZero.Nat
import Mathlib.Data.List.Nodup

/-!
# The records of `helpers.h`

The statuses, results and shard records the master keeps, after `w7/src/master/helpers.h`.
A C++ `int` is an `Int`, a `size_t` is a `Nat` below `2 ^ 64`, and a `std::string` is the list
of its characters.
-/

namespace MapReduce

/-- The characters of a `std::string`. -/
abbrev Str := List Char

/-- `size_t` addition. -/
def sizeAdd (a b : Nat) : Nat := (a + b) % 2 ^ 64

/-- `size_t` subtraction. -/
def sizeSub (a b : Nat) : Nat := (a + 2 ^ 64 - b) % 2 ^ 64

/-- A `size_t` assigned to an `int` or to an `int32` field: the value modulo `2 ^ 32`, read as
signed. -/
def toInt32 (n : Nat) : Int := Int.bmod n (2 ^ 32)

/-- `ReturnStatus`: how an asynchronous call ended. -/
inductive ReturnStatus where
  | failed
  | success
  | timedout
  deriving DecidableEq, Repr

/-- `MapperResult`: the outcome of one map call. -/
structure MapperResult where
  status : ReturnStatus
  shardId : Int
  cname : Str
  isrequeued : Bool
  blobList : List Str
  deriving DecidableEq, Repr

/-- `ReduceResult`: the outcome of one reduce call. -/
structure ReduceResult where
  status : ReturnStatus
  cname : Str
  blobname : Str
  jobid : Int
  isrequeued : Bool
  deriving DecidableEq, Repr

/-- The constructor `ReduceResult (s, b, c, j, x)`. Its first string is the blob name and its
second the container name. -/
def ReduceResult.make (s : ReturnStatus) (b c : Str) (j : Int) (x : Bool) : ReduceResult :=
  { status := s, cname := c, blobname := b, jobid := j, isrequeued := x }

/-- `shard_info`: one piece `make_shards` emits. `isPartial` says the piece ended with its blob
and the shard goes on in the next one. -/
structure ShardInfo where
  blobName : Str
  beginOffset : Nat
  endOffset : Nat
  isPartial : Bool
  deriving DecidableEq, Repr

/-- `ShardData`: the byte range `[begin_, end_)` of a blob. -/
structure ShardData where
  blobName : Str
  begin_ : Nat
  end_ : Nat
  deriving DecidableEq, Repr

/-- `FileShard`: the pieces one map call works on. -/
structure FileShard where
  shardId : Int
  sets : List ShardData
  deriving DecidableEq, Repr

/-- `getShardId`: with `reset` the static counter goes back to `-1`; otherwise it is incremented
and returned. The first component is the returned value, the second the counter. -/
def getShardId (reset : Bool) (id : Int) : Int × Int :=
  if reset then (-1, -1) else (id + 1, id + 1)

/-- The range of a piece as a `ShardData`. -/
def ShardInfo.data (p : ShardInfo) : ShardData := ⟨p.blobName, p.beginOffset, p.endOffset⟩

/-- The range of a piece. -/
def ShardInfo.range (p : ShardInfo) : Nat × Nat := (p.beginOffset, p.endOffset)

/-- The number of bytes of a piece. -/
def ShardInfo.bytes (p : ShardInfo) : Nat := p.endOffset - p.beginOffset

/-- The number of bytes of a range. -/
def ShardData.bytes (d : ShardData) : Nat := d.end_ - d.begin_

/-- The number of bytes of a shard. -/
def FileShard.bytes (s : FileShard) : Nat := (s.sets.map ShardData.bytes).sum

@[simp] theorem ShardInfo.data_bytes (p : ShardInfo) : p.data.bytes = p.bytes := rfl

/-- The ids of the shards are their positions. -/
def IdsAreIndices (shards : List FileShard) : Prop :=
  ∀ i, (h : i < shards.length) → shards[i].shardId = i

instance (shards : List FileShard) : Decidable (IdsAreIndices shards) :=
  inferInstanceAs (Decidable (∀ i, (h : i < shards.length) → _))

/-- Without shards there is no id that could be wrong. -/
theorem IdsAreIndices.nil : IdsAreIndices [] := fun i hi => absurd hi (Nat.not_lt_zero i)

/-- The indices below `n`, as a queue. -/
theorem mem_indices {n : Nat} {i : Int} :
    i ∈ (List.range n).map Int.ofNat ↔ 0 ≤ i ∧ i < n := by
  simp only [List.mem_map, List.mem_range]
  constructor
  · intro hindex
    obtain ⟨k, hk, rfl⟩ := hindex
    exact ⟨Int.natCast_nonneg k, Int.ofNat_lt.mpr hk⟩
  · intro hboth
    obtain ⟨hnonneg, hlt⟩ := hboth
    exact ⟨i.toNat, by omega, Int.toNat_of_nonneg hnonneg⟩

/-- No index is queued twice. -/
theorem nodup_indices (n : Nat) : ((List.range n).map Int.ofNat).Nodup :=
  List.nodup_range.map fun _ _ h => Int.ofNat.inj h

end MapReduce
