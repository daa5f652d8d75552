import MapReduce.Library.Tiling
import MapReduce.Master.State

/-!
# Cutting the input into shards

`DBConnection::calc_shard_sz` and `DBConnection::make_shards` (`w7/src/master/dbconn.h`) and the
grouping loop of `Master::create_sharding_data` (`w7/src/master/masterimpl.cc`). The storage
service is represented by what `list_blobs()` returns. `make_shards` need not terminate, so its
loop takes fuel: `none` means the fuel ran out.

The size of a shard is the exact ceiling of a division here; `MapReduce.Master.FloatShards` adds the
rounding of the `float` the source computes it with.
-/

namespace MapReduce

/-- An item `list_blobs()` yields: `is_blob()` holds for a blob and fails for a directory. -/
inductive ListBlobItem where
  | blob (name : Str) (size : Nat)
  | directory (name : Str)
  deriving DecidableEq, Repr

/-- The blobs of a listing, with their sizes. -/
def blobs : List ListBlobItem → List (Str × Nat)
  | [] => []
  | .blob name size :: items => (name, size) :: blobs items
  | .directory _ :: items => blobs items

/-- The blobs of a concatenation. -/
theorem blobs_append (items items' : List ListBlobItem) :
    blobs (items ++ items') = blobs items ++ blobs items' := by
  induction items with
  | nil => rfl
  | cons item items ih => cases item <;> simp [blobs, ih]

/-- The total size of the blobs of a listing. -/
def totalSize (items : List ListBlobItem) : Nat := ((blobs items).map Prod.snd).sum

/-- `calc_shard_sz`: the total size over the number of shards, rounded up. The division is
defined for a positive number of shards only. -/
def calcShardSz (items : List ListBlobItem) (nshards : Int) : Option Nat :=
  if nshards ≤ 0 then none
  else some ((totalSize items + nshards.toNat - 1) / nshards.toNat)

/-- The variables of the loop of `make_shards` over one blob. -/
structure Cursor where
  begin_ : Nat
  end_ : Nat
  rem : Nat
  deriving DecidableEq, Repr

/-- The `while (end <= blob_sz)` loop of `make_shards`: the pieces it emits and its variables on
exit. -/
def makeShardsLoop (name : Str) (shardSz blobSz : Nat) :
    Nat → Cursor → Option (List ShardInfo × Cursor)
  | 0, _ => none
  | fuel + 1, c =>
      if c.end_ ≤ blobSz then
        let piece : ShardInfo := ⟨name, c.begin_, c.end_, false⟩
        if c.end_ = blobSz then some ([piece], { c with rem := shardSz })
        else
          let next : Cursor := ⟨c.end_, sizeAdd c.end_ shardSz, shardSz⟩
          if next.end_ > blobSz then some ([piece], next)
          else do
            let (pieces, last) ← makeShardsLoop name shardSz blobSz fuel next
            some (piece :: pieces, last)
      else some ([], c)

/-- The loop on entry to a blob: the first piece is as long as the open shard allows. -/
def Cursor.enter (rem : Nat) : Cursor := ⟨0, rem, rem⟩

/-- The body of `make_shards` for one blob: the pieces it emits and `rem_shard_sz` after it. -/
def makeBlobShards (fuel shardSz : Nat) (name : Str) (blobSz rem : Nat) :
    Option (List ShardInfo × Nat) := do
  let (pieces, c) ← makeShardsLoop name shardSz blobSz fuel (.enter rem)
  if c.end_ > blobSz then
    some (pieces ++ [⟨name, c.begin_, blobSz, true⟩],
      sizeSub c.rem (sizeSub blobSz c.begin_))
  else some (pieces, c.rem)

/-- `make_shards` from a given `rem_shard_sz` on. -/
def makeShardsFrom (fuel shardSz : Nat) :
    List ListBlobItem → Nat → Option (List ShardInfo × Nat)
  | [], rem => some ([], rem)
  | .directory _ :: items, rem => makeShardsFrom fuel shardSz items rem
  | .blob name size :: items, rem => do
      let (pieces, rem) ← makeBlobShards fuel shardSz name size rem
      let (rest, rem) ← makeShardsFrom fuel shardSz items rem
      some (pieces ++ rest, rem)

/-- `make_shards`: the list of pieces it leaves in `shard_list`. -/
def makeShards (fuel shardSz : Nat) (items : List ListBlobItem) : Option (List ShardInfo) :=
  (makeShardsFrom fuel shardSz items shardSz).map Prod.fst

/-- The loop of `create_sharding_data` that joins partial pieces into one `FileShard`, with the
open set `infoSet` and the static counter `id`. The shards and the counter are returned. -/
def joinShards : Int → List ShardData → List ShardInfo → List FileShard × Int
  | id, infoSet, [] =>
      if infoSet.length > 0 then
        let (sid, id) := getShardId false id
        ([⟨sid, infoSet⟩], id)
      else ([], id)
  | id, infoSet, item :: rest =>
      if item.isPartial then joinShards id (infoSet ++ [item.data]) rest
      else
        let (sid, id) := getShardId false id
        let (shards, id) := joinShards id [] rest
        (⟨sid, infoSet ++ [item.data]⟩ :: shards, id)

/-- `create_sharding_data` with the listing of the connected container, if there is one. -/
def createShardingData (fuel : Nat) (db : Option (List ListBlobItem)) (m : Master) :
    Option Master :=
  match db with
  | none => some { m with shards := [] }
  | some items => do
      let shardsz ← calcShardSz items m.nmappers
      let pieces ← makeShards fuel shardsz items
      let (_, id) := getShardId true m.shardCounter
      let (shards, id) := joinShards id [] pieces
      some { m with shardsz := shardsz, shards := shards, shardCounter := id }

end MapReduce
