import Mathlib.Algebra.Order.BigOperators.Group.List
import Mathlib.Algebra.Order.Ring.Nat
import Mathlib.Data.List.Forall2
import MapReduce.Master.Sharding

/-!
# Sharding is a partition of the input

`make_shards` carries `rem_shard_sz`, the room left in the open shard, from blob to blob. `Fills`
is that bookkeeping without the loop: a whole piece uses the room up and opens a shard of the
full size, a partial piece leaves a smaller room. The loop is shown to tile each blob
(`make_blob_shards_spec`) and to keep `Fills`; grouping then needs `Fills` alone
(`join_shards_bytes`). `make_shards_partition` is the whole statement.
-/

namespace MapReduce

/-! ## The room in the open shard -/

/-- `Fills sz r ps r'`: emitting the pieces `ps` takes the room in the open shard from `r` to
`r'`, for shards of `sz` bytes. -/
def Fills (sz : Nat) : Nat → List ShardInfo → Nat → Prop
  | r, [], r' => r = r'
  | r, p :: ps, r' =>
      if p.isPartial then p.bytes < r ∧ Fills sz (r - p.bytes) ps r'
      else p.bytes = r ∧ Fills sz sz ps r'

/-- `Room sz r`: `r` is a room `make_shards` can be left with between two blobs. -/
def Room (sz r : Nat) : Prop := r ≤ sz ∧ (r = 0 → sz = 0)

/-- `Fills` composes. -/
theorem Fills.append {sz r m r' : Nat} {ps qs : List ShardInfo} (h : Fills sz r ps m)
    (h' : Fills sz m qs r') : Fills sz r (ps ++ qs) r' := by
  induction ps generalizing r with
  | nil =>
      cases h
      exact h'
  | cons p ps ih =>
      simp only [List.cons_append, Fills] at h ⊢
      split at h
      · next hp =>
        rw [if_pos hp]
        exact ⟨h.1, ih h.2⟩
      · next hp =>
        rw [if_neg hp]
        exact ⟨h.1, ih h.2⟩

/-! ## The arithmetic of `size_t` -/

/-- A difference that does not underflow is exact. -/
theorem size_sub_of_le {a b : Nat} (h : b ≤ a) (hword : a - b < 2 ^ 64) :
    sizeSub a b = a - b := by
  unfold sizeSub
  rw [show a + 2 ^ 64 - b = (a - b) + 2 ^ 64 by omega, Nat.add_mod_right,
    Nat.mod_eq_of_lt hword]

/-- A sum that fits in a word is exact. -/
theorem size_add_of_lt {a b : Nat} (h : a + b < 2 ^ 64) : sizeAdd a b = a + b :=
  Nat.mod_eq_of_lt h

/-! ## One blob -/

/-- What the loop over one blob has done when it stops. Either it ended the blob with a whole
piece, or it stopped in front of a last piece that the blob is too short for. -/
structure LoopExit (name : Str) (sz size : Nat) (c : Cursor) (ps : List ShardInfo)
    (c' : Cursor) : Prop where
  named : ∀ p ∈ ps, p.blobName = name
  whole : ∀ p ∈ ps, p.isPartial = false
  tiles : Tiles c.begin_ (ps.map ShardInfo.range) (if size < c'.end_ then c'.begin_ else size)
  fills : Fills sz c.rem ps c'.rem
  room : c'.rem ≤ sz
  ended : ¬ size < c'.end_ → ps ≠ [] ∧ c'.rem = sz
  open_ : size < c'.end_ → c'.end_ = c'.begin_ + c'.rem ∧ c'.begin_ ≤ size ∧
    (c'.begin_ = size → ps = [])

/-- The loop stops, with fuel for every byte of the blob, and leaves what `LoopExit` says. The
room is positive on entry, or else both it and the blob are empty. -/
theorem make_shards_loop_spec {name : Str} {sz size : Nat}
    (hword : ∀ b < size, b + sz < 2 ^ 64) :
    ∀ (fuel : Nat) (c : Cursor), c.end_ = c.begin_ + c.rem → c.rem ≤ sz →
      (c.rem = 0 → size = 0) → c.begin_ ≤ size → size - c.begin_ < fuel →
      ∃ ps c', makeShardsLoop name sz size fuel c = some (ps, c') ∧
        LoopExit name sz size c ps c' := by
  intro fuel
  induction fuel with
  | zero =>
      intro c _ _ _ _ hfuel
      omega
  | succ fuel ih =>
      intro c hend hrem hzero hbegin hfuel
      by_cases hloop : c.end_ ≤ size
      · -- a whole piece: it is exactly as long as the room
        have hfill : ∀ r, Fills sz sz [] r → Fills sz c.rem [⟨name, c.begin_, c.end_, false⟩] r :=
          fun r hr => by simpa [Fills, ShardInfo.bytes, hend] using hr
        by_cases hlast : c.end_ = size
        · refine ⟨[⟨name, c.begin_, c.end_, false⟩], { c with rem := sz }, ?_, ?_⟩
          · simp [makeShardsLoop, hlast]
          · exact {
              named := by simp
              whole := by simp
              tiles := by simpa [hlast, ShardInfo.range] using Tiles.single (by omega)
              fills := hfill sz rfl
              room := Nat.le_refl _
              ended := fun _ => ⟨by simp, rfl⟩
              open_ := fun h => absurd h (by simp [hlast]) }
        · have hlt : c.end_ < size := by omega
          have hpos : 0 < c.rem := Nat.pos_of_ne_zero fun h => by have := hzero h; omega
          have hadd : sizeAdd c.end_ sz = c.end_ + sz := size_add_of_lt (hword c.end_ hlt)
          by_cases hover : size < c.end_ + sz
          · refine ⟨[⟨name, c.begin_, c.end_, false⟩], ⟨c.end_, c.end_ + sz, sz⟩, ?_, ?_⟩
            · simp [makeShardsLoop, hloop, hlast, hadd, hover]
            · exact {
                named := by simp
                whole := by simp
                tiles := by simpa [hover, ShardInfo.range] using Tiles.single (by omega)
                fills := hfill sz rfl
                room := Nat.le_refl _
                ended := fun h => absurd hover h
                open_ := fun _ => ⟨rfl, (Nat.le_of_lt hlt), fun h => absurd h hlast⟩ }
          · obtain ⟨ps, c', hrun, hexit⟩ := ih ⟨c.end_, c.end_ + sz, sz⟩ rfl (Nat.le_refl _)
              (by simp only; omega) (Nat.le_of_lt hlt) (by simp only; omega)
            refine ⟨⟨name, c.begin_, c.end_, false⟩ :: ps, c', ?_, ?_⟩
            · simp [makeShardsLoop, hloop, hlast, hadd, hover, hrun]
            · exact {
                named := by simpa using hexit.named
                whole := by simpa using hexit.whole
                tiles := ⟨rfl, by simp only [ShardInfo.range]; omega, hexit.tiles⟩
                fills := Fills.append (hfill sz rfl) hexit.fills
                room := hexit.room
                ended := fun h => ⟨by simp, (hexit.ended h).2⟩
                open_ := fun h => by
                  obtain ⟨hsum, hle, hempty⟩ := hexit.open_ h
                  refine ⟨hsum, hle, fun hsize => ?_⟩
                  have htiles := hexit.tiles
                  simp only [hempty hsize, h, if_true, List.map_nil, Tiles] at htiles
                  omega }
      · refine ⟨[], c, by simp [makeShardsLoop, hloop], ?_⟩
        exact {
          named := by simp
          whole := by simp
          tiles := by simp [Nat.lt_of_not_le hloop, Tiles]
          fills := rfl
          room := hrem
          ended := fun h => absurd (Nat.lt_of_not_le hloop) h
          open_ := fun _ => ⟨hend, hbegin, fun _ => rfl⟩ }

/-- What `make_shards` emits for one blob: pieces of that blob that tile it, at least one of
them, with the bookkeeping of `Fills`; only an empty blob has an empty partial piece. -/
structure BlobSharded (name : Str) (sz size r : Nat) (ps : List ShardInfo) (r' : Nat) : Prop where
  nonempty : ps ≠ []
  named : ∀ p ∈ ps, p.blobName = name
  tiles : Tiles 0 (ps.map ShardInfo.range) size
  fills : Fills sz r ps r'
  room : Room sz r'
  partial_bytes : ∀ p ∈ ps, p.isPartial = true → 0 < size → 0 < p.bytes
  empty_open : size = 0 → 0 < sz → ∃ p, ps = [p] ∧ p.isPartial = true

/-- On exit from the loop, the bytes left over fit in the room, so the subtraction that follows
does not underflow. -/
theorem LoopExit.no_underflow {name : Str} {sz size : Nat} {c c' : Cursor}
    {ps : List ShardInfo} (h : LoopExit name sz size c ps c') (hopen : size < c'.end_) :
    c'.begin_ ≤ size ∧ size - c'.begin_ < c'.rem := by
  obtain ⟨hsum, hle, _⟩ := h.open_ hopen
  omega

/-- The loop is entered with a room of the open shard. -/
theorem make_shards_loop_enter (name : Str) {fuel sz size r : Nat}
    (hword : ∀ b < size, b + sz < 2 ^ 64) (hroom : Room sz r) (hempty : sz = 0 → size = 0)
    (hfuel : size < fuel) :
    ∃ ps c', makeShardsLoop name sz size fuel (.enter r) = some (ps, c') ∧
      LoopExit name sz size (.enter r) ps c' :=
  make_shards_loop_spec hword fuel (.enter r) (by simp [Cursor.enter]) hroom.1
    (fun h => hempty (hroom.2 h)) (Nat.zero_le _) (by simpa [Cursor.enter] using hfuel)

/-- One blob is cut as `BlobSharded` says. -/
theorem make_blob_shards_spec (name : Str) {fuel sz size r : Nat} (hsz : sz < 2 ^ 64)
    (hword : ∀ b < size, b + sz < 2 ^ 64) (hroom : Room sz r) (hempty : sz = 0 → size = 0)
    (hfuel : size < fuel) :
    ∃ ps r', makeBlobShards fuel sz name size r = some (ps, r') ∧
      BlobSharded name sz size r ps r' := by
  obtain ⟨ps, c, hrun, hexit⟩ := make_shards_loop_enter name hword hroom hempty hfuel
  by_cases hopen : size < c.end_
  · obtain ⟨hle, hlt⟩ := hexit.no_underflow hopen
    have hroom' := hexit.room
    have hsub : sizeSub c.rem (sizeSub size c.begin_) = c.rem - (size - c.begin_) := by
      rw [size_sub_of_le hle (by omega), size_sub_of_le (by omega) (by omega)]
    refine ⟨ps ++ [⟨name, c.begin_, size, true⟩], c.rem - (size - c.begin_), ?_, ?_⟩
    · simp [makeBlobShards, hrun, hopen, hsub]
    · have htiles := hexit.tiles
      rw [if_pos hopen] at htiles
      exact {
        nonempty := by simp
        named := by
          intro p hp
          rcases List.mem_append.mp hp with hp | hp
          · exact hexit.named p hp
          · obtain rfl := List.mem_singleton.mp hp
            rfl
        tiles := by
          rw [List.map_append]
          exact htiles.append (Tiles.single hle)
        fills := hexit.fills.append (by simp [Fills, ShardInfo.bytes, hlt])
        room := ⟨by omega, fun h => by omega⟩
        partial_bytes := by
          intro p hp hpartial hsize
          rcases List.mem_append.mp hp with hp | hp
          · simp [hexit.whole p hp] at hpartial
          · obtain rfl := List.mem_singleton.mp hp
            -- the loop never stops in front of an empty rest of a nonempty blob
            have hne : c.begin_ ≠ size := fun h => by
              have hps := (hexit.open_ hopen).2.2 h
              simp only [hps, List.map_nil, Tiles, Cursor.enter] at htiles
              omega
            simp only [ShardInfo.bytes]
            omega
        empty_open := by
          intro hsize _
          have hps := (hexit.open_ hopen).2.2 (by omega)
          exact ⟨⟨name, c.begin_, size, true⟩, by simp [hps], rfl⟩ }
  · obtain ⟨hne, hrem⟩ := hexit.ended hopen
    refine ⟨ps, c.rem, by simp [makeBlobShards, hrun, hopen], ?_⟩
    have htiles := hexit.tiles
    rw [if_neg hopen] at htiles
    exact {
      nonempty := hne
      named := hexit.named
      tiles := htiles
      fills := hexit.fills
      room := ⟨hexit.room, fun h => by omega⟩
      partial_bytes := by
        intro p hp hpartial
        simp [hexit.whole p hp] at hpartial
      empty_open := by
        intro hsize hpos
        -- a whole piece of an empty blob would fill a room that is not empty
        exfalso
        obtain ⟨p, qs, rfl⟩ := List.exists_cons_of_ne_nil hne
        have hfills := hexit.fills
        have hwhole := hexit.whole p (by simp)
        simp only [Fills, hwhole, Bool.false_eq_true, if_false] at hfills
        have hsum := htiles.sum_eq
        have hr : r ≠ 0 := fun h => by have := hroom.2 h; omega
        simp only [List.map_cons, List.sum_cons, ShardInfo.range, hsize] at hsum
        have hbytes := hfills.1
        simp only [ShardInfo.bytes, Cursor.enter] at hbytes
        omega }

/-! ## The whole listing -/

/-- What a blob must satisfy for `make_shards` to cut it exactly: the offsets stay below `2 ^ 64`,
a shard size of zero is used on empty blobs only, and the fuel lasts for its bytes. -/
structure Cuttable (fuel sz : Nat) (b : Str × Nat) : Prop where
  word : ∀ begin_ < b.2, begin_ + sz < 2 ^ 64
  empty : sz = 0 → b.2 = 0
  fuel : b.2 < fuel

/-- `make_shards` terminates and cuts each blob of the listing in turn. -/
theorem make_shards_from_spec {fuel sz : Nat} (hsz : sz < 2 ^ 64) (items : List ListBlobItem)
    (r : Nat) (hroom : Room sz r) (hcut : ∀ b ∈ blobs items, Cuttable fuel sz b) :
    ∃ perBlob r', makeShardsFrom fuel sz items r = some (perBlob.flatten, r') ∧ Room sz r' ∧
      Fills sz r perBlob.flatten r' ∧
      List.Forall₂ (fun b ps => ∃ r r', BlobSharded b.1 sz b.2 r ps r') (blobs items) perBlob := by
  induction items generalizing r with
  | nil => exact ⟨[], r, rfl, hroom, rfl, .nil⟩
  | cons item items ih =>
      cases item with
      | directory name => exact ih r hroom hcut
      | blob name size =>
          have hb : Cuttable fuel sz (name, size) := hcut _ (by simp [blobs])
          obtain ⟨ps, m, hrun, hblob⟩ :=
            make_blob_shards_spec name hsz hb.word hroom hb.empty hb.fuel
          obtain ⟨perBlob, r', hrest, hroom', hfills, hforall⟩ :=
            ih m hblob.room fun b hmem => hcut b (by simp [blobs, hmem])
          refine ⟨ps :: perBlob, r', ?_, hroom', hblob.fills.append hfills,
            .cons ⟨r, m, hblob⟩ hforall⟩
          simp [makeShardsFrom, hrun, hrest]

/-- More fuel does not change what the loop returns. -/
theorem make_shards_loop_mono {name : Str} {sz size fuel fuel' : Nat} {c : Cursor}
    {result : List ShardInfo × Cursor} (h : makeShardsLoop name sz size fuel c = some result)
    (hle : fuel ≤ fuel') : makeShardsLoop name sz size fuel' c = some result := by
  induction fuel generalizing c fuel' result with
  | zero => simp [makeShardsLoop] at h
  | succ fuel ih =>
      obtain ⟨fuel', rfl⟩ : ∃ n, fuel' = n + 1 := ⟨fuel' - 1, by omega⟩
      simp only [makeShardsLoop, bind] at h ⊢
      split at h
      · next hloop =>
        rw [if_pos hloop]
        split at h
        · next hlast =>
          rw [if_pos hlast]
          exact h
        · next hlast =>
          rw [if_neg hlast]
          split at h
          · next hover =>
            rw [if_pos hover]
            exact h
          · next hover =>
            rw [if_neg hover]
            obtain ⟨rest, hrest, h⟩ := Option.bind_eq_some_iff.mp h
            rw [ih hrest (by omega)]
            exact h
      · next hloop =>
        rw [if_neg hloop]
        exact h

/-- More fuel does not change how a blob is cut. -/
theorem make_blob_shards_mono {name : Str} {sz size fuel fuel' r : Nat}
    {result : List ShardInfo × Nat} (h : makeBlobShards fuel sz name size r = some result)
    (hle : fuel ≤ fuel') : makeBlobShards fuel' sz name size r = some result := by
  unfold makeBlobShards at h ⊢
  obtain ⟨loop, hloop, hrest⟩ := Option.bind_eq_some_iff.mp h
  rw [make_shards_loop_mono hloop hle]
  exact hrest

/-- More fuel does not change what `make_shards` returns. -/
theorem make_shards_from_mono {sz fuel fuel' : Nat} {items : List ListBlobItem} {r : Nat}
    {result : List ShardInfo × Nat} (h : makeShardsFrom fuel sz items r = some result)
    (hle : fuel ≤ fuel') : makeShardsFrom fuel' sz items r = some result := by
  induction items generalizing r result with
  | nil => exact h
  | cons item items ih =>
      cases item with
      | directory name => exact ih h
      | blob name size =>
          simp only [makeShardsFrom, bind, Option.bind_eq_some_iff] at h ⊢
          obtain ⟨blob, hblob, rest, hrest, h⟩ := h
          exact ⟨blob, make_blob_shards_mono hblob hle, rest, ih hrest, h⟩

/-! ## Grouping the pieces -/

section Grouping

variable {p : ShardInfo} {ps : List ShardInfo} {infoSet : List ShardData} {id : Int}

/-- A partial piece joins the open set. -/
theorem join_shards_open (hp : p.isPartial = true) :
    joinShards id infoSet (p :: ps) = joinShards id (infoSet ++ [p.data]) ps := by
  simp [joinShards, hp]

/-- A whole piece closes the open set. -/
theorem join_shards_whole (hp : p.isPartial = false) :
    (joinShards id infoSet (p :: ps)).1 =
      ⟨id + 1, infoSet ++ [p.data]⟩ :: (joinShards (id + 1) [] ps).1 := by
  simp [joinShards, hp, getShardId]

/-- At the end a set that is open becomes the last shard. -/
theorem join_shards_nil :
    (joinShards id infoSet []).1 = if infoSet = [] then [] else [⟨id + 1, infoSet⟩] := by
  cases infoSet <;> simp [joinShards, getShardId]

/-- Grouping keeps the pieces and their order. -/
theorem join_shards_flatten (id : Int) (infoSet : List ShardData) (ps : List ShardInfo) :
    (joinShards id infoSet ps).1.flatMap FileShard.sets = infoSet ++ ps.map ShardInfo.data := by
  induction ps generalizing id infoSet with
  | nil => cases infoSet <;> simp [join_shards_nil]
  | cons p ps ih =>
      cases hp : p.isPartial with
      | true => simp [join_shards_open hp, ih]
      | false => simp [join_shards_whole hp, ih]

/-- The shards are numbered in order, from the counter on. -/
theorem join_shards_id (id : Int) (infoSet : List ShardData) (ps : List ShardInfo) (i : Nat)
    (h : i < (joinShards id infoSet ps).1.length) :
    (joinShards id infoSet ps).1[i].shardId = id + 1 + i := by
  induction ps generalizing id infoSet i with
  | nil =>
      cases infoSet with
      | nil => simp [join_shards_nil] at h
      | cons d ds =>
          obtain rfl : i = 0 := by simpa [join_shards_nil] using h
          simp [join_shards_nil]
  | cons p ps ih =>
      cases hp : p.isPartial with
      | true =>
          simp only [join_shards_open hp] at h ⊢
          exact ih _ _ _ h
      | false =>
          simp only [join_shards_whole hp] at h ⊢
          cases i with
          | zero => simp
          | succ i =>
              rw [List.getElem_cons_succ, ih]
              push_cast
              omega

/-- After the counter has been reset, the ids of the shards are their positions. -/
theorem join_shards_indices (infoSet : List ShardData) (ps : List ShardInfo) :
    IdsAreIndices (joinShards (-1) infoSet ps).1 := by
  intro i hi
  rw [join_shards_id]
  omega

/-- Every shard but the last holds exactly `sz` bytes, and the last at most `sz`. The room `r` is
what the open set leaves of a shard. -/
theorem join_shards_bytes {sz r r' : Nat} (id : Int) (hfills : Fills sz r ps r')
    (hopen : (infoSet.map ShardData.bytes).sum + r = sz) (i : Nat)
    (h : i < (joinShards id infoSet ps).1.length) :
    (joinShards id infoSet ps).1[i].bytes ≤ sz ∧
      (i + 1 < (joinShards id infoSet ps).1.length →
        (joinShards id infoSet ps).1[i].bytes = sz) := by
  induction ps generalizing id infoSet r i with
  | nil =>
      cases infoSet with
      | nil => simp [join_shards_nil] at h
      | cons d ds =>
          obtain rfl : i = 0 := by simpa [join_shards_nil] using h
          simp only [join_shards_nil, reduceCtorEq, if_false, List.getElem_cons_zero,
            FileShard.bytes]
          exact ⟨by omega, fun h => absurd h (by simp)⟩
  | cons p ps ih =>
      have hsum : ((infoSet ++ [p.data]).map ShardData.bytes).sum =
          (infoSet.map ShardData.bytes).sum + p.bytes := by simp
      cases hp : p.isPartial with
      | true =>
          simp only [Fills, hp, if_true] at hfills
          simp only [join_shards_open hp] at h ⊢
          exact ih _ hfills.2 (by omega) _ h
      | false =>
          simp only [Fills, hp, Bool.false_eq_true, if_false] at hfills
          simp only [join_shards_whole hp] at h ⊢
          cases i with
          | zero =>
              simp only [List.getElem_cons_zero, FileShard.bytes]
              exact ⟨by omega, fun _ => by omega⟩
          | succ i =>
              simp only [List.getElem_cons_succ, List.length_cons, Nat.add_lt_add_iff_right]
              exact ih (id + 1) hfills.2 (by simp) i (by simpa using h)

end Grouping

/-! ## The partition -/

/-- The fuel `make_shards` needs: more than the size of every blob. -/
def enoughFuel (items : List ListBlobItem) : Nat := totalSize items + 1

/-- No blob is larger than the total. -/
theorem size_lt_enough_fuel {items : List ListBlobItem} {b : Str × Nat} (h : b ∈ blobs items) :
    b.2 < enoughFuel items :=
  Nat.lt_succ_of_le (List.single_le_sum (by simp) _ (List.mem_map_of_mem h))

/-- Sharding is an exact partition of the input. `make_shards` terminates; the pieces it emits
for each blob start at zero, meet, and end at the size of the blob; `rem_shard_sz` never
underflows; grouping loses and reorders nothing; every shard but the last has exactly `shardSz`
bytes and the last at most that many. -/
theorem make_shards_partition (items : List ListBlobItem) (shardSz : Nat)
    (hsz : 1 ≤ shardSz ∨ ∀ b ∈ blobs items, b.2 = 0) (hsize : shardSz < 2 ^ 64)
    (hword : ∀ b ∈ blobs items, ∀ begin_ < b.2, begin_ + shardSz < 2 ^ 64) :
    ∃ pieces,
      (∀ fuel ≥ enoughFuel items, makeShards fuel shardSz items = some pieces) ∧
      (∃ perBlob, pieces = perBlob.flatten ∧
        List.Forall₂ (fun b ps => ps ≠ [] ∧ (∀ p ∈ ps, p.blobName = b.1) ∧
          Tiles 0 (ps.map ShardInfo.range) b.2) (blobs items) perBlob) ∧
      (∀ fuel before after name size emitted rem loop c,
        enoughFuel items ≤ fuel → items = before ++ .blob name size :: after →
        makeShardsFrom fuel shardSz before shardSz = some (emitted, rem) →
        makeShardsLoop name shardSz size fuel (.enter rem) = some (loop, c) → size < c.end_ →
        c.begin_ ≤ size ∧ size - c.begin_ ≤ c.rem) ∧
      ∀ id, (joinShards id [] pieces).1.flatMap FileShard.sets = pieces.map ShardInfo.data ∧
        ∀ i, (h : i < (joinShards id [] pieces).1.length) →
          (joinShards id [] pieces).1[i].bytes ≤ shardSz ∧
          (i + 1 < (joinShards id [] pieces).1.length →
            (joinShards id [] pieces).1[i].bytes = shardSz) := by
  have hcut : ∀ fuel ≥ enoughFuel items, ∀ b ∈ blobs items, Cuttable fuel shardSz b := by
    intro fuel hfuel b hb
    refine ⟨hword b hb, fun h => ?_, Nat.lt_of_lt_of_le (size_lt_enough_fuel hb) hfuel⟩
    rcases hsz with hsz | hsz
    · omega
    · exact hsz b hb
  have hroom : Room shardSz shardSz := ⟨Nat.le_refl _, id⟩
  obtain ⟨perBlob, rem, hrun, _, hfills, hforall⟩ :=
    make_shards_from_spec hsize items shardSz hroom (hcut _ (Nat.le_refl _))
  refine ⟨perBlob.flatten, ?_, ⟨perBlob, rfl, ?_⟩, ?_, ?_⟩
  · intro fuel hfuel
    simp [makeShards, make_shards_from_mono hrun hfuel]
  · refine List.Forall₂.imp (fun b ps h => ?_) hforall
    obtain ⟨_, _, h⟩ := h
    exact ⟨h.nonempty, h.named, h.tiles⟩
  · rintro fuel before after name size emitted rem loop c hfuel rfl hbefore hloop hopen
    have hb : Cuttable fuel shardSz (name, size) :=
      hcut fuel hfuel _ (by simp [blobs_append, blobs])
    obtain ⟨_, r, hrun', hroom', _⟩ := make_shards_from_spec hsize before shardSz
      hroom fun b hmem => hcut fuel hfuel b (by simp [blobs_append, hmem])
    obtain ⟨rfl, rfl⟩ : _ ∧ rem = r := by simpa using hbefore.symm.trans hrun'
    obtain ⟨_, c', hloop', hexit⟩ :=
      make_shards_loop_enter name hb.word hroom' hb.empty hb.fuel
    obtain ⟨rfl, rfl⟩ : _ ∧ c = c' := by simpa using hloop.symm.trans hloop'
    obtain ⟨hle, hlt⟩ := hexit.no_underflow hopen
    exact ⟨hle, Nat.le_of_lt hlt⟩
  · intro id
    refine ⟨by simpa using join_shards_flatten id [] perBlob.flatten, fun i h => ?_⟩
    exact join_shards_bytes id hfills (by simp) i h

/-- Three bytes, an empty blob and two bytes, in shards of two bytes: the second shard is made of
pieces of all three blobs. -/
theorem make_shards_partition_three_blobs :
    ∃ pieces, makeShards 6 2 [.blob ['a'] 3, .blob ['b'] 0, .directory ['d'], .blob ['c'] 2] =
        some pieces ∧
      (joinShards (-1) [] pieces).1.map FileShard.bytes = [2, 2, 1] ∧
      (joinShards (-1) [] pieces).1.flatMap FileShard.sets = pieces.map ShardInfo.data := by
  obtain ⟨pieces, hrun, _, _, hjoin⟩ := make_shards_partition
    [.blob ['a'] 3, .blob ['b'] 0, .directory ['d'], .blob ['c'] 2] 2
    (Or.inl (by decide)) (by decide) (by decide)
  have hpieces := hrun 6 (by decide)
  refine ⟨pieces, hpieces, ?_, (hjoin (-1)).1⟩
  obtain rfl := Option.some.inj hpieces
  decide

end MapReduce
