import Mathlib.Algebra.Order.Group.Nat
import Mathlib.Algebra.Order.Floor.Div
import Mathlib.Tactic.Linarith
import MapReduce.Master.ShardPartition

/-!
# How many shards there are

`create_sharding_data` asks for shards of the total size over the number of mappers, rounded up.
`create_sharding_data_spec` counts what it gets: one shard for each whole multiple of the shard
size, and one more when bytes are left over or when the listing ends with an empty blob, whose
empty piece opens a shard of its own. The dispatcher waits for as many results as there are
mappers; `create_sharding_data_count` says when the two numbers agree.
-/

namespace MapReduce

/-! ## Counting the groups -/

/-- Whether a set is open after the pieces `ps`, if `b` says whether one was open before them. -/
def openAfter (b : Bool) (ps : List ShardInfo) : Bool :=
  ps.foldl (fun _ p => p.isPartial) b

/-- The number of whole pieces. -/
def wholePieces (ps : List ShardInfo) : Nat := ps.countP fun p => !p.isPartial

/-- Every whole piece closes a shard, and a set left open is one more. -/
theorem join_shards_length (id : Int) (infoSet : List ShardData) (ps : List ShardInfo) :
    (joinShards id infoSet ps).1.length =
      wholePieces ps + if openAfter (!infoSet.isEmpty) ps then 1 else 0 := by
  induction ps generalizing id infoSet with
  | nil => cases infoSet <;> simp [join_shards_nil, wholePieces, openAfter]
  | cons p ps ih =>
      cases hp : p.isPartial with
      | true =>
          have hopen : (infoSet ++ [p.data]).isEmpty = false := by cases infoSet <;> rfl
          rw [join_shards_open hp, ih, hopen]
          simp [wholePieces, openAfter, hp]
      | false =>
          rw [join_shards_whole hp, List.length_cons, ih]
          simp [wholePieces, openAfter, hp]
          omega

/-- The bytes of the pieces and the room left make up the whole shards and the room before. -/
theorem Fills.sum_bytes {sz r r' : Nat} {ps : List ShardInfo} (h : Fills sz r ps r') :
    (ps.map ShardInfo.bytes).sum + r' = wholePieces ps * sz + r := by
  induction ps generalizing r with
  | nil =>
      cases h
      simp [wholePieces]
  | cons p ps ih =>
      simp only [Fills] at h
      cases hp : p.isPartial with
      | true =>
          simp only [hp, if_true] at h
          have hrest := ih h.2
          simp only [wholePieces, List.countP_cons, hp, List.map_cons, List.sum_cons] at hrest ⊢
          simp only [Bool.not_true, Bool.false_eq_true, if_false, Nat.add_zero]
          omega
      | false =>
          simp only [hp, Bool.false_eq_true, if_false] at h
          have hrest := ih h.2
          simp only [wholePieces, List.countP_cons, hp, List.map_cons, List.sum_cons] at hrest ⊢
          simp only [Bool.not_false, if_true, Nat.add_mul, Nat.one_mul]
          omega

/-- The pieces of one blob add up to its size. -/
theorem BlobSharded.sum_bytes {name : Str} {sz size r r' : Nat} {ps : List ShardInfo}
    (h : BlobSharded name sz size r ps r') : (ps.map ShardInfo.bytes).sum = size := by
  have hsum := h.tiles.sum_eq
  rw [List.map_map, Nat.zero_add] at hsum
  exact hsum

/-- A piece that ends with a partial piece leaves a room smaller by its bytes. -/
theorem Fills.last_open {sz r r' : Nat} {ps : List ShardInfo} {p : ShardInfo} (hr : r ≤ sz)
    (h : Fills sz r (ps ++ [p]) r') (hp : p.isPartial = true) : r' + p.bytes ≤ sz := by
  induction ps generalizing r with
  | nil =>
      simp only [List.nil_append, Fills, hp, if_true] at h
      omega
  | cons q ps ih =>
      simp only [List.cons_append, Fills] at h
      split at h
      · exact ih (by omega) h.2
      · exact ih (Nat.le_refl _) h.2

/-- A piece that ends with a whole piece leaves the room of a full shard. -/
theorem Fills.last_whole {sz r r' : Nat} {ps : List ShardInfo} {p : ShardInfo}
    (h : Fills sz r (ps ++ [p]) r') (hp : p.isPartial = false) : r' = sz := by
  induction ps generalizing r with
  | nil =>
      simp only [List.nil_append, Fills, hp, Bool.false_eq_true, if_false] at h
      exact h.2.symm
  | cons q ps ih =>
      simp only [List.cons_append, Fills] at h
      split at h
      · exact ih h.2
      · exact ih h.2

/-- After a blob a set is open exactly when the room is not that of a full shard, or when the
blob is empty. -/
theorem BlobSharded.open_iff {name : Str} {sz size r r' : Nat} {ps : List ShardInfo}
    (h : BlobSharded name sz size r ps r') (hsz : 0 < sz) (hr : r ≤ sz) (b : Bool) :
    openAfter b ps = true ↔ r' ≠ sz ∨ size = 0 := by
  obtain ⟨qs, p, rfl⟩ := List.eq_nil_or_concat' ps |>.resolve_left h.nonempty
  have hlast : openAfter b (qs ++ [p]) = p.isPartial := by simp [openAfter]
  rw [hlast]
  have hfills := h.fills
  constructor
  · intro hp
    have hroom := hfills.last_open hr hp
    by_cases hsize : size = 0
    · exact Or.inr hsize
    · have hbytes := h.partial_bytes p (by simp) hp (by omega)
      exact Or.inl (by omega)
  · rintro (hne | hsize)
    · cases hp : p.isPartial with
      | true => rfl
      | false => exact absurd (hfills.last_whole hp) hne
    · obtain ⟨q, hq, hpartial⟩ := h.empty_open hsize hsz
      obtain ⟨rfl, rfl⟩ : qs = [] ∧ p = q := by
        cases qs with
        | nil => exact ⟨rfl, by simpa using hq⟩
        | cons a qs => simp at hq
      exact hpartial

/-! ## Counting the shards of a listing -/

/-- The listing ends with an empty blob. -/
def LastBlobEmpty (items : List ListBlobItem) : Prop :=
  (blobs items).getLast?.map Prod.snd = some 0

instance (items : List ListBlobItem) : Decidable (LastBlobEmpty items) :=
  inferInstanceAs (Decidable (_ = _))

/-- The pieces of a listing add up to its total size, and a set is left open exactly when the
room is not that of a full shard or the listing ends with an empty blob. The proposition `e`
says whether the blob before the listing was empty. -/
theorem make_shards_from_count {fuel sz : Nat} (hsz : sz < 2 ^ 64) (hpos : 0 < sz)
    (items : List ListBlobItem) (r : Nat) (b : Bool) (e : Prop) (hroom : Room sz r)
    (hb : b = true ↔ r ≠ sz ∨ e) (hcut : ∀ b ∈ blobs items, Cuttable fuel sz b) :
    ∃ ps r', makeShardsFrom fuel sz items r = some (ps, r') ∧ Room sz r' ∧ Fills sz r ps r' ∧
      (ps.map ShardInfo.bytes).sum = totalSize items ∧
      (openAfter b ps = true ↔
        r' ≠ sz ∨ if blobs items = [] then e else LastBlobEmpty items) := by
  induction items generalizing r b e with
  | nil => exact ⟨[], r, rfl, hroom, rfl, rfl, hb⟩
  | cons item items ih =>
      cases item with
      | directory name => exact ih r b e hroom hb hcut
      | blob name size =>
          have hhead : Cuttable fuel sz (name, size) := hcut _ (by simp [blobs])
          obtain ⟨ps, m, hrun, hblob⟩ :=
            make_blob_shards_spec name hsz hhead.word hroom hhead.empty hhead.fuel
          obtain ⟨qs, r', hrest, hroom', hfills, hsum, hopen⟩ :=
            ih m (openAfter b ps) (size = 0) hblob.room (hblob.open_iff hpos hroom.1 b)
              fun b hmem => hcut b (by simp [blobs, hmem])
          refine ⟨ps ++ qs, r', by simp [makeShardsFrom, hrun, hrest], hroom',
            hblob.fills.append hfills, ?_, ?_⟩
          · rw [List.map_append, List.sum_append, hblob.sum_bytes, hsum]
            simp [totalSize, blobs]
          · have happend : openAfter b (ps ++ qs) = openAfter (openAfter b ps) qs := by
              simp [openAfter]
            rw [happend, hopen]
            cases hbs : blobs items with
            | nil => simp [LastBlobEmpty, blobs, hbs]
            | cons c cs => simp [LastBlobEmpty, blobs, hbs, List.getLast?_cons_cons]

/-- With a shard size of zero every blob, being empty, is one whole piece. -/
theorem make_shards_from_empty {fuel : Nat} (items : List ListBlobItem)
    (hempty : ∀ b ∈ blobs items, b.2 = 0) (hfuel : 0 < fuel) :
    makeShardsFrom fuel 0 items 0 =
      some ((blobs items).map fun b => ⟨b.1, 0, 0, false⟩, 0) := by
  obtain ⟨fuel, rfl⟩ : ∃ n, fuel = n + 1 := ⟨fuel - 1, by omega⟩
  induction items with
  | nil => rfl
  | cons item items ih =>
      cases item with
      | directory name => exact ih hempty
      | blob name size =>
          obtain rfl : size = 0 := hempty (name, size) (by simp [blobs])
          have hrest := ih fun b hb => hempty b (by simp [blobs, hb])
          simp [makeShardsFrom, makeBlobShards, makeShardsLoop, Cursor.enter, hrest, blobs]

/-- The number of shards of `sz` bytes that the sharder makes of a listing. -/
def shardCount (items : List ListBlobItem) (sz : Nat) : Nat :=
  if sz = 0 then (blobs items).length
  else totalSize items / sz +
    if totalSize items % sz ≠ 0 ∨ LastBlobEmpty items then 1 else 0

/-- `make_shards` and the grouping loop make `shardCount` shards. -/
theorem make_shards_count {items : List ListBlobItem} {sz : Nat} (hsize : sz < 2 ^ 64)
    (hempty : sz = 0 → totalSize items = 0)
    (hword : ∀ b ∈ blobs items, ∀ begin_ < b.2, begin_ + sz < 2 ^ 64) :
    ∃ pieces, (∀ fuel ≥ enoughFuel items, makeShards fuel sz items = some pieces) ∧
      ∀ id, (joinShards id [] pieces).1.length = shardCount items sz := by
  have hzero : sz = 0 → ∀ b ∈ blobs items, b.2 = 0 := fun h b hb => by
    have hb := List.single_le_sum (by simp) _ (List.mem_map_of_mem (f := Prod.snd) hb)
    have htotal := hempty h
    simp only [totalSize] at htotal
    omega
  by_cases hsz : sz = 0
  · subst hsz
    refine ⟨(blobs items).map fun b => ⟨b.1, 0, 0, false⟩, fun fuel hfuel => ?_, fun id => ?_⟩
    · have hpos : 0 < fuel := Nat.lt_of_lt_of_le (Nat.succ_pos _) hfuel
      simp [makeShards, make_shards_from_empty items (hzero rfl) hpos]
    · rw [join_shards_length]
      have hwhole : ∀ bs : List (Str × Nat),
          openAfter false (bs.map fun b => ⟨b.1, 0, 0, false⟩) = false := by
        intro bs
        induction bs with
        | nil => rfl
        | cons b bs ih => exact ih
      simp [wholePieces, shardCount, hwhole, List.countP_map, Function.comp_def]
  · have hpos : 0 < sz := Nat.pos_of_ne_zero hsz
    have hcut : ∀ b ∈ blobs items, Cuttable (enoughFuel items) sz b := fun b hb =>
      ⟨hword b hb, fun h => absurd h hsz, size_lt_enough_fuel hb⟩
    obtain ⟨ps, r, hrun, hroom, hfills, hsum, hopen⟩ :=
      make_shards_from_count hsize hpos items sz false False ⟨Nat.le_refl _, id⟩ (by simp) hcut
    refine ⟨ps, fun fuel hfuel => by simp [makeShards, make_shards_from_mono hrun hfuel], ?_⟩
    intro id
    -- the room left is what the total lacks to the next multiple of the shard size
    have hbytes := hfills.sum_bytes
    rw [hsum] at hbytes
    have hr : 0 < r := Nat.pos_of_ne_zero fun h => hsz (hroom.2 h)
    have hdiv : totalSize items = wholePieces ps * sz + (sz - r) := by
      have := hroom.1
      omega
    have hquot : totalSize items / sz = wholePieces ps := by
      rw [hdiv, Nat.mul_comm, Nat.mul_add_div hpos, Nat.div_eq_of_lt (by omega), Nat.add_zero]
    have hmod : totalSize items % sz = sz - r := by
      rw [hdiv, Nat.mul_comm, Nat.mul_add_mod, Nat.mod_eq_of_lt (by omega)]
    have hopen' : openAfter false ps = true ↔
        totalSize items % sz ≠ 0 ∨ LastBlobEmpty items := by
      rw [hopen, hmod]
      have hrle := hroom.1
      have hroom_iff : r ≠ sz ↔ sz - r ≠ 0 := by omega
      by_cases hbs : blobs items = []
      · simp [hbs, LastBlobEmpty, hroom_iff]
      · simp [hbs, hroom_iff]
    rw [join_shards_length, shardCount, if_neg hsz, hquot]
    simp only [List.isEmpty_nil, Bool.not_true, hopen']

/-! ## The number of mappers asked for -/

/-- A container of the storage account, as `list_blobs()` lists it. A storage account holds less
than `2 ^ 63` bytes, so the offsets `make_shards` computes stay below `2 ^ 64`. -/
structure Container where
  items : List ListBlobItem
  capacity : totalSize items < 2 ^ 63

/-- The size `calc_shard_sz` gives a shard, for a positive number of shards. -/
def shardSize (total n : Nat) : Nat := (total + n - 1) / n

/-- The shard size is the least one for which `n` shards hold the total. -/
theorem shard_size_le_iff {total n c : Nat} (hn : 0 < n) :
    shardSize total n ≤ c ↔ total ≤ n * c := by
  rw [shardSize, ← Nat.ceilDiv_eq_add_pred_div]
  exact ceilDiv_le_iff_le_mul hn

/-- If the number of shards divides the total, no byte of the shards is unused. -/
theorem mul_shard_size_of_dvd {total n : Nat} (hn : 0 < n) (h : n ∣ total) :
    n * shardSize total n = total := by
  obtain ⟨d, rfl⟩ := h
  have hle : shardSize (n * d) n ≤ d := (shard_size_le_iff hn).mpr (Nat.le_refl _)
  have hge : n * d ≤ n * shardSize (n * d) n := (shard_size_le_iff hn).mp (Nat.le_refl _)
  have hd : d ≤ shardSize (n * d) n := Nat.le_of_mul_le_mul_left hge hn
  rw [Nat.le_antisymm hle hd]

/-- `create_sharding_data` terminates on a connected container and makes `shardCount` shards,
numbered from zero. Nothing else of the master changes. -/
theorem create_sharding_data_spec (k : Container) (m : Master) (hn : 1 ≤ m.nmappers) :
    ∃ shards id,
      (∀ fuel ≥ enoughFuel k.items, createShardingData fuel (some k.items) m =
        some { m with
          shardsz := shardSize (totalSize k.items) m.nmappers.toNat
          shards := shards
          shardCounter := id }) ∧
      shards.length = shardCount k.items (shardSize (totalSize k.items) m.nmappers.toNat) ∧
      IdsAreIndices shards := by
  have hpos : 0 < m.nmappers.toNat := by omega
  have hsize : shardSize (totalSize k.items) m.nmappers.toNat ≤ totalSize k.items :=
    (shard_size_le_iff hpos).mpr (Nat.le_mul_of_pos_left _ hpos)
  have hcapacity := k.capacity
  have hempty : shardSize (totalSize k.items) m.nmappers.toNat = 0 → totalSize k.items = 0 := by
    intro h
    have hle := (shard_size_le_iff (c := 0) hpos).mp (Nat.le_of_eq h)
    omega
  have hword : ∀ b ∈ blobs k.items, ∀ begin_ < b.2,
      begin_ + shardSize (totalSize k.items) m.nmappers.toNat < 2 ^ 64 := by
    intro b hb begin_ hlt
    have hblob := size_lt_enough_fuel hb
    simp only [enoughFuel] at hblob
    omega
  obtain ⟨pieces, hrun, hcount⟩ := make_shards_count (by omega) hempty hword
  refine ⟨(joinShards (-1) [] pieces).1, (joinShards (-1) [] pieces).2, ?_, hcount (-1),
    join_shards_indices [] pieces⟩
  intro fuel hfuel
  have hcalc : calcShardSz k.items m.nmappers =
      some (shardSize (totalSize k.items) m.nmappers.toNat) := by
    rw [calcShardSz, if_neg (by omega)]
    rfl
  simp [createShardingData, hcalc, hrun fuel hfuel, getShardId]

section Arithmetic

variable {items : List ListBlobItem} {n : Nat}

/-- A product is the total exactly when the division has no rest and this quotient. -/
theorem mul_eq_total_iff {total c k : Nat} (hc : 0 < c) :
    k * c = total ↔ total % c = 0 ∧ total / c = k := by
  constructor
  · rintro rfl
    exact ⟨Nat.mul_mod_left k c, Nat.mul_div_cancel k hc⟩
  · intro hboth
    obtain ⟨hmod, rfl⟩ := hboth
    exact Nat.div_mul_cancel (Nat.dvd_of_mod_eq_zero hmod)

/-- Parts that are as many as fit into the total leave no rest. -/
theorem mod_eq_zero_of_div_eq {total c : Nat} (hle : total ≤ n * c) (h : total / c = n) :
    total % c = 0 := by
  have hdiv := Nat.div_add_mod total c
  rw [h, Nat.mul_comm] at hdiv
  omega

/-- The shard size is positive and divides the total into at most `n` parts. The number of
shards divides the total exactly when there are `n` parts and no rest. -/
theorem shard_size_div (hn : 0 < n) {total : Nat} (htotal : 1 ≤ total) :
    0 < shardSize total n ∧ total ≤ n * shardSize total n ∧
      (n ∣ total ↔ total % shardSize total n = 0 ∧ total / shardSize total n = n) := by
  have hle : total ≤ n * shardSize total n := (shard_size_le_iff hn).mp (Nat.le_refl _)
  have hpos : 0 < shardSize total n := Nat.pos_of_ne_zero fun h => by
    rw [h, Nat.mul_zero] at hle
    omega
  refine ⟨hpos, hle, ?_⟩
  rw [← mul_eq_total_iff hpos]
  constructor
  · exact mul_shard_size_of_dvd hn
  · intro h
    exact ⟨_, h.symm⟩

/-- The sharder makes exactly `n` shards when `n - 1` shards are too few for the bytes and no
empty piece is left over behind `n` full ones, or when `n - 1` shards hold all bytes and an empty
piece is left over. -/
theorem shard_count_eq_iff (hn : 0 < n) (htotal : 1 ≤ totalSize items) :
    shardCount items (shardSize (totalSize items) n) = n ↔
      ((n - 1) * shardSize (totalSize items) n < totalSize items ∧
        ¬ (n ∣ totalSize items ∧ LastBlobEmpty items)) ∨
      ((n - 1) * shardSize (totalSize items) n = totalSize items ∧ LastBlobEmpty items) := by
  obtain ⟨hpos, hle, hdvd⟩ := shard_size_div hn htotal
  generalize shardSize (totalSize items) n = c at hpos hle hdvd ⊢
  have hquot : n - 1 ≤ totalSize items / c ↔ (n - 1) * c ≤ totalSize items :=
    Nat.le_div_iff_mul_le hpos
  have hquot' : totalSize items / c ≤ n :=
    Nat.div_le_of_le_mul (by rwa [Nat.mul_comm])
  have hexact : (n - 1) * c = totalSize items ↔ _ := mul_eq_total_iff hpos
  have hfull : totalSize items / c = n → totalSize items % c = 0 := mod_eq_zero_of_div_eq hle
  rw [shardCount, if_neg (by omega), hdvd]
  by_cases hlast : LastBlobEmpty items
  · simp only [hlast, or_true, if_true, and_true]
    omega
  · simp only [hlast, or_false, and_false, not_false_eq_true, and_true]
    split <;> omega

/-- The sharder makes at most `n` shards, unless an empty piece is left over behind `n` full
ones. -/
theorem shard_count_le_iff (hn : 0 < n) (htotal : 1 ≤ totalSize items) :
    shardCount items (shardSize (totalSize items) n) ≤ n ↔
      ¬ (n ∣ totalSize items ∧ LastBlobEmpty items) := by
  obtain ⟨hpos, hle, hdvd⟩ := shard_size_div hn htotal
  generalize shardSize (totalSize items) n = c at hpos hle hdvd ⊢
  have hquot : totalSize items / c ≤ n :=
    Nat.div_le_of_le_mul (by rwa [Nat.mul_comm])
  have hfull : totalSize items / c = n → totalSize items % c = 0 := mod_eq_zero_of_div_eq hle
  rw [shardCount, if_neg (by omega), hdvd]
  by_cases hlast : LastBlobEmpty items
  · simp only [hlast, or_true, if_true, and_true]
    omega
  · simp only [hlast, or_false, and_false, not_false_eq_true, iff_true]
    split <;> omega

end Arithmetic

/-- The sharder produces as many shards as there are mappers exactly when one shard less would
be too few for the bytes and the listing does not end with an empty blob behind full shards, or
when one shard less holds all bytes and the listing does end with an empty blob. -/
theorem create_sharding_data_count (k : Container) (m : Master) (hn : 1 ≤ m.nmappers)
    (htotal : 1 ≤ totalSize k.items) :
    ∃ m', (∀ fuel ≥ enoughFuel k.items, createShardingData fuel (some k.items) m = some m') ∧
      m'.nmappers = m.nmappers ∧
      ((m'.shards.length : Int) = m'.nmappers ↔
        let n := m.nmappers.toNat
        let sz := (totalSize k.items + n - 1) / n
        ((n - 1) * sz < totalSize k.items ∧ ¬ (n ∣ totalSize k.items ∧ LastBlobEmpty k.items)) ∨
          ((n - 1) * sz = totalSize k.items ∧ LastBlobEmpty k.items)) := by
  obtain ⟨shards, id, hrun, hcount, _⟩ := create_sharding_data_spec k m hn
  refine ⟨_, hrun, rfl, ?_⟩
  have hpos : 0 < m.nmappers.toNat := by omega
  have hcast : (shards.length : Int) = m.nmappers ↔ shards.length = m.nmappers.toNat := by omega
  exact hcast.trans (hcount ▸ shard_count_eq_iff hpos htotal)

/-- Seven bytes for three mappers: two shards of three bytes and one of one. -/
theorem create_sharding_data_count_seven :
    ∃ m', createShardingData 8 (some [.blob ['a'] 7])
        { Master.init with nmappers := 3 } = some m' ∧ (m'.shards.length : Int) = 3 := by
  obtain ⟨m', hrun, hn, hiff⟩ := create_sharding_data_count
    ⟨[.blob ['a'] 7], by decide⟩ { Master.init with nmappers := 3 } (by decide) (by decide)
  exact ⟨m', hrun 8 (by decide), (hiff.mpr (by decide)).trans hn⟩

/-- Five bytes for four mappers: the shard size is two, and three shards hold everything. -/
theorem create_sharding_data_five_bytes :
    totalSize [.blob ['a'] 5] = 5 ∧
      ∃ m', createShardingData 6 (some [.blob ['a'] 5])
          { Master.init with nmappers := 4 } = some m' ∧
        m'.nmappers = 4 ∧ m'.shards.length = 3 :=
  ⟨by decide, _, rfl, rfl, by decide⟩

end MapReduce
