import MapReduce.Library.Rounding
import MapReduce.Master.MapPhase

/-!
# The size of a shard as a `float`

`DBConnection::calc_shard_sz` adds the sizes of the blobs up in a `float` and divides in `float`.
`MapReduce.Master.Sharding` takes the exact ceiling of the division. Here is the computation of the
source, every operation rounded to the 24 bits of a `float`. Read `create_sharding_data_float_eq`
first: up to `2 ^ 24` bytes the two agree.

Beyond, the sum may be too small, and so are the shards, which are then too many for the loop of
`dispatchMapTasks`. `float_map_phase_iff` says when.
-/

namespace MapReduce

open Machine (Reachable)
open Rounding (nearest nearest_natCast)

/-! ## The computation of the source -/

/-- The value of a `float` operation or conversion, from its exact value. The sizes and counts are
far from the largest `float`, and the quotients from the smallest. -/
def toFloat (x : ℚ) : ℚ := nearest 24 x

/-- `tot_sz`: the sizes of the blobs, added up one by one. -/
def totSz (items : List ListBlobItem) : ℚ :=
  (blobs items).foldl (fun tot b => toFloat (tot + toFloat b.2)) 0

/-- `calc_shard_sz`, with the rounding of its operations. -/
def calcShardSzFloat (items : List ListBlobItem) (nshards : Int) : Option Nat :=
  if nshards ≤ 0 then none
  else some ⌈toFloat (totSz items / toFloat nshards)⌉.toNat

/-- `create_sharding_data`, with the rounding of the shard size. -/
def createShardingDataFloat (fuel : Nat) (db : Option (List ListBlobItem)) (m : Master) :
    Option Master :=
  match db with
  | none => some { m with shards := [] }
  | some items => do
      let shardsz ← calcShardSzFloat items m.nmappers
      let pieces ← makeShards fuel shardsz items
      let (_, id) := getShardId true m.shardCounter
      let (shards, id) := joinShards id [] pieces
      some { m with shardsz := shardsz, shards := shards, shardCounter := id }

/-! ## Where nothing is rounded -/

/-- The sum is exact while it fits a `float`. -/
theorem tot_sz_eq {items : List ListBlobItem} (h : totalSize items ≤ 2 ^ 24) :
    totSz items = totalSize items := by
  have hfold : ∀ (bs : List (Str × Nat)) (tot : Nat), tot + (bs.map Prod.snd).sum ≤ 2 ^ 24 →
      bs.foldl (fun (tot : ℚ) b => toFloat (tot + toFloat b.2)) tot =
        ((tot + (bs.map Prod.snd).sum : Nat) : ℚ) := by
    intro bs
    induction bs with
    | nil => simp
    | cons b bs ih =>
        intro tot hle
        rw [List.map_cons, List.sum_cons] at hle ⊢
        have hsize : toFloat b.2 = b.2 := nearest_natCast (by decide) (by omega)
        have hsum : toFloat (tot + b.2) = ((tot + b.2 : Nat) : ℚ) := by
          rw [← Nat.cast_add]
          exact nearest_natCast (by decide) (by omega)
        rw [List.foldl_cons, hsize, hsum, ih (tot + b.2) (by omega), Nat.add_assoc]
  have hsum := hfold (blobs items) 0 (by rwa [Nat.zero_add])
  rw [Nat.zero_add, Nat.cast_zero] at hsum
  exact hsum

/-- The quotient by a count that does not fit a `float` is rounded to one part. -/
theorem ceil_float_div_large {t n : Nat} (hpos : 0 < t) (ht : t ≤ 2 ^ 24) (hn : 2 ^ 24 < n) :
    ⌈toFloat (t / toFloat n)⌉ = 1 := by
  have hlarge : (2 : ℚ) ^ 24 ≤ toFloat n :=
    Rounding.two_pow_le_nearest (by decide) (by exact_mod_cast hn.le)
  have hpos' : (0 : ℚ) < toFloat n := lt_of_lt_of_le (by positivity) hlarge
  have hx : (0 : ℚ) < t / toFloat n := div_pos (Nat.cast_pos.mpr hpos) hpos'
  rw [Int.ceil_eq_iff]
  constructor
  · have hfloat := Rounding.nearest_pos (p := 24) (by decide) hx
    rw [Int.cast_one, sub_self]
    exact hfloat
  · have hone := Rounding.nearest_le (p := 24) (by decide) hx (k := 1) (by decide) (by
      rw [Nat.cast_one, div_le_one hpos']
      exact le_trans (by exact_mod_cast ht) hlarge)
    rw [Int.cast_one]
    exact_mod_cast hone

/-- Up to `2 ^ 24` bytes, the shard size that the source computes in `float` is the exact ceiling,
for every number of shards. -/
theorem calc_shard_sz_float_eq (items : List ListBlobItem) (h : totalSize items ≤ 2 ^ 24)
    (nshards : Int) : calcShardSzFloat items nshards = calcShardSz items nshards := by
  unfold calcShardSzFloat calcShardSz
  split
  · rfl
  · next hpos =>
    obtain ⟨n, rfl⟩ := Int.eq_ofNat_of_zero_le (show 0 ≤ nshards by omega)
    have hn : 0 < n := by omega
    rw [tot_sz_eq h, Int.toNat_natCast, Int.cast_natCast, ← Nat.ceilDiv_eq_add_pred_div]
    congr 1
    rcases Nat.lt_or_ge (2 ^ 24) n with hlarge | hsmall
    · rcases Nat.eq_zero_or_pos (totalSize items) with hzero | htotal
      · rw [hzero]
        simp [toFloat]
      · rw [ceil_float_div_large htotal h hlarge, Int.toNat_one]
        symm
        refine Nat.le_antisymm ((ceilDiv_le_iff_le_mul hn).mpr (by omega)) ?_
        rw [← Nat.not_lt, Nat.lt_one_iff]
        intro hzero
        have hle := (ceilDiv_le_iff_le_mul hn).mp (Nat.le_of_eq hzero)
        omega
    · have hfloat : toFloat n = n := nearest_natCast (by decide) hsmall
      rw [hfloat, toFloat, Rounding.ceil_nearest_div (by decide) hn h, Int.toNat_natCast]

/-- Up to `2 ^ 24` bytes, `create_sharding_data` with the rounding of the source makes the shards
that it makes with the exact ceiling, for every number of mappers. -/
theorem create_sharding_data_float_eq (items : List ListBlobItem) (h : totalSize items ≤ 2 ^ 24)
    (fuel : Nat) (m : Master) :
    createShardingDataFloat fuel (some items) m = createShardingData fuel (some items) m := by
  simp only [createShardingDataFloat, createShardingData, calc_shard_sz_float_eq items h]

/-- Ten bytes for three mappers: the quotient is rounded, and its ceiling is four. -/
theorem create_sharding_data_float_ten :
    ∃ m', createShardingDataFloat 11 (some [.blob ['a'] 7, .blob ['b'] 3])
        { Master.init with nmappers := 3 } = some m' ∧ m'.shardsz = 4 ∧ m'.shards.length = 3 :=
  ⟨_, (create_sharding_data_float_eq [.blob ['a'] 7, .blob ['b'] 3] (by decide) 11 _).trans rfl,
    rfl, rfl⟩

/-! ## Where something is rounded -/

/-- The sum is positive if a blob has a byte. -/
theorem tot_sz_pos {items : List ListBlobItem} (h : 1 ≤ totalSize items) : 0 < totSz items := by
  have hfold : ∀ (bs : List (Str × Nat)) (tot : ℚ), 0 ≤ tot →
      0 < tot ∨ 1 ≤ (bs.map Prod.snd).sum →
      0 < bs.foldl (fun (tot : ℚ) b => toFloat (tot + toFloat b.2)) tot := by
    intro bs
    induction bs with
    | nil =>
        intro tot _ hpos
        simpa using hpos
    | cons b bs ih =>
        intro tot htot hpos
        rw [List.map_cons, List.sum_cons] at hpos
        have hsize : (0 : ℚ) ≤ toFloat b.2 ∧ (0 < b.2 → 0 < toFloat b.2) := by
          rcases Nat.eq_zero_or_pos b.2 with hzero | hb
          · rw [hzero]
            simp [toFloat]
          · have hfloat : 0 < toFloat b.2 :=
              Rounding.nearest_pos (by decide) (Nat.cast_pos.mpr hb)
            exact ⟨hfloat.le, fun _ => hfloat⟩
        have hnext : 0 < tot + toFloat b.2 → 0 < toFloat (tot + toFloat b.2) :=
          fun h => Rounding.nearest_pos (by decide) h
        have hsum : 0 ≤ toFloat (tot + toFloat b.2) := by
          rcases (add_nonneg htot hsize.1).eq_or_lt with hzero | hlt
          · rw [← hzero]
            simp [toFloat]
          · exact (hnext hlt).le
        refine ih _ hsum ?_
        rcases hpos with hpos | hpos
        · exact .inl (hnext (add_pos_of_pos_of_nonneg hpos hsize.1))
        · rcases Nat.eq_zero_or_pos b.2 with hzero | hb
          · exact .inr (by omega)
          · exact .inl (hnext (add_pos_of_nonneg_of_pos htot (hsize.2 hb)))
  exact hfold (blobs items) 0 le_rfl (.inr h)

/-- A shard has a byte if a blob has one. -/
theorem calc_shard_sz_float_pos {items : List ListBlobItem} {nshards : Int} {sz : Nat}
    (htotal : 1 ≤ totalSize items) (h : calcShardSzFloat items nshards = some sz) : 0 < sz := by
  obtain ⟨hpos, h⟩ := Option.ite_none_left_eq_some.mp h
  obtain rfl := Option.some.inj h
  have hn : (0 : ℚ) < nshards := Int.cast_pos.mpr (by omega)
  have hquot : 0 < totSz items / toFloat nshards :=
    div_pos (tot_sz_pos htotal) (Rounding.nearest_pos (by decide) hn)
  have hceil := Int.ceil_pos.mpr (Rounding.nearest_pos (p := 24) (by decide) hquot)
  show 0 < ⌈nearest 24 _⌉.toNat
  omega

/-- Shards of `sz` bytes are at most `n` exactly if `n` of them hold all bytes, and no empty piece
is left over behind `n` full ones. -/
theorem shard_count_le_iff_mul {items : List ListBlobItem} {sz n : Nat} (hsz : 0 < sz) :
    shardCount items sz ≤ n ↔
      totalSize items ≤ n * sz ∧ ¬ (totalSize items = n * sz ∧ LastBlobEmpty items) := by
  have hdiv := Nat.div_add_mod (totalSize items) sz
  have hmod := Nat.mod_lt (totalSize items) hsz
  rw [shardCount, if_neg (by omega)]
  generalize totalSize items / sz = q at hdiv ⊢
  generalize totalSize items % sz = r at hdiv hmod ⊢
  rw [← hdiv, Nat.mul_comm]
  -- the quotient decides, and where it is `n` the rest
  rcases Nat.lt_trichotomy q n with hlt | rfl | hgt
  · have hle : (q + 1) * sz ≤ n * sz := Nat.mul_le_mul_right sz hlt
    rw [Nat.add_mul, Nat.one_mul] at hle
    constructor
    · intro _
      exact ⟨by omega, fun h => by omega⟩
    · intro _
      split <;> omega
  · by_cases hr : r = 0
    · by_cases hlast : LastBlobEmpty items <;> simp [hr, hlast]
    · simp only [ne_eq, hr, not_false_eq_true, true_or, if_true]
      omega
  · have hle : (n + 1) * sz ≤ q * sz := Nat.mul_le_mul_right sz hgt
    rw [Nat.add_mul, Nat.one_mul] at hle
    constructor
    · intro h
      omega
    · intro h
      omega

/-- The map phase with the shard size that the source computes in `float`. If no offset overflows,
`create_sharding_data` returns, and the loop of `dispatchMapTasks` only ends when every shard is
mapped exactly if the mappers' shards of this size hold all bytes, and no empty blob is listed last
behind as many full shards as mappers. -/
theorem float_map_phase_iff (items : List ListBlobItem) (m : Master) (sz : Nat)
    (htotal : 1 ≤ totalSize items) (hsz : calcShardSzFloat items m.nmappers = some sz)
    (hword : ∀ b ∈ blobs items, ∀ begin_ < b.2, begin_ + sz < 2 ^ 64) :
    ∃ m', (∀ fuel ≥ enoughFuel items, createShardingDataFloat fuel (some items) m = some m') ∧
      ((∀ s, Reachable MapLoop.step (.enter (runMapper m')) s → s.pc = .exited →
        AllMapped s.data) ↔
          totalSize items ≤ m.nmappers.toNat * sz ∧
            ¬ (totalSize items = m.nmappers.toNat * sz ∧ LastBlobEmpty items)) := by
  have hpos := calc_shard_sz_float_pos htotal hsz
  have hn : 1 ≤ m.nmappers := by
    obtain ⟨hn, -⟩ := Option.ite_none_left_eq_some.mp hsz
    omega
  have hsize : sz < 2 ^ 64 := by
    obtain ⟨b, hb, hbyte⟩ : ∃ b ∈ blobs items, 0 < b.2 := by
      by_contra hnone
      push Not at hnone
      have hzero : totalSize items = 0 := by
        refine List.sum_eq_zero fun size hsize => ?_
        obtain ⟨b, hb, rfl⟩ := List.mem_map.mp hsize
        exact Nat.le_zero.mp (hnone b hb)
      omega
    have hlt := hword b hb 0 hbyte
    omega
  obtain ⟨pieces, hrun, hcount⟩ := make_shards_count hsize (fun h => by omega) hword
  refine ⟨{ m with
    shardsz := sz
    shards := (joinShards (-1) [] pieces).1
    shardCounter := (joinShards (-1) [] pieces).2 }, fun fuel hfuel => ?_, ?_⟩
  · simp [createShardingDataFloat, hsz, hrun fuel hfuel, getShardId]
  · refine (exit_all_mapped_iff (m := { m with
      shardsz := sz
      shards := (joinShards (-1) [] pieces).1
      shardCounter := (joinShards (-1) [] pieces).2 }) (join_shards_indices [] pieces) hn).trans ?_
    rw [← shard_count_le_iff_mul hpos, ← hcount (-1)]
    show ((joinShards (-1) [] pieces).1.length : Int) ≤ m.nmappers ↔ _
    omega

/-- One byte more than a `float` can count, for one mapper: the shard size is `2 ^ 24`, the last
byte is a second shard, and the loop can be left before both are mapped. -/
theorem float_map_phase_one_more :
    ∃ m', (∀ fuel ≥ enoughFuel [.blob ['a'] (2 ^ 24 + 1)],
        createShardingDataFloat fuel (some [.blob ['a'] (2 ^ 24 + 1)])
          { Master.init with nmappers := 1 } = some m') ∧
      ∃ s, Reachable MapLoop.step (.enter (runMapper m')) s ∧ s.pc = .exited ∧
        ¬ AllMapped s.data := by
  have hsz : calcShardSzFloat [.blob ['a'] (2 ^ 24 + 1)] 1 = some (2 ^ 24) := by decide +kernel
  obtain ⟨m', hrun, hiff⟩ := float_map_phase_iff [.blob ['a'] (2 ^ 24 + 1)]
    { Master.init with nmappers := 1 } (2 ^ 24) (by decide) hsz (by
      intro b hb begin_ hlt
      obtain rfl := List.mem_singleton.mp hb
      dsimp only at hlt
      omega)
  have hnot := mt hiff.mp (by decide)
  push Not at hnot
  exact ⟨m', hrun, hnot⟩

end MapReduce
