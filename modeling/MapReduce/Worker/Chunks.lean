import MapReduce.Master.ShardPartition
import MapReduce.Worker.Pieces

/-!
# What the pieces of a blob keep

A chunk is a run of bytes without the separators of `fix_word_boundary`. Read
`cut_keeps_chunks_iff` first: the pieces of a cut have the chunks of the blob, in order, for every
blob without chunks longer than `EXTRA_LEN`, exactly if the sizes of the pieces fit. Longer chunks
are torn, but with the pieces of `make_shards` each of their bytes is still in exactly one piece, if
the sizes fit (`shards_keep_bytes_iff`).

Both rest on the rounding of `MapReduce.Worker.Pieces`: a piece keeps the bytes from where its begin
is rounded to, up to where its end is rounded to. A blob of a single letter shows the rest.
-/

namespace MapReduce

open Words

/-! ## Chunks -/

/-- The maximal runs of bytes other than the separators. -/
def chunks (s : Str) : List Str := words isSeparator s

/-- The chunks of a piece; it has none if `fix_word_boundary` throws. -/
def pieceChunks (b : Str) (r : Nat × Nat) : List Str := ((readPiece b r).map chunks).getD []

/-- All chunks fit in the bytes that are read behind the end of a piece. -/
def ShortChunks (b : Str) : Prop := ∀ w ∈ chunks b, w.length ≤ extraLen

/-- In short chunks, the next separator is at most `extraLen` bytes ahead. -/
theorem ShortChunks.gap_le {b : Str} (h : ShortChunks b) (p : Nat) :
    gap (b.drop p) ≤ extraLen := by
  rcases Nat.eq_zero_or_pos (gap (b.drop p)) with hzero | hpos
  · omega
  · have hrun : ∀ c ∈ (b.drop p).take (gap (b.drop p)), isSeparator c = false := by
      intro c hc
      rw [← take_while_eq] at hc
      simpa using List.mem_takeWhile_imp hc
    have hlength : ((b.drop p).take (gap (b.drop p))).length = gap (b.drop p) :=
      List.length_take_of_le List.findIdx_le_length
    have hne : (b.drop p).take (gap (b.drop p)) ≠ [] := by
      intro hnil
      rw [hnil] at hlength
      simp only [List.length_nil] at hlength
      omega
    obtain ⟨v, hv, hle⟩ := exists_word_of_run hrun hne (b.take p) ((b.drop p).drop (gap (b.drop p)))
    rw [List.take_append_drop, List.take_append_drop] at hv
    rw [hlength] at hle
    exact Nat.le_trans hle (h v hv)

/-- In short chunks, the end of a piece is rounded to the next separator. -/
theorem ShortChunks.round_ahead {b : Str} (h : ShortChunks b) {q : Nat} (hq : q ≠ 0) :
    roundAhead b q = q + gap (b.drop q) := by
  rw [round_ahead_pos hq, overlap, Nat.min_eq_right (h.gap_le q)]

/-- In short chunks, no piece ends inside a chunk. -/
theorem ShortChunks.not_splits {b : Str} (h : ShortChunks b) {q : Nat} (hq : q ≠ 0) (xs : Str) :
    ¬Splits isSeparator xs (b.drop (roundAhead b q)) := by
  intro hsplits
  obtain ⟨c, d, -, hd, -, hsep⟩ := hsplits
  rw [List.head?_drop, h.round_ahead hq, ← List.getElem?_drop] at hd
  have htrue : isSeparator d = true := List.findIdx_of_getElem?_eq_some hd
  rw [htrue] at hsep
  cases hsep

/-- In short chunks, a piece that ends before its start leaves nothing out. -/
theorem ShortChunks.lost_nil {b : Str} (h : ShortChunks b) {p q : Nat} (hpq : p < q)
    (hdead : q < roundAhead b p) : slice b (roundAhead b p) (roundAhead b q) = [] := by
  have hp := ne_zero_of_lt hdead
  have hq : q ≠ 0 := by omega
  rw [h.round_ahead hp] at hdead
  have hgap : gap (b.drop q) = gap (b.drop p) - (q - p) := by
    rw [← drop_drop_sub b (Nat.le_of_lt hpq), gap_drop (by omega)]
  rw [h.round_ahead hp, h.round_ahead hq, hgap, slice, List.take_eq_nil_iff]
  left
  omega

/-- One piece and the rest of the blob. -/
theorem ShortChunks.chunks_drop {b : Str} (h : ShortChunks b) {p q : Nat}
    (hpiece : IsPiece b (p, q)) :
    chunks (b.drop (roundAhead b p)) =
      pieceChunks b (p, q) ++ chunks (b.drop (roundAhead b q)) := by
  have hpq : p < q := hpiece.lt
  have hchunks : pieceChunks b (p, q) = if roundAhead b p ≤ q then
      words isSeparator (slice b (roundAhead b p) (roundAhead b q)) else [] :=
    piece_words_of (fun _ h => h) hpiece
  have hq : q ≠ 0 := by omega
  rw [hchunks, drop_eq_slice_append b (round_ahead_le hpq)]
  split
  · exact words_append (h.not_splits hq _)
  · next hdead =>
    rw [h.lost_nil hpq (by omega)]
    rfl

/-- The pieces of a cut of `[a, b.length)` have the chunks from where `a` is rounded to. -/
theorem ShortChunks.piece_chunks {b : Str} (h : ShortChunks b) {a : Nat} {rs : List (Nat × Nat)}
    (htiles : Tiles a rs b.length) (hpieces : ∀ r ∈ rs, IsPiece b r) :
    rs.flatMap (pieceChunks b) = chunks (b.drop (roundAhead b a)) := by
  induction rs generalizing a with
  | nil =>
      obtain rfl : a = b.length := htiles
      rw [drop_round_ahead_length]
      rfl
  | cons r rs ih =>
      obtain ⟨p, q⟩ := r
      obtain ⟨rfl, _, htiles⟩ := htiles
      rw [List.forall_mem_cons] at hpieces
      rw [List.flatMap_cons, ih htiles hpieces.2, h.chunks_drop hpieces.1]

/-- When no word is torn, lost or counted twice at a cut. For every way of cutting `n` bytes into
consecutive non-empty pieces: the chunks of the pieces are, in order, those of the blob, for every
blob of `n` bytes whose chunks are at most `EXTRA_LEN` bytes long, exactly if the sizes of every
piece fit. -/
theorem cut_keeps_chunks_iff {n : Nat} {rs : List (Nat × Nat)} (htiles : Tiles 0 rs n)
    (hne : ∀ r ∈ rs, r.1 < r.2) :
    (∀ b : Str, b.length = n → (∀ w ∈ chunks b, w.length ≤ extraLen) →
      rs.flatMap (pieceChunks b) = chunks b) ↔ ∀ r ∈ rs, FitsInt n r := by
  constructor
  · intro hkeeps
    by_contra hunfit
    push Not at hunfit
    obtain ⟨x, hx, hcount⟩ := exists_byte_miscounted htiles hne hunfit
    have hchunks : chunks (oneLetter n x) = [['a']] :=
      words_one_letter isSeparator rfl rfl n x
    have hpieces := hkeeps (oneLetter n x) (length_one_letter hx) (by rw [hchunks]; decide)
    refine hcount (count_letter_of_words isSeparator rfl rfl ?_)
    exact (congrArg List.length hpieces).trans (by rw [hchunks]; rfl)
  · intro hfits b hlength hshort
    subst hlength
    exact ShortChunks.piece_chunks hshort htiles (is_piece_of_tiles htiles hne hfits)

/-- A word of sixteen bytes that three cuts go through: all of it is in the first piece. -/
theorem cut_keeps_chunks_sixteen :
    [(0, 1), (1, 3), (3, 4), (4, 20)].flatMap
        (pieceChunks (' ' :: (List.replicate 16 'a' ++ ['.', 'b', 'c']))) =
      [List.replicate 16 'a', ['b', 'c']] := by
  refine ((cut_keeps_chunks_iff (n := 20) ?_ (by decide)).mpr (by decide) _ rfl ?_).trans
    (by decide +kernel)
  · simp [Tiles]
  · decide +kernel

/-- If the first piece of a blob has `2 ^ 32` bytes, its last byte may be in no piece. -/
theorem letter_lost :
    ([(0, 2 ^ 32), (2 ^ 32, 2 ^ 32 + 1)].countP fun r =>
      keepsByte (oneLetter (2 ^ 32 + 1) (2 ^ 32 - 1)) r (2 ^ 32 - 1)) = 0 := by
  have hlength := length_one_letter (by omega : 2 ^ 32 - 1 < 2 ^ 32 + 1)
  have htiles : Tiles 0 [(0, 2 ^ 32), (2 ^ 32, 2 ^ 32 + 1)]
      (oneLetter (2 ^ 32 + 1) (2 ^ 32 - 1)).length := by
    rw [hlength]
    simp [Tiles]
  have hcount := count_keeps_byte_short htiles (by decide) List.mem_cons_self
    (by rw [hlength]; decide) (by rw [hlength]; unfold Untrimmed; decide)
    (get_one_letter (2 ^ 32 + 1) (2 ^ 32 - 1))
  dsimp only at hcount
  exact hcount

/-- A blob of `2 ^ 32 + 1` bytes whose only letter is the last byte of its first piece. The length
of that piece is `0` as an `int`, so its data is erased from the first separator on. -/
theorem cut_loses_chunk :
    ∃ b : Str, b.length = 2 ^ 32 + 1 ∧ (∀ w ∈ chunks b, w.length ≤ extraLen) ∧
      Tiles 0 [(0, 2 ^ 32), (2 ^ 32, 2 ^ 32 + 1)] b.length ∧
      [(0, 2 ^ 32), (2 ^ 32, 2 ^ 32 + 1)].flatMap (pieceChunks b) ≠ chunks b := by
  have hchunks : chunks (oneLetter (2 ^ 32 + 1) (2 ^ 32 - 1)) = [['a']] :=
    words_one_letter isSeparator rfl rfl _ _
  have hlength := length_one_letter (by omega : 2 ^ 32 - 1 < 2 ^ 32 + 1)
  refine ⟨_, hlength, by rw [hchunks]; decide, ?_, fun hsame => ?_⟩
  · rw [hlength]
    simp [Tiles]
  · have hone := count_letter_of_words isSeparator rfl rfl
      ((congrArg List.length hsame).trans (by rw [hchunks]; rfl))
    rw [letter_lost] at hone
    cases hone

/-! ## The pieces of `make_shards` -/

/-- The pieces `make_shards` cuts `n` bytes into fit: the first, which has room for `rem` bytes, and
those behind it, which have room for `shardSz`. -/
def ShardsFit (n shardSz rem : Nat) : Prop :=
  FitsInt n (0, min rem n) ∧
    ∀ k, rem + k * shardSz < n →
      FitsInt n (rem + k * shardSz, min (rem + (k + 1) * shardSz) n)

/-- No piece is empty if there is room for it. -/
theorem Fills.bytes_pos {sz r r' : Nat} {ps : List ShardInfo} (h : Fills sz r ps r')
    (hpart : ∀ p ∈ ps, p.isPartial = true → 0 < p.bytes) (hr : 0 < r) (hsz : 0 < sz) :
    ∀ p ∈ ps, 0 < p.bytes := by
  induction ps generalizing r with
  | nil => simp
  | cons p ps ih =>
      rw [List.forall_mem_cons] at hpart ⊢
      simp only [Fills] at h
      split at h
      · next hp => exact ⟨hpart.1 hp, ih h.2 hpart.2 (by omega)⟩
      · exact ⟨by omega, ih h.2 hpart.2 hsz⟩

/-- No piece is behind the end of the blob. -/
theorem pieces_nil_of_end {n : Nat} {ps : List ShardInfo}
    (htiles : Tiles n (ps.map ShardInfo.range) n) (hpos : ∀ p ∈ ps, 0 < p.bytes) : ps = [] := by
  cases ps with
  | nil => rfl
  | cons p ps =>
      obtain ⟨hbegin, -, htiles⟩ := htiles
      have hend := htiles.le
      have hbytes := hpos p List.mem_cons_self
      simp only [ShardInfo.range, ShardInfo.bytes] at hbegin hend hbytes
      omega

/-- The ranges of pieces that fill shards, if only the end of the blob makes a piece partial: the
first has `r` bytes, the others `sz`, as far as there are bytes. -/
theorem Fills.forall_ranges {Q : Nat × Nat → Prop} {n sz r r' a : Nat} {ps : List ShardInfo}
    (h : Fills sz r ps r') (htiles : Tiles a (ps.map ShardInfo.range) n)
    (hpart : ∀ p ∈ ps, p.isPartial = true → p.endOffset = n) (hpos : ∀ p ∈ ps, 0 < p.bytes) :
    (∀ p ∈ ps, Q p.range) ↔
      (a < n → Q (a, min (a + r) n)) ∧
      ∀ k, a + r + k * sz < n → Q (a + r + k * sz, min (a + r + (k + 1) * sz) n) := by
  induction ps generalizing a r with
  | nil =>
      obtain rfl : a = n := htiles
      refine iff_of_true (by simp) ⟨fun hlt => absurd hlt (Nat.lt_irrefl a), fun k hlt => ?_⟩
      omega
  | cons p ps ih =>
      obtain ⟨hbegin, hle, htiles⟩ := htiles
      simp only [ShardInfo.range] at hbegin hle htiles
      rw [List.forall_mem_cons] at hpart hpos ⊢
      have hbytes := hpos.1
      unfold ShardInfo.bytes at hbytes
      have hend := htiles.le
      simp only [Fills] at h
      split at h
      · next hp =>
        -- the blob ends with this piece
        have hlast := hpart.1 hp
        have hnone : ps = [] := pieces_nil_of_end (hlast ▸ htiles) hpos.2
        have hroom := h.1
        unfold ShardInfo.bytes at hroom
        have hrange : p.range = (a, min (a + r) n) := by
          rw [ShardInfo.range, hbegin, hlast, Nat.min_eq_right (by omega)]
        subst hnone
        rw [hrange]
        constructor
        · intro hfirst
          exact ⟨fun _ => hfirst.1, fun k hlt => by omega⟩
        · intro hboth
          exact ⟨hboth.1 (by omega), by simp⟩
      · -- the piece fills its room, and the next one has room for `sz` bytes
        have hroom := h.1
        unfold ShardInfo.bytes at hroom
        have hendoff : p.endOffset = a + r := by omega
        have hrange : p.range = (a, min (a + r) n) := by
          rw [ShardInfo.range, hbegin, hendoff, Nat.min_eq_left (by omega)]
        rw [hendoff] at htiles
        rw [ih h.2 htiles hpart.2 hpos.2, hrange]
        have hplace : ∀ k, a + r + sz + k * sz = a + r + (k + 1) * sz := fun k => by
          rw [Nat.succ_mul, Nat.add_assoc (a + r), Nat.add_comm sz]
        simp only [hplace]
        constructor
        · intro hall
          obtain ⟨hfirst, hsecond, hrest⟩ := hall
          refine ⟨fun _ => hfirst, fun k hlt => ?_⟩
          cases k with
          | zero => simpa using hsecond (by simpa using hlt)
          | succ k => exact hrest k hlt
        · intro hall
          obtain ⟨hfirst, hrest⟩ := hall
          refine ⟨hfirst (by omega), fun hlt => ?_, fun k hlt => hrest (k + 1) hlt⟩
          simpa using hrest 0 (by simpa using hlt)

/-- Only the end of a blob makes a piece partial. -/
theorem make_blob_shards_part_ends {name : Str} {fuel sz size r r' : Nat} {ps : List ShardInfo}
    (hword : ∀ b < size, b + sz < 2 ^ 64) (hroom : Room sz r) (hempty : sz = 0 → size = 0)
    (hfuel : size < fuel) (h : makeBlobShards fuel sz name size r = some (ps, r')) :
    ∀ p ∈ ps, p.isPartial = true → p.endOffset = size := by
  obtain ⟨qs, c, hrun, hexit⟩ := make_shards_loop_enter name hword hroom hempty hfuel
  intro p hp hpart
  simp only [makeBlobShards, hrun, Option.bind_eq_bind, Option.bind_some] at h
  split at h
  · obtain ⟨rfl, -⟩ : qs ++ _ = ps ∧ _ = r' := by simpa using h
    rcases List.mem_append.mp hp with hp | hp
    · rw [hexit.whole p hp] at hpart
      cases hpart
    · obtain rfl := List.mem_singleton.mp hp
      rfl
  · obtain ⟨rfl, -⟩ : qs = ps ∧ _ = r' := by simpa using h
    rw [hexit.whole p hp] at hpart
    cases hpart

/-- The ranges of the pieces that `make_shards` cuts a blob with bytes into, if the first shard has
room: none is empty, the first has room for `r` bytes, and those behind it have room for `sz`. -/
theorem BlobSharded.forall_ranges {name : Str} {sz n r r' : Nat} {ps : List ShardInfo}
    (h : BlobSharded name sz n r ps r') (hrun : makeBlobShards (n + 1) sz name n r = some (ps, r'))
    (hword : ∀ b < n, b + sz < 2 ^ 64) (hroom : Room sz r) (hr : 0 < r) (hsz : 0 < sz)
    (hn : 0 < n) :
    (∀ p ∈ ps, 0 < p.bytes) ∧ ∀ Q : Nat × Nat → Prop, (∀ p ∈ ps, Q p.range) ↔
      Q (0, min r n) ∧ ∀ k, r + k * sz < n → Q (r + k * sz, min (r + (k + 1) * sz) n) := by
  have hpos := h.fills.bytes_pos (fun p hp hpart => h.partial_bytes p hp hpart hn) hr hsz
  have hends := make_blob_shards_part_ends hword hroom (fun hzero => by omega)
    (Nat.lt_succ_self n) hrun
  refine ⟨hpos, fun Q => ?_⟩
  have hall := h.fills.forall_ranges (Q := Q) h.tiles hends hpos
  simpa [hn] using hall

/-- Pieces fit where a shard and the bytes read behind it fit in an `int`. -/
theorem shards_fit_of_lt {n shardSz rem : Nat} (hroom : rem ≤ shardSz)
    (h : shardSz + extraLen < 2 ^ 31) : ShardsFit n shardSz rem := by
  refine ⟨fits_int_of_lt (by simp only; omega), fun k _ => fits_int_of_lt ?_⟩
  rw [Nat.succ_mul]
  simp only
  omega

/-- A rounded piece does not end before its start if it begins its blob, is as long as `EXTRA_LEN`,
or ends its blob. -/
theorem round_ahead_le_end {b : Str} {p q : Nat} (hle : p ≤ q)
    (h : p = 0 ∨ p + extraLen ≤ q ∨ q = b.length) : roundAhead b p ≤ q := by
  by_cases hp : p = 0
  · subst hp
    exact Nat.zero_le q
  · rw [round_ahead_pos hp]
    unfold overlap
    rcases h with h | h | h
    · exact absurd h hp
    · omega
    · have hgap : gap (b.drop p) ≤ (b.drop p).length := List.findIdx_le_length
      rw [List.length_drop] at hgap
      omega

/-- When no text byte is dropped or duplicated, also in words longer than `EXTRA_LEN`. For every
shard size of at least `EXTRA_LEN`, `make_shards` cuts a blob of `n` bytes such that each byte that
is no separator is kept by exactly one piece, whatever the bytes are, exactly if its pieces fit. The
offsets stay below `2 ^ 64`. -/
theorem shards_keep_bytes_iff (name : Str) {n shardSz rem : Nat} (hextra : extraLen ≤ shardSz)
    (hrem : 1 ≤ rem) (hroom : rem ≤ shardSz) (hsz : shardSz < 2 ^ 64)
    (hword : ∀ begin_ < n, begin_ + shardSz < 2 ^ 64) :
    ∃ pieces rem', (∀ fuel > n, makeBlobShards fuel shardSz name n rem = some (pieces, rem')) ∧
      ((∀ b : Str, b.length = n → ∀ x c, b[x]? = some c → isSeparator c = false →
        (pieces.countP fun p => keepsByte b p.range x) = 1) ↔ ShardsFit n shardSz rem) := by
  have hempty : shardSz = 0 → n = 0 := by
    unfold extraLen at hextra
    omega
  have hroom' : Room shardSz rem := ⟨hroom, fun h => by omega⟩
  obtain ⟨pieces, rem', hrun, hsharded⟩ := make_blob_shards_spec name hsz hword hroom' hempty
    (Nat.lt_succ_self _)
  refine ⟨pieces, rem', fun fuel hfuel => make_blob_shards_mono hrun hfuel, ?_⟩
  rcases Nat.eq_zero_or_pos n with rfl | hn
  · -- there are no bytes, and the only piece is empty
    refine iff_of_true (fun b hb x c hx => ?_) ⟨?_, fun k hlt => absurd hlt (Nat.not_lt_zero _)⟩
    · rw [List.eq_nil_of_length_eq_zero hb] at hx
      cases hx
    · rw [Nat.min_zero]
      decide
  · obtain ⟨hpos, hranges⟩ := hsharded.forall_ranges hrun hword hroom' hrem
      (by unfold extraLen at hextra; omega) hn
    have hne : ∀ r ∈ pieces.map ShardInfo.range, r.1 < r.2 := by
      rw [List.forall_mem_map]
      exact fun p hp => Nat.lt_of_sub_pos (hpos p hp)
    constructor
    · intro hkeeps
      by_contra hunfit
      have hsome : ∃ r ∈ pieces.map ShardInfo.range, ¬FitsInt n r := by
        by_contra hnone
        push Not at hnone
        rw [List.forall_mem_map] at hnone
        exact hunfit ((hranges (FitsInt n)).mp hnone)
      obtain ⟨x, hx, hcount⟩ := exists_byte_miscounted hsharded.tiles hne hsome
      have hone := hkeeps _ (length_one_letter hx) x 'a' (get_one_letter n x) rfl
      rw [List.countP_map] at hcount
      exact hcount hone
    · intro hfits b hb x c hx hc
      subst hb
      have hall := (hranges (FitsInt b.length)).mpr hfits
      have hlive : ∀ r ∈ pieces.map ShardInfo.range, roundAhead b r.1 ≤ r.2 := by
        rw [List.forall_mem_map, hranges fun r => roundAhead b r.1 ≤ r.2]
        refine ⟨Nat.zero_le _, fun k hlt => round_ahead_le_end ?_ ?_⟩ <;>
          rw [Nat.succ_mul] <;> omega
      have hcount := count_keeps_rounded hx hc hsharded.tiles hne hlive
      rw [round_ahead_zero, if_pos (Nat.zero_le x), List.countP_map] at hcount
      rw [← hcount]
      refine List.countP_congr fun p hp => ?_
      have hpiece : IsPiece b p.range := is_piece_of_tiles hsharded.tiles hne
        (by rw [List.forall_mem_map]; exact hall) _ (List.mem_map_of_mem hp)
      rw [Function.comp_apply, keeps_byte_eq (p := p.range.1) (q := p.range.2) hpiece hx hc]

/-- A word of forty bytes in shards of sixteen, the first of which has room for three: the fix of
the last piece throws, and the byte at offset 37 is kept by the piece before it. -/
theorem shards_keep_bytes_forty :
    ∃ pieces rem', makeBlobShards 41 16 [] 40 3 = some (pieces, rem') ∧
      pieces.map ShardInfo.range = [(0, 3), (3, 19), (19, 35), (35, 40)] ∧
      (pieces.countP fun p => keepsByte (List.replicate 40 'a') p.range 37) = 1 := by
  obtain ⟨pieces, rem', hrun, hkeeps⟩ := shards_keep_bytes_iff [] (n := 40) (by decide)
    (by omega : 1 ≤ 3) (by omega : 3 ≤ 16) (by omega) (by omega)
  have hcut := hrun 41 (by omega)
  refine ⟨pieces, rem', hcut, ?_, ?_⟩
  · obtain rfl : _ = pieces := congrArg Prod.fst (Option.some.inj hcut)
    rfl
  · exact hkeeps.mpr (shards_fit_of_lt (by decide) (by decide)) _ (by decide) 37 'a' rfl rfl

/-- Shards of `2 ^ 32` bytes, and a blob of one byte more, which `make_shards` cuts into two pieces.
The length of the first is `0` as an `int`, and a letter at its end is in no piece. -/
theorem shards_lose_byte :
    ∃ pieces rem', (∀ fuel > 2 ^ 32 + 1,
        makeBlobShards fuel (2 ^ 32) [] (2 ^ 32 + 1) (2 ^ 32) = some (pieces, rem')) ∧
      ∃ b : Str, b.length = 2 ^ 32 + 1 ∧ b[2 ^ 32 - 1]? = some 'a' ∧ isSeparator 'a' = false ∧
        (pieces.countP fun p => keepsByte b p.range (2 ^ 32 - 1)) = 0 := by
  have hrun : makeBlobShards 1 (2 ^ 32) [] (2 ^ 32 + 1) (2 ^ 32) =
      some ([⟨[], 0, 2 ^ 32, false⟩, ⟨[], 2 ^ 32, 2 ^ 32 + 1, true⟩], 2 ^ 32 - 1) := by
    decide +kernel
  refine ⟨_, _, fun fuel hfuel => make_blob_shards_mono hrun (by omega), ?_⟩
  have hlength := length_one_letter (by omega : 2 ^ 32 - 1 < 2 ^ 32 + 1)
  have hletter := get_one_letter (2 ^ 32 + 1) (2 ^ 32 - 1)
  have hranges : [(0, 2 ^ 32), (2 ^ 32, 2 ^ 32 + 1)] =
      [(⟨[], 0, 2 ^ 32, false⟩ : ShardInfo), ⟨[], 2 ^ 32, 2 ^ 32 + 1, true⟩].map ShardInfo.range :=
    rfl
  have hcount := letter_lost
  rw [hranges, List.countP_map] at hcount
  exact ⟨oneLetter (2 ^ 32 + 1) (2 ^ 32 - 1), hlength, hletter, rfl, hcount⟩

end MapReduce
