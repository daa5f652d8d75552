import MapReduce.Library.Tiling
import MapReduce.Library.Words
import MapReduce.Worker.Boundary

/-!
# The pieces of a blob

What `write_partial_data_to_local_file` leaves of a piece of a blob. Read `read_piece_eq` first: a
piece whose sizes fit in an `int` (`FitsInt`) is rounded to word boundaries, up to a separator at
its end. Then its words are those from where its begin is rounded to, up to where its end is rounded
to (`piece_words_of`).

A piece whose sizes do not fit loses its last byte (`read_piece_short`), or keeps all bytes that
were read behind its end (`read_piece_untrimmed`). Either shows in a blob of a single letter
(`exists_byte_miscounted`).
-/

namespace MapReduce

open Words

/-! ## Reading a piece -/

/-- `download_range_to_stream` on a blob: the range is clipped at its end. -/
def downloadRange (b : Str) (_blobname : Str) (offset length : Nat) : Option Str :=
  some ((b.drop offset).take length)

/-- The data of a piece `[r.1, r.2)` of a blob that is written for the map function. -/
def readPiece (b : Str) (r : Nat × Nat) : Option Str :=
  writePartialDataToLocalFile (downloadRange b) [] r.1 r.2

/-- The bytes of a piece and those read behind its end, rounded to word boundaries. -/
def roundedPiece (b : Str) (r : Nat × Nat) : Option Str :=
  roundedData r.1 r.2 ((b.drop r.1).take (r.2 - r.1 + extraLen))

/-- The sizes of a piece of `n` bytes fit in the integers of the source: it ends the blob, or its
length and the bytes read behind its end fit in an `int`. The `int`s that wrap around do no harm
either if a single byte is behind the end, and the size with it wraps to a negative number. -/
def FitsInt (n : Nat) (r : Nat × Nat) : Prop :=
  r.2 - r.1 + extraLen < 2 ^ 64 ∧
    (r.2 = n ∨ r.2 - r.1 + min extraLen (n - r.2) < 2 ^ 31 ∨
      n - r.2 = 1 ∧ (r.2 - r.1) % 2 ^ 32 = 2 ^ 31 - 1)

instance (n : Nat) (r : Nat × Nat) : Decidable (FitsInt n r) := inferInstanceAs (Decidable (_ ∧ _))

/-- A short piece fits. -/
theorem fits_int_of_lt {n : Nat} {r : Nat × Nat} (h : r.2 - r.1 + extraLen < 2 ^ 31) :
    FitsInt n r :=
  ⟨by omega, .inr (.inl (by omega))⟩

/-- The pieces of a short blob fit. -/
theorem fits_int_of_length {n : Nat} {r : Nat × Nat} (hle : r.1 ≤ r.2) (hr : r.2 ≤ n)
    (h : n < 2 ^ 31) : FitsInt n r := by
  have hread : r.2 - r.1 + min extraLen (n - r.2) ≤ n := by omega
  refine ⟨?_, .inr (.inl (Nat.lt_of_le_of_lt hread h))⟩
  unfold extraLen
  omega

/-- The number of bytes that are read. -/
theorem length_read {b : Str} {p q : Nat} (hle : p ≤ q) (hq : q ≤ b.length) :
    ((b.drop p).take (q - p + extraLen)).length = q - p + min extraLen (b.length - q) := by
  rw [List.length_take, List.length_drop]
  omega

/-- The bytes of a piece are read with `extraLen` bytes behind its end. -/
theorem read_piece_of_lt {b : Str} {p q : Nat} (hle : p ≤ q) (h : q - p + extraLen < 2 ^ 64) :
    readPiece b (p, q) = fixWordBoundary p q ((b.drop p).take (q - p + extraLen)) := by
  have hlen : sizeAdd (sizeSub q p) extraLen = q - p + extraLen := by
    rw [size_sub_eq hle (by omega), sizeAdd, Nat.mod_eq_of_lt h]
  show fixWordBoundary p q ((b.drop p).take (sizeAdd (sizeSub q p) extraLen)) = _
  rw [hlen]

/-- Nothing is cut off behind the end where the size of the data is no larger than the length of the
piece, as `int`s. -/
theorem fix_word_boundary_whole {begin_ end_ : Nat} {collection : Str}
    (h : toInt32 collection.length ≤ toInt32 (sizeSub end_ begin_)) :
    fixWordBoundary begin_ end_ collection = blankedData begin_ collection := by
  rw [fix_word_boundary_bind]
  refine (Option.map_congr fun s hs => ?_).trans Option.map_id'
  rw [length_blanked_data hs, if_neg (Int.not_lt.mpr h)]

/-- A piece that fits is rounded to word boundaries; a separator behind its end may stay. -/
theorem read_piece_eq {b : Str} {p q : Nat} (hle : p ≤ q) (hq : q ≤ b.length)
    (h : FitsInt b.length (p, q)) :
    ∃ seps, (∀ c ∈ seps, isSeparator c = true) ∧
      readPiece b (p, q) = (roundedPiece b (p, q)).map (· ++ seps) := by
  obtain ⟨hsize, hfits⟩ := h
  have hlength := length_read hle hq
  rw [read_piece_of_lt hle hsize, roundedPiece]
  dsimp only at hsize hfits ⊢
  generalize (b.drop p).take (q - p + extraLen) = s at hlength
  rcases hfits with hend | hint | ⟨hone, hmod⟩
  · -- nothing is behind the end
    have hsame : s.length = q - p := by omega
    refine ⟨[], by simp, ?_⟩
    have hwhole : toInt32 s.length ≤ toInt32 (sizeSub q p) :=
      Int.le_of_eq (by rw [hsame, size_sub_eq hle (by omega)])
    rw [fix_word_boundary_whole hwhole, roundedData, Option.map_map]
    refine (Option.map_id'.symm.trans (Option.map_congr fun t ht => ?_))
    have htlen := length_blanked_data ht
    rw [Function.comp_apply, List.take_of_length_le (by omega), List.drop_of_length_le (by omega)]
    simp
  · refine ⟨[], by simp, ?_⟩
    rw [fix_word_boundary_eq hle (by omega) (by omega)]
    simp
  · -- the size wraps around, and the byte behind the end stays
    have hlength : s.length = q - p + 1 := by
      unfold extraLen at hlength
      omega
    have hwrap : toInt32 s.length ≤ toInt32 (sizeSub q p) := by
      have hnext : (s.length : Int) % 2 ^ 32 = 2 ^ 31 := by omega
      have hlast : ((q - p : Nat) : Int) % 2 ^ 32 = 2 ^ 31 - 1 := by omega
      rw [size_sub_eq hle (by omega), to_int32_eq, to_int32_eq, hlast, hnext]
      decide
    rw [fix_word_boundary_whole hwrap, roundedData]
    cases ht : blankedData p s with
    | none => exact ⟨[], by simp, rfl⟩
    | some t =>
        have htlen := length_blanked_data ht
        obtain ⟨c, hc⟩ : ∃ c, t.drop (q - p) = [c] := by
          rw [← List.length_eq_one_iff, List.length_drop]
          omega
        have happend : t = t.take (q - p) ++ [c] := by rw [← hc, List.take_append_drop]
        refine ⟨[c].dropWhile fun c => !isSeparator c, fun d hd => ?_, ?_⟩
        · rw [List.dropWhile_cons] at hd
          cases hsep : isSeparator c with
          | true =>
              obtain rfl : d = c := by simpa [hsep] using hd
              exact hsep
          | false => simp [hsep] at hd
        · rw [Option.map_some, Option.map_some, hc, List.append_assoc,
            List.takeWhile_append_dropWhile, ← happend]

/-- A piece has no more bytes than are read. -/
theorem length_read_piece_le_size {b s : Str} {p q : Nat} (h : readPiece b (p, q) = some s) :
    s.length ≤ sizeAdd (sizeSub q p) extraLen := by
  refine Nat.le_trans (length_fix_word_boundary_le h) ?_
  rw [List.length_take]
  exact Nat.min_le_left _ _

/-- A piece has no more bytes than its own and `extraLen`. -/
theorem length_read_piece_le {b s : Str} {p q : Nat} (hle : p ≤ q)
    (h : readPiece b (p, q) = some s) : s.length ≤ q - p + extraLen := by
  refine Nat.le_trans (length_read_piece_le_size h) ?_
  unfold sizeAdd sizeSub
  omega

/-- The number of bytes that are read is no larger than the length of the piece, as `int`s:
`fix_word_boundary` cuts nothing off behind the end. -/
def Untrimmed (n : Nat) (r : Nat × Nat) : Prop :=
  r.2 - r.1 + extraLen < 2 ^ 64 ∧
    toInt32 (r.2 - r.1 + min extraLen (n - r.2)) ≤ toInt32 (r.2 - r.1)

/-- All bytes behind the end of an untrimmed piece stay. -/
theorem read_piece_untrimmed {b : Str} {p q : Nat} (hle : p ≤ q) (hq : q ≤ b.length)
    (h : Untrimmed b.length (p, q)) :
    readPiece b (p, q) = blankedData p ((b.drop p).take (q - p + extraLen)) := by
  obtain ⟨hsize, hwhole⟩ := h
  dsimp only at hsize hwhole
  rw [read_piece_of_lt hle hsize, fix_word_boundary_whole]
  rw [length_read hle hq, size_sub_eq hle (by omega)]
  exact hwhole

/-- What keeps a piece from fitting. -/
theorem not_fits_int {n : Nat} {r : Nat × Nat} (hsize : r.2 - r.1 + extraLen < 2 ^ 64)
    (h : ¬FitsInt n r) :
    r.2 ≠ n ∧ 2 ^ 31 ≤ r.2 - r.1 + min extraLen (n - r.2) ∧
      (n - r.2 = 1 → (r.2 - r.1) % 2 ^ 32 ≠ 2 ^ 31 - 1) := by
  refine ⟨fun hend => h ⟨hsize, .inl hend⟩, ?_, fun hone hmod => ?_⟩
  · by_contra hint
    exact h ⟨hsize, .inr (.inl (by omega))⟩
  · exact h ⟨hsize, .inr (.inr ⟨hone, hmod⟩)⟩

/-- More than one byte is behind the end of an untrimmed piece that does not fit. -/
theorem untrimmed_end {n : Nat} {r : Nat × Nat} (hr : r.2 ≤ n) (hunfit : ¬FitsInt n r)
    (h : Untrimmed n r) : r.2 + 1 < n := by
  obtain ⟨hsize, hwhole⟩ := h
  obtain ⟨hend, -, hone⟩ := not_fits_int hsize hunfit
  have hbehind : 0 < min extraLen (n - r.2) := by
    unfold extraLen
    omega
  have hwraps := to_int32_wraps hbehind (Nat.min_le_left _ _) hwhole
  omega

/-- A piece that does not fit and is trimmed is cut before its end. -/
theorem read_piece_short {b s : Str} {p q : Nat} (hlt : p < q) (hq : q ≤ b.length)
    (hunfit : ¬FitsInt b.length (p, q)) (h : ¬Untrimmed b.length (p, q))
    (hs : readPiece b (p, q) = some s) : s.length < q - p := by
  by_cases hsize : q - p + extraLen < 2 ^ 64
  · obtain ⟨hend, hint, -⟩ := not_fits_int hsize hunfit
    dsimp only at hend hint
    have hbehind : 0 < min extraLen (b.length - q) := by
      unfold extraLen
      omega
    have hcut : toInt32 (q - p) < toInt32 (q - p + min extraLen (b.length - q)) :=
      Int.not_le.mp fun hwhole => h ⟨hsize, hwhole⟩
    rw [read_piece_of_lt (Nat.le_of_lt hlt) hsize, fix_word_boundary_bind,
      Option.map_eq_some_iff] at hs
    obtain ⟨u, hu, rfl⟩ := hs
    rw [length_blanked_data hu, length_read (Nat.le_of_lt hlt) hq,
      size_sub_eq (Nat.le_of_lt hlt) (by omega), if_pos hcut]
    have hlength := length_erase_behind_lt (toInt32 (q - p)) u
    -- the bytes in front of an `int` are fewer than the piece has, unless its length is one
    by_contra hlong
    have hgrows := to_int32_grows hbehind (Nat.min_le_left _ _) hcut (by omega)
    omega
  · have hread := length_read_piece_le_size hs
    unfold sizeAdd sizeSub extraLen at hread
    unfold extraLen at hsize
    omega

/-- A piece that does not fit is long. -/
theorem extra_len_lt {n : Nat} {r : Nat × Nat} (h : ¬FitsInt n r) : extraLen < r.2 - r.1 := by
  by_contra hle
  refine h (fits_int_of_lt ?_)
  unfold extraLen at hle ⊢
  omega

/-! ## Rounding -/

/-- The offset that a begin or end `p` of a piece is rounded to. -/
def roundAhead (b : Str) (p : Nat) : Nat := if p = 0 then 0 else p + overlap (b.drop p)

/-- The first piece. -/
theorem rounded_piece_zero (b : Str) (q : Nat) :
    roundedPiece b (0, q) = some (b.take (q + overlap (b.drop q))) := by
  show roundedData 0 q ((b.drop 0).take (q - 0 + extraLen)) = _
  rw [roundedData, blankedData, if_neg (by simp), Option.map_some, Nat.sub_zero, List.drop_zero,
    List.take_take, List.drop_take, Nat.add_sub_cancel_left, take_while_extra,
    Nat.min_eq_left (Nat.le_add_right q extraLen), List.take_add]

/-- A piece inside the blob. -/
theorem rounded_piece_pos {b s : Str} {p q m k : Nat} (hp : p ≠ 0) (hs : b.drop p = s)
    (hm : q - p = m) (hk : overlap s = k) :
    (roundedPiece b (p, q) = none ∧ s.drop k = []) ∨
    (k ≤ m ∧ roundedPiece b (p, q) =
      some (List.replicate k ' ' ++ (s.drop k).take (m - k + overlap (s.drop m)))) ∨
    (m < k ∧ roundedPiece b (p, q) = some (List.replicate m ' ')) := by
  have hpiece : roundedPiece b (p, q) = (blankPrefix extraLen (s.take (m + extraLen))).map fun s =>
      s.take m ++ (s.drop m).takeWhile fun c => !isSeparator c := by
    show roundedData p q ((b.drop p).take (q - p + extraLen)) = _
    rw [roundedData, blankedData, if_pos hp, hs, hm]
  have hgap : gap (s.take (m + extraLen)) = min (m + extraLen) (gap s) := List.findIdx_take
  have hmin : min extraLen (min (m + extraLen) (gap s)) = k := by
    unfold overlap at hk
    omega
  rw [blank_prefix_eq, hgap, hmin] at hpiece
  split at hpiece
  · next hthrow =>
    rw [List.length_take] at hthrow
    unfold overlap at hk
    exact .inl ⟨hpiece, List.drop_of_length_le (by omega)⟩
  · right
    rw [hpiece, Option.map_some, List.take_append, List.drop_append, List.take_replicate,
      List.drop_replicate, List.length_replicate, List.drop_drop]
    rcases Nat.lt_or_ge m k with hlt | hle
    · right
      refine ⟨hlt, ?_⟩
      obtain ⟨j, hj⟩ : ∃ j, k - m = j + 1 := ⟨k - m - 1, by omega⟩
      rw [hj, List.replicate_succ, Nat.sub_eq_zero_of_le hlt.le, Nat.min_eq_left hlt.le]
      simp [isSeparator]
    · left
      refine ⟨hle, ?_⟩
      rw [Nat.min_eq_right hle, Nat.sub_eq_zero_of_le hle, List.replicate_zero, List.nil_append,
        Nat.add_sub_cancel' hle, List.drop_take, List.drop_take, Nat.add_sub_cancel_left,
        take_while_extra, List.take_take, Nat.min_eq_left (by omega), List.append_assoc,
        List.take_add, List.drop_drop, Nat.add_sub_cancel' hle]

/-- The bytes from `q` on, seen from `p`. -/
theorem drop_drop_sub (b : Str) {p q : Nat} (h : p ≤ q) : (b.drop p).drop (q - p) = b.drop q := by
  rw [List.drop_drop, Nat.add_sub_cancel' h]

/-- The bytes from `i` up to `j`. -/
def slice (b : Str) (i j : Nat) : Str := (b.drop i).take (j - i)

/-- The bytes of a slice. -/
theorem mem_slice {b : Str} {i j k : Nat} {c : Char} (h : b[k]? = some c) (hi : i ≤ k)
    (hj : k < j) : c ∈ slice b i j := by
  refine List.mem_of_getElem? (i := k - i) ?_
  rw [slice, List.getElem?_take_of_lt (by omega), List.getElem?_drop, Nat.add_sub_cancel' hi, h]

/-- The first piece begins at the front of the blob. -/
@[simp] theorem round_ahead_zero (b : Str) : roundAhead b 0 = 0 := rfl

/-- Any other piece leaves the overlap to the piece before it. -/
theorem round_ahead_pos {b : Str} {p : Nat} (hp : p ≠ 0) :
    roundAhead b p = p + overlap (b.drop p) :=
  if_neg hp

/-- Without a separator, at most `extraLen` bytes are left to the piece before. -/
theorem round_ahead_long {b : Str} {p : Nat} (hp : p ≠ 0) (h : extraLen ≤ gap (b.drop p)) :
    roundAhead b p = p + extraLen := by
  rw [round_ahead_pos hp, overlap, Nat.min_eq_left h]

/-- A piece starts at its begin or behind it. -/
theorem le_round_ahead (b : Str) (p : Nat) : p ≤ roundAhead b p := by
  unfold roundAhead
  split <;> omega

/-- The first piece does not end before its start. -/
theorem ne_zero_of_lt {b : Str} {p q : Nat} (h : q < roundAhead b p) : p ≠ 0 := by
  rintro rfl
  exact absurd h (Nat.not_lt_zero q)

/-- The bytes between the start of a piece and that of the next, if the piece ends before it
starts. -/
theorem lost_eq {b : Str} {p q : Nat} (hp : p ≠ 0) (hpq : p < q) (h : q < roundAhead b p) :
    roundAhead b p ≤ roundAhead b q ∧ slice b (roundAhead b p) (roundAhead b q) =
      if extraLen ≤ gap (b.drop p) then
        ((b.drop (p + extraLen)).take (q - p)).takeWhile fun c => !isSeparator c
      else [] := by
  have hdrop : b.drop q = (b.drop p).drop (q - p) := (drop_drop_sub b (Nat.le_of_lt hpq)).symm
  have hq : q ≠ 0 := by omega
  rw [round_ahead_pos hp] at h ⊢
  rw [round_ahead_pos hq, hdrop]
  unfold overlap at h ⊢
  have hgap : gap ((b.drop p).drop (q - p)) = gap (b.drop p) - (q - p) := gap_drop (by omega)
  rw [hgap]
  refine ⟨by omega, ?_⟩
  split
  · next hlong =>
    have hrest : gap (b.drop (p + extraLen)) = gap (b.drop p) - extraLen := by
      rw [← List.drop_drop, gap_drop hlong]
    have htake : gap ((b.drop (p + extraLen)).take (q - p)) =
        min (q - p) (gap (b.drop (p + extraLen))) := List.findIdx_take
    rw [take_while_eq, htake, hrest, List.take_take, Nat.min_eq_left hlong, slice]
    congr 1
    omega
  · next hshort =>
    unfold slice
    rw [List.take_eq_nil_iff]
    left
    omega

/-- A blob from `i` on, cut at `j`. -/
theorem drop_eq_slice_append (b : Str) {i j : Nat} (h : i ≤ j) :
    b.drop i = slice b i j ++ b.drop j := by
  rw [← drop_drop_sub b h, slice, List.take_append_drop]

/-- The end of the blob is the end of the last piece. -/
theorem drop_round_ahead_length (b : Str) : b.drop (roundAhead b b.length) = [] :=
  List.drop_of_length_le (le_round_ahead b b.length)

/-- A piece never starts behind the start of the next one. -/
theorem round_ahead_le {b : Str} {p q : Nat} (hpq : p < q) : roundAhead b p ≤ roundAhead b q := by
  rcases Nat.lt_or_ge q (roundAhead b p) with hdead | hlive
  · exact (lost_eq (ne_zero_of_lt hdead) hpq hdead).1
  · exact Nat.le_trans hlive (le_round_ahead b q)

/-- The words of a piece, for separators `sep` that a blanked byte is one of, are those from its
start up to the start of the next piece, and none if it ends before its start. -/
theorem rounded_words_of {sep : Char → Bool} (hblank : sep ' ' = true) {b : Str} {p q : Nat}
    (h : p < q) :
    ((roundedPiece b (p, q)).map (words sep)).getD [] =
      if roundAhead b p ≤ q then words sep (slice b (roundAhead b p) (roundAhead b q))
      else [] := by
  have hspaces : ∀ n, ∀ c ∈ List.replicate n ' ', sep c = true := fun n c hc => by
    rw [List.eq_of_mem_replicate hc]
    exact hblank
  rw [round_ahead_pos (Nat.ne_of_gt (Nat.zero_lt_of_lt h))]
  unfold slice
  by_cases hp : p = 0
  · subst hp
    rw [rounded_piece_zero, round_ahead_zero, if_pos (Nat.zero_le q), List.drop_zero, Nat.sub_zero]
    rfl
  · have hdrop := drop_drop_sub b (Nat.le_of_lt h)
    have hstart : (b.drop p).drop (overlap (b.drop p)) = b.drop (p + overlap (b.drop p)) :=
      List.drop_drop
    rw [round_ahead_pos hp]
    rcases rounded_piece_pos hp rfl rfl rfl with ⟨hread, hnil⟩ | ⟨hle, hread⟩ | ⟨hlt, hread⟩
    · rw [hread, ← hstart, hnil]
      simp
    · rw [hread, if_pos (by omega), Option.map_some, Option.getD_some,
        words_append_of_seps (hspaces _), hstart, hdrop]
      congr 2
      omega
    · rw [hread, if_neg (by omega), Option.map_some, Option.getD_some, words_eq_nil (hspaces _)]

/-- A non-empty piece of a blob, whose sizes fit. -/
structure IsPiece (b : Str) (r : Nat × Nat) : Prop where
  lt : r.1 < r.2
  le : r.2 ≤ b.length
  fits : FitsInt b.length r

/-- The pieces of a cut. -/
theorem is_piece_of_tiles {b : Str} {rs : List (Nat × Nat)} (htiles : Tiles 0 rs b.length)
    (hne : ∀ r ∈ rs, r.1 < r.2) (hfits : ∀ r ∈ rs, FitsInt b.length r) :
    ∀ r ∈ rs, IsPiece b r :=
  fun r hr => ⟨hne r hr, (htiles.mem_le hr).2, hfits r hr⟩

/-- The words of a piece are those of the rounded piece. -/
theorem piece_words_of {sep : Char → Bool} (hseps : ∀ c, isSeparator c = true → sep c = true)
    {b : Str} {p q : Nat} (h : IsPiece b (p, q)) :
    ((readPiece b (p, q)).map (words sep)).getD [] =
      if roundAhead b p ≤ q then words sep (slice b (roundAhead b p) (roundAhead b q))
      else [] := by
  obtain ⟨seps, hall, hread⟩ := read_piece_eq (Nat.le_of_lt h.lt) h.le h.fits
  rw [hread, ← rounded_words_of (hseps ' ' rfl) h.lt]
  cases roundedPiece b (p, q) with
  | none => rfl
  | some s => exact words_append_seps (fun c hc => hseps c (hall c hc)) s

/-! ## Bytes -/

/-- The piece `r` keeps the byte at offset `x` of the blob, at its place. -/
def keepsByte (b : Str) (r : Nat × Nat) (x : Nat) : Bool :=
  r.1 ≤ x && (readPiece b r).any fun s => s[x - r.1]? = b[x]?

/-- The rounded piece `r` keeps the byte at offset `x` of the blob, at its place. -/
def keepsRounded (b : Str) (r : Nat × Nat) (x : Nat) : Bool :=
  r.1 ≤ x && (roundedPiece b r).any fun s => s[x - r.1]? = b[x]?

/-- A rounded piece that ends behind its start keeps the bytes of its words, from its start up to
the start of the next piece. -/
theorem keeps_rounded_iff {b : Str} {p q x : Nat} {c : Char} (hpq : p < q)
    (hlive : roundAhead b p ≤ q) (hx : b[x]? = some c) (hc : isSeparator c = false) :
    keepsRounded b (p, q) x = true ↔ roundAhead b p ≤ x ∧ x < roundAhead b q := by
  have hq : q ≠ 0 := by omega
  unfold keepsRounded
  rw [round_ahead_pos hq, hx]
  by_cases hp : p = 0
  · subst hp
    rw [rounded_piece_zero, round_ahead_zero, Option.any_some, Nat.sub_zero, List.getElem?_take, hx]
    simp
  · have hdrop := drop_drop_sub b (Nat.le_of_lt hpq)
    rw [round_ahead_pos hp] at hlive ⊢
    rcases rounded_piece_pos hp rfl rfl rfl with ⟨hread, hnil⟩ | ⟨hle, hread⟩ | ⟨hlt, hread⟩
    · -- the fix throws: the blob ends before the piece starts
      have hlen : b.length ≤ p + overlap (b.drop p) := by
        rw [List.drop_drop] at hnil
        exact List.drop_eq_nil_iff.mp hnil
      have hlt : x < b.length := (List.getElem?_eq_some_iff.mp hx).1
      rw [hread]
      simp only [Option.any_none, Bool.and_false, Bool.false_eq_true, false_iff]
      omega
    · rw [hread, Option.any_some, hdrop, List.getElem?_append, List.length_replicate]
      simp only [Bool.and_eq_true, decide_eq_true_eq]
      by_cases hpx : p ≤ x
      · split
        · next hblank =>
          -- a blanked byte
          rw [List.getElem?_replicate_of_lt hblank, Option.some.injEq]
          have hne : ' ' ≠ c := by
            rintro rfl
            exact absurd hc (by decide)
          simp only [hne, and_false, false_iff]
          omega
        · next hkept =>
          have hplace : p + (overlap (b.drop p) + (x - p - overlap (b.drop p))) = x := by omega
          rw [List.getElem?_take, List.getElem?_drop, List.getElem?_drop, hplace, hx]
          simp only [ite_eq_left_iff, reduceCtorEq, imp_false, not_not]
          omega
      · simp only [hpx, false_and, false_iff]
        omega
    · omega

/-- If every piece ends behind its start, each byte of a word from where `a` is rounded to is in
exactly one piece of a cut of `[a, b.length)`, and no other byte of a word is in any. -/
theorem count_keeps_rounded {b : Str} {x a : Nat} {c : Char} {rs : List (Nat × Nat)}
    (hx : b[x]? = some c) (hc : isSeparator c = false) (htiles : Tiles a rs b.length)
    (hne : ∀ r ∈ rs, r.1 < r.2) (hlive : ∀ r ∈ rs, roundAhead b r.1 ≤ r.2) :
    (rs.countP fun r => keepsRounded b r x) = if roundAhead b a ≤ x then 1 else 0 := by
  induction rs generalizing a with
  | nil =>
      obtain rfl : a = b.length := htiles
      have hlt : x < b.length := (List.getElem?_eq_some_iff.mp hx).1
      have hle := le_round_ahead b b.length
      rw [List.countP_nil, if_neg (by omega)]
  | cons r rs ih =>
      obtain ⟨p, q⟩ := r
      obtain ⟨rfl, _, htiles⟩ := htiles
      rw [List.forall_mem_cons] at hne hlive
      have hiff := keeps_rounded_iff hne.1 hlive.1 hx hc
      have hmono := round_ahead_le hne.1 (b := b)
      rw [List.countP_cons, ih htiles hne.2 hlive.2]
      dsimp only at hiff hmono ⊢
      by_cases hkeeps : keepsRounded b (p, q) x = true
      · obtain ⟨hfrom, hto⟩ := hiff.mp hkeeps
        rw [if_pos hkeeps, if_pos hfrom, if_neg (by omega)]
      · rw [if_neg hkeeps]
        rw [hiff] at hkeeps
        by_cases hfrom : roundAhead b q ≤ x
        · rw [if_pos hfrom, if_pos (by omega)]
        · rw [if_neg hfrom, if_neg (by omega)]

/-- A piece that fits keeps the bytes of words that the rounded piece keeps. -/
theorem keeps_byte_eq {b : Str} {p q x : Nat} {c : Char} (h : IsPiece b (p, q))
    (hx : b[x]? = some c) (hc : isSeparator c = false) :
    keepsByte b (p, q) x = keepsRounded b (p, q) x := by
  obtain ⟨seps, hall, hread⟩ := read_piece_eq (Nat.le_of_lt h.lt) h.le h.fits
  unfold keepsByte keepsRounded
  rw [hread, hx]
  cases roundedPiece b (p, q) with
  | none => rfl
  | some s =>
      simp only [Option.map_some, Option.any_some]
      rw [List.getElem?_append]
      split
      · rfl
      · next hlength =>
        have hnone : s[x - p]? = none := List.getElem?_eq_none (by omega)
        have hsep : seps[x - p - s.length]? ≠ some c := by
          intro hmem
          have htrue := hall c (List.mem_of_getElem? hmem)
          rw [hc] at htrue
          cases htrue
        simp [hnone, hsep]

/-- An untrimmed piece keeps at least the bytes that the rounded piece keeps. -/
theorem keeps_byte_of_untrimmed {b : Str} {p q x : Nat} {c : Char} (hle : p ≤ q)
    (hq : q ≤ b.length) (h : Untrimmed b.length (p, q)) (hx : b[x]? = some c)
    (hkeeps : keepsRounded b (p, q) x = true) : keepsByte b (p, q) x = true := by
  unfold keepsRounded roundedPiece roundedData at hkeeps
  unfold keepsByte
  rw [read_piece_untrimmed hle hq h, hx]
  rw [hx, Option.any_map] at hkeeps
  dsimp only at hkeeps ⊢
  rw [Bool.and_eq_true, Option.any_eq_true] at hkeeps ⊢
  obtain ⟨hbegin, s, hs, hplace⟩ := hkeeps
  refine ⟨hbegin, s, hs, ?_⟩
  rw [decide_eq_true_eq, ← take_add_gap, List.getElem?_take] at hplace
  split at hplace
  · exact decide_eq_true hplace
  · cases hplace

/-- The last byte of a piece that is too short is in no piece of the cut. -/
theorem count_keeps_byte_short {b : Str} {c : Char} {rs : List (Nat × Nat)} {r : Nat × Nat}
    (htiles : Tiles 0 rs b.length) (hne : ∀ r ∈ rs, r.1 < r.2) (hr : r ∈ rs)
    (hunfit : ¬FitsInt b.length r) (h : ¬Untrimmed b.length r) (hx : b[r.2 - 1]? = some c) :
    (rs.countP fun r' => keepsByte b r' (r.2 - 1)) = 0 := by
  rw [List.countP_eq_zero]
  intro r' hr' hkeeps
  have hlong := extra_len_lt hunfit
  have hpos := hne r hr
  unfold keepsByte at hkeeps
  rw [hx, Bool.and_eq_true, decide_eq_true_eq, Option.any_eq_true] at hkeeps
  obtain ⟨hbegin, s, hs, hplace⟩ := hkeeps
  have hlt := (List.getElem?_eq_some_iff.mp (of_decide_eq_true hplace)).1
  rcases htiles.apart hr hr' with rfl | hbehind | hbefore
  · have hshort := read_piece_short hpos (htiles.mem_le hr).2 hunfit h hs
    omega
  · omega
  · have hpos' := hne r' hr'
    have hlength := length_read_piece_le (Nat.le_of_lt hpos') hs
    omega

/-! ## A single letter -/

/-- A blob of `n` bytes with a single letter, at offset `x`. -/
def oneLetter (n x : Nat) : Str := List.replicate x ' ' ++ 'a' :: List.replicate (n - x - 1) ' '

/-- The length of a blob of a single letter. -/
theorem length_one_letter {n x : Nat} (h : x < n) : (oneLetter n x).length = n := by
  rw [oneLetter, List.length_append, List.length_cons, List.length_replicate,
    List.length_replicate]
  omega

/-- The letter. -/
theorem get_one_letter (n x : Nat) : (oneLetter n x)[x]? = some 'a' := by
  rw [oneLetter, List.getElem?_append_right (by simp), List.length_replicate, Nat.sub_self]
  rfl

/-- All other bytes are spaces. -/
theorem get_one_letter_of_ne {n x i : Nat} (h : i ≠ x) {c : Char}
    (hc : (oneLetter n x)[i]? = some c) : c = ' ' := by
  rw [oneLetter, List.getElem?_append, List.length_replicate] at hc
  split at hc
  · exact List.eq_of_mem_replicate (List.mem_of_getElem? hc)
  · next hbehind =>
    obtain ⟨j, hj⟩ : ∃ j, i - x = j + 1 := ⟨i - x - 1, by omega⟩
    rw [hj, List.getElem?_cons_succ] at hc
    exact List.eq_of_mem_replicate (List.mem_of_getElem? hc)

/-- The gap ends at a separator. -/
theorem gap_le_of {s : Str} {k : Nat} (h : ∀ c, s[k]? = some c → isSeparator c = true) :
    gap s ≤ k := by
  by_contra hlt
  rw [Nat.not_le] at hlt
  have hk : k < s.length := Nat.lt_of_lt_of_le hlt List.findIdx_le_length
  have hsep := List.not_of_lt_findIdx hlt
  rw [h s[k] (List.getElem?_eq_getElem hk)] at hsep
  cases hsep

/-- In front of its letter, a blob of a single letter has a separator everywhere. -/
theorem gap_one_letter_of_ne {n x i : Nat} (h : i ≠ x) : gap ((oneLetter n x).drop i) = 0 := by
  refine Nat.le_zero.mp (gap_le_of fun c hc => ?_)
  rw [List.getElem?_drop, Nat.add_zero] at hc
  rw [get_one_letter_of_ne h hc]
  decide

/-- No piece of a blob of a single letter ends before its start. -/
theorem round_ahead_one_letter (n x : Nat) {p q : Nat} (h : p < q) :
    roundAhead (oneLetter n x) p ≤ q := by
  have hgap : gap ((oneLetter n x).drop p) ≤ 1 := by
    by_cases hp : p = x
    · refine gap_le_of fun c hc => ?_
      rw [List.getElem?_drop] at hc
      rw [get_one_letter_of_ne (by omega) hc]
      decide
    · rw [gap_one_letter_of_ne hp]
      exact Nat.zero_le 1
  unfold roundAhead overlap
  split <;> omega

/-- The rounded pieces keep the letter once. -/
theorem count_rounded_one_letter {n x : Nat} (hx : x < n) {rs : List (Nat × Nat)}
    (htiles : Tiles 0 rs n) (hne : ∀ r ∈ rs, r.1 < r.2) :
    (rs.countP fun r => keepsRounded (oneLetter n x) r x) = 1 := by
  rw [← length_one_letter hx] at htiles
  rw [count_keeps_rounded (get_one_letter n x) rfl htiles hne fun r hr =>
    round_ahead_one_letter n x (hne r hr), round_ahead_zero, if_pos (Nat.zero_le x)]

/-- An untrimmed piece that does not fit keeps a letter behind its end, which the rounded piece does
not keep. -/
theorem keeps_letter_behind {n : Nat} {r : Nat × Nat} (hle : r.1 < r.2) (hr : r.2 ≤ n)
    (hunfit : ¬FitsInt n r) (h : Untrimmed n r) :
    keepsByte (oneLetter n (r.2 + 1)) r (r.2 + 1) = true ∧
      keepsRounded (oneLetter n (r.2 + 1)) r (r.2 + 1) = false := by
  obtain ⟨p, q⟩ := r
  dsimp only at hle hr ⊢
  have hend : q + 1 < n := untrimmed_end hr hunfit h
  have hlong : extraLen < q - p := extra_len_lt hunfit
  have hlength := length_one_letter hend
  have hletter := get_one_letter n (q + 1)
  constructor
  · rw [← hlength] at h hr
    have hread := length_read (Nat.le_of_lt hle) hr
    obtain ⟨t, ht, hsame⟩ := get_blanked_data p
      (s := ((oneLetter n (q + 1)).drop p).take (q - p + extraLen)) (by omega)
    unfold keepsByte
    rw [read_piece_untrimmed (Nat.le_of_lt hle) hr h, ht, hletter, Option.any_some,
      hsame _ (by omega), List.getElem?_take_of_lt (by unfold extraLen; omega), List.getElem?_drop,
      Nat.add_sub_cancel' (by omega : p ≤ q + 1), hletter]
    simp
    omega
  · have hiff := keeps_rounded_iff hle (round_ahead_one_letter n (q + 1) hle) hletter rfl
    have hstart : roundAhead (oneLetter n (q + 1)) q = q := by
      rw [round_ahead_pos (by omega), overlap, gap_one_letter_of_ne (by omega)]
      rfl
    rw [hstart] at hiff
    rw [← Bool.not_eq_true, hiff]
    omega

/-- The letter is the only word. -/
theorem words_one_letter (sep : Char → Bool) (hspace : sep ' ' = true) (hletter : sep 'a' = false)
    (n x : Nat) : words sep (oneLetter n x) = [['a']] := by
  have hspaces : ∀ k, ∀ c ∈ List.replicate k ' ', sep c = true := fun k c hc => by
    rw [List.eq_of_mem_replicate hc]
    exact hspace
  have hrun : words sep ['a'] = [['a']] := words_run (by decide) (by simpa using hletter)
  rw [oneLetter, words_append_of_seps (hspaces x)]
  exact (words_append_seps (hspaces _) ['a']).trans hrun

/-- A piece of a blob of a single letter has a word exactly if it keeps the letter. -/
theorem piece_words_one_letter (sep : Char → Bool) (hspace : sep ' ' = true)
    (hletter : sep 'a' = false) (n x : Nat) (r : Nat × Nat) :
    ((readPiece (oneLetter n x) r).map (words sep)).getD [] ≠ [] ↔
      keepsByte (oneLetter n x) r x = true := by
  unfold keepsByte
  cases hs : readPiece (oneLetter n x) r with
  | none => simp
  | some s =>
      rw [Option.map_some, Option.getD_some, Ne, words_eq_nil_iff, get_one_letter, Bool.and_eq_true,
        decide_eq_true_eq, Option.any_some, decide_eq_true_eq]
      constructor
      · intro hword
        push Not at hword
        obtain ⟨c, hmem, hc⟩ := hword
        obtain ⟨i, hi⟩ := List.mem_iff_getElem?.mp hmem
        have hne : c ≠ ' ' := by
          rintro rfl
          exact hc hspace
        have hplace : (oneLetter n x)[r.1 + i]? = some c := by
          rcases get_fix_word_boundary hs hi with hblank | hread
          · exact absurd hblank hne
          · rw [List.getElem?_take] at hread
            split at hread
            · rwa [List.getElem?_drop] at hread
            · cases hread
        obtain rfl : r.1 + i = x := by
          by_contra hother
          exact hne (get_one_letter_of_ne hother hplace)
        rw [get_one_letter, Option.some.injEq] at hplace
        refine ⟨Nat.le_add_right _ _, ?_⟩
        rw [Nat.add_sub_cancel_left, hi, hplace]
      · intro hkeeps hall
        have hsep := hall 'a' (List.mem_of_getElem? hkeeps.2)
        rw [hletter] at hsep
        cases hsep

/-- If lists have one entry together, one of them is not empty. -/
theorem count_ne_nil {f : Nat × Nat → List Str} {keeps : Nat × Nat → Bool} {rs : List (Nat × Nat)}
    (hiff : ∀ r, f r ≠ [] ↔ keeps r = true) (h : (rs.flatMap f).length = 1) :
    rs.countP keeps = 1 := by
  induction rs with
  | nil => cases h
  | cons r rs ih =>
      rw [List.flatMap_cons, List.length_append] at h
      rw [List.countP_cons]
      by_cases hr : f r = []
      · have hnot : ¬keeps r = true := fun hkeeps => (hiff r).mpr hkeeps hr
        rw [if_neg hnot, ih (by simpa [hr] using h)]
      · have hpos := List.length_pos_iff.mpr hr
        have hrest : rs.flatMap f = [] := List.eq_nil_of_length_eq_zero (by omega)
        have hnone : rs.countP keeps = 0 := by
          rw [List.countP_eq_zero]
          intro q hq hkeeps
          exact (hiff q).mpr hkeeps (List.flatMap_eq_nil_iff.mp hrest q hq)
        rw [if_pos ((hiff r).mp hr), hnone]

/-- If the pieces of a blob of a single letter have one word, one of them keeps the letter. -/
theorem count_letter_of_words (sep : Char → Bool) (hspace : sep ' ' = true)
    (hletter : sep 'a' = false) {n x : Nat} {rs : List (Nat × Nat)}
    (h : (rs.flatMap fun r => ((readPiece (oneLetter n x) r).map (words sep)).getD []).length = 1) :
    (rs.countP fun r => keepsByte (oneLetter n x) r x) = 1 :=
  count_ne_nil (piece_words_one_letter sep hspace hletter n x) h

/-- If a condition holds of one entry of a list, two entries it holds of are the same. -/
theorem eq_of_count_one {α : Type} {keeps : α → Bool} {rs : List α} (hone : rs.countP keeps = 1)
    {r r' : α} (hr : r ∈ rs) (hkeeps : keeps r = true) (hr' : r' ∈ rs)
    (hkeeps' : keeps r' = true) : r = r' := by
  rw [List.countP_eq_length_filter, List.length_eq_one_iff] at hone
  obtain ⟨s, hs⟩ := hone
  have honly : ∀ q ∈ rs, keeps q = true → q = s := by
    intro q hq hkeeps
    rw [← List.mem_singleton, ← hs]
    exact List.mem_filter.mpr ⟨hq, hkeeps⟩
  rw [honly r hr hkeeps, honly r' hr' hkeeps']

/-- If a piece of a cut does not fit, some blob of a single letter has its letter not in exactly one
piece. -/
theorem exists_byte_miscounted {n : Nat} {rs : List (Nat × Nat)} (htiles : Tiles 0 rs n)
    (hne : ∀ r ∈ rs, r.1 < r.2) (h : ∃ r ∈ rs, ¬FitsInt n r) :
    ∃ x < n, (rs.countP fun r => keepsByte (oneLetter n x) r x) ≠ 1 := by
  by_cases hshort : ∃ r ∈ rs, ¬FitsInt n r ∧ ¬Untrimmed n r
  · obtain ⟨r, hr, hunfit, htrimmed⟩ := hshort
    have hpos := hne r hr
    have hx : r.2 - 1 < n := by
      have hend := (htiles.mem_le hr).2
      omega
    refine ⟨r.2 - 1, hx, ?_⟩
    rw [← length_one_letter hx] at htiles hunfit htrimmed
    rw [count_keeps_byte_short htiles hne hr hunfit htrimmed (get_one_letter n _)]
    decide
  · obtain ⟨r, hr, hunfit⟩ := h
    have huntrimmed : ∀ r ∈ rs, ¬FitsInt n r → Untrimmed n r := fun r hr hunfit => by
      by_contra htrimmed
      exact hshort ⟨r, hr, hunfit, htrimmed⟩
    have hend := (htiles.mem_le hr).2
    have hx := untrimmed_end hend hunfit (huntrimmed r hr hunfit)
    have hlength := length_one_letter hx
    obtain ⟨hkeeps, hnot⟩ := keeps_letter_behind (hne r hr) hend hunfit (huntrimmed r hr hunfit)
    -- the rounded pieces keep the letter too, in another piece
    have hrounded := count_rounded_one_letter hx htiles hne
    obtain ⟨r', hr', hkeeps'⟩ := List.countP_pos_iff.mp (hrounded ▸ Nat.one_pos)
    have hkeepsAlso : keepsByte (oneLetter n (r.2 + 1)) r' (r.2 + 1) = true := by
      have hend' := (htiles.mem_le hr').2
      rw [← hlength] at hend'
      by_cases hfits : FitsInt n r'
      · rw [← hlength] at hfits
        exact (keeps_byte_eq ⟨hne r' hr', hend', hfits⟩ (get_one_letter n _)
          rfl).trans hkeeps'
      · have hwhole := huntrimmed r' hr' hfits
        rw [← hlength] at hwhole
        exact keeps_byte_of_untrimmed (Nat.le_of_lt (hne r' hr')) hend' hwhole
          (get_one_letter n _) hkeeps'
    refine ⟨r.2 + 1, hx, fun hone => ?_⟩
    rw [eq_of_count_one hone hr' hkeepsAlso hr hkeeps, hnot] at hkeeps'
    cases hkeeps'

end MapReduce
