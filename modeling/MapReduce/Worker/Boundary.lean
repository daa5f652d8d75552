import MapReduce.Master.Helpers

/-!
# Word boundaries

`WorkerDBConnection::fix_word_boundary` and the read of a piece in
`write_partial_data_to_local_file` (`w7/src/worker/worker.h`). A piece is read with `EXTRA_LEN`
bytes behind its end. Unless it begins its blob, its bytes up to the first separator are blanked,
since the piece before it has them; then it is cut at the first separator at or after its end.

The sizes are `size_t`s and the positions `int`s. Where the length of the piece and the number of
bytes that were read fit in an `int`, the piece is rounded as described (`fix_word_boundary_eq`).
-/

namespace MapReduce

/-- `EXTRA_LEN`. -/
def extraLen : Nat := 16

/-- The separators `fix_word_boundary` knows. -/
def isSeparator (c : Char) : Bool := c = ' ' || c = '.' || c = ','

/-- The first loop of `fix_word_boundary`: at most `n` characters up to a separator are overwritten
with spaces. `collection.at` throws at the end of the data. -/
def blankPrefix : Nat → Str → Option Str
  | 0, collection => some collection
  | _ + 1, [] => none
  | n + 1, c :: collection =>
      if isSeparator c then some (c :: collection)
      else (blankPrefix n collection).map (' ' :: ·)

/-- The bytes before the first separator. -/
def gap (s : Str) : Nat := s.findIdx isSeparator

/-- The second loop of `fix_word_boundary`, from `endpos` up to a separator or the end of the data,
and the `erase` behind it. A negative position is no loop and an `erase` in front of the data; so is
one behind the largest `int`, where `i++` wraps around. The size of the data is negative then, and
`write` writes nothing. -/
def eraseBehind (endpos : Int) (collection : Str) : Str :=
  let i := endpos.toNat + gap (collection.drop endpos.toNat)
  if endpos < 0 ∨ 2 ^ 31 ≤ i then [] else collection.take i

/-- `fix_word_boundary`; it returns the collection it leaves, or `none` if it throws. -/
def fixWordBoundary (begin_ end_ : Nat) (collection : Str) : Option Str := do
  let collection ← if begin_ ≠ 0 then blankPrefix extraLen collection else some collection
  let endpos := toInt32 (sizeSub end_ begin_)
  let eofpos := toInt32 collection.length
  if eofpos > endpos then some (eraseBehind endpos collection)
  else some collection

/-- `write_partial_data_to_local_file`: the content of the file it writes, or `none` where it
returns `false` and leaves the name of the file empty. A download that raises a storage exception
is `none`. -/
def writePartialDataToLocalFile (download : Str → Nat → Nat → Option Str) (blobname : Str)
    (begin_ end_ : Nat) : Option Str := do
  let len := sizeAdd (sizeSub end_ begin_) extraLen
  let collection ← download blobname begin_ len
  fixWordBoundary begin_ end_ collection

/-! ## What a piece keeps -/

/-- The bytes at the front of `s` that belong to the piece that ends there. -/
def overlap (s : Str) : Nat := min extraLen (gap s)

/-- The bytes before the first separator, as the loops of `fix_word_boundary` find them. -/
theorem take_while_eq (s : Str) : (s.takeWhile fun c => !isSeparator c) = s.take (gap s) := by
  rw [List.takeWhile_eq_take_findIdx_not]
  simp [gap]

/-- The bytes that are behind the end of a piece and belong to it. -/
theorem take_while_extra (s : Str) :
    ((s.take extraLen).takeWhile fun c => !isSeparator c) = s.take (overlap s) := by
  rw [take_while_eq, gap, List.findIdx_take, List.take_take]
  congr 1
  unfold overlap gap
  omega

/-- Dropping bytes before the first separator. -/
theorem gap_drop {s : Str} {m : Nat} (h : m ≤ gap s) : gap (s.drop m) = gap s - m := by
  induction s generalizing m with
  | nil => simp [gap]
  | cons c s ih =>
      cases m with
      | zero => rfl
      | succ m =>
          unfold gap at h ih ⊢
          rw [List.findIdx_cons] at h ⊢
          cases hc : isSeparator c with
          | true => simp [hc] at h
          | false =>
              rw [hc, cond_false] at h
              rw [List.drop_succ_cons, ih (by omega), cond_false]
              omega

/-- `blankPrefix` throws if the data ends before it finds a separator or has seen `n` bytes. -/
theorem blank_prefix_eq (n : Nat) (s : Str) :
    blankPrefix n s =
      if s.length < n ∧ gap s = s.length then none
      else some (List.replicate (min n (gap s)) ' ' ++ s.drop (min n (gap s))) := by
  induction n generalizing s with
  | zero => simp [blankPrefix]
  | succ n ih =>
      cases s with
      | nil => simp [blankPrefix, gap]
      | cons c s =>
          have hcons : gap (c :: s) = bif isSeparator c then 0 else gap s + 1 := List.findIdx_cons
          cases hc : isSeparator c with
          | true => simp [blankPrefix, hc, hcons]
          | false =>
              have hgap : gap (c :: s) = gap s + 1 := by rw [hcons, hc, cond_false]
              have hmin : min (n + 1) (gap s + 1) = min n (gap s) + 1 := by omega
              rw [blankPrefix, if_neg (by simp [hc]), ih, hgap, hmin]
              simp only [List.length_cons, Nat.add_lt_add_iff_right, Nat.add_right_cancel_iff]
              split
              · rfl
              · simp [List.replicate_succ]

/-- What is left in front of a position has the length of an `int`. -/
theorem length_erase_behind_lt (endpos : Int) (s : Str) :
    (eraseBehind endpos s).length < 2 ^ 31 := by
  simp only [eraseBehind]
  split
  · decide
  · next hposition =>
    rw [not_or, Nat.not_le] at hposition
    rw [List.length_take]
    exact Nat.lt_of_le_of_lt (Nat.min_le_left _ _) hposition.2

/-- Blanking keeps the length of the data. -/
theorem length_blank_prefix {n : Nat} {s t : Str} (h : blankPrefix n s = some t) :
    t.length = s.length := by
  rw [blank_prefix_eq] at h
  split at h
  · cases h
  · cases h
    have hle : gap s ≤ s.length := List.findIdx_le_length
    rw [List.length_append, List.length_replicate, List.length_drop]
    omega

/-- What blanking leaves is the data, at its place, and spaces. -/
theorem get_blank_prefix {n : Nat} {s t : Str} (h : blankPrefix n s = some t) {i : Nat} {c : Char}
    (hc : t[i]? = some c) : c = ' ' ∨ s[i]? = some c := by
  rw [blank_prefix_eq] at h
  split at h
  · cases h
  · cases h
    rw [List.getElem?_append, List.length_replicate] at hc
    split at hc
    · exact .inl (List.eq_of_mem_replicate (List.mem_of_getElem? hc))
    · next hbehind =>
      rw [List.getElem?_drop, Nat.add_sub_cancel' (Nat.not_lt.mp hbehind)] at hc
      exact .inr hc

/-- The data of a piece, blanked at its front. -/
def blankedData (begin_ : Nat) (collection : Str) : Option Str :=
  if begin_ ≠ 0 then blankPrefix extraLen collection else some collection

/-- The data of a piece that is rounded to word boundaries at both ends: what `fix_word_boundary`
leaves if its positions are exact. -/
def roundedData (begin_ end_ : Nat) (collection : Str) : Option Str :=
  (blankedData begin_ collection).map fun s =>
    s.take (end_ - begin_) ++ (s.drop (end_ - begin_)).takeWhile fun c => !isSeparator c

/-- Blanking keeps the length of the data. -/
theorem length_blanked_data {begin_ : Nat} {s t : Str} (h : blankedData begin_ s = some t) :
    t.length = s.length := by
  unfold blankedData at h
  split at h
  · exact length_blank_prefix h
  · cases h
    rfl

/-- Only the first `extraLen` bytes are blanked. -/
theorem get_blanked_data (begin_ : Nat) {s : Str} (h : extraLen ≤ s.length) :
    ∃ t, blankedData begin_ s = some t ∧ ∀ i, extraLen ≤ i → t[i]? = s[i]? := by
  unfold blankedData
  split
  · rw [blank_prefix_eq, if_neg (by omega)]
    refine ⟨_, rfl, fun i hi => ?_⟩
    have hle : min extraLen (gap s) ≤ i := by omega
    rw [List.getElem?_append_right (by simpa using hle), List.length_replicate, List.getElem?_drop,
      Nat.add_sub_cancel' hle]
  · exact ⟨s, rfl, fun _ _ => rfl⟩

/-- `fix_word_boundary` throws where blanking does. -/
theorem fix_word_boundary_bind (begin_ end_ : Nat) (collection : Str) :
    fixWordBoundary begin_ end_ collection =
      (blankedData begin_ collection).map fun s =>
        if toInt32 s.length > toInt32 (sizeSub end_ begin_) then
          eraseBehind (toInt32 (sizeSub end_ begin_)) s
        else s := by
  have hend : ∀ s : Str, (if toInt32 s.length > toInt32 (sizeSub end_ begin_) then
      some (eraseBehind (toInt32 (sizeSub end_ begin_)) s) else some s) =
      some (if toInt32 s.length > toInt32 (sizeSub end_ begin_) then
        eraseBehind (toInt32 (sizeSub end_ begin_)) s else s) := by
    intro s
    split <;> rfl
  unfold fixWordBoundary blankedData
  simp only [hend]
  split
  · cases blankPrefix extraLen collection <;> rfl
  · rfl

/-- Cutting the data behind `m` bytes at the first separator. -/
theorem take_add_gap (s : Str) (m : Nat) :
    s.take (m + gap (s.drop m)) =
      s.take m ++ (s.drop m).takeWhile fun c => !isSeparator c := by
  rw [List.take_add, take_while_eq]

/-- A position that is an `int` is exact. -/
theorem to_int32_of_lt {n : Nat} (h : n < 2 ^ 31) : toInt32 n = n :=
  Int.bmod_eq_of_le (by omega) (by omega)

/-- A `size_t` as an `int`, by its last 32 bits. -/
theorem to_int32_eq (n : Nat) :
    toInt32 n =
      if (n : Int) % 2 ^ 32 < 2 ^ 31 then (n : Int) % 2 ^ 32 else (n : Int) % 2 ^ 32 - 2 ^ 32 := by
  show Int.bmod n (2 ^ 32) = _
  rw [Int.bmod_def]
  rfl

/-- A position that a few more bytes do not make larger is at the largest `int`s. -/
theorem to_int32_wraps {d e : Nat} (hpos : 0 < e) (hle : e ≤ extraLen)
    (h : toInt32 (d + e) ≤ toInt32 d) : d % 2 ^ 32 < 2 ^ 31 ∧ 2 ^ 31 ≤ d % 2 ^ 32 + e := by
  unfold extraLen at hle
  rw [to_int32_eq, to_int32_eq] at h
  split at h <;> split at h <;> omega

/-- A position from which a few more bytes lead to larger ones is no `int`, or they are. -/
theorem to_int32_grows {d e : Nat} (hpos : 0 < e) (hle : e ≤ extraLen)
    (h : toInt32 d < toInt32 (d + e)) (hint : d < 2 ^ 31) : d + e < 2 ^ 31 := by
  unfold extraLen at hle
  rw [to_int32_eq, to_int32_eq] at h
  split at h <;> split at h <;> omega

/-- The length of a piece, as a `size_t`. -/
theorem size_sub_eq {begin_ end_ : Nat} (hle : begin_ ≤ end_) (h : end_ - begin_ < 2 ^ 64) :
    sizeSub end_ begin_ = end_ - begin_ := by
  unfold sizeSub
  omega

/-- If the length of a piece and the number of bytes that were read fit in an `int`,
`fix_word_boundary` rounds the piece to word boundaries. -/
theorem fix_word_boundary_eq {begin_ end_ : Nat} {collection : Str} (hle : begin_ ≤ end_)
    (hpiece : end_ - begin_ < 2 ^ 31) (hread : collection.length < 2 ^ 31) :
    fixWordBoundary begin_ end_ collection = roundedData begin_ end_ collection := by
  rw [fix_word_boundary_bind, roundedData, size_sub_eq hle (by omega), to_int32_of_lt hpiece]
  refine Option.map_congr fun s hs => ?_
  have hlength := length_blanked_data hs
  rw [to_int32_of_lt (by omega), ← take_add_gap]
  have hgap : gap (s.drop (end_ - begin_)) ≤ s.length - (end_ - begin_) := by
    rw [← List.length_drop]
    exact List.findIdx_le_length
  split
  · rw [eraseBehind, Int.toNat_natCast, if_neg (by omega)]
  · -- the end of the data is no separator to look for: nothing is cut off there
    rw [List.take_of_length_le (by omega)]

/-- `fix_word_boundary` leaves no more bytes than were read. -/
theorem length_fix_word_boundary_le {begin_ end_ : Nat} {s t : Str}
    (h : fixWordBoundary begin_ end_ s = some t) : t.length ≤ s.length := by
  rw [fix_word_boundary_bind, Option.map_eq_some_iff] at h
  obtain ⟨u, hblank, rfl⟩ := h
  rw [← length_blanked_data hblank]
  split
  · simp only [eraseBehind]
    split
    · exact Nat.zero_le _
    · rw [List.length_take]
      exact Nat.min_le_right _ _
  · exact Nat.le_refl _

/-- What `fix_word_boundary` leaves is the data, at its place, and spaces. -/
theorem get_fix_word_boundary {begin_ end_ : Nat} {s t : Str}
    (h : fixWordBoundary begin_ end_ s = some t) {i : Nat} {c : Char} (hc : t[i]? = some c) :
    c = ' ' ∨ s[i]? = some c := by
  rw [fix_word_boundary_bind, Option.map_eq_some_iff] at h
  obtain ⟨u, hblank, rfl⟩ := h
  have hplace : u[i]? = some c := by
    split at hc
    · simp only [eraseBehind] at hc
      split at hc
      · cases hc
      · rw [List.getElem?_take] at hc
        split at hc
        · exact hc
        · cases hc
    · exact hc
  unfold blankedData at hblank
  split at hblank
  · exact get_blank_prefix hblank hplace
  · cases hblank
    exact .inr hplace

/-! ## The data of a piece -/

/-- The data of a piece that the bytes `bytes` were read for: up to the first separator, and not
more than `extraLen` of them, they are blanked unless the piece begins its blob; and they end at the
first separator behind the end of the piece. -/
def roundedBytes (begin_ end_ : Nat) (bytes : Str) : Str :=
  let bytes := if begin_ = 0 then bytes
    else List.replicate (overlap bytes) ' ' ++ bytes.drop (overlap bytes)
  bytes.take (end_ - begin_ + gap (bytes.drop (end_ - begin_)))

/-- Rounding does not run off the bytes: the piece begins its blob, or its first `extraLen` bytes
were read, or a separator among fewer. -/
def Roundable (begin_ : Nat) (bytes : Str) : Prop :=
  begin_ = 0 ∨ extraLen ≤ bytes.length ∨ ∃ c ∈ bytes, isSeparator c = true

/-- Blanking throws where it runs off the bytes. -/
theorem rounded_data_eq_some_iff {begin_ end_ : Nat} {bytes data : Str} :
    roundedData begin_ end_ bytes = some data ↔
      Roundable begin_ bytes ∧ roundedBytes begin_ end_ bytes = data := by
  have hgap : gap bytes = bytes.length ↔ ¬∃ c ∈ bytes, isSeparator c = true := by
    simp [gap, List.findIdx_eq_length]
  simp only [roundedData, blankedData, roundedBytes, ← take_add_gap]
  by_cases hbegin : begin_ = 0
  · simp [hbegin, Roundable]
  · rw [if_pos hbegin, if_neg hbegin, blank_prefix_eq]
    by_cases hthrow : bytes.length < extraLen ∧ gap bytes = bytes.length
    · rw [if_pos hthrow, Option.map_none]
      refine iff_of_false (by simp) fun hboth => ?_
      rcases hboth.1 with hzero | hlong | hsep
      · exact hbegin hzero
      · omega
      · exact hgap.mp hthrow.2 hsep
    · rw [if_neg hthrow, Option.map_some, Option.some.injEq]
      refine (and_iff_right ?_).symm
      by_cases hlong : extraLen ≤ bytes.length
      · exact .inr (.inl hlong)
      · refine .inr (.inr ?_)
        by_contra hnone
        exact hthrow ⟨by omega, hgap.mpr hnone⟩

end MapReduce
