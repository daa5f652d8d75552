import MapReduce.Worker.MapWords
import MapReduce.Worker.Pieces

/-!
# Cutting a blob into pieces

Each piece of a blob is read with `write_partial_data_to_local_file` and mapped on its own. Read
`cut_keeps_counts_iff` first: it says when the counts of the pieces add up to those of the blob.

If its sizes fit in an `int`, a piece counts the words from where its begin is rounded to, up to
where its end is rounded to (`piece_words_eq`). Then two things go wrong. If sixteen bytes behind
the end of a piece hold none of the separators `fix_word_boundary` knows, the piece ends there,
which may be inside a word (`EndsBetweenWords`). If a piece ends before its begin is rounded, it
counts nothing, and the bytes between that and the rounded end are in no piece (`LosesNoLetter`). A
lost letter shows in the number of letters (`piece_letters`), and a word that is cut in the number
of words (`piece_words_length`).
-/

namespace MapReduce

open Words

/-! ## The words of a piece -/

/-- The words the map function counts in a piece. -/
def pieceWords (b : Str) (r : Nat × Nat) : List Str :=
  ((readPiece b r).map (words endsWord)).getD []

/-- Separators end words. -/
theorem ends_word_of_separator {c : Char} (h : isSeparator c = true) : endsWord c = true := by
  simp only [isSeparator, Bool.or_eq_true, decide_eq_true_eq] at h
  rcases h with (rfl | rfl) | rfl <;> decide

/-- The words the map function counts in a piece. -/
theorem piece_words_eq {b : Str} {p q : Nat} (h : IsPiece b (p, q)) :
    pieceWords b (p, q) =
      if roundAhead b p ≤ q then words endsWord (slice b (roundAhead b p) (roundAhead b q))
      else [] :=
  piece_words_of (fun _ => ends_word_of_separator) h

/-- The data of the pieces of a plain text is plain. -/
theorem PlainText.read_piece {b s : Str} (hb : PlainText b) {r : Nat × Nat}
    (h : readPiece b r = some s) : PlainText s := by
  intro c hc
  obtain ⟨i, hi⟩ := List.mem_iff_getElem?.mp hc
  rcases get_fix_word_boundary h hi with rfl | hread
  · decide
  · exact hb c (List.mem_of_mem_drop (List.mem_of_mem_take (List.mem_of_getElem? hread)))

/-! ## Rounded pieces -/

/-- A letter or a digit stands at offset `i`. -/
def letterAt (b : Str) (i : Nat) : Bool := b[i]?.any fun c => !endsWord c

/-- No word is cut `extraLen` bytes behind the end `q` of a piece, if no separator comes before. -/
def EndsBetweenWords (b : Str) (q : Nat) : Prop :=
  extraLen ≤ gap (b.drop q) →
    ¬(letterAt b (q + extraLen - 1) = true ∧ letterAt b (q + extraLen) = true)

/-- A piece inside the blob that is shorter than `extraLen` and begins with `extraLen` bytes without
separator: up to the next separator, the bytes that follow them hold no letter or digit, as far as
the piece before did not read them and the next one leaves them. -/
def LosesNoLetter (b : Str) (r : Nat × Nat) : Prop :=
  r.1 ≠ 0 → r.2 < r.1 + extraLen → extraLen ≤ gap (b.drop r.1) →
    ∀ c ∈ ((b.drop (r.1 + extraLen)).take (r.2 - r.1)).takeWhile fun c => !isSeparator c,
      endsWord c = true

/-- The byte at the first separator is no letter. -/
theorem letter_at_gap (b : Str) (q : Nat) : letterAt b (q + gap (b.drop q)) = false := by
  unfold letterAt
  rw [← List.getElem?_drop]
  cases hc : (b.drop q)[gap (b.drop q)]? with
  | none => rfl
  | some c =>
      have hsep : isSeparator c = true := List.findIdx_of_getElem?_eq_some hc
      simp [ends_word_of_separator hsep]

/-- A letter stands at `i`. -/
theorem letter_at_iff {b : Str} {i : Nat} :
    letterAt b i = true ↔ ∃ c, b[i]? = some c ∧ endsWord c = false := by
  simp [letterAt, Option.any_eq_true]

/-- Where the next piece starts is inside a word exactly if `EndsBetweenWords` fails. -/
theorem splits_iff {b : Str} {i q : Nat} (hq : q ≠ 0) (h : i ≤ q) :
    Splits endsWord (slice b i (roundAhead b q)) (b.drop (roundAhead b q)) ↔
      ¬EndsBetweenWords b q := by
  have hle : i ≤ roundAhead b q := Nat.le_trans h (le_round_ahead b q)
  unfold EndsBetweenWords
  by_cases hlong : extraLen ≤ gap (b.drop q)
  · have hstart : roundAhead b q = q + extraLen := round_ahead_long hq hlong
    have hlt : i < q + extraLen := by
      unfold extraLen
      omega
    rw [hstart, slice, splits_slice_iff hlt, letter_at_iff, letter_at_iff, Classical.not_imp,
      not_not]
    constructor
    · intro hsplits
      obtain ⟨c, d, hc, hd, hpc, hpd⟩ := hsplits
      exact ⟨hlong, ⟨c, hc, hpc⟩, d, hd, hpd⟩
    · intro hletters
      obtain ⟨-, ⟨c, hc, hpc⟩, d, hd, hpd⟩ := hletters
      exact ⟨c, d, hc, hd, hpc, hpd⟩
  · have hstart : roundAhead b q = q + gap (b.drop q) := by
      rw [round_ahead_pos hq, overlap, Nat.min_eq_right (by omega)]
    refine iff_of_false ?_ fun hends => hends fun hlong' => absurd hlong' hlong
    intro hsplits
    obtain ⟨c, d, -, hd, -, hpd⟩ := hsplits
    have hgap := letter_at_gap b q
    rw [List.head?_drop, hstart] at hd
    rw [letter_at_iff.mpr ⟨d, hd, hpd⟩] at hgap
    cases hgap

/-- What `LosesNoLetter` says of a piece that ends before its start. -/
theorem loses_no_letter_iff {b : Str} {p q : Nat} (hpq : p < q) :
    LosesNoLetter b (p, q) ↔
      (q < roundAhead b p →
        ∀ c ∈ slice b (roundAhead b p) (roundAhead b q), endsWord c = true) := by
  unfold LosesNoLetter
  by_cases hp : p = 0
  · subst hp
    simp
  · constructor
    · intro hloses hdead
      rw [(lost_eq hp hpq hdead).2]
      split
      · next hlong =>
        rw [round_ahead_long hp hlong] at hdead
        exact hloses hp hdead hlong
      · simp
    · intro hlost _ hshort hlong
      have hdead : q < roundAhead b p := by
        rw [round_ahead_long hp hlong]
        exact hshort
      rw [(lost_eq hp hpq hdead).2, if_pos hlong] at hlost
      exact hlost hdead

/-- A piece that ends before its start and loses no letter ends between words. -/
theorem LosesNoLetter.ends_between_words {b : Str} {p q : Nat} (h : LosesNoLetter b (p, q))
    (hpq : p < q) (hdead : q < roundAhead b p) : EndsBetweenWords b q := by
  intro hlong hboth
  obtain ⟨hletter, -⟩ := hboth
  have hp := ne_zero_of_lt hdead
  have hlost := (loses_no_letter_iff hpq).mp h hdead
  obtain ⟨c, hc, hpc⟩ := letter_at_iff.mp hletter
  have hmem : c ∈ slice b (roundAhead b p) (roundAhead b q) := by
    have hq : q ≠ 0 := by omega
    have hend : roundAhead b q = q + extraLen := round_ahead_long hq hlong
    have hbegin : roundAhead b p ≤ p + extraLen := by
      rw [round_ahead_pos hp, overlap]
      omega
    exact mem_slice hc (by omega) (by unfold extraLen at *; omega)
  rw [hlost c hmem] at hpc
  cases hpc

/-! ## All pieces -/

/-- One piece that ends behind its start, and the rest of the blob. -/
theorem words_live {b : Str} {p q : Nat} (h : IsPiece b (p, q)) (hlive : roundAhead b p ≤ q)
    (hends : EndsBetweenWords b q) :
    words endsWord (b.drop (roundAhead b p)) =
      pieceWords b (p, q) ++ words endsWord (b.drop (roundAhead b q)) := by
  have hq : q ≠ 0 := Nat.ne_of_gt (Nat.zero_lt_of_lt h.lt)
  have hsplits : ¬Splits endsWord (slice b (roundAhead b p) (roundAhead b q))
      (b.drop (roundAhead b q)) := fun hsplits => (splits_iff hq hlive).mp hsplits hends
  rw [piece_words_eq h, if_pos hlive, drop_eq_slice_append b (round_ahead_le h.lt),
    words_append hsplits]

/-- One piece that ends before its start and loses no letter, and the rest of the blob. -/
theorem words_dead {b : Str} {p q : Nat} (h : IsPiece b (p, q)) (hdead : q < roundAhead b p)
    (hloses : LosesNoLetter b (p, q)) :
    words endsWord (b.drop (roundAhead b p)) =
      pieceWords b (p, q) ++ words endsWord (b.drop (roundAhead b q)) := by
  have hp := ne_zero_of_lt hdead
  rw [piece_words_eq h, if_neg (by omega), drop_eq_slice_append b (lost_eq hp h.lt hdead).1,
    words_append_of_seps ((loses_no_letter_iff h.lt).mp hloses hdead), List.nil_append]

/-- Rounded pieces have the words of the blob. -/
theorem piece_words_of_rounds {b : Str} {a : Nat} {rs : List (Nat × Nat)}
    (htiles : Tiles a rs b.length) (hpieces : ∀ r ∈ rs, IsPiece b r)
    (h : ∀ r ∈ rs, EndsBetweenWords b r.2 ∧ LosesNoLetter b r) :
    rs.flatMap (pieceWords b) = words endsWord (b.drop (roundAhead b a)) := by
  induction rs generalizing a with
  | nil =>
      obtain rfl : a = b.length := htiles
      rw [drop_round_ahead_length]
      rfl
  | cons r rs ih =>
      obtain ⟨p, q⟩ := r
      obtain ⟨rfl, _, htiles⟩ := htiles
      rw [List.forall_mem_cons] at hpieces h
      rw [List.flatMap_cons, ih htiles hpieces.2 h.2]
      rcases Nat.lt_or_ge q (roundAhead b p) with hdead | hlive
      · exact (words_dead hpieces.1 hdead h.1.2).symm
      · exact (words_live hpieces.1 hlive h.1.1).symm

/-- The letters of the pieces are at most those of the blob, and fewer if a piece loses one. -/
theorem piece_letters {b : Str} {a : Nat} {rs : List (Nat × Nat)}
    (htiles : Tiles a rs b.length) (hpieces : ∀ r ∈ rs, IsPiece b r) :
    (rs.flatMap (pieceWords b)).flatten.length ≤
      (words endsWord (b.drop (roundAhead b a))).flatten.length ∧
    ((rs.flatMap (pieceWords b)).flatten.length =
      (words endsWord (b.drop (roundAhead b a))).flatten.length → ∀ r ∈ rs, LosesNoLetter b r) := by
  induction rs generalizing a with
  | nil => simp
  | cons r rs ih =>
      obtain ⟨p, q⟩ := r
      obtain ⟨rfl, _, htiles⟩ := htiles
      rw [List.forall_mem_cons] at hpieces
      have hlt : p < q := hpieces.1.lt
      obtain ⟨hle, heq⟩ := ih htiles hpieces.2
      dsimp only at hle heq ⊢
      have hletters : (words endsWord (b.drop (roundAhead b p))).flatten.length =
          (words endsWord (slice b (roundAhead b p) (roundAhead b q))).flatten.length +
            (words endsWord (b.drop (roundAhead b q))).flatten.length := by
        rw [drop_eq_slice_append b (round_ahead_le hlt)]
        simp only [flatten_words, List.filter_append, List.length_append]
      rw [List.flatMap_cons, List.flatten_append, List.length_append, piece_words_eq hpieces.1,
        List.forall_mem_cons, loses_no_letter_iff hlt, hletters]
      rcases Nat.lt_or_ge q (roundAhead b p) with hdead | hlive
      · rw [if_neg (by omega), List.flatten_nil, List.length_nil]
        refine ⟨by omega, fun hsame => ⟨fun _ => ?_, heq (by omega)⟩⟩
        have hnone : (words endsWord (slice b (roundAhead b p) (roundAhead b q))).flatten = [] :=
          List.eq_nil_of_length_eq_zero (by omega)
        rw [flatten_words, List.filter_eq_nil_iff] at hnone
        simpa using hnone
      · rw [if_pos hlive]
        exact ⟨by omega, fun hsame => ⟨fun hdead => by omega, heq (by omega)⟩⟩

/-- If no piece loses a letter, the words of the pieces are at least as many as those of the blob,
and more if a piece ends inside a word. -/
theorem piece_words_length {b : Str} {a : Nat} {rs : List (Nat × Nat)}
    (htiles : Tiles a rs b.length) (hpieces : ∀ r ∈ rs, IsPiece b r)
    (hloses : ∀ r ∈ rs, LosesNoLetter b r) :
    (words endsWord (b.drop (roundAhead b a))).length ≤ (rs.flatMap (pieceWords b)).length ∧
    ((rs.flatMap (pieceWords b)).length = (words endsWord (b.drop (roundAhead b a))).length →
      ∀ r ∈ rs, EndsBetweenWords b r.2) := by
  induction rs generalizing a with
  | nil =>
      obtain rfl : a = b.length := htiles
      rw [drop_round_ahead_length]
      simp
  | cons r rs ih =>
      obtain ⟨p, q⟩ := r
      obtain ⟨rfl, _, htiles⟩ := htiles
      rw [List.forall_mem_cons] at hpieces hloses
      have hlt : p < q := hpieces.1.lt
      obtain ⟨hle, heq⟩ := ih htiles hpieces.2 hloses.2
      dsimp only at hle heq ⊢
      rw [List.flatMap_cons, List.length_append, List.forall_mem_cons]
      rcases Nat.lt_or_ge q (roundAhead b p) with hdead | hlive
      · rw [words_dead hpieces.1 hdead hloses.1, List.length_append]
        have hends := hloses.1.ends_between_words hlt hdead
        exact ⟨by omega, fun hsame => ⟨hends, heq (by omega)⟩⟩
      · by_cases hends : EndsBetweenWords b q
        · rw [words_live hpieces.1 hlive hends, List.length_append]
          exact ⟨by omega, fun hsame => ⟨hends, heq (by omega)⟩⟩
        · have hq : q ≠ 0 := Nat.ne_of_gt (Nat.zero_lt_of_lt hlt)
          have hmore := length_words_of_splits ((splits_iff hq hlive).mpr hends)
          rw [← drop_eq_slice_append b (round_ahead_le hlt)] at hmore
          rw [piece_words_eq hpieces.1, if_pos hlive]
          exact ⟨by omega, fun hsame => by omega⟩

/-- The words of the pieces are those of the blob, up to their order and letter case, exactly if all
pieces are rounded. -/
theorem piece_words_perm_iff {b : Str} {rs : List (Nat × Nat)} (htiles : Tiles 0 rs b.length)
    (hpieces : ∀ r ∈ rs, IsPiece b r) :
    ((rs.flatMap (pieceWords b)).map (List.map normalize)).Perm
        ((words endsWord b).map (List.map normalize)) ↔
      ∀ r ∈ rs, EndsBetweenWords b r.2 ∧ LosesNoLetter b r := by
  constructor
  · intro hperm
    have hlength := hperm.length_eq
    have hflatten := hperm.flatten.length_eq
    rw [List.length_map, List.length_map] at hlength
    rw [← List.map_flatten, ← List.map_flatten, List.length_map, List.length_map] at hflatten
    have hloses := (piece_letters htiles hpieces).2 hflatten
    have hends := (piece_words_length htiles hpieces hloses).2 hlength
    exact fun r hr => ⟨hends r hr, hloses r hr⟩
  · intro h
    rw [piece_words_of_rounds htiles hpieces h]
    exact .refl _

/-- A blob of a single letter is plain. -/
theorem plain_one_letter (n x : Nat) : PlainText (oneLetter n x) := by
  intro c hc
  rw [oneLetter, List.mem_append, List.mem_cons] at hc
  rcases hc with hc | rfl | hc
  · rw [List.eq_of_mem_replicate hc]
    decide
  · decide
  · rw [List.eq_of_mem_replicate hc]
    decide

/-- The words `mapfunc` counts in the pieces of a plain text. -/
theorem flat_map_words_eq {b : Str} (hb : PlainText b) (rs : List (Nat × Nat)) :
    (rs.filterMap (readPiece b)).flatMap mapWords =
      (rs.flatMap (pieceWords b)).map (List.map normalize) := by
  induction rs with
  | nil => rfl
  | cons r rs ih =>
      rw [List.flatMap_cons, List.map_append, ← ih, pieceWords]
      cases hread : readPiece b r with
      | none => rw [List.filterMap_cons_none hread]; rfl
      | some s =>
          rw [List.filterMap_cons_some hread, List.flatMap_cons,
            map_words_eq (hb.read_piece hread)]
          rfl

/-- A piece that is rounded to word boundaries. -/
def Rounded (b : Str) (r : Nat × Nat) : Prop := EndsBetweenWords b r.2 ∧ LosesNoLetter b r

/-- Cutting `n` bytes into consecutive non-empty pieces. If the sizes of all pieces fit, then for
every plain text of `n` bytes the counts of the pieces add up to those of the whole exactly if every
piece is rounded to word boundaries. If the sizes of some piece do not fit, they fail to add up for
some plain text of short words. A piece whose fix throws is not mapped. -/
theorem cut_keeps_counts_iff {n : Nat} {rs : List (Nat × Nat)} (htiles : Tiles 0 rs n)
    (hne : ∀ r ∈ rs, r.1 < r.2) :
    ((∀ r ∈ rs, FitsInt n r) → ∀ b : Str, b.length = n → PlainText b →
      (Dict.IsSum ((rs.filterMap (readPiece b)).map mapfunc) (mapfunc b) ↔
        ∀ r ∈ rs, Rounded b r)) ∧
    ((∃ r ∈ rs, ¬FitsInt n r) → ∃ b : Str, b.length = n ∧ PlainText b ∧
      (∀ w ∈ mapWords b, w.length ≤ extraLen) ∧
      ¬Dict.IsSum ((rs.filterMap (readPiece b)).map mapfunc) (mapfunc b)) := by
  constructor
  · intro hfits b hlength hb
    subst hlength
    rw [is_sum_mapfunc_iff, flat_map_words_eq hb, map_words_eq hb]
    exact piece_words_perm_iff htiles (is_piece_of_tiles htiles hne hfits)
  · intro hunfit
    obtain ⟨x, hx, hcount⟩ := exists_byte_miscounted htiles hne hunfit
    have hplain := plain_one_letter n x
    have hwords := words_one_letter endsWord rfl rfl n x
    refine ⟨oneLetter n x, length_one_letter hx, hplain, ?_, fun hsum => hcount ?_⟩
    · rw [map_words_eq hplain, hwords]
      decide
    · rw [is_sum_mapfunc_iff, flat_map_words_eq hplain, map_words_eq hplain, hwords] at hsum
      refine count_letter_of_words endsWord rfl rfl ?_
      exact (List.length_map _).symm.trans hsum.length_eq

/-- Two lines of one word each. -/
def twoLines : Str := List.replicate 10 'a' ++ '\n' :: List.replicate 10 'b'

/-- Cut between the lines, the first piece counts both words, and the fix of the second throws. -/
theorem cut_keeps_counts_line_end :
    Dict.IsSum (([(0, 10), (10, 21)].filterMap (readPiece twoLines)).map mapfunc)
      (mapfunc twoLines) := by
  refine ((cut_keeps_counts_iff (n := 21) ?_ (by decide)).1 (by decide) twoLines rfl
    (by decide)).mpr ?_
  · simp [Tiles]
  · unfold Rounded EndsBetweenWords LosesNoLetter
    decide

/-- Cut behind the first byte, the sixteen bytes that follow hold no separator, and the sixteenth is
inside the second word, which no piece counts. -/
theorem cut_splits_word :
    PlainText twoLines ∧ (∀ w ∈ mapWords twoLines, w.length ≤ 16) ∧
      Tiles 0 [(0, 1), (1, 21)] twoLines.length ∧
      ¬Dict.IsSum (([(0, 1), (1, 21)].filterMap (readPiece twoLines)).map mapfunc)
        (mapfunc twoLines) := by
  refine ⟨by decide, by decide +kernel, by simp [Tiles, twoLines], fun hsum => ?_⟩
  have hget := (hsum (List.replicate 10 'b')).2
  revert hget
  decide +kernel

end MapReduce
