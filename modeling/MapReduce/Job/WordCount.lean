import Mathlib.Algebra.BigOperators.Ring.Finset
import MapReduce.Job.Outcome
import MapReduce.Master.FloatShards
import MapReduce.Worker.Cuts
import MapReduce.Worker.Keys

/-!
# Counting the words of a container

The job of the repository, from the blobs of a container to its outputs: the leader makes shards of
the blobs, and the map function of every worker is `mapfunc`. Read `word_count_iff` first: the
outputs of an undisturbed run count the words of the container exactly if all pieces are rounded to
word boundaries.

The shards cut every blob (`exists_cuts`). What is lost or split at a cut is not made up for by
another one (`cut_words_perm_iff`), so the counts are right for the container only if they are right
for every blob.
-/

namespace MapReduce

open Machine (Along run)
open Words (words)

/-- The words of a text: its maximal runs of letters and digits, in lower case. -/
def textWords (text : Str) : List Str :=
  (words (fun c => !c.isAlphanum) text).map (List.map Char.toLower)

/-! ## The words of a plain text -/

/-- Letters and digits are kept, in lower case. -/
theorem normalize_alphanum {c : Char} (h : c.isAlphanum = true) : normalize c = c.toLower := by
  have hcodes := alphanum_codes h
  refine PyText.forall_ascii (P := fun c => c.isAlphanum = true → normalize c = c.toLower) ?_
    (by omega) h
  decide

/-- `mapfunc` counts the words of a plain text. -/
theorem map_words_text {text : Str} (h : PlainText text) : mapWords text = textWords text := by
  rw [map_words_eq h]
  refine List.map_congr_left fun w hw => List.map_congr_left fun c hc => ?_
  have hletter := (Words.sep_of_mem_word hw hc).2
  exact normalize_alphanum (by simpa [endsWord] using hletter)

/-- The words of a plain text are plain keys. -/
theorem PlainText.plain_key (unicodePrintable : Char → Bool) {text w : Str} (h : PlainText text)
    (hw : w ∈ mapWords text) : PlainKey unicodePrintable w := by
  rw [map_words_eq h] at hw
  obtain ⟨v, hv, rfl⟩ := List.mem_map.mp hw
  have hne : v ≠ [] := by simpa using (List.mem_filter.mp hv).2
  refine ⟨by simpa using hne, fun d hd => ?_⟩
  obtain ⟨c, hc, rfl⟩ := List.mem_map.mp hd
  have hletter : c.isAlphanum = true := by
    simpa [endsWord] using (Words.sep_of_mem_word hv hc).2
  have hcodes := alphanum_codes hletter
  have hcontrol : isControl c = false := by
    simp only [isControl, Bool.or_eq_false_iff, decide_eq_false_iff_not]
    omega
  obtain ⟨hprintable, hpunct⟩ := normalize_plain unicodePrintable (by omega) hcontrol
  refine ⟨hprintable, fun hspace => ?_, hpunct⟩
  have hblank : (normalize c == ' ') = endsWord c := by
    refine normalize_eq_space (h c (Words.sep_of_mem_word hv hc).1) ?_ ?_
    · rintro rfl
      exact absurd hletter (by decide)
    · rintro rfl
      exact absurd hletter (by decide)
  simp [hspace, endsWord, hletter] at hblank

/-! ## The words of the pieces -/

/-- A blob of plain text, whose size is an `int`, and the ranges it is cut into. Only an empty blob
has an empty range. -/
structure Cut where
  content : Str
  ranges : List (Nat × Nat)
  plain : PlainText content
  short : content.length < 2 ^ 31
  tiles : Tiles 0 ranges content.length
  filled : content ≠ [] → ∀ r ∈ ranges, r.1 < r.2

namespace Cut

variable (c : Cut)

/-- The words `mapfunc` counts in the pieces. A piece that cannot be mapped counts for nothing. -/
def words : List Str := c.ranges.flatMap fun r => mapWords ((readPiece c.content r).getD [])

/-- The pieces are rounded to word boundaries. -/
def Rounds : Prop := ∀ r ∈ c.ranges, r.1 < r.2 → Rounded c.content r

/-- The ranges of a blob that is not empty are its pieces. -/
theorem pieces (h : c.content ≠ []) : ∀ r ∈ c.ranges, IsPiece c.content r :=
  is_piece_of_tiles c.tiles (c.filled h) fun r hr =>
    fits_int_of_length (c.filled h r hr).le (c.tiles.mem_le hr).2 c.short

/-- The words of the pieces, as they are in the blob. -/
theorem words_eq :
    c.words = (c.ranges.flatMap (pieceWords c.content)).map (List.map normalize) := by
  rw [← flat_map_words_eq c.plain, words]
  induction c.ranges with
  | nil => rfl
  | cons r rs ih =>
      rw [List.flatMap_cons, ih]
      cases hread : readPiece c.content r with
      | none =>
          rw [List.filterMap_cons_none hread]
          rfl
      | some s =>
          rw [List.filterMap_cons_some hread]
          rfl

/-- All ranges of an empty blob are empty. -/
theorem range_empty {rs : List (Nat × Nat)} (htiles : Tiles 0 rs 0) : ∀ r ∈ rs, r = (0, 0) := by
  induction rs with
  | nil => simp
  | cons r rs ih =>
      obtain ⟨p, q⟩ := r
      obtain ⟨hp, -, htiles⟩ := htiles
      have hq : q = 0 := Nat.le_zero.mp htiles.le
      dsimp only at hp hq
      subst hp hq
      exact List.forall_mem_cons.mpr ⟨rfl, ih htiles⟩

/-- An empty blob has no words, and its pieces are rounded. -/
theorem empty_words (h : c.content = []) : c.words = [] ∧ c.Rounds := by
  have hempty := range_empty (h ▸ c.tiles)
  constructor
  · rw [words, List.flatMap_eq_nil_iff]
    intro r hr
    have hread : readPiece [] (0, 0) = some [] := by decide +kernel
    rw [hempty r hr, h, hread]
    rfl
  · intro r hr hlt
    rw [hempty r hr] at hlt
    cases hlt

/-- The letters of the pieces are at most those of the blob, and fewer if a piece loses one. -/
theorem letters : c.words.flatten.length ≤ (mapWords c.content).flatten.length ∧
    (c.words.flatten.length = (mapWords c.content).flatten.length →
      ∀ r ∈ c.ranges, r.1 < r.2 → LosesNoLetter c.content r) := by
  by_cases hempty : c.content = []
  · obtain ⟨hwords, hrounds⟩ := c.empty_words hempty
    rw [hwords]
    exact ⟨Nat.zero_le _, fun _ r hr hlt => (hrounds r hr hlt).2⟩
  · obtain ⟨hle, heq⟩ := piece_letters c.tiles (c.pieces hempty)
    rw [c.words_eq, map_words_eq c.plain, ← List.map_flatten, ← List.map_flatten,
      List.length_map, List.length_map]
    exact ⟨hle, fun hsame r hr _ => heq hsame r hr⟩

/-- If no piece loses a letter, the pieces have at least as many words as the blob, and more if one
ends inside a word. -/
theorem splits (hloses : ∀ r ∈ c.ranges, r.1 < r.2 → LosesNoLetter c.content r) :
    (mapWords c.content).length ≤ c.words.length ∧
      (c.words.length = (mapWords c.content).length →
        ∀ r ∈ c.ranges, r.1 < r.2 → EndsBetweenWords c.content r.2) := by
  by_cases hempty : c.content = []
  · obtain ⟨hwords, hrounds⟩ := c.empty_words hempty
    have hnone : mapWords c.content = [] := by
      rw [hempty]
      rfl
    rw [hwords, hnone]
    exact ⟨Nat.le_refl _, fun _ r hr hlt => (hrounds r hr hlt).1⟩
  · have hpieces := c.pieces hempty
    obtain ⟨hle, heq⟩ := piece_words_length c.tiles hpieces fun r hr =>
      hloses r hr (hpieces r hr).lt
    rw [c.words_eq, map_words_eq c.plain, List.length_map, List.length_map]
    exact ⟨hle, fun hsame r hr _ => heq hsame r hr⟩

/-- Rounded pieces have the words of the blob. -/
theorem words_of_rounds (hrounds : c.Rounds) : c.words = mapWords c.content := by
  by_cases hempty : c.content = []
  · rw [(c.empty_words hempty).1, hempty]
    rfl
  · have hpieces := c.pieces hempty
    rw [c.words_eq, map_words_eq c.plain, piece_words_of_rounds c.tiles hpieces fun r hr =>
      hrounds r hr (hpieces r hr).lt]
    rfl

/-- The pieces have no more words than the blob has bytes. -/
theorem length_words_le : c.words.length ≤ c.content.length := by
  have hpiece : ∀ w ∈ c.words, 1 ≤ w.length := by
    intro w hw
    rw [c.words_eq] at hw
    obtain ⟨v, hv, rfl⟩ := List.mem_map.mp hw
    obtain ⟨r, -, hv⟩ := List.mem_flatMap.mp hv
    unfold pieceWords at hv
    cases hread : readPiece c.content r with
    | none => simp [hread] at hv
    | some s =>
        simp only [hread, Option.map_some, Option.getD_some] at hv
        have hne : v ≠ [] := by simpa using (List.mem_filter.mp hv).2
        rw [List.length_map]
        exact List.length_pos_iff.mpr hne
  have hletters : (mapWords c.content).flatten.length ≤ c.content.length := by
    rw [map_words_eq c.plain, ← List.map_flatten, List.length_map, Words.flatten_words]
    exact List.length_filter_le _ _
  refine Nat.le_trans ?_ (Nat.le_trans c.letters.1 hletters)
  rw [List.length_flatten]
  refine (List.length_le_sum_of_one_le _ fun n hn => ?_).trans_eq' (by simp)
  obtain ⟨w, hw, rfl⟩ := List.mem_map.mp hn
  exact hpiece w hw

end Cut

/-- Sums of equal value are equal in each term, if one is a lower bound of the other there. -/
theorem eq_of_sum_eq {α : Type} {f g : α → Nat} {l : List α} (hle : ∀ a ∈ l, f a ≤ g a)
    (hsum : (l.map f).sum = (l.map g).sum) : ∀ a ∈ l, f a = g a := by
  induction l with
  | nil => simp
  | cons a l ih =>
      rw [List.forall_mem_cons] at hle ⊢
      have hrest : (l.map f).sum ≤ (l.map g).sum := List.sum_le_sum hle.2
      simp only [List.map_cons, List.sum_cons] at hsum
      have hfirst := hle.1
      exact ⟨by omega, ih hle.2 (by omega)⟩

/-- The pieces of blobs have the words of the blobs exactly if all pieces are rounded. -/
theorem cut_words_perm_iff (cuts : List Cut) :
    (cuts.flatMap Cut.words).Perm (cuts.flatMap fun c => mapWords c.content) ↔
      ∀ c ∈ cuts, c.Rounds := by
  constructor
  · intro hperm
    have hflatten := hperm.flatten.length_eq
    have hlength := hperm.length_eq
    rw [List.flatMap_def, List.flatMap_def] at hflatten hlength
    rw [List.length_flatten, List.length_flatten, List.map_map, List.map_map] at hlength
    have hloses : ∀ c ∈ cuts, ∀ r ∈ c.ranges, r.1 < r.2 → LosesNoLetter c.content r := by
      intro c hc
      refine c.letters.2 (eq_of_sum_eq (f := fun c => c.words.flatten.length)
        (g := fun c => (mapWords c.content).flatten.length) (fun c _ => c.letters.1) ?_ c hc)
      simpa [List.length_flatten, Function.comp_def, List.flatMap_def] using hflatten
    have hends : ∀ c ∈ cuts, ∀ r ∈ c.ranges, r.1 < r.2 → EndsBetweenWords c.content r.2 := by
      intro c hc
      refine (c.splits (hloses c hc)).2 (eq_of_sum_eq
        (fun c hc => (c.splits (hloses c hc)).1) hlength.symm c hc).symm
    exact fun c hc r hr hlt => ⟨hends c hc r hr hlt, hloses c hc r hr hlt⟩
  · intro hrounds
    rw [List.flatMap_congr fun c hc => c.words_of_rounds (hrounds c hc)]

/-! ## The pieces of a container -/

/-- Every whole piece fills what room there is, so none is empty. -/
theorem Fills.whole_pos {sz r r' : Nat} {ps : List ShardInfo} (h : Fills sz r ps r')
    (hsz : 0 < sz) (hr : 0 < r) : ∀ p ∈ ps, p.isPartial = false → 0 < p.bytes := by
  induction ps generalizing r with
  | nil => simp
  | cons p ps ih =>
      simp only [Fills] at h
      rw [List.forall_mem_cons]
      split at h
      · next hp =>
        exact ⟨fun hwhole => by simp [hp] at hwhole, ih h.2 (by omega)⟩
      · exact ⟨fun _ => by omega, ih h.2 hsz⟩

/-- No shard is without pieces. -/
theorem join_shards_sets_ne {ps : List ShardInfo} (id : Int) (infoSet : List ShardData) :
    ∀ shard ∈ (joinShards id infoSet ps).1, shard.sets ≠ [] := by
  induction ps generalizing id infoSet with
  | nil =>
      rw [join_shards_nil]
      split
      · simp
      · next hne =>
        simpa using hne
  | cons p ps ih =>
      cases hp : p.isPartial with
      | true =>
          rw [join_shards_open hp]
          exact ih id _
      | false =>
          rw [join_shards_whole hp, List.forall_mem_cons]
          exact ⟨by simp, ih (id + 1) []⟩

/-- A request to count the words of a container of plain texts, with the size of a shard that the
leader computes in `float`. The blobs are small enough for the `int32` fields of the messages. The
mappers' shards hold all bytes, and the listing does not end with an empty blob behind shards that
are all full, which would make a shard more than there are mappers. -/
structure WordCount extends Container where
  hash : Str → Nat
  unicodePrintable : Char → Bool
  target : ClientId → Str
  leader : Master
  input : Str → Option Str
  texts : ∀ b ∈ blobs items, ∃ text, input b.1 = some text ∧ text.length = b.2 ∧ PlainText text
  small : ∀ b ∈ blobs items, b.2 < 2 ^ 31
  bytes : 1 ≤ totalSize items
  mappers : 1 ≤ leader.nmappers
  reducers : 1 ≤ leader.nreducers ∧ leader.nreducers < 2 ^ 31
  sz : Nat
  size : calcShardSzFloat items leader.nmappers = some sz
  word : sz < 2 ^ 63
  few : totalSize items ≤ leader.nmappers.toNat * sz ∧
    ¬(totalSize items = leader.nmappers.toNat * sz ∧ LastBlobEmpty items)

namespace WordCount

variable (w : WordCount)

/-- The words of the container. -/
def words : List Str := (blobs w.items).flatMap fun b => textWords ((w.input b.1).getD [])

/-- The leader after `create_sharding_data`. -/
def sharded : Master :=
  (createShardingDataFloat (enoughFuel w.items) (some w.items) w.leader).getD w.leader

/-- The workers of the cluster, which have the `mapfunc` of `map.py`. -/
def workers : Workers where
  hash := w.hash
  unicodePrintable := w.unicodePrintable
  mapScript := fun content => some (mapfunc content)
  target := w.target

/-- The words `mapfunc` counts in a range of a blob. -/
def dataWords (d : ShardData) : List Str :=
  mapWords (((w.input d.blobName).bind fun text => readPiece text (d.begin_, d.end_)).getD [])

/-- All pieces are rounded to word boundaries. -/
def Rounds : Prop :=
  ∀ shard ∈ w.sharded.shards, ∀ d ∈ shard.sets, d.begin_ < d.end_ →
    ∀ text, w.input d.blobName = some text → Rounded text (d.begin_, d.end_)

/-- The shards the leader makes: their pieces tile the blobs, and only an empty blob has an empty
piece. -/
theorem sharded_spec :
    ∃ perBlob, w.sharded.shards = (joinShards (-1) [] perBlob.flatten).1 ∧
      w.sharded.shards.length ≤ w.leader.nmappers ∧
      (∀ p ∈ perBlob.flatten, p.isPartial = false → 0 < p.bytes) ∧
      List.Forall₂ (fun b ps => ∃ r r', BlobSharded b.1 w.sz b.2 r ps r') (blobs w.items)
        perBlob := by
  have hpos := calc_shard_sz_float_pos w.bytes w.size
  have hword := w.word
  have hbegin : ∀ b ∈ blobs w.items, ∀ begin_ < b.2, begin_ + w.sz < 2 ^ 64 := by
    intro b hb begin_ hlt
    have hsmall := w.small b hb
    omega
  have hcut : ∀ b ∈ blobs w.items, Cuttable (enoughFuel w.items) w.sz b := fun b hb =>
    ⟨hbegin b hb, fun hzero => absurd hzero (Nat.ne_of_gt hpos), size_lt_enough_fuel hb⟩
  obtain ⟨perBlob, rem, hmade, -, hfills, hforall⟩ := make_shards_from_spec (by omega) w.items w.sz
    ⟨Nat.le_refl _, fun h => h⟩ hcut
  obtain ⟨pieces, hrun, hcount⟩ := make_shards_count (by omega) (fun h => by omega) hbegin
  have hpieces : perBlob.flatten = pieces := by
    have hrun := hrun _ (Nat.le_refl _)
    rw [makeShards, hmade] at hrun
    simpa using hrun
  have hsharded : w.sharded.shards = (joinShards (-1) [] perBlob.flatten).1 := by
    simp [sharded, createShardingDataFloat, w.size, makeShards, hmade, getShardId]
  refine ⟨perBlob, hsharded, ?_, hfills.whole_pos hpos hpos, hforall⟩
  have hmappers := w.mappers
  have hle := (shard_count_le_iff_mul hpos).mpr w.few
  rw [hsharded, hpieces, hcount (-1)]
  omega

/-- A range of a blob of the container. -/
theorem piece_dict_eq {d : ShardData} {text : Str} (h : w.input d.blobName = some text) :
    w.workers.pieceDict w.input d = mapfunc ((readPiece text (d.begin_, d.end_)).getD []) := by
  have hdownload : Workers.downloadFrom w.input d.blobName = downloadRange text [] := by
    funext offset length
    show (w.input d.blobName).bind _ = _
    rw [h]
    rfl
  have hread : writePartialDataToLocalFile (Workers.downloadFrom w.input) d.blobName d.begin_
      d.end_ = readPiece text (d.begin_, d.end_) := by
    unfold readPiece writePartialDataToLocalFile
    rw [hdownload]
  unfold Workers.pieceDict
  rw [hread]
  cases readPiece text (d.begin_, d.end_) <;> rfl

/-- A range is rounded, if it is not empty. -/
def RoundedData (d : ShardData) : Prop :=
  d.begin_ < d.end_ → ∀ text, w.input d.blobName = some text → Rounded text (d.begin_, d.end_)

/-- The pieces of one blob are a cut of it. -/
theorem exists_cut {sz r r' : Nat} {b : Str × Nat} {ps : List ShardInfo}
    (hblob : BlobSharded b.1 sz b.2 r ps r')
    (hwhole : ∀ p ∈ ps, p.isPartial = false → 0 < p.bytes) {text : Str}
    (hinput : w.input b.1 = some text) (hlen : text.length = b.2) (hplain : PlainText text)
    (hsmall : b.2 < 2 ^ 31) :
    ∃ c : Cut, c.content = text ∧ (ps.map ShardInfo.data).flatMap w.dataWords = c.words ∧
      (c.Rounds ↔ ∀ d ∈ ps.map ShardInfo.data, w.RoundedData d) := by
  have hread : ∀ p ∈ ps, w.input p.data.blobName = some text := by
    intro p hp
    rw [← hinput, ← hblob.named p hp]
    rfl
  have hfilled : text ≠ [] → ∀ r ∈ ps.map ShardInfo.range, r.1 < r.2 := by
    intro hne r hr
    obtain ⟨p, hp, rfl⟩ := List.mem_map.mp hr
    have hpos : 0 < p.bytes := by
      cases hpartial : p.isPartial with
      | true => exact hblob.partial_bytes p hp hpartial (hlen ▸ List.length_pos_iff.mpr hne)
      | false => exact hwhole p hp hpartial
    exact Nat.lt_of_sub_pos hpos
  refine ⟨⟨text, ps.map ShardInfo.range, hplain, hlen.trans_lt hsmall, hlen ▸ hblob.tiles, hfilled⟩,
    rfl, ?_, ?_⟩
  · rw [Cut.words, List.flatMap_map, List.flatMap_map]
    refine List.flatMap_congr fun p hp => ?_
    rw [dataWords, hread p hp, Option.bind_some]
    rfl
  · simp only [Cut.Rounds, List.forall_mem_map]
    refine forall₂_congr fun p hp => ⟨fun h hlt text' htext => ?_, fun h hlt => ?_⟩
    · cases (hread p hp).symm.trans htext
      exact h hlt
    · exact h hlt text (hread p hp)

/-- The pieces of a listing are cuts of its blobs. -/
theorem exists_cuts {sz : Nat} {bs : List (Str × Nat)} {perBlob : List (List ShardInfo)}
    (hforall : List.Forall₂ (fun b ps => ∃ r r', BlobSharded b.1 sz b.2 r ps r') bs perBlob)
    (hwhole : ∀ p ∈ perBlob.flatten, p.isPartial = false → 0 < p.bytes)
    (htexts : ∀ b ∈ bs, ∃ text, w.input b.1 = some text ∧ text.length = b.2 ∧ PlainText text)
    (hsmall : ∀ b ∈ bs, b.2 < 2 ^ 31) :
    ∃ cuts : List Cut,
      (perBlob.flatten.map ShardInfo.data).flatMap w.dataWords = cuts.flatMap Cut.words ∧
      (bs.flatMap fun b => textWords ((w.input b.1).getD [])) =
        (cuts.flatMap fun c => mapWords c.content) ∧
      (cuts.map fun c => c.content.length).sum = (bs.map Prod.snd).sum ∧
      ((∀ c ∈ cuts, c.Rounds) ↔ ∀ d ∈ perBlob.flatten.map ShardInfo.data, w.RoundedData d) := by
  induction hforall with
  | nil => exact ⟨[], rfl, rfl, rfl, by simp⟩
  | @cons b ps bs perBlob hblob _ ih =>
      obtain ⟨r, r', hblob⟩ := hblob
      rw [List.flatten_cons, List.forall_mem_append] at hwhole
      rw [List.forall_mem_cons] at htexts hsmall
      obtain ⟨⟨text, hinput, hlen, hplain⟩, htexts⟩ := htexts
      obtain ⟨c, rfl, hwords, hrounds⟩ := w.exists_cut hblob hwhole.1 hinput hlen hplain hsmall.1
      obtain ⟨cuts, hpieces, htext, hsize, hall⟩ := ih hwhole.2 htexts hsmall.2
      refine ⟨c :: cuts, ?_, ?_, ?_, ?_⟩
      · rw [List.flatten_cons, List.map_append, List.flatMap_append, hwords, hpieces,
          List.flatMap_cons]
      · rw [List.flatMap_cons, List.flatMap_cons, htext, hinput, Option.getD_some,
          map_words_text hplain]
      · simp only [List.map_cons, List.sum_cons, hsize, hlen]
      · rw [List.flatten_cons, List.map_append, List.forall_mem_append, List.forall_mem_cons,
          hrounds, hall]

/-- The ranges of the shards. -/
def ranges : List ShardData := w.sharded.shards.flatMap FileShard.sets

/-- A range belongs to a blob of the container, and its offsets fit the messages. -/
theorem range_spec {d : ShardData} (hd : d ∈ w.ranges) :
    (∃ text, w.input d.blobName = some text ∧ PlainText text) ∧
      d.begin_ < 2 ^ 31 ∧ d.end_ < 2 ^ 31 := by
  obtain ⟨perBlob, hshards, -, -, hforall⟩ := w.sharded_spec
  rw [ranges, hshards, join_shards_flatten, List.nil_append] at hd
  obtain ⟨p, hp, rfl⟩ := List.mem_map.mp hd
  obtain ⟨ps, hps, hp⟩ := List.mem_flatten.mp hp
  obtain ⟨i, hi, rfl⟩ := List.mem_iff_getElem.mp hps
  have hi' : i < (blobs w.items).length := hforall.length_eq ▸ hi
  obtain ⟨r, r', hblob⟩ := hforall.get hi' hi
  have hb : (blobs w.items).get ⟨i, hi'⟩ ∈ blobs w.items := List.get_mem _ _
  generalize (blobs w.items).get ⟨i, hi'⟩ = b at hb hblob
  obtain ⟨text, hinput, -, hplain⟩ := w.texts b hb
  obtain ⟨hbegin, hend⟩ := hblob.tiles.mem_le (List.mem_map_of_mem hp)
  have hsmall := w.small b hb
  refine ⟨⟨text, ?_, hplain⟩, Nat.lt_of_le_of_lt hbegin hsmall, Nat.lt_of_le_of_lt hend hsmall⟩
  rw [← hinput, ← hblob.named p hp]
  rfl

/-- The dictionary of a range counts its words. -/
theorem range_dict {d : ShardData} (hd : d ∈ w.ranges) :
    w.workers.pieceDict w.input d =
      mapfunc (((w.input d.blobName).bind fun text =>
        readPiece text (d.begin_, d.end_)).getD []) := by
  obtain ⟨⟨text, hinput, -⟩, -⟩ := w.range_spec hd
  rw [w.piece_dict_eq hinput, hinput, Option.bind_some]

/-- The words of a range are plain keys. -/
theorem range_plain {d : ShardData} (hd : d ∈ w.ranges) {k : Str}
    (hk : k ∈ (w.workers.pieceDict w.input d).keys) : PlainKey w.unicodePrintable k := by
  obtain ⟨⟨text, hinput, hplain⟩, -⟩ := w.range_spec hd
  rw [w.piece_dict_eq hinput, mem_keys_mapfunc] at hk
  refine PlainText.plain_key w.unicodePrintable ?_ hk
  cases hread : readPiece text (d.begin_, d.end_) with
  | none => exact fun c hc => absurd hc List.not_mem_nil
  | some s => exact hplain.read_piece hread

/-- The words of all ranges. -/
def rangeWords : List Str := w.ranges.flatMap w.dataWords

/-- The ranges have the words of the container exactly if all pieces are rounded, and in any case no
more words than there are bytes. -/
theorem range_words_spec :
    (w.rangeWords.Perm w.words ↔ w.Rounds) ∧ w.rangeWords.length < 2 ^ 63 := by
  obtain ⟨perBlob, hshards, -, hwhole, hforall⟩ := w.sharded_spec
  obtain ⟨cuts, hpieces, htext, hsize, hall⟩ := w.exists_cuts hforall hwhole w.texts w.small
  have hsets : w.ranges = perBlob.flatten.map ShardInfo.data := by
    rw [ranges, hshards, join_shards_flatten, List.nil_append]
  have hrounds : w.Rounds ↔ ∀ d ∈ w.ranges, w.RoundedData d := by
    simp only [Rounds, ranges, List.forall_mem_flatMap, RoundedData]
  constructor
  · rw [hrounds, hsets, ← hall, ← cut_words_perm_iff cuts, rangeWords, hsets, hpieces]
    unfold words
    rw [htext]
  · have hcapacity : (cuts.map fun c => c.content.length).sum < 2 ^ 63 := hsize ▸ w.capacity
    refine Nat.lt_of_le_of_lt ?_ hcapacity
    rw [rangeWords, hsets, hpieces, List.length_flatMap]
    exact List.sum_le_sum fun c _ => c.length_words_le

/-- The count of a word in a range. -/
theorem range_get {d : ShardData} (hd : d ∈ w.ranges) (k : Str) :
    (w.workers.pieceDict w.input d).get k = ((w.dataWords d).count k : Int) := by
  rw [w.range_dict hd, get_mapfunc, dataWords]

/-- The counts of a word in all ranges. -/
theorem range_sum (k : Str) :
    (w.ranges.map fun d => (w.workers.pieceDict w.input d).get k).sum = w.rangeWords.count k := by
  rw [List.map_congr_left fun d hd => w.range_get hd k, rangeWords, List.count_flatMap,
    Nat.cast_list_sum, List.map_map]
  rfl

/-- No count is larger than the number of bytes, so a `long` holds it. -/
theorem fits_long_count {n : Nat} (h : n ≤ w.rangeWords.length) : FitsLong n := by
  have hlength := w.range_words_spec.2
  constructor <;> omega

/-- The job the leader runs. -/
def job : Job where
  toWorkers := w.workers
  containername := w.leader.containername
  nmappers := w.leader.nmappers
  nreducers := w.leader.nreducers
  input := w.input
  shards := w.sharded.shards
  ids := by
    obtain ⟨perBlob, hshards, -⟩ := w.sharded_spec
    rw [hshards]
    exact join_shards_indices [] perBlob.flatten
  pieces := by
    obtain ⟨perBlob, hshards, -⟩ := w.sharded_spec
    rw [hshards]
    exact join_shards_sets_ne (-1) []
  offsets := fun shard hshard d hd =>
    (w.range_spec (List.mem_flatMap.mpr ⟨shard, hshard, hd⟩)).2
  mappers := by
    obtain ⟨_, -, hlen, -⟩ := w.sharded_spec
    exact ⟨w.mappers, hlen⟩
  reducers := w.reducers
  plain := fun shard hshard d hd k hk =>
    w.range_plain (List.mem_flatMap.mpr ⟨shard, hshard, hd⟩) hk
  counts := fun shard hshard d hd e he => by
    have hmem : d ∈ w.ranges := List.mem_flatMap.mpr ⟨shard, hshard, hd⟩
    rw [← (w.workers.pieceDict w.input d).get_of_mem he, w.range_get hmem]
    refine w.fits_long_count (Nat.le_trans List.count_le_length ?_)
    rw [rangeWords, List.length_flatMap]
    exact List.single_le_sum (by simp) _ (List.mem_map_of_mem hmem)
  sums := fun shard hshard d hd k hk => by
    have hsum := w.range_sum k
    rw [ranges, List.map_flatMap] at hsum
    rw [hsum]
    exact w.fits_long_count List.count_le_length

/-- The dictionaries of the job have the words of the ranges as keys, and count them. -/
theorem dicts_count (k : Str) :
    ((∃ d ∈ w.job.dicts, k ∈ d.keys) ↔ k ∈ w.rangeWords) ∧
      (w.job.dicts.map fun d => d.get k).sum = w.rangeWords.count k := by
  have hdicts : w.job.dicts = w.ranges.map (w.workers.pieceDict w.input) := by
    rw [ranges, List.map_flatMap]
    rfl
  rw [hdicts, List.map_map]
  constructor
  · simp only [List.mem_map, exists_exists_and_eq_and, rangeWords, List.mem_flatMap]
    refine exists_congr fun d => and_congr_right fun hd => ?_
    rw [w.range_dict hd, mem_keys_mapfunc]
    rfl
  · exact w.range_sum k

end WordCount

/-- A job that counts the words of a container of plain texts. In every undisturbed run that comes
to its end, the blobs of the reducers have one line for each of their words, with its count, and no
word is at two reducers. The words and counts are those of the container exactly if all pieces of
the shards are rounded to word boundaries. -/
theorem word_count_iff (w : WordCount) (s t : JobSystem) (ls : List SystemLabel)
    (hstart : s.Starts w.job)
    (hok : Along (JobSystem.step w.workers) (JobSystem.Undisturbed w.job) s ls)
    (hrun : run (JobSystem.step w.workers) s ls = some t) (hfinished : t.finished = true) :
    ∃ result : Nat → Dict Str Int,
      (∀ j < w.leader.nreducers.toNat,
        t.storage (outContainerName w.leader.containername) (outFileName j) =
          some ((result j).entries.flatMap (entryLine w.unicodePrintable))) ∧
      (∀ i j, i ≠ j → ∀ k ∈ (result i).keys, k ∉ (result j).keys) ∧
      ((∀ k, ((∃ j < w.leader.nreducers.toNat, k ∈ (result j).keys) ↔ k ∈ w.words) ∧
        ∀ j, k ∈ (result j).keys → (result j).get k = w.words.count k) ↔ w.Rounds) := by
  have hinv := Inv.run hstart hok hrun
  obtain ⟨result, houtput, hdisjoint, hkeys, hget⟩ := w.job.output_counts
  obtain ⟨hperm, -⟩ := w.range_words_spec
  have hcount : ∀ j, ∀ k ∈ (result j).keys, (result j).get k = w.rangeWords.count k :=
    fun j k hk => (hget j k hk).trans (w.dicts_count k).2
  have hmem : ∀ k, (∃ j < w.leader.nreducers.toNat, k ∈ (result j).keys) ↔ k ∈ w.rangeWords :=
    fun k => (hkeys k).trans (w.dicts_count k).1
  refine ⟨result, fun j hj => ?_, hdisjoint, ?_⟩
  · have hstored := hinv.outputs hfinished hj
    rwa [houtput j] at hstored
  · rw [← hperm, List.perm_iff_count]
    constructor
    · intro hsame k
      obtain ⟨hwords, hcounts⟩ := hsame k
      rw [hmem k] at hwords
      by_cases hk : k ∈ w.rangeWords
      · obtain ⟨j, -, hkey⟩ := (hmem k).mpr hk
        exact_mod_cast (hcount j k hkey).symm.trans (hcounts j hkey)
      · rw [List.count_eq_zero_of_not_mem hk, List.count_eq_zero_of_not_mem (mt hwords.mpr hk)]
    · intro hsame k
      refine ⟨?_, fun j hk => by rw [hcount j k hk, hsame k]⟩
      rw [hmem k, ← List.count_pos_iff, hsame k, List.count_pos_iff]

/-! ## Two blobs -/

/-- The leader of a request for two mappers and one reducer, with one worker. -/
def twoBlobsLeader : Master := { Master.init with
  nmappers := 2
  nreducers := 1
  containername := ['c']
  clients := [0] }

/-- Two blobs of together four bytes. The second shard is made of pieces of both. -/
def twoBlobs : WordCount where
  items := [.blob ['x'] 3, .blob ['y'] 1]
  capacity := by decide
  hash := List.length
  unicodePrintable := fun _ => true
  target := fun _ => ['v']
  leader := twoBlobsLeader
  input := fun name => if name = ['x'] then some ['a', ' ', 'b'] else
    if name = ['y'] then some ['b'] else none
  texts := by
    intro b hb
    rcases List.mem_pair.mp hb with rfl | rfl
    · exact ⟨['a', ' ', 'b'], rfl, rfl, by decide⟩
    · exact ⟨['b'], rfl, rfl, by decide⟩
  small := by decide
  bytes := by decide
  mappers := by decide
  reducers := by decide
  sz := 2
  size := by decide +kernel
  word := by decide
  few := by decide

/-- The leader after `create_sharding_data`. -/
def twoBlobsSharded : Master := { twoBlobsLeader with
  shardsz := 2
  shards := [⟨0, [⟨['x'], 0, 2⟩]⟩, ⟨1, [⟨['x'], 2, 3⟩, ⟨['y'], 0, 1⟩]⟩]
  shardCounter := 1 }

/-- The size of a shard is not rounded. -/
theorem two_blobs_sharded : twoBlobs.sharded = twoBlobsSharded := by
  rw [WordCount.sharded, create_sharding_data_float_eq _ (by decide)]
  rfl

/-- The job as its leader starts to map it. -/
def twoBlobsStart : JobSystem where
  phase := .mapping (.enter (runMapper twoBlobsSharded))
  replicates := false
  connection := fun _ => none
  files := fun _ _ => none
  errorSet := fun _ => false
  storage := fun container => if container = ['c'] then twoBlobs.input else fun _ => none
  mapRpcs := []
  mapReplies := []
  reduceRpcs := []
  reduceReplies := []
  checkpoints := []

/-- The start is in order. -/
theorem two_blobs_starts : twoBlobsStart.Starts twoBlobs.job where
  phase := ⟨twoBlobsSharded, rfl, rfl, rfl, rfl, congrArg Master.shards two_blobs_sharded.symm,
    fun h => by cases h⟩
  input := rfl
  errorSet := fun _ => rfl
  mapRpcs := rfl
  mapReplies := rfl
  reduceRpcs := rfl
  reduceReplies := rfl
  checkpoints := rfl

/-- A worker serves a map task of the job, and the call completes. -/
def servedMap (shard : FileShard) : List SystemLabel :=
  [.serveMap 0 (invokeMapTask shard 1) fun _ => true,
    .mapStep (.complete ⟨shard.shardId, 0⟩
      (.ok twoBlobs.job.intcontainer (twoBlobs.job.blobNames ['v'] shard)))]

/-- The call of the reduce task. -/
def twoBlobsReduce : ReduceCall where
  jobid := 0
  client := 0
  blobs := [intermediateBlobName ['v'] 0 0 0, intermediateBlobName ['v'] 1 0 0,
    intermediateBlobName ['v'] 1 1 0]
  containername := twoBlobs.job.intcontainer

/-- The worker serves all tasks. -/
def twoBlobsRun : List SystemLabel :=
  [.exchange 0, .mapStep (.dispatch 0), .mapStep (.dispatch 0), .mapStep .allDispatched] ++
    servedMap ⟨0, [⟨['x'], 0, 2⟩]⟩ ++ servedMap ⟨1, [⟨['x'], 2, 3⟩, ⟨['y'], 0, 1⟩]⟩ ++
    [.mapStep .received, .mapStep .handle, .mapStep .handle, .mapStep .test, .reduce,
      .reduceStep (.dispatch 0), .reduceStep .allDispatched,
      .serveReduce twoBlobsReduce fun _ => true,
      .reduceStep (.complete twoBlobsReduce (.ok twoBlobs.job.outcontainer [])),
      .reduceStep .received, .reduceStep .collect, .reduceStep .test]

/-- The pieces are rounded: the word at the end of the first blob is left to the first piece. -/
theorem two_blobs_rounds : twoBlobs.Rounds := by
  unfold WordCount.Rounds Rounded EndsBetweenWords LosesNoLetter
  rw [two_blobs_sharded, twoBlobsSharded]
  simp only [List.forall_mem_cons, List.not_mem_nil, false_implies, implies_true, and_true]
  refine ⟨fun _ text h => ?_, fun _ text h => ?_, fun _ text h => ?_⟩ <;> cases h <;> decide

/-- The word `b` is in both blobs, and is counted twice. -/
theorem word_count_two_blobs :
    ∃ t, run (JobSystem.step twoBlobs.workers) twoBlobsStart twoBlobsRun = some t ∧
      ∃ result : Dict Str Int,
        t.storage (outContainerName ['c']) (outFileName 0) =
          some (result.entries.flatMap (entryLine fun _ => true)) ∧
        (∀ k, k ∈ result.keys ↔ k ∈ twoBlobs.words) ∧ result.get ['b'] = 2 := by
  have hends : (run (JobSystem.step twoBlobs.workers) twoBlobsStart twoBlobsRun).any
      JobSystem.finished = true := by decide +kernel
  obtain ⟨t, hrun, hfinished⟩ := (Option.any_eq_true _ _).mp hends
  obtain ⟨result, hstored, -, hwords⟩ := word_count_iff twoBlobs twoBlobsStart t twoBlobsRun
    two_blobs_starts (by decide +kernel) hrun hfinished
  have hcounts := hwords.mpr two_blobs_rounds
  have hkeys : ∀ k, k ∈ (result 0).keys ↔ k ∈ twoBlobs.words := by
    intro k
    rw [← (hcounts k).1]
    constructor
    · exact fun hk => ⟨0, by decide, hk⟩
    · intro hk
      obtain ⟨j, hj, hk⟩ := hk
      obtain rfl : j = 0 := Nat.lt_one_iff.mp hj
      exact hk
  have hmem : ['b'] ∈ (result 0).keys := (hkeys _).mpr (by decide +kernel)
  refine ⟨t, hrun, result 0, hstored 0 (by decide), hkeys, ?_⟩
  rw [(hcounts ['b']).2 0 hmem]
  decide +kernel

end MapReduce
