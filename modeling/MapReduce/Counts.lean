import MapReduce.Master.Requests
import MapReduce.Wire

/-!
# The numbers of mappers and reducers of a request

The numbers a request asks for are used without a check: `calc_shard_sz` divides by the number of
mappers, and `stream_to_file` takes the hash of a key modulo the number of reducers, which a worker
receives as `npartition`. Read `counts_positive_iff` first: it says for which requests both are
positive.
-/

namespace MapReduce

/-- The text starts with a number that fits a `long` and is positive when it is stored in an `int`.
A number that is too large for a `long` is stored as `-1`, and one that is too small as `0`. -/
def PositiveCount (s : Str) : Prop :=
  let (negative, cs) := Decimal.splitSign (s.dropWhile isSpace)
  let n := Nat.ofDigitChars 10 (cs.takeWhile Char.isDigit) 0
  n < 2 ^ 63 ∧ if negative then 2 ^ 31 < n % 2 ^ 32 else 1 ≤ n % 2 ^ 32 ∧ n % 2 ^ 32 < 2 ^ 31

/-- The `int` that `strtol` is stored in is positive exactly if the text starts with a number that
is. -/
theorem strtol_positive_iff (s : Str) :
    1 ≤ Int.bmod (strtol s) (2 ^ 32) ↔ PositiveCount s := by
  unfold strtol PositiveCount Decimal.ofDigits
  obtain ⟨negative, cs⟩ := Decimal.splitSign (s.dropWhile isSpace)
  dsimp only
  generalize Nat.ofDigitChars 10 (cs.takeWhile Char.isDigit) 0 = n
  rw [Int.bmod_def]
  cases negative with
  | true =>
      simp only [if_true]
      omega
  | false =>
      simp only [Bool.false_eq_true, if_false]
      omega

/-- For every request that `connection_handler` accepts: the divisor of `calc_shard_sz` and the
modulus of `stream_to_file` are positive exactly if the last values of `m` and `r` in the query
string start with positive counts. -/
theorem counts_positive_iff {method dest : Str} {leader leader' : Master}
    (haccept : connectionHandler method dest leader = some leader') :
    (1 ≤ leader'.nmappers ∧ ∀ shard, 1 ≤ (invokeMapTask shard leader'.nreducers).npartition) ↔
      PositiveCount (queryValue dest "m".toList) ∧ PositiveCount (queryValue dest "r".toList) := by
  unfold connectionHandler at haccept
  split at haccept
  · next hupload =>
    cases haccept
    have hmappers := make_mappers hupload.2
    have hreducers := make_reducers hupload.2
    show (1 ≤ Int.bmod (strtol (ReqHandler.make dest).mappers) (2 ^ 32) ∧
      ∀ _ : FileShard, 1 ≤ Int.bmod (strtol (ReqHandler.make dest).reducers) (2 ^ 32)) ↔ _
    rw [hmappers, hreducers, strtol_positive_iff, strtol_positive_iff]
    exact and_congr_right fun _ => ⟨fun h => h ⟨0, []⟩, fun h _ => h⟩
  · cases haccept

/-- Four mappers and two reducers. -/
theorem counts_positive_four_two :
    ∃ leader, connectionHandler "POST".toList "/upload?container=c&m=4&r=2".toList .init =
        some leader ∧ 1 ≤ leader.nmappers ∧
      ∀ shard, 1 ≤ (invokeMapTask shard leader.nreducers).npartition := by
  refine ⟨_, if_pos ⟨rfl, by decide⟩, ?_⟩
  refine (counts_positive_iff (if_pos ⟨rfl, by decide⟩)).mpr ?_
  have hm : queryValue "/upload?container=c&m=4&r=2".toList "m".toList = ['4'] := by
    rw [queryValue, get_queries_eq]
    decide +kernel
  have hr : queryValue "/upload?container=c&m=4&r=2".toList "r".toList = ['2'] := by
    rw [queryValue, get_queries_eq]
    decide +kernel
  rw [hm, hr]
  unfold PositiveCount
  decide

/-- The request of the build script, which asks for no number of mappers or reducers: the job
divides by zero. -/
theorem counts_absent :
    ∃ leader, connectionHandler "POST".toList "/upload?container=mr19test".toList .init =
        some leader ∧ leader.nmappers = 0 ∧
      ∀ shard, (invokeMapTask shard leader.nreducers).npartition = 0 := by
  refine ⟨_, if_pos ⟨rfl, by decide⟩, ?_⟩
  have hm : queryValue "/upload?container=mr19test".toList "m".toList = [] := by
    rw [queryValue, get_queries_eq]
    decide +kernel
  have hr : queryValue "/upload?container=mr19test".toList "r".toList = [] := by
    rw [queryValue, get_queries_eq]
    decide +kernel
  unfold ReqHandler.setCounts invokeMapTask
  rw [make_mappers (by decide), make_reducers (by decide), hm, hr]
  exact ⟨rfl, fun _ => rfl⟩

end MapReduce
