import AmDb.Foundation.NearestCut
import AmDb.Statistics.Histogram
import Mathlib.Algebra.Order.Field.Rat
import Mathlib.Tactic.NormNum

/-! # Equi-height buckets

    `BuildHistogram` with exact arithmetic: where it cuts, and what it
    accumulates.  The total it divides by comes out of an `int`. -/

namespace AmDb.Stat

open Codec AmDb.Expr NearestCut

/-- Exact arithmetic.  A quotient by zero, which the source makes of a map
    whose total comes out as 0, is 0. -/
def exact : DoubleArith ℚ where
  ofSize n := n
  div x y := x / y
  mul x y := x * y
  sub x y := x - y
  abs x := |x|
  le x y := decide (x ≤ y)

/-- `total_count`. -/
def totalCount (entries : List (ExprValue × Nat)) : Nat :=
  (accumulate (entries.map Prod.snd) 0 % 2 ^ 64).toNat

/-- `avg_bucket_size`. -/
def avgBucketSize (entries : List (ExprValue × Nat)) (bucketSize : Nat) : ℚ :=
  totalCount entries / bucketSize

/-- The counts up to a position, that one included. -/
def cumulative (entries : List (ExprValue × Nat)) (p : Nat) : ℚ :=
  total (entries.take (p + 1))

/-- The bucket ends where, from its first key on, the cumulative count is
    nearest to `t`, at the last such position. -/
def EndsNearest (entries : List (ExprValue × Nat)) (t : ℚ) (b : Bucket ℚ) :
    Prop :=
  ∃ first last, entries[first]?.map Prod.fst = some b.start
    ∧ entries[last]?.map Prod.fst = some b.end_
    ∧ LastNearest (cumulative entries) t first entries.length last

/-! ## The loop -/

section Loop

variable {D : Type} {d : DoubleArith D} {avg totalCount : D}

/-- What one entry keeps, whether it leaves the bucket open or closes it, the
    loop keeps. -/
theorem buildLoop_invariant
    {I : Progress D → List (ExprValue × Nat) → Prop}
    (hopen : ∀ st e rest, I st (e :: rest) →
      keepsOpen d (st.count e).threshold (st.count e).cumulativeSum rest
        = true → I (st.count e) rest)
    (hclose : ∀ st e rest, I st (e :: rest) →
      keepsOpen d (st.count e).threshold (st.count e).cumulativeSum rest
        = false → I ((st.count e).close d avg totalCount e rest) rest)
    {st : Progress D} {rest : List (ExprValue × Nat)} (h : I st rest) :
    ∃ st', I st' []
      ∧ buildLoop d avg totalCount rest st = st'.buckets := by
  induction rest generalizing st with
  | nil => exact ⟨st, h, rfl⟩
  | cons e rest ih =>
      rw [buildLoop]
      split_ifs with hk
      · exact ih (hopen st e rest h hk)
      · exact ih (hclose st e rest h (Bool.eq_false_iff.mpr hk))

end Loop

section Tally

variable {entries seen rest : List (ExprValue × Nat)} {e : ExprValue × Nat}
  {avg tc : ℚ} {st : Progress ℚ} {b : Bucket ℚ}

/-- The counts so far. -/
def counted (bs : List (Bucket ℚ)) : Nat := (bs.map Bucket.count).sum

/-- The cumulative frequency of each bucket. -/
def Frequencies (tc : ℚ) (bs : List (Bucket ℚ)) : Prop :=
  ∀ j b, bs[j]? = some b → b.cf = counted (bs.take (j + 1)) / tc

/-- The variables after the entries in `seen`. -/
structure Tally (entries : List (ExprValue × Nat)) (avg tc : ℚ)
    (st : Progress ℚ) (seen rest : List (ExprValue × Nat)) : Prop where
  cut         : entries = seen ++ rest
  cumulative  : st.cumulativeSum = total seen
  counted     : counted st.buckets + st.sum = total seen
  threshold   : st.threshold = avg * (st.buckets.length + 1 : ℕ)
  frequencies : Frequencies tc st.buckets

/-- A part counts no more than the whole. -/
theorem total_le_of_cut (h : entries = seen ++ e :: rest) :
    total (seen ++ [e]) ≤ total entries := by
  rw [h]
  simp only [total_append, total_cons, total_nil]
  omega

/-- An entry is counted. -/
theorem Tally.count (h : Tally entries avg tc st seen (e :: rest))
    (hsum : total entries < 2 ^ 64) :
    Tally entries avg tc (st.count e) (seen ++ [e]) rest := by
  have hle := total_le_of_cut h.cut
  have hcount := h.counted
  simp only [total_append, total_cons, total_nil] at hle
  refine ⟨by rw [h.cut, List.append_assoc]; rfl, ?_, ?_, h.threshold,
    h.frequencies⟩
  · show u64 (st.cumulativeSum + e.2) = _
    rw [h.cumulative, u64_of_lt (by omega)]
    simp
  · show Stat.counted st.buckets + u64 (st.sum + e.2) = _
    rw [u64_of_lt (by omega)]
    simp only [total_append, total_cons, total_nil]
    omega

/-- A bucket is closed. -/
theorem Tally.close (h : Tally entries avg tc st seen rest) :
    Tally entries avg tc (st.close exact avg tc e rest) seen rest := by
  obtain ⟨b, hb, hcount, hcf⟩ : ∃ b, (st.close exact avg tc e rest).buckets
      = st.buckets ++ [b] ∧ b.count = st.sum
        ∧ b.cf = (st.cumulativeSum : ℚ) / tc :=
    ⟨_, rfl, rfl, rfl⟩
  have hsum : Stat.counted (st.buckets ++ [b]) = total seen := by
    rw [← h.counted, Stat.counted, Stat.counted, List.map_append,
      List.sum_append, List.map_singleton, List.sum_singleton, hcount]
  refine ⟨h.cut, h.cumulative, ?_, ?_, ?_⟩
  · rw [hb, hsum]
    rfl
  · rfl
  · rw [hb]
    intro j b' hj
    rcases Nat.lt_trichotomy j st.buckets.length with hlt | rfl | hlt
    · rw [List.getElem?_append_left hlt] at hj
      rw [List.take_append_of_le_length (by omega)]
      exact h.frequencies j b' hj
    · rw [List.getElem?_append_right le_rfl, Nat.sub_self] at hj
      obtain rfl := Option.some.inj hj
      rw [List.take_of_length_le (by simp), hsum, hcf, h.cumulative]
    · rw [List.getElem?_eq_none (by simp; omega)] at hj
      cases hj

/-- The state before the first entry. -/
theorem tally_init (entries : List (ExprValue × Nat)) (avg tc : ℚ)
    (v : ExprValue) :
    Tally entries avg tc { lowestValue := v, threshold := avg } [] entries := by
  refine ⟨rfl, rfl, rfl, ?_, fun j b hj => ?_⟩
  · show avg = avg * ((0 + 1 : ℕ) : ℚ)
    simp
  · cases hj

end Tally

/-! ## Where it cuts -/

section Nearest

variable {entries seen rest : List (ExprValue × Nat)}
  {e next : ExprValue × Nat} {avg tc t : ℚ} {st : Progress ℚ} {first : Nat}

/-- Counts that are added up do not fall. -/
theorem monotone_cumulative (entries : List (ExprValue × Nat)) :
    Monotone (cumulative entries) := by
  refine monotone_nat_of_le_succ (fun p => ?_)
  have htake := @List.take_add _ entries (p + 1) 1
  rw [cumulative, cumulative, Nat.cast_le, htake, total_append]
  exact Nat.le_add_right ..

/-- The count at a cut is that of the entries up to it. -/
theorem cumulative_of_cut (h : entries = seen ++ e :: rest) :
    cumulative entries seen.length = total (seen ++ [e]) := by
  have htake : entries.take (seen.length + 1) = seen ++ [e] := by
    rw [h, ← List.singleton_append, ← List.append_assoc]
    exact List.take_left' (by simp)
  rw [cumulative, htake]

/-- The tests on the next entry are those of the search. -/
theorem keepsOpen_iff (h : entries = seen ++ e :: next :: rest)
    (hsum : total entries < 2 ^ 64) :
    keepsOpen exact t (total (seen ++ [e])) (next :: rest) = true
      ↔ GoesOn (cumulative entries) t seen.length := by
  have h' : entries = (seen ++ [e]) ++ next :: rest := by simp [h]
  have hle := total_le_of_cut h'
  have hnext : cumulative entries (seen.length + 1)
      = (total (seen ++ [e]) + next.2 : ℕ) := by
    have hcut := cumulative_of_cut h'
    rw [List.length_append, List.length_singleton] at hcut
    rw [hcut, total_append, total_cons, total_nil, Nat.add_zero]
  have hpredict : total (seen ++ [e]) + next.2 < 2 ^ 64 := by
    rw [total_append, total_cons, total_nil] at hle
    omega
  rw [GoesOn, hnext, cumulative_of_cut h]
  simp only [keepsOpen, exact, u64_of_lt hpredict, Bool.or_eq_true,
    decide_eq_true_eq]

/-- The state of the search for the end of the open bucket, and the buckets
    closed so far. -/
structure Cutting (entries : List (ExprValue × Nat)) (avg tc : ℚ)
    (st : Progress ℚ) (seen rest : List (ExprValue × Nat)) (first : Nat) : Prop
    extends Tally entries avg tc st seen rest where
  lowest   : ∀ e ∈ entries[first]?, st.lowestValue = e.1
  first_le : first ≤ seen.length
  nearing  : Nearing (Stat.cumulative entries) st.threshold first seen.length
  nearest  : ∀ j b, st.buckets[j]? = some b →
    EndsNearest entries (avg * (j + 1 : ℕ)) b

/-- The bucket stays open. -/
theorem Cutting.count (h : Cutting entries avg tc st seen (e :: rest) first)
    (hsum : total entries < 2 ^ 64)
    (hkeep : keepsOpen exact (st.count e).threshold (st.count e).cumulativeSum
      rest = true) :
    Cutting entries avg tc (st.count e) (seen ++ [e]) rest first := by
  have htally := h.toTally.count hsum
  obtain ⟨next, rest', rfl⟩ : ∃ next rest', rest = next :: rest' := by
    cases rest with
    | nil => cases hkeep
    | cons next rest' => exact ⟨next, rest', rfl⟩
  rw [htally.cumulative, keepsOpen_iff h.cut hsum] at hkeep
  refine ⟨htally, h.lowest, ?_, ?_, h.nearest⟩
  · rw [List.length_append]
    exact h.first_le.trans (Nat.le_add_right ..)
  · rw [List.length_append]
    exact h.nearing.next (monotone_cumulative entries) hkeep

/-- The bucket is closed, at the nearest position. -/
theorem Cutting.close (h : Cutting entries avg tc st seen (e :: rest) first)
    (hsum : total entries < 2 ^ 64)
    (hkeep : keepsOpen exact (st.count e).threshold (st.count e).cumulativeSum
      rest = false) :
    Cutting entries avg tc ((st.count e).close exact avg tc e rest)
      (seen ++ [e]) rest (seen ++ [e]).length := by
  have htally := h.toTally.count hsum
  have hlen : seen.length < entries.length := by
    rw [h.cut]
    simp
  have hlast : entries[seen.length]? = some e := by
    rw [h.cut, List.getElem?_append_right le_rfl, Nat.sub_self]
    rfl
  have hfirst : entries[first]?.map Prod.fst = some st.lowestValue := by
    have hlt : first < entries.length := lt_of_le_of_lt h.first_le hlen
    have hget := List.getElem?_eq_getElem hlt
    rw [hget, h.lowest _ hget]
    rfl
  have hnearest : LastNearest (cumulative entries) st.threshold first
      entries.length seen.length := by
    refine h.nearing.lastNearest (monotone_cumulative entries) h.first_le hlen
      (fun hlt => ?_)
    -- there is a next entry, and the tests on it failed
    have hcut := h.cut
    cases rest with
    | nil =>
        rw [hcut] at hlt
        simp at hlt
    | cons next rest' =>
        rw [← keepsOpen_iff hcut hsum, ← htally.cumulative]
        exact Bool.eq_false_iff.mp hkeep
  refine ⟨htally.close, ?_, le_rfl, nearing_self _, ?_⟩
  · intro x hx
    rw [htally.cut, List.getElem?_append_right le_rfl, Nat.sub_self,
      ← List.head?_eq_getElem?] at hx
    show (rest.head?.map Prod.fst).getD st.lowestValue = x.1
    rw [hx]
    rfl
  · intro j b hj
    rcases Nat.lt_or_ge j st.buckets.length with hlt | hge
    · refine h.nearest j b ?_
      rwa [show ((st.count e).close exact avg tc e rest).buckets
        = st.buckets ++ _ from rfl, List.getElem?_append_left hlt] at hj
    · rw [show ((st.count e).close exact avg tc e rest).buckets
        = st.buckets ++ _ from rfl, List.getElem?_append_right hge] at hj
      have hzero : j - st.buckets.length = 0 := by
        by_contra hne
        rw [List.getElem?_eq_none (by simp; omega)] at hj
        cases hj
      obtain rfl : j = st.buckets.length := by omega
      rw [Nat.sub_self] at hj
      obtain rfl := Option.some.inj hj
      rw [← h.threshold]
      exact ⟨first, seen.length, hfirst, by rw [hlast]; rfl, hnearest⟩

end Nearest

section Result

variable {maxSize bucketSize : Nat} {m : ValueMap} {bs : List (Bucket ℚ)}

/-- What `BuildHistogram` returns is the loop's result. -/
theorem buildHistogram_exact (h : buildHistogram exact maxSize m bucketSize
      = .ok bs) :
    bucketSize ≤ maxSize ∧ ∃ first ∈ m.entries.head?,
      buildLoop exact (avgBucketSize m.entries bucketSize)
        (totalCount m.entries : ℚ) m.entries
        { lowestValue := first.1
          threshold := avgBucketSize m.entries bucketSize } = bs := by
  rw [buildHistogram] at h
  split_ifs at h with hlt
  refine ⟨Nat.not_lt.mp hlt, ?_⟩
  cases hm : m.entries with
  | nil =>
      simp only [hm] at h
      cases h
  | cons first rest =>
      simp only [hm] at h
      exact ⟨first, rfl, Except.ok.inj h⟩

/-- It returns when there is something to count and room for the buckets. -/
theorem buildHistogram_returns (hne : m.entries ≠ [])
    (h : bucketSize ≤ maxSize) :
    ∃ bs, buildHistogram exact maxSize m bucketSize = .ok bs := by
  obtain ⟨first, rest, hm⟩ := List.exists_cons_of_ne_nil hne
  rw [buildHistogram, if_neg (Nat.not_lt.mpr h), hm]
  exact ⟨_, rfl⟩

/-- Every bucket ends where the cumulative count is nearest to its share, as
    long as the counts add up to a `size_t`. -/
theorem ends_nearest (hsum : total m.entries < 2 ^ 64)
    (h : buildHistogram exact maxSize m bucketSize = .ok bs) :
    ∀ j b, bs[j]? = some b → EndsNearest m.entries
      (avgBucketSize m.entries bucketSize * (j + 1 : ℕ)) b := by
  obtain ⟨-, first, hfirst, hbuild⟩ := buildHistogram_exact h
  have hinit : Cutting m.entries (avgBucketSize m.entries bucketSize)
      (totalCount m.entries : ℚ)
      { lowestValue := first.1
        threshold := avgBucketSize m.entries bucketSize } [] m.entries 0 := by
    refine ⟨tally_init .., fun e he => ?_, le_rfl, nearing_self 0,
      fun j b hj => ?_⟩
    · rw [← List.head?_eq_getElem?] at he
      exact congrArg Prod.fst (Option.some.inj (hfirst.symm.trans he))
    · cases hj
  -- the invariant of the loop: what was cut so far is nearest
  have hrun : ∃ st', (∃ seen first, Cutting m.entries
      (avgBucketSize m.entries bucketSize) (totalCount m.entries : ℚ) st' seen
      [] first) ∧ buildLoop exact (avgBucketSize m.entries bucketSize)
        (totalCount m.entries : ℚ) m.entries
        { lowestValue := first.1
          threshold := avgBucketSize m.entries bucketSize } = st'.buckets := by
    refine buildLoop_invariant (I := fun st rest => ∃ seen first,
      Cutting m.entries _ _ st seen rest first) ?count ?close ⟨[], 0, hinit⟩
    case count =>
      rintro st e rest ⟨seen, first, hc⟩ hk
      exact ⟨_, _, hc.count hsum hk⟩
    case close =>
      rintro st e rest ⟨seen, first, hc⟩ hk
      exact ⟨_, _, hc.close hsum hk⟩
  obtain ⟨st', ⟨seen, first', hend⟩, heq⟩ := hrun
  rw [← hbuild, heq]
  exact hend.nearest

/-- The buckets of the sample. -/
theorem ends_nearest_sampled :
    ∃ bs, buildHistogram exact maxBuckets sampled 2 = .ok bs
      ∧ ∀ j b, bs[j]? = some b → EndsNearest sampled.entries
        (avgBucketSize sampled.entries (2 : Nat) * (j + 1 : ℕ)) b := by
  obtain ⟨bs, h⟩ := @buildHistogram_returns maxBuckets 2 sampled (by decide)
    (by decide)
  exact ⟨bs, h, ends_nearest (by decide) h⟩

/-- Counts that add up to `2^64 + 1`. -/
def overflowing : ValueMap where
  entries := [(.string [97], 2), (.string [98], 2 ^ 64 - 1)]
  sorted := by decide
  size_lt := by decide

/-- The value ahead seems to lead to the target, for it wraps around. -/
theorem overflow_cuts_late :
    ∃ b, buildHistogram exact maxBuckets overflowing 1 = .ok [b]
      ∧ ¬ EndsNearest overflowing.entries
        (avgBucketSize overflowing.entries (1 : Nat) * (0 + 1 : ℕ)) b := by
  have htotal : totalCount overflowing.entries = 1 := by decide
  have havg : avgBucketSize overflowing.entries (1 : Nat) = 1 := by
    rw [avgBucketSize, htotal]
    norm_num
  have hkeep : keepsOpen exact (1 : ℚ) 2 [(.string [98], 2 ^ 64 - 1)]
      = true := by
    simp [keepsOpen, exact, u64]
  obtain ⟨bs, h⟩ := @buildHistogram_returns maxBuckets 1 overflowing
    (by decide) (by decide)
  obtain ⟨-, first, hfirst, hbuild⟩ := buildHistogram_exact h
  obtain rfl : first = (.string [97], 2) := (Option.some.inj hfirst).symm
  rw [havg, htotal] at hbuild
  have hbs : ∃ b : Bucket ℚ, bs = [b] ∧ b.start = .string [97]
      ∧ b.end_ = .string [98] := by
    rw [← hbuild, show overflowing.entries = [(.string [97], 2),
      (.string [98], 2 ^ 64 - 1)] from rfl, buildLoop]
    simp only [Progress.count, show u64 (0 + 2) = 2 from rfl]
    rw [if_pos hkeep]
    exact ⟨_, rfl, rfl, rfl⟩
  obtain ⟨b, rfl, hstart, hend⟩ := hbs
  refine ⟨b, h, ?_⟩
  rintro ⟨p, q, hp, hq, hnear⟩
  rw [hstart] at hp
  rw [hend] at hq
  have hq2 : q < 2 := hnear.lt
  have hp2 : p < 2 := lt_of_le_of_lt hnear.first_le hq2
  obtain rfl : p = 0 := by
    rcases Nat.lt_succ_iff_lt_or_eq.mp hp2 with hlt | rfl
    · exact Nat.lt_one_iff.mp hlt
    · simp [overflowing] at hp
  obtain rfl : q = 1 := by
    rcases Nat.lt_succ_iff_lt_or_eq.mp hq2 with hlt | rfl
    · obtain rfl := Nat.lt_one_iff.mp hlt
      simp [overflowing] at hq
    · rfl
  -- the first position is at distance 1
  have hfar := hnear.nearest 0 le_rfl (by decide)
  rw [havg] at hfar
  norm_num [cumulative, overflowing, total] at hfar

end Result

/-! ## What it accumulates -/

section Accumulation

variable {entries seen rest : List (ExprValue × Nat)} {e : ExprValue × Nat}
  {avg tc : ℚ} {st : Progress ℚ} {bs : List (Bucket ℚ)} {bucketSize : Nat}

/-- Buckets as an equi-height histogram has them: no more than were asked for,
    each with the part of all counts that lies in it and before it. -/
structure Accumulates (entries : List (ExprValue × Nat)) (bucketSize : Nat)
    (bs : List (Bucket ℚ)) : Prop where
  few         : bs.length ≤ bucketSize
  frequencies : Frequencies (total entries) bs
  rising      : bs.Pairwise (fun b c => b.cf ≤ c.cf)
  last        : bs.getLast?.map Bucket.cf = some 1

/-- More buckets count no less. -/
theorem counted_take_le (bs : List (Bucket ℚ)) {i j : Nat} (h : i ≤ j) :
    counted (bs.take i) ≤ counted (bs.take j) := by
  obtain ⟨k, rfl⟩ := Nat.exists_eq_add_of_le h
  rw [counted, counted, List.take_add, List.map_append, List.sum_append]
  exact Nat.le_add_right ..

/-- Frequencies that are accumulated do not fall. -/
theorem Frequencies.rising (h : Frequencies tc bs) (htc : 0 ≤ tc) :
    bs.Pairwise (fun b c => b.cf ≤ c.cf) := by
  rw [List.pairwise_iff_getElem]
  intro i j hi hj hij
  rw [h i _ (List.getElem?_eq_getElem hi), h j _ (List.getElem?_eq_getElem hj)]
  refine div_le_div_of_nonneg_right ?_ htc
  exact Nat.cast_le.mpr (counted_take_le bs (by omega))

/-- Accumulated frequencies end with that of all the buckets. -/
theorem Frequencies.last (h : Frequencies tc bs) (hne : bs ≠ []) :
    bs.getLast?.map Bucket.cf = some (counted bs / tc) := by
  have hlen := List.length_pos_of_ne_nil hne
  obtain ⟨b, hb⟩ : ∃ b, bs.getLast? = some b :=
    ⟨_, List.getLast?_eq_some_getLast hne⟩
  have hget : bs[bs.length - 1]? = some b := by
    rw [← List.getLast?_eq_getElem?, hb]
  rw [hb, Option.map_some, h _ b hget,
    List.take_of_length_le (show bs.length ≤ bs.length - 1 + 1 by omega)]

/-- At the end of the entries the open bucket is empty. -/
def Settled (entries : List (ExprValue × Nat)) (avg tc : ℚ) (st : Progress ℚ)
    (rest : List (ExprValue × Nat)) : Prop :=
  (∃ seen, Tally entries avg tc st seen rest) ∧ (rest = [] → st.sum = 0)

/-- There is room for a bucket as long as there are entries. -/
def Room (entries : List (ExprValue × Nat)) (avg tc : ℚ) (bucketSize : Nat)
    (st : Progress ℚ) (rest : List (ExprValue × Nat)) : Prop :=
  (∃ seen, Tally entries avg tc st seen rest) ∧ st.buckets.length ≤ bucketSize
    ∧ (rest ≠ [] → st.buckets.length < bucketSize)

/-- All counts end up in buckets. -/
theorem buildLoop_counted (hsum : total entries < 2 ^ 64)
    (h : Settled entries avg tc st rest) :
    Frequencies tc (buildLoop exact avg tc rest st)
      ∧ counted (buildLoop exact avg tc rest st) = total entries := by
  have hrun : ∃ st', Settled entries avg tc st' []
      ∧ buildLoop exact avg tc rest st = st'.buckets := by
    refine buildLoop_invariant ?count ?close h
    case count =>
      rintro st e rest ⟨⟨seen, ht⟩, -⟩ hk
      refine ⟨⟨_, ht.count hsum⟩, ?_⟩
      rintro rfl
      cases hk
    case close =>
      rintro st e rest ⟨⟨seen, ht⟩, -⟩ hk
      exact ⟨⟨_, (ht.count hsum).close⟩, fun _ => rfl⟩
  obtain ⟨st', ⟨⟨seen', hend⟩, hzero⟩, heq⟩ := hrun
  have hcount := hend.counted
  rw [hzero rfl, Nat.add_zero] at hcount
  rw [heq]
  refine ⟨hend.frequencies, ?_⟩
  rw [hcount, hend.cut, List.append_nil]

/-- With an exact average the bucket before the last allowed one is never
    followed by two: the last one stays open to the end. -/
theorem length_buildLoop_le (hsum : total entries < 2 ^ 64)
    (havg : avg * bucketSize = total entries)
    (h : Room entries avg tc bucketSize st rest) :
    (buildLoop exact avg tc rest st).length ≤ bucketSize := by
  have hrun : ∃ st', Room entries avg tc bucketSize st' []
      ∧ buildLoop exact avg tc rest st = st'.buckets := by
    refine buildLoop_invariant ?count ?close h
    case count =>
      rintro st e rest ⟨⟨seen, ht⟩, hle, hlt⟩ hk
      exact ⟨⟨_, ht.count hsum⟩, hle, fun _ => hlt (List.cons_ne_nil _ _)⟩
    case close =>
      rintro st e rest ⟨⟨seen, ht⟩, -, hlt⟩ hk
      have hcount := ht.count hsum
      have hlt := hlt (List.cons_ne_nil _ _)
      have hlen : ((st.count e).close exact avg tc e rest).buckets.length
          = st.buckets.length + 1 := List.length_append
      refine ⟨⟨_, hcount.close⟩, hlen ▸ hlt, fun hne => ?_⟩
      rw [hlen]
      refine Nat.lt_of_le_of_ne hlt (fun hfull => ?_)
      -- the threshold is the total, which no cumulative count exceeds
      obtain ⟨next, rest', rfl⟩ := List.exists_cons_of_ne_nil hne
      have hthreshold : (st.count e).threshold = total entries := by
        rw [hcount.threshold, ← havg]
        exact congrArg (fun n : Nat => avg * (n : ℚ)) hfull
      have hkeep : keepsOpen exact (st.count e).threshold
          (st.count e).cumulativeSum (next :: rest') = true := by
        rw [hcount.cumulative, keepsOpen_iff ht.cut hsum, hthreshold]
        refine Or.inl (Nat.cast_le.mpr ?_)
        rw [ht.cut]
        conv_rhs => rw [← List.take_append_drop ((seen).length + 1 + 1)
          (seen ++ e :: next :: rest'), total_append]
        exact Nat.le_add_right ..
      rw [hkeep] at hk
      cases hk
  obtain ⟨st', ⟨-, hend, -⟩, heq⟩ := hrun
  rw [heq]
  exact hend

/-! ## The total -/

/-- The sum comes out as an `int`. -/
theorem accumulate_eq {ns : List Nat} {previous : Int}
    (h : previous = previous.bmod (2 ^ 32)) :
    accumulate ns previous = (previous + ns.sum).bmod (2 ^ 32) := by
  induction ns generalizing previous with
  | nil =>
      rw [accumulate, List.sum_nil]
      simpa using h
  | cons n ns ih =>
      rw [accumulate, BitVec.toInt_ofInt, ih (Int.bmod_bmod ..).symm,
        Int.bmod_add_bmod, List.sum_cons]
      congr 1
      push_cast
      omega

/-- It is the true total below `2^31`, and again where the sign extension of a
    negative `int` gives the high bits back. -/
theorem totalCount_eq_iff (hsum : total entries < 2 ^ 64) :
    totalCount entries = total entries
      ↔ total entries < 2 ^ 31 ∨ 2 ^ 64 - 2 ^ 31 ≤ total entries := by
  have hacc : accumulate (entries.map Prod.snd) 0
      = ((total entries : Nat) : Int).bmod (2 ^ 32) := by
    rw [accumulate_eq (by decide), Int.zero_add]
    rfl
  rw [totalCount, hacc, Int.bmod_def]
  omega

end Accumulation

section Frequency

variable {m : ValueMap} {maxSize bucketSize : Nat}

/-- At most `bucketSize` buckets with frequencies that rise to 1 are what comes
    back exactly when they can be reserved and the total fits an `int`, or is so
    close below `2^64` that the sign extension restores it. -/
theorem accumulates_iff (hpos : 0 < total m.entries)
    (hsum : total m.entries < 2 ^ 64) (hb : 1 ≤ bucketSize) :
    (∃ bs, buildHistogram exact maxSize m bucketSize = .ok bs
      ∧ Accumulates m.entries bucketSize bs)
      ↔ bucketSize ≤ maxSize ∧ (total m.entries < 2 ^ 31
        ∨ 2 ^ 64 - 2 ^ 31 ≤ total m.entries) := by
  rw [← totalCount_eq_iff hsum]
  have hne : m.entries ≠ [] := by
    intro hnil
    rw [hnil] at hpos
    exact absurd hpos (lt_irrefl 0)
  have hcounted : ∀ bs, buildHistogram exact maxSize m bucketSize = .ok bs →
      Frequencies (totalCount m.entries : ℚ) bs
        ∧ counted bs = total m.entries := by
    intro bs h
    obtain ⟨-, first, -, hbuild⟩ := buildHistogram_exact h
    rw [← hbuild]
    exact buildLoop_counted hsum ⟨⟨[], tally_init ..⟩, fun hnil => rfl⟩
  have hnonempty : ∀ bs : List (Bucket ℚ), counted bs = total m.entries →
      bs ≠ [] := by
    rintro bs hbs rfl
    rw [← hbs] at hpos
    exact absurd hpos (lt_irrefl 0)
  constructor
  · rintro ⟨bs, h, hacc⟩
    obtain ⟨hfreq, htotal⟩ := hcounted bs h
    refine ⟨(buildHistogram_exact h).1, ?_⟩
    -- the last frequency is the true total over the one that came out
    have hlast := hfreq.last (hnonempty bs htotal)
    rw [hacc.last, htotal] at hlast
    have hone := Option.some.inj hlast
    have htc : (totalCount m.entries : ℚ) ≠ 0 := by
      intro hzero
      rw [hzero, div_zero] at hone
      exact one_ne_zero hone
    have htrue := (eq_div_iff htc).mp hone
    rw [one_mul] at htrue
    exact Nat.cast_inj.mp htrue
  · rintro ⟨hle, htc⟩
    obtain ⟨bs, h⟩ := buildHistogram_returns hne hle
    obtain ⟨hfreq, htotal⟩ := hcounted bs h
    rw [htc] at hfreq
    refine ⟨bs, h, ?_, hfreq, hfreq.rising (Nat.cast_nonneg _), ?_⟩
    · obtain ⟨-, first, -, hbuild⟩ := buildHistogram_exact h
      rw [← hbuild]
      refine length_buildLoop_le hsum ?_ ⟨⟨[], tally_init ..⟩, Nat.zero_le _,
        fun _ => hb⟩
      rw [avgBucketSize, htc]
      exact div_mul_cancel₀ _ (Nat.cast_ne_zero.mpr (by omega))
    · rw [hfreq.last (hnonempty bs htotal), htotal,
        div_self (Nat.cast_ne_zero.mpr hpos.ne')]

/-- The sample is small enough. -/
theorem accumulates_iff_sampled :
    (∃ bs, buildHistogram exact maxBuckets sampled 2 = .ok bs
      ∧ Accumulates sampled.entries 2 bs)
      ↔ 2 ≤ maxBuckets ∧ (total sampled.entries < 2 ^ 31
        ∨ 2 ^ 64 - 2 ^ 31 ≤ total sampled.entries) :=
  accumulates_iff (by decide) (by decide) (by decide)

/-- One value, seen `2^31` times. -/
def frequent : ValueMap where
  entries := [(.int64 7, 2 ^ 31)]
  sorted := by decide
  size_lt := by decide

/-- Its frequency is taken of `2^64 - 2^31`. -/
theorem frequent_is_rare :
    ¬ ∃ bs, buildHistogram exact maxBuckets frequent 1 = .ok bs
      ∧ Accumulates frequent.entries 1 bs := by
  rintro ⟨bs, h, hacc⟩
  have hbuild : buildHistogram exact maxBuckets frequent 1 = .ok
      [⟨.int64 7, .int64 7, 2 ^ 31, 1,
        ((2 ^ 31 : ℕ) : ℚ) / ((2 ^ 64 - 2 ^ 31 : ℕ) : ℚ)⟩] := rfl
  rw [hbuild] at h
  obtain rfl := Except.ok.inj h
  have hlast := Option.some.inj hacc.last
  norm_num at hlast

end Frequency

end AmDb.Stat
