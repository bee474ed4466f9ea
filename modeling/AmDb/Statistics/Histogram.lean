import AmDb.Codec.ValueCodec
import AmDb.Foundation.Blocks
import Mathlib.Data.Prod.Lex

/-! # Histograms

    `BuildHistogram` of `sql/statistics/histogram.cc`.  The arithmetic of
    `double` is a parameter: it decides where a bucket is closed, and every
    decision leaves a partition of the map. -/

namespace AmDb.Stat

open Codec AmDb.Expr

/-- What the source does with a `double`. -/
structure DoubleArith (D : Type) where
  ofSize : Nat → D
  div    : D → D → D
  mul    : D → D → D
  sub    : D → D → D
  abs    : D → D
  le     : D → D → Bool

/-- `Histogram::Bucket`. -/
structure Bucket (D : Type) where
  start : ExprValue
  end_  : ExprValue
  count : Nat
  ndv   : Nat
  cf    : D

/-- `std::map<ExprValue, size_t, ExprValueLess>`: a map has fewer than `2^64`
    elements. -/
structure ValueMap where
  entries : List (ExprValue × Nat)
  sorted  : entries.Pairwise (fun a b => exprValueCmp a.1 b.1 = .lt)
  size_lt : entries.length < 2 ^ 64

/-- The sum `std::accumulate` makes from `0`, an `int`: each partial sum is
    taken to a `size_t` and back. -/
def accumulate : List Nat → Int → Int
  | [], previous => previous
  | n :: ns, previous => accumulate ns (BitVec.ofInt 32 (previous + n)).toInt

/-- The variables of the loop. -/
structure Progress (D : Type) where
  ndv           : Nat := 0
  sum           : Nat := 0
  cumulativeSum : Nat := 0
  lowestValue   : ExprValue
  threshold     : D
  buckets       : List (Bucket D) := []

section Build

variable {D : Type} (d : DoubleArith D)

/-- Do the tests on the next entry `continue`? -/
def keepsOpen (threshold : D) (cumulativeSum : Nat) :
    List (ExprValue × Nat) → Bool
  | [] => false
  | next :: _ =>
      let predict := u64 (cumulativeSum + next.2)
      d.le (d.ofSize predict) threshold
        || d.le (d.abs (d.sub threshold (d.ofSize predict)))
          (d.abs (d.sub threshold (d.ofSize cumulativeSum)))

/-- Take an entry into the open bucket. -/
def Progress.count (st : Progress D) (freq : ExprValue × Nat) : Progress D :=
  { st with
    ndv := u64 (st.ndv + 1)
    sum := u64 (st.sum + freq.2)
    cumulativeSum := u64 (st.cumulativeSum + freq.2) }

/-- Close the bucket at the entry `freq`. -/
def Progress.close (st : Progress D) (avgBucketSize totalCount : D)
    (freq : ExprValue × Nat) (rest : List (ExprValue × Nat)) : Progress D :=
  let buckets := st.buckets ++ [{
    start := st.lowestValue
    end_ := freq.1
    count := st.sum
    ndv := st.ndv
    cf := d.div (d.ofSize st.cumulativeSum) totalCount }]
  { st with
    sum := 0
    ndv := 0
    threshold := d.mul avgBucketSize (d.ofSize (buckets.length + 1))
    lowestValue := (rest.head?.map Prod.fst).getD st.lowestValue
    buckets }

/-- The loop, up to its end. -/
def buildLoop (avgBucketSize totalCount : D) :
    List (ExprValue × Nat) → Progress D → List (Bucket D)
  | [], st => st.buckets
  | freq :: rest, st =>
      let st := st.count freq
      if keepsOpen d st.threshold st.cumulativeSum rest then
        buildLoop avgBucketSize totalCount rest st
      else
        buildLoop avgBucketSize totalCount rest
          (st.close d avgBucketSize totalCount freq rest)

/-- `BuildHistogram`.  `reserve` throws above the size a vector can have;
    without a first entry `&freq_it->first` has no meaning. -/
def buildHistogram (maxSize : Nat) (valueMap : ValueMap) (bucketSize : Nat) :
    Exec (List (Bucket D)) :=
  if maxSize < bucketSize then .error .assertion
  else
    match valueMap.entries with
    | [] => .error .undefined
    | first :: rest =>
        let totalCount := (accumulate (valueMap.entries.map Prod.snd) 0
          % 2 ^ 64).toNat
        let avgBucketSize := d.div (d.ofSize totalCount) (d.ofSize bucketSize)
        .ok (buildLoop d avgBucketSize (d.ofSize totalCount) (first :: rest) {
          lowestValue := first.1
          threshold := avgBucketSize })

end Build

/-! ## The order of the values -/

/-- A value of one of the encoded types as an element of a linear order. -/
def sortKey : ExprValue → ℤ ×ₗ Bytes
  | .int8 u => toLex (u.toInt, [])
  | .uint8 u => toLex (u.toNat, [])
  | .int32 u => toLex (u.toInt, [])
  | .uint32 u => toLex (u.toNat, [])
  | .int64 u => toLex (u.toInt, [])
  | .uint64 u => toLex (u.toNat, [])
  | .string s => toLex (0, s)
  | _ => toLex (0, [])

/-- Values of one type are in order of their sort keys. -/
theorem exprValueCmp_eq_lt {v w : ExprValue} (ht : v.type = w.type)
    (hk : v.type ∈ codecTypes) :
    exprValueCmp v w = .lt ↔ sortKey v < sortKey w := by
  refine codecType_cases (motive := fun v w =>
    exprValueCmp v w = .lt ↔ sortKey v < sortKey w)
    ?int8 ?uint8 ?int32 ?uint32 ?int64 ?uint64 ?string ht hk
  case string =>
    intro s t
    show dataCmp s t = .lt ↔ toLex ((0 : ℤ), s) < toLex ((0 : ℤ), t)
    rw [dataCmp_eq_lt, Prod.Lex.toLex_lt_toLex]
    simp
  case int8 | int32 | int64 =>
    intro a b
    show compareIntType a.toInt b.toInt = .lt
      ↔ toLex (a.toInt, ([] : Bytes)) < toLex (b.toInt, [])
    rw [compareIntType_eq_lt, Prod.Lex.toLex_lt_toLex]
    simp
  all_goals
    intro a b
    show compareIntType a.toNat b.toNat = .lt
      ↔ toLex ((a.toNat : ℤ), ([] : Bytes)) < toLex ((b.toNat : ℤ), [])
    rw [compareIntType_eq_lt, Prod.Lex.toLex_lt_toLex]
    simp

/-! ## The buckets are blocks -/

/-- The sum of some counts. -/
def total (es : List (ExprValue × Nat)) : Nat := (es.map Prod.snd).sum

@[simp] theorem total_nil : total [] = 0 := rfl

@[simp] theorem total_append (es fs : List (ExprValue × Nat)) :
    total (es ++ fs) = total es + total fs := by
  simp [total]

@[simp] theorem total_cons (e : ExprValue × Nat)
    (es : List (ExprValue × Nat)) : total (e :: es) = e.2 + total es := rfl

section Loop

variable {D : Type} {d : DoubleArith D}

/-- A bucket made of a block of entries. -/
structure Sums (block : List (ExprValue × Nat)) (b : Bucket D) : Prop where
  start : block.head?.map Prod.fst = some b.start
  end_  : block.getLast?.map Prod.fst = some b.end_
  count : b.count = total block
  ndv   : b.ndv = block.length

/-- The closed blocks have their buckets, and the variables stand for the open
    one. -/
structure Invariant (st : Progress D) (done : List (List (ExprValue × Nat)))
    (pending rest : List (ExprValue × Nat)) : Prop where
  buckets : List.Forall₂ Sums done st.buckets
  sum     : st.sum = total pending
  ndv     : st.ndv = pending.length
  lowest  : ∀ e ∈ (pending ++ rest).head?, st.lowestValue = e.1

variable {st : Progress D} {done : List (List (ExprValue × Nat))}
  {pending rest : List (ExprValue × Nat)} {e : ExprValue × Nat}

/-- Taking the next entry in. -/
theorem Invariant.counted (h : Invariant st done pending (e :: rest))
    (hsum : total (pending ++ e :: rest) < 2 ^ 64)
    (hlen : (pending ++ e :: rest).length < 2 ^ 64) :
    Invariant (st.count e) done (pending ++ [e]) rest := by
  refine ⟨h.buckets, ?_, ?_, fun x hx => ?_⟩
  · show u64 (st.sum + e.2) = _
    rw [h.sum]
    simp only [total_append, total_cons, total_nil] at hsum ⊢
    exact Nat.mod_eq_of_lt (by omega)
  · show u64 (st.ndv + 1) = _
    rw [h.ndv]
    simp only [List.length_append, List.length_cons, List.length_nil] at hlen ⊢
    exact Nat.mod_eq_of_lt (by omega)
  · rw [List.append_assoc] at hx
    exact h.lowest x hx

/-- Closing the open block at its last entry. -/
theorem Invariant.closed {avg totalCount : D}
    (h : Invariant st done (pending ++ [e]) rest) :
    Invariant (st.close d avg totalCount e rest) (done ++ [pending ++ [e]]) []
      rest := by
  refine ⟨List.rel_append h.buckets (.cons ⟨?_, ?_, h.sum, h.ndv⟩ .nil), rfl,
    rfl, fun x hx => ?_⟩
  · obtain ⟨x, hx⟩ : ∃ x, (pending ++ [e]).head? = some x :=
      ⟨_, List.head?_eq_some_head (List.concat_ne_nil e pending)⟩
    have hlow := h.lowest x (by rw [List.head?_append, hx]; rfl)
    rw [hx]
    exact congrArg some hlow.symm
  · rw [List.getLast?_concat]
    rfl
  · rw [List.nil_append] at hx
    show (rest.head?.map Prod.fst).getD st.lowestValue = x.1
    rw [hx]
    rfl

/-- The loop cuts what is left into blocks. -/
theorem exists_blocks {avg totalCount : D}
    (h : Invariant st done pending rest) (hover : rest = [] → pending = [])
    (hsum : total (pending ++ rest) < 2 ^ 64)
    (hlen : (pending ++ rest).length < 2 ^ 64) :
    ∃ blocks, blocks.flatten = done.flatten ++ pending ++ rest
      ∧ List.Forall₂ Sums blocks (buildLoop d avg totalCount rest st) := by
  induction rest generalizing st done pending with
  | nil =>
      obtain rfl := hover rfl
      exact ⟨done, by simp, h.buckets⟩
  | cons e rest ih =>
      have hcount := h.counted hsum hlen
      have hcons : pending ++ e :: rest = (pending ++ [e]) ++ rest := by simp
      rw [hcons] at hsum hlen
      rw [buildLoop]
      split_ifs with hopen
      · -- the block stays open, so there is a next entry
        have hne : rest ≠ [] := by
          rintro rfl
          cases hopen
        obtain ⟨blocks, hflat, hsums⟩ :=
          ih hcount (fun hnil => absurd hnil hne) hsum hlen
        exact ⟨blocks, by rw [hflat]; simp, hsums⟩
      · rw [total_append] at hsum
        rw [List.length_append] at hlen
        obtain ⟨blocks, hflat, hsums⟩ := ih hcount.closed (fun _ => rfl)
          (lt_of_le_of_lt (Nat.le_add_left _ _) hsum)
          (lt_of_le_of_lt (Nat.le_add_left _ _) hlen)
        exact ⟨blocks, by rw [hflat]; simp, hsums⟩

end Loop

/-! ## The partition -/

/-- A value in the closed range of a bucket. -/
def InBucket {D : Type} (b : Bucket D) (v : ExprValue) : Prop :=
  exprValueCmp v b.start ≠ .lt ∧ exprValueCmp b.end_ v ≠ .lt

instance {D : Type} (b : Bucket D) (v : ExprValue) : Decidable (InBucket b v) :=
  inferInstanceAs (Decidable (_ ∧ _))

/-- The buckets cut the entries of a map in consecutive ranges, and know what
    they hold. -/
structure Partitions {D : Type} (entries : List (ExprValue × Nat))
    (bs : List (Bucket D)) : Prop where
  once     : ∀ e ∈ entries, (bs.filter (fun b => InBucket b e.1)).length = 1
  nonempty : ∀ b ∈ bs, ∃ e ∈ entries, InBucket b e.1
  bounds   : ∀ b ∈ bs, exprValueCmp b.end_ b.start ≠ .lt
  ascends  : bs.Pairwise (fun b c => exprValueCmp b.end_ c.start = .lt)
  least    : bs.head?.map Bucket.start = entries.head?.map Prod.fst
  greatest : bs.getLast?.map Bucket.end_ = entries.getLast?.map Prod.fst
  count    : ∀ b ∈ bs,
    b.count = total (entries.filter (fun e => InBucket b e.1))
  ndv      : ∀ b ∈ bs,
    b.ndv = (entries.filter (fun e => InBucket b e.1)).length

section Cut

variable {D : Type} {entries block : List (ExprValue × Nat)} {t : ExprValueType}
  {b : Bucket D} {bs : List (Bucket D)} {blocks : List (List (ExprValue × Nat))}

/-- The key an entry is sorted by. -/
def entryKey (e : ExprValue × Nat) : ℤ ×ₗ Bytes := sortKey e.1

/-- The entries of a map over values of one type ascend by their sort keys. -/
theorem ascending_entries
    (hs : entries.Pairwise (fun a b => exprValueCmp a.1 b.1 = .lt))
    (ht : ∀ e ∈ entries, e.1.type = t) (hk : t ∈ codecTypes) :
    Blocks.Ascending entryKey entries := by
  refine hs.imp_of_mem (fun {a b} ha hb hab => ?_)
  have hta := ht a ha
  exact (exprValueCmp_eq_lt (hta.trans (ht b hb).symm) (hta ▸ hk)).mp hab

/-- A bucket reaches from its first key to its last. -/
theorem Sums.spans (h : Sums block b) :
    Blocks.Spans entryKey block (sortKey b.start) (sortKey b.end_) := by
  refine ⟨?_, ?_⟩
  · rw [show entryKey = sortKey ∘ Prod.fst from rfl, ← Option.map_map, h.start]
    rfl
  · rw [show entryKey = sortKey ∘ Prod.fst from rfl, ← Option.map_map, h.end_]
    rfl

/-- The ends of a bucket are values of its block. -/
theorem Sums.start_mem (h : Sums block b) : ∃ e ∈ block, e.1 = b.start := by
  obtain ⟨e, he, heq⟩ := Option.map_eq_some_iff.mp h.start
  exact ⟨e, List.mem_of_head? he, heq⟩

theorem Sums.end_mem (h : Sums block b) : ∃ e ∈ block, e.1 = b.end_ := by
  obtain ⟨e, he, heq⟩ := Option.map_eq_some_iff.mp h.end_
  exact ⟨e, List.mem_of_getLast? he, heq⟩

/-- The first bucket starts with the first value. -/
theorem least_of_blocks (h : List.Forall₂ Sums blocks bs) :
    bs.head?.map Bucket.start = blocks.flatten.head?.map Prod.fst := by
  cases h with
  | nil => rfl
  | @cons block b blocks bs hsum _ =>
      obtain ⟨e, he, heq⟩ := Option.map_eq_some_iff.mp hsum.start
      rw [List.flatten_cons, List.head?_append, he, List.head?_cons]
      exact congrArg some heq.symm

/-- The last bucket ends with the last value. -/
theorem greatest_of_blocks (h : List.Forall₂ Sums blocks bs) :
    bs.getLast?.map Bucket.end_ = blocks.flatten.getLast?.map Prod.fst := by
  induction h with
  | nil => rfl
  | @cons block b blocks bs hsum _ ih =>
      rw [List.flatten_cons, List.getLast?_append, List.getLast?_cons]
      cases hb : bs.getLast? with
      | none =>
          rw [hb] at ih
          rw [Option.map_eq_none_iff.mp ih.symm, Option.none_or, hsum.end_]
          rfl
      | some c =>
          rw [hb] at ih
          obtain ⟨e, he, heq⟩ := Option.map_eq_some_iff.mp ih.symm
          rw [he]
          exact congrArg some heq.symm

/-- With values of one type, the range of a bucket is a range of sort keys. -/
theorem inBucket_iff {v : ExprValue} (hv : v.type = t) (hs : b.start.type = t)
    (he : b.end_.type = t) (hk : t ∈ codecTypes) :
    InBucket b v ↔ sortKey b.start ≤ sortKey v ∧ sortKey v ≤ sortKey b.end_ := by
  rw [InBucket, Ne, exprValueCmp_eq_lt (hv.trans hs.symm) (hv ▸ hk), Ne,
    exprValueCmp_eq_lt (he.trans hv.symm) (he ▸ hk), not_lt, not_lt]

/-- Blocks of a sorted list with their buckets are a partition of it. -/
theorem partitions_of_blocks
    (hs : entries.Pairwise (fun a b => exprValueCmp a.1 b.1 = .lt))
    (ht : ∀ e ∈ entries, e.1.type = t) (hk : t ∈ codecTypes)
    (hflat : blocks.flatten = entries) (hsums : List.Forall₂ Sums blocks bs) :
    Partitions entries bs := by
  have hasc := ascending_entries hs ht hk
  have hranges : Blocks.Ranges entryKey (fun b => sortKey b.start)
      (fun b => sortKey b.end_) blocks bs := hsums.imp (fun _ _ h => h.spans)
  -- every bucket with its block, and the types of its ends
  have hblock : ∀ b ∈ bs, ∃ pre block post, entries = pre ++ block ++ post
      ∧ Sums block b ∧ b.start.type = t ∧ b.end_.type = t := by
    intro b hb
    obtain ⟨pre, block, post, rfl, hsum⟩ := Blocks.exists_block hsums hb
    rw [List.flatten_append, List.flatten_cons, ← List.append_assoc] at hflat
    have hmem : ∀ e ∈ block, e ∈ entries := fun e he => by
      rw [← hflat]
      exact List.mem_append_left _ (List.mem_append_right _ he)
    obtain ⟨e, he, heq⟩ := hsum.start_mem
    obtain ⟨f, hf, hfeq⟩ := hsum.end_mem
    exact ⟨pre.flatten, block, post.flatten, hflat.symm, hsum,
      heq ▸ ht e (hmem e he), hfeq ▸ ht f (hmem f hf)⟩
  have hfilter : ∀ b ∈ bs, ∃ block, Sums block b
      ∧ entries.filter (fun e => InBucket b e.1) = block := by
    intro b hb
    obtain ⟨pre, block, post, hcut, hsum, hst, het⟩ := hblock b hb
    refine ⟨block, hsum, ?_⟩
    rw [hcut] at hasc
    rw [← hsum.spans.filter_eq hasc, hcut]
    exact List.filter_congr (fun e he => decide_eq_decide.mpr
      (inBucket_iff (ht e (hcut ▸ he)) hst het hk))
  refine ⟨fun e he => ?_, fun b hb => ?_, fun b hb => ?_, ?_, ?_, ?_,
    fun b hb => ?_, fun b hb => ?_⟩
  · rw [← hranges.once (hflat ▸ hasc) (hflat ▸ he)]
    refine congrArg List.length (List.filter_congr (fun b hb => ?_))
    obtain ⟨-, -, -, -, -, hst, het⟩ := hblock b hb
    exact decide_eq_decide.mpr (inBucket_iff (ht e he) hst het hk)
  · obtain ⟨block, hsum, hf⟩ := hfilter b hb
    obtain ⟨e, he, -⟩ := hsum.start_mem
    rw [← hf] at he
    obtain ⟨hmem, hin⟩ := List.mem_filter.mp he
    exact ⟨e, hmem, of_decide_eq_true hin⟩
  · obtain ⟨pre, block, post, rfl, hsum, hst, het⟩ := hblock b hb
    have hle := hsum.spans.le
      (List.pairwise_append.mp (List.pairwise_append.mp hasc).1).2.1
    rw [Ne, exprValueCmp_eq_lt (het.trans hst.symm) (het ▸ hk)]
    exact not_lt.mpr hle
  · refine (hranges.pairwise (hflat ▸ hasc)).imp_of_mem
      (fun {b c} hb hc hlt => ?_)
    obtain ⟨-, -, -, -, -, -, het⟩ := hblock b hb
    obtain ⟨-, -, -, -, -, hst, -⟩ := hblock c hc
    exact (exprValueCmp_eq_lt (het.trans hst.symm) (het ▸ hk)).mpr hlt
  · rw [least_of_blocks hsums, hflat]
  · rw [greatest_of_blocks hsums, hflat]
  · obtain ⟨block, hsum, hf⟩ := hfilter b hb
    rw [hf, hsum.count]
  · obtain ⟨block, hsum, hf⟩ := hfilter b hb
    rw [hf, hsum.ndv]

end Cut

section Result

variable {D : Type} {d : DoubleArith D} {maxSize bucketSize : Nat}
  {m : ValueMap} {t : ExprValueType}

/-- The buckets of a map with values of one type and counts below `2^64` in
    total are a partition of it; a number of buckets that no vector can hold
    throws. -/
theorem buildHistogram_partitions (hne : m.entries ≠ [])
    (hk : t ∈ codecTypes) (ht : ∀ e ∈ m.entries, e.1.type = t)
    (hsum : total m.entries < 2 ^ 64) :
    (bucketSize ≤ maxSize → ∃ bs, buildHistogram d maxSize m bucketSize = .ok bs)
      ∧ ∀ bs, buildHistogram d maxSize m bucketSize = .ok bs
        → Partitions m.entries bs := by
  obtain ⟨first, rest, hm⟩ := List.exists_cons_of_ne_nil hne
  have hbuild : ∀ avg totalCount, Partitions m.entries
      (buildLoop d avg totalCount (first :: rest) {
        lowestValue := first.1, threshold := avg }) := by
    intro avg totalCount
    rw [hm] at hsum
    have hinit : Invariant
        ({ lowestValue := first.1, threshold := avg } : Progress D) [] []
        (first :: rest) :=
      ⟨.nil, rfl, rfl, fun e he => congrArg Prod.fst (Option.some.inj
        (List.head?_cons ▸ List.nil_append (first :: rest) ▸ he))⟩
    obtain ⟨blocks, hflat, hsums⟩ := @exists_blocks D d _ [] [] _ avg totalCount
      hinit (fun _ => rfl) hsum (hm ▸ m.size_lt)
    exact partitions_of_blocks m.sorted ht hk (hflat.trans hm.symm) hsums
  refine ⟨fun hle => ?_, fun bs h => ?_⟩
  · rw [buildHistogram, if_neg (Nat.not_lt.mpr hle), hm]
    exact ⟨_, rfl⟩
  · rw [buildHistogram] at h
    split_ifs at h with hlt
    simp only [hm] at h
    rw [← Except.ok.inj h]
    exact hbuild _ _

end Result

/-- A `double` that is a whole number of sixteenths. -/
def sixteenths : DoubleArith Int where
  ofSize n := 16 * n
  div x y := 16 * x / y
  mul x y := x * y / 16
  sub := (· - ·)
  abs x := x.natAbs
  le x y := decide (x ≤ y)

/-- Four strings, counted sixteen times. -/
def sampled : ValueMap where
  entries := [(.string [97], 2), (.string [98], 11), (.string [99], 2),
    (.string [100], 1)]
  sorted := by decide
  size_lt := by decide

/-- A `std::vector` of buckets of 128 bytes has at most this many elements. -/
def maxBuckets : Nat := (2 ^ 63 - 1) / 128

/-- The buckets of the sample partition it. -/
theorem sampled_partitions :
    (2 ≤ maxBuckets → ∃ bs, buildHistogram sixteenths maxBuckets
      sampled 2 = .ok bs)
      ∧ ∀ bs, buildHistogram sixteenths maxBuckets sampled 2 = .ok bs
        → Partitions sampled.entries bs :=
  buildHistogram_partitions (t := .string) (by decide) (by decide)
    (by decide) (by decide)

example : (buildHistogram sixteenths maxBuckets sampled 2).toOption.map
    (fun bs => bs.map (fun b => (b.start, b.end_, b.count, b.ndv)))
    = some [(.string [97], .string [98], 13, 2),
      (.string [99], .string [100], 3, 2)] := by decide +kernel

end AmDb.Stat
