import AmDb.Statistics.Histogram
import AmDb.Storage.KvStorage
import Mathlib.Data.Rat.Floor
import Mathlib.Tactic.NormNum

/-! # Statistics in the store

    `statistic.cc`, `statistics.cc`, the message side of `histogram.cc`, and
    `proto/statistics.proto`.  A bound is written without its type and read as
    a string, and a cumulative frequency passes through an integer. -/

namespace AmDb.Stat

open AmDb.Codec AmDb.Expr Storage PrefixCode

structure BucketProto where
  start : Bytes
  end_  : Bytes
  count : Nat
  ndv   : Nat
  cf    : Nat
  deriving DecidableEq

structure ColumnStatisticsProto where
  dbId      : Nat
  tableId   : Nat
  columnId  : Nat
  min       : Bytes
  max       : Bytes
  count     : Nat
  size      : Nat
  ndv       : Nat
  createTs  : Nat
  updateTs  : Nat
  histogram : List BucketProto
  deriving DecidableEq

/-- `ColumnStatistic`; a `double` is the number it stands for. -/
structure ColumnStatistic where
  dbId      : Nat := 2 ^ 64 - 1
  tableId   : Nat := 2 ^ 64 - 1
  columnId  : Nat := 2 ^ 64 - 1
  min       : Bytes := []
  max       : Bytes := []
  count     : Nat := 0
  size      : Nat := 0
  ndv       : Nat := 0
  createTs  : Nat := 0
  updateTs  : Nat := 0
  histogram : List (Bucket ℚ) := []

/-- A `double` stored in a `uint64`: cut off towards zero, undefined outside
    the range. -/
def narrow (x : ℚ) : Exec Nat :=
  if -1 < x ∧ x < 2 ^ 64 then .ok ⌊x⌋.toNat else .error .undefined

/-- `to_string`. -/
def boundBytes (v : ExprValue) : Bytes := (encodeExprValue v []).2

/-- `to_expr_value`: the value to decode into is an empty string. -/
def boundValue (s : Bytes) : Exec ExprValue := do
  let (_, v) ← decodeExprValue .string s
  return v

/-- `Histogram::Bucket::Serialize`; `ColumnStatistic::Serialize` repeats it. -/
def Bucket.serialize (b : Bucket ℚ) : Exec BucketProto := do
  let cf ← narrow b.cf
  return ⟨boundBytes b.start, boundBytes b.end_, b.count, b.ndv, cf⟩

/-- `Histogram::Bucket::Deserialize`. -/
def Bucket.deserialize (input : BucketProto) : Exec (Bucket ℚ) := do
  let start ← boundValue input.start
  let end_ ← boundValue input.end_
  return ⟨start, end_, input.count, input.ndv, input.cf⟩

namespace ColumnStatistic

/-- `ColumnStatistic::Serialize`. -/
def serialize (s : ColumnStatistic) : Exec ColumnStatisticsProto := do
  let histogram ← s.histogram.mapM Bucket.serialize
  return ⟨s.dbId, s.tableId, s.columnId, s.min, s.max, s.count, s.size, s.ndv,
    s.createTs, s.updateTs, histogram⟩

/-- `ColumnStatistic::Deserialize`: every member is assigned. -/
def deserialize (input : ColumnStatisticsProto) : Exec ColumnStatistic := do
  let histogram ← input.histogram.mapM Bucket.deserialize
  return ⟨input.dbId, input.tableId, input.columnId, input.min, input.max,
    input.count, input.size, input.ndv, input.createTs, input.updateTs,
    histogram⟩

end ColumnStatistic

/-- The class `protoc` makes of `ColumnStatisticsProto`.  Whether
    `ParseFromString` succeeds is not looked at: here it is what the message
    holds afterwards. -/
structure StatisticsCodec where
  serializeAsString : ColumnStatisticsProto → Bytes
  parseFromString   : Bytes → ColumnStatisticsProto

/-- A message comes back from its bytes. -/
def StatisticsCodec.Carries (pb : StatisticsCodec)
    (m : ColumnStatisticsProto) : Prop :=
  pb.parseFromString (pb.serializeAsString m) = m

section Store

variable (pb : StatisticsCodec) (kv : KvStorage) (dbId tableId columnId : Nat)

/-- `DumpColumnStatistic`, with the assertion on the write. -/
def dumpColumnStatistic (s : ColumnStatistic) : Exec (Status × KvStorage) := do
  let proto ← s.serialize
  let (status, kv) := kv.putKV (.columnStatistic dbId tableId columnId)
    (pb.serializeAsString proto)
  if status = .ok then .ok (status, kv) else .error .assertion

/-- `LoadColumnStatistic`, with the assertion on the read. -/
def loadColumnStatistic : Exec (Status × ColumnStatistic × KvStorage) :=
  let (status, value, kv) := kv.getKV (.columnStatistic dbId tableId columnId)
  if status = .ok then do
    let s ← ColumnStatistic.deserialize (pb.parseFromString value)
    return (.ok, s, kv)
  else .error .assertion

/-- The statistic that is loaded is the one dumped before. -/
def Survives (s : ColumnStatistic) : Prop :=
  ∃ kv' kv'', dumpColumnStatistic pb kv dbId tableId columnId s = .ok (.ok, kv')
    ∧ loadColumnStatistic pb kv' dbId tableId columnId = .ok (.ok, s, kv'')

end Store

/-! ## One bucket -/

section Bounds

variable {v : ExprValue} {x : ℚ} {b : Bucket ℚ}

/-- A string shorter than `2^32` bytes. -/
def ShortString (v : ExprValue) : Prop := v.type = .string ∧ v.Bounded

instance (v : ExprValue) : Decidable (ShortString v) :=
  inferInstanceAs (Decidable (_ ∧ _))

/-- What `DecodeBytes` makes of a string that was written before it. -/
theorem decodeBytes_lengthPrefixed_mod (s : Bytes) :
    decodeBytes (lengthPrefixed s) []
      = .ok (s.length % 2 ^ 32 + 4, s.take (s.length % 2 ^ 32)) := by
  have hread : decodeUInt32 (lengthPrefixed s)
      = .ok (4, s.length % 2 ^ 32) := by
    have hr := readData_append (bigEndian 4 s.length) s
    rw [length_bigEndian] at hr
    rw [decodeUInt32, lengthPrefixed, hr, Exec.bind_ok, ofBigEndian_bigEndian]
    rfl
  have hlen : (lengthPrefixed s).length = 4 + s.length := by
    simp [lengthPrefixed]
  have hdrop : (lengthPrefixed s).drop 4 = s := by
    rw [lengthPrefixed, List.drop_left' (length_bigEndian 4 _)]
  rw [decodeBytes, hread]
  simp only [Exec.bind_ok, Exec.pure_eq]
  rw [if_pos (by rw [hlen]; have := Nat.mod_le s.length (2 ^ 32); omega),
    hdrop, List.nil_append]

/-- A bound comes back when it is a string, and not a long one. -/
theorem boundValue_boundBytes :
    boundValue (boundBytes v) = .ok v ↔ ShortString v := by
  have hbytes : boundBytes v = valueCode v := by
    rw [boundBytes, encodeExprValue_snd, List.nil_append]
  constructor
  · intro h
    obtain ⟨⟨size, w⟩, hdec, hw⟩ := Exec.bind_eq_ok.mp h
    obtain rfl : w = v := Except.ok.inj hw
    obtain ⟨⟨size', s⟩, hs, hret⟩ := Exec.bind_eq_ok.mp hdec
    obtain ⟨rfl, rfl⟩ : size' = size ∧ .string s = w := by
      simpa using Except.ok.inj hret
    rw [hbytes] at hs
    refine ⟨rfl, ?_⟩
    -- no more bytes come back than the length says
    have heq := Except.ok.inj ((decodeBytes_lengthPrefixed_mod s).symm.trans hs)
    have hlen := congrArg (fun r : Nat × Bytes => r.2.length) heq
    have hmod := Nat.mod_lt s.length (Nat.two_pow_pos 32)
    simp only [List.length_take] at hlen
    show s.length < 2 ^ 32
    omega
  · rintro ⟨ht, hb⟩
    have hdec := decodeExprValue_valueCode (v := v) (ht ▸ by decide) hb []
    rw [List.append_nil, ht] at hdec
    rw [boundValue, hbytes, hdec]
    rfl

/-- A frequency comes back when it is a whole number. -/
theorem narrow_eq_ok {n : Nat} :
    (narrow x = .ok n ∧ (n : ℚ) = x) ↔ n < 2 ^ 64 ∧ x = n := by
  constructor
  · rintro ⟨h, rfl⟩
    rw [narrow] at h
    split_ifs at h with hr
    exact ⟨by exact_mod_cast hr.2, rfl⟩
  · rintro ⟨hn, rfl⟩
    refine ⟨?_, rfl⟩
    have hlow : (-1 : ℚ) < n := lt_of_lt_of_le (by norm_num) (Nat.cast_nonneg n)
    rw [narrow, if_pos ⟨hlow, by exact_mod_cast hn⟩, Int.floor_natCast]
    rfl

/-- What of a bucket the message keeps. -/
structure Bucket.Kept (b : Bucket ℚ) : Prop where
  start : ShortString b.start
  end_  : ShortString b.end_
  cf    : ∃ n, n < 2 ^ 64 ∧ b.cf = (n : ℕ)

/-- A bucket comes back just when its bounds and `cf` do. -/
theorem Bucket.deserialize_serialize :
    (∃ m, b.serialize = .ok m ∧ deserialize m = .ok b) ↔ b.Kept := by
  constructor
  · rintro ⟨m, hser, hdes⟩
    obtain ⟨n, hn, hm⟩ := Exec.bind_eq_ok.mp hser
    obtain rfl := (Except.ok.inj hm).symm
    obtain ⟨v, hv, hdes⟩ := Exec.bind_eq_ok.mp hdes
    obtain ⟨w, hw, hdes⟩ := Exec.bind_eq_ok.mp hdes
    have hb := Except.ok.inj hdes
    obtain rfl : v = b.start := congrArg Bucket.start hb
    obtain rfl : w = b.end_ := congrArg Bucket.end_ hb
    exact ⟨boundValue_boundBytes.mp hv, boundValue_boundBytes.mp hw, n,
      narrow_eq_ok.mp ⟨hn, congrArg Bucket.cf hb⟩⟩
  · rintro ⟨hs, he, n, hn⟩
    obtain ⟨hcf, hcast⟩ := narrow_eq_ok.mpr hn
    refine ⟨⟨boundBytes b.start, boundBytes b.end_, b.count, b.ndv, n⟩, ?_, ?_⟩
    · rw [Bucket.serialize, hcf]
      rfl
    · rw [Bucket.deserialize]
      simp only [boundValue_boundBytes.mpr hs, boundValue_boundBytes.mpr he,
        Exec.bind_ok, hcast]
      rfl

end Bounds

/-! ## The statistic -/

/-- Elements that go one by one to another list and back. -/
theorem exists_forall₂_iff {α β : Type} {R : α → β → Prop} {S : β → α → Prop}
    {as : List α} :
    (∃ bs, List.Forall₂ R as bs ∧ List.Forall₂ S bs as)
      ↔ ∀ a ∈ as, ∃ b, R a b ∧ S b a := by
  induction as with
  | nil => exact ⟨fun _ _ h => absurd h List.not_mem_nil, fun _ => ⟨[], .nil, .nil⟩⟩
  | cons a as ih =>
      rw [List.forall_mem_cons, ← ih]
      constructor
      · rintro ⟨bs, hR, hS⟩
        cases hR with
        | cons hab hR =>
            cases hS with
            | cons hba hS => exact ⟨⟨_, hab, hba⟩, _, hR, hS⟩
      · rintro ⟨⟨b, hab, hba⟩, bs, hR, hS⟩
        exact ⟨b :: bs, .cons hab hR, .cons hba hS⟩

section Statistic

variable {pb : StatisticsCodec} {kv : KvStorage} {dbId tableId columnId : Nat}
  {s : ColumnStatistic}

/-- A statistic comes back just when all its buckets do. -/
theorem ColumnStatistic.deserialize_serialize :
    (∃ m, s.serialize = .ok m ∧ deserialize m = .ok s)
      ↔ ∀ b ∈ s.histogram, b.Kept := by
  have hbuckets : (∃ ms, s.histogram.mapM Bucket.serialize = .ok ms
      ∧ ms.mapM Bucket.deserialize = .ok s.histogram)
        ↔ ∀ b ∈ s.histogram, b.Kept := by
    simp only [Exec.mapM_eq_ok, exists_forall₂_iff, Bucket.deserialize_serialize]
  rw [← hbuckets]
  constructor
  · rintro ⟨m, hser, hdes⟩
    obtain ⟨ms, hms, hm⟩ := Exec.bind_eq_ok.mp hser
    obtain rfl := (Except.ok.inj hm).symm
    obtain ⟨bs, hbs, hs⟩ := Exec.bind_eq_ok.mp hdes
    have heq : bs = s.histogram := congrArg histogram (Except.ok.inj hs)
    exact ⟨ms, hms, heq ▸ hbs⟩
  · rintro ⟨ms, hms, hbs⟩
    refine ⟨_, Exec.bind_eq_ok.mpr ⟨ms, hms, rfl⟩, ?_⟩
    exact Exec.bind_eq_ok.mpr ⟨s.histogram, hbs, rfl⟩

/-- The store and the messages add nothing and lose nothing. -/
theorem survives_iff_message (hkv : kv.Reliable)
    (hpb : ∀ m, s.serialize = .ok m → pb.Carries m) :
    Survives pb kv dbId tableId columnId s
      ↔ ∃ m, s.serialize = .ok m ∧ ColumnStatistic.deserialize m = .ok s := by
  have hdump : ∀ m, s.serialize = .ok m →
      dumpColumnStatistic pb kv dbId tableId columnId s = .ok (.ok, kv.written
        (.columnStatistic dbId tableId columnId) (pb.serializeAsString m)) := by
    intro m hm
    rw [dumpColumnStatistic, hm, Exec.bind_ok]
    simp only [KvStorage.putKV_reliable hkv, if_true]
  have hload : ∀ m, s.serialize = .ok m →
      loadColumnStatistic pb (kv.written (.columnStatistic dbId tableId
        columnId) (pb.serializeAsString m)) dbId tableId columnId
      = (do
          let s ← ColumnStatistic.deserialize m
          return (.ok, s, kv.written (.columnStatistic dbId tableId columnId)
            (pb.serializeAsString m))) := by
    intro m hm
    have hget := KvStorage.getKV_of_some (hkv.written (.columnStatistic dbId
      tableId columnId) (pb.serializeAsString m))
      (KvStorage.written_data_self kv _ _)
    simp only [loadColumnStatistic, hget, if_true, show pb.parseFromString
      (pb.serializeAsString m) = m from hpb m hm]
  constructor
  · rintro ⟨kv', kv'', hd, hl⟩
    obtain ⟨m, hm, -⟩ := Exec.bind_eq_ok.mp hd
    obtain rfl : _ = kv' :=
      (Prod.mk.inj (Except.ok.inj ((hdump m hm).symm.trans hd))).2
    rw [hload m hm] at hl
    obtain ⟨s', hs', hret⟩ := Exec.bind_eq_ok.mp hl
    obtain rfl : s' = s := congrArg (fun r : Status × ColumnStatistic
      × KvStorage => r.2.1) (Except.ok.inj hret)
    exact ⟨m, hm, hs'⟩
  · rintro ⟨m, hm, hs⟩
    have hl := hload m hm
    rw [hs, Exec.bind_ok] at hl
    exact ⟨_, _, hdump m hm, hl⟩

/-- A statistic comes back from the store exactly when all its bounds are
    strings and all its frequencies whole numbers. -/
theorem survives_iff (hkv : kv.Reliable)
    (hpb : ∀ m, s.serialize = .ok m → pb.Carries m) :
    Survives pb kv dbId tableId columnId s
      ↔ ∀ b ∈ s.histogram, ShortString b.start ∧ ShortString b.end_
        ∧ ∃ n : ℕ, n < 2 ^ 64 ∧ b.cf = n := by
  rw [survives_iff_message hkv hpb, ColumnStatistic.deserialize_serialize]
  refine forall₂_congr (fun b _ => ⟨?_, ?_⟩)
  · rintro ⟨hs, he, hcf⟩
    exact ⟨hs, he, hcf⟩
  · rintro ⟨hs, he, hcf⟩
    exact ⟨hs, he, hcf⟩

end Statistic

/-! ## The wire format of the messages -/

open WireFormat

def bucketMessage : Message BucketProto where
  fields m := bytesField 1 m.start ++ (bytesField 2 m.end_
    ++ (numField 3 m.count ++ (numField 4 m.ndv ++ numField 5 m.cf)))
  ofFields fs := some ⟨getBytes 1 fs, getBytes 2 fs, getNum 3 fs, getNum 4 fs,
    getNum 5 fs⟩
  round_trip m := by simp [getBytes, getNum]

def columnStatisticsMessage : Message ColumnStatisticsProto where
  fields m := numField 1 m.dbId ++ (numField 2 m.tableId
    ++ (numField 3 m.columnId ++ (bytesField 4 m.min ++ (bytesField 5 m.max
    ++ (numField 7 m.count ++ (numField 8 m.size ++ (numField 9 m.ndv
    ++ (numField 10 m.createTs ++ (numField 11 m.updateTs
    ++ (m.histogram.map bucketMessage.encode).map (⟨12, .bytes ·⟩))))))))))
  ofFields fs := do
    let histogram ← (strings 12 fs).mapM bucketMessage.decode
    return ⟨getNum 1 fs, getNum 2 fs, getNum 3 fs, getBytes 4 fs,
      getBytes 5 fs, getNum 7 fs, getNum 8 fs, getNum 9 fs, getNum 10 fs,
      getNum 11 fs, histogram⟩
  round_trip m := by
    have hne : ∀ {i : Nat} (l : List (List (Fin 256))), 12 ≠ i →
        strings i (l.map (fun s => ⟨12, .bytes s⟩)) = [] := by
      intro i l h
      simp [strings, h]
    simp only [strings_append, strings_numField, strings_bytesField_ne,
      strings_map_bytes_self, ne_eq, Nat.reduceEqDiff, not_false_eq_true,
      List.nil_append, Message.mapM_decode_encode]
    simp [getBytes, getNum, hne, -List.map_map]

/-- The wire format.  A string that does not parse leaves an empty message. -/
def StatisticsCodec.wire : StatisticsCodec where
  serializeAsString := columnStatisticsMessage.encode
  parseFromString s := (columnStatisticsMessage.decode s).getD
    ⟨0, 0, 0, [], [], 0, 0, 0, 0, 0, []⟩

/-- The wire format carries every message. -/
theorem StatisticsCodec.carries_wire (m : ColumnStatisticsProto) :
    wire.Carries m := by
  show (columnStatisticsMessage.decode (columnStatisticsMessage.encode m)).getD
    _ = m
  rw [columnStatisticsMessage.decode_encode]
  rfl

/-- One bucket with these bounds. -/
def oneBucket (v : ExprValue) (cf : ℚ) : ColumnStatistic where
  dbId := 1
  tableId := 1
  columnId := 1
  histogram := [⟨v, v, 1, 1, cf⟩]

/-- A bucket of one string. -/
theorem survives_iff_string :
    Survives .wire .empty 1 1 1 (oneBucket (.string [97]) 1)
      ↔ ∀ b ∈ (oneBucket (.string [97]) 1).histogram, ShortString b.start
        ∧ ShortString b.end_ ∧ ∃ n : ℕ, n < 2 ^ 64 ∧ b.cf = n :=
  survives_iff KvStorage.reliable_empty
    (fun m _ => StatisticsCodec.carries_wire m)

/-- The bucket of a number comes back with empty strings for bounds, and the
    half of the rows as none of them. -/
theorem bounds_and_fractions_are_lost :
    ¬ Survives .wire .empty 1 1 1 (oneBucket (.int64 7) 1)
      ∧ ¬ Survives .wire .empty 1 1 1 (oneBucket (.string [97]) (1 / 2)) := by
  have hsurvives : ∀ v cf, Survives .wire .empty 1 1 1 (oneBucket v cf)
      → Bucket.Kept ⟨v, v, 1, 1, cf⟩ := by
    intro v cf h
    rw [survives_iff_message KvStorage.reliable_empty
      (fun m _ => StatisticsCodec.carries_wire m),
      ColumnStatistic.deserialize_serialize] at h
    exact h _ (List.mem_singleton_self _)
  constructor
  · intro h
    have hstart := (hsurvives _ _ h).start
    exact absurd hstart (by decide)
  · intro h
    obtain ⟨n, -, hn⟩ := (hsurvives _ _ h).cf
    have htwo : (1 : ℚ) = (2 * n : ℕ) := by
      rw [Nat.cast_mul, ← hn]
      norm_num
    have := Nat.cast_injective (R := ℚ) (Nat.cast_one.trans htwo)
    omega

end AmDb.Stat
