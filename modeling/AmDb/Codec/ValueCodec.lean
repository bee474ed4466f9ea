import AmDb.Codec.Codec
import AmDb.Expression.ExprValue

/-! # Encoding of values

    `EncodeExprValue` and `DecodeExprValue` of `sql/codec/codec.cc`.  Behind
    its type byte a value is a delimited code. -/

namespace AmDb.Codec

open PrefixCode AmDb.Expr

/-- `EncodeExprValue`: a type without a case is logged and adds nothing. -/
def encodeExprValue (v : ExprValue) (out : Bytes) : Nat × Bytes :=
  match v with
  | .uint8 u => encodeUInt8 u.toNat out
  | .int8 u => encodeUInt8 u.toNat out
  | .uint32 u => encodeUInt32 u.toNat out
  | .int32 u => encodeUInt32 u.toNat out
  | .uint64 u => encodeUInt64 u.toNat out
  | .int64 u => encodeUInt64 u.toNat out
  | .string s => encodeBytes s out
  | _ => (0, out)

/-- `DecodeExprValue` into an empty value of the given type: bytes consumed
    and value.  `Int8` has no case. -/
def decodeExprValue (type : ExprValueType) (s : Bytes) :
    Exec (Nat × ExprValue) :=
  match type with
  | .uint8 => do
      let tmp ← readData s 1
      let (size, n) ← decodeUInt8 tmp
      return (size, .uint8 (BitVec.ofNat 8 n))
  | .int32 => do
      let tmp ← readData s 4
      let (size, n) ← decodeUInt32 tmp
      return (size, .int32 (BitVec.ofNat 32 n))
  | .uint32 => do
      let tmp ← readData s 4
      let (size, n) ← decodeUInt32 tmp
      return (size, .uint32 (BitVec.ofNat 32 n))
  | .int64 => do
      let tmp ← readData s 8
      let (size, n) ← decodeUInt64 tmp
      return (size, .int64 (BitVec.ofNat 64 n))
  | .uint64 => do
      let tmp ← readData s 8
      let (size, n) ← decodeUInt64 tmp
      return (size, .uint64 (BitVec.ofNat 64 n))
  | .string => do
      let (size, value) ← decodeBytes s []
      return (size, .string value)
  | type => .ok (0, ExprValue.newEmpty type)

/-- The types `DecodeExprValue` reads. -/
def decodeTypes : List ExprValueType :=
  [.uint8, .int32, .uint32, .int64, .uint64, .string]

theorem mem_codecTypes_of_mem_decodeTypes {t : ExprValueType}
    (h : t ∈ decodeTypes) : t ∈ codecTypes :=
  List.mem_cons_of_mem _ h

/-! ## The bytes of a value -/

/-- What `EncodeExprValue` adds. -/
def valueCode : ExprValue → Bytes
  | .uint8 u => bigEndian 1 u.toNat
  | .int8 u => bigEndian 1 u.toNat
  | .uint32 u => bigEndian 4 u.toNat
  | .int32 u => bigEndian 4 u.toNat
  | .uint64 u => bigEndian 8 u.toNat
  | .int64 u => bigEndian 8 u.toNat
  | .string s => lengthPrefixed s
  | _ => []

/-- The type byte and the value. -/
def taggedCode (v : ExprValue) : Bytes :=
  bigEndian 1 v.type.val ++ valueCode v

/-- `EncodeExprValue` appends the value's code. -/
theorem encodeExprValue_snd (v : ExprValue) (out : Bytes) :
    (encodeExprValue v out).2 = out ++ valueCode v := by
  cases v with
  | string s => exact encodeBytes_snd s out
  | null | minInf | maxInf | invalid | bool => exact (List.append_nil out).symm
  | _ => rfl

/-- Both steps of the encoding loops. -/
theorem encodeTagged (v : ExprValue) (out : Bytes) :
    (encodeExprValue v (encodeUInt8 v.type.val out).2).2
      = out ++ taggedCode v := by
  rw [encodeExprValue_snd, encodeUInt8_snd, List.append_assoc, taggedCode]

/-- The values whose code can be read back. -/
def Encodable (v : ExprValue) : Prop := v.type ∈ codecTypes ∧ v.Bounded

private theorem lt_of_bitVec {w k : Nat} (u : BitVec w) (h : 2 ^ w = 256 ^ k) :
    u.toNat < 256 ^ k := by
  rw [← h]
  exact u.isLt

/-- In one type a value's code is delimited. -/
theorem valueCode_append_inj {v w : ExprValue} (ht : v.type = w.type)
    (hv : Encodable v) (hw : Encodable w) {r s : Bytes}
    (h : valueCode v ++ r = valueCode w ++ s) : v = w ∧ r = s := by
  have hnum : ∀ {k k' : Nat} (u u' : BitVec k), 2 ^ k = 256 ^ k' →
      bigEndian k' u.toNat ++ r = bigEndian k' u'.toNat ++ s →
      u = u' ∧ r = s := by
    intro k k' u u' hk heq
    obtain ⟨hu, hrs⟩ := delimited_bigEndian k' _ _ (lt_of_bitVec u hk)
      (lt_of_bitVec u' hk) _ _ heq
    exact ⟨BitVec.toNat_inj.mp hu, hrs⟩
  have hk := hv.1
  revert h hv hw
  refine codecType_cases (motive := fun v w => Encodable v → Encodable w →
    valueCode v ++ r = valueCode w ++ s → v = w ∧ r = s)
    ?int8 ?uint8 ?int32 ?uint32 ?int64 ?uint64 ?string ht hk
  case string =>
    intro a b ha hb h
    obtain ⟨rfl, hrs⟩ := delimited_lengthPrefixed a b
      (lt_of_lt_of_eq ha.2 (by decide)) (lt_of_lt_of_eq hb.2 (by decide)) _ _ h
    exact ⟨rfl, hrs⟩
  all_goals
    intro a b _ _ h
    obtain ⟨rfl, hrs⟩ := hnum a b (by decide) h
    exact ⟨rfl, hrs⟩

/-- The type byte tells the types apart. -/
theorem delimited_taggedCode : Delimited Encodable taggedCode := by
  intro v w hv hw r s h
  rw [taggedCode, taggedCode, List.append_assoc, List.append_assoc] at h
  obtain ⟨ht, h'⟩ := delimited_bigEndian 1 _ _ v.type.val_lt w.type.val_lt _ _ h
  exact valueCode_append_inj (ExprValueType.val_injective ht) hv hw h'

theorem taggedCode_injective {v w : ExprValue} (hv : Encodable v)
    (hw : Encodable w) : taggedCode v = taggedCode w ↔ v = w :=
  ⟨delimited_taggedCode.injective hv hw, congrArg taggedCode⟩

/-- A type without a case is its type byte and has no rendering. -/
theorem plain_of_not_codec {v : ExprValue} (h : v.type ∉ codecTypes) :
    valueCode v = [] ∧ v.toString = [] := by
  cases v with
  | null | minInf | maxInf | invalid | bool => exact ⟨rfl, rfl⟩
  | _ => exact absurd (by simp [ExprValue.type, codecTypes]) h

/-- The code of any value is read off in one way only, -/
theorem taggedCode_append_inj {v w : ExprValue} (hv : v.Bounded)
    (hw : w.Bounded) {r s : Bytes}
    (h : taggedCode v ++ r = taggedCode w ++ s) :
    taggedCode v = taggedCode w ∧ r = s := by
  by_cases hk : v.type ∈ codecTypes ∧ w.type ∈ codecTypes
  · obtain ⟨rfl, hrs⟩ := delimited_taggedCode v w ⟨hk.1, hv⟩ ⟨hk.2, hw⟩ r s h
    exact ⟨rfl, hrs⟩
  · rw [taggedCode, taggedCode, List.append_assoc, List.append_assoc] at h
    obtain ⟨ht, h'⟩ :=
      delimited_bigEndian 1 _ _ v.type.val_lt w.type.val_lt _ _ h
    have ht := ExprValueType.val_injective ht
    rw [← ht, and_self] at hk
    rw [(plain_of_not_codec hk).1, (plain_of_not_codec (ht ▸ hk)).1] at h'
    refine ⟨?_, h'⟩
    rw [taggedCode, taggedCode, (plain_of_not_codec hk).1,
      (plain_of_not_codec (ht ▸ hk)).1, ht]

/-- and in one type it says as much as the rendering. -/
theorem taggedCode_eq_iff_toString {v w : ExprValue} (ht : v.type = w.type)
    (hv : v.Bounded) (hw : w.Bounded) :
    taggedCode v = taggedCode w ↔ v.toString = w.toString := by
  by_cases hk : v.type ∈ codecTypes
  · rw [taggedCode_injective ⟨hk, hv⟩ ⟨ht ▸ hk, hw⟩]
    exact ⟨congrArg ExprValue.toString, toString_injective ht hk⟩
  · obtain ⟨hv, hv'⟩ := plain_of_not_codec hk
    obtain ⟨hw, hw'⟩ := plain_of_not_codec (ht ▸ hk)
    rw [taggedCode, taggedCode, hv, hw, hv', hw', ht]
    exact ⟨fun _ => rfl, fun _ => rfl⟩

/-! ## Reading back -/

/-- The bytes a decoder of fixed width looks at. -/
theorem readData_bigEndian (w n : Nat) (r : Bytes) :
    readData (bigEndian w n ++ r) w = .ok (bigEndian w n) := by
  have h := readData_append (bigEndian w n) r
  rwa [length_bigEndian] at h

theorem decodeUInt32_self {n : Nat} (h : n < 2 ^ 32) :
    decodeUInt32 (bigEndian 4 n) = .ok (4, n) := by
  simpa using decodeUInt32_bigEndian h []

/-- A word of eight bytes is read back. -/
theorem decodeUInt64_self {n : Nat} (h : n < 2 ^ 64) :
    decodeUInt64 (bigEndian 8 n) = .ok (8, n) := by
  have hr := readData_bigEndian 8 n []
  rw [List.append_nil] at hr
  rw [decodeUInt64, hr, Exec.bind_ok, ofBigEndian_bigEndian,
    Nat.mod_eq_of_lt (by simpa using h)]
  rfl

theorem decodeUInt8_self {n : Nat} (h : n < 256) :
    decodeUInt8 (bigEndian 1 n) = .ok (1, n) := by
  show Except.ok (1, n / 256 ^ 0 % 256) = _
  rw [Nat.pow_zero, Nat.div_one, Nat.mod_eq_of_lt h]

/-- A string is read back from the front of a longer one. -/
theorem decodeBytes_append {s : Bytes} (h : s.length < 2 ^ 32) (r : Bytes) :
    decodeBytes (lengthPrefixed s ++ r) [] = .ok (s.length + 4, s) := by
  have hd : (lengthPrefixed s ++ r).drop 4 = s ++ r := by
    rw [lengthPrefixed, List.append_assoc,
      List.drop_left' (length_bigEndian 4 _)]
  have hlen : (lengthPrefixed s ++ r).length = 4 + s.length + r.length := by
    simp only [lengthPrefixed, List.length_append, length_bigEndian]
  have hread : decodeUInt32 (lengthPrefixed s ++ r) = .ok (4, s.length) := by
    rw [lengthPrefixed, List.append_assoc]
    exact decodeUInt32_bigEndian h _
  rw [decodeBytes, hread]
  simp only [Exec.bind_ok, Exec.pure_eq]
  rw [if_pos (by omega), hd, List.take_left' rfl, List.nil_append]

/-- Every supported value is read back, and the size reported is what was
    written. -/
theorem decodeExprValue_valueCode {v : ExprValue} (ht : v.type ∈ decodeTypes)
    (hb : v.Bounded) (r : Bytes) :
    decodeExprValue v.type (valueCode v ++ r)
      = .ok ((valueCode v).length, v) := by
  cases v with
  | uint8 u =>
      simp only [ExprValue.type, valueCode, decodeExprValue,
        readData_bigEndian, decodeUInt8_self u.isLt, Exec.bind_ok,
        Exec.pure_eq, length_bigEndian, BitVec.ofNat_toNat, BitVec.setWidth_eq]
  | int32 u | uint32 u =>
      simp only [ExprValue.type, valueCode, decodeExprValue,
        readData_bigEndian, decodeUInt32_self u.isLt, Exec.bind_ok,
        Exec.pure_eq, length_bigEndian, BitVec.ofNat_toNat, BitVec.setWidth_eq]
  | int64 u | uint64 u =>
      simp only [ExprValue.type, valueCode, decodeExprValue,
        readData_bigEndian, decodeUInt64_self u.isLt, Exec.bind_ok,
        Exec.pure_eq, length_bigEndian, BitVec.ofNat_toNat, BitVec.setWidth_eq]
  | string s =>
      simp only [ExprValue.type, valueCode, decodeExprValue]
      rw [decodeBytes_append hb]
      simp [lengthPrefixed, Nat.add_comm]
  | null | minInf | maxInf | invalid | bool | int8 =>
      simp [ExprValue.type, decodeTypes] at ht

/-! ## The sizes reported -/

/-- `DecodeExprValue` over a value that is there: what is read takes its place,
    and a type without a case leaves it alone. -/
def decodeExprValueInto (s : Bytes) (out : ExprValue) :
    Exec (Nat × ExprValue) :=
  if out.type ∈ decodeTypes then decodeExprValue out.type s else .ok (0, out)

/-- `v` written behind `out` is read in front of `rest`, and both sides report
    the bytes in between. -/
def RoundTrips (v target : ExprValue) (out rest : Bytes) : Prop :=
  ∃ e, encodeExprValue v out = (e.length, out ++ e)
    ∧ decodeExprValueInto (e ++ rest) target = .ok (e.length, v)

section Sizes

variable {v target : ExprValue} {out rest : Bytes}

/-- What is added is determined. -/
theorem RoundTrips.iff_valueCode : RoundTrips v target out rest
    ↔ (encodeExprValue v out).1 = (valueCode v).length
      ∧ decodeExprValueInto (valueCode v ++ rest) target
        = .ok ((valueCode v).length, v) := by
  have hsnd := encodeExprValue_snd v out
  constructor
  · rintro ⟨e, henc, hdec⟩
    rw [henc] at hsnd
    obtain rfl : e = valueCode v := List.append_cancel_left hsnd
    exact ⟨congrArg Prod.fst henc, hdec⟩
  · rintro ⟨hfst, hdec⟩
    exact ⟨valueCode v, Prod.ext hfst hsnd, hdec⟩

/-- Only the one-byte types are reported with a size that is not theirs. -/
theorem encodeExprValue_fst (hk : v.type ∈ codecTypes) :
    (encodeExprValue v out).1 = (valueCode v).length
      ↔ v.type ≠ .int8 ∧ v.type ≠ .uint8 := by
  cases v with
  | int8 u =>
      show 32 = (bigEndian 1 u.toNat).length ↔ _
      simp [ExprValue.type]
  | uint8 u =>
      show 32 = (bigEndian 1 u.toNat).length ↔ _
      simp [ExprValue.type]
  | int32 u | uint32 u =>
      show 4 = (bigEndian 4 u.toNat).length ↔ _
      simp [ExprValue.type]
  | int64 u | uint64 u =>
      show 8 = (bigEndian 8 u.toNat).length ↔ _
      simp [ExprValue.type]
  | string s =>
      show s.length + 4 = (lengthPrefixed s).length ↔ _
      simp [ExprValue.type, lengthPrefixed, Nat.add_comm]
  | null | minInf | maxInf | invalid | bool =>
      simp [ExprValue.type, codecTypes] at hk

/-- Encoder and decoder agree on every value but those of one byte: their
    encoder reports the size of a `std::string` object, and `Int8` has no
    decoder. -/
theorem roundTrips_iff (hk : v.type ∈ codecTypes) (hb : v.Bounded)
    (ht : target.type = v.type) :
    RoundTrips v target out rest ↔ v.type ≠ .int8 ∧ v.type ≠ .uint8 := by
  rw [RoundTrips.iff_valueCode, encodeExprValue_fst hk]
  constructor
  · rintro ⟨h, -⟩
    exact h
  · intro h
    have hd : v.type ∈ decodeTypes := by
      rcases List.mem_cons.mp hk with h8 | hd
      · exact absurd h8 h.1
      · exact hd
    refine ⟨h, ?_⟩
    rw [decodeExprValueInto, ht, if_pos hd]
    exact decodeExprValue_valueCode hd hb rest

theorem roundTrips_iff_string :
    RoundTrips (.string [104, 105]) (.string []) [1] [2, 3]
      ↔ ExprValueType.string ≠ .int8 ∧ ExprValueType.string ≠ .uint8 :=
  roundTrips_iff (by decide) (by decide) rfl

/-- One byte is added, thirty-two are reported. -/
theorem uint8_size_is_wrong : ¬ RoundTrips (.uint8 7) (.uint8 0) [] [] := by
  rintro ⟨e, henc, -⟩
  have hlen : 32 = e.length := congrArg Prod.fst henc
  have hcode : [7] = e := congrArg Prod.snd henc
  rw [← hcode] at hlen
  exact absurd hlen (by decide)

end Sizes

end AmDb.Codec
