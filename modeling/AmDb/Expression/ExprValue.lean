import AmDb.Foundation.Decimal
import AmDb.Schema.Schema

/-! # Values

    `expr_value_type.h`, `expr_value.cc` and `expr_cmp.h` of `sql/expression`.
    A value is its type and the bits of the union `u`, or its string.  The
    floating-point types are left out: no codec of the repository writes one. -/

namespace AmDb.Expr

open Schema

/-- `expr::ExprValueType`. -/
inductive ExprValueType where
  | null | minInf | bool | int8 | uint8 | int32 | uint32 | int64 | uint64
  | string | maxInf | invalid
  deriving DecidableEq, Repr

/-- The enumerators' numbers. -/
def ExprValueType.val : ExprValueType → Nat
  | .null => 0
  | .minInf => 2
  | .bool => 10
  | .int8 => 11
  | .uint8 => 12
  | .int32 => 15
  | .uint32 => 16
  | .int64 => 17
  | .uint64 => 18
  | .string => 40
  | .maxInf => 250
  | .invalid => 255

theorem ExprValueType.val_injective {t u : ExprValueType}
    (h : t.val = u.val) : t = u := by
  revert h
  cases t <;> cases u <;> decide

theorem ExprValueType.val_lt (t : ExprValueType) : t.val < 256 := by
  cases t <;> decide

/-- The cast from a stored byte. -/
def ExprValueType.ofVal : Nat → ExprValueType
  | 0 => .null
  | 2 => .minInf
  | 10 => .bool
  | 11 => .int8
  | 12 => .uint8
  | 15 => .int32
  | 16 => .uint32
  | 17 => .int64
  | 18 => .uint64
  | 40 => .string
  | 250 => .maxInf
  | _ => .invalid

@[simp] theorem ExprValueType.ofVal_val (t : ExprValueType) :
    ofVal t.val = t := by
  cases t <;> rfl

/-- `TypeSize`: a string takes an address and a length in a tuple. -/
def typeSize : ExprValueType → Nat
  | .int8 => 1
  | .uint8 => 1
  | .int32 => 4
  | .uint32 => 4
  | .int64 => 8
  | .uint64 => 8
  | .string => 12
  | _ => 255

/-- `ToExprType`. -/
def toExprType : MysqlType → ExprValueType
  | .short => .int32
  | .long => .int64
  | .longlong => .int64
  | .string => .string
  | .decimal => .int64
  | _ => .null

/-- `expr::ExprValue`.  The types without a payload are those `NewEmpty` and
    `NewNull` make. -/
inductive ExprValue where
  | null | minInf | maxInf | invalid
  | bool (u : BitVec 8)
  | int8 (u : BitVec 8)
  | uint8 (u : BitVec 8)
  | int32 (u : BitVec 32)
  | uint32 (u : BitVec 32)
  | int64 (u : BitVec 64)
  | uint64 (u : BitVec 64)
  | string (s : Bytes)
  deriving DecidableEq

namespace ExprValue

/-- `Type`. -/
def type : ExprValue → ExprValueType
  | null => .null
  | minInf => .minInf
  | maxInf => .maxInf
  | invalid => .invalid
  | bool _ => .bool
  | int8 _ => .int8
  | uint8 _ => .uint8
  | int32 _ => .int32
  | uint32 _ => .uint32
  | int64 _ => .int64
  | uint64 _ => .uint64
  | string _ => .string

/-- `NewEmpty`.  It leaves `u` unset; the decoders overwrite it. -/
def newEmpty : ExprValueType → ExprValue
  | .null => null
  | .minInf => minInf
  | .maxInf => maxInf
  | .invalid => invalid
  | .bool => bool 0
  | .int8 => int8 0
  | .uint8 => uint8 0
  | .int32 => int32 0
  | .uint32 => uint32 0
  | .int64 => int64 0
  | .uint64 => uint64 0
  | .string => string []

@[simp] theorem newEmpty_type (t : ExprValueType) : (newEmpty t).type = t := by
  cases t <;> rfl

/-- A value of the type `String` is a string. -/
theorem exists_string {v : ExprValue} (h : v.type = .string) :
    ∃ s, v = .string s := by
  cases v with
  | string s => exact ⟨s, rfl⟩
  | _ => cases h

/-- `ToString`: the types without a case give the empty string. -/
def toString : ExprValue → Bytes
  | int8 u => Decimal.ofInt u.toInt
  | uint8 u => Decimal.ofNat u.toNat
  | int32 u => Decimal.ofInt u.toInt
  | uint32 u => Decimal.ofNat u.toNat
  | int64 u => Decimal.ofInt u.toInt
  | uint64 u => Decimal.ofNat u.toNat
  | string s => s
  | _ => []

/-- `NewMax`. -/
def newMax : ExprValueType → ExprValue
  | .bool => uint8 (BitVec.allOnes 8)
  | .uint8 => uint8 (BitVec.allOnes 8)
  | .int8 => int8 (BitVec.intMax 8)
  | .uint32 => uint32 (BitVec.allOnes 32)
  | .int32 => int32 (BitVec.intMax 32)
  | .uint64 => uint64 (BitVec.allOnes 64)
  | .int64 => int64 (BitVec.intMax 64)
  | .string => string []
  | .null => null
  | .minInf => minInf
  | .maxInf => maxInf
  | .invalid => invalid

/-- `NewMin`: the minimum of `Int64` is 0. -/
def newMin : ExprValueType → ExprValue
  | .bool => uint8 0
  | .uint8 => uint8 0
  | .int8 => int8 (BitVec.intMin 8)
  | .uint32 => uint32 0
  | .int32 => int32 (BitVec.intMin 32)
  | .uint64 => uint64 0
  | .int64 => int64 0
  | .string => string []
  | .null => null
  | .minInf => minInf
  | .maxInf => maxInf
  | .invalid => invalid

end ExprValue

/-! ## Comparison -/

/-- `COMPARE_INT_TYPE` on the operands after the cast to `TYPE`. -/
def compareIntType (lhs rhs : Int) : CmpOpt :=
  if lhs < rhs then .lt else if lhs > rhs then .gt else .eq

/-- `ExprValueCmp`.  The switch has no case for `Null`: two of them compare as
    different. -/
def exprValueCmp : ExprValue → ExprValue → CmpOpt
  | .bool u, .bool v => compareIntType u.toNat v.toNat
  | .uint8 u, .uint8 v => compareIntType u.toNat v.toNat
  | .int8 u, .int8 v => compareIntType u.toInt v.toInt
  | .uint32 u, .uint32 v => compareIntType u.toNat v.toNat
  | .int32 u, .int32 v => compareIntType u.toInt v.toInt
  | .uint64 u, .uint64 v => compareIntType u.toNat v.toNat
  | .int64 u, .int64 v => compareIntType u.toInt v.toInt
  | .string s, .string t => dataCmp s t
  | .invalid, .invalid => .eq
  | .minInf, .minInf => .eq
  | .maxInf, .maxInf => .eq
  | _, _ => .ne

/-- `ExprValuesCmp`. -/
def exprValuesCmp : List ExprValue → List ExprValue → CmpOpt
  | [], [] => .eq
  | v :: vs, w :: ws =>
      let opt := exprValueCmp v w
      if isCmpNe opt then opt else exprValuesCmp vs ws
  | _ :: _, [] => .lt
  | [], _ :: _ => .gt

/-- The types `EncodeExprValue` writes. -/
def codecTypes : List ExprValueType :=
  [.int8, .uint8, .int32, .uint32, .int64, .uint64, .string]

theorem compareIntType_eq_lt {a b : Int} :
    compareIntType a b = .lt ↔ a < b := by
  unfold compareIntType
  split_ifs <;> simp_all

/-- `CompareIntType` says equal just when it is. -/
theorem compareIntType_eq_eq {a b : Int} :
    compareIntType a b = .eq ↔ a = b := by
  unfold compareIntType
  split_ifs with h₁ h₂
  · simp [ne_of_lt h₁]
  · simp [ne_of_gt h₂]
  · simp [le_antisymm (not_lt.mp h₂) (not_lt.mp h₁)]

theorem dataCmp_eq_lt {s t : Bytes} : dataCmp s t = .lt ↔ s < t := by
  unfold dataCmp
  split_ifs <;> simp_all

theorem dataCmp_eq_eq {s t : Bytes} : dataCmp s t = .eq ↔ s = t := by
  simpa [isCmpEq] using isCmpEq_dataCmp s t

/-- A comparison that can only come out in three ways. -/
def ThreeWay (op : CmpOpt) : Prop := op = .lt ∨ op = .gt ∨ op = .eq

theorem threeWay_compareIntType (a b : Int) :
    ThreeWay (compareIntType a b) := by
  unfold ThreeWay compareIntType
  split_ifs <;> simp

/-- Three-way comparisons agree when they agree on `lt` and `eq`. -/
theorem ThreeWay.eq_iff {x y : CmpOpt} (hx : ThreeWay x) (hy : ThreeWay y) :
    x = y ↔ (x = .lt ↔ y = .lt) ∧ (x = .eq ↔ y = .eq) := by
  rcases hx with rfl | rfl | rfl <;> rcases hy with rfl | rfl | rfl <;> simp

section SameType

variable {v w : ExprValue}

/-- Two values of one encoded type, type by type. -/
theorem codecType_cases {motive : ExprValue → ExprValue → Prop}
    (int8 : ∀ a b, motive (.int8 a) (.int8 b))
    (uint8 : ∀ a b, motive (.uint8 a) (.uint8 b))
    (int32 : ∀ a b, motive (.int32 a) (.int32 b))
    (uint32 : ∀ a b, motive (.uint32 a) (.uint32 b))
    (int64 : ∀ a b, motive (.int64 a) (.int64 b))
    (uint64 : ∀ a b, motive (.uint64 a) (.uint64 b))
    (string : ∀ s t, motive (.string s) (.string t))
    (ht : v.type = w.type) (hk : v.type ∈ codecTypes) : motive v w := by
  cases v with
  | int8 a => cases w <;> first | exact int8 _ _ | cases ht
  | uint8 a => cases w <;> first | exact uint8 _ _ | cases ht
  | int32 a => cases w <;> first | exact int32 _ _ | cases ht
  | uint32 a => cases w <;> first | exact uint32 _ _ | cases ht
  | int64 a => cases w <;> first | exact int64 _ _ | cases ht
  | uint64 a => cases w <;> first | exact uint64 _ _ | cases ht
  | string s => cases w <;> first | exact string _ _ | cases ht
  | null | minInf | maxInf | invalid | bool =>
      simp [ExprValue.type, codecTypes] at hk

/-- Values of one encoded type compare as equal only when they are one. -/
theorem exprValueCmp_eq_eq (ht : v.type = w.type) (hk : v.type ∈ codecTypes) :
    exprValueCmp v w = .eq ↔ v = w := by
  refine codecType_cases (motive := fun v w => exprValueCmp v w = .eq ↔ v = w)
    ?int8 ?uint8 ?int32 ?uint32 ?int64 ?uint64 ?string ht hk
  case string =>
    intro s t
    show dataCmp s t = .eq ↔ _
    rw [dataCmp_eq_eq, ExprValue.string.injEq]
  case int8 | int32 | int64 =>
    intro a b
    show compareIntType a.toInt b.toInt = .eq ↔ _
    simp [compareIntType_eq_eq, BitVec.toInt_inj]
  all_goals
    intro a b
    show compareIntType a.toNat b.toNat = .eq ↔ _
    simp [compareIntType_eq_eq, ← BitVec.toNat_inj]

/-- In one type, values with one rendering are one value. -/
theorem toString_injective (ht : v.type = w.type) (hk : v.type ∈ codecTypes)
    (h : v.toString = w.toString) : v = w := by
  revert h
  refine codecType_cases (motive := fun v w => v.toString = w.toString → v = w)
    ?int8 ?uint8 ?int32 ?uint32 ?int64 ?uint64 ?string ht hk
  case string =>
    intro s t h
    exact congrArg ExprValue.string h
  case int8 | int32 | int64 =>
    intro a b h
    rw [BitVec.toInt_inj.mp (Decimal.ofInt_injective h)]
  all_goals
    intro a b h
    rw [BitVec.toNat_inj.mp (Decimal.ofNat_injective h)]

end SameType

/-- A string is shorter than `2^32` bytes. -/
def ExprValue.Bounded : ExprValue → Prop
  | .string s => s.length < 2 ^ 32
  | _ => True

instance : DecidablePred ExprValue.Bounded
  | .string s => inferInstanceAs (Decidable (s.length < 2 ^ 32))
  | .null | .minInf | .maxInf | .invalid | .bool _ | .int8 _ | .uint8 _
  | .int32 _ | .uint32 _ | .int64 _ | .uint64 _ => isTrue trivial

/-- A rendering is shorter than `2^32` bytes. -/
theorem length_toString_lt {v : ExprValue} (hv : v.Bounded) :
    v.toString.length < 2 ^ 32 := by
  have hint : ∀ {w : Nat} (u : BitVec w), w ≤ 64 →
      (Decimal.ofInt u.toInt).length < 2 ^ 32 := by
    intro w u hw
    have hu : u.toInt.natAbs < 10 ^ (19 + 1) := by
      have h₁ := BitVec.toInt_lt (x := u)
      have h₂ := BitVec.le_toInt (x := u)
      have hp : (2 : Nat) ^ (w - 1) ≤ 2 ^ 63 :=
        Nat.pow_le_pow_right (by decide) (by omega)
      have hp' : (2 : Int) ^ (w - 1) ≤ 2 ^ 63 := by exact_mod_cast hp
      omega
    have := Decimal.length_ofInt_le hu
    omega
  have hnat : ∀ {w : Nat} (u : BitVec w), w ≤ 64 →
      (Decimal.ofNat u.toNat).length < 2 ^ 32 := by
    intro w u hw
    have hu : u.toNat < 10 ^ (19 + 1) := by
      have h₁ := u.isLt
      have hp : (2 : Nat) ^ w ≤ 2 ^ 64 :=
        Nat.pow_le_pow_right (by decide) hw
      omega
    have := Decimal.length_ofNat_le hu
    omega
  cases v with
  | string s => exact hv
  | int8 u => exact hint u (by decide)
  | int32 u => exact hint u (by decide)
  | int64 u => exact hint u (by decide)
  | uint8 u => exact hnat u (by decide)
  | uint32 u => exact hnat u (by decide)
  | uint64 u => exact hnat u (by decide)
  | null | minInf | maxInf | invalid | bool => exact Nat.two_pow_pos 32

end AmDb.Expr
