import AmDb.Codec.ValueCodec

/-! # Ranges of keys

    `plan::IndexRange` over values, `IteratorOptions` over keys, and
    `BaseIterator::AddRange`, which encodes the one as the other. -/

namespace AmDb.Plan

open Codec AmDb.Expr

/-- `IndexRange::RangePointType`. -/
inductive RangePointType where
  | leftClose | leftOpen | rightOpen | rightClose
  deriving DecidableEq, Repr

/-- `IndexRange::RangePoint`. -/
structure RangePoint where
  value : List ExprValue
  type  : RangePointType
  deriving DecidableEq

/-- `IndexRange`.  A caller may set the encoded bounds itself. -/
structure IndexRange where
  lower    : RangePoint
  upper    : RangePoint
  lowerStr : Bytes := []
  upperStr : Bytes := []
  deriving DecidableEq

/-- `IteratorOptions` of `bplus_tree_iterator.h`. -/
structure IteratorOptions where
  lower     : Bytes
  upper     : Bytes
  lowerOpen : Bool
  upperOpen : Bool
  deriving DecidableEq

/-- The loop over the values of a bound; it appends to the output. -/
def encodeValues : List ExprValue → Bytes → Bytes
  | [], output => output
  | v :: vs, output =>
      encodeValues vs (encodeExprValue v (encodeUInt8 v.type.val output).2).2

/-- `AddRange`: what it leaves in the range. -/
def IndexRange.encoded (range : IndexRange) : IndexRange :=
  { range with
    lowerStr := encodeValues range.lower.value range.lowerStr
    upperStr := encodeValues range.upper.value range.upperStr }

/-- `AddRange`: the options it adds. -/
def addRange (range : IndexRange) : IteratorOptions where
  lowerOpen := range.lower.type = .leftOpen
  lower := range.encoded.lowerStr
  upperOpen := range.upper.type = .rightOpen
  upper := range.encoded.upperStr

namespace IteratorOptions

/-- On the right side of the lower bound, as the header's table has it. -/
def AboveLower (opts : IteratorOptions) (key : Bytes) : Prop :=
  if opts.lowerOpen then isCmpGt (dataCmp key opts.lower)
  else isCmpGe (dataCmp key opts.lower)

/-- On the right side of the upper bound. -/
def BelowUpper (opts : IteratorOptions) (key : Bytes) : Prop :=
  if opts.upperOpen then isCmpLt (dataCmp key opts.upper)
  else isCmpLe (dataCmp key opts.upper)

def Contains (opts : IteratorOptions) (key : Bytes) : Prop :=
  opts.AboveLower key ∧ opts.BelowUpper key

instance (opts : IteratorOptions) (key : Bytes) :
    Decidable (opts.AboveLower key) := by
  unfold AboveLower
  infer_instance

instance (opts : IteratorOptions) (key : Bytes) :
    Decidable (opts.BelowUpper key) := by
  unfold BelowUpper
  infer_instance

instance (opts : IteratorOptions) (key : Bytes) :
    Decidable (opts.Contains key) :=
  inferInstanceAs (Decidable (_ ∧ _))

end IteratorOptions

@[simp] theorem encodeValues_singleton (v : ExprValue) :
    encodeValues [v] [] = taggedCode v := by
  show (encodeExprValue v (encodeUInt8 v.type.val []).2).2 = _
  rw [encodeTagged, List.nil_append]

end AmDb.Plan
