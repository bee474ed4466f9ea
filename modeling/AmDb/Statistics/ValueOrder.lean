import AmDb.Statistics.Histogram
import Mathlib.Order.RelIso.Set

/-! # The order of a value map

    `ExprValueLess` with `ExprValueCmp` on the values of one column, as the
    comparator of the `std::map` that `BuildHistogram` takes.  Null is neither
    less than any value nor greater: a map cannot tell it from the others. -/

namespace AmDb.Stat

open Codec AmDb.Expr

/-- `ExprValueLess(ExprValueCmp)`. -/
def exprValueLess (v w : ExprValue) : Prop := exprValueCmp v w = .lt

/-- The comparator on the values of a set: the laws a `std::map` asks for, and
    no two values that a map takes for one key. -/
structure Orders (S : Set ExprValue) : Prop where
  weak  : IsStrictWeakOrder S (Subrel exprValueLess (· ∈ S))
  apart : ∀ v ∈ S, ∀ w ∈ S, v ≠ w → exprValueLess v w ∨ exprValueLess w v

section Column

variable {S : Set ExprValue} {t : ExprValueType} {v w : ExprValue}

theorem not_null_less (w : ExprValue) : ¬ exprValueLess .null w := by
  cases w <;> exact CmpOpt.noConfusion

theorem not_less_null (v : ExprValue) : ¬ exprValueLess v .null := by
  cases v <;> exact CmpOpt.noConfusion

/-- In one type the sort key tells the values apart. -/
theorem sortKey_injective (ht : v.type = w.type) (hk : v.type ∈ codecTypes)
    (h : sortKey v = sortKey w) : v = w := by
  revert h
  refine codecType_cases (motive := fun v w => sortKey v = sortKey w → v = w)
    ?int8 ?uint8 ?int32 ?uint32 ?int64 ?uint64 ?string ht hk
  case string =>
    intro s t h
    exact congrArg ExprValue.string (congrArg (fun k => (ofLex k).2) h)
  case int8 | int32 | int64 =>
    intro a b h
    rw [BitVec.toInt_inj.mp (congrArg (fun k => (ofLex k).1) h)]
  all_goals
    intro a b h
    rw [BitVec.toNat_inj.mp
      (Int.ofNat_inj.mp (congrArg (fun k => (ofLex k).1) h))]

/-- Without null the comparator is the order of the sort keys. -/
theorem orders_of_type (hk : t ∈ codecTypes) (hS : ∀ v ∈ S, v.type = t) :
    Orders S := by
  have hlt : ∀ v w : S, Subrel exprValueLess (· ∈ S) v w
      ↔ sortKey v.1 < sortKey w.1 := by
    intro v w
    have htv := hS v.1 v.2
    exact exprValueCmp_eq_lt (htv.trans (hS w.1 w.2).symm) (htv ▸ hk)
  constructor
  · refine { irrefl := ?_, trans := ?_, incomp_trans := ?_ }
    · intro v
      rw [hlt]
      exact lt_irrefl _
    · intro u v w huv hvw
      rw [hlt] at huv hvw ⊢
      exact lt_trans huv hvw
    · intro u v w huv hvw
      simp only [hlt, not_lt] at huv hvw ⊢
      exact ⟨le_trans hvw.1 huv.1, le_trans huv.2 hvw.2⟩
  · intro v hv w hw hne
    have htv := hS v hv
    have hkey : sortKey v ≠ sortKey w := fun h => hne
      (sortKey_injective (htv.trans (hS w hw).symm) (htv ▸ hk) h)
    rcases lt_or_gt_of_ne hkey with h | h
    · exact Or.inl ((hlt ⟨v, hv⟩ ⟨w, hw⟩).mpr h)
    · exact Or.inr ((hlt ⟨w, hw⟩ ⟨v, hv⟩).mpr h)

/-- The laws alone: with null among them, at most one value beside it. -/
theorem isStrictWeakOrder_iff (hk : t ∈ codecTypes)
    (hS : ∀ v ∈ S, v = .null ∨ v.type = t) :
    IsStrictWeakOrder S (Subrel exprValueLess (· ∈ S))
      ↔ (.null ∈ S → ∀ v ∈ S, ∀ w ∈ S, v ≠ .null → w ≠ .null → v = w) := by
  have hsome : ∀ v ∈ S, v ≠ .null → v.type = t := fun v hv hne =>
    (hS v hv).resolve_left hne
  constructor
  · -- null lies between any two values, and neither is less
    intro hw hnull v hv w hw' hvn hwn
    have hvw := hw.incomp_trans ⟨v, hv⟩ ⟨.null, hnull⟩ ⟨w, hw'⟩
      ⟨not_less_null v, not_null_less v⟩ ⟨not_null_less w, not_less_null w⟩
    have hpair : Orders ({v, w} : Set ExprValue) := by
      refine orders_of_type hk ?_
      rintro x (rfl | rfl)
      · exact hsome _ hv hvn
      · exact hsome _ hw' hwn
    by_contra hne
    rcases hpair.apart v (by simp) w (by simp) hne with h | h
    · exact hvw.1 h
    · exact hvw.2 h
  · intro h
    by_cases hnull : ExprValue.null ∈ S
    · -- then no value is less than another
      have hno : ∀ v w : S, ¬ Subrel exprValueLess (· ∈ S) v w := by
        rintro ⟨v, hv⟩ ⟨w, hw⟩ hlt
        have hvn : v ≠ .null := by
          rintro rfl
          exact not_null_less w hlt
        have hwn : w ≠ .null := by
          rintro rfl
          exact not_less_null v hlt
        obtain rfl := h hnull v hv w hw hvn hwn
        have hself : Orders ({v} : Set ExprValue) := by
          refine orders_of_type hk ?_
          rintro x rfl
          exact hsome _ hv hvn
        exact hself.weak.irrefl ⟨v, rfl⟩ hlt
      refine { irrefl := fun v => hno v v, trans := ?_, incomp_trans := ?_ }
      · exact fun u v w huv _ => absurd huv (hno u v)
      · exact fun u v w _ _ => ⟨hno u w, hno w u⟩
    · refine (orders_of_type hk (fun v hv => hsome v hv ?_)).weak
      rintro rfl
      exact hnull hv

/-- A value map keeps the values of a nullable column apart exactly when null
    is not among them, or alone. -/
theorem orders_iff (hk : t ∈ codecTypes)
    (hS : ∀ v ∈ S, v = .null ∨ v.type = t) :
    Orders S ↔ (.null ∈ S → ∀ v ∈ S, v = .null) := by
  constructor
  · intro h hnull v hv
    by_contra hne
    rcases h.apart v hv .null hnull hne with hlt | hlt
    · exact not_less_null v hlt
    · exact not_null_less v hlt
  · intro h
    refine ⟨(isStrictWeakOrder_iff hk hS).mpr ?_, ?_⟩
    · intro hnull v hv w hw hvn _
      exact absurd (h hnull v hv) hvn
    · intro v hv w hw hne
      have hnull : ExprValue.null ∉ S := fun hn =>
        hne ((h hn v hv).trans (h hn w hw).symm)
      refine (orders_of_type hk (fun x hx => (hS x hx).resolve_left ?_)).apart
        v hv w hw hne
      rintro rfl
      exact hnull hx

/-- Two numbers are ordered. -/
theorem orders_iff_counts :
    Orders {.int64 1, .int64 2}
      ↔ (.null ∈ ({.int64 1, .int64 2} : Set ExprValue) →
        ∀ v ∈ ({.int64 1, .int64 2} : Set ExprValue), v = .null) := by
  refine @orders_iff _ .int64 (by decide) ?_
  rintro v (rfl | rfl)
  · exact Or.inr rfl
  · exact Or.inr rfl

/-- 1 and 2 are both taken for null, but not for each other. -/
theorem null_is_no_key : ¬ Orders {.null, .int64 1, .int64 2} := by
  intro h
  have hvw := h.weak.incomp_trans ⟨.int64 1, by simp⟩ ⟨.null, by simp⟩
    ⟨.int64 2, by simp⟩ ⟨not_less_null _, not_null_less _⟩
    ⟨not_null_less _, not_less_null _⟩
  have hlt : exprValueLess (.int64 1) (.int64 2) := by
    show exprValueCmp _ _ = .lt
    decide
  exact hvw.1 hlt

end Column

end AmDb.Stat
