import Mathlib.Algebra.Order.Group.Abs
import Mathlib.Algebra.Order.Group.Defs
import Mathlib.Order.Monotone.Basic

/-! # The nearest value of a rising sequence

    A search for the position at which a monotone sequence comes closest to a
    target.  A searcher that sees one value ahead finds it: the distances fall
    as long as it goes on, and rise from where it stops. -/

namespace NearestCut

variable {α : Type} [AddCommGroup α] [LinearOrder α]

/-- The last position from `first` on and below `n` at which `c` is nearest to
    `t`. -/
structure LastNearest (c : Nat → α) (t : α) (first n last : Nat) : Prop where
  first_le : first ≤ last
  lt       : last < n
  nearest  : ∀ p, first ≤ p → p < n → |t - c last| ≤ |t - c p|
  later    : ∀ p, last < p → p < n → |t - c last| < |t - c p|

/-- No position from `first` up to `k` is nearer than `k`. -/
def Nearing (c : Nat → α) (t : α) (first k : Nat) : Prop :=
  ∀ p, first ≤ p → p < k → |t - c k| ≤ |t - c p|

/-- The test of the searcher at `k`, on the value ahead. -/
def GoesOn (c : Nat → α) (t : α) (k : Nat) : Prop :=
  c (k + 1) ≤ t ∨ |t - c (k + 1)| ≤ |t - c k|

variable {c : Nat → α} {t : α} {first k n : Nat}

theorem nearing_self (first : Nat) : Nearing c t first first :=
  fun _ hp hlt => absurd hlt (Nat.not_lt.mpr hp)

variable [IsOrderedAddMonoid α]

/-- Up to the target a later value is nearer. -/
theorem abs_sub_le_of_le {a b : α} (hab : a ≤ b) (hb : b ≤ t) :
    |t - b| ≤ |t - a| := by
  rw [abs_of_nonneg (sub_nonneg.mpr hb),
    abs_of_nonneg (sub_nonneg.mpr (hab.trans hb))]
  exact sub_le_sub_left hab t

/-- Past the target a later value is farther. -/
theorem abs_sub_le_of_ge {a b : α} (ha : t ≤ a) (hab : a ≤ b) :
    |t - a| ≤ |t - b| := by
  rw [abs_sub_comm t a, abs_sub_comm t b,
    abs_of_nonneg (sub_nonneg.mpr ha),
    abs_of_nonneg (sub_nonneg.mpr (ha.trans hab))]
  exact sub_le_sub_right hab t

/-- Going on, the searcher comes nearer. -/
theorem Nearing.next (hc : Monotone c) (h : Nearing c t first k)
    (hgo : GoesOn c t k) : Nearing c t first (k + 1) := by
  have hstep : |t - c (k + 1)| ≤ |t - c k| := by
    rcases hgo with hle | hle
    · exact abs_sub_le_of_le (hc (Nat.le_succ k)) hle
    · exact hle
  intro p hp hlt
  rcases Nat.lt_succ_iff_lt_or_eq.mp hlt with hlt | rfl
  · exact hstep.trans (h p hp hlt)
  · exact hstep

/-- It stops at the last nearest position: where its test fails, or where the
    sequence ends. -/
theorem Nearing.lastNearest (hc : Monotone c) (h : Nearing c t first k)
    (hfirst : first ≤ k) (hk : k < n) (hstop : k + 1 < n → ¬ GoesOn c t k) :
    LastNearest c t first n k := by
  have hlater : ∀ p, k < p → p < n → |t - c k| < |t - c p| := by
    intro p hkp hpn
    obtain ⟨hlt, hfar⟩ := not_or.mp (hstop (lt_of_le_of_lt hkp hpn))
    exact (not_le.mp hfar).trans_le
      (abs_sub_le_of_ge (not_le.mp hlt).le (hc hkp))
  refine ⟨hfirst, hk, fun p hp hpn => ?_, hlater⟩
  rcases Nat.lt_trichotomy p k with hlt | rfl | hlt
  · exact h p hp hlt
  · exact le_rfl
  · exact (hlater p hlt hpn).le

end NearestCut
