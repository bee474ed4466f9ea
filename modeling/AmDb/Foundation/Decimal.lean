import Mathlib.Data.Fin.Basic
import Mathlib.Data.List.TakeWhile
import Mathlib.Data.Nat.Basic
import Mathlib.Algebra.Order.Ring.Nat

/-! # Decimal numbers in bytes

    What `std::to_string` writes and `std::stoll` reads: the digits of a
    number, highest first, behind a sign when it is negative.  Writing is
    injective and reading undoes it. -/

namespace Decimal

/-- The byte of a digit. -/
def digit (d : Nat) : Fin 256 := Fin.ofNat 256 (48 + d)

/-- The digits of a number; the first argument bounds them. -/
def digits : Nat → Nat → List (Fin 256)
  | 0, n => [digit n]
  | fuel + 1, n =>
      if n < 10 then [digit n] else digits fuel (n / 10) ++ [digit (n % 10)]

/-- The digits of a number. -/
def ofNat (n : Nat) : List (Fin 256) := digits n n

/-- A number with its sign. -/
def ofInt : Int → List (Fin 256)
  | .ofNat n => ofNat n
  | .negSucc n => 45 :: ofNat (n + 1)

/-- The number a digit string stands for. -/
def toNat (s : List (Fin 256)) : Nat :=
  s.foldl (fun n b => 10 * n + (b.val - 48)) 0

def isDigit (b : Fin 256) : Bool := 48 ≤ b.val ∧ b.val < 58

/-- White space as `isspace` has it. -/
def isSpace (b : Fin 256) : Bool := b.val = 32 ∨ (9 ≤ b.val ∧ b.val < 14)

/-- The digits in front of a string; none when there is no digit. -/
def readNat (s : List (Fin 256)) : Option Nat :=
  match s.takeWhile isDigit with
  | [] => none
  | ds => some (toNat ds)

/-- A number behind white space and an optional sign. -/
def readInt (s : List (Fin 256)) : Option Int :=
  match s.dropWhile isSpace with
  | [] => none
  | b :: r =>
      if b.val = 45 then (readNat r).map (fun n => - (n : Int))
      else if b.val = 43 then (readNat r).map (fun n => (n : Int))
      else (readNat (b :: r)).map (fun n => (n : Int))

theorem val_digit {d : Nat} (h : d < 10) : (digit d).val = 48 + d :=
  Nat.mod_eq_of_lt (by omega)

theorem isDigit_digit {d : Nat} (h : d < 10) : isDigit (digit d) = true := by
  simp only [isDigit, val_digit h, decide_eq_true_eq]
  omega

theorem toNat_append_digit (s : List (Fin 256)) {d : Nat} (h : d < 10) :
    toNat (s ++ [digit d]) = 10 * toNat s + d := by
  rw [toNat, List.foldl_append, List.foldl_cons, List.foldl_nil, val_digit h,
    Nat.add_sub_cancel_left, toNat]

/-- The digits of a number are read as the number. -/
theorem toNat_digits {fuel n : Nat} (h : n ≤ fuel) :
    toNat (digits fuel n) = n := by
  have hsmall : ∀ m, m < 10 → toNat [digit m] = m := by
    intro m hm
    simpa [toNat] using toNat_append_digit [] hm
  induction fuel generalizing n with
  | zero => exact hsmall n (by omega)
  | succ fuel ih =>
      rw [digits]
      split_ifs with hn
      · exact hsmall n hn
      · rw [toNat_append_digit _ (Nat.mod_lt n (by omega)), ih (by omega)]
        omega

/-- Reading undoes writing. -/
@[simp] theorem toNat_ofNat (n : Nat) : toNat (ofNat n) = n :=
  toNat_digits (Nat.le_refl n)

theorem ofNat_injective {m n : Nat} (h : ofNat m = ofNat n) : m = n := by
  rw [← toNat_ofNat m, h, toNat_ofNat]

/-- The digits of a number are digits. -/
theorem isDigit_of_mem_digits {fuel n : Nat} (h : n ≤ fuel) {b : Fin 256}
    (hb : b ∈ digits fuel n) : isDigit b = true := by
  induction fuel generalizing n with
  | zero =>
      rw [digits, List.mem_singleton] at hb
      rw [hb]
      exact isDigit_digit (by omega)
  | succ fuel ih =>
      rw [digits] at hb
      split_ifs at hb with hn
      · rw [List.mem_singleton] at hb
        rw [hb]
        exact isDigit_digit hn
      · rw [List.mem_append, List.mem_singleton] at hb
        rcases hb with hb | rfl
        · exact ih (by omega) hb
        · exact isDigit_digit (Nat.mod_lt n (by omega))

theorem isDigit_of_mem {n : Nat} {b : Fin 256} (hb : b ∈ ofNat n) :
    isDigit b = true :=
  isDigit_of_mem_digits (Nat.le_refl n) hb

/-- A number is written with one digit at least. -/
theorem ofNat_ne_nil (n : Nat) : ofNat n ≠ [] := by
  rw [ofNat]
  cases n with
  | zero => exact List.cons_ne_nil _ _
  | succ n =>
      rw [digits]
      split_ifs <;> simp

/-- A number below a power of ten has no more digits than the exponent. -/
theorem length_digits_le {fuel n k : Nat} (hn : n < 10 ^ (k + 1)) :
    (digits fuel n).length ≤ k + 1 := by
  induction fuel generalizing n k with
  | zero => exact Nat.succ_le_succ (Nat.zero_le k)
  | succ fuel ih =>
      rw [digits]
      split_ifs with h
      · exact Nat.succ_le_succ (Nat.zero_le k)
      · cases k with
        | zero => omega
        | succ k =>
            have hdiv : n / 10 < 10 ^ (k + 1) := by
              rw [Nat.pow_succ] at hn
              exact Nat.div_lt_of_lt_mul (by rwa [Nat.mul_comm])
            have := ih hdiv
            rw [List.length_append, List.length_singleton]
            omega

/-- A number has no more digits than its bound. -/
theorem length_ofNat_le {n k : Nat} (hn : n < 10 ^ (k + 1)) :
    (ofNat n).length ≤ k + 1 :=
  length_digits_le hn

/-- No digit is a sign. -/
theorem ofInt_injective {a b : Int} (h : ofInt a = ofInt b) : a = b := by
  have hsign : ∀ {m n : Nat}, ofNat m ≠ 45 :: ofNat n := by
    intro m n h
    have := isDigit_of_mem (n := m) (h ▸ List.mem_cons_self)
    exact absurd this (by decide)
  cases a with
  | ofNat m =>
      cases b with
      | ofNat n => rw [ofNat_injective h]
      | negSucc n => exact absurd h hsign
  | negSucc m =>
      cases b with
      | ofNat n => exact absurd h.symm hsign
      | negSucc n =>
          have := ofNat_injective (List.cons.inj h).2
          rw [Nat.succ.inj this]

/-- An integer has one character more at most, for its sign. -/
theorem length_ofInt_le {a : Int} {k : Nat} (h : a.natAbs < 10 ^ (k + 1)) :
    (ofInt a).length ≤ k + 2 := by
  cases a with
  | ofNat n => exact Nat.le_succ_of_le (length_ofNat_le h)
  | negSucc n => exact Nat.succ_le_succ (length_ofNat_le h)

/-- What `ofNat` wrote is read back. -/
theorem readInt_ofNat (n : Nat) : readInt (ofNat n) = some (n : Int) := by
  obtain ⟨b, r, hbr⟩ := List.exists_cons_of_ne_nil (ofNat_ne_nil n)
  have hb : isDigit b = true :=
    isDigit_of_mem (n := n) (hbr ▸ List.mem_cons_self)
  have hval : 48 ≤ b.val ∧ b.val < 58 := by simpa [isDigit] using hb
  have hspace : isSpace b = false := by
    simp only [isSpace, decide_eq_false_iff_not]
    omega
  have hall : (b :: r).takeWhile isDigit = b :: r :=
    List.takeWhile_eq_self_iff.mpr
      (fun c hc => isDigit_of_mem (n := n) (hbr ▸ hc))
  have hnum : toNat (b :: r) = n := by rw [← hbr, toNat_ofNat]
  rw [readInt, hbr, List.dropWhile_cons_of_neg (by simp [hspace])]
  simp only
  rw [if_neg (by omega), if_neg (by omega), readNat, hall]
  simp [hnum]

end Decimal
