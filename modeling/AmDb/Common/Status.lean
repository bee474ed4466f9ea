import Mathlib.Algebra.Group.Nat.Defs
import Mathlib.Data.List.Forall2
import Mathlib.Data.List.Lex
import Mathlib.Data.Fin.Basic
import Mathlib.Order.Fin.Basic

/-! # Status codes, comparison outcomes, byte strings

    `sql/common/statuscode.inc`, `sql/common/cmp.h`, `sql/storage/data_cmp.h`
    and the two ways besides a status in which a call can end. -/

namespace AmDb

/-- `Status` of `statuscode.h`. -/
inductive Status where
  | ok
  | notFound
  | ioError
  | eagain
  | storageError
  | storageKvNotFound
  | storageIdGeneratorError
  | bptreeError
  | bptreeDuplicateKey
  | bptreeIteratorEnd
  | bptreeIteratorNotFound
  | bptreeRootNodeError
  | bptreeNodeDumpError
  | bptreeNodeLoadError
  | columnDescError
  | databaseSchemaError
  | tableSchemaError
  | indexSchemaError
  | databaseNotFound
  | databaseExisted
  | tableNotFound
  | tableExiste
  | executorError
  | syntaxError
  | analyzeError
  deriving DecidableEq, Repr

/-- A run that does not return: a failed `AMDB_ASSERT` or an uncaught exception
    ends the process, the C++ standard gives the step no meaning, or the bound
    this model puts on a `while` loop is used up. -/
inductive Fault where
  | assertion
  | undefined
  | fuel
  deriving DecidableEq, Repr

/-- A computation of the source: a value, or no return at all. -/
abbrev Exec (α : Type) := Except Fault α

@[simp] theorem Exec.bind_ok {α β : Type} (a : α) (f : α → Exec β) :
    ((Except.ok a : Exec α) >>= f) = f a := rfl

@[simp] theorem Exec.bind_error {α β : Type} (e : Fault) (f : α → Exec β) :
    ((Except.error e : Exec α) >>= f) = Except.error e := rfl

@[simp] theorem Exec.pure_eq {α : Type} (a : α) :
    (pure a : Exec α) = Except.ok a := rfl

/-- A sequence that returns is two steps that return. -/
theorem Exec.bind_eq_ok {α β : Type} {x : Exec α} {f : α → Exec β} {b : β} :
    (x >>= f) = Except.ok b ↔ ∃ a, x = Except.ok a ∧ f a = Except.ok b := by
  cases x with
  | error e => simp
  | ok a => simp

/-- A sequence that does not return stops at its first or its second step. -/
theorem Exec.bind_eq_error {α β : Type} {x : Exec α} {f : α → Exec β}
    {e : Fault} : (x >>= f) = Except.error e
      ↔ x = Except.error e ∨ ∃ a, x = Except.ok a ∧ f a = Except.error e := by
  cases x with
  | error e' => simp
  | ok a => simp

/-- A loop that returns is a loop of calls that return. -/
theorem Exec.mapM_eq_ok {α β : Type} {f : α → Exec β} {l : List α}
    {l' : List β} :
    l.mapM f = .ok l' ↔ List.Forall₂ (fun a b => f a = .ok b) l l' := by
  induction l generalizing l' with
  | nil =>
      rw [List.forall₂_nil_left_iff]
      exact ⟨fun h => (Except.ok.inj h).symm, fun h => congrArg Except.ok h.symm⟩
  | cons a l ih =>
      rw [List.mapM_cons, List.forall₂_cons_left_iff, Exec.bind_eq_ok]
      refine exists_congr (fun b => ?_)
      constructor
      · rintro ⟨hb, h⟩
        obtain ⟨bs, hbs, h⟩ := Exec.bind_eq_ok.mp h
        exact ⟨bs, hb, ih.mp hbs, (Except.ok.inj h).symm⟩
      · rintro ⟨bs, hb, hbs, rfl⟩
        refine ⟨hb, ?_⟩
        rw [ih.mpr hbs]
        rfl

/-- A `char` of a `std::string`, compared as `unsigned char`. -/
abbrev Byte := Fin 256

/-- `std::string`. -/
abbrev Bytes := List Byte

/-- `common::CmpOpt`. -/
inductive CmpOpt where
  | lt | le | gt | ge | eq | ne
  deriving DecidableEq, Repr

def isCmpLt (op : CmpOpt) : Bool := op = .lt
def isCmpLe (op : CmpOpt) : Bool := op = .lt ∨ op = .eq
def isCmpGt (op : CmpOpt) : Bool := op = .gt
def isCmpGe (op : CmpOpt) : Bool := op = .gt ∨ op = .eq
def isCmpEq (op : CmpOpt) : Bool := op = .eq
def isCmpNe (op : CmpOpt) : Bool := !isCmpEq op

/-- `DataCmp`: `std::string::compare` is the lexicographic order on bytes. -/
def dataCmp (s₁ s₂ : Bytes) : CmpOpt :=
  if s₁ < s₂ then .lt else if s₂ < s₁ then .gt else .eq

@[simp] theorem isCmpLt_dataCmp (s₁ s₂ : Bytes) :
    isCmpLt (dataCmp s₁ s₂) = true ↔ s₁ < s₂ := by
  unfold isCmpLt dataCmp
  split_ifs <;> simp_all

@[simp] theorem isCmpGt_dataCmp (s₁ s₂ : Bytes) :
    isCmpGt (dataCmp s₁ s₂) = true ↔ s₂ < s₁ := by
  unfold isCmpGt dataCmp
  split_ifs with h₁ h₂
  · simp [lt_asymm h₁]
  · simp [h₂]
  · simp [h₂]

@[simp] theorem isCmpEq_dataCmp (s₁ s₂ : Bytes) :
    isCmpEq (dataCmp s₁ s₂) = true ↔ s₁ = s₂ := by
  unfold isCmpEq dataCmp
  split_ifs with h₁ h₂
  · simp [ne_of_lt h₁]
  · simp [ne_of_gt h₂]
  · simp [le_antisymm (not_lt.mp h₂) (not_lt.mp h₁)]

@[simp] theorem isCmpGe_dataCmp (s₁ s₂ : Bytes) :
    isCmpGe (dataCmp s₁ s₂) = true ↔ s₂ ≤ s₁ := by
  unfold isCmpGe dataCmp
  split_ifs with h₁ h₂
  · simp [h₁]
  · simp [le_of_lt h₂]
  · simp [not_lt.mp h₁]

@[simp] theorem isCmpLe_dataCmp (s₁ s₂ : Bytes) :
    isCmpLe (dataCmp s₁ s₂) = true ↔ s₁ ≤ s₂ := by
  unfold isCmpLe dataCmp
  split_ifs with h₁ h₂
  · simp [le_of_lt h₁]
  · simp [h₂]
  · simp [not_lt.mp h₂]

@[simp] theorem isCmpNe_dataCmp (s₁ s₂ : Bytes) :
    isCmpNe (dataCmp s₁ s₂) = true ↔ s₁ ≠ s₂ := by
  rw [isCmpNe, Bool.not_eq_true', Ne, ← isCmpEq_dataCmp, Bool.not_eq_true]

/-- Unsigned 64-bit wrap-around. -/
def u64 (n : Nat) : Nat := n % 2 ^ 64

theorem u64_of_lt {n : Nat} (h : n < 2 ^ 64) : u64 n = n := Nat.mod_eq_of_lt h

/-- Unsigned 64-bit subtraction. -/
def sub64 (a b : Nat) : Nat := (a + (2 ^ 64 - b % 2 ^ 64)) % 2 ^ 64

theorem sub64_of_le {a b : Nat} (h : b ≤ a) (ha : a < 2 ^ 64) :
    sub64 a b = a - b := by
  unfold sub64
  omega

end AmDb
