import Mathlib.Data.List.Lex
import Mathlib.Data.Nat.Basic
import Mathlib.Order.Fin.Basic
import Mathlib.Algebra.Order.Ring.Nat
import Mathlib.Tactic.Ring

/-! # Self-delimiting byte codes

    Fixed-width big-endian numbers and length-prefixed strings, the property
    that makes a concatenation of codes readable (`Delimited`), and what it
    gives: concatenations decode in one way only, and compare as their first
    differing parts do. -/

namespace PrefixCode

/-- The number of byte values, for byte literals. -/
instance neZero_256 : NeZero (256 : Nat) := ⟨by decide⟩

/-! ## Big-endian numbers -/

/-- The low `w` base-256 digits of `n`, most significant first. -/
def bigEndian : Nat → Nat → List (Fin 256)
  | 0, _ => []
  | w + 1, n => Fin.ofNat 256 (n / 256 ^ w) :: bigEndian w n

/-- The number a digit string stands for. -/
def ofBigEndian : List (Fin 256) → Nat
  | [] => 0
  | b :: l => b.val * 256 ^ l.length + ofBigEndian l

@[simp] theorem length_bigEndian (w n : Nat) : (bigEndian w n).length = w := by
  induction w with
  | zero => rfl
  | succ w ih => rw [bigEndian, List.length_cons, ih]

/-- Bytes are read as the number, up to their width. -/
theorem ofBigEndian_bigEndian (w n : Nat) :
    ofBigEndian (bigEndian w n) = n % 256 ^ w := by
  induction w with
  | zero => rw [bigEndian, ofBigEndian, Nat.pow_zero, Nat.mod_one]
  | succ w ih =>
      rw [bigEndian, ofBigEndian, length_bigEndian, ih, Nat.mod_pow_succ]
      show n / 256 ^ w % 256 * 256 ^ w + n % 256 ^ w = _
      ring

/-- A number of so many bytes. -/
theorem ofBigEndian_lt (l : List (Fin 256)) :
    ofBigEndian l < 256 ^ l.length := by
  induction l with
  | nil => exact Nat.one_pos
  | cons b l ih =>
      rw [ofBigEndian, List.length_cons, Nat.pow_succ]
      have hb : b.val + 1 ≤ 256 := b.isLt
      have := Nat.mul_le_mul_right (256 ^ l.length) hb
      rw [Nat.add_mul, Nat.one_mul, Nat.mul_comm 256] at this
      omega

/-- The high bytes come first. -/
theorem ofBigEndian_append (l₁ l₂ : List (Fin 256)) :
    ofBigEndian (l₁ ++ l₂)
      = ofBigEndian l₁ * 256 ^ l₂.length + ofBigEndian l₂ := by
  induction l₁ with
  | nil => rw [List.nil_append, ofBigEndian, Nat.zero_mul, Nat.zero_add]
  | cons b l ih =>
      rw [List.cons_append, ofBigEndian, ih, List.length_append, ofBigEndian]
      ring

/-- Digit strings of one length are ordered as their numbers are. -/
theorem ofBigEndian_lt_of_lt {l₁ l₂ : List (Fin 256)}
    (hlen : l₁.length = l₂.length) (h : l₁ < l₂) :
    ofBigEndian l₁ < ofBigEndian l₂ := by
  induction l₁ generalizing l₂ with
  | nil =>
      cases l₂ with
      | nil => exact absurd h (lt_irrefl _)
      | cons b l => exact nomatch hlen
  | cons a l₁ ih =>
      cases l₂ with
      | nil => exact nomatch hlen
      | cons b l₂ =>
          have hl : l₁.length = l₂.length := Nat.succ.inj hlen
          rw [ofBigEndian, ofBigEndian, hl]
          rcases List.cons_lt_cons_iff.mp h with hab | ⟨rfl, hrest⟩
          · have h₁ := ofBigEndian_lt l₁
            rw [hl] at h₁
            have hab' : a.val + 1 ≤ b.val := hab
            have := Nat.mul_le_mul_right (256 ^ l₂.length) hab'
            rw [Nat.add_mul, Nat.one_mul] at this
            omega
          · have := ih hl hrest
            omega

/-- Numbers of one width are in order of their bytes. -/
theorem bigEndian_lt_iff {w m n : Nat} (hm : m < 256 ^ w) (hn : n < 256 ^ w) :
    bigEndian w m < bigEndian w n ↔ m < n := by
  have hlen : (bigEndian w m).length = (bigEndian w n).length := by simp
  have hval : ∀ {x}, x < 256 ^ w → ofBigEndian (bigEndian w x) = x := by
    intro x hx
    rw [ofBigEndian_bigEndian, Nat.mod_eq_of_lt hx]
  constructor
  · intro h
    have := ofBigEndian_lt_of_lt hlen h
    rwa [hval hm, hval hn] at this
  · intro h
    rcases lt_trichotomy (bigEndian w m) (bigEndian w n) with h' | h' | h'
    · exact h'
    · have := congrArg ofBigEndian h'
      rw [hval hm, hval hn] at this
      omega
    · have := ofBigEndian_lt_of_lt hlen.symm h'
      rw [hval hm, hval hn] at this
      omega

/-- Numbers of one width are known by their bytes. -/
theorem bigEndian_inj {w m n : Nat} (hm : m < 256 ^ w) (hn : n < 256 ^ w)
    (h : bigEndian w m = bigEndian w n) : m = n := by
  have := congrArg ofBigEndian h
  rwa [ofBigEndian_bigEndian, ofBigEndian_bigEndian, Nat.mod_eq_of_lt hm,
    Nat.mod_eq_of_lt hn] at this

/-- Every digit string is the one of its number. -/
theorem bigEndian_ofBigEndian (l : List (Fin 256)) :
    bigEndian l.length (ofBigEndian l) = l := by
  have hval := ofBigEndian_bigEndian l.length (ofBigEndian l)
  rw [Nat.mod_eq_of_lt (ofBigEndian_lt l)] at hval
  rcases lt_trichotomy (bigEndian l.length (ofBigEndian l)) l with h | h | h
  · have := ofBigEndian_lt_of_lt (length_bigEndian _ _) h
    omega
  · exact h
  · have := ofBigEndian_lt_of_lt (length_bigEndian _ _).symm h
    omega

/-! ## Delimited codes -/

section Delimited

variable {α β γ : Type}

/-- On values satisfying `P`, a code followed by anything can be read off in
    one way only. -/
def Delimited (P : α → Prop) (enc : α → List γ) : Prop :=
  ∀ a b, P a → P b → ∀ r s, enc a ++ r = enc b ++ s → a = b ∧ r = s

/-- A code of constant length is delimited when it is injective. -/
theorem delimited_of_length {P : α → Prop} {enc : α → List γ} (n : Nat)
    (hlen : ∀ a, P a → (enc a).length = n)
    (hinj : ∀ a b, P a → P b → enc a = enc b → a = b) : Delimited P enc := by
  intro a b ha hb r s h
  obtain ⟨h₁, h₂⟩ := List.append_inj h (by rw [hlen a ha, hlen b hb])
  exact ⟨hinj a b ha hb h₁, h₂⟩

theorem delimited_bigEndian (w : Nat) :
    Delimited (· < 256 ^ w) (bigEndian w) :=
  delimited_of_length w (fun _ _ => length_bigEndian _ _)
    (fun _ _ => bigEndian_inj)

/-- Delimited codes are injective. -/
theorem Delimited.injective {P : α → Prop} {enc : α → List γ}
    (h : Delimited P enc) {a b : α} (ha : P a) (hb : P b)
    (heq : enc a = enc b) : a = b :=
  (h a b ha hb [] [] (by rw [heq])).1

/-- A concatenation of delimited codes, none of them empty, decodes in one
    way only. -/
theorem Delimited.flatMap_injective {P : α → Prop} {enc : α → List γ}
    (h : Delimited P enc) (hne : ∀ a, enc a ≠ []) :
    ∀ {l l' : List α}, (∀ a ∈ l, P a) → (∀ a ∈ l', P a) →
      l.flatMap enc = l'.flatMap enc → l = l' := by
  intro l
  induction l with
  | nil =>
      intro l' _ _ heq
      cases l' with
      | nil => rfl
      | cons b l' =>
          rw [List.flatMap_nil, List.flatMap_cons] at heq
          exact absurd (List.append_eq_nil_iff.mp heq.symm).1 (hne b)
  | cons a l ih =>
      intro l' hl hl' heq
      cases l' with
      | nil =>
          rw [List.flatMap_nil, List.flatMap_cons] at heq
          exact absurd (List.append_eq_nil_iff.mp heq).1 (hne a)
      | cons b l' =>
          rw [List.flatMap_cons, List.flatMap_cons] at heq
          obtain ⟨rfl, hrest⟩ := h a b (hl a List.mem_cons_self)
            (hl' b List.mem_cons_self) _ _ heq
          rw [ih (fun x hx => hl x (List.mem_cons_of_mem _ hx))
            (fun x hx => hl' x (List.mem_cons_of_mem _ hx)) hrest]

/-- So does one followed by anything, when the number of codes is known. -/
theorem Delimited.flatMap_append_inj {P : α → Prop} {enc : α → List γ}
    (h : Delimited P enc) : ∀ {l l' : List α}, l.length = l'.length →
      (∀ a ∈ l, P a) → (∀ a ∈ l', P a) → ∀ {r s : List γ},
      l.flatMap enc ++ r = l'.flatMap enc ++ s → l = l' ∧ r = s := by
  intro l
  induction l with
  | nil =>
      intro l' hlen _ _ r s heq
      obtain rfl := List.length_eq_zero_iff.mp hlen.symm
      exact ⟨rfl, heq⟩
  | cons a l ih =>
      intro l' hlen hl hl' r s heq
      cases l' with
      | nil => cases hlen
      | cons b l' =>
          rw [List.flatMap_cons, List.flatMap_cons, List.append_assoc,
            List.append_assoc] at heq
          obtain ⟨rfl, hrest⟩ := h a b (hl a List.mem_cons_self)
            (hl' b List.mem_cons_self) _ _ heq
          obtain ⟨rfl, hrs⟩ := ih (Nat.succ.inj hlen)
            (fun x hx => hl x (List.mem_cons_of_mem _ hx))
            (fun x hx => hl' x (List.mem_cons_of_mem _ hx)) hrest
          exact ⟨rfl, hrs⟩

/-- A string behind its length in four bytes. -/
def lengthPrefixed (s : List (Fin 256)) : List (Fin 256) :=
  bigEndian 4 s.length ++ s

/-- A text behind its length says where it ends. -/
theorem delimited_lengthPrefixed :
    Delimited (fun s => s.length < 256 ^ 4) lengthPrefixed := by
  intro a b ha hb r s h
  rw [lengthPrefixed, lengthPrefixed, List.append_assoc,
    List.append_assoc] at h
  obtain ⟨hlen, h'⟩ := delimited_bigEndian 4 _ _ ha hb _ _ h
  exact List.append_inj h' hlen

end Delimited

/-! ## Comparing concatenations -/

section Order

variable {γ : Type} [LinearOrder γ]

/-- What lists begin with in common does not decide their order. -/
theorem append_lt_append_left {u r s : List γ} :
    u ++ r < u ++ s ↔ r < s := by
  induction u with
  | nil => exact Iff.rfl
  | cons x u ih =>
      rw [List.cons_append, List.cons_append, List.cons_lt_cons_iff]
      simp [ih]

/-- Strings of which neither begins the other compare alike whatever
    follows. -/
theorem append_lt_append_iff {u v r s : List γ} (huv : ¬ u <+: v)
    (hvu : ¬ v <+: u) : u ++ r < v ++ s ↔ u < v := by
  induction u generalizing v with
  | nil => exact absurd (List.nil_prefix) huv
  | cons x u ih =>
      cases v with
      | nil => exact absurd (List.nil_prefix) hvu
      | cons y v =>
          rw [List.cons_append, List.cons_append, List.cons_lt_cons_iff,
            List.cons_lt_cons_iff]
          refine or_congr Iff.rfl (and_congr_right ?_)
          rintro rfl
          refine ih (fun h => huv ?_) (fun h => hvu ?_)
          · exact List.cons_prefix_cons.mpr ⟨rfl, h⟩
          · exact List.cons_prefix_cons.mpr ⟨rfl, h⟩

/-- Different values of a delimited code compare alike whatever follows. -/
theorem Delimited.append_lt_append {α : Type} {P : α → Prop}
    {enc : α → List γ} (h : Delimited P enc) {a b : α} (ha : P a) (hb : P b)
    (hab : a ≠ b) (r s : List γ) :
    enc a ++ r < enc b ++ s ↔ enc a < enc b := by
  refine append_lt_append_iff ?_ ?_
  · rintro ⟨t, ht⟩
    exact hab (h a b ha hb t [] (by rw [ht, List.append_nil])).1
  · rintro ⟨t, ht⟩
    exact hab (h b a hb ha t [] (by rw [ht, List.append_nil])).1.symm

end Order

end PrefixCode
