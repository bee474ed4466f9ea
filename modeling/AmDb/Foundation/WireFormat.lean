import AmDb.Foundation.PrefixCode
import Mathlib.Data.List.Basic
import Mathlib.Data.Fin.Basic

/-! # Tagged fields on the wire

    Records as lists of numbered fields, each a base-128 number or a string
    behind its length, and a record type as a pair of maps to and from field
    lists (`Message`).  A field whose value is the default is left out on the
    way out and read as the default on the way in. -/

namespace WireFormat

/-- Base-128 digits, lowest first, every byte but the last marked; the first
    argument bounds the digits. -/
def digits : Nat → Nat → List (Fin 256)
  | 0, n => [Fin.ofNat 256 n]
  | fuel + 1, n =>
      if n < 128 then [Fin.ofNat 256 n]
      else Fin.ofNat 256 (n % 128 + 128) :: digits fuel (n / 128)

/-- A number. -/
def varint (n : Nat) : List (Fin 256) := digits n n

/-- The number in front, and what follows it. -/
def readVarint : List (Fin 256) → Option (Nat × List (Fin 256))
  | [] => none
  | b :: r =>
      if b.val < 128 then some (b.val, r)
      else match readVarint r with
        | some (m, r') => some (b.val - 128 + 128 * m, r')
        | none => none

/-- The digits of a number are read back. -/
theorem readVarint_digits {fuel n : Nat} (h : n ≤ fuel)
    (r : List (Fin 256)) : readVarint (digits fuel n ++ r) = some (n, r) := by
  have hsmall : ∀ m, m < 128 →
      readVarint ([Fin.ofNat 256 m] ++ r) = some (m, r) := by
    intro m hm
    have hv : (Fin.ofNat 256 m).val = m := Nat.mod_eq_of_lt (by omega)
    rw [List.singleton_append, readVarint, hv, if_pos hm]
  induction fuel generalizing n with
  | zero =>
      exact hsmall n (by omega)
  | succ fuel ih =>
      rw [digits]
      split_ifs with hn
      · exact hsmall n hn
      · have hv : (Fin.ofNat 256 (n % 128 + 128)).val = n % 128 + 128 :=
          Nat.mod_eq_of_lt (by omega)
        rw [List.cons_append, readVarint, hv, if_neg (by omega),
          ih (by omega)]
        show some (n % 128 + 128 - 128 + 128 * (n / 128), r) = some (n, r)
        have : n % 128 + 128 - 128 + 128 * (n / 128) = n := by omega
        rw [this]

theorem readVarint_varint (n : Nat) (r : List (Fin 256)) :
    readVarint (varint n ++ r) = some (n, r) :=
  readVarint_digits (Nat.le_refl n) r

/-- A number takes one byte at least. -/
theorem varint_ne_nil (n : Nat) : varint n ≠ [] := by
  cases n with
  | zero => exact List.cons_ne_nil _ _
  | succ n =>
      rw [varint, digits]
      split_ifs <;> exact List.cons_ne_nil _ _

/-! ## Fields -/

/-- What a field holds. -/
inductive Value where
  | num (n : Nat)
  | bytes (s : List (Fin 256))
  deriving DecidableEq

/-- A numbered field. -/
structure Field where
  number : Nat
  value  : Value
  deriving DecidableEq

/-- Tag and content; wire type 0 is a number, 2 a string. -/
def encodeField (f : Field) : List (Fin 256) :=
  match f.value with
  | .num n => varint (8 * f.number) ++ varint n
  | .bytes s => varint (8 * f.number + 2) ++ (varint s.length ++ s)

/-- The field in front, and what follows it. -/
def readField (s : List (Fin 256)) : Option (Field × List (Fin 256)) :=
  match readVarint s with
  | none => none
  | some (tag, r) =>
      match readVarint r with
      | none => none
      | some (n, r') =>
          if tag % 8 = 0 then some (⟨tag / 8, .num n⟩, r')
          else if tag % 8 = 2 ∧ n ≤ r'.length then
            some (⟨tag / 8, .bytes (r'.take n)⟩, r'.drop n)
          else none

/-- A record. -/
def encodeFields (fs : List Field) : List (Fin 256) := fs.flatMap encodeField

/-- All fields; the first argument bounds their number. -/
def readFields : Nat → List (Fin 256) → Option (List Field)
  | _, [] => some []
  | 0, _ :: _ => none
  | fuel + 1, b :: s =>
      match readField (b :: s) with
      | none => none
      | some (f, r) => (readFields fuel r).map (f :: ·)

/-- A record read back: no field is shorter than a byte. -/
def decodeFields (s : List (Fin 256)) : Option (List Field) :=
  readFields s.length s

/-- A field is read back, with what follows it left over. -/
theorem readField_encodeField (f : Field) (r : List (Fin 256)) :
    readField (encodeField f ++ r) = some (f, r) := by
  obtain ⟨number, value⟩ := f
  cases value with
  | num n =>
      simp only [encodeField, readField, List.append_assoc, readVarint_varint]
      rw [if_pos (by omega), Nat.mul_div_cancel_left _ (by omega)]
  | bytes s =>
      simp only [encodeField, readField, List.append_assoc, readVarint_varint]
      rw [if_neg (by omega), if_pos (by simp), List.take_left' rfl,
        List.drop_left' rfl, show (8 * number + 2) / 8 = number by omega]

theorem encodeField_ne_nil (f : Field) : encodeField f ≠ [] := by
  obtain ⟨number, value⟩ := f
  cases value <;> simp [encodeField, varint_ne_nil]

/-- There are no more fields than bytes. -/
theorem length_le_encodeFields (fs : List Field) :
    fs.length ≤ (encodeFields fs).length := by
  induction fs with
  | nil => exact Nat.zero_le _
  | cons f fs ih =>
      have := List.length_pos_of_ne_nil (encodeField_ne_nil f)
      rw [encodeFields, List.flatMap_cons, List.length_append,
        List.length_cons, ← encodeFields]
      omega

/-- Fields are read back with as much fuel as there are fields. -/
theorem readFields_encodeFields {fuel : Nat} {fs : List Field}
    (h : fs.length ≤ fuel) :
    readFields fuel (encodeFields fs) = some fs := by
  induction fs generalizing fuel with
  | nil => cases fuel <;> rfl
  | cons f fs ih =>
      cases fuel with
      | zero => exact absurd h (by simp)
      | succ fuel =>
          have hread := readField_encodeField f (encodeFields fs)
          rw [encodeFields, List.flatMap_cons, ← encodeFields]
          obtain ⟨b, s, hs⟩ : ∃ b s, encodeField f ++ encodeFields fs = b :: s :=
            List.exists_cons_of_ne_nil (by simp [encodeField_ne_nil])
          rw [hs] at hread ⊢
          rw [readFields, hread]
          show (readFields fuel (encodeFields fs)).map (f :: ·) = _
          rw [ih (by simpa using h)]
          rfl

theorem decodeFields_encodeFields (fs : List Field) :
    decodeFields (encodeFields fs) = some fs :=
  readFields_encodeFields (length_le_encodeFields fs)

/-! ## Records with defaults -/

/-- A numeric field, left out when zero. -/
def numField (i n : Nat) : List Field :=
  if n = 0 then [] else [⟨i, .num n⟩]

/-- A string field, left out when empty. -/
def bytesField (i : Nat) (s : List (Fin 256)) : List Field :=
  if s = [] then [] else [⟨i, .bytes s⟩]

theorem encodeFields_append (fs gs : List Field) :
    encodeFields (fs ++ gs) = encodeFields fs ++ encodeFields gs :=
  List.flatMap_append ..

theorem encodeFields_singleton (f : Field) :
    encodeFields [f] = encodeField f :=
  List.flatMap_singleton ..

/-- A string field takes no less space than the string. -/
theorem length_le_encodeFields_bytesField (i : Nat) (s : List (Fin 256)) :
    s.length ≤ (encodeFields (bytesField i s)).length := by
  rw [bytesField]
  split_ifs with h
  · rw [h]; exact Nat.zero_le _
  · simp only [encodeFields, encodeField, List.flatMap_singleton,
      List.length_append]
    omega

/-! What a record takes at most: a digit more than a number is large. -/

/-- No more digits than fuel. -/
theorem length_digits_le (fuel n : Nat) :
    (digits fuel n).length ≤ fuel + 1 := by
  induction fuel generalizing n with
  | zero => exact Nat.le_refl 1
  | succ fuel ih =>
      rw [digits]
      split_ifs
      · exact Nat.succ_le_succ (Nat.zero_le _)
      · exact Nat.succ_le_succ (ih _)

/-- How long the field of a number is at most. -/
theorem length_encodeFields_numField_le (i n : Nat) :
    (encodeFields (numField i n)).length ≤ 8 * i + n + 2 := by
  rw [numField]
  split_ifs
  · exact Nat.zero_le _
  · have htag := length_digits_le (8 * i) (8 * i)
    have hnum := length_digits_le n n
    simp only [encodeFields, encodeField, List.flatMap_singleton,
      List.length_append, varint]
    omega

/-- How long the field of bytes is at most. -/
theorem length_encodeField_bytes_le (i : Nat) (s : List (Fin 256)) :
    (encodeField ⟨i, .bytes s⟩).length ≤ 8 * i + 2 * s.length + 4 := by
  have htag := length_digits_le (8 * i + 2) (8 * i + 2)
  have hlen := length_digits_le s.length s.length
  simp only [encodeField, List.length_append, varint]
  omega

/-- How long a field of bytes is that may be left out. -/
theorem length_encodeFields_bytesField_le (i : Nat) (s : List (Fin 256)) :
    (encodeFields (bytesField i s)).length ≤ 8 * i + 2 * s.length + 4 := by
  rw [bytesField]
  split_ifs
  · exact Nat.zero_le _
  · rw [encodeFields_singleton]
    exact length_encodeField_bytes_le i s

/-- Every number under a field number. -/
def numbers (i : Nat) (fs : List Field) : List Nat :=
  fs.filterMap (fun f => match f.value with
    | .num n => if f.number = i then some n else none
    | .bytes _ => none)

/-- Every string under a field number. -/
def strings (i : Nat) (fs : List Field) : List (List (Fin 256)) :=
  fs.filterMap (fun f => match f.value with
    | .num _ => none
    | .bytes s => if f.number = i then some s else none)

/-- The last number under a field number; zero when there is none. -/
def getNum (i : Nat) (fs : List Field) : Nat := (numbers i fs).getLast?.getD 0

/-- The last string under a field number; empty when there is none. -/
def getBytes (i : Nat) (fs : List Field) : List (Fin 256) :=
  (strings i fs).getLast?.getD []

@[simp] theorem numbers_append (i : Nat) (fs gs : List Field) :
    numbers i (fs ++ gs) = numbers i fs ++ numbers i gs :=
  List.filterMap_append ..

@[simp] theorem strings_append (i : Nat) (fs gs : List Field) :
    strings i (fs ++ gs) = strings i fs ++ strings i gs :=
  List.filterMap_append ..

@[simp] theorem numbers_numField_ne {i j : Nat} (n : Nat) (h : j ≠ i) :
    numbers i (numField j n) = [] := by
  rw [numField]
  split_ifs
  · rfl
  · simp [numbers, h]

@[simp] theorem numbers_bytesField (i j : Nat) (s : List (Fin 256)) :
    numbers i (bytesField j s) = [] := by
  rw [bytesField]
  split_ifs <;> rfl

@[simp] theorem strings_numField (i j n : Nat) :
    strings i (numField j n) = [] := by
  rw [numField]
  split_ifs <;> rfl

@[simp] theorem strings_bytesField_ne {i j : Nat} (s : List (Fin 256))
    (h : j ≠ i) : strings i (bytesField j s) = [] := by
  rw [bytesField]
  split_ifs
  · rfl
  · simp [strings, h]

@[simp] theorem strings_map_bytes_self (i : Nat)
    (l : List (List (Fin 256))) :
    strings i (l.map (fun s => ⟨i, .bytes s⟩)) = l := by
  induction l with
  | nil => rfl
  | cons s l ih =>
      have h : strings i (⟨i, .bytes s⟩ :: l.map (fun s => ⟨i, .bytes s⟩))
          = s :: strings i (l.map (fun s => ⟨i, .bytes s⟩)) := by
        simp [strings]
      rw [List.map_cons, h, ih]

@[simp] theorem numbers_map_bytes (i j : Nat) (l : List (List (Fin 256))) :
    numbers i (l.map (fun s => ⟨j, .bytes s⟩)) = [] := by
  simp [numbers]

@[simp] theorem getLast_numbers_numField (i n : Nat) :
    (numbers i (numField i n)).getLast?.getD 0 = n := by
  rw [numField]
  split_ifs with h
  · exact h.symm
  · simp [numbers]

@[simp] theorem getLast_strings_bytesField (i : Nat) (s : List (Fin 256)) :
    (strings i (bytesField i s)).getLast?.getD [] = s := by
  rw [bytesField]
  split_ifs with h
  · exact h.symm
  · simp [strings]

/-- A record type: its fields, and its value from fields. -/
structure Message (M : Type) where
  fields     : M → List Field
  ofFields   : List Field → Option M
  round_trip : ∀ m, ofFields (fields m) = some m

namespace Message

variable {M : Type}

def encode (msg : Message M) (m : M) : List (Fin 256) :=
  encodeFields (msg.fields m)

def decode (msg : Message M) (s : List (Fin 256)) : Option M :=
  (decodeFields s).bind msg.ofFields

/-- What was written is read back. -/
theorem decode_encode (msg : Message M) (m : M) :
    msg.decode (msg.encode m) = some m := by
  rw [decode, encode, decodeFields_encodeFields, Option.bind_some,
    msg.round_trip]

/-- Messages that were encoded one by one are decoded. -/
theorem mapM_decode_encode (msg : Message M) (ms : List M) :
    (ms.map msg.encode).mapM msg.decode = some ms := by
  induction ms with
  | nil => rfl
  | cons m ms ih =>
      rw [List.map_cons, List.mapM_cons, decode_encode, ih]
      rfl

end Message

end WireFormat
