import AmDb.Common.Status
import AmDb.Foundation.PrefixCode

/-! # Encoding of basic values

    `sql/codec/codec.cc`: an encoder appends to `out` and returns the number it
    reports; a decoder reads from the front of `in` through `in.data()`. -/

namespace AmDb.Codec

open PrefixCode

/-- `std::string(s.data(), n)`: the byte at `s.data()[s.size()]` is the
    terminator, anything beyond it is outside the object. -/
def readData (s : Bytes) (n : Nat) : Exec Bytes :=
  if n ≤ s.length + 1 then .ok ((s ++ [0]).take n) else .error .undefined

theorem readData_append (s r : Bytes) :
    readData (s ++ r) s.length = .ok s := by
  rw [readData, if_pos (by simp; omega), List.append_assoc,
    List.take_left' rfl]

/-- `EncodeUInt8`.  It returns `sizeof(*out)`, the size of a `std::string`
    object, where its siblings return the bytes they appended. -/
def encodeUInt8 (v : Nat) (out : Bytes) : Nat × Bytes :=
  (32, out ++ bigEndian 1 v)

/-- `EncodeUInt32`. -/
def encodeUInt32 (v : Nat) (out : Bytes) : Nat × Bytes :=
  (4, out ++ bigEndian 4 v)

/-- `EncodeUInt64`. -/
def encodeUInt64 (v : Nat) (out : Bytes) : Nat × Bytes :=
  (8, out ++ bigEndian 8 v)

/-- `EncodeBytes`: `uint32_t len` keeps the low 32 bits of the size, which are
    the four digits written. -/
def encodeBytes (s : Bytes) (out : Bytes) : Nat × Bytes :=
  let (ret, out) := encodeUInt32 s.length out
  (s.length + ret, out ++ s)

/-- `DecodeUInt8`: `in.at(0)` throws on an empty string. -/
def decodeUInt8 : Bytes → Exec (Nat × Nat)
  | [] => .error .assertion
  | b :: _ => .ok (1, b.val)

/-- `DecodeUInt32`: bytes consumed and value. -/
def decodeUInt32 (s : Bytes) : Exec (Nat × Nat) := do
  let p ← readData s 4
  return (4, ofBigEndian p)

/-- `DecodeUInt64`: bytes consumed and value. -/
def decodeUInt64 (s : Bytes) : Exec (Nat × Nat) := do
  let p ← readData s 8
  return (8, ofBigEndian p)

/-- `DecodeBytes`: `-1` as a `size_t` when the string is too short for the
    length it starts with. -/
def decodeBytes (s out : Bytes) : Exec (Nat × Bytes) := do
  let (ret, len) ← decodeUInt32 s
  if ret + len ≤ s.length then
    return (len + ret, out ++ (s.drop ret).take len)
  else
    return (2 ^ 64 - 1, out)

@[simp] theorem encodeUInt8_snd (v : Nat) (out : Bytes) :
    (encodeUInt8 v out).2 = out ++ bigEndian 1 v := rfl

@[simp] theorem encodeUInt64_snd (v : Nat) (out : Bytes) :
    (encodeUInt64 v out).2 = out ++ bigEndian 8 v := rfl

@[simp] theorem encodeBytes_snd (s out : Bytes) :
    (encodeBytes s out).2 = out ++ lengthPrefixed s := by
  show out ++ bigEndian 4 s.length ++ s = _
  rw [lengthPrefixed, List.append_assoc]

/-- A number is read back from the bytes written for it. -/
theorem decodeUInt32_bigEndian {n : Nat} (h : n < 2 ^ 32) (r : Bytes) :
    decodeUInt32 (bigEndian 4 n ++ r) = .ok (4, n) := by
  have hr := readData_append (bigEndian 4 n) r
  rw [length_bigEndian] at hr
  rw [decodeUInt32, hr, Exec.bind_ok, ofBigEndian_bigEndian,
    Nat.mod_eq_of_lt (by simpa using h)]
  rfl

/-- A string is read back from the bytes written for it. -/
theorem decodeBytes_lengthPrefixed {s : Bytes} (h : s.length < 2 ^ 32)
    (out : Bytes) :
    decodeBytes (lengthPrefixed s) out
      = .ok (s.length + 4, out ++ s) := by
  have hd : (lengthPrefixed s).drop 4 = s := by
    rw [lengthPrefixed, List.drop_left' (length_bigEndian 4 _)]
  rw [decodeBytes, lengthPrefixed, decodeUInt32_bigEndian h]
  simp only [Exec.bind_ok, Exec.pure_eq]
  rw [if_pos (by simp), ← lengthPrefixed, hd, List.take_length]

end AmDb.Codec
