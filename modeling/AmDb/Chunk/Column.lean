import AmDb.Chunk.Tuple
import Mathlib.Data.List.Induction

/-! # Columns

    `column.cc` of `sql/chunk`.  All rows of a column lie in one buffer, in
    cells of the size of the column's type.  A cell has no room for a string:
    of its characters only the first is stored, at the distance of the length
    from the start of the cell. -/

namespace AmDb.Chunk

open AmDb.Expr ByteMemory

/-- `Column`; an address is counted from `data_`. -/
structure Column where
  type       : ExprValueType
  capacity   : Nat
  nullBitmap : Nat → Bool
  data       : Mem

/-- A call of `SetExprValue`, or of the function it calls. -/
structure ColumnCall where
  rowIdx : Nat
  value  : ExprValue

namespace Column

/-- The constructor, over memory with these bytes. -/
def new (type : ExprValueType) (capacity : Nat) (contents : Mem) : Column :=
  ⟨type, capacity, fun _ => false, contents⟩

/-- The size of the buffer. -/
def bufferSize (col : Column) : Nat :=
  col.capacity * typeSize col.type % 2 ^ 32

/-- `row_idx * desc->TypeSize()`. -/
def cellAt (col : Column) (rowIdx : Nat) : Nat :=
  rowIdx * typeSize col.type % 2 ^ 32

def load (col : Column) (a n : Nat) : Exec Bytes :=
  if a + n ≤ col.bufferSize then .ok (read col.data a n)
  else .error .undefined

def store (col : Column) (a : Nat) (bs : Bytes) : Exec Column :=
  if a + bs.length ≤ col.bufferSize then
    .ok { col with data := write col.data a bs }
  else .error .undefined

/-- `null_bitmap_[row_idx] = false`, in a `bitset` of 1024. -/
def clearNull (col : Column) (rowIdx : Nat) : Exec Column :=
  if rowIdx < 1024 then
    .ok { col with nullBitmap := Function.update col.nullBitmap rowIdx false }
  else .error .undefined

/-- The setters of numbers, for a number of `w` bytes. -/
def setNumber (w n : Nat) (col : Column) (rowIdx : Nat) : Exec Column := do
  let col ← col.clearNull rowIdx
  col.store (col.cellAt rowIdx) (littleEndian w n)

def setInt8 (col : Column) (rowIdx : Nat) (value : BitVec 8) : Exec Column :=
  setNumber 1 value.toNat col rowIdx

def setUInt8 (col : Column) (rowIdx : Nat) (value : BitVec 8) : Exec Column :=
  setNumber 1 value.toNat col rowIdx

def setInt32 (col : Column) (rowIdx : Nat) (value : BitVec 32) : Exec Column :=
  setNumber 4 value.toNat col rowIdx

def setUInt32 (col : Column) (rowIdx : Nat) (value : BitVec 32) :
    Exec Column :=
  setNumber 4 value.toNat col rowIdx

def setInt64 (col : Column) (rowIdx : Nat) (value : BitVec 64) : Exec Column :=
  setNumber 8 value.toNat col rowIdx

def setUInt64 (col : Column) (rowIdx : Nat) (value : BitVec 64) :
    Exec Column :=
  setNumber 8 value.toNat col rowIdx

/-- `SetString`: `*data` is the first character of the copy in the arena.  An
    empty copy has none. -/
def setString (col : Column) (rowIdx : Nat) (value : Bytes) : Exec Column := do
  let col ← col.clearNull rowIdx
  let len := value.length % 2 ^ 32
  let data := value.take len
  let col ← col.store (col.cellAt rowIdx) (littleEndian 4 len)
  match data.head? with
  | none => .error .undefined
  | some first => col.store (col.cellAt rowIdx + len) [first]

/-- `SetExprValue`. -/
def setExprValue (col : Column) (c : ColumnCall) : Exec Column :=
  match c.value with
  | .int8 u => col.setInt8 c.rowIdx u
  | .uint8 u => col.setUInt8 c.rowIdx u
  | .int32 u => col.setInt32 c.rowIdx u
  | .uint32 u => col.setUInt32 c.rowIdx u
  | .int64 u => col.setInt64 c.rowIdx u
  | .uint64 u => col.setUInt64 c.rowIdx u
  | .string s => col.setString c.rowIdx s
  | _ => .ok col

/-- Calls one after another. -/
def setAll (col : Column) : List ColumnCall → Exec Column
  | [] => .ok col
  | c :: calls => do
      let col ← col.setExprValue c
      col.setAll calls

/-- The getters of numbers of `w` bytes. -/
def getNumber (w : Nat) (col : Column) (rowIdx : Nat) : Exec Nat := do
  let bs ← col.load (col.cellAt rowIdx) w
  .ok (ofLittleEndian bs)

def getInt8 (col : Column) (rowIdx : Nat) : Exec (BitVec 8) := do
  let n ← getNumber 1 col rowIdx
  .ok (.ofNat 8 n)

def getUInt8 (col : Column) (rowIdx : Nat) : Exec (BitVec 8) := do
  let n ← getNumber 1 col rowIdx
  .ok (.ofNat 8 n)

def getUInt64 (col : Column) (rowIdx : Nat) : Exec (BitVec 64) := do
  let n ← getNumber 8 col rowIdx
  .ok (.ofNat 64 n)

/-- `GetString`: the characters are expected behind the length. -/
def getString (col : Column) (rowIdx : Nat) : Exec Bytes := do
  let len ← getNumber 4 col rowIdx
  col.load (col.cellAt rowIdx + 4) len

/-- The getter of the column's type, where there is one. -/
def get? (col : Column) (rowIdx : Nat) : Option (Exec ExprValue) :=
  match col.type with
  | .int8 => some (do
      let u ← col.getInt8 rowIdx
      .ok (.int8 u))
  | .uint8 => some (do
      let u ← col.getUInt8 rowIdx
      .ok (.uint8 u))
  | .uint64 => some (do
      let u ← col.getUInt64 rowIdx
      .ok (.uint64 u))
  | .string => some (do
      let s ← col.getString rowIdx
      .ok (.string s))
  | _ => none

/-- The bytes of a row's cell. -/
def cellBytesAt (col : Column) (rowIdx : Nat) : Bytes :=
  read col.data (col.cellAt rowIdx) (typeSize col.type)

end Column

/-- The value last set in a row. -/
def lastSet (calls : List ColumnCall) (rowIdx : Nat) : Option ExprValue :=
  ((calls.filter (fun c => c.rowIdx = rowIdx)).getLast?).map ColumnCall.value

/-- Whatever is in the buffer at first: every call stays inside it and leaves
    the other rows, and every row reads as the value last set there. -/
def KeepsValues (type : ExprValueType) (capacity : Nat)
    (calls : List ColumnCall) : Prop :=
  ∀ contents before after, calls = before ++ after →
    ∃ col, (Column.new type capacity contents).setAll before = .ok col
      ∧ (∀ r v, lastSet before r = some v →
        ∀ got ∈ col.get? r, got = .ok v)
      ∧ ∀ c rest, after = c :: rest → ∃ col', col.setExprValue c = .ok col'
        ∧ ∀ r < capacity, r ≠ c.rowIdx →
          col'.cellBytesAt r = col.cellBytesAt r

/-! ## Numbers -/

namespace Column

section Number

variable {col : Column} {c : ColumnCall} {v : ExprValue} {r r' : Nat}

/-- The cell of a row below the capacity lies in the buffer. -/
theorem cell_in_buffer (hcap : col.capacity ≤ 1024) (hr : r < col.capacity) :
    col.cellAt r = r * typeSize col.type
      ∧ r * typeSize col.type + typeSize col.type ≤ col.bufferSize := by
  have hsize := typeSize_le col.type
  have hbuffer : col.capacity * typeSize col.type ≤ 1024 * 255 :=
    Nat.mul_le_mul hcap hsize
  have hcell : (r + 1) * typeSize col.type
      ≤ col.capacity * typeSize col.type := Nat.mul_le_mul_right _ hr
  rw [Nat.succ_mul] at hcell
  rw [cellAt, bufferSize, Nat.mod_eq_of_lt (by omega),
    Nat.mod_eq_of_lt (by omega)]
  exact ⟨rfl, hcell⟩

/-- The cells of two rows are apart. -/
theorem cells_apart (hcap : col.capacity ≤ 1024) (hr : r < col.capacity)
    (hr' : r' < col.capacity) (hne : r ≠ r') :
    (⟨col.cellAt r, typeSize col.type⟩ : Span).Apart
      ⟨col.cellAt r', typeSize col.type⟩ := by
  rw [(cell_in_buffer hcap hr).1, (cell_in_buffer hcap hr').1]
  have hmul : ∀ {m n : Nat}, m < n →
      m * typeSize col.type + typeSize col.type ≤ n * typeSize col.type := by
    intro m n hmn
    rw [← Nat.succ_mul]
    exact Nat.mul_le_mul_right _ hmn
  rcases Nat.lt_or_gt_of_ne hne with hlt | hgt
  · exact Or.inl (hmul hlt)
  · exact Or.inr (hmul hgt)

theorem clearNull_eq (hr : r < 1024) : ∃ bitmap,
    col.clearNull r = .ok { col with nullBitmap := bitmap } :=
  ⟨_, if_pos hr⟩

/-- A number of the column's type is written in its cell. -/
theorem setExprValue_number (hcap : col.capacity ≤ 1024)
    (hr : c.rowIdx < col.capacity) (ht : c.value.type = col.type)
    (hv : c.value.type ∈ codecTypes) (hs : c.value.type ≠ .string) :
    ∃ bitmap, col.setExprValue c = .ok { col with
      nullBitmap := bitmap
      data := write col.data (col.cellAt c.rowIdx) (cellBytes 0 c.value) } := by
  obtain ⟨bitmap, hclear⟩ :=
    @clearNull_eq col _ (Nat.lt_of_lt_of_le hr hcap)
  obtain ⟨hcell, hbuffer⟩ := cell_in_buffer hcap hr
  have hset : col.setExprValue c = (do
      let col ← col.clearNull c.rowIdx
      col.store (col.cellAt c.rowIdx) (cellBytes 0 c.value)) := by
    rw [setExprValue]
    cases hval : c.value with
    | int8 | uint8 | int32 | uint32 | int64 | uint64 => rfl
    | string s => exact absurd (congrArg ExprValue.type hval) hs
    | null | minInf | maxInf | invalid | bool =>
        rw [hval] at hv
        simp [ExprValue.type, codecTypes] at hv
  refine ⟨bitmap, ?_⟩
  rw [hset, hclear, Exec.bind_ok, store, if_pos]
  · rfl
  · rw [length_cellBytes 0 hv, ht]
    exact hcell.symm ▸ hbuffer

/-- The getter reads a number in its cell. -/
theorem get?_number (hcap : col.capacity ≤ 1024) (hr : r < col.capacity)
    (ht : v.type = col.type) (hs : v.type ≠ .string)
    (hcell : col.cellBytesAt r = cellBytes 0 v) :
    ∀ got ∈ col.get? r, got = .ok v := by
  obtain ⟨hat, hbuffer⟩ := cell_in_buffer hcap hr
  have hload : col.load (col.cellAt r) (typeSize col.type)
      = .ok (cellBytes 0 v) := by
    rw [load, if_pos (hat.symm ▸ hbuffer), ← hcell]
    rfl
  rw [← ht] at hload
  intro got hgot
  rw [get?, ← ht] at hgot
  cases v with
  | int8 u =>
      obtain rfl := Option.mem_some.mp hgot
      have hn : getNumber 1 col r = .ok (ofLittleEndian
          (littleEndian 1 u.toNat)) := congrArg (· >>= _) hload
      rw [getInt8, hn, Exec.bind_ok, Exec.bind_ok, ofNat_word u rfl]
  | uint8 u =>
      obtain rfl := Option.mem_some.mp hgot
      have hn : getNumber 1 col r = .ok (ofLittleEndian
          (littleEndian 1 u.toNat)) := congrArg (· >>= _) hload
      rw [getUInt8, hn, Exec.bind_ok, Exec.bind_ok, ofNat_word u rfl]
  | uint64 u =>
      obtain rfl := Option.mem_some.mp hgot
      have hn : getNumber 8 col r = .ok (ofLittleEndian
          (littleEndian 8 u.toNat)) := congrArg (· >>= _) hload
      rw [getUInt64, hn, Exec.bind_ok, Exec.bind_ok, ofNat_word u rfl]
  | string s => exact absurd rfl hs
  | null | minInf | maxInf | invalid | bool | int32 | uint32 | int64 =>
      cases hgot

end Number

/-- Calls one after another. -/
theorem setAll_append (col : Column) (calls calls' : List ColumnCall) :
    col.setAll (calls ++ calls')
      = col.setAll calls >>= fun col => col.setAll calls' := by
  induction calls generalizing col with
  | nil => rfl
  | cons c calls ih =>
      rw [List.cons_append, setAll, setAll]
      cases col.setExprValue c with
      | error e => rfl
      | ok col₁ => exact ih col₁

end Column

/-- The last call on a row decides. -/
theorem lastSet_append (calls : List ColumnCall) (c : ColumnCall) (r : Nat) :
    lastSet (calls ++ [c]) r
      = if c.rowIdx = r then some c.value else lastSet calls r := by
  rw [lastSet, lastSet, List.filter_append]
  split_ifs with h
  · simp [h]
  · simp [h]

/-- What was set last was set by some call. -/
theorem exists_of_lastSet {calls : List ColumnCall} {r : Nat} {v : ExprValue}
    (h : lastSet calls r = some v) :
    ∃ c ∈ calls, c.rowIdx = r ∧ c.value = v := by
  obtain ⟨c, hc, rfl⟩ := Option.map_eq_some_iff.mp h
  obtain ⟨hmem, hr⟩ := List.mem_filter.mp (List.mem_of_getLast? hc)
  exact ⟨c, hmem, of_decide_eq_true hr, rfl⟩

/-- Calls of the column's own type at rows below the capacity. -/
def TypedCalls (type : ExprValueType) (capacity : Nat)
    (calls : List ColumnCall) : Prop :=
  ∀ c ∈ calls, c.rowIdx < capacity ∧ c.value.type = type

section KeepsValues

variable {type : ExprValueType} {capacity : Nat} {calls : List ColumnCall}

/-- After every sequence of numbers each cell holds the last one. -/
theorem setAll_numbers (contents : Mem) (hcap : capacity ≤ 1024)
    (hv : type ∈ codecTypes) (hs : type ≠ .string)
    (hcalls : TypedCalls type capacity calls) :
    ∃ col, (Column.new type capacity contents).setAll calls = .ok col
      ∧ col.type = type ∧ col.capacity = capacity
      ∧ ∀ r v, lastSet calls r = some v →
        col.cellBytesAt r = cellBytes 0 v := by
  induction calls using List.reverseRecOn with
  | nil =>
      refine ⟨_, rfl, rfl, rfl, ?_⟩
      intro r v h
      cases h
  | append_singleton calls c ih =>
      have hbefore : TypedCalls type capacity calls :=
        fun x hx => hcalls x (List.mem_append_left _ hx)
      obtain ⟨hr, ht⟩ := hcalls c (List.mem_append_right _ List.mem_cons_self)
      obtain ⟨col, hall, rfl, rfl, hcells⟩ := ih hbefore
      obtain ⟨bitmap, hset⟩ := Column.setExprValue_number hcap hr ht
        (ht ▸ hv) (ht ▸ hs)
      refine ⟨{ col with
        nullBitmap := bitmap
        data := write col.data (col.cellAt c.rowIdx) (cellBytes 0 c.value) },
        ?_, rfl, rfl, ?_⟩
      · rw [Column.setAll_append, hall, Exec.bind_ok, Column.setAll, hset]
        rfl
      · intro r v hlast
        rw [lastSet_append] at hlast
        have hlen := length_cellBytes 0 (ht ▸ hv)
        rw [ht] at hlen
        split_ifs at hlast with heq
        · obtain rfl := Option.some.inj hlast
          rw [← heq, Column.cellBytesAt]
          show read (write _ (col.cellAt c.rowIdx) _) (col.cellAt c.rowIdx)
            (typeSize col.type) = _
          rw [← hlen, read_write_self]
        · obtain ⟨c', hc', rfl, -⟩ := exists_of_lastSet hlast
          rw [← hcells _ v hlast]
          refine read_write_outside ?_
          rw [hlen]
          exact Column.cells_apart hcap (hbefore c' hc').1 hr
            (fun h => heq h.symm)

/-- Numbers are kept whatever the calls are. -/
theorem keepsValues_number (hcap : capacity ≤ 1024) (hv : type ∈ codecTypes)
    (hs : type ≠ .string) (hcalls : TypedCalls type capacity calls) :
    KeepsValues type capacity calls := by
  rintro contents before after rfl
  have hbefore : TypedCalls type capacity before :=
    fun x hx => hcalls x (List.mem_append_left _ hx)
  obtain ⟨col, hall, rfl, rfl, hcells⟩ :=
    setAll_numbers contents hcap hv hs hbefore
  refine ⟨col, hall, ?_, ?_⟩
  · intro r v hlast
    obtain ⟨c, hc, rfl, rfl⟩ := exists_of_lastSet hlast
    obtain ⟨hr, ht⟩ := hbefore c hc
    exact Column.get?_number hcap hr ht (ht ▸ hs) (hcells _ _ hlast)
  · rintro c rest rfl
    obtain ⟨hr, ht⟩ := hcalls c (List.mem_append_right _ List.mem_cons_self)
    obtain ⟨bitmap, hset⟩ := Column.setExprValue_number hcap hr ht
      (ht ▸ hv) (ht ▸ hs)
    refine ⟨_, hset, ?_⟩
    intro r hr' hne
    refine read_write_outside ?_
    rw [length_cellBytes 0 (ht ▸ hv), ht]
    exact Column.cells_apart hcap hr' hr hne

/-! ## Strings -/

/-- What `SetString` writes. -/
theorem setString_eq_ok {col col' : Column} {r : Nat} {s : Bytes}
    (h : col.setString r s = .ok col') : ∃ first,
      s.head? = some first ∧ 0 < s.length % 2 ^ 32
        ∧ col'.type = col.type
        ∧ col'.data = write
          (write col.data (col.cellAt r) (littleEndian 4 (s.length % 2 ^ 32)))
          (col.cellAt r + s.length % 2 ^ 32) [first] := by
  have hstore : ∀ {col col' : Column} {a : Nat} {bs : Bytes},
      col.store a bs = .ok col' →
        col' = { col with data := write col.data a bs } := by
    intro col col' a bs hst
    rw [Column.store] at hst
    split_ifs at hst
    exact (Except.ok.inj hst).symm
  obtain ⟨col₁, hclear, h⟩ := Exec.bind_eq_ok.mp h
  rw [Column.clearNull] at hclear
  split_ifs at hclear
  obtain rfl := Except.ok.inj hclear
  obtain ⟨col₂, hlen, h⟩ := Exec.bind_eq_ok.mp h
  obtain rfl := hstore hlen
  split at h
  · cases h
  · next first hfirst =>
      obtain rfl := hstore h
      rw [List.head?_take] at hfirst
      split_ifs at hfirst with hzero
      exact ⟨first, hfirst, Nat.pos_of_ne_zero hzero, rfl, rfl⟩

/-- A string that `GetString` returns lies behind the length. -/
theorem getString_eq_ok {col : Column} {r : Nat} {s : Bytes}
    (h : col.getString r = .ok s) :
    ∀ i < s.length, s[i]? = some (col.data (col.cellAt r + 4 + i)) := by
  obtain ⟨n, -, h⟩ := Exec.bind_eq_ok.mp h
  rw [Column.load] at h
  split_ifs at h
  obtain rfl := Except.ok.inj h
  intro i hi
  rw [length_read] at hi
  exact getElem?_read hi

theorem succ_ne_self (b : Byte) : b + 1 ≠ b := by
  intro h
  have := congrArg Fin.val h
  rw [Fin.val_add] at this
  have hb := b.isLt
  have hone : (1 : Byte).val = 1 := rfl
  omega

/-- The first string set is not read back, where the cell held other bytes. -/
theorem not_keepsValues_string {c : ColumnCall}
    (hv : c.value.type = .string) :
    ¬ KeepsValues .string capacity (c :: calls) := by
  intro h
  obtain ⟨r, v⟩ := c
  obtain ⟨s, rfl⟩ := ExprValue.exists_string hv
  -- the bytes behind the length are not the string's
  obtain ⟨a, ha⟩ : ∃ a, a = r * typeSize .string % 2 ^ 32 := ⟨_, rfl⟩
  obtain ⟨contents, hfirst', hsecond'⟩ : ∃ contents : Mem,
      contents (a + 4) = s.getD 0 0 + 1
        ∧ contents (a + 5) = s.getD 1 0 + 1 := by
    refine ⟨fun x => if x = a + 4 then s.getD 0 0 + 1 else s.getD 1 0 + 1,
      if_pos rfl, if_neg (by omega)⟩
  obtain ⟨col, hset, hget, -⟩ := h contents [⟨r, .string s⟩] calls rfl
  obtain ⟨col₁, hcall, hset⟩ := Exec.bind_eq_ok.mp hset
  obtain rfl := Except.ok.inj hset
  obtain ⟨first, hfirst, hpos, htype, hdata⟩ := setString_eq_ok hcall
  have hgot : col₁.getString r = .ok s := by
    have hstring := hget r (.string s) (by simp [lastSet])
      (do
        let s ← col₁.getString r
        .ok (.string s)) ?_
    · obtain ⟨s', hs', heq⟩ := Exec.bind_eq_ok.mp hstring
      rw [hs', ExprValue.string.inj (Except.ok.inj heq)]
    · rw [Column.get?, htype]
      rfl
  have hat : col₁.cellAt r = a := by
    rw [Column.cellAt, htype, ha]
    rfl
  have hat' : (Column.new .string capacity contents).cellAt r = a := ha.symm
  have hchars := getString_eq_ok hgot
  rw [hat] at hchars
  rw [hat'] at hdata
  have hle : s.length % 2 ^ 32 ≤ s.length := Nat.mod_le _ _
  have hkept : ∀ k, 4 ≤ k → k ≠ s.length % 2 ^ 32 →
      col₁.data (a + k) = contents (a + k) := by
    intro k hk hne
    rw [hdata, write_outside, write_outside]
    · rfl
    · rw [length_littleEndian]
      omega
    · rw [List.length_singleton]
      omega
  have hlost : ∀ i < s.length, contents (a + 4 + i) = s.getD i 0 + 1 →
      i + 4 = s.length % 2 ^ 32 := by
    intro i hi hcontents
    by_contra hne
    have hchar := hchars i hi
    rw [Nat.add_assoc, hkept (4 + i) (by omega) (by omega), ← Nat.add_assoc,
      hcontents] at hchar
    exact succ_ne_self _ (congrArg (·.getD 0) hchar).symm
  have hzero := hlost 0 (by omega) hfirst'
  have hone := hlost 1 (by omega) hsecond'
  omega

/-- A column keeps what is set in it just when it has no strings, or nothing is
    set. -/
theorem keepsValues_iff (hcap : capacity ≤ 1024) (hv : type ∈ codecTypes)
    (hcalls : TypedCalls type capacity calls) :
    KeepsValues type capacity calls ↔ type ≠ .string ∨ calls = [] := by
  constructor
  · intro h
    by_contra hnot
    obtain ⟨hs, hne⟩ := not_or.mp hnot
    obtain rfl := not_not.mp hs
    cases calls with
    | nil => exact hne rfl
    | cons c calls =>
        exact not_keepsValues_string (hcalls c List.mem_cons_self).2 h
  · rintro (hs | rfl)
    · exact keepsValues_number hcap hv hs hcalls
    · rintro contents before after hnil
      obtain ⟨rfl, rfl⟩ := List.append_eq_nil_iff.mp hnil.symm
      refine ⟨_, rfl, ?_, ?_⟩
      · intro r v hlast
        cases hlast
      · intro c rest hrest
        cases hrest

/-- Two rows of bytes. -/
theorem keepsValues_iff_bytes :
    KeepsValues .uint8 5 [⟨0, .uint8 100⟩, ⟨1, .uint8 99⟩] := by
  refine (@keepsValues_iff .uint8 5 [⟨0, .uint8 100⟩, ⟨1, .uint8 99⟩]
    (by decide) (by decide) ?_).mpr (Or.inl (by decide))
  intro c hc
  rcases List.mem_cons.mp hc with rfl | hc
  · exact ⟨by decide, rfl⟩
  · obtain rfl := List.mem_singleton.mp hc
    exact ⟨by decide, rfl⟩

end KeepsValues

/-- "hello" in a buffer of zeros is read as four zeros around its `h`. -/
theorem hello_is_not_kept :
    (do
      let col ← (Column.new .string 5 (fun _ => 0)).setString 0
        [104, 101, 108, 108, 111]
      col.getString 0) = .ok [0, 104, 0, 0, 0]
      ∧ ¬ KeepsValues .string 5 [⟨0, .string [104, 101, 108, 108, 111]⟩] :=
  ⟨by decide +kernel, not_keepsValues_string rfl⟩

end AmDb.Chunk
