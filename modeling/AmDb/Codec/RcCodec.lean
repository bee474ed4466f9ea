import AmDb.Chunk.Row
import AmDb.Codec.SchemaCodec
import AmDb.Codec.ValueCodec

/-! # Index keys and row records

    `sql/codec/rc_codec.cc`: `EncodeIndex` and `EncodeRow` write a row's
    columns behind their type bytes; `DecodeRow` walks a record with a running
    offset, `DecodeIndex` reads each column of a key from its start.  The
    decoders' result is the list of their `SetColValue` calls. -/

namespace AmDb.Codec

open PrefixCode AmDb.Expr Schema Chunk

/-- A loop of `encode(&col_info)`. -/
def encodeColumns (row : Row) : List ColumnInfo → Bytes → Exec Bytes
  | [], key => .ok key
  | c :: cs, key => do
      let colKey ← row.getColValue c.id
      let key := (encodeUInt8 colKey.type.val key).2
      encodeColumns row cs (encodeExprValue colKey key).2

/-- `EncodeIndex`: key and value. -/
def encodeIndex (table : TableInfo) (index : IndexInfo) (row : Row)
    (key : Bytes) : Exec (Bytes × Bytes) :=
  match table.primary with
  | none => .error .undefined
  | some primary => do
      let key ← if primary.type ≠ index.type then
          encodeColumns row index.columns key
        else .ok key
      let key ← encodeColumns row primary.columns key
      return (key, [])

/-- The rendered primary-key columns of `EncodeRow`. -/
def colKeys (row : Row) : List ColumnInfo → Exec (List Bytes)
  | [] => .ok []
  | c :: cs => do
      let v ← row.getColValue c.id
      let keys ← colKeys row cs
      return v.toString :: keys

/-- `EncodeRow`: key and value. -/
def encodeRow (table : TableInfo) (row : Row) (key value : Bytes) :
    Exec (Bytes × Bytes) :=
  match table.primary with
  | none => .error .undefined
  | some primary => do
      let keys ← colKeys row primary.columns
      let value ← encodeColumns row table.columnList value
      return (encodeDataKeys table.dbId table.id keys key, value)

/-- `tmp.assign(s.data() + offset, n)`. -/
def readDataAt (s : Bytes) (offset n : Nat) : Exec Bytes :=
  if offset + n ≤ s.length + 1 then .ok (((s ++ [0]).drop offset).take n)
  else .error .undefined

/-- `tmp.assign(s.data() + offset, s.length() - offset)`: a length that wraps
    around is longer than any string. -/
def readRest (s : Bytes) (offset : Nat) : Exec Bytes :=
  if offset ≤ s.length then readDataAt s offset (s.length - offset)
  else .error .undefined

/-- `offset += n`: for a string that is cut off `n` is the -1 of `DecodeBytes`,
    and the sum wraps around. -/
def addSize (offset n : Nat) : Nat :=
  if n = 2 ^ 64 - 1 then offset - 1 else offset + n

/-- The loop of `DecodeRow`: the calls and the offset it ends at. -/
def decodeColumns (value : Bytes) :
    List ColumnInfo → Nat → Exec (List (Nat × ExprValue) × Nat)
  | [], offset => .ok ([], offset)
  | c :: cs, offset => do
      let tmp ← readDataAt value offset 1
      let (n, type) ← decodeUInt8 tmp
      let offset := offset + n
      let tmp ← readRest value offset
      let (n, v) ← decodeExprValue (.ofVal type) tmp
      let (calls, last) ← decodeColumns value cs (addSize offset n)
      return ((c.id, v) :: calls, last)

/-- `DecodeRow`. -/
def decodeRow (table : TableInfo) (value : Bytes) :
    Exec (List (Nat × ExprValue) × Nat) :=
  decodeColumns value table.columnList 0

/-- `decode(&col_info)`: `offset` starts at 0 for every column, and the window
    is as long as the type takes in a tuple. -/
def decodeColumn (key : Bytes) (c : ColumnInfo) : Exec (Nat × ExprValue) := do
  let tmp ← readDataAt key 0 1
  let (offset, type) ← decodeUInt8 tmp
  let exprValue := ExprValue.newEmpty (.ofVal type)
  let tmp ← readDataAt key offset (typeSize exprValue.type)
  let (_, v) ← decodeExprValue exprValue.type tmp
  return (c.id, v)

/-- `DecodeIndex`. -/
def decodeIndex (table : TableInfo) (index : IndexInfo) (key : Bytes) :
    Exec (List (Nat × ExprValue)) :=
  match table.primary with
  | none => .error .undefined
  | some primary => do
      let calls ← if primary.type ≠ index.type then
          index.columns.mapM (decodeColumn key)
        else .ok []
      let calls' ← primary.columns.mapM (decodeColumn key)
      return calls ++ calls'

/-! ## What the encoders write -/

/-- The columns of an index key. -/
def keyColumns (primary index : IndexInfo) : List ColumnInfo :=
  if primary.type ≠ index.type then index.columns ++ primary.columns
  else primary.columns

/-- The values of some columns, each behind its type byte. -/
def columnsCode (row : Row) (cols : List ColumnInfo) : Bytes :=
  (cols.map row.value).flatMap taggedCode

section Encoders

variable {row : Row} {types : List ExprValueType} {cols : List ColumnInfo}

theorem columnsCode_append (row : Row) (cs cs' : List ColumnInfo) :
    columnsCode row (cs ++ cs') = columnsCode row cs ++ columnsCode row cs' := by
  rw [columnsCode, List.map_append, List.flatMap_append, ← columnsCode,
    ← columnsCode]

theorem columnsCode_cons (row : Row) (c : ColumnInfo)
    (cs : List ColumnInfo) : columnsCode row (c :: cs)
      = taggedCode (row.value c) ++ columnsCode row cs := rfl

/-- The loop over the columns appends their codes. -/
theorem encodeColumns_eq (h : row.Has types cols) (key : Bytes) :
    encodeColumns row cols key = .ok (key ++ columnsCode row cols) := by
  induction cols generalizing key with
  | nil => exact congrArg Except.ok (List.append_nil key).symm
  | cons c cs ih =>
      obtain ⟨hget, -⟩ := h.spec List.mem_cons_self
      rw [encodeColumns, hget, Exec.bind_ok]
      show encodeColumns row cs (encodeExprValue (row.value c)
        (encodeUInt8 (row.value c).type.val key).2).2 = _
      rw [encodeTagged,
        ih (h.mono (fun _ ht => ht) (fun _ hc => List.mem_cons_of_mem _ hc)),
        columnsCode_cons, List.append_assoc]

/-- The parts of a data key are the values as text. -/
theorem colKeys_eq (h : row.Has types cols) :
    colKeys row cols = .ok (cols.map (fun c => (row.value c).toString)) := by
  induction cols with
  | nil => rfl
  | cons c cs ih =>
      obtain ⟨hget, -⟩ := h.spec List.mem_cons_self
      rw [colKeys, hget, Exec.bind_ok,
        ih (h.mono (fun _ ht => ht) (fun _ hc => List.mem_cons_of_mem _ hc))]
      rfl

/-- The values read from encodable columns are encodable. -/
theorem encodable_of_has (h : row.Has codecTypes cols) :
    ∀ v ∈ cols.map row.value, Encodable v := by
  intro v hv
  obtain ⟨c, hc, rfl⟩ := List.mem_map.mp hv
  exact (h.spec hc).2.2

end Encoders

section Index

variable {table : TableInfo} {primary index : IndexInfo} {row : Row}
  {types : List ExprValueType}

/-- The primary key is in every index key. -/
theorem primary_mem_keyColumns {c : ColumnInfo} (hc : c ∈ primary.columns) :
    c ∈ keyColumns primary index := by
  unfold keyColumns
  split_ifs
  · exact List.mem_append_right _ hc
  · exact hc

/-- An index key has columns of the index and of the primary key only. -/
theorem mem_of_mem_keyColumns {c : ColumnInfo}
    (hc : c ∈ keyColumns primary index) :
    c ∈ index.columns ++ primary.columns := by
  unfold keyColumns at hc
  split_ifs at hc
  · exact hc
  · exact List.mem_append_right _ hc

/-- `EncodeIndex`: the codes of the key's columns. -/
theorem encodeIndex_eq (hp : table.primary = some primary)
    (h : row.Has types (keyColumns primary index)) :
    encodeIndex table index row []
      = .ok (columnsCode row (keyColumns primary index), []) := by
  rw [encodeIndex, hp]
  have hprim := h.mono (fun _ ht => ht) (fun c => primary_mem_keyColumns)
  unfold keyColumns at h ⊢
  simp only
  split_ifs at h ⊢ with ht
  · have hindex := h.mono (fun _ ht => ht)
      (fun c => List.mem_append_left primary.columns)
    rw [encodeColumns_eq hindex, Exec.bind_ok, encodeColumns_eq hprim,
      List.nil_append, ← columnsCode_append]
    rfl
  · rw [Exec.bind_ok, encodeColumns_eq hprim, List.nil_append]
    rfl

/-- The key a row's record is stored under. -/
def rowKey (table : TableInfo) (primary : IndexInfo) (row : Row) : Bytes :=
  encodeDataKeys table.dbId table.id
    (primary.columns.map (fun c => (row.value c).toString)) []

/-- The key of a record, whatever its other columns are. -/
theorem encodeRow_key {key value : Bytes} (hp : table.primary = some primary)
    (hprim : row.Has types primary.columns)
    (h : encodeRow table row [] [] = .ok (key, value)) :
    key = rowKey table primary row := by
  rw [encodeRow, hp] at h
  simp only [colKeys_eq hprim, Exec.bind_ok] at h
  obtain ⟨v, -, hv⟩ := Exec.bind_eq_ok.mp h
  exact (Prod.mk.inj (Except.ok.inj hv)).1.symm

end Index

/-! ## A table of two columns

    `users`, with an `Int64` primary key and an index on a `String` column, is
    what the instances below are about. -/

def idColumn : ColumnInfo := { id := 0, type := { type := .longlong } }

def nameColumn : ColumnInfo := { id := 1, type := { type := .string } }

def usersById : IndexInfo :=
  { id := 0, columns := [idColumn], type := .primary }

def usersByName : IndexInfo :=
  { id := 1, columns := [nameColumn], type := .index }

def users : TableInfo :=
  { id := 7, dbId := 1, columnList := [idColumn, nameColumn],
    indexList := [usersById, usersByName], primaryIndex := some 0 }

/-- A row of `users` with a name of one byte. -/
def user (id : BitVec 64) (initial : Byte) : Row :=
  .ofValues [.int64 id, .string [initial]] (by simp [ExprValue.Bounded])

/-! ## A table of two primary keys

    `CREATE TABLE points (x BIGINT, y BIGINT, PRIMARY KEY (x), PRIMARY KEY (y))`:
    the table's primary index is the last. -/

def xColumn : ColumnInfo := { id := 0, type := { type := .longlong } }

def yColumn : ColumnInfo := { id := 1, type := { type := .longlong } }

def pointsByX : IndexInfo := { id := 0, columns := [xColumn], type := .primary }

def pointsByY : IndexInfo := { id := 1, columns := [yColumn], type := .primary }

def points : TableInfo :=
  { id := 8, dbId := 1, columnList := [xColumn, yColumn],
    indexList := [pointsByX, pointsByY], primaryIndex := some 1 }

theorem bounded_point (x y : BitVec 64) :
    ∀ v ∈ [ExprValue.int64 x, .int64 y], v.Bounded := by
  simp [ExprValue.Bounded]

/-- A row of `points`. -/
def point (x y : BitVec 64) : Row :=
  .ofValues [.int64 x, .int64 y] (bounded_point x y)

end AmDb.Codec
