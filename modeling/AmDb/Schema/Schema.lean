import AmDb.Common.Status
import AmDb.Foundation.WireFormat
import Mathlib.Data.List.Nodup

/-! # Schema records

    `sql/schema/schema.h`, `schema.cc` and `proto/schema.proto`: what a table
    is, and what of it `Serialize` hands to the store and `Deserialize` takes
    back.  The class `protoc` makes of `TableProto` is `TableCodec`. -/

namespace AmDb.Schema

/-- `parser::MysqlType`. -/
inductive MysqlType where
  | decimal | tiny | short | long | float | double | null | timestamp
  | longlong | int24 | date | time | datetime | year | newdate | varchar | bit
  | timestamp2 | datetime2 | time2 | tdigest | bitmap | hll | json
  | newdecimal | enum | set | tinyBlob | mediumBlob | longBlob | blob
  | varString | string | geometry
  deriving DecidableEq, Repr

/-- `parser::CharacterSet`. -/
inductive CharacterSet where
  | ascii | utf8 | gbk | latin1 | binary | null
  deriving DecidableEq, Repr

/-- `ColumnType`.  A fresh element of a vector starts as zero, but for the
    members with an initializer. -/
structure ColumnType where
  type    : MysqlType := .decimal
  charset : CharacterSet := .null
  deriving DecidableEq

/-- `parser::ConstraintType`. -/
inductive ConstraintType where
  | none | primary | index | uniq | foreignKey | fulltext
  deriving DecidableEq, Repr

/-- The enumerators start at 0. -/
def ConstraintType.val : ConstraintType → Nat
  | .none => 0
  | .primary => 1
  | .index => 2
  | .uniq => 3
  | .foreignKey => 4
  | .fulltext => 5

/-- The cast from the number of a message to an enumeration of one byte.
    `Serialize` writes only named numbers; the others are never asked for. -/
def ConstraintType.ofVal (n : Nat) : ConstraintType :=
  match n % 256 with
  | 1 => .primary
  | 2 => .index
  | 3 => .uniq
  | 4 => .foreignKey
  | 5 => .fulltext
  | _ => .none

@[simp] theorem ConstraintType.ofVal_val (c : ConstraintType) :
    ofVal c.val = c := by
  cases c <;> rfl

structure ColumnInfo where
  id        : Nat := 2 ^ 64 - 1
  tableId   : Nat := 2 ^ 64 - 1
  name      : Bytes := []
  tableName : Bytes := []
  type      : ColumnType := {}
  comment   : Bytes := []
  deriving DecidableEq

structure IndexInfo where
  id            : Nat := 2 ^ 32 - 1
  tableId       : Nat := 2 ^ 64 - 1
  name          : Bytes := []
  tableName     : Bytes := []
  columns       : List ColumnInfo := []
  rootNodeId    : Nat := 0
  maxTreeNodeId : Nat := 0
  type          : ConstraintType := .none
  comment       : Bytes := []
  deriving DecidableEq

/-- `primaryIndex` is the position in `indexList` of the element
    `primary_index` points to. -/
structure TableInfo where
  id           : Nat := 2 ^ 64 - 1
  dbId         : Nat := 2 ^ 64 - 1
  name         : Bytes := []
  dbName       : Bytes := []
  columnList   : List ColumnInfo := []
  indexList    : List IndexInfo := []
  primaryIndex : Option Nat := none
  createTs     : Nat := 0
  updateTs     : Nat := 0
  deriving DecidableEq

/-- `tableIds` lists the set in the order of its iteration. -/
structure DatabaseInfo where
  id       : Nat := 2 ^ 64 - 1
  name     : Bytes := []
  tableIds : List Nat := []
  createTs : Nat := 0
  updateTs : Nat := 0
  comment  : Bytes := []
  deriving DecidableEq

/-- `*primary_index`. -/
def TableInfo.primary (table : TableInfo) : Option IndexInfo :=
  table.primaryIndex.bind (fun i => table.indexList[i]?)

/-! ## Messages -/

structure ColumnProto where
  id        : Nat
  name      : Bytes
  tableId   : Nat
  tableName : Bytes
  comment   : Bytes
  deriving DecidableEq

structure IndexProto where
  id            : Nat
  name          : Bytes
  tableId       : Nat
  tableName     : Bytes
  columns       : List ColumnProto
  type          : Nat
  comment       : Bytes
  rootNodeId    : Nat
  maxTreeNodeId : Nat
  deriving DecidableEq

structure DatabaseProto where
  id       : Nat
  name     : Bytes
  tableIds : List Nat
  createTs : Nat
  updateTs : Nat
  comment  : Bytes
  deriving DecidableEq

structure TableProto where
  id           : Nat
  name         : Bytes
  databaseId   : Nat
  databaseName : Bytes
  columns      : List ColumnProto
  colIndex     : List IndexProto
  createTs     : Nat
  updateTs     : Nat
  deriving DecidableEq

/-- `ColumnInfo::Serialize`: the type is not among the fields set. -/
def ColumnInfo.serialize (c : ColumnInfo) : ColumnProto :=
  { id := c.id, name := c.name, tableId := c.tableId,
    tableName := c.tableName, comment := c.comment }

/-- `ColumnInfo::Deserialize` into a fresh element. -/
def ColumnInfo.deserialize (input : ColumnProto) : ColumnInfo :=
  { id := input.id, name := input.name, tableId := input.tableId,
    tableName := input.tableName, comment := input.comment }

/-- `IndexInfo::Serialize`. -/
def IndexInfo.serialize (index : IndexInfo) : IndexProto :=
  { id := index.id, name := index.name, tableId := index.tableId,
    tableName := index.tableName,
    columns := index.columns.map ColumnInfo.serialize,
    type := index.type.val, comment := index.comment,
    rootNodeId := index.rootNodeId, maxTreeNodeId := index.maxTreeNodeId }

/-- `IndexInfo::Deserialize` into a fresh element. -/
def IndexInfo.deserialize (input : IndexProto) : IndexInfo :=
  { id := input.id, tableId := input.tableId, name := input.name,
    tableName := input.tableName,
    columns := input.columns.map ColumnInfo.deserialize,
    rootNodeId := input.rootNodeId, maxTreeNodeId := input.maxTreeNodeId,
    type := .ofVal input.type, comment := input.comment }

/-- `TableInfo::Serialize`. -/
def TableInfo.serialize (table : TableInfo) : TableProto :=
  { id := table.id, name := table.name, databaseId := table.dbId,
    databaseName := table.dbName,
    columns := table.columnList.map ColumnInfo.serialize,
    colIndex := table.indexList.map IndexInfo.serialize,
    createTs := table.createTs, updateTs := table.updateTs }

/-- The position `primary_index` is left at by the loop over the indexes, of
    which the first is at position `i`. -/
def lastPrimary : Nat → Option Nat → List IndexInfo → Option Nat
  | _, primary, [] => primary
  | i, primary, index :: indexes =>
      lastPrimary (i + 1)
        (if index.type = .primary then some i else primary) indexes

/-- `TableInfo::Deserialize` into a fresh object. -/
def TableInfo.deserialize (input : TableProto) : TableInfo :=
  let indexList := input.colIndex.map IndexInfo.deserialize
  { id := input.id, dbId := input.databaseId, name := input.name,
    dbName := input.databaseName,
    columnList := input.columns.map ColumnInfo.deserialize,
    indexList, primaryIndex := lastPrimary 0 none indexList,
    createTs := input.createTs, updateTs := input.updateTs }

/-- `DatabaseInfo::Serialize`. -/
def DatabaseInfo.serialize (db : DatabaseInfo) : DatabaseProto :=
  { id := db.id, name := db.name, createTs := db.createTs,
    updateTs := db.updateTs, comment := db.comment, tableIds := db.tableIds }

/-- `DatabaseInfo::Deserialize` into a fresh object. -/
def DatabaseInfo.deserialize (input : DatabaseProto) : DatabaseInfo :=
  { id := input.id, name := input.name, createTs := input.createTs,
    updateTs := input.updateTs, comment := input.comment,
    tableIds := input.tableIds.foldl (fun ids id => ids.insert id) [] }

/-- What the store keeps of a column. -/
def ColumnInfo.persisted (c : ColumnInfo) : ColumnInfo :=
  { c with type := {} }

/-- What the store keeps of an index. -/
def IndexInfo.persisted (index : IndexInfo) : IndexInfo :=
  { index with columns := index.columns.map ColumnInfo.persisted }

@[simp] theorem ColumnInfo.deserialize_serialize (c : ColumnInfo) :
    deserialize c.serialize = c.persisted := rfl

@[simp] theorem IndexInfo.deserialize_serialize (index : IndexInfo) :
    deserialize index.serialize = index.persisted := by
  simp [deserialize, serialize, persisted, List.map_map, Function.comp_def]

/-- A table comes back with its indexes, each with the root id and the id
    counter it was written with, and without the types of its columns. -/
theorem TableInfo.deserialize_serialize (table : TableInfo) :
    deserialize table.serialize
      = { table with
          columnList := table.columnList.map ColumnInfo.persisted
          indexList := table.indexList.map IndexInfo.persisted
          primaryIndex := lastPrimary 0 none
            (table.indexList.map IndexInfo.persisted) } := by
  simp [deserialize, serialize, List.map_map, Function.comp_def]

/-- Without a primary key among the indexes the pointer stays. -/
theorem lastPrimary_of_none {l : List IndexInfo}
    (h : ∀ index ∈ l, index.type ≠ .primary) (i : Nat)
    (primary : Option Nat) : lastPrimary i primary l = primary := by
  induction l generalizing i with
  | nil => rfl
  | cons index l ih =>
      rw [lastPrimary, if_neg (h index List.mem_cons_self),
        ih (fun x hx => h x (List.mem_cons_of_mem _ hx))]

/-- Ids inserted one after another: a set of just these. -/
theorem mem_foldl_insert {ids acc : List Nat} {id : Nat} :
    id ∈ ids.foldl (fun l i => l.insert i) acc ↔ id ∈ ids ∨ id ∈ acc := by
  induction ids generalizing acc with
  | nil => simp
  | cons i ids ih =>
      rw [List.foldl_cons, ih, List.mem_insert_iff, List.mem_cons]
      tauto

/-- A database comes back with the same set of tables. -/
theorem DatabaseInfo.mem_deserialize_serialize (db : DatabaseInfo) (id : Nat) :
    id ∈ (deserialize db.serialize).tableIds ↔ id ∈ db.tableIds := by
  show id ∈ db.tableIds.foldl _ [] ↔ _
  rw [mem_foldl_insert]
  simp

/-- A generated message class.  A message fits when its strings are UTF-8 and
    it takes at most `INT_MAX` bytes. -/
structure SchemaCodec (M : Type) where
  fits              : M → Prop
  serializeAsString : M → Bytes
  parseFromString   : Bytes → Option M
  parse_serialize   : ∀ m, fits m →
    parseFromString (serializeAsString m) = some m

/-- The generated classes of `schema.proto`. -/
structure SchemaProtobuf where
  database : SchemaCodec DatabaseProto
  table    : SchemaCodec TableProto

/-- Every message fits. -/
structure SchemaProtobuf.Faithful (pb : SchemaProtobuf) : Prop where
  database : ∀ m, pb.database.fits m
  table    : ∀ m, pb.table.fits m

/-! ## The wire format of the messages -/

open WireFormat

/-- An optional field that is always set. -/
def setBytesField (i : Nat) (s : Bytes) : List Field := [⟨i, .bytes s⟩]

@[simp] theorem strings_setBytesField_self (i : Nat) (s : Bytes) :
    strings i (setBytesField i s) = [s] := by
  simp [setBytesField, strings]

@[simp] theorem strings_setBytesField_ne {i j : Nat} (s : Bytes)
    (h : j ≠ i) : strings i (setBytesField j s) = [] := by
  simp [setBytesField, strings, h]

@[simp] theorem numbers_setBytesField (i j : Nat) (s : Bytes) :
    numbers i (setBytesField j s) = [] := rfl

@[simp] theorem strings_map_bytes_ne {i j : Nat} (l : List Bytes)
    (h : j ≠ i) : strings i (l.map (fun s => ⟨j, .bytes s⟩)) = [] := by
  simp [strings, h]

def columnMessage : Message ColumnProto where
  fields m := numField 1 m.id ++ (bytesField 2 m.name ++ (numField 3 m.tableId
    ++ (bytesField 4 m.tableName ++ setBytesField 7 m.comment)))
  ofFields fs := some ⟨getNum 1 fs, getBytes 2 fs, getNum 3 fs, getBytes 4 fs,
    getBytes 7 fs⟩
  round_trip m := by simp [getBytes, getNum]

def indexMessage : Message IndexProto where
  fields m := numField 2 m.id ++ (bytesField 3 m.name
    ++ (numField 4 m.tableId ++ (bytesField 5 m.tableName
    ++ ((m.columns.map columnMessage.encode).map (⟨6, .bytes ·⟩)
    ++ (numField 7 m.type ++ (setBytesField 10 m.comment
    ++ (numField 11 m.rootNodeId ++ numField 12 m.maxTreeNodeId)))))))
  ofFields fs := do
    let columns ← (strings 6 fs).mapM columnMessage.decode
    return ⟨getNum 2 fs, getBytes 3 fs, getNum 4 fs, getBytes 5 fs, columns,
      getNum 7 fs, getBytes 10 fs, getNum 11 fs, getNum 12 fs⟩
  round_trip m := by
    simp only [strings_append, strings_numField, strings_bytesField_ne,
      strings_setBytesField_ne, strings_map_bytes_self, ne_eq,
      Nat.reduceEqDiff, not_false_eq_true, List.append_nil, List.nil_append,
      Message.mapM_decode_encode]
    simp [getBytes, getNum, -List.map_map]

def tableMessage : Message TableProto where
  fields m := numField 2 m.id ++ (bytesField 3 m.name
    ++ (numField 4 m.databaseId ++ (bytesField 5 m.databaseName
    ++ ((m.columns.map columnMessage.encode).map (⟨6, .bytes ·⟩)
    ++ ((m.colIndex.map indexMessage.encode).map (⟨8, .bytes ·⟩)
    ++ (numField 10 m.createTs ++ numField 11 m.updateTs))))))
  ofFields fs := do
    let columns ← (strings 6 fs).mapM columnMessage.decode
    let colIndex ← (strings 8 fs).mapM indexMessage.decode
    return ⟨getNum 2 fs, getBytes 3 fs, getNum 4 fs, getBytes 5 fs, columns,
      colIndex, getNum 10 fs, getNum 11 fs⟩
  round_trip m := by
    simp only [strings_append, strings_numField, strings_bytesField_ne,
      strings_map_bytes_ne, strings_map_bytes_self, ne_eq,
      Nat.reduceEqDiff, not_false_eq_true, List.append_nil, List.nil_append,
      Message.mapM_decode_encode]
    simp [getBytes, getNum, -List.map_map]

/-- `table_ids` is a packed field: one string of numbers. -/
def packed (ns : List Nat) : Bytes := ns.flatMap varint

/-- The numbers of a packed field; the first argument bounds them. -/
def readPacked : Nat → Bytes → Option (List Nat)
  | _, [] => some []
  | 0, _ :: _ => none
  | fuel + 1, b :: s =>
      match readVarint (b :: s) with
      | none => none
      | some (n, r) => (readPacked fuel r).map (n :: ·)

/-- Packed numbers are read back. -/
theorem readPacked_packed {fuel : Nat} {ns : List Nat}
    (h : ns.length ≤ fuel) : readPacked fuel (packed ns) = some ns := by
  induction ns generalizing fuel with
  | nil => cases fuel <;> rfl
  | cons n ns ih =>
      cases fuel with
      | zero => exact absurd h (by simp)
      | succ fuel =>
          have hread := readVarint_varint n (packed ns)
          obtain ⟨b, s, hs⟩ : ∃ b s, varint n ++ packed ns = b :: s :=
            List.exists_cons_of_ne_nil (by simp [varint_ne_nil])
          rw [packed, List.flatMap_cons, ← packed, hs, readPacked, ← hs, hread]
          show (readPacked fuel (packed ns)).map (n :: ·) = _
          rw [ih (by simpa using h)]
          rfl

/-- A packed number takes one byte at least. -/
theorem length_le_packed (ns : List Nat) : ns.length ≤ (packed ns).length := by
  induction ns with
  | nil => exact Nat.zero_le _
  | cons n ns ih =>
      have := List.length_pos_of_ne_nil (varint_ne_nil n)
      rw [packed, List.flatMap_cons, List.length_append, List.length_cons,
        ← packed]
      omega

def databaseMessage : Message DatabaseProto where
  fields m := numField 2 m.id ++ (bytesField 3 m.name
    ++ (bytesField 5 (packed m.tableIds) ++ (numField 6 m.createTs
    ++ (numField 7 m.updateTs ++ setBytesField 8 m.comment))))
  ofFields fs := do
    let ids := getBytes 5 fs
    let tableIds ← readPacked ids.length ids
    return ⟨getNum 2 fs, getBytes 3 fs, tableIds, getNum 6 fs, getNum 7 fs,
      getBytes 8 fs⟩
  round_trip m := by
    simp [getBytes, getNum, readPacked_packed (length_le_packed m.tableIds)]

/-- A message class from a record type, for records whose strings are UTF-8
    and whose messages are not too long. -/
def SchemaCodec.ofMessage {M : Type} (msg : Message M) : SchemaCodec M where
  fits _ := True
  serializeAsString := msg.encode
  parseFromString := msg.decode
  parse_serialize m _ := msg.decode_encode m

/-- The wire format. -/
def SchemaProtobuf.wire : SchemaProtobuf where
  database := .ofMessage databaseMessage
  table := .ofMessage tableMessage

theorem SchemaProtobuf.faithful_wire : SchemaProtobuf.wire.Faithful :=
  ⟨fun _ => trivial, fun _ => trivial⟩

end AmDb.Schema
