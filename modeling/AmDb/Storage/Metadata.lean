import AmDb.Codec.Codec
import AmDb.Schema.Schema
import AmDb.Storage.KvStorage

/-! # Schema records in the store

    The entries of `sql/storage/metadata.cc` for databases and tables: records
    under their ids, ids under their names.  What `Load` returns after `Dump`. -/

namespace AmDb.Storage

open Codec PrefixCode AmDb.Schema

namespace Metadata

/-- `DecodeDatabaseID`: the id behind two ids and a type byte. -/
def decodeDatabaseID (s : Bytes) : Exec Nat :=
  if s.length < 17 then .error .undefined
  else do
    let (_, dbId) ← decodeUInt64 (s.drop 17)
    return dbId

/-- `DecodeTableID`: database id and table id. -/
def decodeTableID (s : Bytes) : Exec (Nat × Nat) :=
  if s.length < 17 then .error .undefined
  else do
    let tmp ← readData (s.drop 17) 8
    let (_, dbId) ← decodeUInt64 tmp
    if s.length < 25 then .error .undefined
    else do
      let tmp ← readData (s.drop 25) 8
      let (_, tableId) ← decodeUInt64 tmp
      return (dbId, tableId)

section Load

variable (pb : SchemaProtobuf)

/-- `DumpDatabaseMeta`. -/
def dumpDatabaseMeta (kv : KvStorage) (dbId : Nat) (info : DatabaseInfo) :
    Status × KvStorage :=
  kv.putKV (.databaseId dbId) (pb.database.serializeAsString info.serialize)

/-- `LoadDatabaseMeta` into a fresh object. -/
def loadDatabaseMeta (kv : KvStorage) (dbId : Nat) :
    Status × DatabaseInfo × KvStorage :=
  let (status, value, kv) := kv.getKV (.databaseId dbId)
  if status ≠ .ok then (status, {}, kv)
  else match pb.database.parseFromString value with
    | none => (.databaseSchemaError, {}, kv)
    | some proto => (.ok, .deserialize proto, kv)

/-- `ModifyDatabaseMeta` with a callback that succeeds. -/
def modifyDatabaseMeta (kv : KvStorage) (dbId : Nat)
    (callback : DatabaseInfo → DatabaseInfo) : Status × KvStorage :=
  let (status, info, kv) := loadDatabaseMeta pb kv dbId
  if status ≠ .ok then (status, kv)
  else
    let info := callback info
    let (status, kv) := kv.delKV (.databaseId dbId)
    if status ≠ .ok then (status, kv)
    else dumpDatabaseMeta pb kv dbId info

/-- `DumpTableMeta`. -/
def dumpTableMeta (kv : KvStorage) (dbId tableId : Nat) (info : TableInfo) :
    Status × KvStorage :=
  kv.putKV (.tableId dbId tableId)
    (pb.table.serializeAsString info.serialize)

/-- `LoadTableMeta` into a fresh object: of the read's failures only "not
    found" is looked at. -/
def loadTableMeta (kv : KvStorage) (dbId tableId : Nat) :
    Status × TableInfo × KvStorage :=
  let (status, value, kv) := kv.getKV (.tableId dbId tableId)
  if status = .storageKvNotFound then (.tableNotFound, {}, kv)
  else match pb.table.parseFromString value with
    | none => (.tableSchemaError, {}, kv)
    | some proto => (.ok, .deserialize proto, kv)

end Load

/-- `LoadDatabaseIdByName`; the id is left as it was when there is none. -/
def loadDatabaseIdByName (kv : KvStorage) (dbName : Bytes) (dbId : Nat) :
    Exec (Status × Nat × KvStorage) :=
  let (status, value, kv) := kv.getKV (.databaseName dbName)
  if status = .storageKvNotFound then .ok (.databaseNotFound, dbId, kv)
  else do
    let dbId ← decodeDatabaseID value
    return (status, dbId, kv)

/-- `DumpDatabaseIdByName`. -/
def dumpDatabaseIdByName (kv : KvStorage) (dbName : Bytes) (dbId : Nat) :
    Status × KvStorage :=
  kv.putKV (.databaseName dbName) (encodeDatabaseID dbId []).2

/-- `LoadTableIdByName`, with the assertion on the database id. -/
def loadTableIdByName (kv : KvStorage) (dbId : Nat) (tableName : Bytes)
    (tableId : Nat) : Exec (Status × Nat × KvStorage) :=
  let (status, value, kv) := kv.getKV (.tableName dbId tableName)
  if status = .storageKvNotFound then .ok (.tableNotFound, tableId, kv)
  else do
    let (dbIdStore, tableId) ← decodeTableID value
    if dbId = dbIdStore then .ok (.ok, tableId, kv) else .error .assertion

/-- `DumpTableIdByName`. -/
def dumpTableIdByName (kv : KvStorage) (dbId : Nat) (tableName : Bytes)
    (tableId : Nat) : Status × KvStorage :=
  kv.putKV (.tableName dbId tableName) (encodeTableID dbId tableId []).2

/-! ## Reading what was written -/

section Reading

variable {pb : SchemaProtobuf} {kv : KvStorage}

/-- The two global ids and a type byte. -/
private theorem encode_global (type : Nat) (fs : List Field) :
    ∃ pre : Bytes, pre.length = 17 ∧
      (encodeFields (.u64 kGlobalDatabaseID :: .u64 kGlobalTableID
        :: .u8 type :: fs) []).2 = pre ++ fs.flatMap Field.code := by
  refine ⟨bigEndian 8 kGlobalDatabaseID ++ (bigEndian 8 kGlobalTableID
    ++ bigEndian 1 type), by simp, ?_⟩
  rw [encodeFields_snd]
  simp [Field.code]

/-- Eight bytes hold a number of 64 bits. -/
theorem decodeUInt64_bigEndian {n : Nat} (h : n < 2 ^ 64) :
    decodeUInt64 (bigEndian 8 n) = .ok (8, n) := by
  have hr := readData_append (bigEndian 8 n) []
  rw [List.append_nil, length_bigEndian] at hr
  rw [decodeUInt64, hr, Exec.bind_ok, ofBigEndian_bigEndian,
    Nat.mod_eq_of_lt (by simpa using h)]
  rfl

/-- The id of a database comes back. -/
theorem decodeDatabaseID_encode {dbId : Nat} (h : dbId < 2 ^ 64) :
    decodeDatabaseID (encodeDatabaseID dbId []).2 = .ok dbId := by
  obtain ⟨pre, hlen, henc⟩ := encode_global MetaType.databaseId.val [.u64 dbId]
  have hcode : (encodeDatabaseID dbId []).2 = pre ++ bigEndian 8 dbId := by
    rw [encodeDatabaseID, henc]
    simp [Field.code]
  rw [decodeDatabaseID, hcode, if_neg (by simp [hlen]),
    List.drop_left' hlen, decodeUInt64_bigEndian h]
  rfl

/-- The id of a table comes back, with its database's. -/
theorem decodeTableID_encode {dbId tableId : Nat} (h : dbId < 2 ^ 64)
    (h' : tableId < 2 ^ 64) :
    decodeTableID (encodeTableID dbId tableId []).2 = .ok (dbId, tableId) := by
  obtain ⟨pre, hlen, henc⟩ :=
    encode_global MetaType.tableId.val [.u64 dbId, .u64 tableId]
  have hcode : (encodeTableID dbId tableId []).2
      = pre ++ (bigEndian 8 dbId ++ bigEndian 8 tableId) := by
    rw [encodeTableID, henc]
    simp [Field.code]
  have hread : ∀ (n : Nat) (r : Bytes),
      readData (bigEndian 8 n ++ r) 8 = .ok (bigEndian 8 n) := by
    intro n r
    have := readData_append (bigEndian 8 n) r
    rwa [length_bigEndian] at this
  have hlast := hread tableId []
  rw [List.append_nil] at hlast
  have hdrop : (pre ++ (bigEndian 8 dbId ++ bigEndian 8 tableId)).drop 25
      = bigEndian 8 tableId := by
    rw [← List.append_assoc]
    exact List.drop_left' (by simp [hlen])
  rw [decodeTableID, hcode, if_neg (by simp [hlen]), List.drop_left' hlen,
    hread, Exec.bind_ok, decodeUInt64_bigEndian h, Exec.bind_ok]
  simp only
  rw [if_neg (by simp [hlen]), hdrop, hlast, Exec.bind_ok,
    decodeUInt64_bigEndian h']
  rfl

variable {dbId tableId : Nat}

/-- A database that is stored is loaded. -/
theorem loadDatabaseMeta_of_some (hpb : pb.Faithful) (hkv : kv.Reliable)
    {info : DatabaseInfo} (h : kv.data (.databaseId dbId)
      = some (pb.database.serializeAsString info.serialize)) :
    loadDatabaseMeta pb kv dbId = (.ok, .deserialize info.serialize, kv) := by
  rw [loadDatabaseMeta, KvStorage.getKV_of_some hkv h]
  simp [pb.database.parse_serialize _ (hpb.database _)]

/-- A database that is not stored is not found. -/
theorem loadDatabaseMeta_of_none (hkv : kv.Reliable)
    (h : kv.data (.databaseId dbId) = none) :
    loadDatabaseMeta pb kv dbId = (.storageKvNotFound, {}, kv) := by
  rw [loadDatabaseMeta, KvStorage.getKV_of_none hkv h]
  simp

/-- A table that is stored is loaded. -/
theorem loadTableMeta_of_some (hpb : pb.Faithful) (hkv : kv.Reliable)
    {info : TableInfo} (h : kv.data (.tableId dbId tableId)
      = some (pb.table.serializeAsString info.serialize)) :
    loadTableMeta pb kv dbId tableId
      = (.ok, .deserialize info.serialize, kv) := by
  rw [loadTableMeta, KvStorage.getKV_of_some hkv h]
  simp [pb.table.parse_serialize _ (hpb.table _)]

/-- The name of a stored database leads to its id. -/
theorem loadDatabaseIdByName_of_some (hkv : kv.Reliable) {dbName : Bytes}
    (hid : dbId < 2 ^ 64) (h : kv.data (.databaseName dbName)
      = some (encodeDatabaseID dbId []).2) (init : Nat) :
    loadDatabaseIdByName kv dbName init = .ok (.ok, dbId, kv) := by
  rw [loadDatabaseIdByName, KvStorage.getKV_of_some hkv h]
  simp [decodeDatabaseID_encode hid]

/-- An unknown name of a database leaves the id as it was. -/
theorem loadDatabaseIdByName_of_none (hkv : kv.Reliable) {dbName : Bytes}
    (h : kv.data (.databaseName dbName) = none) (init : Nat) :
    loadDatabaseIdByName kv dbName init
      = .ok (.databaseNotFound, init, kv) := by
  rw [loadDatabaseIdByName, KvStorage.getKV_of_none hkv h]
  simp

/-- The name of a stored table leads to its id. -/
theorem loadTableIdByName_of_some (hkv : kv.Reliable) {tableName : Bytes}
    (hdb : dbId < 2 ^ 64) (hid : tableId < 2 ^ 64)
    (h : kv.data (.tableName dbId tableName)
      = some (encodeTableID dbId tableId []).2) (init : Nat) :
    loadTableIdByName kv dbId tableName init = .ok (.ok, tableId, kv) := by
  rw [loadTableIdByName, KvStorage.getKV_of_some hkv h]
  simp [decodeTableID_encode hdb hid]

/-- An unknown name of a table leaves the id as it was. -/
theorem loadTableIdByName_of_none (hkv : kv.Reliable) {tableName : Bytes}
    (h : kv.data (.tableName dbId tableName) = none) (init : Nat) :
    loadTableIdByName kv dbId tableName init
      = .ok (.tableNotFound, init, kv) := by
  rw [loadTableIdByName, KvStorage.getKV_of_none hkv h]
  simp

/-- A record read, changed and written again. -/
theorem modifyDatabaseMeta_of_some (hpb : pb.Faithful) (hkv : kv.Reliable)
    {info : DatabaseInfo} (h : kv.data (.databaseId dbId)
      = some (pb.database.serializeAsString info.serialize))
    (callback : DatabaseInfo → DatabaseInfo) :
    modifyDatabaseMeta pb kv dbId callback
      = (.ok, kv.written (.databaseId dbId) (pb.database.serializeAsString
          (callback (.deserialize info.serialize)).serialize)) := by
  rw [modifyDatabaseMeta, loadDatabaseMeta_of_some hpb hkv h]
  simp only [ne_eq, not_true_eq_false, if_false,
    KvStorage.delKV_reliable hkv, dumpDatabaseMeta,
    KvStorage.putKV_reliable (hkv.deleted _), KvStorage.deleted_written]

end Reading

/-! ## Records that survive -/

/-- Two descriptions of a database that say the same. -/
structure SameDatabase (info info' : DatabaseInfo) : Prop where
  id       : info.id = info'.id
  name     : info.name = info'.name
  tableIds : ∀ id, id ∈ info.tableIds ↔ id ∈ info'.tableIds
  createTs : info.createTs = info'.createTs
  updateTs : info.updateTs = info'.updateTs
  comment  : info.comment = info'.comment

/-- Two descriptions of a table that say the same. -/
structure SameTable (info info' : TableInfo) : Prop where
  id         : info.id = info'.id
  dbId       : info.dbId = info'.dbId
  name       : info.name = info'.name
  dbName     : info.dbName = info'.dbName
  columnList : info.columnList = info'.columnList
  indexList  : info.indexList = info'.indexList
  createTs   : info.createTs = info'.createTs
  updateTs   : info.updateTs = info'.updateTs

/-- The columns of a table and of its indexes. -/
def allColumns (info : TableInfo) : List ColumnInfo :=
  info.columnList ++ info.indexList.flatMap IndexInfo.columns

theorem map_eq_self_iff {α : Type} {f : α → α} {l : List α} :
    l.map f = l ↔ ∀ a ∈ l, f a = a := by
  have h := @List.map_inj_left α α l f id
  rwa [List.map_id] at h

/-- Columns survive when none has a type. -/
theorem map_persisted_eq_self {cols : List ColumnInfo} :
    cols.map ColumnInfo.persisted = cols ↔ ∀ c ∈ cols, c.type = {} := by
  rw [map_eq_self_iff]
  refine forall₂_congr (fun c _ => ?_)
  constructor
  · intro h
    exact (congrArg ColumnInfo.type h).symm
  · intro h
    rw [ColumnInfo.persisted, ← h]

/-- Indexes survive when none of their columns has a type. -/
theorem map_index_persisted_eq_self {indexes : List IndexInfo} :
    indexes.map IndexInfo.persisted = indexes
      ↔ ∀ index ∈ indexes, ∀ c ∈ index.columns, c.type = {} := by
  rw [map_eq_self_iff]
  refine forall₂_congr (fun index _ => ?_)
  rw [← map_persisted_eq_self]
  constructor
  · intro h
    exact congrArg IndexInfo.columns h
  · intro h
    rw [IndexInfo.persisted, h]

theorem sameDatabase_deserialize (info : DatabaseInfo) :
    SameDatabase (.deserialize info.serialize) info :=
  ⟨rfl, rfl, info.mem_deserialize_serialize, rfl, rfl, rfl⟩

/-- A table record survives when there is nothing in its columns' types. -/
theorem sameTable_deserialize_iff (info : TableInfo) :
    SameTable (.deserialize info.serialize) info
      ↔ ∀ c ∈ allColumns info, c.type = {} := by
  rw [TableInfo.deserialize_serialize]
  constructor
  · rintro ⟨-, -, -, -, hcols, hindexes, -, -⟩ c hc
    rcases List.mem_append.mp hc with hc | hc
    · exact map_persisted_eq_self.mp hcols c hc
    · obtain ⟨index, hi, hc⟩ := List.mem_flatMap.mp hc
      exact map_index_persisted_eq_self.mp hindexes index hi c hc
  · intro h
    refine ⟨rfl, rfl, rfl, rfl, ?_, ?_, rfl, rfl⟩
    · exact map_persisted_eq_self.mpr
        (fun c hc => h c (List.mem_append_left _ hc))
    · refine map_index_persisted_eq_self.mpr (fun index hi c hc => h c ?_)
      exact List.mem_append_right _ (List.mem_flatMap.mpr ⟨index, hi, hc⟩)

/-- What `Load` returns after `Dump` is the description dumped, for a database
    always, for a table just when no column has a type or character set but the
    ones a fresh column starts with. -/
theorem load_after_dump_iff {pb : SchemaProtobuf} {kv : KvStorage}
    (hpb : pb.Faithful) (hkv : kv.Reliable) (db : DatabaseInfo)
    (table : TableInfo) (dbId tableId dbKey : Nat) :
    ∃ kv₁ kv₂ db' table', dumpDatabaseMeta pb kv dbKey db = (.ok, kv₁)
      ∧ loadDatabaseMeta pb kv₁ dbKey = (.ok, db', kv₁)
      ∧ dumpTableMeta pb kv dbId tableId table = (.ok, kv₂)
      ∧ loadTableMeta pb kv₂ dbId tableId = (.ok, table', kv₂)
      ∧ SameDatabase db' db
      ∧ (SameTable table' table ↔ ∀ c ∈ allColumns table, c.type = {}) := by
  refine ⟨_, _, _, _, KvStorage.putKV_reliable hkv _ _,
    loadDatabaseMeta_of_some hpb (hkv.written _ _)
      (KvStorage.written_data_self ..),
    KvStorage.putKV_reliable hkv _ _,
    loadTableMeta_of_some hpb (hkv.written _ _)
      (KvStorage.written_data_self ..),
    sameDatabase_deserialize db, sameTable_deserialize_iff table⟩

/-- A table of one column. -/
def oneColumn (type : MysqlType) : TableInfo :=
  { id := 7, dbId := 1, columnList := [{ id := 0, type := { type } }] }

/-- Two `DECIMAL` columns without a character set, a primary key and an index,
    each with a tree of its own. -/
def twoDecimals : TableInfo :=
  let price : ColumnInfo := { id := 0, tableId := 7, name := [112] }
  let tax : ColumnInfo := { id := 1, tableId := 7, name := [116] }
  { id := 7, dbId := 1, name := [115], dbName := [100],
    columnList := [price, tax],
    indexList :=
      [{ id := 0, tableId := 7, columns := [tax], rootNodeId := 3
         maxTreeNodeId := 9 },
       { id := 1, tableId := 7, columns := [price, tax], type := .primary
         rootNodeId := 2, maxTreeNodeId := 4 }],
    primaryIndex := some 1, createTs := 5, updateTs := 6 }

/-- The table comes back with both columns and both indexes, their roots and
    counters. -/
theorem load_after_dump_iff_twoDecimals :
    ∃ kv table', dumpTableMeta .wire .empty 1 7 twoDecimals = (.ok, kv)
      ∧ loadTableMeta .wire kv 1 7 = (.ok, table', kv)
      ∧ SameTable table' twoDecimals := by
  obtain ⟨_, kv, _, table', -, -, hdump, hload, -, hsame⟩ :=
    load_after_dump_iff SchemaProtobuf.faithful_wire KvStorage.reliable_empty
      {} twoDecimals 1 7 1
  exact ⟨kv, table', hdump, hload, hsame.mpr (by decide)⟩

/-- A `BIGINT` column comes back as `DECIMAL`. -/
theorem column_type_is_lost :
    ∃ kv table', dumpTableMeta .wire .empty 1 7 (oneColumn .longlong)
        = (.ok, kv)
      ∧ loadTableMeta .wire kv 1 7 = (.ok, table', kv)
      ∧ table'.columnList.map (fun c => c.type.type) = [.decimal]
      ∧ ¬ SameTable table' (oneColumn .longlong) := by
  refine ⟨_, _, KvStorage.putKV_reliable KvStorage.reliable_empty _ _,
    loadTableMeta_of_some SchemaProtobuf.faithful_wire
      (KvStorage.reliable_empty.written _ _) (KvStorage.written_data_self ..),
    rfl, ?_⟩
  intro h
  exact absurd h.columnList (by decide)

end Metadata

end AmDb.Storage
