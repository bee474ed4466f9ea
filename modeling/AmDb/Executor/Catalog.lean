import AmDb.Executor.CreateExecutor
import AmDb.Foundation.Run

/-! # The catalog

    What the schema records in the store amount to: which databases and tables
    there are, by name, and the ids they got when they were created.  Every run
    of `CREATE` statements is a run of the catalog. -/

namespace AmDb.Executor

open Codec Schema Storage Analyzer

/-- Ids by name; a table's name counts within its database. -/
structure Catalog where
  dbId    : Bytes → Option Nat
  tableId : Nat → Bytes → Option Nat

namespace Catalog

def empty : Catalog := ⟨fun _ => none, fun _ _ => none⟩

def addDatabase (c : Catalog) (name : Bytes) (id : Nat) : Catalog :=
  { c with dbId := Function.update c.dbId name (some id) }

def addTable (c : Catalog) (dbId : Nat) (name : Bytes) (id : Nat) : Catalog :=
  ⟨c.dbId, Function.update c.tableId dbId
    (Function.update (c.tableId dbId) name (some id))⟩

variable {c : Catalog} {n m : Bytes} {i d id dbId : Nat}

/-- A name that is new or has its id already. -/
theorem addDatabase_eq_some (h : ∀ id, c.dbId n = some id → id = i) :
    (c.addDatabase n i).dbId m = some id
      ↔ (m = n ∧ id = i) ∨ c.dbId m = some id := by
  rw [addDatabase]
  by_cases hm : m = n
  · subst hm
    simp only [Function.update_self, Option.some.injEq, true_and]
    constructor
    · rintro rfl
      exact Or.inl rfl
    · rintro (rfl | hid)
      · rfl
      · exact (h id hid).symm
  · simp only [Function.update_of_ne hm, hm, false_and, false_or]

/-- A name has the new id, or the one it had. -/
theorem addTable_eq_some (h : ∀ id, c.tableId d n = some id → id = i) :
    (c.addTable d n i).tableId dbId m = some id
      ↔ ((dbId = d ∧ m = n) ∧ id = i) ∨ c.tableId dbId m = some id := by
  rw [addTable]
  by_cases hd : dbId = d
  · subst hd
    simp only [Function.update_self, true_and]
    exact addDatabase_eq_some (c := ⟨c.tableId dbId, c.tableId⟩) h
  · simp only [Function.update_of_ne hd, hd, false_and, false_or]

theorem addDatabase_self (h : c.dbId n = some i) : c.addDatabase n i = c := by
  rw [addDatabase, ← h, Function.update_eq_self]

theorem addTable_self (h : c.tableId d n = some i) : c.addTable d n i = c := by
  rw [addTable, ← h, Function.update_eq_self, Function.update_eq_self]

/-- The database is there under this id, or neither the name nor the id is. -/
structure DatabaseFits (c : Catalog) (name : Bytes) (id : Nat) : Prop where
  bound  : 1 ≤ id ∧ id < 2 ^ 64
  ofName : ∀ i, c.dbId name = some i → i = id
  ofId   : ∀ n, c.dbId n = some id → n = name

/-- The same of a table. -/
structure TableFits (c : Catalog) (dbId : Nat) (name : Bytes) (id : Nat) :
    Prop where
  bound  : 1 ≤ id ∧ id < 2 ^ 64
  ofName : ∀ i, c.tableId dbId name = some i → i = id
  ofId   : ∀ d n, c.tableId d n = some id → d = dbId ∧ n = name

/-- A statement, its reply, and the catalog afterwards: the answer is read off
    the catalog, and a name that is new gets the id taken for it. -/
def Step (c : Catalog) (e : Call × Reply) (c' : Catalog) : Prop :=
  match e.1.statement with
  | .createDatabase stmt =>
      match c.dbId stmt.dbName with
      | some _ =>
          e.2 = ⟨if stmt.ifNotExist then .ok else .databaseExisted, none⟩
            ∧ c' = c
      | none =>
          e.2 = ⟨.ok, some e.1.allocId⟩
            ∧ c' = c.addDatabase stmt.dbName e.1.allocId
  | .createTable stmt =>
      match c.dbId stmt.db with
      | none => e.2 = ⟨.databaseNotFound, none⟩ ∧ c' = c
      | some dbId =>
          match c.tableId dbId stmt.table with
          | some _ =>
              e.2 = ⟨if stmt.ifNotExist then .ok else .tableExiste, none⟩
                ∧ c' = c
          | none =>
              e.2 = ⟨.ok, some e.1.allocId⟩
                ∧ c' = c.addTable dbId stmt.table e.1.allocId

end Catalog

/-- The records of the store are those of the catalog. -/
structure Represents (pb : SchemaProtobuf) (kv : KvStorage) (c : Catalog) :
    Prop where
  reliable     : kv.Reliable
  dbNames      : ∀ name, kv.data (.databaseName name)
    = (c.dbId name).map (fun id => (encodeDatabaseID id []).2)
  tableNames   : ∀ dbId name, kv.data (.tableName dbId name)
    = (c.tableId dbId name).map (fun id => (encodeTableID dbId id []).2)
  dbRecords    : ∀ name id, c.dbId name = some id → ∃ info : DatabaseInfo,
    kv.data (.databaseId id)
        = some (pb.database.serializeAsString info.serialize)
      ∧ info.id = id ∧ info.name = name
      ∧ ∀ t, t ∈ info.tableIds ↔ ∃ n, c.tableId id n = some t
  tableRecords : ∀ dbId name id, c.tableId dbId name = some id →
    ∃ info : TableInfo, kv.data (.tableId dbId id)
        = some (pb.table.serializeAsString info.serialize)
      ∧ info.id = id ∧ info.name = name ∧ info.dbId = dbId
      ∧ c.dbId info.dbName = some dbId
  dbBound      : ∀ name id, c.dbId name = some id → 1 ≤ id ∧ id < 2 ^ 64
  tableBound   : ∀ dbId name id, c.tableId dbId name = some id →
    1 ≤ id ∧ id < 2 ^ 64
  dbUnique     : ∀ name name' id, c.dbId name = some id →
    c.dbId name' = some id → name = name'
  tableUnique  : ∀ dbId name dbId' name' id, c.tableId dbId name = some id →
    c.tableId dbId' name' = some id → dbId = dbId' ∧ name = name'

section Represents

variable {pb : SchemaProtobuf} {kv kv' : KvStorage} {c : Catalog}
  {status : Status}

/-- The empty store holds no database. -/
theorem represents_empty : Represents pb .empty .empty where
  reliable := KvStorage.reliable_empty
  dbNames _ := rfl
  tableNames _ _ := rfl
  dbRecords _ _ h := nomatch h
  tableRecords _ _ _ h := nomatch h
  dbBound _ _ h := nomatch h
  tableBound _ _ _ h := nomatch h
  dbUnique _ _ _ h := nomatch h
  tableUnique _ _ _ _ _ h := nomatch h

/-! ## Reading the catalog -/

/-- `LoadDatabaseIDByName` answers what the catalog says. -/
theorem Represents.loadDatabaseIdByName (h : Represents pb kv c)
    (name : Bytes) (init : Nat) :
    Metadata.loadDatabaseIdByName kv name init = .ok (match c.dbId name with
      | some id => (.ok, id, kv)
      | none => (.databaseNotFound, init, kv)) := by
  have hname := h.dbNames name
  cases hid : c.dbId name with
  | none =>
      rw [hid] at hname
      exact Metadata.loadDatabaseIdByName_of_none h.reliable hname init
  | some id =>
      rw [hid] at hname
      exact Metadata.loadDatabaseIdByName_of_some h.reliable
        (h.dbBound name id hid).2 hname init

/-- The assertion on the database id never fires: a name is stored with the
    database it is looked up in. -/
theorem Represents.loadTableIdByName (h : Represents pb kv c) {dbId : Nat}
    (hdb : dbId < 2 ^ 64) (name : Bytes) (init : Nat) :
    Metadata.loadTableIdByName kv dbId name init
      = .ok (match c.tableId dbId name with
        | some id => (.ok, id, kv)
        | none => (.tableNotFound, init, kv)) := by
  have hname := h.tableNames dbId name
  cases hid : c.tableId dbId name with
  | none =>
      rw [hid] at hname
      exact Metadata.loadTableIdByName_of_none h.reliable hname init
  | some id =>
      rw [hid] at hname
      exact Metadata.loadTableIdByName_of_some h.reliable hdb
        (h.tableBound dbId name id hid).2 hname init

/-- The record of a database in the catalog is loaded. -/
theorem Represents.loadDatabaseMeta (h : Represents pb kv c)
    (hpb : pb.Faithful) {name : Bytes} {id : Nat}
    (hid : c.dbId name = some id) :
    ∃ info, Metadata.loadDatabaseMeta pb kv id = (.ok, info, kv)
      ∧ info.id = id ∧ info.name = name
      ∧ ∀ t, t ∈ info.tableIds ↔ ∃ n, c.tableId id n = some t := by
  obtain ⟨info, hdata, hinfo, hname, htables⟩ := h.dbRecords name id hid
  refine ⟨_, Metadata.loadDatabaseMeta_of_some hpb h.reliable hdata, hinfo,
    hname, ?_⟩
  intro t
  rw [info.mem_deserialize_serialize, htables]

/-- The record of a table in the catalog is loaded. -/
theorem Represents.loadTableMeta (h : Represents pb kv c) (hpb : pb.Faithful)
    {dbId : Nat} {name : Bytes} {id : Nat}
    (hid : c.tableId dbId name = some id) :
    ∃ info, Metadata.loadTableMeta pb kv dbId id = (.ok, info, kv)
      ∧ info.id = id ∧ info.name = name ∧ info.dbId = dbId
      ∧ c.dbId info.dbName = some dbId := by
  obtain ⟨info, hdata, hinfo⟩ := h.tableRecords dbId name id hid
  exact ⟨_, Metadata.loadTableMeta_of_some hpb h.reliable hdata, hinfo⟩

/-! ## Writing the catalog -/

/-- What is in the catalog fits in it. -/
theorem Represents.databaseFits (h : Represents pb kv c) {name : Bytes}
    {id : Nat} (hid : c.dbId name = some id) : c.DatabaseFits name id where
  bound := h.dbBound name id hid
  ofName _ hi := Option.some.inj (hi.symm.trans hid)
  ofId n hn := h.dbUnique n name id hn hid

/-- A table of a represented catalog fits its encoders. -/
theorem Represents.tableFits (h : Represents pb kv c) {dbId : Nat}
    {name : Bytes} {id : Nat} (hid : c.tableId dbId name = some id) :
    c.TableFits dbId name id where
  bound := h.tableBound dbId name id hid
  ofName _ hi := Option.some.inj (hi.symm.trans hid)
  ofId d n hn := h.tableUnique d n dbId name id hn hid

/-- No table is in a database that is not there. -/
theorem Represents.not_tableId (h : Represents pb kv c) {id : Nat}
    (hid : ∀ name, c.dbId name ≠ some id) (n : Bytes) (t : Nat) :
    c.tableId id n ≠ some t := by
  intro hn
  obtain ⟨info, -, -, -, -, hdb⟩ := h.tableRecords id n t hn
  exact hid info.dbName hdb

/-- The store after the two writes for a database. -/
def databaseWritten (pb : SchemaProtobuf) (kv : KvStorage)
    (info : DatabaseInfo) : KvStorage :=
  (kv.written (.databaseId info.id)
    (pb.database.serializeAsString info.serialize)).written
    (.databaseName info.name) (encodeDatabaseID info.id []).2

/-- `CreateDatabaseExecutor` writes both records of the database. -/
theorem createDatabaseDoWork_reliable (h : kv.Reliable) (info : DatabaseInfo) :
    createDatabaseDoWork pb kv info = (.ok, databaseWritten pb kv info) := by
  rw [createDatabaseDoWork, Metadata.dumpDatabaseMeta,
    KvStorage.putKV_reliable h]
  exact KvStorage.putKV_reliable (h.written _ _) _ _

/-- The store has them then. -/
theorem Represents.addDatabase (h : Represents pb kv c)
    {info : DatabaseInfo} (hfits : c.DatabaseFits info.name info.id)
    (htables : ∀ t, t ∈ info.tableIds ↔ ∃ n, c.tableId info.id n = some t) :
    Represents pb (databaseWritten pb kv info)
      (c.addDatabase info.name info.id) := by
  rw [databaseWritten]
  obtain ⟨hbound, hname, hid⟩ := hfits
  -- the two writes put one database more into the catalog
  have hadd {m : Bytes} {id : Nat} :
      (c.addDatabase info.name info.id).dbId m = some id
        ↔ (m = info.name ∧ id = info.id) ∨ c.dbId m = some id :=
    Catalog.addDatabase_eq_some hname
  refine ⟨h.reliable, ?_, ?_, ?_, ?_, ?_, h.tableBound, ?_, h.tableUnique⟩
  · -- its name leads to its id, the others to theirs
    intro name
    by_cases hn : name = info.name
    · subst hn
      simp [Catalog.addDatabase]
    · rw [KvStorage.written_data_of_ne _ _ (by simp [hn]),
        KvStorage.written_data_of_ne _ _ (by simp), h.dbNames]
      simp [Catalog.addDatabase, hn]
  · -- the names of the tables are not touched
    intro dbId name
    rw [KvStorage.written_data_of_ne _ _ (by simp),
      KvStorage.written_data_of_ne _ _ (by simp), h.tableNames]
    rfl
  · -- its record is the one that was written
    intro name id hm
    rw [KvStorage.written_data_of_ne _ _ (by simp)]
    by_cases hi : id = info.id
    · subst hi
      refine ⟨info, KvStorage.written_data_self .., rfl, ?_, htables⟩
      rcases hadd.mp hm with ⟨hn, -⟩ | hm
      · exact hn.symm
      · exact (hid name hm).symm
    · rw [KvStorage.written_data_of_ne _ _ (by simpa using hi)]
      exact h.dbRecords name id ((hadd.mp hm).resolve_left (fun e => hi e.2))
  · -- the records of the tables still name a database that is there
    intro dbId name id hm
    obtain ⟨table, hdata, htid, htname, htdb, hdb⟩ :=
      h.tableRecords dbId name id hm
    rw [KvStorage.written_data_of_ne _ _ (by simp),
      KvStorage.written_data_of_ne _ _ (by simp)]
    exact ⟨table, hdata, htid, htname, htdb, hadd.mpr (Or.inr hdb)⟩
  · intro name id hm
    rcases hadd.mp hm with ⟨-, rfl⟩ | hm
    · exact hbound
    · exact h.dbBound name id hm
  · -- the new id is only this database's, by the condition on it
    intro name name' id hm hm'
    rcases hadd.mp hm with ⟨rfl, rfl⟩ | hm <;>
      rcases hadd.mp hm' with ⟨rfl, hi⟩ | hm'
    · rfl
    · exact (hid name' hm').symm
    · exact hid name (hi ▸ hm)
    · exact h.dbUnique name name' id hm hm'

/-- A database's record with one more table. -/
def withTable (db : DatabaseInfo) (tableId : Nat) : DatabaseInfo :=
  { DatabaseInfo.deserialize db.serialize with
    tableIds := (DatabaseInfo.deserialize db.serialize).tableIds.insert
      tableId }

/-- The store after the three writes for a table in the database `db`. -/
def tableWritten (pb : SchemaProtobuf) (kv : KvStorage) (dbId : Nat)
    (db : DatabaseInfo) (info : TableInfo) : KvStorage :=
  ((kv.written (.databaseId dbId)
      (pb.database.serializeAsString (withTable db info.id).serialize)).written
    (.tableId dbId info.id)
      (pb.table.serializeAsString { info with dbId }.serialize)).written
    (.tableName dbId info.name) (encodeTableID dbId info.id []).2

/-- `CreateTableExecutor` writes the table's records and adds it to its
database. -/
theorem Represents.createTableDoWork_eq (h : Represents pb kv c)
    (hpb : pb.Faithful) {info : TableInfo} {dbId : Nat}
    (hdb : c.dbId info.dbName = some dbId) {db : DatabaseInfo}
    (hdata : kv.data (.databaseId dbId)
      = some (pb.database.serializeAsString db.serialize)) :
    createTableDoWork pb kv info
      = .ok (.ok, tableWritten pb kv dbId db info) := by
  rw [createTableDoWork, h.loadDatabaseIdByName, hdb]
  simp only [Exec.bind_ok, ne_eq, not_true_eq_false, if_false,
    Metadata.modifyDatabaseMeta_of_some hpb h.reliable hdata,
    Metadata.dumpTableMeta, Metadata.dumpTableIdByName,
    KvStorage.putKV_reliable (h.reliable.written _ _),
    KvStorage.putKV_reliable ((h.reliable.written _ _).written _ _)]
  rfl

/-- The executor's three writes, whatever the id. -/
theorem Represents.createTableDoWork (h : Represents pb kv c)
    (hpb : pb.Faithful) {info : TableInfo} {dbId : Nat}
    (hdb : c.dbId info.dbName = some dbId) :
    ∃ kv', createTableDoWork pb kv info = .ok (.ok, kv')
      ∧ (c.TableFits dbId info.name info.id →
        Represents pb kv' (c.addTable dbId info.name info.id)) := by
  obtain ⟨db, hdata, hdbid, hdbname, htables⟩ := h.dbRecords _ _ hdb
  refine ⟨_, h.createTableDoWork_eq hpb hdb hdata, ?_⟩
  rw [tableWritten]
  rintro ⟨hbound, hname, hid⟩
  -- the three writes put one table more into the catalog
  have hadd {m : Bytes} {d id : Nat} :
      (c.addTable dbId info.name info.id).tableId d m = some id
        ↔ ((d = dbId ∧ m = info.name) ∧ id = info.id)
          ∨ c.tableId d m = some id :=
    Catalog.addTable_eq_some hname
  refine ⟨h.reliable, ?_, ?_, ?_, ?_, h.dbBound, ?_, h.dbUnique, ?_⟩
  · -- the names of the databases are not touched
    intro name
    rw [KvStorage.written_data_of_ne _ _ (by simp),
      KvStorage.written_data_of_ne _ _ (by simp),
      KvStorage.written_data_of_ne _ _ (by simp), h.dbNames]
    rfl
  · -- only the new name leads to the new table
    intro d name
    by_cases hn : d = dbId ∧ name = info.name
    · obtain ⟨rfl, rfl⟩ := hn
      simp [Catalog.addTable]
    · rw [KvStorage.written_data_of_ne _ _ (by simpa using hn),
        KvStorage.written_data_of_ne _ _ (by simp),
        KvStorage.written_data_of_ne _ _ (by simp), h.tableNames]
      have hsame : (c.addTable dbId info.name info.id).tableId d name
          = c.tableId d name := by
        ext id
        simpa [hn] using @hadd name d id
      rw [hsame]
  · -- the record of its database lists it, the others are as they were
    intro name id hm
    rw [KvStorage.written_data_of_ne _ _ (by simp),
      KvStorage.written_data_of_ne _ _ (by simp)]
    by_cases hi : id = dbId
    · subst hi
      refine ⟨withTable db info.id, KvStorage.written_data_self .., hdbid, ?_,
        ?_⟩
      · rw [show (withTable db info.id).name = db.name from rfl, hdbname]
        exact h.dbUnique _ _ _ hdb hm
      · intro t
        rw [show t ∈ (withTable db info.id).tableIds ↔ _
          from List.mem_insert_iff,
          db.mem_deserialize_serialize, htables]
        constructor
        · rintro (rfl | ⟨n, hn⟩)
          · exact ⟨info.name, hadd.mpr (Or.inl ⟨⟨rfl, rfl⟩, rfl⟩)⟩
          · exact ⟨n, hadd.mpr (Or.inr hn)⟩
        · rintro ⟨n, hn⟩
          rcases hadd.mp hn with ⟨-, rfl⟩ | hn
          · exact Or.inl rfl
          · exact Or.inr ⟨n, hn⟩
    · rw [KvStorage.written_data_of_ne _ _ (by simpa using hi)]
      obtain ⟨db₂, hdata₂, hid₂, hname₂, htables₂⟩ := h.dbRecords name id hm
      refine ⟨db₂, hdata₂, hid₂, hname₂, fun t => ?_⟩
      rw [htables₂]
      refine exists_congr (fun n => ?_)
      simpa [hi] using (@hadd n id t).symm
  · -- the record of the new table is the one that was written
    intro d name id hm
    rw [KvStorage.written_data_of_ne _ _ (by simp)]
    by_cases hi : d = dbId ∧ id = info.id
    · obtain ⟨rfl, rfl⟩ := hi
      refine ⟨{ info with dbId := d }, KvStorage.written_data_self .., rfl,
        ?_, rfl, hdb⟩
      rcases hadd.mp hm with ⟨⟨-, hn⟩, -⟩ | hm
      · exact hn.symm
      · exact (hid d name hm).2.symm
    · rw [KvStorage.written_data_of_ne _ _ (by simpa using hi),
        KvStorage.written_data_of_ne _ _ (by simp)]
      exact h.tableRecords d name id
        ((hadd.mp hm).resolve_left (fun e => hi ⟨e.1.1, e.2⟩))
  · intro d name id hm
    rcases hadd.mp hm with ⟨-, rfl⟩ | hm
    · exact hbound
    · exact h.tableBound d name id hm
  · -- the new id is only this table's, by the condition on it
    intro d name d' name' id hm hm'
    rcases hadd.mp hm with ⟨⟨rfl, rfl⟩, rfl⟩ | hold <;>
      rcases hadd.mp hm' with ⟨⟨rfl, rfl⟩, hi⟩ | hold'
    · exact ⟨rfl, rfl⟩
    · obtain ⟨rfl, rfl⟩ := hid d' name' hold'
      exact ⟨rfl, rfl⟩
    · exact hid d name (hi ▸ hold)
    · exact h.tableUnique d name d' name' id hold hold'

end Represents

end AmDb.Executor
