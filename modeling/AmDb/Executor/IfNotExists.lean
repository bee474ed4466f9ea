import AmDb.Executor.CatalogRun

/-! # Creating what exists

    The executor of a `CREATE` statement does not know whether the object was
    there before: under `IF NOT EXISTS` it writes all of the object's keys again
    from the record it loaded.  What it writes is what was there. -/

namespace AmDb.Executor

open Codec Schema Storage Analyzer

/-- The statement's `IF NOT EXISTS`. -/
def Statement.ifNotExist : Statement → Bool
  | .createDatabase stmt => stmt.ifNotExist
  | .createTable stmt => stmt.ifNotExist

/-- What a statement reports about an object that is there. -/
def Statement.existed : Statement → Status
  | .createDatabase _ => .databaseExisted
  | .createTable _ => .tableExiste

/-- The object of a statement is found by its name. -/
def Existing (kv : KvStorage) : Statement → Prop
  | .createDatabase stmt => ∃ id,
      Metadata.loadDatabaseIdByName kv stmt.dbName kInvalidIDatabaseID
        = .ok (.ok, id, kv)
  | .createTable stmt => ∃ dbId id,
      Metadata.loadDatabaseIdByName kv stmt.db kInvalidIDatabaseID
          = .ok (.ok, dbId, kv)
        ∧ Metadata.loadTableIdByName kv dbId stmt.table kInvalidTableID
          = .ok (.ok, id, kv)

/-- Nothing but the order of the table ids in database records differs. -/
structure SameContent (pb : SchemaProtobuf) (kv kv' : KvStorage) : Prop where
  status    : ∀ dbId, (Metadata.loadDatabaseMeta pb kv' dbId).1
    = (Metadata.loadDatabaseMeta pb kv dbId).1
  databases : ∀ dbId, Metadata.SameDatabase
    (Metadata.loadDatabaseMeta pb kv' dbId).2.1
    (Metadata.loadDatabaseMeta pb kv dbId).2.1
  others    : ∀ key, (∀ dbId, key ≠ .databaseId dbId) →
    kv'.data key = kv.data key

section Rewrite

variable {pb : SchemaProtobuf} {kv kv' : KvStorage} {c : Catalog}

/-- Writing what is there. -/
theorem written_data_of_some {key key' : StoreKey} {value : Bytes}
    (h : kv.data key = some value) :
    (kv.written key value).data key' = kv.data key' := by
  by_cases hk : key' = key
  · rw [hk, KvStorage.written_data_self, h]
  · rw [KvStorage.written_data_of_ne _ _ hk]

/-- What is loaded of a database depends on its record only. -/
theorem loadDatabaseMeta_congr (hkv : kv.Reliable) (hkv' : kv'.Reliable)
    {dbId : Nat} (h : kv'.data (.databaseId dbId) = kv.data (.databaseId dbId)) :
    (Metadata.loadDatabaseMeta pb kv' dbId).1
        = (Metadata.loadDatabaseMeta pb kv dbId).1
      ∧ (Metadata.loadDatabaseMeta pb kv' dbId).2.1
        = (Metadata.loadDatabaseMeta pb kv dbId).2.1 := by
  cases hv : kv.data (.databaseId dbId) with
  | none =>
      rw [Metadata.loadDatabaseMeta, Metadata.loadDatabaseMeta,
        KvStorage.getKV_of_none hkv hv,
        KvStorage.getKV_of_none hkv' (h.trans hv)]
      exact ⟨rfl, rfl⟩
  | some value =>
      rw [Metadata.loadDatabaseMeta, Metadata.loadDatabaseMeta,
        KvStorage.getKV_of_some hkv hv,
        KvStorage.getKV_of_some hkv' (h.trans hv)]
      simp only [ne_eq, not_true_eq_false, if_false]
      cases pb.database.parseFromString value with
      | none => exact ⟨rfl, rfl⟩
      | some proto => exact ⟨rfl, rfl⟩

theorem SameDatabase.refl (info : DatabaseInfo) :
    Metadata.SameDatabase info info :=
  ⟨rfl, rfl, fun _ => Iff.rfl, rfl, rfl, rfl⟩

/-- A database says the same as one that says the same as another. -/
theorem SameDatabase.trans {info₁ info₂ info₃ : DatabaseInfo}
    (h : Metadata.SameDatabase info₁ info₂)
    (h' : Metadata.SameDatabase info₂ info₃) :
    Metadata.SameDatabase info₁ info₃ :=
  ⟨h.id.trans h'.id, h.name.trans h'.name,
    fun t => (h.tableIds t).trans (h'.tableIds t),
    h.createTs.trans h'.createTs, h.updateTs.trans h'.updateTs,
    h.comment.trans h'.comment⟩

/-- One database record is replaced by one that says the same. -/
theorem sameContent_of_record (hpb : pb.Faithful) (hkv : kv.Reliable)
    (hkv' : kv'.Reliable) {dbId : Nat} {info info' : DatabaseInfo}
    (hold : kv.data (.databaseId dbId)
      = some (pb.database.serializeAsString info.serialize))
    (hnew : kv'.data (.databaseId dbId)
      = some (pb.database.serializeAsString info'.serialize))
    (hsame : Metadata.SameDatabase info' info)
    (hother : ∀ key, key ≠ .databaseId dbId → kv'.data key = kv.data key) :
    SameContent pb kv kv' := by
  have hload := Metadata.loadDatabaseMeta_of_some hpb hkv hold
  have hload' := Metadata.loadDatabaseMeta_of_some hpb hkv' hnew
  have hrest : ∀ i, i ≠ dbId →
      kv'.data (.databaseId i) = kv.data (.databaseId i) :=
    fun i hi => hother _ (by simpa using hi)
  refine ⟨?_, ?_, fun key hkey => hother key (hkey dbId)⟩
  · intro i
    by_cases hi : i = dbId
    · rw [hi, hload, hload']
    · exact (loadDatabaseMeta_congr hkv hkv' (hrest i hi)).1
  · intro i
    by_cases hi : i = dbId
    · rw [hi, hload, hload']
      have h₁ := Metadata.sameDatabase_deserialize info'
      have h₂ := Metadata.sameDatabase_deserialize info
      refine SameDatabase.trans h₁ (SameDatabase.trans hsame ?_)
      exact ⟨h₂.id.symm, h₂.name.symm, fun t => (h₂.tableIds t).symm,
        h₂.createTs.symm, h₂.updateTs.symm, h₂.comment.symm⟩
    · rw [(loadDatabaseMeta_congr hkv hkv' (hrest i hi)).2]
      exact SameDatabase.refl _

/-- A table id that is listed is not listed again. -/
theorem sameDatabase_withTable {db : DatabaseInfo} {tableId : Nat}
    (h : tableId ∈ db.tableIds) :
    Metadata.SameDatabase (withTable db tableId) db := by
  refine ⟨rfl, rfl, ?_, rfl, rfl, rfl⟩
  intro t
  rw [show t ∈ (withTable db tableId).tableIds ↔ _ from List.mem_insert_iff,
    db.mem_deserialize_serialize]
  constructor
  · rintro (rfl | ht)
    · exact h
    · exact ht
  · exact Or.inr

/-- A table record that was loaded is written as it was. -/
theorem serialize_deserialize_serialize (info : TableInfo) :
    (TableInfo.deserialize info.serialize).serialize = info.serialize := by
  rw [TableInfo.deserialize_serialize]
  simp [TableInfo.serialize, IndexInfo.serialize, IndexInfo.persisted,
    ColumnInfo.serialize, ColumnInfo.persisted, List.map_map,
    Function.comp_def]

/-- The two writes of `CreateDatabaseExecutor` from a loaded record. -/
theorem Represents.sameContent_database (h : Represents pb kv c)
    (hpb : pb.Faithful) {name : Bytes} {id : Nat}
    (hid : c.dbId name = some id) :
    ∃ info, Metadata.loadDatabaseMeta pb kv id = (.ok, info, kv)
      ∧ SameContent pb kv (databaseWritten pb kv info) := by
  obtain ⟨info, hdata, rfl, rfl, -⟩ := h.dbRecords name id hid
  refine ⟨_, Metadata.loadDatabaseMeta_of_some hpb h.reliable hdata, ?_⟩
  have hname : kv.data (.databaseName info.name)
      = some (encodeDatabaseID info.id []).2 := by
    rw [h.dbNames, hid]
    rfl
  have hwritten : ∀ key, key ≠ .databaseId info.id →
      (databaseWritten pb kv (.deserialize info.serialize)).data key
        = kv.data key := by
    intro key hkey
    rw [databaseWritten, written_data_of_some]
    · exact KvStorage.written_data_of_ne _ _ hkey
    · exact (KvStorage.written_data_of_ne _ _ (by simp)).trans hname
  refine sameContent_of_record hpb h.reliable h.reliable hdata ?_
    (Metadata.sameDatabase_deserialize info) hwritten
  rw [databaseWritten, KvStorage.written_data_of_ne _ _ (by simp)]
  exact KvStorage.written_data_self ..

/-- The three writes of `CreateTableExecutor` from a loaded record. -/
theorem Represents.sameContent_table (h : Represents pb kv c)
    (hpb : pb.Faithful) {dbId : Nat} {name : Bytes} {id : Nat}
    (hid : c.tableId dbId name = some id) :
    ∃ info kv', Metadata.loadTableMeta pb kv dbId id = (.ok, info, kv)
      ∧ Executor.createTableDoWork pb kv info = .ok (.ok, kv')
      ∧ SameContent pb kv kv' := by
  obtain ⟨info, hdata, rfl, rfl, rfl, hdb⟩ := h.tableRecords dbId name id hid
  obtain ⟨db, hdbData, -, -, htables⟩ := h.dbRecords _ _ hdb
  have hmem : info.id ∈ db.tableIds := (htables _).mpr ⟨_, hid⟩
  have hname : kv.data (.tableName info.dbId info.name)
      = some (encodeTableID info.dbId info.id []).2 := by
    rw [h.tableNames, hid]
    rfl
  refine ⟨_, _, Metadata.loadTableMeta_of_some hpb h.reliable hdata,
    @Represents.createTableDoWork_eq _ _ _ h hpb (.deserialize info.serialize)
      _ hdb _ hdbData, ?_⟩
  -- the record and the name are written as they were
  have hrecord : kv.data (.tableId info.dbId info.id)
      = some (pb.table.serializeAsString
        (TableInfo.deserialize info.serialize).serialize) := by
    rw [serialize_deserialize_serialize]
    exact hdata
  have hwritten : ∀ key, key ≠ .databaseId info.dbId →
      (tableWritten pb kv info.dbId db (.deserialize info.serialize)).data key
        = kv.data key := by
    intro key hkey
    have htable : ∀ key, key ≠ .databaseId info.dbId →
        ((kv.written (.databaseId info.dbId) (pb.database.serializeAsString
          (withTable db info.id).serialize)).written
            (.tableId info.dbId info.id) (pb.table.serializeAsString
              (TableInfo.deserialize info.serialize).serialize)).data key
          = kv.data key := by
      intro key hkey
      rw [written_data_of_some]
      · exact KvStorage.written_data_of_ne _ _ hkey
      · exact (KvStorage.written_data_of_ne _ _ (by simp)).trans hrecord
    rw [tableWritten, written_data_of_some]
    · exact htable key hkey
    · exact (htable _ (by simp)).trans hname
  refine sameContent_of_record hpb h.reliable h.reliable hdbData ?_
    (sameDatabase_withTable hmem) hwritten
  rw [tableWritten, KvStorage.written_data_of_ne _ _ (by simp),
    KvStorage.written_data_of_ne _ _ (by simp)]
  exact KvStorage.written_data_self ..

end Rewrite

/-- A statement about an object that exists. -/
structure Repeats (pb : SchemaProtobuf) (kv : KvStorage) (call : Call) :
    Prop where
  tolerated : call.statement.ifNotExist = true → ∃ kv',
    execute pb kv call = .ok (⟨.ok, none⟩, kv') ∧ SameContent pb kv kv'
  refused   : call.statement.ifNotExist = false →
    execute pb kv call = .ok (⟨call.statement.existed, none⟩, kv)

section Repeats

variable {pb : SchemaProtobuf} {kv : KvStorage} {c : Catalog}

/-- `CREATE DATABASE IF NOT EXISTS` of a database that is there. -/
theorem Represents.repeats_database (h : Represents pb kv c)
    (hpb : pb.Faithful) {stmt : CreateDatabaseStmt}
    (he : Existing kv (.createDatabase stmt)) (allocId now : Nat) :
    Repeats pb kv ⟨.createDatabase stmt, allocId, now⟩ := by
  obtain ⟨id, hload⟩ := he
  have hid : c.dbId stmt.dbName = some id := by
    have heq := (h.loadDatabaseIdByName _ _).symm.trans hload
    cases hc : c.dbId stmt.dbName with
    | none =>
        rw [hc] at heq
        exact nomatch heq
    | some id' =>
        rw [hc] at heq
        cases heq
        rfl
  obtain ⟨info, hmeta, hsame⟩ := h.sameContent_database hpb hid
  constructor
  · intro hflag
    replace hflag : stmt.ifNotExist = true := hflag
    refine ⟨_, ?_, hsame⟩
    simp [Executor.execute, analyzeCreateDatabase, hload, hflag, hmeta,
      createDatabaseDoWork_reliable h.reliable]
  · intro hflag
    replace hflag : stmt.ifNotExist = false := hflag
    simp [Executor.execute, analyzeCreateDatabase, hload, hflag, Statement.existed]

/-- `CREATE TABLE IF NOT EXISTS` of a table that is there. -/
theorem Represents.repeats_table (h : Represents pb kv c) (hpb : pb.Faithful)
    {stmt : CreateTableStmt} (he : Existing kv (.createTable stmt))
    (allocId now : Nat) :
    Repeats pb kv ⟨.createTable stmt, allocId, now⟩ := by
  obtain ⟨dbId, id, hload, hloadTable⟩ := he
  -- what the store finds is what the catalog has
  have hdb : c.dbId stmt.db = some dbId := by
    have heq := (h.loadDatabaseIdByName _ _).symm.trans hload
    cases hc : c.dbId stmt.db with
    | none =>
        rw [hc] at heq
        exact nomatch heq
    | some id' =>
        rw [hc] at heq
        cases heq
        rfl
  have hid : c.tableId dbId stmt.table = some id := by
    have heq := (h.loadTableIdByName (h.dbBound _ _ hdb).2 _ _).symm.trans
      hloadTable
    cases hc : c.tableId dbId stmt.table with
    | none =>
        rw [hc] at heq
        exact nomatch heq
    | some id' =>
        rw [hc] at heq
        cases heq
        rfl
  obtain ⟨db, hdbMeta, -, -, -⟩ := h.loadDatabaseMeta hpb hdb
  obtain ⟨info, kv', hmeta, hexec, hsame⟩ := h.sameContent_table hpb hid
  constructor
  · intro hflag
    replace hflag : stmt.ifNotExist = true := hflag
    refine ⟨kv', ?_, hsame⟩
    simp [Executor.execute, analyzeCreateTable, hload, hdbMeta, hloadTable, hflag,
      hmeta, hexec]
  · intro hflag
    replace hflag : stmt.ifNotExist = false := hflag
    simp [Executor.execute, analyzeCreateTable, hload, hdbMeta, hloadTable, hflag,
      Statement.existed]

/-- After any run of statements, a statement about an object that exists takes
    no id: under `IF NOT EXISTS` it succeeds and leaves every content as it was,
    without it it reports the object and writes nothing. -/
theorem create_existing (hpb : pb.Faithful) {h : List (Call × Reply)}
    (hr : Run (Executes pb) .empty h kv) (hids : IdsDistinct h) (call : Call)
    (he : Existing kv call.statement) : Repeats pb kv call := by
  obtain ⟨c, -, hrep, -⟩ := represents_of_run hpb hr hids
  obtain ⟨statement, allocId, now⟩ := call
  cases statement with
  | createDatabase stmt => exact hrep.repeats_database hpb he allocId now
  | createTable stmt => exact hrep.repeats_table hpb he allocId now

/-- After `CREATE DATABASE d` and `CREATE TABLE d.t (i BIGINT)`, the table again
    with no columns at all. -/
theorem create_existing_table :
    ∃ h kv, Run (Executes .wire) .empty h kv ∧ h.length = 2
      ∧ ∀ flag, Repeats .wire kv
        ⟨.createTable ⟨[100], [116], flag, [], []⟩, 9, 0⟩ := by
  obtain ⟨h, kv, hexec, hh⟩ := @exists_of_execAll _ _ _ _ _
    (execute .wire) .empty
    [⟨.createDatabase ⟨[100], false⟩, 1, 0⟩,
      ⟨.createTable ⟨[100], [116], false, [⟨[105], .longlong⟩], []⟩, 5, 0⟩]
    (fun r => ([r.1.filterMap databaseIdTaken, r.1.filterMap tableIdTaken,
      r.1.filterMap (fun e => e.2.taken), [r.1.length]], r.2.faults,
      [r.2.data (.databaseName [100]), r.2.data (.tableName 1 [116])]))
    ([[1], [5], [1, 5], [2]], [], [some (encodeDatabaseID 1 []).2,
      some (encodeTableID 1 5 []).2]) (by decide +kernel)
  simp only [Prod.mk.injEq, List.cons.injEq, and_true] at hh
  obtain ⟨⟨hdb, ht, hall, hlen⟩, hkv, hname, htname⟩ := hh
  have hrun : Run (Executes .wire) .empty h kv := run_of_execAll id hexec
  have hids : IdsDistinct h := by
    refine ⟨by rw [hdb]; decide, by rw [ht]; decide, ?_⟩
    intro e he id hid
    have hmem : id ∈ h.filterMap (fun e => e.2.taken) :=
      List.mem_filterMap.mpr ⟨e, he, hid⟩
    rw [hall] at hmem
    simp only [List.mem_cons, List.not_mem_nil, or_false] at hmem
    omega
  refine ⟨h, kv, hrun, hlen, fun flag => ?_⟩
  refine create_existing SchemaProtobuf.faithful_wire hrun hids _ ⟨1, 5, ?_, ?_⟩
  · exact Metadata.loadDatabaseIdByName_of_some hkv (by decide) hname _
  · exact Metadata.loadTableIdByName_of_some hkv (by decide) (by decide)
      htname _

end Repeats

end AmDb.Executor
