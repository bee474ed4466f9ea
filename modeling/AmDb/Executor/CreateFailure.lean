import AmDb.Executor.IfNotExists

/-! # A `CREATE TABLE` that fails half way

    `CreateTableExecutor::DoWork` makes six calls to the store.  What is left
    behind when one of them fails, and when that is the old catalog. -/

namespace AmDb.Executor

open Codec Schema Storage

variable {pb : SchemaProtobuf} {kv kv' : KvStorage} {c : Catalog}
  {info : TableInfo} {dbId : Nat} {db : DatabaseInfo}

/-- What the store holds after the first `i` of the six calls: two reads, a
    deletion and three writes. -/
def leftBehind (pb : SchemaProtobuf) (kv : KvStorage) (dbId : Nat)
    (db : DatabaseInfo) (info : TableInfo) : Nat → KvStorage
  | 0 | 1 | 2 => kv
  | 3 => kv.deleted (.databaseId dbId)
  | 4 => kv.written (.databaseId dbId)
      (pb.database.serializeAsString (withTable db info.id).serialize)
  | _ => (kv.written (.databaseId dbId)
      (pb.database.serializeAsString (withTable db info.id).serialize)).written
        (.tableId dbId info.id)
        (pb.table.serializeAsString { info with dbId }.serialize)

/-- The call after the first `i` fails. -/
theorem createTableDoWork_failed (hpb : pb.Faithful) {i : Nat}
    {rest : List Bool} (hi : i < 6)
    (hf : kv.faults = List.replicate i false ++ true :: rest)
    (hname : kv.data (.databaseName info.dbName)
      = some (encodeDatabaseID dbId []).2) (hid : dbId < 2 ^ 64)
    (hdata : kv.data (.databaseId dbId)
      = some (pb.database.serializeAsString db.serialize)) :
    createTableDoWork pb kv info = if i = 0 then .error .undefined
      else .ok (.storageError,
        ⟨(leftBehind pb kv dbId db info i).data, rest⟩) := by
  obtain ⟨data, faults⟩ := kv
  replace hname : data (.databaseName info.dbName) = _ := hname
  replace hdata : data (.databaseId dbId) = _ := hdata
  obtain rfl : faults = _ := hf
  have hdec := Metadata.decodeDatabaseID_encode hid
  have hparse := pb.database.parse_serialize _ (hpb.database db.serialize)
  rw [createTableDoWork, Metadata.loadDatabaseIdByName]
  rcases i with _ | _ | _ | _ | _ | _ | i
  · rfl
  case succ.succ.succ.succ.succ.succ => omega
  all_goals
    simp [List.replicate, KvStorage.getKV, KvStorage.delKV, KvStorage.putKV,
      hname, hdec, hdata, hparse, Metadata.modifyDatabaseMeta,
      Metadata.loadDatabaseMeta, Metadata.dumpDatabaseMeta,
      Metadata.dumpTableMeta, Metadata.dumpTableIdByName, leftBehind,
      KvStorage.deleted, KvStorage.written, withTable]

/-- What the catalog answers once the store works again: the same databases
    with the same tables in them, no table record that was not there, and every
    name as before. -/
structure CatalogKept (pb : SchemaProtobuf) (kv kv' : KvStorage) : Prop where
  databases : ∀ dbId, (Metadata.loadDatabaseMeta pb kv'.healed dbId).1
    = (Metadata.loadDatabaseMeta pb kv.healed dbId).1
  listed    : ∀ dbId t,
    t ∈ (Metadata.loadDatabaseMeta pb kv'.healed dbId).2.1.tableIds
      ↔ t ∈ (Metadata.loadDatabaseMeta pb kv.healed dbId).2.1.tableIds
  loadable  : ∀ dbId t, (Metadata.loadTableMeta pb kv'.healed dbId t).1 = .ok →
    (Metadata.loadTableMeta pb kv.healed dbId t).1 = .ok
  named     : ∀ dbId name,
    kv'.data (.tableName dbId name) = kv.data (.tableName dbId name)

/-- The executor reports the failure and the catalog is what it was. -/
def FailsCleanly (pb : SchemaProtobuf) (kv : KvStorage) (info : TableInfo) :
    Prop :=
  ∃ status kv', createTableDoWork pb kv info = .ok (status, kv')
    ∧ status ≠ .ok ∧ CatalogKept pb kv kv'

section Kept

/-- The same data holds the same catalog. -/
theorem CatalogKept.of_data (h : kv'.data = kv.data) :
    CatalogKept pb kv kv' := by
  have hh : kv'.healed = kv.healed := by
    rw [KvStorage.healed, KvStorage.healed, h]
  refine ⟨?_, ?_, ?_, ?_⟩
  · intro d
    rw [hh]
  · intro d t
    rw [hh]
  · intro d t
    rw [hh]
    exact id
  · intro d name
    rw [h]

/-- What is loaded of a table depends on its record only. -/
theorem loadTableMeta_congr (hkv : kv.Reliable) (hkv' : kv'.Reliable)
    {d t : Nat} (h : kv'.data (.tableId d t) = kv.data (.tableId d t)) :
    (Metadata.loadTableMeta pb kv' d t).1
      = (Metadata.loadTableMeta pb kv d t).1 := by
  simp only [Metadata.loadTableMeta, KvStorage.getKV,
    KvStorage.tick_reliable hkv, KvStorage.tick_reliable hkv', h,
    Bool.false_eq_true, if_false]
  cases kv.data (.tableId d t) with
  | none => rfl
  | some value =>
      cases pb.table.parseFromString value with
      | none => simp
      | some proto => simp

/-- A store with the same content holds the same catalog. -/
theorem SameContent.catalogKept (h : SameContent pb kv.healed kv'.healed) :
    CatalogKept pb kv kv' := by
  refine ⟨h.status, fun d => (h.databases d).tableIds, ?_, ?_⟩
  · intro d t ht
    rwa [loadTableMeta_congr kv.reliable_healed kv'.reliable_healed
      (h.others _ (fun _ => by simp))] at ht
  · intro d name
    exact h.others (.tableName d name) (fun _ => by simp)

/-- A table record written where one was. -/
theorem CatalogKept.tableRecord (h : CatalogKept pb kv kv') {d t : Nat}
    (ht : (Metadata.loadTableMeta pb kv.healed d t).1 = .ok) (value : Bytes) :
    CatalogKept pb kv (kv'.written (.tableId d t) value) := by
  have hdata : ∀ key, key ≠ .tableId d t →
      (kv'.written (.tableId d t) value).healed.data key
        = kv'.healed.data key :=
    fun key hkey => KvStorage.written_data_of_ne _ _ hkey
  have hdb : ∀ i, (kv'.written (.tableId d t) value).healed.data
      (.databaseId i) = kv'.healed.data (.databaseId i) :=
    fun i => hdata _ (by simp)
  have hload := fun i => @loadDatabaseMeta_congr pb _ _
    kv'.reliable_healed (KvStorage.reliable_healed _) i (hdb i)
  refine ⟨?_, ?_, ?_, ?_⟩
  · intro i
    rw [(hload i).1, h.databases]
  · intro i u
    rw [(hload i).2, h.listed]
  · intro d' t' hok
    by_cases hkey : (d', t') = (d, t)
    · obtain ⟨rfl, rfl⟩ := Prod.mk.inj hkey
      exact ht
    · refine h.loadable d' t' ?_
      rwa [loadTableMeta_congr kv'.reliable_healed (KvStorage.reliable_healed _)
        (hdata _ (by simpa using hkey))] at hok
  · intro d' name
    rw [← h.named d' name]
    exact hdata (.tableName d' name) (by simp)

/-- The record with the new table lists it. -/
theorem CatalogKept.mem_of_withTable (h : CatalogKept pb kv kv')
    (hpb : pb.Faithful) {t : Nat}
    (hdata : kv.data (.databaseId dbId)
      = some (pb.database.serializeAsString db.serialize))
    (hdata' : kv'.data (.databaseId dbId)
      = some (pb.database.serializeAsString (withTable db t).serialize)) :
    t ∈ db.tableIds := by
  have hiff := h.listed dbId t
  rw [Metadata.loadDatabaseMeta_of_some hpb kv'.reliable_healed hdata',
    Metadata.loadDatabaseMeta_of_some hpb kv.reliable_healed hdata] at hiff
  rw [← db.mem_deserialize_serialize]
  refine hiff.mp ?_
  rw [(withTable db t).mem_deserialize_serialize]
  exact List.mem_insert_iff.mpr (Or.inl rfl)

end Kept

/-- A failure leaves the old catalog behind when it comes before the deletion
    of the database record, or after its rewriting if the table was listed there
    already. -/
theorem catalogKept_leftBehind_iff (h : Represents pb kv.healed c)
    (hpb : pb.Faithful) (hdb : c.dbId info.dbName = some dbId)
    (hdata : kv.data (.databaseId dbId)
      = some (pb.database.serializeAsString db.serialize))
    {i : Nat} (hi : 1 ≤ i ∧ i < 6) (rest : List Bool) :
    CatalogKept pb kv ⟨(leftBehind pb kv dbId db info i).data, rest⟩
      ↔ i ≤ 2 ∨ 4 ≤ i ∧ ∃ name, c.tableId dbId name = some info.id := by
  have hlisted : info.id ∈ db.tableIds
      ↔ ∃ name, c.tableId dbId name = some info.id := by
    obtain ⟨db', hdata', -, -, htables⟩ := h.dbRecords _ _ hdb
    have hload := Metadata.loadDatabaseMeta_of_some hpb h.reliable hdata
    rw [Metadata.loadDatabaseMeta_of_some hpb h.reliable hdata'] at hload
    have heq := (Prod.mk.inj (Prod.mk.inj hload).2).1
    rw [← db.mem_deserialize_serialize, ← heq, db'.mem_deserialize_serialize]
    exact htables info.id
  rw [← hlisted]
  -- rewriting a record that lists the table changes no catalog
  have hrewritten : info.id ∈ db.tableIds → CatalogKept pb kv
      ⟨(kv.written (.databaseId dbId) (pb.database.serializeAsString
        (withTable db info.id).serialize)).data, rest⟩ := by
    intro hmem
    refine SameContent.catalogKept (sameContent_of_record hpb
      kv.reliable_healed (KvStorage.reliable_healed _) hdata
      (KvStorage.written_data_self ..) (sameDatabase_withTable hmem) ?_)
    exact fun key hkey => KvStorage.written_data_of_ne _ _ hkey
  -- one case for each call that may fail
  rcases i with _ | _ | _ | _ | _ | _ | i
  · omega
  · exact ⟨fun _ => Or.inl (by omega), fun _ => CatalogKept.of_data rfl⟩
  · exact ⟨fun _ => Or.inl (by omega), fun _ => CatalogKept.of_data rfl⟩
  · -- the record is gone
    constructor
    · intro hk
      have hstatus := hk.databases dbId
      have hgone := @Metadata.loadDatabaseMeta_of_none pb
        (KvStorage.healed ⟨(leftBehind pb kv dbId db info 3).data, rest⟩) dbId
        (KvStorage.reliable_healed _) (Function.update_self ..)
      rw [Metadata.loadDatabaseMeta_of_some hpb kv.reliable_healed hdata,
        hgone] at hstatus
      exact nomatch hstatus
    · omega
  · constructor
    · intro hk
      exact Or.inr ⟨by omega,
        hk.mem_of_withTable hpb hdata (KvStorage.written_data_self ..)⟩
    · rintro (hle | ⟨-, hmem⟩)
      · omega
      · exact hrewritten hmem
  · constructor
    · intro hk
      refine Or.inr ⟨by omega, hk.mem_of_withTable hpb hdata ?_⟩
      have hold : (leftBehind pb kv dbId db info 5).data (.databaseId dbId)
          = (leftBehind pb kv dbId db info 4).data (.databaseId dbId) :=
        KvStorage.written_data_of_ne _ _ (by simp)
      exact hold.trans (KvStorage.written_data_self ..)
    · rintro (hle | ⟨-, hmem⟩)
      · omega
      · obtain ⟨name, hid⟩ := hlisted.mp hmem
        obtain ⟨table, hload, -⟩ := h.loadTableMeta hpb hid
        have hok : (Metadata.loadTableMeta pb kv.healed dbId info.id).1 = .ok := by
          rw [hload]
        exact (hrewritten hmem).tableRecord hok _
  · omega

/-- Of the six calls of `DoWork`, the failures that are reported and change
    nothing are those of the read and of the deletion of the database record;
    also those after its rewriting, when the table was in the catalog. -/
theorem failsCleanly_iff (hpb : pb.Faithful) (h : Represents pb kv.healed c)
    (hdb : c.dbId info.dbName = some dbId) {i : Nat} {rest : List Bool}
    (hi : i < 6) (hf : kv.faults = List.replicate i false ++ true :: rest) :
    FailsCleanly pb kv info
      ↔ i = 1 ∨ i = 2 ∨ 4 ≤ i ∧ ∃ name, c.tableId dbId name = some info.id := by
  obtain ⟨db, hdata, -, -, -⟩ := h.dbRecords _ _ hdb
  have hname : kv.data (.databaseName info.dbName)
      = some (encodeDatabaseID dbId []).2 := by
    rw [show kv.data = kv.healed.data from rfl, h.dbNames, hdb]
    rfl
  -- the call that fails decides what is left behind
  have hexec := createTableDoWork_failed hpb hi hf hname (h.dbBound _ _ hdb).2
    hdata
  by_cases h₀ : i = 0
  · rw [if_pos h₀] at hexec
    constructor
    · rintro ⟨status, kv', hok, -⟩
      exact nomatch hexec.symm.trans hok
    · omega
  · rw [if_neg h₀] at hexec
    have hkept := catalogKept_leftBehind_iff h hpb hdb hdata (i := i)
      ⟨by omega, hi⟩ rest
    have hiff : FailsCleanly pb kv info
        ↔ CatalogKept pb kv ⟨(leftBehind pb kv dbId db info i).data, rest⟩ := by
      constructor
      · rintro ⟨status, kv', hok, -, hk⟩
        obtain ⟨-, rfl⟩ := Prod.mk.inj (Except.ok.inj (hexec.symm.trans hok))
        exact hk
      · intro hk
        exact ⟨_, _, hexec, by decide, hk⟩
    rw [hiff, hkept]
    constructor
    · rintro (hle | hlisted)
      · omega
      · exact Or.inr (Or.inr hlisted)
    · rintro (rfl | rfl | hlisted)
      · exact Or.inl (by omega)
      · exact Or.inl (by omega)
      · exact Or.inr hlisted

/-- The store after `CREATE DATABASE d`, and which calls are to fail. -/
def oneDatabase (faults : List Bool) : KvStorage :=
  { databaseWritten .wire .empty { id := 1, name := [100] } with faults }

/-- The store of the instances holds the database `d`. -/
theorem represents_oneDatabase (faults : List Bool) :
    Represents .wire (oneDatabase faults).healed
      (Catalog.empty.addDatabase [100] 1) :=
  @Represents.addDatabase _ _ _ represents_empty { id := 1, name := [100] }
    ⟨by decide, fun _ h => (nomatch h), fun _ h => (nomatch h)⟩
    (fun t => ⟨fun h => (nomatch h), fun ⟨_, h⟩ => (nomatch h)⟩)

/-- `CREATE TABLE d.t`, as the analyzer hands it on. -/
def newTable : TableInfo := { id := 5, dbId := 1, name := [116], dbName := [100] }

/-- The second call fails, which reads the database: nothing was written. -/
theorem failsCleanly_iff_read :
    FailsCleanly .wire (oneDatabase [false, true]) newTable :=
  (@failsCleanly_iff .wire (oneDatabase [false, true]) _ newTable 1
    SchemaProtobuf.faithful_wire (represents_oneDatabase _)
    rfl 1 [] (by decide) rfl).mpr (Or.inl rfl)

/-- The write of the database record fails: it was deleted before, and the
    database cannot be loaded any more. -/
theorem database_record_is_lost :
    (∃ kv', createTableDoWork .wire (oneDatabase [false, false, false, true])
          newTable = .ok (.storageError, kv')
        ∧ (Metadata.loadDatabaseMeta .wire kv'.healed 1).1
          = .storageKvNotFound)
      ∧ ¬ FailsCleanly .wire (oneDatabase [false, false, false, true])
        newTable := by
  have hexec := @createTableDoWork_failed .wire _ newTable 1
    { id := 1, name := [100] } SchemaProtobuf.faithful_wire 3 [] (by decide)
    (show (oneDatabase [false, false, false, true]).faults = _ from rfl)
    rfl (by decide) rfl
  rw [if_neg (by decide)] at hexec
  refine ⟨⟨_, hexec, rfl⟩, ?_⟩
  rintro ⟨status, kv', hok, -, hk⟩
  obtain ⟨-, rfl⟩ := Prod.mk.inj (Except.ok.inj (hexec.symm.trans hok))
  have hold := @Metadata.loadDatabaseMeta_of_some .wire
    (oneDatabase [false, false, false, true]).healed 1
    SchemaProtobuf.faithful_wire (KvStorage.reliable_healed _)
    { id := 1, name := [100] } rfl
  exact nomatch (hk.databases 1).trans (congrArg Prod.fst hold)

end AmDb.Executor
