import AmDb.Scheduler.PlanRun
import AmDb.Statement.Execute
import AmDb.Statement.Realizes

/-! # `CREATE` statements on the databases

    A `CREATE` statement on a store that holds databases always returns: it
    answers what the databases say, and the store holds them as they are then. -/

namespace AmDb.Statement

open Codec Schema Storage Chunk AmDb.Expr Plan Analyzer Executor Optimizer
  Scheduler

/-- A statement does on the store what it does on the databases. -/
def Answered {κ : Type} (p : Process κ) (ch : Choices) (n : Nat)
    (kv : KvStorage) (d : Databases) (ast : Ast) : Prop :=
  ∃ status out d' kv' l', d.execute ast = some ((status, out), d')
    ∧ run p ch kv ast = .ok (status, out, kv')
    ∧ Realizes p.env p.pb n l' kv' d'

section Runs

variable {κ : Type} {p : Process κ} {ch : Choices} {kv kv₁ kv₂ : KvStorage}
  {status : Status} {ast : Ast}

/-- A statement ends with the status of its analysis. -/
theorem run_of_failed
    (ha : analyzeAst p.pb p.hash kv ch.now ast = .ok (status, none, kv₁))
    (hst : status ≠ .ok) : run p ch kv ast = .ok (status, [], kv₁) := by
  rw [run, ha, Exec.bind_ok]
  exact if_pos hst

/-- A statement ends as the run of its physical plan. -/
theorem run_eq_of_physical (ast : Ast) {plan : LogicalPlan}
    {node : RelOptNode} {w : World RunState}
    (ha : analyzeAst p.pb p.hash kv ch.now ast = .ok (.ok, some plan, kv₁))
    (hb : buildPlan p.cost ch.fuel ast plan.root = .ok (some node))
    (hr : Scheduler.run (overrides p.pb p.env ch.ho ch.memory plan.objects) node
      { kv := kv₁ } = .ok (status, w)) :
    run p ch kv ast = match w.env.fault with
      | some f => .error f
      | none => .ok (status, w.env.out, w.env.kv) := by
  rw [run, ha, Exec.bind_ok]
  show (buildPlan p.cost ch.fuel ast plan.root >>= _) = _
  rw [hb, Exec.bind_ok]
  show (Scheduler.run _ node _ >>= _) = _
  rw [hr, Exec.bind_ok]
  rfl

/-- Without a fault the run of the physical plan is the statement's. -/
theorem run_of_physical (ast : Ast) {plan : LogicalPlan} {node : RelOptNode}
    {w : World RunState}
    (ha : analyzeAst p.pb p.hash kv ch.now ast = .ok (.ok, some plan, kv₁))
    (hb : buildPlan p.cost ch.fuel ast plan.root = .ok (some node))
    (hr : Scheduler.run (overrides p.pb p.env ch.ho ch.memory plan.objects) node
      { kv := kv₁ } = .ok (status, w))
    (hf : w.env.fault = none) :
    run p ch kv ast = .ok (status, w.env.out, w.env.kv) := by
  rw [run_eq_of_physical ast ha hb hr, hf]

/-- The executor of `CREATE DATABASE` works on the database of its plan. -/
theorem doWork_createDatabase {pb : SchemaProtobuf} {objects : Objects}
    {table : Ref} {t : RelOptTable} (ht : objects.tables[table]? = some t)
    (hd : createDatabaseDoWork pb kv₁ t.schema = (status, kv₂)) (e : Nat) :
    doWork pb objects e (.physical (.createDatabase table) []) { kv := kv₁ }
      = (status, { kv := kv₂ }) := by
  rw [doWork, ht]
  simp only [hd]

/-- The executor of `CREATE TABLE` works on the table of its plan. -/
theorem doWork_createTable {pb : SchemaProtobuf} {objects : Objects}
    {table : Ref} {info : TableInfo} (ht : objects.tableInfo table = some info)
    (hd : createTableDoWork pb kv₁ info = .ok (status, kv₂)) (e : Nat) :
    doWork pb objects e (.physical (.createTable table) []) { kv := kv₁ }
      = (status, { kv := kv₂ }) := by
  rw [doWork, ht]
  simp only [hd]

/-- A create does the work of its executor on what was analyzed. -/
theorem run_of_doWork {op : RelOp} {plan : LogicalPlan}
    (hop : op.physicalType = .physicalCreateDatabase
      ∨ op.physicalType = .physicalCreateTable)
    (ha : analyzeAst p.pb p.hash kv ch.now ast = .ok (.ok, some plan, kv₁))
    (hb : buildPlan p.cost ch.fuel ast plan.root
      = .ok (some (.physical op [])))
    (hwork : doWork p.pb plan.objects 0 (.physical op []) { kv := kv₁ }
      = (status, { kv := kv₂ })) :
    run p ch kv ast = .ok (status, [], kv₂) := by
  obtain ⟨w, hrun, hw⟩ := run_create hop
    (overrides p.pb p.env ch.ho ch.memory plan.objects) { kv := kv₁ }
  have hwork' : (overrides p.pb p.env ch.ho ch.memory plan.objects).doWork 0
      (.physical op []) { kv := kv₁ } = (status, { kv := kv₂ }) := hwork
  rw [hwork'] at hrun hw
  have hres := run_of_physical ast ha hb hrun (by rw [hw])
  rwa [hw] at hres

/-- `CREATE DATABASE`, analyzed and executed. -/
theorem run_createDatabase {stmt : CreateDatabaseStmt} (info : DatabaseInfo)
    (ha : analyzeCreateDatabase p.pb p.hash kv stmt ch.now
      = .ok (.ok, some (createDatabasePlan info), kv₁))
    (hd : createDatabaseDoWork p.pb kv₁ info = (status, kv₂)) :
    run p ch kv (.createDatabase stmt) = .ok (status, [], kv₂) :=
  run_of_doWork (Or.inl rfl) ha rfl (doWork_createDatabase rfl hd 0)

/-- `CREATE TABLE`, analyzed and executed. -/
theorem run_createTable {stmt : CreateTableStmt} (db : DatabaseInfo)
    (info : TableInfo)
    (ha : analyzeCreateTable p.pb p.hash kv stmt ch.now
      = .ok (.ok, some (createTablePlan db info), kv₁))
    (hd : createTableDoWork p.pb kv₁ info = .ok (status, kv₂)) :
    run p ch kv (.createTable stmt) = .ok (status, [], kv₂) :=
  run_of_doWork (Or.inr rfl) ha rfl (doWork_createTable rfl hd 0)

end Runs

/-! ## Databases -/

section Steps

variable {κ : Type} {p : Process κ} {n : Nat} {l : Ledger} {kv : KvStorage}
  {d : Databases}

theorem Realizes.dbId_none (h : Realizes p.env p.pb n l kv d) {name : Bytes}
    (ht : d.tables name = none) : l.catalog.dbId name = none :=
  eq_none_of_rel (ht ▸ h.databases name)

/-- A database that is there has an id, and holds its tables. -/
theorem Realizes.dbId_some (h : Realizes p.env p.pb n l kv d) {name : Bytes}
    {tables : Bytes → Option Relation} (ht : d.tables name = some tables) :
    ∃ dbId, l.catalog.dbId name = some dbId
      ∧ HoldsAll p.env p.pb kv l.catalog dbId tables :=
  exists_of_rel (ht ▸ h.databases name)

theorem onlySchema_databaseWritten (pb : SchemaProtobuf) (kv : KvStorage)
    (info : DatabaseInfo) : OnlySchema kv (databaseWritten pb kv info) :=
  (onlySchema_written kv (.databaseId info.id) _ trivial).trans
    (onlySchema_written _ (.databaseName info.name) _ trivial)

/-- Tables are not described where databases are. -/
theorem samePart_databaseWritten (pb : SchemaProtobuf) (kv : KvStorage)
    (db : DatabaseInfo) (info : TableInfo) :
    SamePart info kv (databaseWritten pb kv db) := by
  refine (onlySchema_databaseWritten pb kv db).samePart ?_
  rw [databaseWritten, KvStorage.written_data_of_ne _ _ (by simp),
    KvStorage.written_data_of_ne _ _ (by simp)]

/-- The record of a database is written: a new one, or what is there. -/
theorem Realizes.databaseWritten (h : Realizes p.env p.pb n l kv d)
    (info : DatabaseInfo) (d' : Databases)
    (hfits : l.catalog.DatabaseFits info.name info.id)
    (hids : ∀ t, t ∈ info.tableIds
      ↔ ∃ n, l.catalog.tableId info.id n = some t)
    (htaken : info.id ∈ l.dbIds)
    (hdatabases : ∀ name, Option.Rel (HoldsAll p.env p.pb kv l.catalog)
      ((l.catalog.addDatabase info.name info.id).dbId name)
      (d'.tables name)) :
    Realizes p.env p.pb n { l with
        catalog := l.catalog.addDatabase info.name info.id }
      (databaseWritten p.pb kv info) d' := by
  have hrep := h.represents.addDatabase hfits hids
  refine h.schema (onlySchema_databaseWritten _ kv info) hrep ?_ ?_ h.tableTaken
    (fun _ _ _ hid => hid)
  · intro name
    refine optionRel_mono (hdatabases name) ?_
    intro dbId tables _ hall
    exact hall.part (fun _ => rfl)
      (fun _ info _ _ => samePart_databaseWritten ..) hrep.reliable
  · intro name id hid
    rcases (Catalog.addDatabase_eq_some hfits.ofName).mp hid with
      ⟨-, rfl⟩ | hold
    · exact htaken
    · exact h.dbTaken name id hold

/-- `CREATE DATABASE`. -/
theorem Realizes.createDatabase (h : Realizes p.env p.pb n l kv d)
    (hpb : p.pb.Faithful) (hn : n < 2 ^ 52) (ch : Choices)
    (stmt : CreateDatabaseStmt) :
    Answered p ch (n + 1) kv d (.createDatabase stmt) := by
  have hload := h.represents.loadDatabaseIdByName stmt.dbName
    kInvalidIDatabaseID
  cases ht : d.tables stmt.dbName with
  | none =>
      -- an unknown name: an id is allocated, and nothing is stored under it
      have hid := h.dbId_none ht
      rw [hid] at hload
      obtain ⟨id, kv', halloc, hbound, hnew, h'⟩ :=
        h.allocateDatabase hn p.hash stmt.dbName
      have hfresh : ∀ name, l.catalog.dbId name ≠ some id :=
        fun name hname => hnew (h.dbTaken name id hname)
      let info : DatabaseInfo :=
        { name := stmt.dbName, id, createTs := ch.now, updateTs := ch.now }
      have hfits : l.catalog.DatabaseFits stmt.dbName id := by
        refine ⟨hbound, ?_, fun name hname => absurd hname (hfresh name)⟩
        intro i hi
        exact absurd (hid.symm.trans hi) (by rintro ⟨⟩)
      have hw := h'.databaseWritten info (d.create stmt.dbName)
        hfits ?_ (by simp [info]) ?_
      · refine ⟨.ok, [], _, _, _, ?_, ?_, hw⟩
        · rw [Databases.execute, ht]
        · have ha : Analyzer.analyzeCreateDatabase p.pb kv stmt id ch.now
              = .ok (.ok, some id, info, kv) := by
            simp [Analyzer.analyzeCreateDatabase, hload, info]
          exact run_createDatabase info (analyzeCreateDatabase_of_some ha halloc)
            (createDatabaseDoWork_reliable h'.represents.reliable info)
      · -- no table is in the new database
        intro t
        constructor
        · rintro ⟨⟩
        · rintro ⟨name, hname⟩
          exact absurd hname (h'.represents.not_tableId hfresh name t)
      · -- its name leads to it, and the others lead where they did
        intro name
        by_cases hname : name = stmt.dbName
        · subst hname
          simp only [Catalog.addDatabase, Databases.create,
            Function.update_self, info]
          refine .some (fun t => ?_)
          rw [Option.eq_none_iff_forall_ne_some.mpr
            (fun i => h'.represents.not_tableId hfresh t i)]
          exact .none
        · simp only [Catalog.addDatabase, Databases.create,
            Function.update_of_ne hname, info]
          exact h'.databases name
  | some tables =>
      -- a known name: an error, or its record is written again
      obtain ⟨id, hid, -⟩ := h.dbId_some ht
      rw [hid] at hload
      cases hflag : stmt.ifNotExist with
      | false =>
          refine ⟨.databaseExisted, [], d, kv, l, ?_, ?_, h.mono⟩
          · simp [Databases.execute, ht, hflag]
          · have ha : Analyzer.analyzeCreateDatabase p.pb kv stmt 0 ch.now
                = .ok (.databaseExisted, none, {}, kv) := by
              simp [Analyzer.analyzeCreateDatabase, hload, hflag]
            exact run_of_failed (analyzeCreateDatabase_of_none ha)
              (by rintro ⟨⟩)
      | true =>
          obtain ⟨info, hmeta, rfl, hname, hids⟩ :=
            h.represents.loadDatabaseMeta hpb hid
          rw [← hname] at hid
          have hw := h.databaseWritten info d
            (h.represents.databaseFits hid) hids (h.dbTaken _ _ hid)
            (by rw [Catalog.addDatabase_self hid]; exact h.databases)
          refine ⟨.ok, [], d, _, _, ?_, ?_, hw.mono⟩
          · simp [Databases.execute, ht, hflag]
          · have ha : Analyzer.analyzeCreateDatabase p.pb kv stmt 0 ch.now
                = .ok (.ok, none, info, kv) := by
              simp [Analyzer.analyzeCreateDatabase, hload, hflag, hmeta]
            exact run_createDatabase info (analyzeCreateDatabase_of_none ha)
              (createDatabaseDoWork_reliable h.represents.reliable info)

/-! ## Tables -/

/-- The records of a table are schema records. -/
theorem onlySchema_tableWritten (pb : SchemaProtobuf) (kv : KvStorage)
    (dbId : Nat) (db : DatabaseInfo) (info : TableInfo) :
    OnlySchema kv (tableWritten pb kv dbId db info) :=
  ((onlySchema_written kv (.databaseId dbId) _ trivial).trans
    (onlySchema_written _ (.tableId dbId info.id) _ trivial)).trans
    (onlySchema_written _ (.tableName dbId info.name) _ trivial)

/-- Another table's description is another record. -/
theorem samePart_tableWritten (pb : SchemaProtobuf) (kv : KvStorage)
    {dbId : Nat} (db : DatabaseInfo) {info info' : TableInfo}
    (hne : ¬ (info'.dbId = dbId ∧ info'.id = info.id)) :
    SamePart info' kv (tableWritten pb kv dbId db info) := by
  refine (onlySchema_tableWritten pb kv dbId db info).samePart ?_
  rw [tableWritten, KvStorage.written_data_of_ne _ _ (by simp),
    KvStorage.written_data_of_ne _ _ (by simpa using hne),
    KvStorage.written_data_of_ne _ _ (by simp)]

/-- The description of the table is one of them. -/
theorem tableWritten_described (pb : SchemaProtobuf) (kv : KvStorage)
    (db : DatabaseInfo) (info : TableInfo) :
    (tableWritten pb kv info.dbId db info).data (.tableId info.dbId info.id)
      = some (pb.table.serializeAsString info.serialize) := by
  rw [tableWritten, KvStorage.written_data_of_ne _ _ (by simp)]
  exact KvStorage.written_data_self ..

/-- A record that was loaded is written back as it was. -/
theorem serialize_deserialize (info : TableInfo) :
    (TableInfo.deserialize info.serialize).serialize = info.serialize := by
  rw [info.deserialize_serialize]
  simp only [TableInfo.serialize, List.map_map, TableProto.mk.injEq, true_and,
    and_true]
  refine ⟨rfl, List.map_congr_left (fun index _ => ?_)⟩
  simp only [Function.comp_apply, IndexInfo.serialize, IndexInfo.persisted,
    List.map_map]
  rfl

/-- The records of a table are written. -/
theorem Realizes.tableWritten (h : Realizes p.env p.pb n l kv d)
    (hpb : p.pb.Faithful) (info : TableInfo) {db : DatabaseInfo}
    (d' : Databases) (hdb : l.catalog.dbId info.dbName = some info.dbId)
    (hdata : kv.data (.databaseId info.dbId)
      = some (p.pb.database.serializeAsString db.serialize))
    (hfits : l.catalog.TableFits info.dbId info.name info.id)
    (htaken : info.id ∈ l.tableIds)
    (hdatabases : ∀ name,
      Option.Rel (HoldsAll p.env p.pb
          (Executor.tableWritten p.pb kv info.dbId db info)
          (l.catalog.addTable info.dbId info.name info.id))
        (l.catalog.dbId name) (d'.tables name)) :
    createTableDoWork p.pb kv info
        = .ok (.ok, Executor.tableWritten p.pb kv info.dbId db info)
      ∧ Realizes p.env p.pb n { l with
          catalog := l.catalog.addTable info.dbId info.name info.id }
        (Executor.tableWritten p.pb kv info.dbId db info) d' := by
  have hwork := h.represents.createTableDoWork_eq hpb hdb hdata
  obtain ⟨kv', hwork', hrep⟩ := h.represents.createTableDoWork hpb hdb
  obtain ⟨-, rfl⟩ := Prod.mk.inj (Except.ok.inj (hwork'.symm.trans hwork))
  refine ⟨hwork, h.schema (onlySchema_tableWritten _ kv _ db info) (hrep hfits)
    hdatabases h.dbTaken ?_ ?_⟩
  · intro dbId name id hid
    rcases (Catalog.addTable_eq_some hfits.ofName).mp hid with ⟨-, rfl⟩ | hold
    · exact htaken
    · exact h.tableTaken dbId name id hold
  · intro dbId name id hid
    exact (Catalog.addTable_eq_some hfits.ofName).mpr (Or.inr hid)

/-- The record of a table that is there is written again. -/
theorem Realizes.tableRewritten (h : Realizes p.env p.pb n l kv d)
    (hpb : p.pb.Faithful) {dbId : Nat} {name : Bytes} {id : Nat}
    (hid : l.catalog.tableId dbId name = some id) :
    ∃ info kv', Metadata.loadTableMeta p.pb kv dbId id = (.ok, info, kv)
      ∧ createTableDoWork p.pb kv info = .ok (.ok, kv')
      ∧ Realizes p.env p.pb n l kv' d := by
  obtain ⟨info₀, hrecord, hid₀, hname, hdbId, hdbName⟩ :=
    h.represents.tableRecords dbId name id hid
  subst hid₀ hname hdbId
  obtain ⟨db, hdata, -⟩ := h.represents.dbRecords _ _ hdbName
  let info : TableInfo := .deserialize info₀.serialize
  have hself : l.catalog.addTable info.dbId info.name info.id = l.catalog :=
    Catalog.addTable_self hid
  have hpart : ∀ info', SamePart info' kv
      (Executor.tableWritten p.pb kv info.dbId db info) := by
    intro info'
    by_cases hsame : info'.dbId = info.dbId ∧ info'.id = info.id
    · refine (onlySchema_tableWritten _ kv _ db info).samePart ?_
      rw [hsame.1, hsame.2, tableWritten_described, serialize_deserialize]
      exact hrecord.symm
    · exact samePart_tableWritten _ kv db hsame
  obtain ⟨hwork, hw⟩ := h.tableWritten hpb info d hdbName hdata
    (h.represents.tableFits hid) (h.tableTaken _ _ _ hid) (by
      intro name
      refine optionRel_mono (h.databases name) ?_
      intro dbId tables _ hall
      rw [hself]
      exact hall.part (fun _ => rfl) (fun _ info' _ _ => hpart info')
        h.represents.reliable)
  rw [hself] at hw
  exact ⟨info, _, Metadata.loadTableMeta_of_some hpb h.represents.reliable
    hrecord, hwork, hw⟩

/-- The table that was written under a new id is a new table. -/
theorem Realizes.newTable (h : Realizes p.env p.pb n l kv d)
    (hpb : p.pb.Faithful) {info : TableInfo} (db : DatabaseInfo)
    (hfresh : ∀ dbId name, l.catalog.tableId dbId name ≠ some info.id) :
    Table.NewTable p.pb (.deserialize info.serialize)
      (Executor.tableWritten p.pb kv info.dbId db info) := by
  have hnone : ∀ key, OwnKey (.deserialize info.serialize) key →
      (Executor.tableWritten p.pb kv info.dbId db info).data key = none := by
    intro key hkey
    rw [onlySchema_tableWritten _ kv _ db info key (not_schemaKey_of_own hkey)]
    exact h.unused _ (fun name => hfresh _ name) key hkey
  refine ⟨h.represents.reliable, ⟨_, _, tableWritten_described ..,
    p.pb.table.parse_serialize _ (hpb.table _), rfl⟩, ?_, ?_⟩
  · exact fun i hi => hnone _ ⟨rfl, rfl⟩
  · exact fun colKeys => hnone _ ⟨rfl, rfl⟩

/-- The records of a new table are written: it holds an empty relation. -/
theorem Realizes.tableAdded (h : Realizes p.env p.pb n l kv d)
    (hpb : p.pb.Faithful) {stmt : CreateTableStmt} (now : Nat) {dbId id : Nat}
    {tables : Bytes → Option Relation} {r : Relation}
    (hdb : l.catalog.dbId stmt.db = some dbId)
    (hall : HoldsAll p.env p.pb kv l.catalog dbId tables)
    (hnone : l.catalog.tableId dbId stmt.table = none)
    (hr : newRelation stmt = some r) (hbound : 1 ≤ id ∧ id < 2 ^ 64)
    (htaken : id ∈ l.tableIds)
    (hfresh : ∀ dbId name, l.catalog.tableId dbId name ≠ some id) :
    ∃ info kv' l', newTableInfo stmt dbId id now = .ok info
      ∧ createTableDoWork p.pb kv info = .ok (.ok, kv')
      ∧ Realizes p.env p.pb n l' kv' (d.put stmt.db tables stmt.table r) := by
  obtain ⟨-, -, -, -, hd, -⟩ := newRelation_eq_some hr
  obtain ⟨info, hinfo⟩ := exists_info hd dbId id now
  obtain ⟨rfl, hdbName, rfl, hname⟩ := newTableInfo_fields hinfo
  obtain ⟨db, hdata, -⟩ := h.represents.dbRecords _ _ hdb
  have hfits : l.catalog.TableFits info.dbId info.name info.id := by
    rw [hname]
    refine ⟨hbound, ?_, fun d t ht => absurd ht (hfresh d t)⟩
    intro i hi
    exact absurd (hnone.symm.trans hi) (by rintro ⟨⟩)
  -- the new table holds the empty relation
  obtain ⟨primary, key, hholds⟩ := holds_new p.env hr hinfo
    (h.newTable hpb db hfresh)
  have hid : (l.catalog.addTable info.dbId info.name info.id).tableId info.dbId
      stmt.table = some info.id :=
    (Catalog.addTable_eq_some hfits.ofName).mpr
      (Or.inl ⟨⟨rfl, hname.symm⟩, rfl⟩)
  have hother : ∀ d t, ¬ (d = info.dbId ∧ t = stmt.table) →
      (l.catalog.addTable info.dbId info.name info.id).tableId d t
        = l.catalog.tableId d t := by
    intro d t hne
    ext i
    rw [Catalog.addTable_eq_some hfits.ofName, hname]
    exact or_iff_right (fun hnew => hne hnew.1)
  -- the parts of the other tables are not touched
  have hpart : ∀ (info' : TableInfo) t,
      ¬ (info'.dbId = info.dbId ∧ t = stmt.table) →
      l.catalog.tableId info'.dbId t = some info'.id → SamePart info' kv
        (Executor.tableWritten p.pb kv info.dbId db info) := by
    intro info' t _ ht
    refine samePart_tableWritten _ kv db ?_
    exact fun hsame => hfresh _ t (hsame.2 ▸ ht)
  obtain ⟨hwork, hw⟩ := h.tableWritten hpb info _ (hdbName ▸ hdb) hdata hfits
    htaken (h.put hdb hall rfl hid hother hpart h.represents.reliable
      ⟨.deserialize info.serialize, primary, key, rfl, rfl, hholds⟩)
  exact ⟨info, _, _, hinfo, hwork, hw⟩

/-- `CREATE TABLE`, of a table that the databases have a meaning for. -/
theorem Realizes.createTable (h : Realizes p.env p.pb n l kv d)
    (hpb : p.pb.Faithful) (hn : n < 2 ^ 52) (ch : Choices)
    {stmt : CreateTableStmt}
    (hd : (d.execute (.createTable stmt)).isSome) :
    Answered p ch (n + 1) kv d (.createTable stmt) := by
  have hload := h.represents.loadDatabaseIdByName stmt.db kInvalidIDatabaseID
  cases ht : d.tables stmt.db with
  | none =>
      -- the database is not there
      rw [h.dbId_none ht] at hload
      refine ⟨.databaseNotFound, [], d, kv, l, ?_, ?_, h.mono⟩
      · simp [Databases.execute, ht]
      · have ha : Analyzer.analyzeCreateTable p.pb kv stmt 0 ch.now
            = .ok (.databaseNotFound, none, {}, kv) := by
          simp [Analyzer.analyzeCreateTable, hload]
        obtain ⟨_, ha⟩ := analyzeCreateTable_of_none ha
        exact run_of_failed ha (by rintro ⟨⟩)
  | some tables =>
      obtain ⟨dbId, hdb, hall⟩ := h.dbId_some ht
      rw [hdb] at hload
      obtain ⟨db, hdbMeta, -⟩ := h.represents.loadDatabaseMeta hpb hdb
      have htable := h.represents.loadTableIdByName
        (h.represents.dbBound _ _ hdb).2 stmt.table kInvalidTableID
      cases hr : tables stmt.table with
      | some r =>
          -- the table is there: an error, or its record is written again
          obtain ⟨id, hid, -⟩ := exists_of_rel (hr ▸ hall stmt.table)
          rw [hid] at htable
          cases hflag : stmt.ifNotExist with
          | false =>
              refine ⟨.tableExiste, [], d, kv, l, ?_, ?_, h.mono⟩
              · simp [Databases.execute, ht, hr, hflag]
              · have ha : Analyzer.analyzeCreateTable p.pb kv stmt 0 ch.now
                    = .ok (.tableExiste, none, {}, kv) := by
                  simp [Analyzer.analyzeCreateTable, hload, hdbMeta, htable,
                    hflag]
                obtain ⟨_, ha⟩ := analyzeCreateTable_of_none ha
                exact run_of_failed ha (by rintro ⟨⟩)
          | true =>
              obtain ⟨info, kv', hmeta, hwork, hw⟩ := h.tableRewritten hpb hid
              refine ⟨.ok, [], d, kv', l, ?_, ?_, hw.mono⟩
              · simp [Databases.execute, ht, hr, hflag]
              · have ha : Analyzer.analyzeCreateTable p.pb kv stmt 0 ch.now
                    = .ok (.ok, none, info, kv) := by
                  simp [Analyzer.analyzeCreateTable, hload, hdbMeta, htable,
                    hflag, hmeta]
                obtain ⟨db', ha⟩ := analyzeCreateTable_of_none ha
                exact run_createTable db' info ha hwork
      | none =>
          -- a new table, under an id that is nobody's
          have hnone := eq_none_of_rel (hr ▸ hall stmt.table)
          rw [hnone] at htable
          cases hnew : newRelation stmt with
          | none => simp [Databases.execute, ht, hr, hnew] at hd
          | some r =>
              obtain ⟨id, kv₁, halloc, hbound, hfresh, h'⟩ :=
                h.allocateTable hn p.hash stmt.table
              obtain ⟨dbId', hdb', hall'⟩ := h'.dbId_some ht
              obtain rfl := Option.some.inj (hdb.symm.trans hdb')
              obtain ⟨info, kv', l', hinfo, hwork, hw⟩ := h'.tableAdded hpb
                ch.now hdb hall' hnone hnew hbound (by simp)
                (fun d t hid => hfresh (h.tableTaken d t id hid))
              refine ⟨.ok, [], _, kv', l', ?_, ?_, hw⟩
              · simp [Databases.execute, ht, hr, hnew]
              · have ha : Analyzer.analyzeCreateTable p.pb kv stmt id ch.now
                    = .ok (.ok, some id, info, kv) := by
                  simp [Analyzer.analyzeCreateTable, hload, hdbMeta, htable,
                    hinfo]
                obtain ⟨db', ha⟩ := analyzeCreateTable_of_some ha halloc
                exact run_createTable db' info ha hwork

end Steps

end AmDb.Statement
