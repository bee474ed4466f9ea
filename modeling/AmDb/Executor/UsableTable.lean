import AmDb.Executor.CreateFailure
import AmDb.Expression.ExprValue

/-! # What `CREATE TABLE` lets through

    The record of a new table is built from the statement as it is.  It is of
    use to the rest of the system just when the statement names each of its
    columns once, in its constraints too, has one primary key, and declares no
    type that a tuple has no room for. -/

namespace AmDb.Executor

open Schema Storage Analyzer AmDb.Expr

/-- `TypeSize` and `EncodeExprValue` have a case for the column's values. -/
def Supported (type : MysqlType) : Prop :=
  typeSize (toExprType type) ≠ 255 ∧ toExprType type ∈ codecTypes

instance (type : MysqlType) : Decidable (Supported type) :=
  inferInstanceAs (Decidable (_ ∧ _))

/-- What the rest of the system takes for granted of a table. -/
structure Usable (table : TableInfo) : Prop where
  onePrimary   : table.indexList.countP (·.type = .primary) = 1
  hasPrimary   : ∃ index, table.primary = some index ∧ index.type = .primary
  indexColumns : ∀ index ∈ table.indexList, ∀ c ∈ index.columns,
    c ∈ table.columnList
  distinct     : (table.columnList.map ColumnInfo.name).Nodup
  supported    : ∀ c ∈ table.columnList, Supported c.type.type

/-- A statement that describes such a table. -/
structure WellFormed (stmt : CreateTableStmt) : Prop where
  onePrimary : stmt.constraints.countP (·.type = .primary) = 1
  declared   : ∀ consDef ∈ stmt.constraints, ∀ name ∈ consDef.columns,
    name ∈ stmt.columns.map ColumnDef.name
  distinct   : (stmt.columns.map ColumnDef.name).Nodup
  supported  : ∀ colDef ∈ stmt.columns, Supported colDef.type

/-- The statement is about a table that is not there, of a database that is. -/
def Catalog.IsNew (c : Catalog) (stmt : CreateTableStmt) : Prop :=
  ∃ dbId, c.dbId stmt.db = some dbId ∧ c.tableId dbId stmt.table = none

/-- `Analyze` returns, and when it returns `C_OK` for a new table, the record
    has no column of a type without a case, and is usable after a dump and a
    load. -/
def ChecksTable (pb : SchemaProtobuf) (kv : KvStorage) (stmt : CreateTableStmt)
    (allocId now : Nat) : Prop :=
  ∃ status taken info kv',
    analyzeCreateTable pb kv stmt allocId now = .ok (status, taken, info, kv')
    ∧ (status = .ok → taken.isSome →
      (∀ c ∈ info.columnList, Supported c.type.type)
      ∧ ∃ kv₁ loaded kv₂,
        Metadata.dumpTableMeta pb kv' info.dbId info.id info = (.ok, kv₁)
        ∧ Metadata.loadTableMeta pb kv₁ info.dbId info.id = (.ok, loaded, kv₂)
        ∧ Usable loaded)

/-! ## The columns and the indexes of the record -/

section Record

variable {tableId : Nat} {tableName : Bytes} {columnList : List ColumnInfo}

/-- The columns are named as in the statement. -/
theorem map_name_columnInfos (i : Nat) (colDefs : List ColumnDef) :
    (columnInfos tableId tableName i colDefs).map ColumnInfo.name
      = colDefs.map ColumnDef.name := by
  induction colDefs generalizing i with
  | nil => rfl
  | cons colDef colDefs ih => exact congrArg (colDef.name :: ·) (ih (i + 1))

/-- The columns have the types of the statement. -/
theorem map_type_columnInfos (i : Nat) (colDefs : List ColumnDef) :
    (columnInfos tableId tableName i colDefs).map (·.type.type)
      = colDefs.map ColumnDef.type := by
  induction colDefs generalizing i with
  | nil => rfl
  | cons colDef colDefs ih => exact congrArg (colDef.type :: ·) (ih (i + 1))

/-- A constraint's columns that are found are the table's. -/
theorem constraintColumns_ok {colNames : List Bytes} {cols : List ColumnInfo}
    (h : constraintColumns columnList colNames = .ok cols) :
    (∀ c ∈ cols, c ∈ columnList)
      ∧ ∀ name ∈ colNames, name ∈ columnList.map ColumnInfo.name := by
  induction colNames generalizing cols with
  | nil =>
      cases h
      exact ⟨List.forall_mem_nil _, List.forall_mem_nil _⟩
  | cons name colNames ih =>
      rw [constraintColumns] at h
      cases hfind : columnList.find? (·.name = name) with
      | none =>
          rw [hfind] at h
          cases h
      | some c =>
          rw [hfind] at h
          obtain ⟨rest, hrest, hcons⟩ := Exec.bind_eq_ok.mp h
          cases hcons
          obtain ⟨hin, hdeclared⟩ := ih hrest
          have hmem := List.mem_of_find?_eq_some hfind
          have hname : c.name = name := by
            simpa using List.find?_some hfind
          exact ⟨List.forall_mem_cons.mpr ⟨hmem, hin⟩, List.forall_mem_cons.mpr
            ⟨List.mem_map.mpr ⟨c, hmem, hname⟩, hdeclared⟩⟩

/-- Columns that are all there are found. -/
theorem exists_constraintColumns {colNames : List Bytes}
    (h : ∀ name ∈ colNames, name ∈ columnList.map ColumnInfo.name) :
    ∃ cols, constraintColumns columnList colNames = .ok cols := by
  induction colNames with
  | nil => exact ⟨[], rfl⟩
  | cons name colNames ih =>
      obtain ⟨hname, hnames⟩ := List.forall_mem_cons.mp h
      obtain ⟨cols, hcols⟩ := ih hnames
      obtain ⟨c, hc, hcname⟩ := List.mem_map.mp hname
      cases hfind : columnList.find? (·.name = name) with
      | none =>
          have hne := List.find?_eq_none.mp hfind c hc
          exact absurd hcname (by simpa using hne)
      | some c' =>
          refine ⟨c' :: cols, ?_⟩
          rw [constraintColumns, hfind]
          simp only [hcols, Exec.bind_ok, Exec.pure_eq]

/-- The indexes of a table: one of each constraint's type, on columns of the
    table. -/
structure IndexesOf (columnList : List ColumnInfo) (consDefs : List Constraint)
    (indexList : List IndexInfo) : Prop where
  types   : indexList.map IndexInfo.type = consDefs.map Constraint.type
  columns : ∀ index ∈ indexList, ∀ c ∈ index.columns, c ∈ columnList

/-- The loop over the constraints makes an index of each, on columns that are
there. -/
theorem indexInfos_ok {i : Nat} {consDefs : List Constraint}
    {indexList : List IndexInfo} (h : indexInfos tableId tableName columnList i
      consDefs = .ok indexList) :
    IndexesOf columnList consDefs indexList
      ∧ ∀ consDef ∈ consDefs, ∀ name ∈ consDef.columns,
        name ∈ columnList.map ColumnInfo.name := by
  induction consDefs generalizing i indexList with
  | nil =>
      cases h
      exact ⟨⟨rfl, List.forall_mem_nil _⟩, List.forall_mem_nil _⟩
  | cons consDef consDefs ih =>
      obtain ⟨cols, hcols, h⟩ := Exec.bind_eq_ok.mp h
      obtain ⟨rest, hrest, h⟩ := Exec.bind_eq_ok.mp h
      cases h
      obtain ⟨hof, hrest⟩ := ih hrest
      obtain ⟨hin, hnames⟩ := constraintColumns_ok hcols
      refine ⟨⟨?_, List.forall_mem_cons.mpr ⟨hin, hof.columns⟩⟩,
        List.forall_mem_cons.mpr ⟨hnames, hrest⟩⟩
      rw [List.map_cons, hof.types, List.map_cons]

/-- It returns when all the columns are there. -/
theorem exists_indexInfos (i : Nat) {consDefs : List Constraint}
    (h : ∀ consDef ∈ consDefs, ∀ name ∈ consDef.columns,
      name ∈ columnList.map ColumnInfo.name) :
    ∃ indexList, indexInfos tableId tableName columnList i consDefs
      = .ok indexList := by
  induction consDefs generalizing i with
  | nil => exact ⟨[], rfl⟩
  | cons consDef consDefs ih =>
      obtain ⟨hnames, hrest⟩ := List.forall_mem_cons.mp h
      obtain ⟨cols, hcols⟩ := exists_constraintColumns hnames
      obtain ⟨rest, hrest⟩ := ih (i + 1) hrest
      rw [indexInfos, hcols, Exec.bind_ok, hrest]
      exact ⟨_, rfl⟩

end Record

/-- Any primary index makes one the primary one. -/
theorem exists_lastPrimary {l : List IndexInfo}
    (h : ∃ index ∈ l, index.type = .primary) (i : Nat)
    (primary : Option Nat) :
    ∃ j index, lastPrimary i primary l = some (i + j) ∧ l[j]? = some index
      ∧ index.type = .primary := by
  induction l generalizing i primary with
  | nil => simp at h
  | cons index l ih =>
      rw [lastPrimary]
      by_cases hl : ∃ x ∈ l, x.type = .primary
      · obtain ⟨j, x, hlast, hj, hx⟩ := ih hl (i + 1)
          (if index.type = .primary then some i else primary)
        refine ⟨j + 1, x, ?_, hj, hx⟩
        rw [hlast, Nat.add_right_comm, Nat.add_assoc]
      · have hindex : index.type = .primary := by
          obtain ⟨x, hx, ht⟩ := h
          rcases List.mem_cons.mp hx with rfl | hx
          · exact ht
          · exact absurd ⟨x, hx, ht⟩ hl
        refine ⟨0, index, ?_, rfl, hindex⟩
        rw [if_pos hindex, lastPrimary_of_none (fun x hx ht => hl ⟨x, hx, ht⟩)]
        rfl

section Checks

variable {pb : SchemaProtobuf} {kv : KvStorage} {c : Catalog}
  {stmt : CreateTableStmt} {dbId tableId now : Nat} {info : TableInfo}

/-- What the record of a new table has from the statement. -/
structure BuiltFrom (stmt : CreateTableStmt) (info : TableInfo) : Prop where
  names   : info.columnList.map ColumnInfo.name
    = stmt.columns.map ColumnDef.name
  types   : info.columnList.map (·.type.type) = stmt.columns.map ColumnDef.type
  indexes : IndexesOf info.columnList stmt.constraints info.indexList

/-- A record that was built names only columns of the statement. -/
theorem newTableInfo_ok (h : newTableInfo stmt dbId tableId now = .ok info) :
    BuiltFrom stmt info ∧ ∀ consDef ∈ stmt.constraints,
      ∀ name ∈ consDef.columns, name ∈ stmt.columns.map ColumnDef.name := by
  obtain ⟨indexList, hindexes, hinfo⟩ := Exec.bind_eq_ok.mp h
  cases hinfo
  obtain ⟨hof, hdeclared⟩ := indexInfos_ok hindexes
  rw [map_name_columnInfos] at hdeclared
  exact ⟨⟨map_name_columnInfos 0 stmt.columns,
    map_type_columnInfos 0 stmt.columns, hof⟩, hdeclared⟩

/-- It is built when all the columns are there. -/
theorem exists_newTableInfo (h : ∀ consDef ∈ stmt.constraints,
    ∀ name ∈ consDef.columns, name ∈ stmt.columns.map ColumnDef.name) :
    ∃ info, newTableInfo stmt dbId tableId now = .ok info := by
  obtain ⟨indexList, hindexes⟩ := @exists_indexInfos tableId stmt.table
    (columnInfos tableId stmt.table 0 stmt.columns) 0 stmt.constraints
    (by rwa [map_name_columnInfos])
  rw [newTableInfo, hindexes]
  exact ⟨_, rfl⟩

/-- The indexes that are the primary one are those of the constraints that
    say so. -/
theorem IndexesOf.countP_eq {columnList : List ColumnInfo}
    {consDefs : List Constraint} {indexList : List IndexInfo}
    (h : IndexesOf columnList consDefs indexList) :
    indexList.countP (·.type = .primary)
      = consDefs.countP (·.type = .primary) := by
  have hcount := congrArg (List.countP (· = ConstraintType.primary)) h.types
  simpa only [List.countP_map, Function.comp_def] using hcount

/-- What a dump and a load leave of the record is usable when there is one
    primary key and no name twice: the types are gone. -/
theorem BuiltFrom.usable_iff (h : BuiltFrom stmt info) :
    Usable (.deserialize info.serialize)
      ↔ stmt.constraints.countP (·.type = .primary) = 1
        ∧ (stmt.columns.map ColumnDef.name).Nodup := by
  -- the indexes and the column names are the statement's
  have hcount : (TableInfo.deserialize info.serialize).indexList.countP
      (·.type = .primary) = stmt.constraints.countP (·.type = .primary) := by
    rw [← h.indexes.countP_eq, TableInfo.deserialize_serialize]
    show (info.indexList.map IndexInfo.persisted).countP _ = _
    rw [List.countP_map]
    rfl
  have hnames : (TableInfo.deserialize info.serialize).columnList.map
      ColumnInfo.name = stmt.columns.map ColumnDef.name := by
    rw [← h.names, TableInfo.deserialize_serialize]
    show (info.columnList.map ColumnInfo.persisted).map _ = _
    rw [List.map_map]
    rfl
  constructor
  · intro hu
    exact ⟨hcount ▸ hu.onePrimary, hnames ▸ hu.distinct⟩
  · rintro ⟨hone, hdistinct⟩
    have hone : (TableInfo.deserialize info.serialize).indexList.countP
        (·.type = .primary) = 1 := hcount.trans hone
    refine ⟨hone, ?_, ?_, hnames ▸ hdistinct, ?_⟩
    · -- the one primary index is the last, so it is found
      have hpos : 0 < (TableInfo.deserialize info.serialize).indexList.countP
          (·.type = .primary) := by
        rw [hone]
        exact Nat.one_pos
      obtain ⟨index, hindex, ht⟩ := List.countP_pos_iff.mp hpos
      obtain ⟨j, index, hlast, hj, ht⟩ :=
        exists_lastPrimary ⟨index, hindex, of_decide_eq_true ht⟩ 0 none
      refine ⟨index, ?_, ht⟩
      have hprimary : (TableInfo.deserialize info.serialize).primaryIndex
          = some (0 + j) := hlast
      rw [TableInfo.primary, hprimary, Nat.zero_add]
      exact hj
    · rw [TableInfo.deserialize_serialize]
      intro index hindex col hcol
      have hindex : index ∈ info.indexList.map IndexInfo.persisted := hindex
      obtain ⟨index', hindex', rfl⟩ := List.mem_map.mp hindex
      obtain ⟨col', hcol', rfl⟩ := List.mem_map.mp hcol
      exact List.mem_map_of_mem (h.indexes.columns index' hindex' col' hcol')
    · rw [TableInfo.deserialize_serialize]
      intro col hcol
      have hcol : col ∈ info.columnList.map ColumnInfo.persisted := hcol
      obtain ⟨col, -, rfl⟩ := List.mem_map.mp hcol
      exact (by decide : Supported .decimal)

/-- The column types are those of the statement. -/
theorem BuiltFrom.supported_iff (h : BuiltFrom stmt info) :
    (∀ col ∈ info.columnList, Supported col.type.type)
      ↔ ∀ colDef ∈ stmt.columns, Supported colDef.type := by
  have hmap := @List.forall_mem_map _ _ (fun col : ColumnInfo => col.type.type)
    info.columnList Supported
  rw [← hmap, h.types, List.forall_mem_map]

/-- A record that was dumped is loaded as what a dump keeps of it. -/
theorem dumped_loaded (hpb : pb.Faithful) (hkv : kv.Reliable)
    (info : TableInfo) {P : TableInfo → Prop} :
    (∃ kv₁ loaded kv₂,
      Metadata.dumpTableMeta pb kv info.dbId info.id info = (.ok, kv₁)
        ∧ Metadata.loadTableMeta pb kv₁ info.dbId info.id = (.ok, loaded, kv₂)
        ∧ P loaded) ↔ P (.deserialize info.serialize) := by
  have hdump := KvStorage.putKV_reliable hkv (.tableId info.dbId info.id)
    (pb.table.serializeAsString info.serialize)
  have hload := Metadata.loadTableMeta_of_some hpb
    (hkv.written (.tableId info.dbId info.id) _)
    (KvStorage.written_data_self kv (.tableId info.dbId info.id)
      (pb.table.serializeAsString info.serialize))
  constructor
  · rintro ⟨kv₁, loaded, kv₂, hd, hl, hP⟩
    obtain rfl : _ = kv₁ := (Prod.mk.inj (hdump.symm.trans hd)).2
    obtain rfl : _ = loaded :=
      (Prod.mk.inj (Prod.mk.inj (hload.symm.trans hl)).2).1
    exact hP
  · intro hP
    exact ⟨_, _, _, hdump, hload, hP⟩

/-- `Analyze` on a catalog: what there is is answered or left alone, and what
    is new is built. -/
theorem Represents.analyzeCreateTable (h : Represents pb kv c)
    (hpb : pb.Faithful) (stmt : CreateTableStmt) (allocId now : Nat) :
    (¬ c.IsNew stmt ∧ ∃ status info, Analyzer.analyzeCreateTable pb kv stmt
        allocId now = .ok (status, none, info, kv))
      ∨ ∃ dbId, c.IsNew stmt ∧ Analyzer.analyzeCreateTable pb kv stmt allocId
        now = (newTableInfo stmt dbId allocId now).map
          (fun info => (.ok, some allocId, info, kv)) := by
  have hload := h.loadDatabaseIdByName stmt.db kInvalidIDatabaseID
  cases hdb : c.dbId stmt.db with
  | none =>
      rw [hdb] at hload
      refine Or.inl ⟨?_, .databaseNotFound, {}, ?_⟩
      · rintro ⟨dbId, hid, -⟩
        cases hdb.symm.trans hid
      · simp [Analyzer.analyzeCreateTable, hload]
  | some dbId =>
      rw [hdb] at hload
      obtain ⟨db, hdbMeta, -, -, -⟩ := h.loadDatabaseMeta hpb hdb
      have htable := h.loadTableIdByName (h.dbBound _ _ hdb).2 stmt.table
        kInvalidTableID
      cases hid : c.tableId dbId stmt.table with
      | none =>
          rw [hid] at htable
          refine Or.inr ⟨dbId, ⟨dbId, hdb, hid⟩, ?_⟩
          cases hinfo : newTableInfo stmt dbId allocId now <;>
            simp [Analyzer.analyzeCreateTable, hload, hdbMeta, htable, hinfo,
              Except.map]
      | some tableId =>
          rw [hid] at htable
          have hold : ¬ c.IsNew stmt := by
            rintro ⟨dbId', hdb', hid'⟩
            obtain rfl := Option.some.inj (hdb.symm.trans hdb')
            cases hid.symm.trans hid'
          cases hflag : stmt.ifNotExist with
          | false =>
              refine Or.inl ⟨hold, .tableExiste, {}, ?_⟩
              simp [Analyzer.analyzeCreateTable, hload, hdbMeta, htable, hflag]
          | true =>
              obtain ⟨info, hmeta, -⟩ := h.loadTableMeta hpb hid
              refine Or.inl ⟨hold, .ok, info, ?_⟩
              simp [Analyzer.analyzeCreateTable, hload, hdbMeta, htable, hflag,
                hmeta]

/-- A statement about a new table that is answered as it should be. -/
theorem ChecksTable.wellFormed (h : Represents pb kv c) (hpb : pb.Faithful)
    {allocId : Nat} (hchecked : ChecksTable pb kv stmt allocId now)
    (hnew : c.IsNew stmt) : WellFormed stmt := by
  obtain ⟨status, taken, info, kv', hok, hchecks⟩ := hchecked
  rcases h.analyzeCreateTable hpb stmt allocId now with
    ⟨hold, -⟩ | ⟨dbId, -, heq⟩
  · exact absurd hnew hold
  · rw [heq] at hok
    cases hinfo : newTableInfo stmt dbId allocId now with
    | error e =>
        rw [hinfo] at hok
        cases hok
    | ok info' =>
        rw [hinfo] at hok
        cases hok
        obtain ⟨hbuilt, hdeclared⟩ := newTableInfo_ok hinfo
        obtain ⟨hsupported, hloaded⟩ := hchecks rfl rfl
        obtain ⟨hone, hdistinct⟩ := hbuilt.usable_iff.mp
          ((dumped_loaded hpb h.reliable _).mp hloaded)
        exact ⟨hone, hdeclared, hdistinct, hbuilt.supported_iff.mp hsupported⟩

/-- `Analyze` does what it should on the statements that describe a usable
    table, and on those about no new table. -/
theorem checksTable_iff (h : Represents pb kv c) (hpb : pb.Faithful)
    (stmt : CreateTableStmt) (allocId now : Nat) :
    ChecksTable pb kv stmt allocId now ↔ (c.IsNew stmt → WellFormed stmt) := by
  refine ⟨fun hchecked hnew => hchecked.wellFormed h hpb hnew, ?_⟩
  intro hwf
  rcases h.analyzeCreateTable hpb stmt allocId now with
    ⟨-, status, info, heq⟩ | ⟨dbId, hnew, heq⟩
  · refine ⟨status, none, info, kv, heq, ?_⟩
    intro _ htaken
    cases htaken
  · obtain ⟨hone, hdeclared, hdistinct, hsupported⟩ := hwf hnew
    obtain ⟨info, hinfo⟩ :=
      @exists_newTableInfo stmt dbId allocId now hdeclared
    obtain ⟨hbuilt, -⟩ := newTableInfo_ok hinfo
    refine ⟨.ok, some allocId, info, kv, by rw [heq, hinfo]; rfl, ?_⟩
    intro _ _
    exact ⟨hbuilt.supported_iff.mpr hsupported,
      (dumped_loaded hpb h.reliable info).mpr
        (hbuilt.usable_iff.mpr ⟨hone, hdistinct⟩)⟩

end Checks

/-- `CREATE TABLE d.t (a BIGINT, ...)` with these constraints. -/
def createT (constraints : List Constraint) : CreateTableStmt :=
  { db := [100], table := [116], ifNotExist := false,
    columns := [⟨[97], .longlong⟩], constraints }

/-- A table with a primary key is answered as it should be. -/
theorem checksTable_iff_primary_key :
    ChecksTable .wire (oneDatabase []).healed
      (createT [⟨[], .primary, [[97]]⟩]) 5 0 :=
  (checksTable_iff (represents_oneDatabase []) SchemaProtobuf.faithful_wire
    _ 5 0).mpr (fun _ => ⟨by decide, by decide, by decide, by decide⟩)

/-- A table without a primary key is created, and a constraint on a column that
    is not there dereferences the end iterator. -/
theorem statement_is_not_checked :
    (∃ info kv', analyzeCreateTable .wire (oneDatabase []).healed (createT [])
          5 0 = .ok (.ok, some 5, info, kv')
        ∧ (TableInfo.deserialize info.serialize).primary = none)
      ∧ ¬ ChecksTable .wire (oneDatabase []).healed (createT []) 5 0
      ∧ analyzeCreateTable .wire (oneDatabase []).healed
          (createT [⟨[], .primary, [[98]]⟩]) 5 0 = .error .undefined
      ∧ ¬ ChecksTable .wire (oneDatabase []).healed
          (createT [⟨[], .primary, [[98]]⟩]) 5 0 := by
  have hnew : ∀ constraints, (Catalog.empty.addDatabase [100] 1).IsNew
      (createT constraints) := fun _ => ⟨1, rfl, rfl⟩
  have hwf : ∀ constraints, ChecksTable .wire (oneDatabase []).healed
      (createT constraints) 5 0 → WellFormed (createT constraints) :=
    fun constraints hchecked => hchecked.wellFormed (represents_oneDatabase [])
      SchemaProtobuf.faithful_wire (hnew constraints)
  have hanalyze : ∀ constraints, ∃ dbId, analyzeCreateTable .wire
      (oneDatabase []).healed (createT constraints) 5 0
        = (newTableInfo (createT constraints) dbId 5 0).map
          (fun info => (.ok, some 5, info, (oneDatabase []).healed)) := by
    intro constraints
    rcases (represents_oneDatabase []).analyzeCreateTable
      SchemaProtobuf.faithful_wire (createT constraints) 5 0 with
      ⟨hold, -⟩ | ⟨dbId, -, heq⟩
    · exact absurd (hnew constraints) hold
    · exact ⟨dbId, heq⟩
  obtain ⟨dbId, hnone⟩ := hanalyze []
  obtain ⟨dbId', hother⟩ := hanalyze [⟨[], .primary, [[98]]⟩]
  refine ⟨⟨_, _, hnone, rfl⟩, ?_, hother, ?_⟩
  · exact fun hchecked => absurd (hwf _ hchecked).onePrimary (by decide)
  · exact fun hchecked => absurd (hwf _ hchecked).declared (by decide)

end AmDb.Executor
