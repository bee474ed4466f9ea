import AmDb.Storage.Metadata

/-! # Analysis of `CREATE` statements

    `sql/analyzer/create_analyzer.cc`.  The id that `AllocateID` would return
    and the time are the environment's; an analyzer says whether it took the
    id, and when it succeeds it hands the record in its plan to the executor. -/

namespace AmDb.Analyzer

open Schema Storage

def kInvalidIDatabaseID : Nat := 2 ^ 64 - 1
def kInvalidTableID : Nat := 2 ^ 64 - 1

structure CreateDatabaseStmt where
  dbName     : Bytes
  ifNotExist : Bool
  deriving DecidableEq

structure ColumnDef where
  name : Bytes
  type : MysqlType
  deriving DecidableEq

structure Constraint where
  name    : Bytes
  type    : ConstraintType
  columns : List Bytes
  deriving DecidableEq

structure CreateTableStmt where
  db          : Bytes
  table       : Bytes
  ifNotExist  : Bool
  columns     : List ColumnDef
  constraints : List Constraint
  deriving DecidableEq

/-- `"hello world"`, the comment of every column and index. -/
def helloWorld : Bytes :=
  [104, 101, 108, 108, 111, 32, 119, 111, 114, 108, 100]

/-- `CreateDatabaseAnalyzer::Analyze`. -/
def analyzeCreateDatabase (pb : SchemaProtobuf) (kv : KvStorage)
    (stmt : CreateDatabaseStmt) (allocId now : Nat) :
    Exec (Status × Option Nat × DatabaseInfo × KvStorage) := do
  let (status, dbId, kv) ←
    Metadata.loadDatabaseIdByName kv stmt.dbName kInvalidIDatabaseID
  if status = .ok then
    if !stmt.ifNotExist then return (.databaseExisted, none, {}, kv)
    else
      let (status, info, kv) := Metadata.loadDatabaseMeta pb kv dbId
      return (status, none, info, kv)
  else
    return (.ok, some allocId, { name := stmt.dbName, id := allocId,
                                 createTs := now, updateTs := now }, kv)

/-- The loop over the column definitions, from position `i`. -/
def columnInfos (tableId : Nat) (tableName : Bytes) :
    Nat → List ColumnDef → List ColumnInfo
  | _, [] => []
  | i, colDef :: colDefs =>
      { id := i, name := colDef.name, tableId, tableName,
        type := { type := colDef.type, charset := .utf8 },
        comment := helloWorld }
        :: columnInfos tableId tableName (i + 1) colDefs

/-- The columns of a constraint; `name_to_column` keeps the first column of a
    name, and the end iterator is dereferenced for an unknown one. -/
def constraintColumns (columnList : List ColumnInfo) :
    List Bytes → Exec (List ColumnInfo)
  | [] => .ok []
  | colName :: colNames =>
      match columnList.find? (·.name = colName) with
      | none => .error .undefined
      | some colInfo => do
          let cols ← constraintColumns columnList colNames
          return colInfo :: cols

/-- The loop over the constraints, from position `i`. -/
def indexInfos (tableId : Nat) (tableName : Bytes)
    (columnList : List ColumnInfo) :
    Nat → List Constraint → Exec (List IndexInfo)
  | _, [] => .ok []
  | i, consDef :: consDefs => do
      let columns ← constraintColumns columnList consDef.columns
      let rest ← indexInfos tableId tableName columnList (i + 1) consDefs
      return { id := i, name := consDef.name, tableId, tableName,
               rootNodeId := 0, maxTreeNodeId := 0, comment := helloWorld,
               type := consDef.type, columns } :: rest

/-- The record of a new table. -/
def newTableInfo (stmt : CreateTableStmt) (dbId tableId now : Nat) :
    Exec TableInfo := do
  let columnList := columnInfos tableId stmt.table 0 stmt.columns
  let indexList ←
    indexInfos tableId stmt.table columnList 0 stmt.constraints
  return { dbId, dbName := stmt.db, id := tableId, name := stmt.table,
           createTs := now, updateTs := now, columnList, indexList }

/-- `CreateTableAnalyzer::Analyze`. -/
def analyzeCreateTable (pb : SchemaProtobuf) (kv : KvStorage)
    (stmt : CreateTableStmt) (allocId now : Nat) :
    Exec (Status × Option Nat × TableInfo × KvStorage) := do
  let (status, dbId, kv) ←
    Metadata.loadDatabaseIdByName kv stmt.db kInvalidIDatabaseID
  if status ≠ .ok then return (.databaseNotFound, none, {}, kv)
  else
    let (status, _, kv) := Metadata.loadDatabaseMeta pb kv dbId
    if status ≠ .ok then return (status, none, {}, kv)
    else
      let (status, tableId, kv) ←
        Metadata.loadTableIdByName kv dbId stmt.table kInvalidTableID
      if status = .ok then
        if !stmt.ifNotExist then return (.tableExiste, none, {}, kv)
        else
          let (status, info, kv) := Metadata.loadTableMeta pb kv dbId tableId
          return (status, none, info, kv)
      else
        let info ← newTableInfo stmt dbId allocId now
        return (.ok, some allocId, info, kv)

/-- What the record of a new table takes from the statement and its ids. -/
theorem newTableInfo_fields {stmt : CreateTableStmt} {dbId tableId now : Nat}
    {info : TableInfo} (h : newTableInfo stmt dbId tableId now = .ok info) :
    info.dbId = dbId ∧ info.dbName = stmt.db ∧ info.id = tableId
      ∧ info.name = stmt.table := by
  obtain ⟨indexList, -, hinfo⟩ := Exec.bind_eq_ok.mp h
  obtain rfl := Except.ok.inj hinfo
  exact ⟨rfl, rfl, rfl, rfl⟩

/-- Only an unknown column goes wrong. -/
theorem constraintColumns_error {columnList : List ColumnInfo}
    {colNames : List Bytes} {e : Fault}
    (h : constraintColumns columnList colNames = .error e) :
    e = .undefined := by
  induction colNames with
  | nil => cases h
  | cons colName colNames ih =>
      rw [constraintColumns] at h
      split at h
      · exact (Except.error.inj h).symm
      · rcases Exec.bind_eq_error.mp h with h | ⟨_, -, h⟩
        · exact ih h
        · cases h

/-- The loop over the constraints fails only by undefined behaviour. -/
theorem indexInfos_error {tableId i : Nat} {tableName : Bytes}
    {columnList : List ColumnInfo} {consDefs : List Constraint} {e : Fault}
    (h : indexInfos tableId tableName columnList i consDefs = .error e) :
    e = .undefined := by
  induction consDefs generalizing i with
  | nil => cases h
  | cons consDef consDefs ih =>
      rcases Exec.bind_eq_error.mp h with h | ⟨_, -, h⟩
      · exact constraintColumns_error h
      · rcases Exec.bind_eq_error.mp h with h | ⟨_, -, h⟩
        · exact ih h
        · cases h

/-- A record is built but for a constraint on an unknown column. -/
theorem newTableInfo_error {stmt : CreateTableStmt} {dbId tableId now : Nat}
    {e : Fault} (h : newTableInfo stmt dbId tableId now = .error e) :
    e = .undefined := by
  rcases Exec.bind_eq_error.mp h with h | ⟨_, -, h⟩
  · exact indexInfos_error h
  · cases h

end AmDb.Analyzer
