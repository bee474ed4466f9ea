import AmDb.Analyzer.CreateAnalyzer

/-! # Execution of `CREATE` statements

    `sql/executor/create_executor.cc`, and a statement as its analyzer followed
    by its executor. -/

namespace AmDb.Executor

open Schema Storage Analyzer

variable (pb : SchemaProtobuf)

/-- `CreateDatabaseExecutor::DoWork`. -/
def createDatabaseDoWork (kv : KvStorage) (info : DatabaseInfo) :
    Status × KvStorage :=
  let (status, kv) := Metadata.dumpDatabaseMeta pb kv info.id info
  if status ≠ .ok then (status, kv)
  else Metadata.dumpDatabaseIdByName kv info.name info.id

/-- `CreateTableExecutor::DoWork`. -/
def createTableDoWork (kv : KvStorage) (info : TableInfo) :
    Exec (Status × KvStorage) := do
  let (status, dbId, kv) ←
    Metadata.loadDatabaseIdByName kv info.dbName info.dbId
  if status ≠ .ok then return (status, kv)
  else
    let info := { info with dbId }
    let (status, kv) := Metadata.modifyDatabaseMeta pb kv info.dbId
      (fun db => { db with tableIds := db.tableIds.insert info.id })
    if status ≠ .ok then return (status, kv)
    else
      let (status, kv) :=
        Metadata.dumpTableMeta pb kv info.dbId info.id info
      if status ≠ .ok then return (status, kv)
      else
        return Metadata.dumpTableIdByName kv info.dbId info.name info.id

inductive Statement where
  | createDatabase (stmt : CreateDatabaseStmt)
  | createTable (stmt : CreateTableStmt)
  deriving DecidableEq

/-- A statement with what the environment has ready for it: the next id of its
    `IDType` and the time. -/
structure Call where
  statement : Statement
  allocId   : Nat
  now       : Nat
  deriving DecidableEq

/-- The status of a statement and the id it took from the allocator. -/
structure Reply where
  status : Status
  taken  : Option Nat
  deriving DecidableEq

/-- Analyzer, then executor. -/
def execute (kv : KvStorage) (call : Call) : Exec (Reply × KvStorage) :=
  match call.statement with
  | .createDatabase stmt => do
      let (status, taken, info, kv) ←
        analyzeCreateDatabase pb kv stmt call.allocId call.now
      if status ≠ .ok then return (⟨status, taken⟩, kv)
      else
        let (status, kv) := createDatabaseDoWork pb kv info
        return (⟨status, taken⟩, kv)
  | .createTable stmt => do
      let (status, taken, info, kv) ←
        analyzeCreateTable pb kv stmt call.allocId call.now
      if status ≠ .ok then return (⟨status, taken⟩, kv)
      else
        let (status, kv) ← createTableDoWork pb kv info
        return (⟨status, taken⟩, kv)

end AmDb.Executor
