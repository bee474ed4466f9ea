import AmDb.Analyzer.InsertAnalyzer
import AmDb.Analyzer.SelectAnalyzer
import AmDb.Plan.RelOptNode
import AmDb.Storage.IdAllocator

/-! # Analysis of statements

    `AnalyzeAst` and the analyzers with all they do: the ids come from the
    process's `IdAllocator`, and the logical plan points to objects of the
    statement's arena. -/

namespace AmDb.Statement

open Codec Schema Storage Plan Analyzer

/-- `parser::SelectStmt`.  The table is that of `table_refs` when this is a
    table source; of other references, and of a source without a name, there is
    none. -/
structure SelectStmt where
  table : Option (Bytes × Bytes)
  deriving DecidableEq

/-- `stmt_ast`. -/
inductive Ast where
  | createDatabase (stmt : CreateDatabaseStmt)
  | createTable (stmt : CreateTableStmt)
  | insert (stmt : InsertStmt)
  | select (stmt : SelectStmt)
  | other
  deriving DecidableEq

/-- `RelOptTable`.  Nothing reads the database of a scan or an insert. -/
structure RelOptTable where
  schema : DatabaseInfo := {}
  table  : Option TableInfo := none

/-- What a plan points to.  The address of an object is its position; a null
    pointer to an expression takes a place of its own. -/
structure Objects where
  tables : List RelOptTable := []
  ranges : List IndexRange := []
  exprs  : List (Option LiteralExpr) := []

/-- `logical_plan`. -/
structure LogicalPlan where
  root    : RelOptNode
  objects : Objects

/-- The one of `IdAllocatorSingleton::Init`. -/
def idAllocator : IdAllocator := .new 1024

def createDatabasePlan (info : DatabaseInfo) : LogicalPlan where
  root := .logical (.createDatabase 0) []
  objects := { tables := [{ schema := info }] }

def createTablePlan (db : DatabaseInfo) (info : TableInfo) : LogicalPlan where
  root := .logical (.createTable 0) []
  objects := { tables := [{ schema := db, table := some info }] }

/-- The addresses of the cells, record after record, from `n` on. -/
def cellRefs {α : Type} : Nat → List (List α) → List (List Ref)
  | _, [] => []
  | n, record :: records =>
      List.range' n record.length :: cellRefs (n + record.length) records

def insertLogicalPlan (plan : InsertPlan) : LogicalPlan where
  root := .logical (.insert 0 (cellRefs 0 plan.exprNodes)) []
  objects := { tables := [{ table := some plan.tableInfo }]
               exprs := plan.exprNodes.flatten }

def selectLogicalPlan (info : TableInfo) (ranges : List IndexRange) :
    LogicalPlan where
  root := .logical .resultSet [.logical (.filter [])
    [.logical (.tableScan ⟨0, List.range ranges.length, [], []⟩) []]]
  objects := { tables := [{ table := some info }], ranges }

section Analyzers

variable (pb : SchemaProtobuf) (hash : Bytes → Nat) (kv : KvStorage)

/-- `CreateDatabaseAnalyzer::Analyze`. -/
def analyzeCreateDatabase (stmt : CreateDatabaseStmt) (now : Nat) :
    Exec (Status × Option LogicalPlan × KvStorage) := do
  let (status, dbId, kv) ←
    Metadata.loadDatabaseIdByName kv stmt.dbName kInvalidIDatabaseID
  if status = .ok then
    if !stmt.ifNotExist then return (.databaseExisted, none, kv)
    else
      let (status, info, kv) := Metadata.loadDatabaseMeta pb kv dbId
      if status ≠ .ok then return (status, none, kv)
      else return (.ok, some (createDatabasePlan info), kv)
  else
    let (_, dbId, kv) ←
      idAllocator.allocateID hash kv .database stmt.dbName
    return (.ok, some (createDatabasePlan
      { name := stmt.dbName, id := dbId, createTs := now, updateTs := now }),
      kv)

/-- `CreateTableAnalyzer::Analyze`. -/
def analyzeCreateTable (stmt : CreateTableStmt) (now : Nat) :
    Exec (Status × Option LogicalPlan × KvStorage) := do
  let (status, dbId, kv) ←
    Metadata.loadDatabaseIdByName kv stmt.db kInvalidIDatabaseID
  if status ≠ .ok then return (.databaseNotFound, none, kv)
  else
    let (status, db, kv) := Metadata.loadDatabaseMeta pb kv dbId
    if status ≠ .ok then return (status, none, kv)
    else
      let (status, tableId, kv) ←
        Metadata.loadTableIdByName kv dbId stmt.table kInvalidTableID
      if status = .ok then
        if !stmt.ifNotExist then return (.tableExiste, none, kv)
        else
          let (status, info, kv) := Metadata.loadTableMeta pb kv dbId tableId
          if status ≠ .ok then return (status, none, kv)
          else return (.ok, some (createTablePlan db info), kv)
      else
        let (_, tableId, kv) ←
          idAllocator.allocateID hash kv .table stmt.table
        let info ← newTableInfo stmt dbId tableId now
        return (.ok, some (createTablePlan db info), kv)

/-- `InsertAnalyzer::Analyze`. -/
def analyzeInsert (stmt : InsertStmt) :
    Exec (Status × Option LogicalPlan × KvStorage) := do
  let (status, plan, kv) ← Analyzer.analyzeInsert pb kv stmt
  return (status, plan.map insertLogicalPlan, kv)

/-- `SelectAnalyzer::Analyze`: it goes through a table name that may not be
    there, and through `primary_index`. -/
def analyzeSelect (stmt : SelectStmt) :
    Exec (Status × Option LogicalPlan × KvStorage) :=
  match stmt.table with
  | none => .error .undefined
  | some (dbName, tableName) => do
      let (status, dbId, kv) ←
        Metadata.loadDatabaseIdByName kv dbName kInvalidIDatabaseID
      if status ≠ .ok then return (status, none, kv)
      else
        let (status, _, kv) := Metadata.loadDatabaseMeta pb kv dbId
        if status ≠ .ok then return (status, none, kv)
        else
          let (status, tableId, kv) ←
            Metadata.loadTableIdByName kv dbId tableName kInvalidTableID
          if status ≠ .ok then return (status, none, kv)
          else
            let (status, info, kv) :=
              Metadata.loadTableMeta pb kv dbId tableId
            if status ≠ .ok then return (status, none, kv)
            else
              match info.primary with
              | none => .error .undefined
              | some primary =>
                  .ok (.ok, some (selectLogicalPlan info
                    (indexRanges primary)), kv)

/-- `AnalyzeAst`; of other statements the null analyzer is called. -/
def analyzeAst (now : Nat) :
    Ast → Exec (Status × Option LogicalPlan × KvStorage)
  | .createDatabase stmt => analyzeCreateDatabase pb hash kv stmt now
  | .createTable stmt => analyzeCreateTable pb hash kv stmt now
  | .insert stmt => analyzeInsert pb kv stmt
  | .select stmt => analyzeSelect pb kv stmt
  | .other => .error .undefined

end Analyzers

/-! ## The analysis of a catalog

    `AmDb.Analyzer` has the same two functions with the id as an argument and
    the record as the result.  What they return is in the plan here; the id they
    take is the one that is allocated. -/

section CreateAnalyzers

variable {pb : SchemaProtobuf} {hash : Bytes → Nat} {kv kv₁ kv₂ : KvStorage}
  {id taken now : Nat} {status st : Status}

/-- An analysis of `CREATE DATABASE` that needs no id. -/
theorem analyzeCreateDatabase_of_none {stmt : CreateDatabaseStmt}
    {info : DatabaseInfo}
    (h : Analyzer.analyzeCreateDatabase pb kv stmt id now
      = .ok (status, none, info, kv₁)) :
    analyzeCreateDatabase pb hash kv stmt now = .ok (status,
      if status = .ok then some (createDatabasePlan info) else none, kv₁) := by
  obtain ⟨⟨found, dbId, kv'⟩, hload, h⟩ := Exec.bind_eq_ok.mp h
  rw [analyzeCreateDatabase, hload, Exec.bind_ok]
  simp only at h ⊢
  by_cases hfound : found = .ok
  · rw [if_pos hfound] at h ⊢
    by_cases hflag : (!stmt.ifNotExist) = true
    · rw [if_pos hflag] at h ⊢
      cases h
      rfl
    · rw [if_neg hflag] at h ⊢
      cases h
      by_cases hread : (Metadata.loadDatabaseMeta pb kv' dbId).1 = .ok
      · rw [if_neg (not_not.mpr hread), if_pos hread, hread]
        rfl
      · rw [if_pos hread, if_neg hread]
        rfl
  · rw [if_neg hfound] at h
    cases h

/-- One that takes the id that is allocated. -/
theorem analyzeCreateDatabase_of_some {stmt : CreateDatabaseStmt}
    {info : DatabaseInfo}
    (h : Analyzer.analyzeCreateDatabase pb kv stmt id now
      = .ok (status, some taken, info, kv₁))
    (halloc : idAllocator.allocateID hash kv₁ .database stmt.dbName
      = .ok (st, id, kv₂)) :
    analyzeCreateDatabase pb hash kv stmt now
      = .ok (status, some (createDatabasePlan info), kv₂) := by
  obtain ⟨⟨found, dbId, kv'⟩, hload, h⟩ := Exec.bind_eq_ok.mp h
  rw [analyzeCreateDatabase, hload, Exec.bind_ok]
  simp only at h ⊢
  by_cases hfound : found = .ok
  · rw [if_pos hfound] at h
    split_ifs at h <;> cases h
  · rw [if_neg hfound] at h ⊢
    cases h
    rw [halloc]
    rfl

/-- An analysis of `CREATE TABLE` that needs no id; the plan has the database
    beside the table. -/
theorem analyzeCreateTable_of_none {stmt : CreateTableStmt} {info : TableInfo}
    (h : Analyzer.analyzeCreateTable pb kv stmt id now
      = .ok (status, none, info, kv₁)) :
    ∃ db, analyzeCreateTable pb hash kv stmt now = .ok (status,
      if status = .ok then some (createTablePlan db info) else none, kv₁) := by
  obtain ⟨⟨found, dbId, kv'⟩, hload, h⟩ := Exec.bind_eq_ok.mp h
  rw [analyzeCreateTable, hload, Exec.bind_ok]
  simp only at h ⊢
  by_cases hfound : found = .ok
  · rw [if_neg (not_not.mpr hfound)] at h ⊢
    generalize Metadata.loadDatabaseMeta pb kv' dbId = m at h ⊢
    obtain ⟨read, db, kv''⟩ := m
    refine ⟨db, ?_⟩
    simp only at h ⊢
    by_cases hread : read = .ok
    · rw [if_neg (not_not.mpr hread)] at h ⊢
      obtain ⟨⟨known, tableId, kv₃⟩, htable, h⟩ := Exec.bind_eq_ok.mp h
      rw [htable, Exec.bind_ok]
      simp only at h ⊢
      by_cases hknown : known = .ok
      · rw [if_pos hknown] at h ⊢
        by_cases hflag : (!stmt.ifNotExist) = true
        · rw [if_pos hflag] at h ⊢
          cases h
          rfl
        · rw [if_neg hflag] at h ⊢
          cases h
          by_cases hmeta : (Metadata.loadTableMeta pb kv₃ dbId tableId).1 = .ok
          · rw [if_neg (not_not.mpr hmeta), if_pos hmeta, hmeta]
            rfl
          · rw [if_pos hmeta, if_neg hmeta]
            rfl
      · rw [if_neg hknown] at h
        obtain ⟨_, -, h⟩ := Exec.bind_eq_ok.mp h
        cases h
    · rw [if_pos hread] at h ⊢
      cases h
      rw [if_neg hread]
      rfl
  · rw [if_pos hfound] at h
    cases h
    exact ⟨{}, by rw [if_pos hfound]; rfl⟩

/-- One that takes the id that is allocated. -/
theorem analyzeCreateTable_of_some {stmt : CreateTableStmt} {info : TableInfo}
    (h : Analyzer.analyzeCreateTable pb kv stmt id now
      = .ok (status, some taken, info, kv₁))
    (halloc : idAllocator.allocateID hash kv₁ .table stmt.table
      = .ok (st, id, kv₂)) :
    ∃ db, analyzeCreateTable pb hash kv stmt now
      = .ok (status, some (createTablePlan db info), kv₂) := by
  obtain ⟨⟨found, dbId, kv'⟩, hload, h⟩ := Exec.bind_eq_ok.mp h
  rw [analyzeCreateTable, hload, Exec.bind_ok]
  simp only at h ⊢
  by_cases hfound : found = .ok
  · rw [if_neg (not_not.mpr hfound)] at h ⊢
    generalize Metadata.loadDatabaseMeta pb kv' dbId = m at h ⊢
    obtain ⟨read, db, kv''⟩ := m
    refine ⟨db, ?_⟩
    simp only at h ⊢
    by_cases hread : read = .ok
    · rw [if_neg (not_not.mpr hread)] at h ⊢
      obtain ⟨⟨known, tableId, kv₃⟩, htable, h⟩ := Exec.bind_eq_ok.mp h
      rw [htable, Exec.bind_ok]
      simp only at h ⊢
      by_cases hknown : known = .ok
      · rw [if_pos hknown] at h
        split_ifs at h <;> cases h
      · rw [if_neg hknown] at h ⊢
        obtain ⟨info', hinfo, h⟩ := Exec.bind_eq_ok.mp h
        cases h
        rw [halloc, Exec.bind_ok]
        simp only
        rw [hinfo, Exec.bind_ok]
        rfl
    · rw [if_pos hread] at h
      cases h
  · rw [if_pos hfound] at h
    cases h

end CreateAnalyzers

/-- The cells behind their addresses are those of the plan. -/
theorem cells_cellRefs {α : Type} (pre : List (Option α))
    (records : List (List (Option α))) :
    (cellRefs pre.length records).map
        (·.map (fun r => ((pre ++ records.flatten)[r]?).join)) = records := by
  induction records generalizing pre with
  | nil => rfl
  | cons record records ih =>
      have hrest := ih (pre ++ record)
      rw [List.length_append, List.append_assoc] at hrest
      rw [cellRefs, List.map_cons, List.flatten_cons, hrest]
      refine congrArg (· :: records) (List.ext_getElem (by simp) ?_)
      intro i hi hi'
      have hget : (pre ++ (record ++ records.flatten))[pre.length + i]?
          = record[i]? := by
        rw [List.getElem?_append_right (by omega), Nat.add_sub_cancel_left,
          List.getElem?_append_left hi']
      simp only [List.getElem_map, List.getElem_range', Nat.one_mul, hget,
        List.getElem?_eq_getElem hi', Option.join_some]

end AmDb.Statement
