import AmDb.Analyzer.InsertAnalyzer
import AmDb.Storage.TableFrame

/-! # Execution of `INSERT` statements

    `sql/executor/insert_executor.cc`.  A cell goes to the column at its own
    position; the statuses of `SetColValue` and of `Table::Insert` are not
    passed on. -/

namespace AmDb.Executor

open Codec Schema Storage Analyzer Chunk

/-- `InsertExecutor`.  `table` is made for the statement, `rowDesc` is the
    layout of its rows. -/
structure InsertExecutor where
  insertPlan : InsertPlan
  table      : Table
  rowDesc    : RowDescriptor

namespace InsertExecutor

/-- The constructor. -/
def new (plan : InsertPlan) : InsertExecutor :=
  { insertPlan := plan
    table := { tableInfo := plan.tableInfo }
    rowDesc := toRowDesc plan.tableInfo }

/-- `SetColValue` of a literal: a double has no column's type. -/
def setCell (desc : RowDescriptor) (cells : Cells) (colId : Nat)
    (cell : LiteralExpr) : Exec (Status × Cells) :=
  match cell.getValue with
  | some v => setColValue desc cells colId v
  | none => match desc[colId % 2 ^ 32]? with
    | none => .error .assertion
    | some _ => .ok (.columnDescError, cells)

/-- The loop over the cells of a record, from position `j`: a null pointer is
    dereferenced, and `cols.at` checks the position. -/
def fillCells (desc : RowDescriptor) : Nat → List (Option LiteralExpr) →
    Cells → Exec Cells
  | _, [], cells => .ok cells
  | _, none :: _, _ => .error .undefined
  | j, some cell :: record, cells =>
      match desc[j % 2 ^ 32]? with
      | none => .error .assertion
      | some d => do
          let (_, cells) ← setCell desc cells d.colId cell
          fillCells desc (j + 1) record cells

/-- A new row with the cells of a record. -/
def fillRow {desc : RowDescriptor} (memory : Memory desc)
    (record : List (Option LiteralExpr)) : Exec Row := do
  let cells ← fillCells desc 0 record (fun _ => none)
  return if record.isEmpty then .blank desc else .fill memory cells

/-- The loop over the records, from position `i`. -/
def fillRows {desc : RowDescriptor} (memory : Nat → Memory desc) :
    Nat → List (List (Option LiteralExpr)) → Exec (List Row)
  | _, [] => .ok []
  | i, record :: records => do
      let row ← fillRow (memory i) record
      let rows ← fillRows memory (i + 1) records
      return row :: rows

/-- `Consume`. -/
def consume (env : Env) (ho : HashOrder) (exec : InsertExecutor)
    (memory : Nat → Memory exec.rowDesc) (chunk : Chunk) (kv : KvStorage) :
    Exec (Status × InsertExecutor × Chunk × KvStorage) := do
  let rowDesc := chunk.rowDesc.getD exec.rowDesc
  let rows ← fillRows memory 0 exec.insertPlan.exprNodes
  let chunk := { chunk with
    rowDesc := some rowDesc, select := chunk.select ++ rows }
  let (_, table, kv) ← exec.table.insert env ho kv chunk
  return (.ok, { exec with table }, chunk, kv)

/-- `Consume` of a chunk without rows, taken apart. -/
theorem consume_ok {env : Env} {ho : HashOrder} {plan : InsertPlan}
    {memory : Nat → Memory (new plan).rowDesc} {kv kv' : KvStorage}
    {status : Status} {exec : InsertExecutor} {chunk : Chunk}
    (h : consume env ho (new plan) memory {} kv
      = .ok (status, exec, chunk, kv')) :
    status = .ok ∧ fillRows memory 0 plan.exprNodes = .ok chunk.select
      ∧ ∃ records,
        Table.encodeRecords plan.tableInfo chunk.select = .ok records
        ∧ SameRecords (Table.batched kv plan.tableInfo records) kv' := by
  obtain ⟨rows, hrows, h⟩ := Exec.bind_eq_ok.mp h
  obtain ⟨⟨s, table, kv₁⟩, hinsert, h⟩ := Exec.bind_eq_ok.mp h
  cases h
  exact ⟨rfl, hrows, Table.insert_records hinsert⟩

end InsertExecutor

end AmDb.Executor
