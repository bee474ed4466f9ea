import AmDb.Executor.CreateExecutor
import AmDb.Executor.InsertExecutor
import AmDb.Executor.TableScanExecutor
import AmDb.Optimizer.Cascades
import AmDb.Statement.Analyze

/-! # Execution of statements

    `planner.cc`, the executors of `sql/executor` over one store, and `run` of
    `main.cc`, from the syntax tree on. -/

namespace AmDb.Statement

open Codec Schema Storage Chunk AmDb.Expr Plan Analyzer Optimizer Scheduler
  Executor

/-! ## The plan -/

/-- `ToPhysicalNode`; its default is a null pointer, and a placeholder cannot
    be cast to a logical node. -/
def toPhysicalNode : RelOptNode → Exec (Option RelOptNode)
  | .logical (.createDatabase table) _ =>
      .ok (some (.physical (.createDatabase table) []))
  | .logical (.createTable table) _ =>
      .ok (some (.physical (.createTable table) []))
  | .logical (.insert table exprNodes) _ =>
      .ok (some (.physical (.insert table exprNodes) []))
  | .placeHolder _ _ _ => .error .undefined
  | _ => .ok none

/-- `BuildPlan`. -/
def buildPlan {κ : Type} (cost : CostModel κ) (fuel : Nat) (ast : Ast)
    (plan : RelOptNode) : Exec (Option RelOptNode) :=
  match ast with
  | .select _ => do
      let (root, _) ← Cascades.findBestExp cost fuel plan
      return some root
  | _ => toPhysicalNode plan

/-! ## The executors -/

/-- The cells of a row in a line, each behind `" | "`. -/
def printCells (row : Row) : List ColumnDescriptor → Exec Bytes
  | [] => .ok []
  | desc :: descs => do
      let value ← row.getColValue desc.colId
      let rest ← printCells row descs
      return [32, 124, 32] ++ value.toString ++ rest

/-- The loop of `ResultSetExecutor::Consume`. -/
def printRows : List Row → Exec Bytes
  | [] => .ok []
  | row :: rows => do
      let cells ← printCells row row.desc
      let rest ← printRows rows
      return cells ++ [32, 124, 10] ++ rest

/-- What the executors of a statement share: the store, what they wrote to
    standard output, and what kept one of them from returning.  An executor is
    known by its number. -/
structure RunState where
  kv      : KvStorage
  scans   : Nat → Option TableScanExecutor := fun _ => none
  inserts : Nat → Option InsertExecutor := fun _ => none
  out     : Bytes := []
  fault   : Option Fault := none

namespace RunState

/-- After a call that did not return; its status ends the run. -/
def failed (st : RunState) (f : Fault) : RunState :=
  { st with fault := some f }

end RunState

namespace Objects

/-- `GetTable()->GetTable()`. -/
def tableInfo (objects : Objects) (table : Ref) : Option TableInfo :=
  objects.tables[table]?.bind RelOptTable.table

/-- The ranges of a scan. -/
def rangesOf (objects : Objects) (scan : TableScan) : List IndexRange :=
  scan.primaryRanges.filterMap (objects.ranges[·]?)

/-- The cells of an insert. -/
def cellsOf (objects : Objects) (exprNodes : List (List Ref)) :
    List (List (Option LiteralExpr)) :=
  exprNodes.map (·.map (fun r => (objects.exprs[r]?).join))

end Objects

section Overrides

variable (pb : SchemaProtobuf) (env : Env) (ho : HashOrder) (memory : NewMemory)
  (objects : Objects)

/-- `TableScanExecutor::Generate`. -/
def generate (e : Nat) (node : RelOptNode) (chunk : Chunk) (st : RunState) :
    Status × Chunk × RunState :=
  match node with
  | .physical (.tableScan scan) _ =>
      match objects.tableInfo scan.table with
      | none => (.executorError, chunk, st.failed .undefined)
      | some info =>
          let exec := (st.scans e).getD (.new info (objects.rangesOf scan))
          match ScanState.generate env memory chunk ⟨exec, st.kv⟩ with
          | .error f => (.executorError, chunk, st.failed f)
          | .ok (status, chunk, s) => (status, chunk, { st with
              kv := s.kv, scans := Function.update st.scans e (some s.exec) })
  | _ => (.executorError, chunk, st.failed .undefined)

/-- `Consume` of `ResultSetExecutor` and of `InsertExecutor`. -/
def consume (e : Nat) (node : RelOptNode) (chunk : Chunk) (st : RunState) :
    Status × Chunk × RunState :=
  match node with
  | .physical .resultSet _ =>
      match printRows chunk.select with
      | .error f => (.executorError, chunk, st.failed f)
      | .ok out => (.ok, { chunk with cursor := chunk.select.length },
          { st with out := st.out ++ out })
  | .physical (.insert table exprNodes) _ =>
      match objects.tableInfo table with
      | none => (.executorError, chunk, st.failed .undefined)
      | some info =>
          let exec := (st.inserts e).getD
            (.new ⟨info, objects.cellsOf exprNodes⟩)
          match InsertExecutor.consume env ho exec
              (memory.rows exec.rowDesc) chunk st.kv with
          | .error f => (.executorError, chunk, st.failed f)
          | .ok (status, exec, chunk, kv) => (status, chunk, { st with
              kv, inserts := Function.update st.inserts e (some exec) })
  | _ => (.executorError, chunk, st.failed .undefined)

/-- `DoWork` of the two `CreateExecutor`s. -/
def doWork (_ : Nat) (node : RelOptNode) (st : RunState) :
    Status × RunState :=
  match node with
  | .physical (.createDatabase table) _ =>
      match objects.tables[table]? with
      | none => (.executorError, st.failed .undefined)
      | some table =>
          let (status, kv) := createDatabaseDoWork pb st.kv table.schema
          (status, { st with kv })
  | .physical (.createTable table) _ =>
      match objects.tableInfo table with
      | none => (.executorError, st.failed .undefined)
      | some info =>
          match createTableDoWork pb st.kv info with
          | .error f => (.executorError, st.failed f)
          | .ok (status, kv) => (status, { st with kv })
  | _ => (.executorError, st.failed .undefined)

/-- The executors of a statement. -/
def overrides : Overrides RunState where
  generate := generate env memory objects
  transform := filterTransform
  consume := consume env ho memory objects
  doWork := doWork pb objects

end Overrides

/-! ## A statement -/

/-- The parts of a process that stay the same. -/
structure Process (κ : Type) where
  pb   : SchemaProtobuf
  env  : Env
  hash : Bytes → Nat
  cost : CostModel κ

/-- What the environment chooses for a statement: the time, the orders of hash
    maps, the contents of new memory, and how long the optimizer may take. -/
structure Choices where
  now    : Nat
  ho     : HashOrder
  memory : NewMemory
  fuel   : Nat

/-- `run`, from `AnalyzeAst` on: the status, what was written to standard
    output, and the store. -/
def run {κ : Type} (p : Process κ) (ch : Choices) (kv : KvStorage) (ast : Ast) :
    Exec (Status × Bytes × KvStorage) := do
  let (status, plan, kv) ← analyzeAst p.pb p.hash kv ch.now ast
  if status ≠ .ok then return (status, [], kv)
  else
    match plan with
    | none => .error .undefined
    | some plan => do
        let physical ← buildPlan p.cost ch.fuel ast plan.root
        match physical with
        | none => .error .undefined
        | some node => do
            let (status, w) ← Scheduler.run
              (overrides p.pb p.env ch.ho ch.memory plan.objects) node { kv }
            match w.env.fault with
            | some f => .error f
            | none => return (status, w.env.out, w.env.kv)

end AmDb.Statement
