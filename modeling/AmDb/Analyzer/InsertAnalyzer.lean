import AmDb.Analyzer.CreateAnalyzer
import AmDb.Expression.ExprValue

/-! # Analysis of `INSERT` statements

    `insert_analyzer.cc` and `expr_analyzer.cc` of `sql/analyzer`, with
    `expr::LiteralExpr`.  The column list of the statement is not looked at. -/

namespace AmDb.Analyzer

open Schema Storage AmDb.Expr

/-- `parser::LiteralExpr`; a `double` by its bits. -/
inductive Literal where
  | int (v : BitVec 64)
  | double (bits : BitVec 64)
  | string (s : Bytes)
  | bool (b : Bool)
  | null
  | placeHolder (id : BitVec 64)
  | hex (s : Bytes)
  deriving DecidableEq

/-- `parser::ExprNode`, as far as `toExprNode` looks into it. -/
inductive ParserNode where
  | literal (l : Literal)
  | column
  | func
  | other
  deriving DecidableEq

structure InsertStmt where
  db      : Bytes
  table   : Bytes
  columns : List Bytes
  lists   : List (List ParserNode)
  deriving DecidableEq

/-- `expr::LiteralExpr`. -/
inductive LiteralExpr where
  | int64 (u : BitVec 64)
  | double (bits : BitVec 64)
  | bool (b : Bool)
  | null
  deriving DecidableEq

/-- `GetValue`; `none` is a value of the floating-point types, which are left
    out of `ExprValue`. -/
def LiteralExpr.getValue : LiteralExpr → Option ExprValue
  | .int64 u => some (.int64 u)
  | .double _ => none
  | .bool b => some (.bool (if b then 1 else 0))
  | .null => some .null

/-- `toLiteralNode`; `none` is a null pointer. -/
def toLiteralNode : Literal → Option LiteralExpr
  | .int v => some (.int64 v)
  | .double bits => some (.double bits)
  | .bool b => some (.bool b)
  | .null => some .null
  | _ => none

/-- `toExprNode`. -/
def toExprNode : ParserNode → Option LiteralExpr
  | .literal l => toLiteralNode l
  | _ => none

/-- The table and the value lists of an insert plan. -/
structure InsertPlan where
  tableInfo : TableInfo
  exprNodes : List (List (Option LiteralExpr))

/-- The loop over the value lists. -/
def insertPlan (table : TableInfo) (stmt : InsertStmt) : InsertPlan :=
  { tableInfo := table, exprNodes := stmt.lists.map (·.map toExprNode) }

/-- `InsertAnalyzer::Analyze`, and the plan it leaves. -/
def analyzeInsert (pb : SchemaProtobuf) (kv : KvStorage) (stmt : InsertStmt) :
    Exec (Status × Option InsertPlan × KvStorage) := do
  let (status, dbId, kv) ←
    Metadata.loadDatabaseIdByName kv stmt.db kInvalidIDatabaseID
  if status ≠ .ok then return (.databaseNotFound, none, kv)
  else
    let (status, tableId, kv) ←
      Metadata.loadTableIdByName kv dbId stmt.table kInvalidTableID
    if status ≠ .ok then return (.tableNotFound, none, kv)
    else
      let (status, _, kv) := Metadata.loadDatabaseMeta pb kv dbId
      if status ≠ .ok then return (status, none, kv)
      else
        let (status, info, kv) := Metadata.loadTableMeta pb kv dbId tableId
        if status ≠ .ok then return (status, none, kv)
        else return (.ok, some (insertPlan info stmt), kv)

/-- What a cell of a value list has to store. -/
def valueOf (node : ParserNode) : Option ExprValue :=
  (toExprNode node).bind LiteralExpr.getValue

theorem valueOf_bounded {node : ParserNode} {v : ExprValue}
    (h : valueOf node = some v) : v.Bounded := by
  obtain ⟨lit, -, hv⟩ := Option.bind_eq_some_iff.mp h
  cases lit <;> cases hv <;> trivial

theorem toExprType_ne_bool (type : MysqlType) : toExprType type ≠ .bool := by
  cases type <;> decide

/-- A column has no type that only a `BOOL`, a `NULL` or a double has, so a
    cell with a value of its column's type is an integer. -/
theorem valueOf_typed {node : ParserNode} {v : ExprValue} {type : MysqlType}
    (h : valueOf node = some v) (ht : v.type = toExprType type)
    (hs : toExprType type ≠ .null) :
    ∃ u, node = .literal (.int u) ∧ toExprType type = .int64 := by
  obtain ⟨lit, hlit, hv⟩ := Option.bind_eq_some_iff.mp h
  cases node with
  | column | func | other => cases hlit
  | literal l =>
      cases l with
      | int u =>
          cases hlit
          cases hv
          exact ⟨u, rfl, ht.symm⟩
      | double bits =>
          cases hlit
          cases hv
      | bool b =>
          cases hlit
          cases hv
          exact absurd ht.symm (toExprType_ne_bool type)
      | null =>
          cases hlit
          cases hv
          exact absurd ht.symm hs
      | string s | placeHolder id | hex s => cases hlit

end AmDb.Analyzer
