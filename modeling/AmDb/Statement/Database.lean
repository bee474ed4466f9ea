import AmDb.Foundation.KeyedRows
import AmDb.Statement.Analyze

/-! # A relational database

    What the statements are for: databases of named relations, each of tuples
    of integers with a primary key.  There are no ids, records, indexes, plans
    or executors here, and constraints other than the primary key are not
    looked at. -/

namespace AmDb.Statement

open Codec AmDb.Expr Analyzer

abbrev Tuple := List (BitVec 64)

/-- The integer at the place of the key. -/
def keyAt (key : Nat) (row : Tuple) : Int := (row.getD key 0).toInt

/-- Named columns, one of them the primary key, and the tuples. -/
structure Relation where
  columns : List Bytes
  key     : Nat
  table   : KeyedRows (keyAt key)
  widths  : ∀ row ∈ table.rows, row.length = columns.length

namespace Relation

def new (columns : List Bytes) (name : Bytes) : Relation where
  columns
  key := columns.idxOf name
  table := .empty _
  widths := List.forall_mem_nil _

/-- The tuples are as wide as the relation, and their keys are new. -/
def Takes (r : Relation) (rows : List Tuple) : Prop :=
  (∀ row ∈ rows, row.length = r.columns.length) ∧ r.table.Takes rows

instance (r : Relation) (rows : List Tuple) : Decidable (r.Takes rows) :=
  inferInstanceAs (Decidable (_ ∧ _))

def insert (r : Relation) (rows : List Tuple) (h : r.Takes rows) :
    Relation where
  columns := r.columns
  key := r.key
  table := r.table.insert rows h.2
  widths := by
    intro row hrow
    exact ((KeyedRows.mem_insert h.2).mp hrow).elim (r.widths row) (h.1 row)

/-- What a `SELECT` goes through. -/
def Scanned (k : Int) : Prop := 0 ≤ k ∧ k < 2 ^ 63 - 1

instance (k : Int) : Decidable (Scanned k) :=
  inferInstanceAs (Decidable (_ ∧ _))

/-- A `SELECT` shows the first page of the tuples, by key. -/
def select (r : Relation) : List Tuple :=
  (r.table.listing (fun row => Scanned (keyAt r.key row))).take 1024

end Relation

/-- A line of a result. -/
def printTuple (row : Tuple) : Bytes :=
  row.flatMap (fun u => [32, 124, 32] ++ (ExprValue.int64 u).toString)
    ++ [32, 124, 10]

/-- The integers of a value list; `none` if there is anything else in it. -/
def tupleOf : List ParserNode → Option Tuple
  | [] => some []
  | .literal (.int u) :: cells => (tupleOf cells).map (u :: ·)
  | _ => none

def tuplesOf : List (List ParserNode) → Option (List Tuple)
  | [] => some []
  | row :: rows => do
      let tuple ← tupleOf row
      let tuples ← tuplesOf rows
      return tuple :: tuples

/-- Every column has a name of its own, and the constraints are on columns. -/
def Describes (stmt : CreateTableStmt) : Prop :=
  stmt.columns.length < 2 ^ 32 ∧ (stmt.columns.map ColumnDef.name).Nodup
    ∧ ∀ consDef ∈ stmt.constraints, ∀ name ∈ consDef.columns,
      name ∈ stmt.columns.map ColumnDef.name

instance (stmt : CreateTableStmt) : Decidable (Describes stmt) :=
  inferInstanceAs (Decidable (_ ∧ _))

/-- The relation of a statement with one primary key, of one column. -/
def newRelation (stmt : CreateTableStmt) : Option Relation :=
  match stmt.constraints.filter (·.type = .primary) with
  | [⟨_, _, [name]⟩] =>
      if Describes stmt then
        some (.new (stmt.columns.map ColumnDef.name) name)
      else none
  | _ => none

/-- The databases by their names, with their tables by their names. -/
structure Databases where
  tables : Bytes → Option (Bytes → Option Relation)

namespace Databases

def empty : Databases := ⟨fun _ => none⟩

def create (d : Databases) (name : Bytes) : Databases :=
  ⟨Function.update d.tables name (some (fun _ => none))⟩

/-- The database, which has these tables, with another or a changed one. -/
def put (d : Databases) (db : Bytes) (tables : Bytes → Option Relation)
    (name : Bytes) (r : Relation) : Databases :=
  ⟨Function.update d.tables db (some (Function.update tables name (some r)))⟩

/-- What a statement answers, what it prints, and the databases afterwards.  Of
    a statement this model has no meaning for there is none: of a table without
    one primary key of one column, of an insert of other things than rows of
    integers with new keys for all columns in their order. -/
def execute (d : Databases) : Ast → Option ((Status × Bytes) × Databases)
  | .createDatabase stmt =>
      match d.tables stmt.dbName with
      | some _ =>
          some ((if stmt.ifNotExist then .ok else .databaseExisted, []), d)
      | none => some ((.ok, []), d.create stmt.dbName)
  | .createTable stmt =>
      match d.tables stmt.db with
      | none => some ((.databaseNotFound, []), d)
      | some tables =>
          match tables stmt.table with
          | some _ =>
              some ((if stmt.ifNotExist then .ok else .tableExiste, []), d)
          | none => (newRelation stmt).map
              (fun r => ((.ok, []), d.put stmt.db tables stmt.table r))
  | .insert stmt =>
      match d.tables stmt.db with
      | none => some ((.databaseNotFound, []), d)
      | some tables =>
          match tables stmt.table with
          | none => some ((.tableNotFound, []), d)
          | some r =>
              match tuplesOf stmt.lists with
              | none => none
              | some rows =>
                  if h : (stmt.columns = [] ∨ stmt.columns = r.columns)
                      ∧ r.Takes rows then
                    some ((.ok, []),
                      d.put stmt.db tables stmt.table (r.insert rows h.2))
                  else none
  | .select stmt =>
      match stmt.table with
      | none => none
      | some (db, table) =>
          match d.tables db with
          | none => some ((.databaseNotFound, []), d)
          | some tables =>
              match tables table with
              | none => some ((.tableNotFound, []), d)
              | some r => some ((.ok, r.select.flatMap printTuple), d)
  | .other => none

end Databases

end AmDb.Statement
