import AmDb.Storage.Index

/-! # Tables

    `sql/storage/table.cc`: the records of a table and its indexes.  `col_index`
    and the maps of unsaved nodes are hash maps; `HashOrder` says how they are
    walked.  `Update` does nothing and is left out. -/

namespace AmDb.Storage

open Codec AmDb.Schema Chunk

/-- The orders in which `col_index` and each index's unsaved nodes are
    walked. -/
structure HashOrder where
  indexes : Walk (Nat × Index)
  nodes   : Nat → Walk (Nat × Addr)

def HashOrder.inOrder : HashOrder := ⟨.inOrder, fun _ => .inOrder⟩

/-- `Table`.  An index is known by its id; `rowIndex` is the one `row_index`
    points to. -/
structure Table where
  tableInfo : TableInfo
  rowIndex  : Option Nat := none
  colIndex  : List (Nat × Index) := []

namespace Table

/-- `col_index.emplace`: the first index of an id stays. -/
def emplace (colIndex : List (Nat × Index)) (id : Nat) (index : Index) :
    List (Nat × Index) :=
  if id ∈ colIndex.map Prod.fst then colIndex else colIndex ++ [(id, index)]

/-- The loop of `loadMeta`. -/
def loadIndexes (env : Env) : List IndexInfo → Table → KvStorage →
    Exec (Table × KvStorage)
  | [], table, kv => .ok (table, kv)
  | index :: indexes, table, kv => do
      let (idx, kv) ← Index.new env kv table.tableInfo index
      loadIndexes env indexes { table with
        colIndex := emplace table.colIndex index.id idx
        rowIndex := if index.type = .primary then some index.id
          else table.rowIndex } kv

/-- `loadMeta`, which is all of `Prepare`; its status is always `C_OK`. -/
def loadMeta (env : Env) (table : Table) (kv : KvStorage) :
    Exec (Table × KvStorage) :=
  if table.rowIndex.isSome then .ok (table, kv)
  else loadIndexes env table.tableInfo.indexList table kv

/-- A loop over `col_index` that stops at the first status that is not
    `C_OK`. -/
def forIndexes (f : Nat → Index → KvStorage → Exec (Status × Index × KvStorage)) :
    List (Nat × Index) → KvStorage →
    Exec (Status × List (Nat × Index) × KvStorage)
  | [], kv => .ok (.ok, [], kv)
  | (id, index) :: rest, kv => do
      let (status, index, kv) ← f id index kv
      if status ≠ .ok then return (status, (id, index) :: rest, kv)
      else
        let (status, rest, kv) ← forIndexes f rest kv
        return (status, (id, index) :: rest, kv)

/-- Such a loop on a table. -/
def overIndexes (ho : HashOrder)
    (f : Nat → Index → KvStorage → Exec (Status × Index × KvStorage))
    (table : Table) (kv : KvStorage) : Exec (Status × Table × KvStorage) := do
  let (status, colIndex, kv) ←
    forIndexes f (ho.indexes.order table.colIndex) kv
  return (status, { table with colIndex }, kv)

/-- `Submit`. -/
def submit (env : Env) (ho : HashOrder) (table : Table) (kv : KvStorage) :
    Exec (Status × Table × KvStorage) :=
  table.overIndexes ho
    (fun id index kv => .ok (index.save env (ho.nodes id) kv)) kv

/-- `EncodeRow`, with the key by its name. -/
def encodeRecord (table : TableInfo) (row : Row) : Exec (StoreKey × Bytes) :=
  match table.primary with
  | none => .error .undefined
  | some primary => do
      let keys ← colKeys row primary.columns
      let value ← encodeColumns row table.columnList []
      return (.dataKey table.dbId table.id keys, value)

/-- The records of some rows. -/
def encodeRecords (table : TableInfo) (rows : List Row) :
    Exec (List (StoreKey × Bytes)) :=
  rows.mapM (encodeRecord table)

/-- `insertCore`. -/
def insertCore (env : Env) (ho : HashOrder) (table : Table) (kv : KvStorage)
    (chunk : Chunk) : Exec (Status × Table × KvStorage) := do
  let records ← encodeRecords table.tableInfo chunk.select
  let (status, kv) ←
    kv.mPutKV (records.map Prod.fst) (records.map Prod.snd)
  if status ≠ .ok then return (status, table, kv)
  else
    table.overIndexes ho (fun _ index kv => index.insert env kv chunk) kv

/-- `deleteCore`. -/
def deleteCore (env : Env) (ho : HashOrder) (table : Table) (kv : KvStorage)
    (chunk : Chunk) : Exec (Status × Table × KvStorage) := do
  let (status, table, kv) ←
    table.overIndexes ho (fun _ index kv => index.delete env kv chunk) kv
  if status ≠ .ok then return (status, table, kv)
  else
    let records ← encodeRecords table.tableInfo chunk.select
    let (status, kv) := kv.mDelKV (records.map Prod.fst)
    return (status, table, kv)

/-- `Prepare`, one of the two cores, `Submit`. -/
def change (env : Env) (ho : HashOrder)
    (core : Table → KvStorage → Exec (Status × Table × KvStorage))
    (table : Table) (kv : KvStorage) : Exec (Status × Table × KvStorage) := do
  let (table, kv) ← table.loadMeta env kv
  let (status, table, kv) ← core table kv
  if status ≠ .ok then return (status, table, kv)
  else table.submit env ho kv

/-- `Table::Insert`. -/
def insert (env : Env) (ho : HashOrder) (table : Table) (kv : KvStorage)
    (chunk : Chunk) : Exec (Status × Table × KvStorage) :=
  table.change env ho (fun table kv => table.insertCore env ho kv chunk) kv

/-- `Table::Delete`. -/
def delete (env : Env) (ho : HashOrder) (table : Table) (kv : KvStorage)
    (chunk : Chunk) : Exec (Status × Table × KvStorage) :=
  table.change env ho (fun table kv => table.deleteCore env ho kv chunk) kv

/-- The key and the value are those of `EncodeRow`. -/
theorem encodeRow_eq_encodeRecord (table : TableInfo) (row : Row) :
    encodeRow table row [] []
      = (encodeRecord table row).map (fun r => (r.1.encode, r.2)) := by
  rw [encodeRow, encodeRecord]
  cases table.primary with
  | none => rfl
  | some primary =>
      simp only
      cases colKeys row primary.columns with
      | error e => rfl
      | ok keys =>
          simp only [Exec.bind_ok]
          cases encodeColumns row table.columnList [] <;> rfl

end Table

end AmDb.Storage
