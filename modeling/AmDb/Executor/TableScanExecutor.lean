import AmDb.Scheduler.ResultRows
import AmDb.Storage.TableIterator

/-! # The table scan executor

    `table_scan_executor.cc` and `resultset_executor.cc` of `sql/executor`.
    Both live in one run; its state is the scan with its store. -/

namespace AmDb.Executor

open Schema Storage Chunk Plan Scheduler

/-- `TableScanExecutor`.  `table` is made for the statement. -/
structure TableScanExecutor where
  table         : Table
  primaryRanges : List IndexRange
  rowDesc       : RowDescriptor
  tableIter     : Option BaseIterator := none

/-- `*row_index`. -/
def rowIndexOf (table : Table) : Option Index :=
  table.rowIndex.bind (fun id =>
    (table.colIndex.find? (·.1 = id)).map Prod.snd)

/-- The table, of which the row index has this tree by now. -/
def withRowTree (table : Table) (bptree : Bptree) : Table :=
  { table with colIndex := table.colIndex.map (fun e =>
      if some e.1 = table.rowIndex then (e.1, { e.2 with bptree }) else e) }

namespace TableScanExecutor

/-- The constructor. -/
def new (info : TableInfo) (ranges : List IndexRange) : TableScanExecutor :=
  { table := { tableInfo := info }
    primaryRanges := ranges
    rowDesc := toRowDesc info }

/-- The iterator `Generate` makes when there is none.  It makes one only: the
    bounds that `AddRange` leaves in the ranges are not read again. -/
def newIterator (ranges : List IndexRange) : BaseIterator :=
  { pageSize := 1024, itOps := ranges.map addRange }

end TableScanExecutor

/-- An executor and the store it reads. -/
structure ScanState where
  exec : TableScanExecutor
  kv   : KvStorage

namespace ScanState

/-- After some calls on the iterator. -/
def after (st : ScanState) (table : Table) (s : BaseScan) : ScanState :=
  { exec := { st.exec with
      table := withRowTree table s.tree, tableIter := some s.it }
    kv := s.kv }

/-- The calls of `Generate` on the iterator `it`.  Without a row index there is
    nothing to open a range on. -/
def readPage (env : Env) (memory : NewMemory) (st : ScanState) (table : Table)
    (it : BaseIterator) (chunk : Chunk) : Exec (Status × Chunk × ScanState) :=
  match rowIndexOf table with
  | none =>
      if it.itOps.drop it.currentOpIdx = [] then
        .ok (.ok, chunk, { st with exec := { st.exec with
          table
          tableIter := some { it with code := .bptreeIteratorEnd } } })
      else .error .undefined
  | some index => do
      let s : BaseScan := { tree := index.bptree, kv := st.kv, it }
      let (status, s) ← s.openScan env
      if status ≠ .ok then return (status, chunk, st.after table s)
      else do
        let s ← s.next env
        let (status, chunk, s) ← getItem memory index s chunk
        return (status, chunk, st.after table s)

/-- `Generate`. -/
def generate (env : Env) (memory : NewMemory) (chunk : Chunk)
    (st : ScanState) : Exec (Status × Chunk × ScanState) := do
  let it := st.exec.tableIter.getD
    (TableScanExecutor.newIterator st.exec.primaryRanges)
  if st.exec.table.rowIndex.isNone then do
    let (table, kv) ← st.exec.table.loadMeta env st.kv
    readPage env memory { st with kv } table it
      { chunk with rowDesc := some st.exec.rowDesc }
  else readPage env memory st st.exec.table it chunk

end ScanState

/-- The executors of a scan.  Whatever keeps `Generate` from returning ends the
    run like a failure does.  `ResultSetExecutor::Consume` goes through the
    chunk and prints its rows. -/
def scanOverrides (env : Env) (memory : NewMemory) : Overrides ScanState where
  generate := fun _ _ chunk st =>
    match st.generate env memory chunk with
    | .ok r => r
    | .error _ => (.executorError, chunk, st)
  transform := filterTransform
  consume := fun _ _ chunk st =>
    (.ok, { chunk with cursor := chunk.select.length }, st)
  doWork := fun _ _ st => (.ok, st)

end AmDb.Executor
