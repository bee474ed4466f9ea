import AmDb.Executor.InsertColumns
import AmDb.Storage.TableIndexes

/-! # Inserts that meet a duplicate key

    `Table::Insert` writes the records of a chunk before an index looks at the
    first key, and an index takes the keys of the rows before the one it
    refuses.  Nothing of this is undone, and `Consume` returns `C_OK`. -/

namespace AmDb.Storage.Table

open Codec AmDb.Schema Chunk Bptree Session

/-- `GetItem` finds the key of the row in an index of the table. -/
def Visible (env : Env) (s : State) (row : Row) : Prop :=
  ∃ t, s.1.loadMeta env s.2 = .ok t ∧ ∃ e ∈ t.1.colIndex,
    ∃ entry, encodeIndex e.2.tableInfo e.2.indexInfo row [] = .ok entry
      ∧ ∃ r, e.2.bptree.getItem env t.2 entry.1 = .ok r ∧ r.1 = .ok

/-- A call that inserted nothing: the records are the old ones, and no row of
    the chunk is found that was not, also after others were inserted. -/
structure Undone (env : Env) (chunk : Chunk) (s s' : State) : Prop where
  records : SameRecords s.2 s'.2
  hidden  : ∀ row ∈ chunk.select, ¬ Visible env s row → ¬ Visible env s' row
  later   : ∀ row ∈ chunk.select, ¬ Visible env s row →
    ∀ ho chunk' s'', s'.1.insert env ho s'.2 chunk' = .ok (.ok, s'') →
      (∀ row' ∈ chunk'.select, ∀ r r', encodeRecord s.1.tableInfo row = .ok r →
        encodeRecord s.1.tableInfo row' = .ok r' → r.1 ≠ r'.1) →
      ¬ Visible env s'' row

section Records

variable {env : Env} {ho : HashOrder} {table table' : Table}
  {kv kv' : KvStorage} {chunk : Chunk} {status : Status}

/-- The records after `Insert`: those of the batch, unless the batch could not
    be written. -/
theorem insert_writes
    (h : table.insert env ho kv chunk = .ok (status, table', kv')) :
    ∃ records, encodeRecords table.tableInfo chunk.select = .ok records
      ∧ (status = .storageError ∨ SameRecords (stored kv records) kv') := by
  obtain ⟨⟨table₁, kv₁⟩, hload, h⟩ := Exec.bind_eq_ok.mp h
  -- `LoadMeta` writes nothing
  obtain ⟨hdata, hinfo⟩ : kv₁.data = kv.data
      ∧ table₁.tableInfo = table.tableInfo := by
    rw [loadMeta] at hload
    split_ifs at hload
    · cases hload
      exact ⟨rfl, rfl⟩
    · obtain ⟨rfl, hinfo⟩ := loadIndexes_skip hload
      exact ⟨rfl, hinfo⟩
  obtain ⟨⟨s, table₂, kv₂⟩, hcore, h⟩ := Exec.bind_eq_ok.mp h
  obtain ⟨records, hrecords, hcore⟩ := Exec.bind_eq_ok.mp hcore
  rw [hinfo] at hrecords
  refine ⟨records, hrecords, ?_⟩
  have hzip : (records.map Prod.fst).zip (records.map Prod.snd) = records := by
    rw [List.zip_map']
    exact List.map_id records
  rw [KvStorage.mPutKV, if_pos (by simp), KvStorage.tick_eq, hzip] at hcore
  cases hf : kv₁.fails 0 with
  | true =>
      rw [hf] at hcore
      cases hcore
      cases h
      exact Or.inl rfl
  | false =>
      rw [hf] at hcore
      have hfill : table₁.overIndexes ho
          (fun _ index kv => index.insert env kv chunk)
          { kv₁.skip 1 with data := KvStorage.writeBatch kv₁.data records }
          = .ok (s, table₂, kv₂) := hcore
      -- behind the batch no record is written
      have hfilled := overIndexes_records
        (fun _ _ _ _ hr => .of_data (Index.insert_data hr)) hfill
      have hsubmit : SameRecords kv₂ kv' := by
        simp only at h
        split at h
        · cases h
          exact .refl kv'
        · exact submit_records h
      refine Or.inr ((SameRecords.of_data ?_).trans (hfilled.trans hsubmit))
      show KvStorage.writeBatch kv₁.data records = _
      rw [hdata]
      rfl

/-- The records are the old ones if and only if each row of the batch that is
    the last of its key was stored already. -/
theorem sameRecords_stored_iff {info : TableInfo}
    {records : List (StoreKey × Bytes)}
    (hrecords : encodeRecords info chunk.select = .ok records) :
    SameRecords kv (stored kv records) ↔ ∀ e ∈ records,
      KvStorage.writeBatch kv.data records e.1 = kv.data e.1 := by
  constructor
  · intro h e he
    obtain ⟨row, -, hrow⟩ :=
      (Executor.exists_of_forall₂ (Exec.mapM_eq_ok.mp hrecords)).2 e he
    exact Executor.SameRecords.encodeRecord h hrow
  · intro h dbId tableId colKeys
    by_cases hin : ∃ e ∈ records, e.1 = .dataKey dbId tableId colKeys
    · obtain ⟨e, he, hkey⟩ := hin
      rw [← hkey]
      exact h e he
    · exact KvStorage.writeBatch_of_ne
        (fun e he hkey => hin ⟨e, he, hkey⟩)

end Records

/-! ## The rows before a duplicate key -/

section Refused

variable {env : Env} {pb : SchemaProtobuf} {ho : HashOrder} {info : TableInfo}
  {primary : IndexInfo} {desc : RowDescriptor} {s s' : State} {chunk : Chunk}
  {kv kv' : KvStorage} {status : Status}
  {f : Nat → Index → KvStorage → Exec (Status × Index × KvStorage)}
  {P : KvStorage → Prop}

/-- A loop that did not return `C_OK` stopped at an index whose call did
    not. -/
theorem forIndexes_refused {ies ies' : List (Nat × Index)}
    (hf : ∀ id index kv index' kv', (id, index) ∈ ies → P kv →
      f id index kv = .ok (.ok, index', kv') → P kv')
    (hP : P kv) (h : forIndexes f ies kv = .ok (status, ies', kv'))
    (hst : status ≠ .ok) :
    ∃ id index index' kv₁, (id, index) ∈ ies ∧ (id, index') ∈ ies'
      ∧ P kv₁ ∧ f id index kv₁ = .ok (status, index', kv') := by
  induction ies generalizing kv ies' with
  | nil =>
      cases h
      exact absurd rfl hst
  | cons e ies ih =>
      obtain ⟨id, index⟩ := e
      obtain ⟨⟨st, index', kv₁⟩, hcall, h⟩ := Exec.bind_eq_ok.mp h
      by_cases hst' : st = .ok
      · subst hst'
        obtain ⟨⟨st, rest, kv₂⟩, hloop, h⟩ := Exec.bind_eq_ok.mp h
        cases h
        obtain ⟨id', i, i', kv₃, hin, hin', hP', hcall'⟩ :=
          ih (fun id index kv index' kv' hmem =>
            hf id index kv index' kv' (List.mem_cons_of_mem _ hmem))
            (hf id index kv index' kv₁ List.mem_cons_self hP hcall) hloop
        exact ⟨id', i, i', kv₃, List.mem_cons_of_mem _ hin,
          List.mem_cons_of_mem _ hin', hP', hcall'⟩
      · simp only at h
        rw [if_pos hst'] at h
        cases h
        exact ⟨id, index, index', kv, List.mem_cons_self, List.mem_cons_self,
          hP, hcall⟩

/-- `Submit` returns `C_OK`. -/
theorem submit_status {table table' : Table}
    (h : table.submit env ho kv = .ok (status, table', kv')) :
    status = .ok := by
  by_contra hst
  obtain ⟨⟨st, ies, kv₁⟩, hloop, h⟩ := Exec.bind_eq_ok.mp h
  cases h
  obtain ⟨id, index, index', kv₂, -, -, -, hcall⟩ :=
    forIndexes_refused (P := fun _ => True) (fun _ _ _ _ _ _ _ _ => trivial)
      trivial hloop hst
  exact hst (Prod.mk.inj (Except.ok.inj hcall)).1.symm

end Refused

end AmDb.Storage.Table

namespace AmDb.Executor

open Codec Schema Storage Storage.Table Analyzer Chunk InsertExecutor

namespace InsertExecutor

/-- The chunk `Consume` inserts, with the rows it makes of its plan. -/
def filled (exec : InsertExecutor) (chunk : Chunk) (rows : List Row) : Chunk :=
  { chunk with
    rowDesc := some (chunk.rowDesc.getD exec.rowDesc)
    select := chunk.select ++ rows }

end InsertExecutor

section Consume

variable {env : Env} {ho : HashOrder} {exec : InsertExecutor}
  {memory : Nat → Memory exec.rowDesc} {chunk : Chunk} {kv : KvStorage}
  {rows : List Row} {status : Status} {s' : Table.State}

/-- `Table::Insert`, as `Consume` calls it, did not return `C_OK`. -/
structure Refused (env : Env) (ho : HashOrder) (exec : InsertExecutor)
    (memory : Nat → Memory exec.rowDesc) (chunk : Chunk) (kv : KvStorage)
    (rows : List Row) (status : Status) (s' : Table.State) : Prop where
  made   : fillRows memory 0 exec.insertPlan.exprNodes = .ok rows
  insert : exec.table.insert env ho kv (exec.filled chunk rows)
    = .ok (status, s')
  failed : status ≠ .ok

/-- What `Table::Insert` did was undone, and `Consume` reports that it
    failed. -/
structure RefusedCleanly (env : Env) (ho : HashOrder) (exec : InsertExecutor)
    (memory : Nat → Memory exec.rowDesc) (chunk : Chunk) (kv : KvStorage)
    (rows : List Row) (s' : Table.State) : Prop where
  undone   : Undone env (exec.filled chunk rows) (exec.table, kv) s'
  reported : ∀ r, consume env ho exec memory chunk kv = .ok r → r.1 ≠ .ok

/-- `Consume` goes on as if the insert had been successful. -/
theorem Refused.consume
    (h : Refused env ho exec memory chunk kv rows status s') :
    consume env ho exec memory chunk kv
      = .ok (.ok, { exec with table := s'.1 }, exec.filled chunk rows, s'.2) := by
  have hins : exec.table.insert env ho kv { chunk with
      rowDesc := some (chunk.rowDesc.getD exec.rowDesc)
      select := chunk.select ++ rows } = .ok (status, s') := h.insert
  simp only [InsertExecutor.consume, h.made, Exec.bind_ok, hins]
  rfl

/-- A failed insert is never undone and reported, whatever the table and the
    chunk: `Consume` returns `C_OK`; and where a duplicate key was met, the
    records are the old ones only if those of the batch were stored before. -/
theorem refused_insert_is_kept
    (h : Refused env ho exec memory chunk kv rows status s') :
    ¬ RefusedCleanly env ho exec memory chunk kv rows s'
      ∧ consume env ho exec memory chunk kv
        = .ok (.ok, { exec with table := s'.1 }, exec.filled chunk rows, s'.2)
      ∧ ∃ records, encodeRecords exec.table.tableInfo
          (exec.filled chunk rows).select = .ok records
        ∧ (status = .bptreeDuplicateKey → (SameRecords kv s'.2 ↔
          ∀ e ∈ records,
            KvStorage.writeBatch kv.data records e.1 = kv.data e.1)) := by
  refine ⟨fun hclean => hclean.reported _ h.consume rfl, h.consume, ?_⟩
  obtain ⟨records, hrecords, hwritten⟩ := insert_writes h.insert
  refine ⟨records, hrecords, ?_⟩
  rintro rfl
  have hsame := hwritten.resolve_left (by decide)
  refine Iff.trans ?_ (sameRecords_stored_iff hrecords)
  constructor
  · intro hkept dbId tableId colKeys
    rw [← hsame, hkept]
  · exact fun hkept => hkept.trans hsame

end Consume

/-! ## A row that is there already -/

/-- `INSERT INTO t (a, b) VALUES ...` with these integers. -/
def insertPairs (rows : List (BitVec 64 × BitVec 64)) : InsertStmt :=
  { db := [100], table := [116], columns := [[97], [98]],
    lists := rows.map (fun r => [.literal (.int r.1), .literal (.int r.2)]) }

/-- The executor of the statement. -/
def pairsExecutor (rows : List (BitVec 64 × BitVec 64)) : InsertExecutor :=
  .new (insertPlan pairs (insertPairs rows))

/-- The rows it makes. -/
def pairRows (rows : List (BitVec 64 × BitVec 64)) : Exec (List Row) :=
  fillRows zeros 0 (pairsExecutor rows).insertPlan.exprNodes

instance decidableExistsOk {ε α : Type} {x : Except ε α} {P : α → Prop}
    [DecidablePred P] : Decidable (∃ a, x = .ok a ∧ P a) :=
  match x with
  | .error e => isFalse (by rintro ⟨a, h, -⟩; cases h)
  | .ok a => decidable_of_iff (P a)
      ⟨fun h => ⟨a, rfl, h⟩, by rintro ⟨b, hb, h⟩; cases hb; exact h⟩

instance (env : Env) (s : Table.State) (row : Row) :
    Decidable (Visible env s row) :=
  inferInstanceAs (Decidable (∃ t, s.1.loadMeta env s.2 = .ok t
    ∧ ∃ e ∈ t.1.colIndex,
      ∃ entry, encodeIndex e.2.tableInfo e.2.indexInfo row [] = .ok entry
        ∧ ∃ r, e.2.bptree.getItem env t.2 entry.1 = .ok r ∧ r.1 = .ok))

/-- Rows 1 and 2 are stored; the second statement inserts row 3 and a row 1 with
    another value; the last insert, of row 4, is on the same table. -/
def threeInserts : Exec (KvStorage × List Row × Status × Table.State
    × Status × Table.State) := do
  let first ← insertStatement (.wire 1024) .inOrder pairs
    (insertPairs [(1, 1), (2, 2)]) zeros .empty
  let kv := first.2.2.2
  let rows ← pairRows [(3, 3), (1, 9)]
  let second ← (pairsExecutor [(3, 3), (1, 9)]).table.insert (.wire 1024)
    .inOrder kv ((pairsExecutor [(3, 3), (1, 9)]).filled {} rows)
  let others ← pairRows [(4, 4)]
  let third ← second.2.1.insert (.wire 1024) .inOrder second.2.2
    { select := others }
  return (kv, rows, second.1, second.2, third.1, third.2)

/-- The record of row 1. -/
def firstPair : StoreKey := .dataKey 1 7 [[49]]

/-- Of three inserts into one table the second is refused. -/
theorem exists_threeInserts : ∃ kv rows status s' status' s'',
    threeInserts = .ok (kv, rows, status, s', status', s'')
      ∧ status = .bptreeDuplicateKey ∧ status' = .ok
      ∧ s'.2.data firstPair ≠ kv.data firstPair
      ∧ ∃ row ∈ rows, ¬ Visible (.wire 1024) ({ tableInfo := pairs }, kv) row
        ∧ Visible (.wire 1024) s' row ∧ Visible (.wire 1024) s'' row := by
  obtain ⟨⟨kv, rows, status, s', status', s''⟩, hexec, hview⟩ :=
    @exists_of_computed _ _ _ threeInserts
    (fun r => (r.2.2.1, r.2.2.2.2.1,
      decide (r.2.2.2.1.2.data firstPair ≠ r.1.data firstPair),
      decide (∃ row ∈ r.2.1,
        ¬ Visible (.wire 1024) ({ tableInfo := pairs }, r.1) row
          ∧ Visible (.wire 1024) r.2.2.2.1 row
          ∧ Visible (.wire 1024) r.2.2.2.2.2 row)))
    (.bptreeDuplicateKey, .ok, true, true) (by decide +kernel)
  obtain ⟨hst, hview⟩ := Prod.mk.inj hview
  obtain ⟨hst', hview⟩ := Prod.mk.inj hview
  obtain ⟨hdata, hvisible⟩ := Prod.mk.inj hview
  exact ⟨kv, rows, status, s', status', s'', hexec, hst, hst',
    of_decide_eq_true hdata, of_decide_eq_true hvisible⟩

/-- It is a refused insert. -/
theorem refused_of_threeInserts {kv : KvStorage} {rows : List Row}
    {status status' : Status} {s' s'' : Table.State}
    (h : threeInserts = .ok (kv, rows, status, s', status', s''))
    (hst : status ≠ .ok) :
    Refused (.wire 1024) .inOrder (pairsExecutor [(3, 3), (1, 9)]) zeros {} kv
        rows status s'
      ∧ ∃ others, pairRows [(4, 4)] = .ok others
        ∧ s'.1.insert (.wire 1024) .inOrder s'.2 { select := others }
          = .ok (status', s'') := by
  obtain ⟨first, -, h⟩ := Exec.bind_eq_ok.mp h
  obtain ⟨rows₁, hrows, h⟩ := Exec.bind_eq_ok.mp h
  obtain ⟨⟨st, t⟩, hsecond, h⟩ := Exec.bind_eq_ok.mp h
  obtain ⟨others, hothers, h⟩ := Exec.bind_eq_ok.mp h
  obtain ⟨⟨st', t'⟩, hthird, h⟩ := Exec.bind_eq_ok.mp h
  cases h
  exact ⟨⟨hrows, hsecond, hst⟩, others, hothers, hthird⟩

/-- An insert is refused, and what it wrote before stays. -/
theorem refused_insert_is_kept_pairs : ∃ kv rows s',
    Refused (.wire 1024) .inOrder (pairsExecutor [(3, 3), (1, 9)]) zeros {} kv
        rows .bptreeDuplicateKey s'
      ∧ ¬ RefusedCleanly (.wire 1024) .inOrder (pairsExecutor [(3, 3), (1, 9)])
        zeros {} kv rows s' := by
  obtain ⟨kv, rows, status, s', status', s'', hexec, rfl, -⟩ :=
    exists_threeInserts
  obtain ⟨hrefused, -⟩ := refused_of_threeInserts hexec (by decide)
  obtain ⟨hkept, -⟩ := refused_insert_is_kept hrefused
  exact ⟨kv, rows, s', hrefused, hkept⟩

/-- Row 1 has lost its value, row 3 is found, also after row 4 was inserted, and
    the status is `C_OK`. -/
theorem duplicate_key_overwrites_row : ∃ kv rows s' others s'',
    Refused (.wire 1024) .inOrder (pairsExecutor [(3, 3), (1, 9)]) zeros {} kv
        rows .bptreeDuplicateKey s'
      ∧ ¬ SameRecords kv s'.2
      ∧ pairRows [(4, 4)] = .ok others
      ∧ s'.1.insert (.wire 1024) .inOrder s'.2 { select := others }
        = .ok (.ok, s'')
      ∧ (∃ row ∈ rows, ¬ Visible (.wire 1024) ({ tableInfo := pairs }, kv) row
        ∧ Visible (.wire 1024) s' row ∧ Visible (.wire 1024) s'' row)
      ∧ (∃ r, consume (.wire 1024) .inOrder (pairsExecutor [(3, 3), (1, 9)])
        zeros {} kv = .ok r ∧ r.1 = .ok)
      ∧ ¬ RefusedCleanly (.wire 1024) .inOrder (pairsExecutor [(3, 3), (1, 9)])
        zeros {} kv rows s' := by
  obtain ⟨kv, rows, status, s', status', s'', hexec, rfl, rfl, hdata, hrow⟩ :=
    exists_threeInserts
  obtain ⟨hrefused, others, hothers, hlater⟩ :=
    refused_of_threeInserts hexec (by decide)
  have hchanged : ¬ SameRecords kv s'.2 := fun h => hdata (h 1 7 [[49]])
  exact ⟨kv, rows, s', others, s'', hrefused, hchanged, hothers, hlater, hrow,
    ⟨_, hrefused.consume, rfl⟩, fun hclean => hchanged hclean.undone.records⟩

end AmDb.Executor
