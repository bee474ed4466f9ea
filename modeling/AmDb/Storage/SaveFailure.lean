import AmDb.Storage.Table
import AmDb.Storage.TreeCall

/-! # Saves that fail

    `PullUnsavedTreeNode` returns nothing: a write that fails ends its loop, and
    `Save`, `Submit` and the calls above them return `C_OK`.  The nodes written
    so far are in the store, the others are not. -/

namespace AmDb.Storage

open Codec AmDb.Schema Chunk

/-- A write of this save fails. -/
def SaveFails (env : Env) (walk : Walk (Nat × Addr)) (index : Index)
    (kv : KvStorage) : Prop :=
  (index.bptree.dumpNodes env
    (walk.order index.bptree.treeCtx.unsavedNodes) kv).1 ≠ .ok

instance (env : Env) (walk : Walk (Nat × Addr)) (index : Index)
    (kv : KvStorage) : Decidable (SaveFails env walk index kv) :=
  inferInstanceAs (Decidable (_ ≠ _))

/-- The indexes whose save fails in the loop of `Submit`. -/
def failedSaves (env : Env) (ho : HashOrder) :
    List (Nat × Index) → KvStorage → List Index
  | [], _ => []
  | (id, index) :: rest, kv =>
      let later := failedSaves env ho rest
        (index.save env (ho.nodes id) kv).2.2
      if SaveFails env (ho.nodes id) index kv then index :: later else later

/-- The indexes whose save fails in a call with this core. -/
def failedAfter (env : Env) (ho : HashOrder)
    (core : Table → KvStorage → Exec (Status × Table × KvStorage))
    (table : Table) (kv : KvStorage) : List Index :=
  match (do let (table, kv) ← table.loadMeta env kv; core table kv) with
  | .ok (.ok, table, kv) =>
      failedSaves env ho (ho.indexes.order table.colIndex) kv
  | _ => []

/-- A call that saves indexes. -/
inductive SavingCall where
  | save (walk : Walk (Nat × Addr)) (index : Index)
  | insert (ho : HashOrder) (table : Table) (chunk : Chunk)
  | delete (ho : HashOrder) (table : Table) (chunk : Chunk)

namespace SavingCall

/-- The call: its status and the store it leaves. -/
def run (env : Env) (kv : KvStorage) : SavingCall → Exec (Status × KvStorage)
  | .save walk index =>
      let (status, _, kv) := index.save env walk kv
      .ok (status, kv)
  | .insert ho table chunk => do
      let (status, _, kv) ← table.insert env ho kv chunk
      return (status, kv)
  | .delete ho table chunk => do
      let (status, _, kv) ← table.delete env ho kv chunk
      return (status, kv)

/-- The indexes whose save fails in it. -/
def failed (env : Env) (kv : KvStorage) : SavingCall → List Index
  | .save walk index => if SaveFails env walk index kv then [index] else []
  | .insert ho table chunk =>
      failedAfter env ho (fun t kv => t.insertCore env ho kv chunk) table kv
  | .delete ho table chunk =>
      failedAfter env ho (fun t kv => t.deleteCore env ho kv chunk) table kv

end SavingCall

/-- `GetItem` on the index opened afresh. -/
def openAndGet (env : Env) (kv : KvStorage) (index : Index) (key : Bytes) :
    Exec Reply := do
  let (index, kv) ← Index.new env kv index.tableInfo index.indexInfo
  let (status, value, _, _) ← index.bptree.getItem env kv key
  return (status, value)

/-- Once the store works again, the key is found. -/
def Finds (env : Env) (kv : KvStorage) (index : Index) (key : Bytes) : Prop :=
  ∃ value, openAndGet env kv.healed index key = .ok (.ok, some value)

/-- The call returns an error, and every key that could be found before can
    still be found in the indexes whose save failed. -/
def Reported (env : Env) (kv : KvStorage) (call : SavingCall) : Prop :=
  ∃ status kv', call.run env kv = .ok (status, kv') ∧ status ≠ .ok
    ∧ ∀ index ∈ call.failed env kv, ∀ key,
      Finds env kv index key → Finds env kv' index key

section Calls

variable {env : Env} {ho : HashOrder} {kv : KvStorage}

/-- Every save of the loop returns `C_OK`, so the loop runs to its end. -/
theorem forIndexes_save (colIndex : List (Nat × Index)) (kv : KvStorage) :
    ∃ colIndex' kv', Table.forIndexes
        (fun id index kv => .ok (index.save env (ho.nodes id) kv)) colIndex kv
      = .ok (.ok, colIndex', kv') := by
  induction colIndex generalizing kv with
  | nil => exact ⟨[], kv, rfl⟩
  | cons e rest ih =>
      obtain ⟨id, index⟩ := e
      obtain ⟨rest', kv', hrest⟩ := ih (index.save env (ho.nodes id) kv).2.2
      refine ⟨(id, (index.save env (ho.nodes id) kv).2.1) :: rest', kv', ?_⟩
      rw [Table.forIndexes, Exec.bind_ok]
      simp only [Index.save, ne_eq, not_true_eq_false, if_false] at hrest ⊢
      rw [hrest]
      rfl

/-- `Submit` returns `C_OK` whatever the store does. -/
theorem submit_ok (table : Table) (kv : KvStorage) :
    ∃ table' kv', table.submit env ho kv = .ok (.ok, table', kv') := by
  obtain ⟨colIndex, kv', h⟩ := @forIndexes_save env ho
    (ho.indexes.order table.colIndex) kv
  exact ⟨_, kv', by rw [Table.submit, Table.overIndexes, h]; rfl⟩

/-- A call whose core went well returns `C_OK`, whatever its saves do. -/
theorem change_ok
    {core : Table → KvStorage → Exec (Status × Table × KvStorage)}
    {table : Table} (h : failedAfter env ho core table kv ≠ []) :
    ∃ table' kv', table.change env ho core kv = .ok (.ok, table', kv') := by
  rw [failedAfter] at h
  rw [Table.change]
  cases hload : table.loadMeta env kv with
  | error e => rw [hload] at h; exact absurd rfl h
  | ok r =>
      rw [hload, Exec.bind_ok] at h
      rw [Exec.bind_ok]
      simp only at h ⊢
      cases hcore : core r.1 r.2 with
      | error e => rw [hcore] at h; exact absurd rfl h
      | ok s =>
          obtain ⟨status, table', kv'⟩ := s
          rw [hcore] at h
          rw [Exec.bind_ok]
          cases status with
          | ok => exact submit_ok table' kv'
          | _ => exact absurd rfl h

/-- Every call that saves returns `C_OK` whatever the store does. -/
theorem run_ok {call : SavingCall} (h : call.failed env kv ≠ []) :
    ∃ kv', call.run env kv = .ok (.ok, kv') := by
  cases call with
  | save walk index => exact ⟨_, rfl⟩
  | insert ho table chunk =>
      rw [SavingCall.failed] at h
      obtain ⟨table', kv', heq⟩ := change_ok h
      exact ⟨kv', by rw [SavingCall.run, Table.insert, heq]; rfl⟩
  | delete ho table chunk =>
      rw [SavingCall.failed] at h
      obtain ⟨table', kv', heq⟩ := change_ok h
      exact ⟨kv', by rw [SavingCall.run, Table.delete, heq]; rfl⟩

theorem run_save (walk : Walk (Nat × Addr)) (index : Index) :
    SavingCall.run env kv (.save walk index)
      = .ok (.ok, (index.save env walk kv).2.2) := rfl

theorem not_reported_of_ok {call : SavingCall} {kv₁ : KvStorage}
    (h : call.run env kv = .ok (.ok, kv₁)) : ¬ Reported env kv call := by
  rintro ⟨status, kv', hrun, hne, -⟩
  exact hne (Prod.mk.inj (Except.ok.inj (hrun.symm.trans h))).1

/-- A key that is not read back is not found. -/
theorem not_finds {index : Index} {key : Bytes} {status : Status}
    (h : openAndGet env kv.healed index key = .ok (status, none)) :
    ¬ Finds env kv index key := by
  rintro ⟨value, hget⟩
  rw [h] at hget
  exact nomatch hget

/-- No save that fails is reported, whatever was collected and in whatever
    order it is written. -/
theorem never_reported (env : Env) (kv : KvStorage) (call : SavingCall)
    (h : call.failed env kv ≠ []) : ¬ Reported env kv call := by
  obtain ⟨kv₁, hrun⟩ := run_ok h
  exact not_reported_of_ok hrun

/-- An index after these calls on its empty tree, and the store, of which the
    calls to come have the outcomes `faults`. -/
def savedIndex (faults : List Bool) : Index × KvStorage :=
  let table : TableInfo := { id := 7, dbId := 1 }
  let root := (Index.emptyTree table { id := 0 }, KvStorage.empty)
  match execAll (Bptree.call (.wire 10)) root [.insert [1] [7],
      .insert [3] [9], .save, .insert [2] [8]] with
  | .ok (_, bptree, kv) =>
      ({ tableInfo := table, indexInfo := { id := 0 }, bptree },
        { kv with faults })
  | .error _ =>
      ({ tableInfo := table, indexInfo := { id := 0 }, bptree := root.1 }, root.2)

theorem never_reported_third :
    ¬ Reported (.wire 10) (savedIndex [false, false, true]).2
      (.save .inOrder (savedIndex [false, false, true]).1) :=
  never_reported _ _ _ (by decide +kernel)

/-- Of a split leaf, its new half and its parent, the parent is the one that is
    not written: the key of the new half is lost, and the save returns
    `C_OK`. -/
theorem save_loses_key :
    let s := savedIndex [false, false, true]
    Finds (.wire 10) s.2 s.1 [3]
      ∧ ∃ kv', SavingCall.run (.wire 10) s.2 (.save .inOrder s.1)
          = .ok (.ok, kv')
        ∧ ¬ Finds (.wire 10) kv' s.1 [3]
        ∧ ¬ Reported (.wire 10) s.2 (.save .inOrder s.1) := by
  intro s
  exact ⟨⟨[9], by decide +kernel⟩, _, run_save _ _,
    @not_finds _ _ _ _ .bptreeError (by decide +kernel),
    not_reported_of_ok (run_save _ _)⟩

end Calls

end AmDb.Storage
