import AmDb.Storage.Table

/-! # What a table call leaves alone

    Indexes are opened and filled by reading; a save writes tree nodes.  The
    records of a table change in one batch. -/

namespace AmDb.Storage

open Codec AmDb.Schema Chunk

/-- The stores hold the same records. -/
def SameRecords (kv kv' : KvStorage) : Prop :=
  ∀ dbId tableId colKeys, kv'.data (.dataKey dbId tableId colKeys)
    = kv.data (.dataKey dbId tableId colKeys)

theorem SameRecords.of_data {kv kv' : KvStorage} (h : kv'.data = kv.data) :
    SameRecords kv kv' := by
  intro dbId tableId colKeys
  rw [h]

theorem SameRecords.refl (kv : KvStorage) : SameRecords kv kv := .of_data rfl

theorem SameRecords.trans {kv₁ kv₂ kv₃ : KvStorage} (h : SameRecords kv₁ kv₂)
    (h' : SameRecords kv₂ kv₃) : SameRecords kv₁ kv₃ := by
  intro dbId tableId colKeys
  rw [h', h]

/-- A read uses up one answer. -/
theorem KvStorage.getKV_snd (kv : KvStorage) (key : StoreKey) :
    (kv.getKV key).2.2 = kv.skip 1 := by
  rw [KvStorage.getKV, KvStorage.tick_eq]
  simp only
  split
  · rfl
  · split <;> rfl

namespace Bptree

section Reads

variable {env : Env} {t t' : Bptree} {kv kv' : KvStorage} {status : Status}

/-- A load is one call on the store, and a read. -/
theorem loadTreeNode_skip {nodeId : Nat} {a : Addr}
    (h : t.loadTreeNode env kv nodeId a = .ok (status, t', kv')) :
    kv' = kv.skip 1 := by
  have hsnd := kv.getKV_snd (t.nodeKey nodeId)
  rw [loadTreeNode] at h
  split at h
  · case _ heq =>
      rw [heq] at hsnd
      obtain ⟨t₁, -, hok⟩ := Exec.bind_eq_ok.mp h
      cases hok
      exact hsnd
  · case _ heq =>
      rw [heq] at hsnd
      cases h
      exact hsnd

/-- The search for the place of a key reads. -/
theorem descendInsert_data {key : Bytes} {fuel : Nat} {cursor : Addr}
    {path : List Addr} {d : Descent}
    (h : descendInsert env key fuel t kv cursor path = .ok (d, t', kv')) :
    kv'.data = kv.data := by
  induction fuel generalizing t kv cursor path with
  | zero =>
      rw [descendInsert] at h
      split at h <;> cases h
      rfl
  | succ fuel ih =>
      rw [descendInsert] at h
      split at h
      · cases h
        rfl
      · split at h
        · exact ih h
        · obtain ⟨⟨s, t₁, kv₁⟩, hload, h⟩ := Exec.bind_eq_ok.mp h
          obtain rfl := loadTreeNode_skip hload
          simp only at h
          split at h
          · have hdata := ih h
            exact hdata
          · cases h
            rfl

/-- An insert into an index does not write. -/
theorem insert_data {key value : Bytes}
    (h : insert env t kv key value = .ok (status, t', kv')) :
    kv'.data = kv.data := by
  obtain ⟨⟨d, t₁, kv₁⟩, hdescend, h⟩ := Exec.bind_eq_ok.mp h
  have hdata := descendInsert_data hdescend
  cases d with
  | ret s =>
      cases h
      exact hdata
  | leaf path =>
      cases path with
      | nil => cases h
      | cons top path =>
          obtain ⟨⟨s, n⟩, -, h⟩ := Exec.bind_eq_ok.mp h
          simp only at h
          split at h
          · obtain ⟨t₂, -, h⟩ := Exec.bind_eq_ok.mp h
            cases h
            exact hdata
          · cases h
            exact hdata

/-- A save writes tree nodes only. -/
theorem dumpNodes_records (es : List (Nat × Addr)) :
    SameRecords kv (t.dumpNodes env es kv).2 := by
  induction es generalizing kv with
  | nil => exact .refl kv
  | cons e es ih =>
      have hput : SameRecords kv (t.dumpTreeNode env kv e.1 e.2).2 := by
        intro dbId tableId colKeys
        have hne : StoreKey.dataKey dbId tableId colKeys ≠ t.nodeKey e.1 := by
          simp [nodeKey]
        rw [dumpTreeNode, KvStorage.putKV, KvStorage.tick_eq]
        cases kv.fails 0
        · exact KvStorage.written_data_of_ne kv (t.serialize env e.2) hne
        · rfl
      rw [dumpNodes]
      split
      · case _ heq =>
          rw [heq] at hput
          exact hput.trans ih
      · case _ heq =>
          rw [heq] at hput
          exact hput

/-- A save writes no record. -/
theorem pullInOrder_records (es : List (Nat × Addr)) :
    SameRecords kv (t.pullInOrder env es kv).2 := by
  have hdump := @dumpNodes_records env t kv es
  rw [pullInOrder]
  split <;> (case _ heq => rw [heq] at hdump; exact hdump)

end Reads

end Bptree

namespace Index

section Calls

variable {env : Env} {kv kv' : KvStorage} {status : Status} {chunk : Chunk}

/-- An index is opened with one read. -/
theorem new_skip {table : TableInfo} {info : IndexInfo} {index : Index}
    (h : new env kv table info = .ok (index, kv')) : kv' = kv.skip 1 := by
  obtain ⟨⟨s, t, kv₁⟩, hload, h⟩ := Exec.bind_eq_ok.mp h
  cases h
  exact Bptree.loadTreeNode_skip hload

theorem insertEntries_data {es : List (Bytes × Bytes)} {t t' : Bptree}
    (h : insertEntries env es t kv = .ok (status, t', kv')) :
    kv'.data = kv.data := by
  induction es generalizing t kv with
  | nil =>
      cases h
      rfl
  | cons e es ih =>
      obtain ⟨⟨s, t₁, kv₁⟩, hins, h⟩ := Exec.bind_eq_ok.mp h
      have hdata := Bptree.insert_data hins
      simp only at h
      split at h
      · cases h
        exact hdata
      · exact (ih h).trans hdata

theorem insert_data {index index' : Index}
    (h : index.insert env kv chunk = .ok (status, index', kv')) :
    kv'.data = kv.data := by
  obtain ⟨es, -, h⟩ := Exec.bind_eq_ok.mp h
  obtain ⟨⟨s, t, kv₁⟩, hins, h⟩ := Exec.bind_eq_ok.mp h
  have hdata := insertEntries_data hins
  have hfinish : (index.finish (s, t, kv₁)).2.2 = kv₁ := by
    rw [finish]
    split <;> rfl
  obtain rfl : kv₁ = kv' := by
    rw [← hfinish]
    exact congrArg (fun r => r.2.2) (Except.ok.inj h)
  exact hdata

end Calls

end Index

namespace Table

section Calls

variable {env : Env} {ho : HashOrder} {table table' : Table}
  {kv kv' : KvStorage} {status : Status} {chunk : Chunk}

/-- The indexes of a table are opened with one read each. -/
theorem loadIndexes_skip {indexes : List IndexInfo}
    (h : loadIndexes env indexes table kv = .ok (table', kv')) :
    kv' = kv.skip indexes.length ∧ table'.tableInfo = table.tableInfo := by
  induction indexes generalizing table kv with
  | nil =>
      cases h
      exact ⟨rfl, rfl⟩
  | cons index indexes ih =>
      obtain ⟨⟨idx, kv₁⟩, hnew, h⟩ := Exec.bind_eq_ok.mp h
      obtain rfl := Index.new_skip hnew
      obtain ⟨hkv, hinfo⟩ := ih h
      rw [KvStorage.skip_skip, Nat.add_comm] at hkv
      exact ⟨hkv, hinfo⟩

/-- A loop over the indexes keeps the records when each of its calls does. -/
theorem forIndexes_records
    {f : Nat → Index → KvStorage → Exec (Status × Index × KvStorage)}
    (hf : ∀ id index kv r, f id index kv = .ok r → SameRecords kv r.2.2)
    {ies ies' : List (Nat × Index)}
    (h : forIndexes f ies kv = .ok (status, ies', kv')) :
    SameRecords kv kv' := by
  induction ies generalizing kv ies' with
  | nil =>
      cases h
      exact .refl _
  | cons e ies ih =>
      obtain ⟨⟨s, index, kv₁⟩, hcall, h⟩ := Exec.bind_eq_ok.mp h
      have hkept := hf e.1 e.2 kv _ hcall
      simp only at h
      split at h
      · cases h
        exact hkept
      · obtain ⟨⟨s, rest, kv₂⟩, hrest, h⟩ := Exec.bind_eq_ok.mp h
        cases h
        exact hkept.trans (ih hrest)

/-- What each index keeps, the loop over them keeps. -/
theorem overIndexes_records
    {f : Nat → Index → KvStorage → Exec (Status × Index × KvStorage)}
    (hf : ∀ id index kv r, f id index kv = .ok r → SameRecords kv r.2.2)
    (h : table.overIndexes ho f kv = .ok (status, table', kv')) :
    SameRecords kv kv' := by
  obtain ⟨⟨s, ies, kv₁⟩, hloop, h⟩ := Exec.bind_eq_ok.mp h
  cases h
  exact forIndexes_records hf hloop

/-- The save of a table writes no record. -/
theorem submit_records
    (h : table.submit env ho kv = .ok (status, table', kv')) :
    SameRecords kv kv' := by
  refine overIndexes_records ?_ h
  intro id index kv r hr
  cases hr
  exact Bptree.pullInOrder_records _

/-- The store after the batch of a table opened for it, which may fail. -/
def batched (kv : KvStorage) (info : TableInfo)
    (records : List (StoreKey × Bytes)) : KvStorage :=
  if kv.fails info.indexList.length then kv
  else { kv with data := KvStorage.writeBatch kv.data records }

/-- The records after `Insert` on a table opened for it: those of the batch, or
    the old ones when the batch fails. -/
theorem insert_records {info : TableInfo}
    (h : insert env ho { tableInfo := info } kv chunk
      = .ok (status, table', kv')) :
    ∃ records, encodeRecords info chunk.select = .ok records
      ∧ SameRecords (batched kv info records) kv' := by
  obtain ⟨⟨table₁, kv₁⟩, hload, h⟩ := Exec.bind_eq_ok.mp h
  obtain ⟨rfl, hinfo⟩ := loadIndexes_skip hload
  obtain ⟨⟨s, table₂, kv₂⟩, hcore, h⟩ := Exec.bind_eq_ok.mp h
  -- neither the indexes nor the save touch the records
  have hsubmit : SameRecords kv₂ kv' := by
    simp only at h
    split at h
    · cases h
      exact .refl kv'
    · exact submit_records h
  obtain ⟨records, hrecords, hcore⟩ := Exec.bind_eq_ok.mp hcore
  rw [hinfo] at hrecords
  refine ⟨records, hrecords, ?_⟩
  have hzip : (records.map Prod.fst).zip (records.map Prod.snd) = records := by
    rw [List.zip_map']
    exact List.map_id records
  rw [KvStorage.mPutKV, if_pos (by simp), KvStorage.tick_eq,
    KvStorage.fails_skip, Nat.add_zero, hzip] at hcore
  rw [batched]
  cases hf : kv.fails info.indexList.length with
  | true =>
      rw [hf] at hcore
      cases hcore
      exact hsubmit
  | false =>
      rw [hf] at hcore
      have hfill : table₁.overIndexes ho
          (fun _ index kv => index.insert env kv chunk)
          { (kv.skip info.indexList.length).skip 1 with
            data := KvStorage.writeBatch kv.data records }
          = .ok (s, table₂, kv₂) := hcore
      have hfilled := overIndexes_records
        (fun _ _ _ _ hr => .of_data (Index.insert_data hr)) hfill
      exact SameRecords.trans (.of_data rfl) (hfilled.trans hsubmit)

end Calls

end Table

end AmDb.Storage
