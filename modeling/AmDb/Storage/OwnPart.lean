import AmDb.Storage.TableWrites

/-! # The part of the store a table uses

    What a table object does depends on the keys of its table alone.  `over`
    puts these keys of one store over another store; every call commutes
    with it. -/

namespace AmDb.Storage

open Codec AmDb.Schema Chunk

instance (info : TableInfo) (key : StoreKey) : Decidable (OwnKey info key) :=
  match key with
  | .dataKey .. | .treeNode .. => inferInstanceAs (Decidable (_ ∧ _))
  | .databaseAllocId _ | .tableAllocId _ | .columnAllocId _ | .databaseId _
  | .databaseName _ | .tableId .. | .tableName .. | .metaStatistic ..
  | .columnStatistic .. => isFalse id

/-- The table's keys from `data`, all others from `base`. -/
def overData (info : TableInfo) (base data : StoreKey → Option Bytes) :
    StoreKey → Option Bytes :=
  fun key => if OwnKey info key then data key else base key

/-- The table's keys as `kv` has them, all others as `base` has them. -/
def KvStorage.over (info : TableInfo) (base : StoreKey → Option Bytes)
    (kv : KvStorage) : KvStorage :=
  { kv with data := overData info base kv.data }

section Store

variable {info : TableInfo} {base data : StoreKey → Option Bytes}
  {kv kv' : KvStorage} {key : StoreKey} {status : Status}

theorem overData_own (hkey : OwnKey info key) :
    overData info base data key = data key :=
  if_pos hkey

theorem overData_other (hkey : ¬ OwnKey info key) :
    overData info base data key = base key :=
  if_neg hkey

/-- A store is its own keys over the rest. -/
theorem over_self (kv : KvStorage) : kv.over info kv.data = kv := by
  obtain ⟨data, faults⟩ := kv
  refine congrArg (fun d => KvStorage.mk d faults) (funext fun key => ?_)
  exact ite_self _

/-- Stores with the same own keys are the same over one base. -/
theorem over_congr (hfaults : kv'.faults = kv.faults)
    (hdata : ∀ key, OwnKey info key → kv'.data key = kv.data key) :
    kv'.over info base = kv.over info base := by
  obtain ⟨data, faults⟩ := kv
  obtain rfl : kv'.faults = faults := hfaults
  refine congrArg (fun d => KvStorage.mk d kv'.faults) (funext fun key => ?_)
  by_cases hkey : OwnKey info key
  · rw [overData_own hkey, overData_own hkey]
    exact hdata key hkey
  · rw [overData_other hkey, overData_other hkey]

theorem tick_over : (kv.over info base).tick
    = (kv.fails 0, (kv.skip 1).over info base) :=
  KvStorage.tick_eq _

/-- A read of an own key finds the same value in both stores. -/
theorem getKV_over (hkey : OwnKey info key) :
    (kv.over info base).getKV key
      = ((kv.getKV key).1, (kv.getKV key).2.1,
        (kv.getKV key).2.2.over info base) := by
  rw [KvStorage.getKV, KvStorage.getKV, tick_over, KvStorage.tick_eq]
  cases kv.fails 0 with
  | true => rfl
  | false =>
      have hdata : ((kv.skip 1).over info base).data key
          = (kv.skip 1).data key := overData_own hkey
      simp only [Bool.false_eq_true, if_false, hdata]
      cases (kv.skip 1).data key <;> rfl

/-- A write to an own key. -/
theorem overData_update (hkey : OwnKey info key) (value : Option Bytes) :
    Function.update (overData info base data) key value
      = overData info base (Function.update data key value) := by
  funext k
  by_cases hk : k = key
  · subst hk
    rw [Function.update_self, overData_own hkey, Function.update_self]
  · rw [Function.update_of_ne hk, overData, overData,
      Function.update_of_ne hk]

/-- A write of an own key is seen in both stores. -/
theorem putKV_over (hkey : OwnKey info key) (value : Bytes) :
    (kv.over info base).putKV key value
      = ((kv.putKV key value).1, (kv.putKV key value).2.over info base) := by
  rw [KvStorage.putKV, KvStorage.putKV, tick_over, KvStorage.tick_eq]
  cases kv.fails 0 with
  | true => rfl
  | false =>
      have hupdate := @overData_update info base kv.data key hkey (some value)
      exact congrArg (fun d => (Status.ok, KvStorage.mk d (kv.skip 1).faults))
        hupdate

theorem writeBatch_over {records : List (StoreKey × Bytes)}
    (hrecords : ∀ r ∈ records, OwnKey info r.1) :
    KvStorage.writeBatch (overData info base data) records
      = overData info base (KvStorage.writeBatch data records) := by
  induction records generalizing data with
  | nil => rfl
  | cons r records ih =>
      obtain ⟨hr, hrest⟩ := List.forall_mem_cons.mp hrecords
      rw [KvStorage.writeBatch, overData_update hr]
      exact ih hrest

/-- A batch of own keys is seen in both stores. -/
theorem mPutKV_over {records : List (StoreKey × Bytes)}
    (hrecords : ∀ r ∈ records, OwnKey info r.1)
    (h : kv.mPutKV (records.map Prod.fst) (records.map Prod.snd)
      = .ok (status, kv')) :
    (kv.over info base).mPutKV (records.map Prod.fst) (records.map Prod.snd)
      = .ok (status, kv'.over info base) := by
  have hzip : (records.map Prod.fst).zip (records.map Prod.snd) = records := by
    rw [List.zip_map']
    exact List.map_id records
  rw [KvStorage.mPutKV, if_pos (by simp), KvStorage.tick_eq, hzip] at h
  rw [KvStorage.mPutKV, if_pos (by simp), tick_over, hzip]
  cases hf : kv.fails 0 with
  | true =>
      rw [hf] at h
      cases h
      rfl
  | false =>
      rw [hf] at h
      cases h
      have hbatch := @writeBatch_over info base kv.data _ hrecords
      exact congrArg (fun d =>
        (.ok (.ok, KvStorage.mk d (kv.skip 1).faults) : Exec (Status × _)))
        hbatch

/-- A delete of own keys is seen in both stores. -/
theorem mDelKV_over {keys : List StoreKey}
    (hkeys : ∀ key ∈ keys, OwnKey info key) :
    (kv.over info base).mDelKV keys
      = ((kv.mDelKV keys).1, (kv.mDelKV keys).2.over info base) := by
  rw [KvStorage.mDelKV, KvStorage.mDelKV, tick_over, KvStorage.tick_eq]
  cases kv.fails 0 with
  | true => rfl
  | false =>
      refine congrArg (fun d => (Status.ok, KvStorage.mk d (kv.skip 1).faults))
        (funext fun key => ?_)
      by_cases hmem : key ∈ keys
      · simp [overData, hmem, hkeys key hmem]
      · simp [overData, hmem, KvStorage.over]

end Store

namespace Bptree

variable {env : Env} {info : TableInfo} {base : StoreKey → Option Bytes}
  {t t' : Bptree} {kv kv' : KvStorage} {status : Status} {d : Descent}
  {key value : Bytes} {cursor : Addr} {path : List Addr} {fuel : Nat}

/-- The nodes of a tree of the table have own keys. -/
theorem ownKey_nodeKey (ht : OwnTree info t) (nodeId : Nat) :
    OwnKey info (t.nodeKey nodeId) := ht

/-- A node is loaded alike from both stores. -/
theorem loadTreeNode_over (ht : OwnTree info t) {nodeId : Nat} {a : Addr}
    (h : t.loadTreeNode env kv nodeId a = .ok (status, t', kv')) :
    t.loadTreeNode env (kv.over info base) nodeId a
      = .ok (status, t', kv'.over info base) := by
  have hget := @getKV_over info base kv _ (ownKey_nodeKey ht nodeId)
  rw [loadTreeNode] at h ⊢
  rw [hget]
  generalize kv.getKV (t.nodeKey nodeId) = r at h ⊢
  obtain ⟨s, value, kv₁⟩ := r
  cases s with
  | ok =>
      obtain ⟨t₁, hdes, h⟩ := Exec.bind_eq_ok.mp h
      cases h
      exact Exec.bind_eq_ok.mpr ⟨t', hdes, rfl⟩
  | _ =>
      cases h
      rfl

theorem descendInsert_over (ht : OwnTree info t)
    (h : descendInsert env key fuel t kv cursor path = .ok (d, t', kv')) :
    descendInsert env key fuel t (kv.over info base) cursor path
      = .ok (d, t', kv'.over info base) := by
  induction fuel generalizing t kv cursor path with
  | zero =>
      rw [descendInsert] at h ⊢
      split_ifs at h ⊢
      cases h
      rfl
  | succ fuel ih =>
      rw [descendInsert] at h ⊢
      split_ifs at h ⊢
      · cases h
        rfl
      · cases hback : (t.node cursor).children.getLast? with
        | none =>
            simp only [hback] at h ⊢
            have hnext : OwnTree info (t.newMutableLeafChild cursor).2 := ht
            exact ih hnext h
        | some back =>
            simp only [hback] at h ⊢
            obtain ⟨⟨s, t₁, kv₁⟩, hload, h⟩ := Exec.bind_eq_ok.mp h
            have ht₁ := ht.congr (sameSchema_loadTreeNode hload)
            refine Exec.bind_eq_ok.mpr ⟨_, loadTreeNode_over ht hload, ?_⟩
            simp only at h ⊢
            split_ifs at h ⊢
            · exact ih ht₁ h
            · cases h
              rfl

/-- What `Insert` does with a path to a leaf does not depend on the store. -/
theorem insert_over (ht : OwnTree info t)
    (h : insert env t kv key value = .ok (status, t', kv')) :
    insert env t (kv.over info base) key value
      = .ok (status, t', kv'.over info base) := by
  obtain ⟨⟨d, t₁, kv₁⟩, hdescend, h⟩ := Exec.bind_eq_ok.mp h
  refine Exec.bind_eq_ok.mpr ⟨_, descendInsert_over ht hdescend, ?_⟩
  cases d with
  | ret s =>
      cases h
      rfl
  | leaf path =>
      cases path with
      | nil => cases h
      | cons top path =>
          obtain ⟨⟨s, n⟩, hleaf, h⟩ := Exec.bind_eq_ok.mp h
          refine Exec.bind_eq_ok.mpr ⟨_, hleaf, ?_⟩
          simp only at h ⊢
          split_ifs at h ⊢
          · obtain ⟨t₂, hunwind, h⟩ := Exec.bind_eq_ok.mp h
            cases h
            exact Exec.bind_eq_ok.mpr ⟨t', hunwind, rfl⟩
          · cases h
            rfl

theorem descendFind_over (ht : OwnTree info t) {missing : Status}
    (h : descendFind env key missing fuel t kv cursor path
      = .ok (d, t', kv')) :
    descendFind env key missing fuel t (kv.over info base) cursor path
      = .ok (d, t', kv'.over info base) := by
  induction fuel generalizing t kv cursor path with
  | zero =>
      rw [descendFind] at h ⊢
      split_ifs at h ⊢
      cases h
      rfl
  | succ fuel ih =>
      rw [descendFind] at h ⊢
      split_ifs at h ⊢
      · cases h
        rfl
      · cases hchild : t.findChild cursor key with
        | none =>
            simp only [hchild] at h ⊢
            cases h
            rfl
        | some child =>
            simp only [hchild] at h ⊢
            obtain ⟨⟨s, t₁, kv₁⟩, hload, h⟩ := Exec.bind_eq_ok.mp h
            have ht₁ := ht.congr (sameSchema_loadTreeNode hload)
            refine Exec.bind_eq_ok.mpr ⟨_, loadTreeNode_over ht hload, ?_⟩
            simp only at h ⊢
            split_ifs at h ⊢
            · exact ih ht₁ h
            · cases h
              rfl

/-- A delete does the same on both stores. -/
theorem delete_over (ht : OwnTree info t)
    (h : delete env t kv key = .ok (status, t', kv')) :
    delete env t (kv.over info base) key
      = .ok (status, t', kv'.over info base) := by
  obtain ⟨⟨d, t₁, kv₁⟩, hdescend, h⟩ := Exec.bind_eq_ok.mp h
  refine Exec.bind_eq_ok.mpr ⟨_, descendFind_over ht hdescend, ?_⟩
  cases d with
  | ret s =>
      cases h
      rfl
  | leaf path =>
      cases path with
      | nil => cases h
      | cons top path =>
          obtain ⟨⟨s, n⟩, hleaf, h⟩ := Exec.bind_eq_ok.mp h
          refine Exec.bind_eq_ok.mpr ⟨_, hleaf, ?_⟩
          simp only at h ⊢
          split_ifs at h ⊢
          · obtain ⟨t₂, hunwind, h⟩ := Exec.bind_eq_ok.mp h
            cases h
            exact Exec.bind_eq_ok.mpr ⟨t', hunwind, rfl⟩
          · cases h
            rfl

theorem dumpNodes_over (ht : OwnTree info t) (es : List (Nat × Addr)) :
    t.dumpNodes env es (kv.over info base)
      = ((t.dumpNodes env es kv).1,
        (t.dumpNodes env es kv).2.over info base) := by
  induction es generalizing kv with
  | nil => rfl
  | cons e es ih =>
      have hput := @putKV_over info base kv _ (ownKey_nodeKey ht e.1)
        (t.serialize env e.2)
      rw [dumpNodes, dumpNodes, dumpTreeNode, dumpTreeNode, hput]
      generalize kv.putKV (t.nodeKey e.1) (t.serialize env e.2) = r
      obtain ⟨s, kv₁⟩ := r
      cases s with
      | ok => exact ih
      | _ => rfl

/-- A save does the same on both stores, in any order of the nodes. -/
theorem pullInOrder_over (ht : OwnTree info t) (es : List (Nat × Addr)) :
    t.pullInOrder env es (kv.over info base)
      = ((t.pullInOrder env es kv).1,
        (t.pullInOrder env es kv).2.over info base) := by
  rw [pullInOrder, pullInOrder, dumpNodes_over ht]
  generalize t.dumpNodes env es kv = r
  obtain ⟨s, kv₁⟩ := r
  cases s <;> rfl

end Bptree

namespace Index

variable {env : Env} {info table : TableInfo} {i : IndexInfo}
  {base : StoreKey → Option Bytes} {index index' : Index}
  {kv kv' : KvStorage} {status : Status} {chunk : Chunk}
  {es : List (Bytes × Bytes)} {t t' : Bptree}

/-- An index opens alike in both stores. -/
theorem new_over (hdb : table.dbId = info.dbId) (hid : table.id = info.id)
    (h : new env kv table i = .ok (index, kv')) :
    new env (kv.over info base) table i
      = .ok (index, kv'.over info base) := by
  obtain ⟨⟨s, t, kv₁⟩, hload, h⟩ := Exec.bind_eq_ok.mp h
  have hempty : OwnTree info (emptyTree table i) := ⟨hdb, hid⟩
  cases h
  exact Exec.bind_eq_ok.mpr ⟨_, Bptree.loadTreeNode_over hempty hload, rfl⟩

theorem insertEntries_over (ht : OwnTree info t)
    (h : insertEntries env es t kv = .ok (status, t', kv')) :
    insertEntries env es t (kv.over info base)
      = .ok (status, t', kv'.over info base) := by
  induction es generalizing t kv with
  | nil =>
      cases h
      rfl
  | cons e es ih =>
      obtain ⟨⟨s, t₁, kv₁⟩, hins, h⟩ := Exec.bind_eq_ok.mp h
      have ht₁ := ht.congr (Bptree.insert_reads hins).2
      refine Exec.bind_eq_ok.mpr ⟨_, Bptree.insert_over ht hins, ?_⟩
      simp only at h ⊢
      split_ifs at h ⊢
      · cases h
        rfl
      · exact ih ht₁ h

theorem deleteEntries_over (ht : OwnTree info t)
    (h : deleteEntries env es t kv = .ok (status, t', kv')) :
    deleteEntries env es t (kv.over info base)
      = .ok (status, t', kv'.over info base) := by
  induction es generalizing t kv with
  | nil =>
      cases h
      rfl
  | cons e es ih =>
      obtain ⟨⟨s, t₁, kv₁⟩, hdel, h⟩ := Exec.bind_eq_ok.mp h
      have ht₁ := ht.congr (Bptree.delete_reads hdel).2
      refine Exec.bind_eq_ok.mpr ⟨_, Bptree.delete_over ht hdel, ?_⟩
      simp only at h ⊢
      split_ifs at h ⊢
      · cases h
        rfl
      · exact ih ht₁ h

/-- What `Insert` and `Delete` end with. -/
theorem finish_over {s : Status} (h : index.finish (s, t, kv)
      = (status, index', kv')) : index.finish (s, t, kv.over info base)
      = (status, index', kv'.over info base) := by
  rw [finish] at h ⊢
  split_ifs at h ⊢
  · cases h
    rfl
  · cases h
    rfl

theorem insert_over (ht : Own info index)
    (h : index.insert env kv chunk = .ok (status, index', kv')) :
    index.insert env (kv.over info base) chunk
      = .ok (status, index', kv'.over info base) := by
  obtain ⟨es, hes, h⟩ := Exec.bind_eq_ok.mp h
  obtain ⟨⟨s, t, kv₁⟩, hins, h⟩ := Exec.bind_eq_ok.mp h
  refine Exec.bind_eq_ok.mpr ⟨es, hes, ?_⟩
  refine Exec.bind_eq_ok.mpr ⟨_, insertEntries_over ht hins, ?_⟩
  have hfinish : index.finish (s, t, kv₁) = (status, index', kv') :=
    Except.ok.inj h
  exact congrArg Except.ok (finish_over hfinish)

theorem delete_over (ht : Own info index)
    (h : index.delete env kv chunk = .ok (status, index', kv')) :
    index.delete env (kv.over info base) chunk
      = .ok (status, index', kv'.over info base) := by
  obtain ⟨es, hes, h⟩ := Exec.bind_eq_ok.mp h
  obtain ⟨⟨s, t, kv₁⟩, hdel, h⟩ := Exec.bind_eq_ok.mp h
  refine Exec.bind_eq_ok.mpr ⟨es, hes, ?_⟩
  refine Exec.bind_eq_ok.mpr ⟨_, deleteEntries_over ht hdel, ?_⟩
  have hfinish : index.finish (s, t, kv₁) = (status, index', kv') :=
    Except.ok.inj h
  exact congrArg Except.ok (finish_over hfinish)

theorem save_over (ht : Own info index) {walk : Walk (Nat × Addr)}
    (h : index.save env walk kv = (status, index', kv')) :
    index.save env walk (kv.over info base)
      = (status, index', kv'.over info base) := by
  have hpull := @Bptree.pullInOrder_over env info base index.bptree kv ht
    (walk.order index.bptree.treeCtx.unsavedNodes)
  rw [save] at h ⊢
  rw [hpull]
  cases h
  rfl

end Index

namespace Table

section Calls

variable {env : Env} {ho : HashOrder} {info : TableInfo}
  {base : StoreKey → Option Bytes} {table table' : Table}
  {kv kv' : KvStorage} {status : Status} {chunk : Chunk}

theorem loadIndexes_over (ht : Own info table) {indexes : List IndexInfo}
    (h : loadIndexes env indexes table kv = .ok (table', kv')) :
    loadIndexes env indexes table (kv.over info base)
      = .ok (table', kv'.over info base) := by
  induction indexes generalizing table kv with
  | nil =>
      cases h
      rfl
  | cons i indexes ih =>
      obtain ⟨⟨index, kv₁⟩, hnew, h⟩ := Exec.bind_eq_ok.mp h
      refine Exec.bind_eq_ok.mpr ⟨_, Index.new_over ht.dbId ht.id hnew, ?_⟩
      exact ih (ht.emplaced i (Index.Own.new ht.dbId ht.id hnew)) h

/-- A table opens alike in both stores. -/
theorem loadMeta_over (ht : Own info table)
    (h : table.loadMeta env kv = .ok (table', kv')) :
    table.loadMeta env (kv.over info base)
      = .ok (table', kv'.over info base) := by
  rw [loadMeta] at h ⊢
  split_ifs at h ⊢
  · cases h
    rfl
  · exact loadIndexes_over ht h

/-- A loop over the indexes looks at what its calls look at. -/
theorem forIndexes_over
    {f : Nat → Index → KvStorage → Exec (Status × Index × KvStorage)}
    (hf : ∀ {id index kv s index' kv'}, Index.Own info index →
      f id index kv = .ok (s, index', kv') →
      f id index (kv.over info base) = .ok (s, index', kv'.over info base))
    {ies ies' : List (Nat × Index)} (hies : ∀ e ∈ ies, Index.Own info e.2)
    (h : forIndexes f ies kv = .ok (status, ies', kv')) :
    forIndexes f ies (kv.over info base)
      = .ok (status, ies', kv'.over info base) := by
  induction ies generalizing kv ies' with
  | nil =>
      cases h
      rfl
  | cons e ies ih =>
      obtain ⟨he, hrest⟩ := List.forall_mem_cons.mp hies
      obtain ⟨⟨s, index, kv₁⟩, hcall, h⟩ := Exec.bind_eq_ok.mp h
      refine Exec.bind_eq_ok.mpr ⟨_, hf he hcall, ?_⟩
      simp only at h ⊢
      split_ifs at h ⊢
      · cases h
        rfl
      · obtain ⟨⟨s, ies₁, kv₂⟩, hloop, h⟩ := Exec.bind_eq_ok.mp h
        cases h
        exact Exec.bind_eq_ok.mpr ⟨_, ih hrest hloop, rfl⟩

/-- What each index does alike, the loop over them does. -/
theorem overIndexes_over (ht : Own info table)
    {f : Nat → Index → KvStorage → Exec (Status × Index × KvStorage)}
    (hf : ∀ {id index kv s index' kv'}, Index.Own info index →
      f id index kv = .ok (s, index', kv') →
      f id index (kv.over info base) = .ok (s, index', kv'.over info base))
    (h : table.overIndexes ho f kv = .ok (status, table', kv')) :
    table.overIndexes ho f (kv.over info base)
      = .ok (status, table', kv'.over info base) := by
  obtain ⟨⟨s, ies, kv₁⟩, hloop, h⟩ := Exec.bind_eq_ok.mp h
  have hies : ∀ e ∈ ho.indexes.order table.colIndex, Index.Own info e.2 :=
    fun e he => ht.indexes e ((ho.indexes.perm _).mem_iff.mp he)
  cases h
  exact Exec.bind_eq_ok.mpr
    ⟨_, @forIndexes_over info base kv kv' status f hf _ _ hies hloop, rfl⟩

/-- All indexes are saved alike in both stores. -/
theorem submit_over (ht : Own info table)
    (h : table.submit env ho kv = .ok (status, table', kv')) :
    table.submit env ho (kv.over info base)
      = .ok (status, table', kv'.over info base) := by
  refine overIndexes_over ht ?_ h
  intro id index kv s index' kv' hindex hok
  exact congrArg Except.ok (Index.save_over hindex (Except.ok.inj hok))

/-- Rows are inserted alike in both stores. -/
theorem insertCore_over (ht : Own info table)
    (h : table.insertCore env ho kv chunk = .ok (status, table', kv')) :
    table.insertCore env ho (kv.over info base) chunk
      = .ok (status, table', kv'.over info base) := by
  obtain ⟨records, hrecords, h⟩ := Exec.bind_eq_ok.mp h
  obtain ⟨⟨s, kv₁⟩, hput, h⟩ := Exec.bind_eq_ok.mp h
  refine Exec.bind_eq_ok.mpr ⟨records, hrecords, ?_⟩
  refine Exec.bind_eq_ok.mpr
    ⟨_, mPutKV_over (ht.encodeRecords hrecords) hput, ?_⟩
  simp only at h ⊢
  split_ifs at h ⊢
  · cases h
    rfl
  · exact overIndexes_over ht (fun hi hok => Index.insert_over hi hok) h

/-- Rows are deleted alike in both stores. -/
theorem deleteCore_over (ht : Own info table)
    (h : table.deleteCore env ho kv chunk = .ok (status, table', kv')) :
    table.deleteCore env ho (kv.over info base) chunk
      = .ok (status, table', kv'.over info base) := by
  obtain ⟨⟨s, table₁, kv₁⟩, hloop, h⟩ := Exec.bind_eq_ok.mp h
  obtain ⟨ht₁, -⟩ := ht.overIndexes (fun hi hok => hi.delete hok) hloop
  refine Exec.bind_eq_ok.mpr ⟨_, overIndexes_over ht
    (fun hi hok => Index.delete_over hi hok) hloop, ?_⟩
  simp only at h ⊢
  split_ifs at h ⊢
  · cases h
    rfl
  · obtain ⟨records, hrecords, h⟩ := Exec.bind_eq_ok.mp h
    refine Exec.bind_eq_ok.mpr ⟨records, hrecords, ?_⟩
    have hdel := @mDelKV_over info base kv₁ (records.map Prod.fst) (by
      intro key hkey
      obtain ⟨r, hr, rfl⟩ := List.mem_map.mp hkey
      exact ht₁.encodeRecords hrecords r hr)
    rw [hdel]
    cases h
    rfl

/-- `Prepare`, a core that looks at own keys only, `Submit`. -/
theorem change_over (ht : Own info table)
    {core : Table → KvStorage → Exec (Status × Table × KvStorage)}
    (hwrites : ∀ {table kv s table' kv'}, Own info table →
      core table kv = .ok (s, table', kv') →
      Own info table' ∧ OnlyOwn info kv kv')
    (hcore : ∀ {table kv s table' kv'}, Own info table →
      core table kv = .ok (s, table', kv') →
      core table (kv.over info base) = .ok (s, table', kv'.over info base))
    (h : table.change env ho core kv = .ok (status, table', kv')) :
    table.change env ho core (kv.over info base)
      = .ok (status, table', kv'.over info base) := by
  obtain ⟨⟨table₁, kv₁⟩, hload, h⟩ := Exec.bind_eq_ok.mp h
  obtain ⟨ht₁, -⟩ := ht.loadMeta hload
  obtain ⟨⟨s, table₂, kv₂⟩, hrun, h⟩ := Exec.bind_eq_ok.mp h
  obtain ⟨ht₂, -⟩ := hwrites ht₁ hrun
  refine Exec.bind_eq_ok.mpr ⟨_, loadMeta_over ht hload, ?_⟩
  refine Exec.bind_eq_ok.mpr ⟨_, hcore ht₁ hrun, ?_⟩
  simp only at h ⊢
  split_ifs at h ⊢
  · cases h
    rfl
  · exact submit_over ht₂ h

end Calls

section Steps

variable {env : Env} {pb : SchemaProtobuf} {info : TableInfo}
  {base : StoreKey → Option Bytes} {s s' : State} {op : Op}

/-- A call on the table over another base, which describes the table too. -/
theorem Returned.over (h : Returned env pb s op s') (ht : Own info s.1)
    (hrec : Recorded pb info s.2)
    (hbase : Recorded pb info (s.2.over info base)) :
    Returned env pb (s.1, s.2.over info base) op
      (s'.1, s'.2.over info base) := by
  obtain ⟨⟨status, hok⟩, hread⟩ := h
  refine ⟨?_, hread⟩
  cases op with
  | insert ho chunk =>
      exact ⟨status, change_over ht (fun ht hok => ht.insertCore hok)
        (fun ht hok => insertCore_over ht hok) hok⟩
  | delete ho chunk =>
      exact ⟨status, change_over ht (fun ht hok => ht.deleteCore hok)
        (fun ht hok => deleteCore_over ht hok) hok⟩
  | reopen =>
      have hbase := @call_reopen env pb info (s.1, s.2.over info base) ht.dbId
        ht.id hbase (hread rfl)
      rw [call_reopen ht.dbId ht.id hrec (hread rfl)] at hok
      cases hok
      exact ⟨.ok, hbase⟩

end Steps

end Table

end AmDb.Storage
