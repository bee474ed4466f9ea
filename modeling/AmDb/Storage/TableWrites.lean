import AmDb.Storage.TableRun
import AmDb.Storage.TreeWrites

/-! # What a table writes

    The records and the tree nodes of a table are told apart from all others by
    the two ids in front of their keys.  A table object writes nothing else,
    whatever calls on the store fail on the way. -/

namespace AmDb.Storage

open Codec AmDb.Schema Chunk

/-- A record or a tree node of the table. -/
def OwnKey (info : TableInfo) : StoreKey → Prop
  | .dataKey dbId tableId _ | .treeNode dbId tableId _ _ =>
      dbId = info.dbId ∧ tableId = info.id
  | _ => False

theorem not_ownKey_tableId {info : TableInfo} {dbId tableId : Nat} :
    ¬ OwnKey info (.tableId dbId tableId) := id

/-- Some calls lead from one store to the other, and wrote keys of the table
    only. -/
structure OnlyOwn (info : TableInfo) (kv kv' : KvStorage) : Prop where
  faults : ∃ n, kv'.faults = kv.faults.drop n
  data   : ∀ key, ¬ OwnKey info key → kv'.data key = kv.data key

namespace OnlyOwn

variable {info : TableInfo} {kv kv₁ kv₂ kv₃ kv' : KvStorage}

theorem of_read (h : OnlyRead kv kv') : OnlyOwn info kv kv' := by
  obtain ⟨n, rfl⟩ := h
  exact ⟨⟨n, rfl⟩, fun _ _ => rfl⟩

theorem refl (info : TableInfo) (kv : KvStorage) : OnlyOwn info kv kv :=
  .of_read (.refl kv)

/-- Calls that write own keys do so one after another. -/
theorem trans (h : OnlyOwn info kv₁ kv₂) (h' : OnlyOwn info kv₂ kv₃) :
    OnlyOwn info kv₁ kv₃ := by
  obtain ⟨m, hm⟩ := h.faults
  obtain ⟨n, hn⟩ := h'.faults
  refine ⟨⟨m + n, by rw [hn, hm, List.drop_drop]⟩, ?_⟩
  intro key hkey
  rw [h'.data key hkey, h.data key hkey]

theorem reliable (h : OnlyOwn info kv kv') (hkv : kv.Reliable) :
    kv'.Reliable := by
  obtain ⟨n, hn⟩ := h.faults
  rw [KvStorage.Reliable, hn, show kv.faults = [] from hkv, List.drop_nil]

end OnlyOwn

/-- The ids of the table are in front of the keys of the tree. -/
def OwnTree (info : TableInfo) (t : Bptree) : Prop :=
  t.treeCtx.schema.dbId = info.dbId ∧ t.treeCtx.schema.tableId = info.id

section Trees

variable {env : Env} {info : TableInfo} {t t' : Bptree} {kv kv' : KvStorage}
  {status : Status} {key : StoreKey}

theorem OwnTree.congr (h : OwnTree info t) (hs : Bptree.SameSchema t t') :
    OwnTree info t' := by
  rw [OwnTree, hs]
  exact h

theorem OwnTree.nodeKey_ne (h : OwnTree info t) (hkey : ¬ OwnKey info key)
    (nodeId : Nat) : key ≠ t.nodeKey nodeId := by
  rintro rfl
  exact hkey h

/-- A save writes own keys. -/
theorem OwnTree.pullInOrder (h : OwnTree info t) (es : List (Nat × Addr)) :
    OwnTree info (t.pullInOrder env es kv).1
      ∧ OnlyOwn info kv (t.pullInOrder env es kv).2 := by
  refine ⟨h.congr (Bptree.sameSchema_pullInOrder es),
    Bptree.pullInOrder_faults es, ?_⟩
  intro key hkey
  exact Bptree.pullInOrder_elsewhere es (h.nodeKey_ne hkey)

end Trees

namespace Index

/-- An index of the table. -/
def Own (info : TableInfo) (index : Index) : Prop := OwnTree info index.bptree

section Calls

variable {env : Env} {info table : TableInfo} {i : IndexInfo}
  {index index' : Index} {kv kv' : KvStorage} {status : Status}
  {chunk : Chunk} {es : List (Bytes × Bytes)} {t t' : Bptree}

/-- An index that is opened is the table's. -/
theorem Own.new (hdb : table.dbId = info.dbId) (hid : table.id = info.id)
    (h : Index.new env kv table i = .ok (index, kv')) : Own info index := by
  obtain ⟨⟨s, t, kv₁⟩, hload, h⟩ := Exec.bind_eq_ok.mp h
  have hsame := Bptree.sameSchema_loadTreeNode hload
  cases h
  have hempty : OwnTree info (emptyTree table i) := ⟨hdb, hid⟩
  exact hempty.congr hsame

theorem insertEntries_reads
    (h : insertEntries env es t kv = .ok (status, t', kv')) :
    OnlyRead kv kv' ∧ Bptree.SameSchema t t' := by
  induction es generalizing t kv with
  | nil =>
      cases h
      exact ⟨.refl _, rfl⟩
  | cons e es ih =>
      obtain ⟨⟨s, t₁, kv₁⟩, hins, h⟩ := Exec.bind_eq_ok.mp h
      obtain ⟨hread, hsame⟩ := Bptree.insert_reads hins
      simp only at h
      split at h
      · cases h
        exact ⟨hread, hsame⟩
      · obtain ⟨hread', hsame'⟩ := ih h
        exact ⟨hread.trans hread', hsame.trans hsame'⟩

theorem deleteEntries_reads
    (h : deleteEntries env es t kv = .ok (status, t', kv')) :
    OnlyRead kv kv' ∧ Bptree.SameSchema t t' := by
  induction es generalizing t kv with
  | nil =>
      cases h
      exact ⟨.refl _, rfl⟩
  | cons e es ih =>
      obtain ⟨⟨s, t₁, kv₁⟩, hdel, h⟩ := Exec.bind_eq_ok.mp h
      obtain ⟨hread, hsame⟩ := Bptree.delete_reads hdel
      simp only at h
      split at h
      · cases h
        exact ⟨hread, hsame⟩
      · obtain ⟨hread', hsame'⟩ := ih h
        exact ⟨hread.trans hread', hsame.trans hsame'⟩

/-- What `Insert` and `Delete` end with. -/
theorem finish_tree {s : Status}
    (h : index.finish (s, t, kv) = (status, index', kv')) :
    kv' = kv ∧ index'.bptree = t := by
  rw [finish] at h
  split at h
  · cases h
    exact ⟨rfl, rfl⟩
  · cases h
    exact ⟨rfl, rfl⟩

/-- `Insert` reads the store, and leaves the prefix of the tree alone. -/
theorem insert_reads
    (h : index.insert env kv chunk = .ok (status, index', kv')) :
    OnlyRead kv kv' ∧ Bptree.SameSchema index.bptree index'.bptree := by
  obtain ⟨es, -, h⟩ := Exec.bind_eq_ok.mp h
  obtain ⟨⟨s, t, kv₁⟩, hins, h⟩ := Exec.bind_eq_ok.mp h
  obtain ⟨rfl, rfl⟩ := finish_tree (Except.ok.inj h)
  exact insertEntries_reads hins

theorem delete_reads
    (h : index.delete env kv chunk = .ok (status, index', kv')) :
    OnlyRead kv kv' ∧ Bptree.SameSchema index.bptree index'.bptree := by
  obtain ⟨es, -, h⟩ := Exec.bind_eq_ok.mp h
  obtain ⟨⟨s, t, kv₁⟩, hdel, h⟩ := Exec.bind_eq_ok.mp h
  obtain ⟨rfl, rfl⟩ := finish_tree (Except.ok.inj h)
  exact deleteEntries_reads hdel

/-- An insert into an index writes own keys. -/
theorem Own.insert (ht : Own info index)
    (h : index.insert env kv chunk = .ok (status, index', kv')) :
    Own info index' ∧ OnlyOwn info kv kv' := by
  obtain ⟨hread, hsame⟩ := insert_reads h
  exact ⟨ht.congr hsame, .of_read hread⟩

/-- A delete from an index writes own keys. -/
theorem Own.delete (ht : Own info index)
    (h : index.delete env kv chunk = .ok (status, index', kv')) :
    Own info index' ∧ OnlyOwn info kv kv' := by
  obtain ⟨hread, hsame⟩ := delete_reads h
  exact ⟨ht.congr hsame, .of_read hread⟩

/-- The save of an index writes own keys. -/
theorem Own.save (ht : Own info index) {walk : Walk (Nat × Addr)}
    (h : index.save env walk kv = (status, index', kv')) :
    Own info index' ∧ OnlyOwn info kv kv' := by
  have hpull := @OwnTree.pullInOrder env info index.bptree kv ht
    (walk.order index.bptree.treeCtx.unsavedNodes)
  cases h
  exact hpull

end Calls

end Index

namespace Table

/-- A table object of the table. -/
structure Own (info : TableInfo) (table : Table) : Prop where
  dbId    : table.tableInfo.dbId = info.dbId
  id      : table.tableInfo.id = info.id
  indexes : ∀ e ∈ table.colIndex, Index.Own info e.2

section Calls

variable {env : Env} {ho : HashOrder} {info : TableInfo}
  {table table' : Table} {kv kv' : KvStorage} {status : Status}
  {chunk : Chunk}

/-- An object that was not used yet. -/
theorem own_new (info : TableInfo) : Own info { tableInfo := info } :=
  ⟨rfl, rfl, fun _ he => absurd he List.not_mem_nil⟩

/-- An index of the map was there or is the new one. -/
theorem mem_emplace {colIndex : List (Nat × Index)} {id : Nat} {index : Index}
    {e : Nat × Index} (h : e ∈ emplace colIndex id index) :
    e ∈ colIndex ∨ e = (id, index) := by
  rw [emplace] at h
  split at h
  · exact Or.inl h
  · exact (List.mem_append.mp h).imp_right List.mem_singleton.mp

/-- The loop of `loadMeta` goes on with a table that has one index more. -/
theorem Own.emplaced (ht : Own info table) (i : IndexInfo) {index : Index}
    (hindex : Index.Own info index) : Own info { table with
      colIndex := emplace table.colIndex i.id index
      rowIndex := if i.type = .primary then some i.id
        else table.rowIndex } := by
  refine ⟨ht.dbId, ht.id, ?_⟩
  intro e he
  rcases mem_emplace he with he | rfl
  · exact ht.indexes e he
  · exact hindex

/-- The indexes that are opened are the table's. -/
theorem Own.loadIndexes (ht : Own info table) {indexes : List IndexInfo}
    (h : loadIndexes env indexes table kv = .ok (table', kv')) :
    Own info table' := by
  induction indexes generalizing table kv with
  | nil =>
      cases h
      exact ht
  | cons i indexes ih =>
      obtain ⟨⟨index, kv₁⟩, hnew, h⟩ := Exec.bind_eq_ok.mp h
      exact ih (ht.emplaced i (Index.Own.new ht.dbId ht.id hnew)) h

theorem Own.loadMeta (ht : Own info table)
    (h : table.loadMeta env kv = .ok (table', kv')) :
    Own info table' ∧ OnlyRead kv kv' := by
  rw [Table.loadMeta] at h
  split at h
  · cases h
    exact ⟨ht, .refl _⟩
  · obtain ⟨rfl, -⟩ := loadIndexes_skip h
    exact ⟨ht.loadIndexes h, .skip kv _⟩

/-- A loop over the indexes writes what its calls write. -/
theorem forIndexes_own
    {f : Nat → Index → KvStorage → Exec (Status × Index × KvStorage)}
    (hf : ∀ {id index kv s index' kv'}, Index.Own info index →
      f id index kv = .ok (s, index', kv') →
      Index.Own info index' ∧ OnlyOwn info kv kv')
    {ies ies' : List (Nat × Index)} (hies : ∀ e ∈ ies, Index.Own info e.2)
    (h : forIndexes f ies kv = .ok (status, ies', kv')) :
    (∀ e ∈ ies', Index.Own info e.2) ∧ OnlyOwn info kv kv' := by
  induction ies generalizing kv ies' with
  | nil =>
      cases h
      exact ⟨hies, .refl info _⟩
  | cons e ies ih =>
      obtain ⟨he, hrest⟩ := List.forall_mem_cons.mp hies
      obtain ⟨⟨s, index, kv₁⟩, hcall, h⟩ := Exec.bind_eq_ok.mp h
      obtain ⟨hindex, honly⟩ := hf he hcall
      simp only at h
      split at h
      · cases h
        exact ⟨List.forall_mem_cons.mpr ⟨hindex, hrest⟩, honly⟩
      · obtain ⟨⟨s, ies₁, kv₂⟩, hloop, h⟩ := Exec.bind_eq_ok.mp h
        cases h
        obtain ⟨hies', honly'⟩ := ih hrest hloop
        exact ⟨List.forall_mem_cons.mpr ⟨hindex, hies'⟩, honly.trans honly'⟩

/-- The loop over the indexes writes own keys when each call does. -/
theorem Own.overIndexes (ht : Own info table)
    {f : Nat → Index → KvStorage → Exec (Status × Index × KvStorage)}
    (hf : ∀ {id index kv s index' kv'}, Index.Own info index →
      f id index kv = .ok (s, index', kv') →
      Index.Own info index' ∧ OnlyOwn info kv kv')
    (h : table.overIndexes ho f kv = .ok (status, table', kv')) :
    Own info table' ∧ OnlyOwn info kv kv' := by
  obtain ⟨⟨s, ies, kv₁⟩, hloop, h⟩ := Exec.bind_eq_ok.mp h
  obtain ⟨hies, honly⟩ := forIndexes_own hf
    (fun e he => ht.indexes e ((ho.indexes.perm _).mem_iff.mp he)) hloop
  cases h
  exact ⟨⟨ht.dbId, ht.id, hies⟩, honly⟩

/-- The save of a table writes own keys. -/
theorem Own.submit (ht : Own info table)
    (h : table.submit env ho kv = .ok (status, table', kv')) :
    Own info table' ∧ OnlyOwn info kv kv' := by
  refine ht.overIndexes ?_ h
  intro id index kv s index' kv' hindex hok
  exact hindex.save (Except.ok.inj hok)

/-- The records of rows are under data keys of the table. -/
theorem encodeRecord_key {row : Row} {r : StoreKey × Bytes}
    (h : encodeRecord info row = .ok r) :
    ∃ colKeys, r.1 = .dataKey info.dbId info.id colKeys := by
  rw [encodeRecord] at h
  split at h
  · cases h
  · obtain ⟨keys, -, h⟩ := Exec.bind_eq_ok.mp h
    obtain ⟨value, -, h⟩ := Exec.bind_eq_ok.mp h
    cases h
    exact ⟨keys, rfl⟩

/-- The keys of the records are data keys of the table. -/
theorem encodeRecords_keys {rows : List Row}
    {records : List (StoreKey × Bytes)}
    (h : encodeRecords info rows = .ok records) :
    ∀ r ∈ records, ∃ colKeys, r.1 = .dataKey info.dbId info.id colKeys := by
  have hall := Exec.mapM_eq_ok.mp h
  clear h
  induction hall with
  | nil => exact fun r hr => absurd hr List.not_mem_nil
  | cons hrow _ ih => exact List.forall_mem_cons.mpr ⟨encodeRecord_key hrow, ih⟩

theorem Own.encodeRecords (ht : Own info table) {rows : List Row}
    {records : List (StoreKey × Bytes)}
    (h : encodeRecords table.tableInfo rows = .ok records) :
    ∀ r ∈ records, OwnKey info r.1 := by
  intro r hr
  obtain ⟨colKeys, hkey⟩ := encodeRecords_keys h r hr
  rw [hkey]
  exact ⟨ht.dbId, ht.id⟩

/-- A batch, which may fail, leaves the other keys alone. -/
theorem mPutKV_elsewhere {records : List (StoreKey × Bytes)}
    (h : kv.mPutKV (records.map Prod.fst) (records.map Prod.snd)
      = .ok (status, kv')) :
    kv'.faults = kv.faults.drop 1
      ∧ ∀ key, (∀ r ∈ records, r.1 ≠ key) → kv'.data key = kv.data key := by
  have hzip : (records.map Prod.fst).zip (records.map Prod.snd) = records := by
    rw [List.zip_map']
    exact List.map_id records
  rw [KvStorage.mPutKV, if_pos (by simp), KvStorage.tick_eq, hzip] at h
  cases hf : kv.fails 0 with
  | true =>
      rw [hf] at h
      cases h
      exact ⟨rfl, fun _ _ => rfl⟩
  | false =>
      rw [hf] at h
      cases h
      exact ⟨rfl, fun key hkey => KvStorage.writeBatch_of_ne hkey⟩

/-- `MDelKV` changes no other key. -/
theorem mDelKV_elsewhere (keys : List StoreKey) :
    (kv.mDelKV keys).2.faults = kv.faults.drop 1
      ∧ ∀ key ∉ keys, (kv.mDelKV keys).2.data key = kv.data key := by
  rw [KvStorage.mDelKV, KvStorage.tick_eq]
  cases kv.fails 0 with
  | true => exact ⟨rfl, fun _ _ => rfl⟩
  | false => exact ⟨rfl, fun key hkey => if_neg hkey⟩

theorem onlyOwn_mPutKV {records : List (StoreKey × Bytes)}
    (hrecords : ∀ r ∈ records, OwnKey info r.1)
    (h : kv.mPutKV (records.map Prod.fst) (records.map Prod.snd)
      = .ok (status, kv')) : OnlyOwn info kv kv' := by
  obtain ⟨hfaults, hdata⟩ := mPutKV_elsewhere h
  refine ⟨⟨1, hfaults⟩, fun key hkey => hdata key ?_⟩
  rintro r hr rfl
  exact hkey (hrecords r hr)

theorem onlyOwn_mDelKV {keys : List StoreKey}
    (hkeys : ∀ key ∈ keys, OwnKey info key) :
    OnlyOwn info kv (kv.mDelKV keys).2 := by
  obtain ⟨hfaults, hdata⟩ := @mDelKV_elsewhere kv keys
  exact ⟨⟨1, hfaults⟩, fun key hkey =>
    hdata key (fun hmem => hkey (hkeys key hmem))⟩

/-- An insert of rows writes own keys. -/
theorem Own.insertCore (ht : Own info table)
    (h : table.insertCore env ho kv chunk = .ok (status, table', kv')) :
    Own info table' ∧ OnlyOwn info kv kv' := by
  obtain ⟨records, hrecords, h⟩ := Exec.bind_eq_ok.mp h
  obtain ⟨⟨s, kv₁⟩, hput, h⟩ := Exec.bind_eq_ok.mp h
  have hbatch := onlyOwn_mPutKV (ht.encodeRecords hrecords) hput
  simp only at h
  split at h
  · cases h
    exact ⟨ht, hbatch⟩
  · obtain ⟨ht', honly⟩ := ht.overIndexes (fun hi hok => hi.insert hok) h
    exact ⟨ht', hbatch.trans honly⟩

/-- A delete of rows writes own keys. -/
theorem Own.deleteCore (ht : Own info table)
    (h : table.deleteCore env ho kv chunk = .ok (status, table', kv')) :
    Own info table' ∧ OnlyOwn info kv kv' := by
  obtain ⟨⟨s, table₁, kv₁⟩, hloop, h⟩ := Exec.bind_eq_ok.mp h
  obtain ⟨ht₁, honly⟩ := ht.overIndexes (fun hi hok => hi.delete hok) hloop
  simp only at h
  split at h
  · cases h
    exact ⟨ht₁, honly⟩
  · obtain ⟨records, hrecords, h⟩ := Exec.bind_eq_ok.mp h
    have hdel := @onlyOwn_mDelKV info kv₁ (records.map Prod.fst) (by
      intro key hkey
      obtain ⟨r, hr, rfl⟩ := List.mem_map.mp hkey
      exact ht₁.encodeRecords hrecords r hr)
    cases h
    exact ⟨ht₁, honly.trans hdel⟩

/-- `Prepare`, a core that writes own keys only, `Submit`. -/
theorem Own.change (ht : Own info table)
    {core : Table → KvStorage → Exec (Status × Table × KvStorage)}
    (hcore : ∀ {table kv s table' kv'}, Own info table →
      core table kv = .ok (s, table', kv') →
      Own info table' ∧ OnlyOwn info kv kv')
    (h : table.change env ho core kv = .ok (status, table', kv')) :
    Own info table' ∧ OnlyOwn info kv kv' := by
  obtain ⟨⟨table₁, kv₁⟩, hload, h⟩ := Exec.bind_eq_ok.mp h
  obtain ⟨ht₁, hread⟩ := ht.loadMeta hload
  obtain ⟨⟨s, table₂, kv₂⟩, hrun, h⟩ := Exec.bind_eq_ok.mp h
  obtain ⟨ht₂, honly⟩ := hcore ht₁ hrun
  have honly := OnlyOwn.trans (.of_read hread) honly
  simp only at h
  split at h
  · cases h
    exact ⟨ht₂, honly⟩
  · obtain ⟨ht', honly'⟩ := ht₂.submit h
    exact ⟨ht', honly.trans honly'⟩

end Calls

/-! ## Runs in which calls may fail -/

section Runs

variable {env : Env} {pb : SchemaProtobuf} {info : TableInfo} {kv : KvStorage}
  {s s' : State} {op : Op} {h : List Op}

/-- A call returned, with whatever status; a new object is made of a record
    that was read. -/
def Returned (env : Env) (pb : SchemaProtobuf) (s : State) (op : Op)
    (s' : State) : Prop :=
  (∃ status, call env pb s op = .ok (status, s'))
    ∧ (op = .reopen → s.2.fails 0 = false)

/-- The store describes the table. -/
def Recorded (pb : SchemaProtobuf) (info : TableInfo) (kv : KvStorage) : Prop :=
  ∃ value proto, kv.data (.tableId info.dbId info.id) = some value
    ∧ pb.table.parseFromString value = some proto ∧ info = .deserialize proto

theorem Recorded.congr {kv' : KvStorage} (hrec : Recorded pb info kv)
    (honly : OnlyOwn info kv kv') : Recorded pb info kv' := by
  obtain ⟨value, proto, hvalue, hproto⟩ := hrec
  exact ⟨value, proto, (honly.data _ not_ownKey_tableId).trans hvalue, hproto⟩

/-- A new object, made of the table's description. -/
theorem call_reopen (hdb : s.1.tableInfo.dbId = info.dbId)
    (hid : s.1.tableInfo.id = info.id) (hrec : Recorded pb info s.2)
    (hfails : s.2.fails 0 = false) :
    call env pb s .reopen = .ok (.ok, { tableInfo := info }, s.2.skip 1) := by
  obtain ⟨value, proto, hvalue, hproto, hdes⟩ := hrec
  rw [call, hdb, hid, Metadata.loadTableMeta, KvStorage.getKV,
    KvStorage.tick_eq, hfails]
  simp [hvalue, hproto, ← hdes]

/-- Every call that returns writes own keys only. -/
theorem Own.step (ht : Own info s.1) (hrec : Recorded pb info s.2)
    (h : Returned env pb s op s') : Own info s'.1 ∧ OnlyOwn info s.2 s'.2 := by
  obtain ⟨⟨status, hok⟩, hread⟩ := h
  cases op with
  | insert ho chunk => exact ht.change (fun ht hok => ht.insertCore hok) hok
  | delete ho chunk => exact ht.change (fun ht hok => ht.deleteCore hok) hok
  | reopen =>
      rw [call_reopen ht.dbId ht.id hrec (hread rfl)] at hok
      cases hok
      exact ⟨own_new info, .of_read (.skip _ 1)⟩

/-- Whatever calls on the store fail, and with whatever status the calls on the
    table return: the records and tree nodes of other tables, the schema
    records and the counters stay. -/
theorem writes_own_keys_only (hrec : Recorded pb info kv)
    (hrun : Run (Returned env pb) ({ tableInfo := info }, kv) h s)
    {key : StoreKey} (hkey : ¬ OwnKey info key) :
    s.2.data key = kv.data key := by
  have hinv := hrun.preserves
    (I := fun s => Own info s.1 ∧ OnlyOwn info kv s.2)
    ⟨own_new info, .refl info kv⟩ (by
      rintro s op s' ⟨ht, honly⟩ hs
      obtain ⟨ht', hstep⟩ := ht.step (hrec.congr honly) hs
      exact ⟨ht', honly.trans hstep⟩)
  exact hinv.2.data key hkey

/-- The two indexes are opened and the record is written; the save of the first
    index fails. -/
def faultyScores : KvStorage :=
  { scoresStore with faults := [false, false, false, true] }

theorem writes_own_keys_only_scores :
    ∃ s, Run (Returned (.wire 1024) .wire) ({ tableInfo := scores },
        faultyScores) [lastInsert] s
      ∧ RowStored scores s.2 (score 4 20)
      ∧ s.2.data (.tableId 1 7) = faultyScores.data (.tableId 1 7) := by
  obtain ⟨⟨status, s⟩, hcall, hstored⟩ := @exists_of_computed _ _ _
    (call (.wire 1024) .wire ({ tableInfo := scores }, faultyScores) lastInsert)
    (fun r => decide (RowStored scores r.2.2 (score 4 20))) true
    (by decide +kernel)
  have hrec : Recorded .wire scores faultyScores := newTable_scores.recorded
  have hrun : Run (Returned (.wire 1024) .wire) ({ tableInfo := scores },
      faultyScores) [lastInsert] s :=
    .cons ⟨⟨status, hcall⟩, by rintro ⟨⟩⟩ .nil
  exact ⟨s, hrun, of_decide_eq_true hstored,
    writes_own_keys_only hrec hrun not_ownKey_tableId⟩

end Runs

end Table

end AmDb.Storage
