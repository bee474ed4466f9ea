import AmDb.Storage.DurableTree
import AmDb.Storage.TableRows

/-! # The indexes of a table

    Calls of `Table::Insert` and `Table::Delete` on a table, with a new `Table`
    object made of the stored description anywhere between them.  A call changes
    the records in one batch and each index in a loop of its own; the trees are
    saved when all loops are done.  As long as the loops and the saves keep what
    is stored, a call leaves every index with the keys of just the stored
    rows. -/

namespace AmDb.Storage

open Codec AmDb.Schema Chunk OrderedMap IndexedStore Bptree Session

namespace Table

/-- A table and the store below it. -/
abbrev State := Table × KvStorage

/-- A call on a table, or a new object of it. -/
inductive Op where
  | insert (ho : HashOrder) (chunk : Chunk)
  | delete (ho : HashOrder) (chunk : Chunk)
  | reopen

/-- A new object is made of what `LoadTableMeta` reads. -/
def call (env : Env) (pb : SchemaProtobuf) (s : State) :
    Op → Exec (Status × State)
  | .insert ho chunk => s.1.insert env ho s.2 chunk
  | .delete ho chunk => s.1.delete env ho s.2 chunk
  | .reopen =>
      let (status, table, kv) := Metadata.loadTableMeta pb s.2
        s.1.tableInfo.dbId s.1.tableInfo.id
      .ok (status, { tableInfo := table }, kv)

/-- The rows are the table's, and those to delete are stored. -/
def Admitted (info : TableInfo) (desc : RowDescriptor) (s : State) : Op → Prop
  | .insert _ chunk => ∀ row ∈ chunk.select, RowOf info desc row
  | .delete _ chunk => ∀ row ∈ chunk.select, RowOf info desc row
      ∧ RowStored info s.2 row
  | .reopen => True

/-- A call on rows of the table returned `C_OK`. -/
def Step (env : Env) (pb : SchemaProtobuf) (info : TableInfo)
    (desc : RowDescriptor) (s : State) (op : Op) (s' : State) : Prop :=
  Admitted info desc s op ∧ call env pb s op = .ok (.ok, s')

/-- Every index has the keys of just the stored rows. -/
structure IndexesAgree (env : Env) (info : TableInfo) (desc : RowDescriptor)
    (s : State) : Prop where
  ids  : (s.1.colIndex.map Prod.fst).Perm (info.indexList.map IndexInfo.id)
  keys : ∀ i ∈ info.indexList, ∀ index, (i.id, index) ∈ s.1.colIndex →
    ∀ k, k ∈ treeKeys env index.bptree s.2 ↔ ∃ row, RowOf info desc row
      ∧ RowStored info s.2 row ∧ encodeIndex info i row [] = .ok (k, [])

/-- The loop of an index over some rows keeps what is stored. -/
def KeepsLoop (env : Env) (kv : KvStorage)
    (calls : List (Bytes × Bytes) → List TreeOp) (readAll : Bool)
    (rows : List Row) (index : Index) : Prop :=
  ∀ es, index.encodeRows readAll rows = .ok es →
    KeepsCalls env (calls es) (index.bptree, kv)

/-- The store while the indexes of a table are filled. -/
def stored (kv : KvStorage) (records : List (StoreKey × Bytes)) : KvStorage :=
  { kv with data := KvStorage.writeBatch kv.data records }

/-- What the saves of `Submit` write fits its messages. -/
def SubmitFits (env : Env) (r : Exec (Status × State)) : Prop :=
  ∀ u, r = .ok u → ∀ e ∈ u.2.1.colIndex, SavesFit env e.2.bptree

/-- The loops of a call and its saves keep what is stored. -/
def KeepsFor (env : Env) (s : State) : Op → Prop
  | .insert ho chunk => ∀ t, s.1.loadMeta env s.2 = .ok t →
      (∀ records, encodeRecords t.1.tableInfo chunk.select = .ok records →
        ∀ e ∈ t.1.colIndex, KeepsLoop env (stored t.2 records) Index.inserts
          true chunk.select e.2)
      ∧ SubmitFits env (t.1.insertCore env ho t.2 chunk)
  | .delete ho chunk => ∀ t, s.1.loadMeta env s.2 = .ok t →
      (∀ e ∈ t.1.colIndex, KeepsLoop env t.2 Index.deletes false chunk.select
        e.2)
      ∧ SubmitFits env (t.1.deleteCore env ho t.2 chunk)
  | .reopen => True

/-- Such a call. -/
def KeepingStep (env : Env) (pb : SchemaProtobuf) (info : TableInfo)
    (desc : RowDescriptor) (s : State) (op : Op) (s' : State) : Prop :=
  KeepsFor env s op ∧ Step env pb info desc s op s'

/-! ## Loops over the indexes -/

section Loops

variable {env : Env} {ho : HashOrder} {table table' : Table}
  {kv kv' : KvStorage}
  {f : Nat → Index → KvStorage → Exec (Status × Index × KvStorage)}
  {P : KvStorage → Prop} {D D' : Nat → Index → KvStorage → Prop}

/-- A call of the loop on one index: from `D` to `D'`, and what holds of the
    others stays. -/
structure Each (f : Nat → Index → KvStorage → Exec (Status × Index × KvStorage))
    (P : KvStorage → Prop) (D D' : Nat → Index → KvStorage → Prop)
    (e : Nat × Index) : Prop where
  call   : ∀ {kv index' kv'}, P kv → D e.1 e.2 kv →
    f e.1 e.2 kv = .ok (.ok, index', kv') → P kv' ∧ D' e.1 index' kv'
  others : ∀ {kv index' kv'}, P kv → D e.1 e.2 kv →
    f e.1 e.2 kv = .ok (.ok, index', kv') → ∀ id ≠ e.1, ∀ index,
      (D id index kv → D id index kv') ∧ (D' id index kv → D' id index kv')

/-- A loop that returned `C_OK`, as its calls. -/
theorem forIndexes_each {ies ies' : List (Nat × Index)}
    (hf : ∀ e ∈ ies, Each f P D D' e) (hids : (ies.map Prod.fst).Nodup)
    (hP : P kv) (hD : ∀ e ∈ ies, D e.1 e.2 kv)
    (h : forIndexes f ies kv = .ok (.ok, ies', kv')) :
    P kv' ∧ ies'.map Prod.fst = ies.map Prod.fst
      ∧ (∀ e ∈ ies', D' e.1 e.2 kv')
      ∧ ∀ id ∉ ies.map Prod.fst, ∀ index, D' id index kv → D' id index kv' := by
  induction ies generalizing kv ies' with
  | nil =>
      cases h
      exact ⟨hP, rfl, fun e he => absurd he List.not_mem_nil,
        fun _ _ _ hD' => hD'⟩
  | cons e ies ih =>
      obtain ⟨hfe, hfs⟩ := List.forall_mem_cons.mp hf
      obtain ⟨hDe, hDs⟩ := List.forall_mem_cons.mp hD
      obtain ⟨hne, hnd⟩ := List.nodup_cons.mp hids
      obtain ⟨id, index⟩ := e
      obtain ⟨⟨status, index', kv₁⟩, hcall, h⟩ := Exec.bind_eq_ok.mp h
      by_cases hst : status = .ok
      · subst hst
        obtain ⟨⟨status, rest, kv₂⟩, hloop, h⟩ := Exec.bind_eq_ok.mp h
        cases h
        obtain ⟨hP₁, hD'⟩ := hfe.call hP hDe hcall
        have hothers := hfe.others hP hDe hcall
        -- the call leaves the other indexes as they were
        have hDs₁ : ∀ e ∈ ies, D e.1 e.2 kv₁ := by
          intro e he
          refine (hothers e.1 ?_ e.2).1 (hDs e he)
          exact fun heq => hne (heq ▸ List.mem_map_of_mem he)
        obtain ⟨hP', hmap, hrest, hstay⟩ := ih hfs hnd hP₁ hDs₁ hloop
        refine ⟨hP', by rw [List.map_cons, List.map_cons, hmap], ?_, ?_⟩
        · intro e he
          rcases List.mem_cons.mp he with rfl | he
          · exact hstay _ hne _ hD'
          · exact hrest e he
        · intro id' hid index hD'
          rw [List.map_cons, List.mem_cons, not_or] at hid
          obtain ⟨hneq, hnot⟩ := hid
          exact hstay id' hnot index ((hothers id' hneq index).2 hD')
      · simp only at h
        rw [if_pos hst] at h
        cases h
        exact absurd rfl hst

/-- What the call does to each index, by induction on the loop over them. -/
theorem overIndexes_each (hf : ∀ e ∈ table.colIndex, Each f P D D' e)
    (hids : (table.colIndex.map Prod.fst).Nodup) (hP : P kv)
    (hD : ∀ e ∈ table.colIndex, D e.1 e.2 kv)
    (h : table.overIndexes ho f kv = .ok (.ok, table', kv')) :
    P kv' ∧ table'.tableInfo = table.tableInfo
      ∧ table'.rowIndex = table.rowIndex
      ∧ (table'.colIndex.map Prod.fst).Perm (table.colIndex.map Prod.fst)
      ∧ ∀ e ∈ table'.colIndex, D' e.1 e.2 kv' := by
  obtain ⟨⟨status, ies, kv₁⟩, hloop, h⟩ := Exec.bind_eq_ok.mp h
  cases h
  have hperm := ho.indexes.perm table.colIndex
  obtain ⟨hP', hmap, hD', -⟩ := forIndexes_each
    (fun e he => hf e (hperm.mem_iff.mp he))
    ((hperm.map Prod.fst).nodup_iff.mpr hids) hP
    (fun e he => hD e (hperm.mem_iff.mp he)) hloop
  refine ⟨hP', rfl, rfl, ?_, hD'⟩
  show (ies.map Prod.fst).Perm _
  rw [hmap]
  exact hperm.map Prod.fst

end Loops

/-! ## One index -/

/-- The key of a row in an index. -/
def keyOf (primary i : IndexInfo) (row : Row) : Bytes :=
  columnsCode row (keyColumns primary i)

/-- The index that `loadMeta` made of `i`. -/
structure IndexOf (info : TableInfo) (i : IndexInfo) (index : Index) :
    Prop where
  table   : index.tableInfo = info
  columns : index.indexInfo.columns = i.columns
  type    : index.indexInfo.type = i.type

/-- Memory and store together keep a tree with these keys. -/
def Keeps (env : Env) (pb : SchemaProtobuf) (info : TableInfo) (i : IndexInfo)
    (t : Bptree) (kv : KvStorage) (S : Set Bytes) : Prop :=
  ∃ p cs, Durable env pb p info i (t, kv) cs ∧ keys (flat cs) = S

/-- The store alone does. -/
def Saved (env : Env) (pb : SchemaProtobuf) (info : TableInfo) (i : IndexInfo)
    (t : Bptree) (kv : KvStorage) (S : Set Bytes) : Prop :=
  ∃ p cs, Durable env pb p info i (t, kv) cs ∧ keys (flat cs) = S
    ∧ t.treeCtx.unsavedNodes = [] ∧ AllCopied env t kv cs

/-- Only records differ. -/
def OnlyRecords (kv kv' : KvStorage) : Prop :=
  ∀ key, (∀ dbId tableId colKeys, key ≠ .dataKey dbId tableId colKeys) →
    kv'.data key = kv.data key

section OneIndex

variable {env : Env} {pb : SchemaProtobuf} {info : TableInfo}
  {primary i i' : IndexInfo} {desc : RowDescriptor} {index index' : Index}
  {t : Bptree} {kv kv' : KvStorage} {chunk : Chunk} {status : Status}
  {S : Set Bytes}

theorem OnlyRecords.sameNodes (h : OnlyRecords kv kv') :
    SameNodes info i kv kv' :=
  ⟨fun _ => h _ (by simp), fun _ _ => h _ (by simp)⟩

theorem Saved.keeps (h : Saved env pb info i t kv S) :
    Keeps env pb info i t kv S := by
  obtain ⟨p, cs, hd, hkeys, -⟩ := h
  exact ⟨p, cs, hd, hkeys⟩

/-- An index keeps its keys as long as its nodes are kept. -/
theorem Keeps.frame (h : Keeps env pb info i t kv S)
    (hs : SameNodes info i kv kv') (hkv : kv'.Reliable) :
    Keeps env pb info i t kv' S := by
  obtain ⟨p, cs, hd, hkeys⟩ := h
  exact ⟨p, cs, hd.frame hs hkv, hkeys⟩

theorem Saved.frame (h : Saved env pb info i t kv S)
    (hs : SameNodes info i kv kv') (hkv : kv'.Reliable) :
    Saved env pb info i t kv' S := by
  obtain ⟨p, cs, hd, hkeys, hsaved, hc⟩ := h
  exact ⟨p, cs, hd.frame hs hkv, hkeys, hsaved,
    hs.allCopied hd.intact.schema hc⟩

theorem Keeps.treeKeys_eq (h : Keeps env pb info i t kv S) :
    treeKeys env t kv = S := by
  obtain ⟨p, cs, hd, hkeys⟩ := h
  exact hd.wellFormed.treeKeys_eq.trans hkeys

/-- What `Insert` and `Delete` end with. -/
theorem IndexOf.finish (h : IndexOf info i index) :
    (index.finish (status, t, kv)).1 = status
      ∧ (index.finish (status, t, kv)).2.2 = kv
      ∧ (index.finish (status, t, kv)).2.1.bptree = t
      ∧ IndexOf info i (index.finish (status, t, kv)).2.1 := by
  rw [Index.finish]
  split_ifs with hst
  · exact ⟨rfl, rfl, rfl, h.table, h.columns, h.type⟩
  · exact ⟨(not_not.mp hst).symm, rfl, rfl, h.table, h.columns, h.type⟩

/-- `Index::Insert` adds the keys of the rows it gets to, each of them new; it
    gets to all of them, or to one that fails. -/
theorem IndexOf.insert (hk : Keyed info primary) (hi : i ∈ info.indexList)
    (h : IndexOf info i index) (ht : Keeps env pb info i index.bptree kv S)
    (hrows : ∀ row ∈ chunk.select, RowOf info desc row)
    (hloop : KeepsLoop env kv Index.inserts true chunk.select index)
    (hok : index.insert env kv chunk = .ok (status, index', kv')) :
    kv' = kv ∧ IndexOf info i index' ∧ ∃ done rest,
      chunk.select = done ++ rest
      ∧ Keeps env pb info i index'.bptree kv
        (S ∪ {c | ∃ row ∈ done, keyOf primary i row = c})
      ∧ (done.map (keyOf primary i)).Nodup
      ∧ (∀ row ∈ done, keyOf primary i row ∉ S)
      ∧ (status = .ok ↔ rest = []) := by
  obtain ⟨es, hes, hcalls⟩ := Exec.bind_eq_ok.mp hok
  obtain ⟨⟨st, t, kv₁⟩, hins, hfin⟩ := Exec.bind_eq_ok.mp hcalls
  have hfin := Except.ok.inj hfin
  obtain ⟨p, cs, hd, rfl⟩ := ht
  obtain ⟨rfl, cs', done, rest, hsplit, hd', hkeys, hnd, hnew, hall⟩ :=
    Index.insertEntries_durable hd (hloop es hes) hins
  obtain ⟨hst, hstore, htree, hindex⟩ := @IndexOf.finish info i index t kv₁ st h
  rw [hfin] at hst hstore htree hindex
  obtain rfl : status = st := hst
  obtain rfl : kv' = kv₁ := hstore
  have htree : index'.bptree = t := htree
  have hentries := encodeRows_eq hk hi h.table h.columns h.type hrows hes
  rw [hentries] at hsplit
  obtain ⟨rows, rows', hrows', hdone, hrest⟩ := List.map_eq_append_iff.mp hsplit
  subst hdone hrest
  have hdone : (rows.map (fun row =>
      (columnsCode row (keyColumns primary i), ([] : Bytes)))).map Prod.fst
      = rows.map (keyOf primary i) := List.map_map
  rw [hdone] at hkeys hnd
  refine ⟨rfl, hindex, rows, rows', hrows', ?_, hnd, ?_, ?_⟩
  · rw [htree]
    refine ⟨p, cs', hd', ?_⟩
    ext k
    rw [hkeys, List.mem_map]
    rfl
  · exact fun row hrow => hnew _ (List.mem_map_of_mem hrow)
  · rw [hall, List.map_eq_nil_iff]

/-- `Index::Delete`, when it returns `C_OK`, takes the keys of the rows away. -/
theorem IndexOf.delete (hk : Keyed info primary) (hi : i ∈ info.indexList)
    (h : IndexOf info i index) (ht : Keeps env pb info i index.bptree kv S)
    (hrows : ∀ row ∈ chunk.select, RowOf info desc row)
    (hloop : KeepsLoop env kv Index.deletes false chunk.select index)
    (hok : index.delete env kv chunk = .ok (.ok, index', kv')) :
    kv' = kv ∧ IndexOf info i index' ∧ Keeps env pb info i index'.bptree kv
      {c ∈ S | ∀ row ∈ chunk.select, keyOf primary i row ≠ c} := by
  obtain ⟨es, hes, hcalls⟩ := Exec.bind_eq_ok.mp hok
  obtain ⟨⟨st, t, kv₁⟩, hdel, hfin⟩ := Exec.bind_eq_ok.mp hcalls
  have hfin := Except.ok.inj hfin
  obtain ⟨hst, hstore, htree, hindex⟩ := @IndexOf.finish info i index t kv₁ st h
  rw [hfin] at hst hstore htree hindex
  obtain rfl : .ok = st := hst
  obtain rfl : kv' = kv₁ := hstore
  have htree : index'.bptree = t := htree
  obtain ⟨p, cs, hd, rfl⟩ := ht
  obtain ⟨rfl, cs', hd', hkeys⟩ :=
    Index.deleteEntries_durable hd (hloop es hes) hdel
  refine ⟨rfl, hindex, ?_⟩
  rw [htree]
  refine ⟨p, cs', hd', ?_⟩
  ext k
  rw [hkeys, encodeRows_eq hk hi h.table h.columns h.type hrows hes,
    List.map_map, List.mem_map, not_exists]
  exact and_congr_right (fun _ => forall_congr' (fun row => not_and))

/-- A save writes nodes of its own tree only. -/
theorem saved_elsewhere (walk : Walk (Nat × Addr)) {key : StoreKey}
    (hkey : ∀ nodeId, key ≠ t.nodeKey nodeId) :
    (Session.saved env walk (t, kv)).2.data key = kv.data key := by
  have hkv : (Session.saved env walk (t, kv)).2.data
      = (t.dumpNodes env (walk.order t.treeCtx.unsavedNodes) kv).2.data :=
    congrArg KvStorage.data (pullInOrder_snd _)
  rw [hkv]
  rcases @dumpNodes_data env t kv (walk.order t.treeCtx.unsavedNodes) key with
    hsame | ⟨e, -, heq, -⟩
  · exact hsame
  · exact absurd heq (hkey e.1)

/-- `Index::Save` of what fits. -/
theorem IndexOf.save (h : IndexOf info i index)
    (ht : Keeps env pb info i index.bptree kv S)
    (hfit : SavesFit env index.bptree) {walk : Walk (Nat × Addr)}
    (hok : index.save env walk kv = (status, index', kv')) :
    kv'.Reliable ∧ SameRecords kv kv' ∧ IndexOf info i index'
      ∧ Saved env pb info i index'.bptree kv' S
      ∧ (∀ dbId tableId,
        kv'.data (.tableId dbId tableId) = kv.data (.tableId dbId tableId))
      ∧ ∀ i', i'.id ≠ i.id → SameNodes info i' kv kv' := by
  obtain ⟨p, cs, hd, hkeys⟩ := ht
  have hschema : index.bptree.treeCtx.schema = treeSchema info i :=
    hd.intact.schema
  have hsaves : index.save env walk kv = (.ok, { index with
      bptree := (Session.saved env walk (index.bptree, kv)).1 },
      (Session.saved env walk (index.bptree, kv)).2) := rfl
  have hsame := @saved_elsewhere env index.bptree kv walk
  rw [hsaves] at hok
  cases hok
  -- only keys of this index's nodes are written
  have hnode : ∀ nodeId, index.bptree.nodeKey nodeId
      = .treeNode info.dbId info.id i.id nodeId := by
    intro nodeId
    rw [nodeKey, hschema]
    rfl
  have htables : ∀ dbId tableId,
      (Session.saved env walk (index.bptree, kv)).2.data (.tableId dbId tableId)
        = kv.data (.tableId dbId tableId) := by
    intro dbId tableId
    refine hsame ?_
    intro nodeId
    simp [hnode]
  obtain ⟨hd', hunsaved, hc⟩ := hd.saved hfit walk
  refine ⟨hd'.reliable, ?_, ⟨h.table, h.columns, h.type⟩,
    ⟨p, cs, hd', hkeys, hunsaved, hc⟩, htables, ?_⟩
  · intro dbId tableId colKeys
    refine hsame ?_
    intro nodeId
    simp [hnode]
  · intro i' hne
    refine ⟨fun nodeId => hsame ?_, htables⟩
    intro nodeId'
    simp [hnode, hne]

end OneIndex

/-! ## Calls on a table in memory -/

/-- An index of the table, with a tree that has the keys `K` says. -/
def IndexAt (info : TableInfo)
    (T : IndexInfo → Bptree → KvStorage → Set Bytes → Prop)
    (K : IndexInfo → Set Bytes) (id : Nat) (index : Index) (kv : KvStorage) :
    Prop :=
  ∃ i ∈ info.indexList, id = i.id ∧ IndexOf info i index
    ∧ T i index.bptree kv (K i)

/-- The keys of the stored rows. -/
def rowKeys (info : TableInfo) (primary : IndexInfo) (desc : RowDescriptor)
    (kv : KvStorage) (i : IndexInfo) : Set Bytes :=
  {c | ∃ row, RowOf info desc row
    ∧ Stored (recordLayout info primary) kv.data row ∧ keyOf primary i row = c}

/-- A store that never fails, with the description of the table and records of
    its rows. -/
structure StoreOf (pb : SchemaProtobuf) (info : TableInfo) (primary : IndexInfo)
    (desc : RowDescriptor) (kv : KvStorage) : Prop where
  reliable : kv.Reliable
  recorded : ∃ value proto, kv.data (.tableId info.dbId info.id) = some value
    ∧ pb.table.parseFromString value = some proto ∧ info = .deserialize proto
  sourced  : Sourced (recordLayout info primary) (RowOf info desc) kv.data

/-- A table with its indexes in memory, each with the keys of the stored
    rows. -/
structure Ready (pb : SchemaProtobuf) (info : TableInfo) (primary : IndexInfo)
    (desc : RowDescriptor)
    (T : IndexInfo → Bptree → KvStorage → Set Bytes → Prop) (s : State) :
    Prop where
  table   : s.1.tableInfo = info
  loaded  : s.1.rowIndex.isSome
  ids     : (s.1.colIndex.map Prod.fst).Perm (info.indexList.map IndexInfo.id)
  store   : StoreOf pb info primary desc s.2
  indexes : ∀ e ∈ s.1.colIndex,
    IndexAt info T (rowKeys info primary desc s.2) e.1 e.2 s.2

section Ready

variable {env : Env} {pb : SchemaProtobuf} {ho : HashOrder} {info : TableInfo}
  {primary i : IndexInfo} {desc : RowDescriptor} {s s' : State} {chunk : Chunk}
  {kv kv' : KvStorage} {rows : List Row}
  {T : IndexInfo → Bptree → KvStorage → Set Bytes → Prop}

theorem Ready.loadMeta (h : Ready pb info primary desc T s) :
    s.1.loadMeta env s.2 = .ok s := by
  rw [Table.loadMeta, if_pos h.loaded]

theorem Ready.nodup (hk : Keyed info primary)
    (h : Ready pb info primary desc T s) : (s.1.colIndex.map Prod.fst).Nodup :=
  h.ids.nodup_iff.mpr hk.ids

/-- A table that was saved keeps the keys of its indexes. -/
theorem Ready.keeps (h : Ready pb info primary desc (Saved env pb info) s) :
    Ready pb info primary desc (Keeps env pb info) s := by
  refine ⟨h.table, h.loaded, h.ids, h.store, ?_⟩
  intro e he
  obtain ⟨i, hi, hid, hindex, hs⟩ := h.indexes e he
  exact ⟨i, hi, hid, hindex, hs.keeps⟩

/-- The index of an id. -/
theorem Ready.index (hk : Keyed info primary)
    (h : Ready pb info primary desc T s) (hi : i ∈ info.indexList)
    {e : Nat × Index} (he : e ∈ s.1.colIndex) (hid : e.1 = i.id) :
    IndexOf info i e.2
      ∧ T i e.2.bptree s.2 (rowKeys info primary desc s.2 i) := by
  obtain ⟨i', hi', hid', hindex⟩ := h.indexes e he
  rw [List.inj_on_of_nodup_map hk.ids hi hi' (hid.symm.trans hid')]
  exact hindex

/-- An index for every id. -/
theorem Ready.exists_index (h : Ready pb info primary desc T s)
    (hi : i ∈ info.indexList) : ∃ e ∈ s.1.colIndex, e.1 = i.id := by
  have hmem : i.id ∈ s.1.colIndex.map Prod.fst :=
    h.ids.mem_iff.mpr (List.mem_map_of_mem hi)
  exact List.mem_map.mp hmem

theorem agrees_rowKeys : Agrees (recordLayout info primary) (RowOf info desc)
    (keyOf primary i) kv.data (rowKeys info primary desc kv i) :=
  fun _ => Iff.rfl

theorem rowKeys_eq {S : Set Bytes} (h : Agrees (recordLayout info primary)
    (RowOf info desc) (keyOf primary i) kv.data S) :
    rowKeys info primary desc kv i = S :=
  (Set.ext h).symm

theorem rowKeys_congr (h : SameRecords kv kv') :
    rowKeys info primary desc kv' i = rowKeys info primary desc kv i :=
  rowKeys_eq (agrees_rowKeys.congr (fun _ _ => h _ _ _))

/-- A store is one of the table when its records and its description are. -/
theorem StoreOf.congr (h : StoreOf pb info primary desc kv)
    (hkv : kv'.Reliable) (hrecords : SameRecords kv kv')
    (htables : ∀ dbId tableId,
      kv'.data (.tableId dbId tableId) = kv.data (.tableId dbId tableId)) :
    StoreOf pb info primary desc kv' := by
  obtain ⟨value, proto, hvalue, hproto⟩ := h.recorded
  exact ⟨hkv, ⟨value, proto, (htables _ _).trans hvalue, hproto⟩,
    h.sourced.congr (fun _ _ => hrecords _ _ _)⟩

/-- `Submit` saves the trees and leaves the records and the keys alone. -/
theorem Ready.submit (hk : Keyed info primary)
    (h : Ready pb info primary desc (Keeps env pb info) s)
    (hfits : ∀ e ∈ s.1.colIndex, SavesFit env e.2.bptree)
    (hok : s.1.submit env ho s.2 = .ok (.ok, s')) :
    Ready pb info primary desc (Saved env pb info) s' := by
  -- what the save of one index leaves of the store
  have hsave : ∀ e ∈ s.1.colIndex, ∀ {kv index' kv'},
      IndexAt info (Keeps env pb info) (rowKeys info primary desc s.2) e.1 e.2
        kv →
      (.ok (e.2.save env (ho.nodes e.1) kv) : Exec _) = .ok (.ok, index', kv') →
      ∃ i ∈ info.indexList, e.1 = i.id ∧ kv'.Reliable ∧ SameRecords kv kv'
        ∧ IndexOf info i index' ∧ Saved env pb info i index'.bptree kv'
          (rowKeys info primary desc s.2 i)
        ∧ (∀ dbId tableId,
          kv'.data (.tableId dbId tableId) = kv.data (.tableId dbId tableId))
        ∧ ∀ i', i'.id ≠ i.id → SameNodes info i' kv kv' := by
    rintro e he kv index' kv' ⟨i, hi, hid, hindex, ht⟩ hcall
    exact ⟨i, hi, hid, hindex.save ht (hfits e he) (Except.ok.inj hcall)⟩
  -- the others keep theirs, so the loop saves all
  have heach : ∀ e ∈ s.1.colIndex,
      Each (fun id index kv => .ok (index.save env (ho.nodes id) kv))
        (fun kv => kv.Reliable ∧ SameRecords s.2 kv ∧ ∀ dbId tableId,
          kv.data (.tableId dbId tableId) = s.2.data (.tableId dbId tableId))
        (IndexAt info (Keeps env pb info) (rowKeys info primary desc s.2))
        (IndexAt info (Saved env pb info) (rowKeys info primary desc s.2))
        e := by
    intro e he
    refine ⟨?_, ?_⟩
    · rintro kv index' kv' ⟨-, hrecords, htables⟩ hD hcall
      obtain ⟨i, hi, hid, hkv', hsame, hindex', hs, hdata, -⟩ :=
        hsave e he hD hcall
      exact ⟨⟨hkv', hrecords.trans hsame, fun dbId tableId =>
        (hdata dbId tableId).trans (htables dbId tableId)⟩, i, hi, hid, hindex',
        hs⟩
    · rintro kv index' kv' - hD hcall id hne index
      obtain ⟨i, hi, hid, hkv', -, -, -, -, hnodes⟩ := hsave e he hD hcall
      rw [hid] at hne
      constructor
      · rintro ⟨j, hj, rfl, hindex, ht⟩
        exact ⟨j, hj, rfl, hindex, ht.frame (hnodes j hne) hkv'⟩
      · rintro ⟨j, hj, rfl, hindex, hs⟩
        exact ⟨j, hj, rfl, hindex, hs.frame (hnodes j hne) hkv'⟩
  obtain ⟨⟨hkv, hrecords, htables⟩, hinfo, hrow, hids, hindexes⟩ :=
    overIndexes_each heach (h.nodup hk)
      ⟨h.store.reliable, .refl _, fun _ _ => rfl⟩ h.indexes hok
  refine ⟨hinfo.trans h.table, by rw [hrow]; exact h.loaded,
    hids.trans h.ids, h.store.congr hkv hrecords htables, ?_⟩
  intro e he
  obtain ⟨i, hi, hid, hindex, hs⟩ := hindexes e he
  exact ⟨i, hi, hid, hindex, by rwa [rowKeys_congr hrecords]⟩

/-! ### The batches -/

/-- Storing rows writes records only. -/
theorem onlyRecords_stored :
    OnlyRecords kv (stored kv (rowRecords info primary rows)) := by
  intro key hkey
  refine KvStorage.writeBatch_of_ne ?_
  intro e he heq
  obtain ⟨row, -, rfl⟩ := List.mem_map.mp he
  exact hkey _ _ _ heq.symm

/-- Removing rows writes records only. -/
theorem onlyRecords_removed : OnlyRecords kv { kv with
    data := fun k => if k ∈ rows.map (recordLayout info primary).key then none
      else kv.data k } := by
  intro key hkey
  refine if_neg ?_
  intro hmem
  obtain ⟨row, -, rfl⟩ := List.mem_map.mp hmem
  exact hkey _ _ _ rfl

/-- The store stays one of the table over writes of records. -/
theorem StoreOf.records (h : StoreOf pb info primary desc kv)
    (hkv : kv'.Reliable) (honly : OnlyRecords kv kv')
    (hs : Sourced (recordLayout info primary) (RowOf info desc) kv'.data) :
    StoreOf pb info primary desc kv' := by
  obtain ⟨value, proto, hvalue, hproto⟩ := h.recorded
  exact ⟨hkv, ⟨value, proto, (honly _ (by simp)).trans hvalue, hproto⟩, hs⟩

/-- An index keeps its keys over writes of records. -/
theorem IndexAt.records {K : IndexInfo → Set Bytes} {id : Nat} {index : Index}
    (h : IndexAt info (Keeps env pb info) K id index kv)
    (honly : OnlyRecords kv kv') (hkv : kv'.Reliable) :
    IndexAt info (Keeps env pb info) K id index kv' := by
  obtain ⟨i, hi, hid, hindex, ht⟩ := h
  exact ⟨i, hi, hid, hindex, ht.frame honly.sameNodes hkv⟩

/-- `insertCore` on a store that never fails. -/
theorem insertCore_reliable {table : Table} {records : List (StoreKey × Bytes)}
    (hkv : kv.Reliable)
    (hrecords : encodeRecords table.tableInfo chunk.select = .ok records) :
    table.insertCore env ho kv chunk = table.overIndexes ho
      (fun _ index kv => index.insert env kv chunk) (stored kv records) := by
  have hzip : (records.map Prod.fst).zip (records.map Prod.snd) = records := by
    rw [List.zip_map']
    exact List.map_id records
  rw [Table.insertCore, hrecords, Exec.bind_ok, KvStorage.mPutKV,
    if_pos (by simp), KvStorage.tick_reliable hkv, hzip]
  rfl

/-- `insertCore` stores new rows and adds their keys to every index. -/
theorem Ready.insertCore (hk : Keyed info primary)
    (h : Ready pb info primary desc (Keeps env pb info) s)
    (hrows : ∀ row ∈ chunk.select, RowOf info desc row)
    (hloops : ∀ e ∈ s.1.colIndex,
      KeepsLoop env (stored s.2 (rowRecords info primary chunk.select))
        Index.inserts true chunk.select e.2)
    (hok : s.1.insertCore env ho s.2 chunk = .ok (.ok, s')) :
    Ready pb info primary desc (Keeps env pb info) s' := by
  have hrecords : encodeRecords s.1.tableInfo chunk.select
      = .ok (rowRecords info primary chunk.select) := by
    rw [h.table]
    exact encodeRecords_eq hk hrows
  have hkv : (stored s.2 (rowRecords info primary chunk.select)).Reliable :=
    h.store.reliable
  rw [insertCore_reliable h.store.reliable hrecords] at hok
  -- each index takes the codes of all rows, which were new to it
  have heach : ∀ e ∈ s.1.colIndex,
      Each (fun _ index kv => index.insert env kv chunk)
        (· = stored s.2 (rowRecords info primary chunk.select))
        (IndexAt info (Keeps env pb info) (rowKeys info primary desc s.2))
        (fun id index kv => ∃ i ∈ info.indexList, id = i.id ∧ IndexOf info i index
          ∧ Keeps env pb info i index.bptree kv
            (rowKeys info primary desc s.2 i
              ∪ {c | ∃ row ∈ chunk.select, keyOf primary i row = c})
          ∧ (chunk.select.map (keyOf primary i)).Nodup
          ∧ ∀ row ∈ chunk.select,
            keyOf primary i row ∉ rowKeys info primary desc s.2 i) e := by
    intro e he
    refine ⟨?_, ?_⟩
    · rintro kv index' kv' rfl ⟨i, hi, hid, hindex, ht⟩ hcall
      obtain ⟨rfl, hindex', done, rest, hsplit, ht', hnd, hnew, hall⟩ :=
        hindex.insert hk hi ht hrows (hloops e he) hcall
      obtain rfl := hall.mp rfl
      rw [List.append_nil] at hsplit
      subst hsplit
      exact ⟨rfl, i, hi, hid, hindex', ht', hnd, hnew⟩
    · rintro kv index' kv' rfl ⟨i, hi, hid, hindex, ht⟩ hcall id - index
      obtain ⟨rfl, -⟩ := hindex.insert hk hi ht hrows (hloops e he) hcall
      exact ⟨fun hD => hD, fun hD => hD⟩
  obtain ⟨hstore, hinfo, hrow, hids, hindexes⟩ := overIndexes_each heach
    (h.nodup hk) rfl (fun e he => (h.indexes e he).records onlyRecords_stored
      hkv) hok
  -- the primary index tells that the rows are new and have different keys
  obtain ⟨hdistinct, hnew⟩ : (chunk.select.map
        (recordLayout info primary).key).Nodup
      ∧ ∀ row ∈ chunk.select,
        s.2.data ((recordLayout info primary).key row) = none := by
    have hmem : primary.id ∈ s'.1.colIndex.map Prod.fst :=
      (hids.trans h.ids).mem_iff.mpr (List.mem_map_of_mem hk.primary_mem)
    obtain ⟨e, he, hid⟩ := List.mem_map.mp hmem
    obtain ⟨i, hi, hid', -, -, hnd, hnew⟩ := hindexes e he
    obtain rfl := List.inj_on_of_nodup_map hk.ids hi hk.primary_mem
      (hid'.symm.trans hid)
    refine ⟨?_, ?_⟩
    · rw [List.nodup_iff_pairwise_ne, List.pairwise_map] at hnd ⊢
      refine hnd.imp_of_mem ?_
      intro row row' hrow hrow' hne hkey
      exact hne (primary_code_eq hk (hrows row hrow) (hrows row' hrow') hkey)
    · intro row hrow
      exact agrees_rowKeys.new h.store.sourced
        (fun r r' hr hr' hkey => primary_code_eq hk hr hr' hkey)
        (hrows row hrow) (hnew row hrow)
  -- so the batch put new records, and the codes added are theirs
  have hputs := @puts_writeBatch info primary chunk.select s.2.data hdistinct
  have hdata : s'.2.data = KvStorage.writeBatch s.2.data
      (rowRecords info primary chunk.select) := by
    rw [hstore]
    rfl
  rw [← hdata] at hputs
  refine ⟨hinfo.trans h.table, by rw [hrow]; exact h.loaded,
    hids.trans h.ids, ?_, ?_⟩
  · refine h.store.records (by rw [hstore]; exact hkv) ?_
      (h.store.sourced.puts hputs hrows hnew)
    rw [hstore]
    exact onlyRecords_stored
  · intro e he
    obtain ⟨i, hi, hid, hindex, ht, -, -⟩ := hindexes e he
    refine ⟨i, hi, hid, hindex, ?_⟩
    rw [rowKeys_eq (agrees_rowKeys.puts (coding_keyColumns hk hi) hputs hrows
      hnew)]
    exact ht

/-- `deleteCore` takes the keys of stored rows from every index, then removes
    their records. -/
theorem Ready.deleteCore (hk : Keyed info primary)
    (h : Ready pb info primary desc (Keeps env pb info) s)
    (hrows : ∀ row ∈ chunk.select, RowOf info desc row
      ∧ RowStored info s.2 row)
    (hloops : ∀ e ∈ s.1.colIndex,
      KeepsLoop env s.2 Index.deletes false chunk.select e.2)
    (hok : s.1.deleteCore env ho s.2 chunk = .ok (.ok, s')) :
    Ready pb info primary desc (Keeps env pb info) s' := by
  have hof : ∀ row ∈ chunk.select, RowOf info desc row :=
    fun row hrow => (hrows row hrow).1
  obtain ⟨⟨status, table, kv⟩, hloop, hok⟩ := Exec.bind_eq_ok.mp hok
  -- the records are removed only when no index failed
  have hst : status = .ok := by
    by_contra hst
    simp only at hok
    rw [if_pos hst] at hok
    exact hst (Prod.mk.inj (Except.ok.inj hok)).1
  subst hst
  -- each index drops the codes of the rows
  have heach : ∀ e ∈ s.1.colIndex,
      Each (fun _ index kv => index.delete env kv chunk) (· = s.2)
        (IndexAt info (Keeps env pb info) (rowKeys info primary desc s.2))
        (IndexAt info (Keeps env pb info)
          (fun i => {c ∈ rowKeys info primary desc s.2 i
            | ∀ row ∈ chunk.select, keyOf primary i row ≠ c})) e := by
    intro e he
    refine ⟨?_, ?_⟩
    · rintro kv index' kv' rfl ⟨i, hi, hid, hindex, ht⟩ hcall
      obtain ⟨rfl, hindex', ht'⟩ :=
        hindex.delete hk hi ht hof (hloops e he) hcall
      exact ⟨rfl, i, hi, hid, hindex', ht'⟩
    · rintro kv index' kv' rfl ⟨i, hi, hid, hindex, ht⟩ hcall id - index
      obtain ⟨rfl, -⟩ := hindex.delete hk hi ht hof (hloops e he) hcall
      exact ⟨fun hD => hD, fun hD => hD⟩
  obtain ⟨rfl, hinfo, hrow, hids, hindexes⟩ := overIndexes_each heach
    (h.nodup hk) rfl h.indexes hloop
  have htable : table.tableInfo = info := hinfo.trans h.table
  have hrecords : encodeRecords table.tableInfo chunk.select
      = .ok (rowRecords info primary chunk.select) := by
    rw [htable]
    exact encodeRecords_eq hk hof
  have hkeys : (rowRecords info primary chunk.select).map Prod.fst
      = chunk.select.map (recordLayout info primary).key := List.map_map
  simp only [ne_eq, not_true_eq_false, if_false, hrecords, Exec.bind_ok, hkeys,
    KvStorage.mDelKV, KvStorage.tick_reliable h.store.reliable,
    Bool.false_eq_true] at hok
  cases hok
  -- which are those of the records that are removed
  have hremoves := @removes_mDelKV info primary chunk.select s.2
  have honly := @onlyRecords_removed info primary s.2 chunk.select
  refine ⟨htable, by rw [hrow]; exact h.loaded, hids.trans h.ids,
    h.store.records h.store.reliable honly (h.store.sourced.removes hremoves),
    ?_⟩
  intro e he
  obtain ⟨i, hi, hid, hindex, ht⟩ :=
    (hindexes e he).records honly h.store.reliable
  refine ⟨i, hi, hid, hindex, ?_⟩
  rw [rowKeys_eq (agrees_rowKeys.removes (coding_keyColumns hk hi) hremoves hof
    (fun row hrow => (rowStored_iff hk (hof row hrow)).mp (hrows row hrow).2))]
  exact ht

end Ready

end Table

end AmDb.Storage
