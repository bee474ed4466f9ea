import AmDb.Storage.SingleLeaf
import AmDb.Storage.StoredTable

/-! # Tables with short keys

    An index with short keys is a tree of one leaf, whatever is inserted.  So no
    insert of new rows fails, and none loses what is stored: `Table::Insert`
    returns `C_OK`, on the same object or on a new one, in every order the hash
    maps are walked. -/

namespace AmDb.Storage

open Codec AmDb.Schema Chunk OrderedMap IndexedStore Bptree Session

namespace Table

/-- The tree of the index stays a single leaf up to `N` keys of this width. -/
structure StaysLeaf (env : Env) (i : IndexInfo) (width N : Nat) : Prop where
  nodes    : TwoKeysFit env width
  messages : MessagesFit env i width N
  ids      : i.rootNodeId ≠ i.maxTreeNodeId + 1

/-- Memory and store together keep a single leaf with these keys. -/
def LeafKeeps (env : Env) (pb : SchemaProtobuf) (width : Nat) (info : TableInfo)
    (i : IndexInfo) (t : Bptree) (kv : KvStorage) (S : Set Bytes) : Prop :=
  ∃ p cs, Durable env pb p info i (t, kv) cs
    ∧ SingleLeaf env width info i t kv cs ∧ keys (flat cs) = S

/-- The store alone does. -/
def LeafSaved (env : Env) (pb : SchemaProtobuf) (width : Nat) (info : TableInfo)
    (i : IndexInfo) (t : Bptree) (kv : KvStorage) (S : Set Bytes) : Prop :=
  ∃ p cs, Durable env pb p info i (t, kv) cs
    ∧ SingleLeaf env width info i t kv cs ∧ keys (flat cs) = S
    ∧ t.treeCtx.unsavedNodes = [] ∧ AllCopied env t kv cs

/-! ## One index -/

section OneIndex

variable {env : Env} {pb : SchemaProtobuf} {info : TableInfo}
  {primary i : IndexInfo} {index index' : Index} {t : Bptree}
  {kv kv' : KvStorage} {chunk : Chunk} {rows : List Row} {status : Status}
  {S : Set Bytes} {width N : Nat}

theorem LeafKeeps.keeps (h : LeafKeeps env pb width info i t kv S) :
    Keeps env pb info i t kv S := by
  obtain ⟨p, cs, hd, -, hkeys⟩ := h
  exact ⟨p, cs, hd, hkeys⟩

theorem LeafSaved.saved (h : LeafSaved env pb width info i t kv S) :
    Saved env pb info i t kv S := by
  obtain ⟨p, cs, hd, -, hsaved⟩ := h
  exact ⟨p, cs, hd, hsaved⟩

theorem LeafSaved.keeps (h : LeafSaved env pb width info i t kv S) :
    LeafKeeps env pb width info i t kv S := by
  obtain ⟨p, cs, hd, hs, hkeys, -⟩ := h
  exact ⟨p, cs, hd, hs, hkeys⟩

/-- The other indexes' writes do not matter to the leaf. -/
theorem LeafKeeps.frame (h : LeafKeeps env pb width info i t kv S)
    (hs : SameNodes info i kv kv') (hkv : kv'.Reliable) :
    LeafKeeps env pb width info i t kv' S := by
  obtain ⟨p, cs, hd, hleaf, hkeys⟩ := h
  exact ⟨p, cs, hd.frame hs hkv, hleaf.congr hd.intact.schema hs.nodes, hkeys⟩

theorem LeafSaved.frame (h : LeafSaved env pb width info i t kv S)
    (hs : SameNodes info i kv kv') (hkv : kv'.Reliable) :
    LeafSaved env pb width info i t kv' S := by
  obtain ⟨p, cs, hd, hleaf, hkeys, hsaved, hc⟩ := h
  exact ⟨p, cs, hd.frame hs hkv, hleaf.congr hd.intact.schema hs.nodes, hkeys,
    hsaved, hs.allCopied hd.intact.schema hc⟩

/-- The columns of a row and its key can be read. -/
theorem encodeRows_returns (hk : Keyed info primary) (hi : i ∈ info.indexList)
    (h : IndexOf info i index)
    (hrows : ∀ row ∈ rows, RowOf info (toRowDesc info) row) :
    ∃ es, index.encodeRows true rows = .ok es := by
  have hcols : Codec.keyColumns primary index.indexInfo
      = Codec.keyColumns primary i := by
    rw [Codec.keyColumns, Codec.keyColumns, h.columns, h.type]
  induction rows with
  | nil => exact ⟨[], rfl⟩
  | cons row rows ih =>
      obtain ⟨hrow, hrest⟩ := List.forall_mem_cons.mp hrows
      obtain ⟨es, hes⟩ := ih hrest
      have hread : row.desc.mapM (fun d => row.getColValue d.colId)
          = .ok (info.columnList.map row.value) := by
        rw [Exec.mapM_eq_ok, hrow.layout, toRowDesc,
          List.forall₂_map_left_iff, List.forall₂_map_right_iff,
          List.forall₂_same]
        exact fun c hc => (hrow.has.spec hc).1
      have hentry := @encodeIndex_eq info primary index.indexInfo row _
        hk.hasPrimary (by rw [hcols]; exact hrow.hasKey hk hi)
      refine ⟨(columnsCode row (Codec.keyColumns primary index.indexInfo), [])
        :: es, ?_⟩
      rw [Index.encodeRows, if_pos rfl, hread, Exec.bind_ok, h.table, hentry,
        Exec.bind_ok, hes]
      rfl

/-- `Index::Insert` of new short keys returns `C_OK`, and keeps what is
    stored. -/
theorem IndexOf.insert_leaf (hk : Keyed info primary)
    (hi : i ∈ info.indexList) (h : IndexOf info i index)
    (hfit : StaysLeaf env i width N)
    (ht : LeafKeeps env pb width info i index.bptree kv S)
    (hrows : ∀ row ∈ chunk.select, RowOf info (toRowDesc info) row)
    (hshort : ∀ row ∈ chunk.select, (keyOf primary i row).length ≤ width)
    (hnew : NewKeys S (chunk.select.map (keyOf primary i))) :
    KeepsLoop env kv Index.inserts true chunk.select index
      ∧ ∃ index', index.insert env kv chunk = .ok (.ok, index', kv)
        ∧ IndexOf info i index'
        ∧ LeafKeeps env pb width info i index'.bptree kv
          (S ∪ {c | ∃ row ∈ chunk.select, keyOf primary i row = c}) := by
  obtain ⟨es, hes⟩ := encodeRows_returns hk hi h hrows
  have hentries := encodeRows_eq hk hi h.table h.columns h.type hrows hes
  have hslim : ∀ e ∈ es, Slim width e := by
    rw [hentries]
    intro e he
    obtain ⟨row, hrow, rfl⟩ := List.mem_map.mp he
    exact ⟨hshort row hrow, rfl⟩
  obtain ⟨p, cs, hd, hs, hkeys⟩ := id ht
  obtain ⟨hcalls, status, t', cs', hok, hd', hs', -⟩ :=
    hs.insertEntries hfit.nodes hfit.ids hd hslim
  have hloop : KeepsLoop env kv Index.inserts true chunk.select index := by
    intro es' hes'
    cases hes.symm.trans hes'
    exact hcalls
  -- the call is the loop over the entries
  have hins : index.insert env kv chunk
      = .ok (index.finish (status, t', kv)) := by
    rw [Index.insert, hes, Exec.bind_ok, hok]
    rfl
  obtain ⟨hst, hstore, htree, hindex⟩ :=
    @IndexOf.finish info i index t' kv status h
  generalize index.finish (status, t', kv) = r at hins hst hstore htree hindex
  obtain ⟨st, index', kv'⟩ := r
  obtain rfl : kv' = kv := hstore
  have htree : index'.bptree = t' := htree
  obtain ⟨-, hstatus⟩ := h.insert_status hk hi ht.keeps hrows hloop hins
  -- no key was there, so no entry is refused
  obtain rfl : st = .ok := by
    rcases hstatus with ⟨hst, -⟩ | ⟨-, hold⟩
    · exact hst
    · exact absurd hnew hold
  refine ⟨hloop, index', hins, hindex, p, cs', ?_, ?_, ?_⟩
  · rw [htree]
    exact hd'
  · rw [htree]
    exact hs'
  · obtain ⟨-, -, done, rest, hsplit, ht', -, -, hall⟩ :=
      h.insert hk hi ht.keeps hrows hloop hins
    obtain rfl := hall.mp rfl
    rw [List.append_nil] at hsplit
    rw [← hsplit, htree] at ht'
    rw [← hd'.wellFormed.treeKeys_eq]
    exact ht'.treeKeys_eq

/-- There are no more entries than keys. -/
theorem LeafKeeps.savesFit (ht : LeafKeeps env pb width info i t kv S)
    (hfit : StaysLeaf env i width N) {ks : List Bytes} (hN : ks.length ≤ N)
    (hS : ∀ k ∈ S, k ∈ ks) : SavesFit env t := by
  obtain ⟨p, cs, hd, hs, rfl⟩ := ht
  refine hs.savesFit hfit.messages hd (le_trans ?_ hN)
  have hnodup : ((flat cs).map Prod.fst).Nodup := by
    rw [List.nodup_iff_pairwise_ne, List.pairwise_map]
    exact hd.wellFormed.ascending.imp (fun hlt => ne_of_lt hlt)
  have hsub : (flat cs).map Prod.fst ⊆ ks := by
    intro k hk
    obtain ⟨e, he, rfl⟩ := List.mem_map.mp hk
    exact hS _ ⟨e, he, rfl⟩
  have hle := (List.subperm_of_subset hnodup hsub).length_le
  rwa [List.length_map] at hle

/-- `Index::Save` leaves the leaf to the store. -/
theorem IndexOf.save_leaf (hfit : StaysLeaf env i width N)
    (ht : LeafKeeps env pb width info i index.bptree kv S)
    (hfits : SavesFit env index.bptree) {walk : Walk (Nat × Addr)}
    (hok : index.save env walk kv = (status, index', kv')) :
    LeafSaved env pb width info i index'.bptree kv' S := by
  obtain ⟨p, cs, hd, hs, hkeys⟩ := ht
  have hsaves : index.save env walk kv = (.ok, { index with
      bptree := (Session.saved env walk (index.bptree, kv)).1 },
      (Session.saved env walk (index.bptree, kv)).2) := rfl
  obtain ⟨hd', hsaved, hc⟩ := hd.saved hfits walk
  have hs' := hs.saved hfit.ids hd hfits walk
  rw [hsaves] at hok
  cases hok
  exact ⟨p, cs, hd', hs', hkeys, hsaved, hc⟩

/-- A new index has the leaf. -/
theorem LeafSaved.opened (h : LeafSaved env pb width info i t kv S)
    (hnew : Index.new env kv info i = .ok (index, kv')) :
    kv' = kv ∧ IndexOf info i index
      ∧ LeafSaved env pb width info i index.bptree kv S := by
  obtain ⟨hkv, hindex, -⟩ := h.saved.opened hnew
  obtain ⟨p, cs, hd, hs, hkeys, hsaved, hc⟩ := h
  obtain ⟨-, cs', hd', hs', hsaved', hc', hflat⟩ := hs.opened hd hc hsaved hnew
  exact ⟨hkv, hindex, p, cs', hd', hs', by rw [hflat, hkeys], hsaved', hc'⟩

end OneIndex

/-! ## Loops that return -/

section Loops

variable {ho : HashOrder} {table : Table} {kv : KvStorage}
  {f : Nat → Index → KvStorage → Exec (Status × Index × KvStorage)}
  {P : KvStorage → Prop} {D D' : Nat → Index → KvStorage → Prop}

/-- If each index returns, so does the loop over them. -/
theorem forIndexes_returns {ies : List (Nat × Index)}
    (hf : ∀ e ∈ ies, Each f P D D' e)
    (hreturns : ∀ e ∈ ies, ∀ kv, P kv → D e.1 e.2 kv →
      ∃ index' kv', f e.1 e.2 kv = .ok (.ok, index', kv'))
    (hids : (ies.map Prod.fst).Nodup) (hP : P kv)
    (hD : ∀ e ∈ ies, D e.1 e.2 kv) :
    ∃ ies' kv', forIndexes f ies kv = .ok (.ok, ies', kv') := by
  induction ies generalizing kv with
  | nil => exact ⟨[], kv, rfl⟩
  | cons e ies ih =>
      obtain ⟨hfe, hfs⟩ := List.forall_mem_cons.mp hf
      obtain ⟨hre, hrs⟩ := List.forall_mem_cons.mp hreturns
      obtain ⟨hDe, hDs⟩ := List.forall_mem_cons.mp hD
      obtain ⟨hne, hnd⟩ := List.nodup_cons.mp hids
      obtain ⟨index', kv₁, hcall⟩ := hre kv hP hDe
      have hothers := hfe.others hP hDe hcall
      have hDs₁ : ∀ e ∈ ies, D e.1 e.2 kv₁ := by
        intro e he
        refine (hothers e.1 ?_ e.2).1 (hDs e he)
        exact fun heq => hne (heq ▸ List.mem_map_of_mem he)
      obtain ⟨ies', kv', hloop⟩ := ih hfs hrs hnd (hfe.call hP hDe hcall).1 hDs₁
      refine ⟨(e.1, index') :: ies', kv', ?_⟩
      rw [forIndexes, hcall, Exec.bind_ok]
      simp only [ne_eq, not_true_eq_false, if_false]
      rw [hloop]
      rfl

/-- The loop over the table's indexes returns if each call does. -/
theorem overIndexes_returns (hf : ∀ e ∈ table.colIndex, Each f P D D' e)
    (hreturns : ∀ e ∈ table.colIndex, ∀ kv, P kv → D e.1 e.2 kv →
      ∃ index' kv', f e.1 e.2 kv = .ok (.ok, index', kv'))
    (hids : (table.colIndex.map Prod.fst).Nodup) (hP : P kv)
    (hD : ∀ e ∈ table.colIndex, D e.1 e.2 kv) :
    ∃ s', table.overIndexes ho f kv = .ok (.ok, s') := by
  have hperm := ho.indexes.perm table.colIndex
  obtain ⟨ies', kv', hloop⟩ := forIndexes_returns
    (fun e he => hf e (hperm.mem_iff.mp he))
    (fun e he => hreturns e (hperm.mem_iff.mp he))
    ((hperm.map Prod.fst).nodup_iff.mpr hids) hP
    (fun e he => hD e (hperm.mem_iff.mp he))
  refine ⟨({ table with colIndex := ies' }, kv'), ?_⟩
  rw [overIndexes, hloop]
  rfl

end Loops

/-! ## Calls on a table in memory -/

section Ready

variable {env : Env} {pb : SchemaProtobuf} {ho : HashOrder} {info : TableInfo}
  {primary : IndexInfo} {desc : RowDescriptor} {s : State} {chunk : Chunk}
  {T : IndexInfo → Bptree → KvStorage → Set Bytes → Prop}
  {K : IndexInfo → Set Bytes} {width N : Nat}

/-- What holds of each index may be weakened. -/
theorem Ready.mono (h : Ready pb info primary desc T s)
    {T' : IndexInfo → Bptree → KvStorage → Set Bytes → Prop}
    (hT : ∀ {i t kv S}, T i t kv S → T' i t kv S) :
    Ready pb info primary desc T' s := by
  refine ⟨h.table, h.loaded, h.ids, h.store, ?_⟩
  intro e he
  obtain ⟨i, hi, hid, hindex, ht⟩ := h.indexes e he
  exact ⟨i, hi, hid, hindex, hT ht⟩

/-- A tree has one set of keys. -/
theorem Ready.with_trees (hk : Keyed info primary)
    (h : Ready pb info primary desc (Keeps env pb info) s)
    (hT : ∀ {i t kv S}, T i t kv S → Keeps env pb info i t kv S)
    (hat : ∀ e ∈ s.1.colIndex, IndexAt info T K e.1 e.2 s.2) :
    Ready pb info primary desc T s
      ∧ ∀ i ∈ info.indexList, rowKeys info primary desc s.2 i = K i := by
  have hsame : ∀ i ∈ info.indexList, ∀ e ∈ s.1.colIndex, e.1 = i.id →
      IndexOf info i e.2 ∧ T i e.2.bptree s.2 (K i)
        ∧ rowKeys info primary desc s.2 i = K i := by
    intro i hi e he hid
    obtain ⟨i', hi', hid', hindex, ht⟩ := hat e he
    obtain rfl := List.inj_on_of_nodup_map hk.ids hi hi' (hid.symm.trans hid')
    obtain ⟨-, hkeeps⟩ := h.index hk hi he hid
    exact ⟨hindex, ht, hkeeps.treeKeys_eq.symm.trans (hT ht).treeKeys_eq⟩
  constructor
  · refine ⟨h.table, h.loaded, h.ids, h.store, ?_⟩
    intro e he
    obtain ⟨i, hi, hid, -⟩ := h.indexes e he
    obtain ⟨hindex, ht, heq⟩ := hsame i hi e he hid
    exact ⟨i, hi, hid, hindex, by rwa [heq]⟩
  · intro i hi
    obtain ⟨e, he, hid⟩ := h.exists_index hi
    exact (hsame i hi e he hid).2.2

/-- `Index::Insert` on an index of the table. -/
theorem IndexAt.insert_leaf (hk : Keyed info primary)
    (hfits : ∀ i ∈ info.indexList, StaysLeaf env i width N)
    (hrows : ∀ row ∈ chunk.select, RowOf info (toRowDesc info) row)
    (hshort : ∀ row ∈ chunk.select, ∀ i ∈ info.indexList,
      (keyOf primary i row).length ≤ width)
    (hnew : ∀ i ∈ info.indexList,
      NewKeys (K i) (chunk.select.map (keyOf primary i)))
    {id : Nat} {index : Index} {kv : KvStorage}
    (h : IndexAt info (LeafKeeps env pb width info) K id index kv) :
    KeepsLoop env kv Index.inserts true chunk.select index
      ∧ ∃ index', index.insert env kv chunk = .ok (.ok, index', kv)
        ∧ IndexAt info (LeafKeeps env pb width info)
          (fun i => K i ∪ {c | ∃ row ∈ chunk.select, keyOf primary i row = c})
          id index' kv := by
  obtain ⟨i, hi, hid, hindex, ht⟩ := h
  obtain ⟨hloop, index', hins, hindex', ht'⟩ := hindex.insert_leaf hk hi
    (hfits i hi) ht hrows (fun row hrow => hshort row hrow i hi) (hnew i hi)
  exact ⟨hloop, index', hins, i, hi, hid, hindex', ht'⟩

/-- `insertCore` of new rows returns `C_OK`. -/
theorem Ready.insertCore_leaf (hk : Keyed info primary)
    (h : Ready pb info primary (toRowDesc info) (LeafKeeps env pb width info) s)
    (hfits : ∀ i ∈ info.indexList, StaysLeaf env i width N)
    (hrows : ∀ row ∈ chunk.select, RowOf info (toRowDesc info) row)
    (hshort : ∀ row ∈ chunk.select, ∀ i ∈ info.indexList,
      (keyOf primary i row).length ≤ width)
    (hnew : NewRows info s.2 chunk.select) :
    (∀ e ∈ s.1.colIndex,
      KeepsLoop env (stored s.2 (rowRecords info primary chunk.select))
        Index.inserts true chunk.select e.2)
      ∧ ∃ u, s.1.insertCore env ho s.2 chunk = .ok (.ok, u)
        ∧ u.2 = stored s.2 (rowRecords info primary chunk.select)
        ∧ Ready pb info primary (toRowDesc info) (LeafKeeps env pb width info) u
        ∧ ∀ i ∈ info.indexList, rowKeys info primary (toRowDesc info) u.2 i
          = rowKeys info primary (toRowDesc info) s.2 i
            ∪ {c | ∃ row ∈ chunk.select, keyOf primary i row = c} := by
  have hrecords : encodeRecords s.1.tableInfo chunk.select
      = .ok (rowRecords info primary chunk.select) := by
    rw [h.table]
    exact encodeRecords_eq hk hrows
  have hkv : (stored s.2 (rowRecords info primary chunk.select)).Reliable :=
    h.store.reliable
  have hat : ∀ e ∈ s.1.colIndex, IndexAt info (LeafKeeps env pb width info)
      (rowKeys info primary (toRowDesc info) s.2) e.1 e.2
      (stored s.2 (rowRecords info primary chunk.select)) := by
    intro e he
    obtain ⟨i, hi, hid, hindex, ht⟩ := h.indexes e he
    exact ⟨i, hi, hid, hindex, ht.frame onlyRecords_stored.sameNodes hkv⟩
  -- each index has one leaf, which takes the keys
  have hcall := fun e : Nat × Index => @IndexAt.insert_leaf env pb info primary
    chunk (rowKeys info primary (toRowDesc info) s.2) width N hk hfits hrows
    hshort (fun i hi => hnew.newKeys hk hi hrows) e.1 e.2
    (stored s.2 (rowRecords info primary chunk.select))
  have hloops : ∀ e ∈ s.1.colIndex,
      KeepsLoop env (stored s.2 (rowRecords info primary chunk.select))
        Index.inserts true chunk.select e.2 :=
    fun e he => (hcall e (hat e he)).1
  have heach : ∀ e ∈ s.1.colIndex,
      Each (fun _ index kv => index.insert env kv chunk)
        (· = stored s.2 (rowRecords info primary chunk.select))
        (IndexAt info (LeafKeeps env pb width info)
          (rowKeys info primary (toRowDesc info) s.2))
        (IndexAt info (LeafKeeps env pb width info)
          (fun i => rowKeys info primary (toRowDesc info) s.2 i
            ∪ {c | ∃ row ∈ chunk.select, keyOf primary i row = c})) e := by
    rintro e -
    refine ⟨?_, ?_⟩
    · rintro kv index' kv' rfl hD hok
      obtain ⟨-, index, hins, hat'⟩ := hcall e hD
      cases hins.symm.trans hok
      exact ⟨rfl, hat'⟩
    · rintro kv index' kv' rfl hD hok id - index
      obtain ⟨-, index, hins, -⟩ := hcall e hD
      cases hins.symm.trans hok
      exact ⟨fun hD => hD, fun hD => hD⟩
  -- so the loop over the indexes returns
  have hreturns : ∀ e ∈ s.1.colIndex, ∀ kv,
      kv = stored s.2 (rowRecords info primary chunk.select) →
      IndexAt info (LeafKeeps env pb width info)
        (rowKeys info primary (toRowDesc info) s.2) e.1 e.2 kv →
      ∃ index' kv', e.2.insert env kv chunk = .ok (.ok, index', kv') := by
    rintro e - kv rfl hD
    obtain ⟨-, index, hins, -⟩ := hcall e hD
    exact ⟨index, _, hins⟩
  obtain ⟨u, hloop⟩ := @overIndexes_returns ho s.1 _ _ _ _ _ heach hreturns
    (h.nodup hk) rfl hat
  obtain ⟨hstore, -, -, -, hat'⟩ :=
    overIndexes_each heach (h.nodup hk) rfl hat hloop
  rw [← insertCore_reliable h.store.reliable hrecords] at hloop
  have hkeeps := (h.mono LeafKeeps.keeps).insertCore hk hrows hloops hloop
  exact ⟨hloops, u, hloop, hstore, hkeeps.with_trees hk LeafKeeps.keeps hat'⟩

/-- `Submit` returns `C_OK`, and the store alone keeps the leaves. -/
theorem Ready.submit_leaf (hk : Keyed info primary)
    (h : Ready pb info primary desc (LeafKeeps env pb width info) s)
    (hfits : ∀ i ∈ info.indexList, StaysLeaf env i width N)
    (hsaves : ∀ e ∈ s.1.colIndex, SavesFit env e.2.bptree) :
    ∃ s', s.1.submit env ho s.2 = .ok (.ok, s')
      ∧ Ready pb info primary desc (LeafSaved env pb width info) s'
      ∧ ∀ i ∈ info.indexList, rowKeys info primary desc s'.2 i
        = rowKeys info primary desc s.2 i := by
  have heach : ∀ e ∈ s.1.colIndex,
      Each (fun id index kv => .ok (index.save env (ho.nodes id) kv))
        (fun _ => True)
        (IndexAt info (LeafKeeps env pb width info)
          (rowKeys info primary desc s.2))
        (IndexAt info (LeafSaved env pb width info)
          (rowKeys info primary desc s.2)) e := by
    intro e he
    refine ⟨?_, ?_⟩
    · rintro kv index' kv' - ⟨i, hi, hid, hindex, ht⟩ hcall
      have hcall := Except.ok.inj hcall
      obtain ⟨-, -, hindex', -⟩ := hindex.save ht.keeps (hsaves e he) hcall
      exact ⟨trivial, i, hi, hid, hindex',
        IndexOf.save_leaf (hfits i hi) ht (hsaves e he) hcall⟩
    · rintro kv index' kv' - ⟨i, hi, hid, hindex, ht⟩ hcall id hne index
      obtain ⟨hkv', -, -, -, -, hnodes⟩ :=
        hindex.save ht.keeps (hsaves e he) (Except.ok.inj hcall)
      rw [hid] at hne
      constructor
      · rintro ⟨j, hj, rfl, hindex, ht⟩
        exact ⟨j, hj, rfl, hindex, ht.frame (hnodes j hne) hkv'⟩
      · rintro ⟨j, hj, rfl, hindex, hs⟩
        exact ⟨j, hj, rfl, hindex, hs.frame (hnodes j hne) hkv'⟩
  -- a save always returns
  have hreturns : ∀ e ∈ s.1.colIndex, ∀ kv, True →
      IndexAt info (LeafKeeps env pb width info)
        (rowKeys info primary desc s.2) e.1 e.2 kv →
      ∃ index' kv', (.ok (e.2.save env (ho.nodes e.1) kv) : Exec _)
        = .ok (.ok, index', kv') :=
    fun e _ kv _ _ => ⟨_, _, rfl⟩
  obtain ⟨s', hok⟩ := @overIndexes_returns ho s.1 _ _ _ _ _ heach hreturns
    (h.nodup hk) trivial h.indexes
  obtain ⟨-, -, -, -, hat⟩ :=
    overIndexes_each heach (h.nodup hk) trivial h.indexes hok
  have hsaved := (h.mono LeafKeeps.keeps).submit hk hsaves hok
  exact ⟨s', hok, hsaved.keeps.with_trees hk (fun h => h.keeps.keeps) hat⟩

end Ready

/-! ## Calls on a stored table -/

/-- A store that keeps the table, every index of it a leaf with at most `n`
    keys. -/
structure LeafStore (env : Env) (pb : SchemaProtobuf) (width : Nat)
    (info : TableInfo) (primary : IndexInfo) (n : Nat) (kv : KvStorage) :
    Prop where
  store : StoreOf pb info primary (toRowDesc info) kv
  roots : RootsRead env info kv
  trees : ∀ i ∈ info.indexList, ∃ t, LeafSaved env pb width info i t kv
    (rowKeys info primary (toRowDesc info) kv i)
  count : ∀ i ∈ info.indexList, ∃ ks : List Bytes, ks.length ≤ n
    ∧ ∀ k ∈ rowKeys info primary (toRowDesc info) kv i, k ∈ ks

/-- The object is a new one, or has every index in memory. -/
def Usable (env : Env) (pb : SchemaProtobuf) (width : Nat) (info : TableInfo)
    (primary : IndexInfo) (s : State) : Prop :=
  s.1 = { tableInfo := info }
    ∨ Ready pb info primary (toRowDesc info) (LeafSaved env pb width info) s

section Calls

variable {env : Env} {pb : SchemaProtobuf} {ho : HashOrder} {info : TableInfo}
  {primary : IndexInfo} {table table' : Table} {kv kv' : KvStorage}
  {s : State} {chunk : Chunk} {K : IndexInfo → Set Bytes} {width n N : Nat}

/-- A table whose indexes have one leaf each can be opened. -/
theorem LeafStore.closed (h : LeafStore env pb width info primary n kv) :
    Closed env pb info primary (toRowDesc info)
      ({ tableInfo := info }, kv) := by
  refine ⟨rfl, h.store, ?_⟩
  intro i hi
  obtain ⟨t, ht⟩ := h.trees i hi
  exact ⟨t, ht.saved⟩

/-- With some more rows there are as many more keys. -/
theorem LeafStore.count_insert (h : LeafStore env pb width info primary n kv)
    {rows : List Row} (hkeys : ∀ i ∈ info.indexList,
      K i = rowKeys info primary (toRowDesc info) kv i
        ∪ {c | ∃ row ∈ rows, keyOf primary i row = c}) :
    ∀ i ∈ info.indexList, ∃ ks : List Bytes, ks.length ≤ n + rows.length
      ∧ ∀ k ∈ K i, k ∈ ks := by
  intro i hi
  obtain ⟨ks, hlen, hks⟩ := h.count i hi
  refine ⟨ks ++ rows.map (keyOf primary i), ?_, ?_⟩
  · rw [List.length_append, List.length_map]
    exact Nat.add_le_add_right hlen _
  · rw [hkeys i hi]
    rintro k (hold | ⟨row, hrow, rfl⟩)
    · exact List.mem_append_left _ (hks k hold)
    · exact List.mem_append_right _ (List.mem_map_of_mem hrow)

/-- Every index is opened as the leaf that was saved. -/
theorem loadIndexes_leaf {indexes : List IndexInfo}
    (htrees : ∀ i ∈ indexes, i ∈ info.indexList
      ∧ ∃ t, LeafSaved env pb width info i t kv (K i))
    (hinfo : table.tableInfo = info)
    (hat : ∀ e ∈ table.colIndex,
      IndexAt info (LeafSaved env pb width info) K e.1 e.2 kv)
    (h : loadIndexes env indexes table kv = .ok (table', kv')) :
    ∀ e ∈ table'.colIndex,
      IndexAt info (LeafSaved env pb width info) K e.1 e.2 kv := by
  induction indexes generalizing table with
  | nil =>
      cases h
      exact hat
  | cons i indexes ih =>
      obtain ⟨⟨hi, t, ht⟩, hrest⟩ := List.forall_mem_cons.mp htrees
      obtain ⟨⟨index, kv₁⟩, hnew, hload⟩ := Exec.bind_eq_ok.mp h
      rw [hinfo] at hnew
      obtain ⟨rfl, hindex, hs⟩ := ht.opened hnew
      refine @ih { table with
        colIndex := emplace table.colIndex i.id index
        rowIndex := if i.type = .primary then some i.id else table.rowIndex }
        hrest hinfo ?_ hload
      intro e he
      rcases mem_emplace he with he | rfl
      · exact hat e he
      · exact ⟨i, hi, rfl, hindex, hs⟩

/-- `Prepare` returns with every index in memory. -/
theorem LeafStore.loadMeta (hk : Keyed info primary)
    (h : LeafStore env pb width info primary n s.2)
    (hs : Usable env pb width info primary s) :
    ∃ t, s.1.loadMeta env s.2 = .ok t ∧ t.2 = s.2
      ∧ Ready pb info primary (toRowDesc info) (LeafSaved env pb width info)
        t := by
  rcases hs with hs | hr
  · obtain ⟨table, kv⟩ := s
    obtain rfl : table = { tableInfo := info } := hs
    obtain ⟨table, hload⟩ := @loadIndexes_returns env info
      { tableInfo := info } kv info.indexList h.store.reliable h.roots rfl
    have hat := loadIndexes_leaf (fun i hi => ⟨hi, h.trees i hi⟩) rfl
      (List.forall_mem_nil _) hload
    have hready := (h.closed.loadMeta hk hload).2
    exact ⟨(table, kv), hload, rfl,
      (hready.keeps.with_trees hk (fun h => h.keeps.keeps) hat).1⟩
  · exact ⟨s, hr.loadMeta, rfl, hr⟩

/-- An insert of new rows with short keys returns `C_OK`, keeps what is stored,
    and can be followed by another. -/
theorem LeafStore.insert (hk : Keyed info primary)
    (h : LeafStore env pb width info primary n s.2)
    (hs : Usable env pb width info primary s)
    (hfits : ∀ i ∈ info.indexList, StaysLeaf env i width N)
    (hrows : ∀ row ∈ chunk.select, RowOf info (toRowDesc info) row)
    (hshort : ∀ row ∈ chunk.select, ∀ i ∈ info.indexList,
      (keyOf primary i row).length ≤ width)
    (hnew : NewRows info s.2 chunk.select)
    (hN : n + chunk.select.length ≤ N) :
    ∃ s', KeepingStep env pb info (toRowDesc info) s (.insert ho chunk) s'
      ∧ LeafStore env pb width info primary (n + chunk.select.length) s'.2
      ∧ Usable env pb width info primary s'
      ∧ SameRecords (stored s.2 (rowRecords info primary chunk.select))
        s'.2 := by
  obtain ⟨t, hload, hstore, ht⟩ := h.loadMeta hk hs
  rw [← hstore] at h hnew ⊢
  obtain ⟨hloops, u, hcore, hbatch, hu, hkeys⟩ :=
    @Ready.insertCore_leaf env pb ho info primary t chunk width N hk
      (ht.mono LeafSaved.keeps) hfits hrows hshort hnew
  -- every leaf keeps its size, so the save fits
  have hcount := h.count_insert hkeys
  have hsaves : ∀ e ∈ u.1.colIndex, SavesFit env e.2.bptree := by
    intro e he
    obtain ⟨i, hi, -, -, hleaf⟩ := hu.indexes e he
    obtain ⟨ks, hlen, hks⟩ := hcount i hi
    exact hleaf.savesFit (hfits i hi) (le_trans hlen hN) hks
  obtain ⟨s', hsubmit, hs', hsame⟩ :=
    @Ready.submit_leaf env pb ho info primary _ u width N hk hu hfits hsaves
  have hinsert : s.1.insert env ho s.2 chunk = .ok (.ok, s') := by
    rw [Table.insert, change, hload, Exec.bind_ok]
    show (t.1.insertCore env ho t.2 chunk >>= _) = _
    rw [hcore]
    exact hsubmit
  -- the call met the condition of a keeping step
  have hkeeps : KeepsFor env s (.insert ho chunk) := by
    intro t' hload'
    cases hload.symm.trans hload'
    refine ⟨?_, ?_⟩
    · intro records hrecords
      rw [ht.table] at hrecords
      cases (encodeRecords_eq hk hrows).symm.trans hrecords
      exact hloops
    · intro u' hu'
      cases hcore.symm.trans hu'
      exact hsaves
  have hstep : KeepingStep env pb info (toRowDesc info) s (.insert ho chunk)
      s' := ⟨hkeeps, hrows, hinsert⟩
  refine ⟨s', hstep, ⟨hs'.store, ?_, ?_, ?_⟩, Or.inr hs', ?_⟩
  · exact RootsRead.submit hk (h.roots.records (insertCore_onlyRecords hcore))
      (hu.mono LeafKeeps.keeps) hsaves hsubmit
  · intro i hi
    obtain ⟨e, he, hid⟩ := hs'.exists_index hi
    exact ⟨_, (hs'.index hk hi he hid).2⟩
  · intro i hi
    rw [hsame i hi]
    exact hcount i hi
  · rw [← hbatch]
    exact submit_records hsubmit

/-- A new object of the table. -/
theorem LeafStore.reopen (h : LeafStore env pb width info primary n s.2)
    (hs : Usable env pb width info primary s) :
    KeepingStep env pb info (toRowDesc info) s .reopen
      ({ tableInfo := info }, s.2) := by
  have hinfo : s.1.tableInfo = info := by
    rcases hs with hs | hr
    · rw [hs]
    · exact hr.table
  refine ⟨trivial, trivial, ?_⟩
  have hskip : s.2.skip 1 = s.2 := by
    have htick := KvStorage.tick_reliable h.store.reliable
    rw [KvStorage.tick_eq] at htick
    exact (Prod.mk.inj htick).2
  rw [call_reopen (by rw [hinfo]) (by rw [hinfo]) h.store.recorded
    (h.store.reliable.fails 0), hskip]

/-- What `CREATE TABLE` leaves. -/
theorem NewTable.leafStore (hn : NewTable pb info kv)
    (hnodes : ∀ i ∈ info.indexList, ∀ nodeId,
      kv.data (.treeNode info.dbId info.id i.id nodeId) = none) :
    LeafStore env pb width info primary 0 kv := by
  obtain ⟨value, proto, hvalue, hproto, hdes⟩ := hn.recorded
  have hnone : ∀ row, RowOf info (toRowDesc info) row →
      kv.data ((recordLayout info primary).key row) = none :=
    fun _ _ => hn.records _
  have hempty : ∀ i, rowKeys info primary (toRowDesc info) kv i = ∅ :=
    fun i => rowKeys_eq (agrees_empty hnone)
  refine ⟨⟨hn.reliable, hn.recorded, sourced_empty hnone⟩, ?_, ?_, ?_⟩
  · intro i hi value hvalue
    rw [hn.roots i hi] at hvalue
    cases hvalue
  · intro i hi
    obtain ⟨pos, hpos⟩ := List.mem_iff_getElem?.mp hi
    have hd : Described pb ⟨info.dbId, info.id, pos⟩ kv info i :=
      ⟨value, proto, hvalue, hproto, hdes, hpos⟩
    refine ⟨Index.emptyTree info i, _, [],
      durable_empty hd hn.reliable (hn.roots i hi),
      singleLeaf_empty (hnodes i hi), ?_, rfl, List.forall_mem_nil _⟩
    rw [hempty]
    exact keys_nil
  · intro i hi
    refine ⟨[], Nat.le_refl 0, ?_⟩
    rw [hempty]
    exact fun k hk => absurd hk (Set.notMem_empty k)

end Calls

/-! ## Runs -/

/-- The rows that a call inserts. -/
def Op.rows : Op → List Row
  | .insert _ chunk => chunk.select
  | _ => []

section Runs

variable {env : Env} {pb : SchemaProtobuf} {info : TableInfo}
  {primary : IndexInfo} {kv : KvStorage} {s : State} {ops : List Op}
  {width n N : Nat}

/-- Every run of inserts returns, by induction on the calls. -/
theorem LeafStore.run (hk : Keyed info primary)
    (h : LeafStore env pb width info primary n s.2)
    (hs : Usable env pb width info primary s)
    (hfits : ∀ i ∈ info.indexList, StaysLeaf env i width N)
    (hops : ∀ op ∈ ops, ∀ ho chunk, op ≠ .delete ho chunk)
    (hrows : ∀ row ∈ ops.flatMap Op.rows, RowOf info (toRowDesc info) row)
    (hshort : ∀ row ∈ ops.flatMap Op.rows, ∀ i ∈ info.indexList,
      (keyOf primary i row).length ≤ width)
    (hnew : NewRows info s.2 (ops.flatMap Op.rows))
    (hN : n + (ops.flatMap Op.rows).length ≤ N) :
    ∃ s', Run (KeepingStep env pb info (toRowDesc info)) s ops s'
      ∧ ∀ row, RowOf info (toRowDesc info) row → (RowStored info s'.2 row
        ↔ RowStored info s.2 row ∨ ∃ row' ∈ ops.flatMap Op.rows,
          encodeRecord info row' = encodeRecord info row) := by
  induction ops generalizing s n with
  | nil => exact ⟨s, .nil, fun row _ => by simp⟩
  | cons op ops ih =>
      obtain ⟨hop, htail⟩ := List.forall_mem_cons.mp hops
      cases op with
      | insert ho chunk =>
          rw [List.flatMap_cons] at hrows hshort hnew hN ⊢
          have hchunk : Op.rows (.insert ho chunk) = chunk.select := rfl
          rw [hchunk] at hrows hshort hnew hN ⊢
          obtain ⟨hrow, hrest⟩ := List.forall_mem_append.mp hrows
          obtain ⟨hshort, hshorts⟩ := List.forall_mem_append.mp hshort
          rw [List.length_append, ← Nat.add_assoc] at hN
          -- the rows of the first call are new, the others' stay so behind it
          obtain ⟨hfirst, -⟩ := hnew.after hk hrows (.refl _)
          obtain ⟨s₁, hstep, h₁, hs₁, hsame⟩ := @LeafStore.insert env pb ho info
            primary s chunk width n N hk h hs hfits hrow hshort hfirst
            (by omega)
          obtain ⟨-, hnews⟩ := hnew.after hk hrows hsame
          obtain ⟨s', hrun, hstored⟩ := ih h₁ hs₁ htail hrest hshorts hnews hN
          refine ⟨s', .cons hstep hrun, ?_⟩
          intro row hr
          rw [hstored row hr, rowStored_batch hk hrow hfirst hsame hr, or_assoc,
            ← exists_or]
          simp only [List.mem_append, or_and_right]
      | delete ho chunk => exact absurd rfl (hop ho chunk)
      | reopen =>
          obtain ⟨s', hrun, hstored⟩ := ih (s := ({ tableInfo := info }, s.2)) h
            (Or.inl rfl) htail hrows hshort hnew hN
          exact ⟨s', .cons (h.reopen hs) hrun, hstored⟩

/-- On a new table any run of inserts, with new table objects in between,
    returns `C_OK` from every call, as long as the rows have different data
    keys and their index keys are short: just these rows are stored then, and a
    new object finds their keys in every index. -/
theorem new_rows_always_inserted (hk : Keyed info primary)
    (hn : NewTable pb info kv)
    (hnodes : ∀ i ∈ info.indexList, ∀ nodeId,
      kv.data (.treeNode info.dbId info.id i.id nodeId) = none)
    (hfits : ∀ i ∈ info.indexList, StaysLeaf env i width N)
    (hops : ∀ op ∈ ops, ∀ ho chunk, op ≠ .delete ho chunk)
    (hrows : ∀ row ∈ ops.flatMap Op.rows, RowOf info (toRowDesc info) row)
    (hshort : ∀ row ∈ ops.flatMap Op.rows, ∀ i ∈ info.indexList,
      (keyOf primary i row).length ≤ width)
    (hnew : NewRows info kv (ops.flatMap Op.rows))
    (hN : (ops.flatMap Op.rows).length ≤ N) :
    ∃ s, Run (KeepingStep env pb info (toRowDesc info))
        ({ tableInfo := info }, kv) ops s
      ∧ (∀ row, RowOf info (toRowDesc info) row → (RowStored info s.2 row
        ↔ ∃ row' ∈ ops.flatMap Op.rows,
          encodeRecord info row' = encodeRecord info row))
      ∧ ∃ table, Table.loadMeta env { tableInfo := info } s.2
          = .ok (table, s.2)
        ∧ IndexesAgree env info (toRowDesc info) (table, s.2) := by
  have hleaf : LeafStore env pb width info primary 0 kv := hn.leafStore hnodes
  obtain ⟨s, hrun, hstored⟩ := @LeafStore.run env pb info primary
    ({ tableInfo := info }, kv) ops width 0 N hk hleaf (Or.inl rfl) hfits hops
    hrows hshort hnew (by omega)
  obtain ⟨hc, hr⟩ := openable_of_run hk hn hrun
  obtain ⟨table, hload, hready, -⟩ := hc.opens hk hr
  refine ⟨s, hrun, ?_, table, hload,
    hready.indexesAgree hk⟩
  intro row hrow
  rw [hstored row hrow]
  refine or_iff_right ?_
  intro hold
  rw [rowStored_iff hk hrow, Stored] at hold
  cases (hn.records _).symm.trans hold

/-- Three rows through two objects. -/
def threeScores : List Op :=
  [.insert .inOrder { select := [score 1 30, score 2 20] }, .reopen,
    .insert .inOrder { select := [score 3 20] }]

theorem staysLeaf_scores :
    ∀ i ∈ scores.indexList, StaysLeaf (.wire 1024) i 18 3 := by
  intro i hi
  have hids : i.rootNodeId = 0 ∧ i.maxTreeNodeId = 0 := by
    revert i hi
    decide
  refine ⟨⟨by decide, by decide⟩, messagesFit_wire ?_, ?_⟩
  · rw [hids.1, hids.2]
    decide
  · rw [hids.1, hids.2]
    decide

theorem new_rows_always_inserted_scores :
    ∃ s, Run (KeepingStep (.wire 1024) .wire scores (toRowDesc scores))
        ({ tableInfo := scores }, scoresStore) threeScores s
      ∧ RowStored scores s.2 (score 3 20)
      ∧ ∃ table, Table.loadMeta (.wire 1024) { tableInfo := scores } s.2
          = .ok (table, s.2)
        ∧ IndexesAgree (.wire 1024) scores (toRowDesc scores) (table, s.2) := by
  have hrows : ∀ row ∈ threeScores.flatMap Op.rows,
      RowOf scores (toRowDesc scores) row := by decide
  have hshort : ∀ row ∈ threeScores.flatMap Op.rows, ∀ i ∈ scores.indexList,
      (keyOf scoresByPlayer i row).length ≤ 18 := by decide +kernel
  have hnew : NewRows scores scoresStore (threeScores.flatMap Op.rows) := by
    refine (newRows_iff keyed_scores hrows).mpr ⟨by decide +kernel, ?_⟩
    exact fun row _ => newTable_scores.records _
  obtain ⟨s, hrun, hstored, hopens⟩ := new_rows_always_inserted keyed_scores
    newTable_scores
    (fun i _ nodeId => KvStorage.written_data_of_ne _ _ (by simp))
    staysLeaf_scores (by simp [threeScores]) hrows hshort hnew (Nat.le_refl 3)
  refine ⟨s, hrun, (hstored _ (hrows _ ?_)).mpr ⟨_, ?_, rfl⟩, hopens⟩
  · simp [threeScores, Op.rows]
  · simp [threeScores, Op.rows]

end Runs

end Table

end AmDb.Storage
