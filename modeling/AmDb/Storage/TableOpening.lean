import AmDb.Storage.TableWrites

/-! # Opening a table again

    A new table object reads the roots of its indexes.  A root that was written
    fits its message and can be read, so after any run of calls that keep what
    is stored a new object has every index in memory. -/

namespace AmDb.Storage

open Codec AmDb.Schema Chunk OrderedMap IndexedStore Bptree Session

/-- The root of the index can be read, if there is one. -/
def RootReads (env : Env) (info : TableInfo) (i : IndexInfo) (kv : KvStorage) :
    Prop :=
  ∀ value, kv.data (rootKey info i) = some value →
    ∃ proto, env.pb.node.parseFromString value = some proto

section Roots

variable {env : Env} {pb : SchemaProtobuf} {info : TableInfo}
  {i : IndexInfo} {index index' : Index} {kv kv' : KvStorage} {S : Set Bytes}
  {status : Status}

/-- Whether the root is read back depends on the nodes alone. -/
theorem RootReads.congr (h : RootReads env info i kv)
    (hs : SameNodes info i kv kv') : RootReads env info i kv' := by
  intro value hvalue
  have hsame : kv'.data (rootKey info i) = kv.data (rootKey info i) :=
    hs.nodes _
  rw [hsame] at hvalue
  exact h value hvalue

/-- `Index::Index` returns. -/
theorem RootReads.new (h : RootReads env info i kv) (hkv : kv.Reliable) :
    ∃ index, Index.new env kv info i = .ok (index, kv) := by
  cases hdata : kv.data (rootKey info i) with
  | none => exact ⟨_, Index.new_of_none hkv hdata⟩
  | some value =>
      obtain ⟨proto, hproto⟩ := h value hdata
      exact ⟨_, Index.new_of_stored hkv hdata hproto⟩

/-- A save writes a root that fits its message, or none. -/
theorem RootReads.save (h : RootReads env info i kv)
    (ht : Table.Keeps env pb info i index.bptree kv S)
    (hfit : SavesFit env index.bptree) {walk : Walk (Nat × Addr)}
    (hok : index.save env walk kv = (status, index', kv')) :
    RootReads env info i kv' := by
  obtain ⟨p, cs, hd, -⟩ := ht
  have hsaves : index.save env walk kv = (.ok, { index with
      bptree := (Session.saved env walk (index.bptree, kv)).1 },
      (Session.saved env walk (index.bptree, kv)).2) := rfl
  rw [hsaves, hd.saved_eq walk] at hok
  cases hok
  intro value hvalue
  have hl : Linked index.bptree (cs.map Prod.fst) := hd.wellFormed.linked
  rw [hd.rootKey] at hvalue
  by_cases hwaits : ((index.bptree.node index.bptree.root).id,
      index.bptree.root) ∈ index.bptree.treeCtx.unsavedNodes
  · rw [hd.tracked.dumped_live hwaits] at hvalue
    obtain rfl := Option.some.inj hvalue
    have hfits := hfit _ hwaits
    rw [FitsMessage, if_neg (by rw [hl.root_inner]; decide)] at hfits
    rw [serialize_inner env hl.root_inner]
    exact ⟨_, env.pb.node.parse_serialize _ hfits⟩
  · rw [hd.tracked.dumped_other List.mem_cons_self hwaits, ← hd.rootKey]
      at hvalue
    exact h value hvalue

end Roots

namespace Table

/-- Every root of the table can be read. -/
def RootsRead (env : Env) (info : TableInfo) (kv : KvStorage) : Prop :=
  ∀ i ∈ info.indexList, RootReads env info i kv

section Calls

variable {env : Env} {ho : HashOrder} {pb : SchemaProtobuf} {info : TableInfo}
  {primary : IndexInfo} {desc : RowDescriptor} {table table' : Table}
  {kv kv' : KvStorage} {s s' : State} {op : Op} {status : Status}
  {chunk : Chunk} {h : List Op}

theorem RootsRead.records (hr : RootsRead env info kv)
    (honly : OnlyRecords kv kv') : RootsRead env info kv' :=
  fun i hi => (hr i hi).congr honly.sameNodes

theorem OnlyRecords.of_read (h : OnlyRead kv kv') : OnlyRecords kv kv' := by
  obtain ⟨n, rfl⟩ := h
  exact fun _ _ => rfl

theorem OnlyRecords.trans {kv₁ : KvStorage} (h : OnlyRecords kv kv₁)
    (h' : OnlyRecords kv₁ kv') : OnlyRecords kv kv' := by
  intro key hkey
  rw [h' key hkey, h key hkey]

/-- A loop of reads reads. -/
theorem forIndexes_reads
    {f : Nat → Index → KvStorage → Exec (Status × Index × KvStorage)}
    (hf : ∀ {id index kv s index' kv'}, f id index kv = .ok (s, index', kv') →
      OnlyRead kv kv') {ies ies' : List (Nat × Index)}
    (h : forIndexes f ies kv = .ok (status, ies', kv')) : OnlyRead kv kv' := by
  induction ies generalizing kv ies' with
  | nil =>
      cases h
      exact .refl _
  | cons e ies ih =>
      obtain ⟨⟨s, index, kv₁⟩, hcall, h⟩ := Exec.bind_eq_ok.mp h
      have hread := hf hcall
      simp only at h
      split at h
      · cases h
        exact hread
      · obtain ⟨⟨s, rest, kv₂⟩, hloop, h⟩ := Exec.bind_eq_ok.mp h
        cases h
        exact hread.trans (ih hloop)

/-- The loop over the indexes only reads when each call does. -/
theorem overIndexes_reads
    {f : Nat → Index → KvStorage → Exec (Status × Index × KvStorage)}
    (hf : ∀ {id index kv s index' kv'}, f id index kv = .ok (s, index', kv') →
      OnlyRead kv kv')
    (h : table.overIndexes ho f kv = .ok (status, table', kv')) :
    OnlyRead kv kv' := by
  obtain ⟨⟨s, ies, kv₁⟩, hloop, h⟩ := Exec.bind_eq_ok.mp h
  have hread := forIndexes_reads hf hloop
  cases h
  exact hread

/-- Before the save an insert writes records only. -/
theorem insertCore_onlyRecords
    (h : table.insertCore env ho kv chunk = .ok (status, table', kv')) :
    OnlyRecords kv kv' := by
  obtain ⟨records, hrecords, h⟩ := Exec.bind_eq_ok.mp h
  obtain ⟨⟨s, kv₁⟩, hput, h⟩ := Exec.bind_eq_ok.mp h
  have hbatch : OnlyRecords kv kv₁ := by
    intro key hkey
    refine (mPutKV_elsewhere hput).2 key ?_
    rintro r hr rfl
    obtain ⟨colKeys, heq⟩ := encodeRecords_keys hrecords r hr
    exact hkey _ _ _ heq
  simp only at h
  split at h
  · cases h
    exact hbatch
  · exact hbatch.trans (.of_read
      (overIndexes_reads (fun hok => (Index.insert_reads hok).1) h))

/-- Before the save a delete writes records only. -/
theorem deleteCore_onlyRecords
    (h : table.deleteCore env ho kv chunk = .ok (status, table', kv')) :
    OnlyRecords kv kv' := by
  obtain ⟨⟨s, table₁, kv₁⟩, hloop, h⟩ := Exec.bind_eq_ok.mp h
  have hread := OnlyRecords.of_read
    (overIndexes_reads (fun hok => (Index.delete_reads hok).1) hloop)
  simp only at h
  split at h
  · cases h
    exact hread
  · obtain ⟨records, hrecords, h⟩ := Exec.bind_eq_ok.mp h
    have hdel : OnlyRecords kv₁ (kv₁.mDelKV (records.map Prod.fst)).2 := by
      intro key hkey
      refine (mDelKV_elsewhere _).2 key ?_
      intro hmem
      obtain ⟨r, hr, rfl⟩ := List.mem_map.mp hmem
      obtain ⟨colKeys, heq⟩ := encodeRecords_keys hrecords r hr
      exact hkey _ _ _ heq
    cases h
    exact hread.trans hdel

/-- The saves of `Submit`. -/
theorem RootsRead.submit (hk : Keyed info primary)
    (hr : RootsRead env info s.2)
    (h : Ready pb info primary desc (Keeps env pb info) s)
    (hfits : ∀ e ∈ s.1.colIndex, SavesFit env e.2.bptree)
    (hok : s.1.submit env ho s.2 = .ok (.ok, s')) :
    RootsRead env info s'.2 := by
  have heach : ∀ e ∈ s.1.colIndex,
      Each (fun id index kv => .ok (index.save env (ho.nodes id) kv))
        (RootsRead env info)
        (IndexAt info (Keeps env pb info) (rowKeys info primary desc s.2))
        (fun _ _ _ => True) e := by
    intro e he
    refine ⟨?_, ?_⟩
    · rintro kv index' kv' hr ⟨i, hi, -, hindex, ht⟩ hcall
      obtain ⟨-, -, -, -, -, hnodes⟩ :=
        hindex.save ht (hfits e he) (Except.ok.inj hcall)
      refine ⟨?_, trivial⟩
      intro j hj
      by_cases hid : j.id = i.id
      · rw [List.inj_on_of_nodup_map hk.ids hj hi hid]
        exact (hr i hi).save ht (hfits e he) (Except.ok.inj hcall)
      · exact (hr j hj).congr (hnodes j hid)
    · rintro kv index' kv' - ⟨i, hi, hid, hindex, ht⟩ hcall id hne index
      obtain ⟨hkv', -, -, -, -, hnodes⟩ :=
        hindex.save ht (hfits e he) (Except.ok.inj hcall)
      refine ⟨?_, fun _ => trivial⟩
      rintro ⟨j, hj, rfl, hindex', ht'⟩
      rw [hid] at hne
      exact ⟨j, hj, rfl, hindex', ht'.frame (hnodes j hne) hkv'⟩
  exact (overIndexes_each heach (h.nodup hk) hr h.indexes hok).1

/-- Every keeping step leaves roots that are read back. -/
theorem RootsRead.step (hk : Keyed info primary)
    (hr : RootsRead env info s.2)
    (hc : Consistent env pb info primary desc s)
    (hrec : Recorded pb info s.2) (hkv : s.2.Reliable)
    (hinfo : s.1.tableInfo = info)
    (hs : KeepingStep env pb info desc s op s') :
    RootsRead env info s'.2 := by
  obtain ⟨hkeeps, hadmitted, hok⟩ := hs
  cases op with
  | insert ho chunk =>
      obtain ⟨t, hload, u, hcore, hsubmit⟩ := @change_ok env s s' ho
        (fun table kv => table.insertCore env ho kv chunk) hok
      obtain ⟨hstore, ht⟩ := hc.loadMeta hk hload
      obtain ⟨hloops, hfits⟩ := hkeeps t hload
      have hrecords : encodeRecords t.1.tableInfo chunk.select
          = .ok (rowRecords info primary chunk.select) := by
        rw [ht.table]
        exact encodeRecords_eq hk hadmitted
      have hu := ht.keeps.insertCore hk hadmitted (hloops _ hrecords) hcore
      rw [← hstore] at hr
      exact RootsRead.submit hk (hr.records (insertCore_onlyRecords hcore)) hu
        (hfits _ hcore) hsubmit
  | delete ho chunk =>
      -- a delete leaves the roots to its save as well
      obtain ⟨t, hload, u, hcore, hsubmit⟩ := @change_ok env s s' ho
        (fun table kv => table.deleteCore env ho kv chunk) hok
      obtain ⟨hstore, ht⟩ := hc.loadMeta hk hload
      obtain ⟨hloops, hfits⟩ := hkeeps t hload
      have hrows : ∀ row ∈ chunk.select, RowOf info desc row
          ∧ RowStored info t.2 row := by
        rw [hstore]
        exact hadmitted
      have hu := ht.keeps.deleteCore hk hrows hloops hcore
      rw [← hstore] at hr
      exact RootsRead.submit hk (hr.records (deleteCore_onlyRecords hcore)) hu
        (hfits _ hcore) hsubmit
  | reopen =>
      -- a re-open writes nothing
      rw [call_reopen (by rw [hinfo]) (by rw [hinfo]) hrec (hkv.fails 0)] at hok
      cases hok
      exact hr

/-! ## A new object -/

/-- The loop of `loadMeta` returns. -/
theorem loadIndexes_returns {indexes : List IndexInfo} (hkv : kv.Reliable)
    (hr : ∀ i ∈ indexes, RootReads env info i kv)
    (hinfo : table.tableInfo = info) :
    ∃ table', loadIndexes env indexes table kv = .ok (table', kv) := by
  induction indexes generalizing table with
  | nil => exact ⟨table, rfl⟩
  | cons i indexes ih =>
      obtain ⟨hi, hrest⟩ := List.forall_mem_cons.mp hr
      obtain ⟨index, hnew⟩ := hi.new hkv
      obtain ⟨table', hload⟩ := @ih { table with
          colIndex := emplace table.colIndex i.id index
          rowIndex := if i.type = .primary then some i.id
            else table.rowIndex } hrest hinfo
      refine ⟨table', ?_⟩
      rw [← hinfo] at hnew
      rw [loadIndexes, hnew]
      exact hload

/-- `row_index` is the primary index. -/
theorem loadIndexes_rowIndex {indexes : List IndexInfo}
    (hunique : ∀ i ∈ indexes, i.type = .primary → i = primary)
    (hrow : ∀ id ∈ table.rowIndex, id = primary.id)
    (h : loadIndexes env indexes table kv = .ok (table', kv')) :
    ∀ id ∈ table'.rowIndex, id = primary.id := by
  induction indexes generalizing table kv with
  | nil =>
      cases h
      exact hrow
  | cons i indexes ih =>
      obtain ⟨hi, hrest⟩ := List.forall_mem_cons.mp hunique
      obtain ⟨⟨index, kv₁⟩, -, h⟩ := Exec.bind_eq_ok.mp h
      refine ih hrest ?_ h
      show ∀ id ∈ (if i.type = .primary then some i.id else table.rowIndex),
        id = primary.id
      intro id hid
      split at hid
      · case _ htype =>
          rw [← hi htype]
          exact (Option.some.inj hid).symm
      · exact hrow id hid

/-- Such a table can be closed and opened again. -/
theorem Consistent.closed (hk : Keyed info primary)
    (hc : Consistent env pb info primary desc s) :
    Closed env pb info primary desc ({ tableInfo := info }, s.2) := by
  rcases hc with hr | hcl
  · refine ⟨rfl, hr.store, ?_⟩
    intro i hi
    obtain ⟨e, he, hid⟩ := hr.exists_index hi
    exact ⟨_, (hr.index hk hi he hid).2⟩
  · exact ⟨rfl, hcl.store, hcl.trees⟩

/-- A new object over a store that keeps the indexes has all of them in
    memory. -/
theorem Consistent.opens (hk : Keyed info primary)
    (hc : Consistent env pb info primary desc s)
    (hr : RootsRead env info s.2) :
    ∃ table, Table.loadMeta env { tableInfo := info } s.2 = .ok (table, s.2)
      ∧ Ready pb info primary desc (Saved env pb info) (table, s.2)
      ∧ table.rowIndex = some primary.id := by
  have hclosed := hc.closed hk
  obtain ⟨table, hload⟩ := @loadIndexes_returns env info { tableInfo := info }
    s.2 info.indexList hclosed.store.reliable hr rfl
  have hload' : Table.loadMeta env { tableInfo := info } s.2
      = .ok (table, s.2) := hload
  obtain ⟨-, hready⟩ := hclosed.loadMeta hk hload'
  refine ⟨table, hload', hready, ?_⟩
  have hrow := loadIndexes_rowIndex hk.unique
    (by rintro id ⟨⟩) hload
  obtain ⟨id, hid⟩ := Option.isSome_iff_exists.mp hready.loaded
  have hid : table.rowIndex = some id := hid
  rw [hid, hrow id hid]

end Calls

section Runs

variable {env : Env} {pb : SchemaProtobuf} {info : TableInfo}
  {primary : IndexInfo} {desc : RowDescriptor} {kv : KvStorage} {s : State}
  {h : List Op}

/-- What holds after a run on a new table, also of what is stored. -/
theorem openable_of_run (hk : Keyed info primary) (hn : NewTable pb info kv)
    (hrun : Run (KeepingStep env pb info desc) ({ tableInfo := info }, kv) h
      s) :
    Consistent env pb info primary desc s ∧ RootsRead env info s.2 := by
  have hinv := hrun.preserves
    (I := fun s => Consistent env pb info primary desc s
      ∧ RootsRead env info s.2)
    ⟨Or.inr hn.closed, ?_⟩ ?_
  · exact hinv
  · intro i hi value hvalue
    rw [hn.roots i hi] at hvalue
    cases hvalue
  · rintro s op s' ⟨hc, hr⟩ hs
    have hstore := (hc.closed hk).store
    have hinfo : s.1.tableInfo = info := by
      rcases hc with hready | hcl
      · exact hready.table
      · rw [hcl.table]
    exact ⟨hc.step hk hs,
      hr.step hk hc hstore.recorded hstore.reliable hinfo hs⟩

/-- After any run of calls that keep what is stored, a new object can be opened
    on the store, and its indexes have the keys of just the stored rows. -/
theorem stored_indexes_open (hk : Keyed info primary)
    (hn : NewTable pb info kv)
    (hrun : Run (KeepingStep env pb info desc) ({ tableInfo := info }, kv) h
      s) :
    ∃ table, Table.loadMeta env { tableInfo := info } s.2 = .ok (table, s.2)
      ∧ IndexesAgree env info desc (table, s.2) := by
  obtain ⟨hc, hr⟩ := openable_of_run hk hn hrun
  obtain ⟨table, hload, hready, -⟩ := hc.opens hk hr
  exact ⟨table, hload, hready.indexesAgree hk⟩

/-- The table of scores is opened again. -/
theorem stored_indexes_open_scores :
    ∃ (s : State) (table : Table), RowStored scores s.2 (score 2 20)
      ∧ Table.loadMeta (.wire 1024) { tableInfo := scores } s.2
        = .ok (table, s.2)
      ∧ IndexesAgree (.wire 1024) scores scoresDesc (table, s.2) := by
  obtain ⟨s, hexec, hstored⟩ := @exists_of_computed _ _ _
    (twoObjects.foldlM (callKeeping 1024 .wire scores scoresDesc)
      ({ tableInfo := scores }, scoresStore))
    (fun s => decide (RowStored scores s.2 (score 2 20))) true
    (by decide +kernel)
  obtain ⟨table, hopened⟩ := stored_indexes_open keyed_scores newTable_scores
    (run_of_callKeeping hexec)
  exact ⟨s, table, of_decide_eq_true hstored, hopened⟩

end Runs

end Table

end AmDb.Storage
