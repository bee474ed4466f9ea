import AmDb.Foundation.Run
import AmDb.Storage.TableIndexes

/-! # Runs of table calls

    Calls on a table from its `CREATE TABLE` on, with new `Table` objects in
    between.  `Consistent` is what holds between calls: the indexes are in
    memory, each with the keys of the stored rows, or the store alone keeps
    them. -/

namespace AmDb.Storage

open Codec AmDb.Schema Chunk OrderedMap IndexedStore Bptree Session

namespace Table

/-! ## New table objects -/

/-- A table object that was not used yet, over a store that keeps its
    indexes. -/
structure Closed (env : Env) (pb : SchemaProtobuf) (info : TableInfo)
    (primary : IndexInfo) (desc : RowDescriptor) (s : State) : Prop where
  table : s.1 = { tableInfo := info }
  store : StoreOf pb info primary desc s.2
  trees : ∀ i ∈ info.indexList,
    ∃ t, Saved env pb info i t s.2 (rowKeys info primary desc s.2 i)

/-- What `CREATE TABLE` leaves: the description of the table is stored, neither
    a root nor a record of it is, and no call fails. -/
structure NewTable (pb : SchemaProtobuf) (info : TableInfo) (kv : KvStorage) :
    Prop where
  reliable : kv.Reliable
  recorded : ∃ value proto, kv.data (.tableId info.dbId info.id) = some value
    ∧ pb.table.parseFromString value = some proto ∧ info = .deserialize proto
  roots    : ∀ i ∈ info.indexList, kv.data (rootKey info i) = none
  records  : ∀ colKeys, kv.data (.dataKey info.dbId info.id colKeys) = none

section Opening

variable {env : Env} {pb : SchemaProtobuf} {info : TableInfo}
  {primary i : IndexInfo} {desc : RowDescriptor} {table table' : Table}
  {kv kv' : KvStorage} {index : Index} {t : Bptree} {S : Set Bytes}
  {s s' u : State} {T : IndexInfo → Bptree → KvStorage → Set Bytes → Prop}

/-- A saved index is opened with its keys and nothing is written. -/
theorem Saved.opened (h : Saved env pb info i t kv S)
    (hnew : Index.new env kv info i = .ok (index, kv')) :
    kv' = kv ∧ IndexOf info i index ∧ Saved env pb info i index.bptree kv S := by
  obtain ⟨p, cs, hd, hkeys, hunsaved, hc⟩ := h
  obtain ⟨rfl, cs', hd', hunsaved', hc', hflat⟩ := hd.opened hc hunsaved hnew
  refine ⟨rfl, ?_, p, cs', hd', by rw [hflat, hkeys], hunsaved', hc'⟩
  obtain ⟨⟨status, t', kv₁⟩, -, hok⟩ := Exec.bind_eq_ok.mp hnew
  cases hok
  exact ⟨rfl, rfl, rfl⟩

/-- Every index is opened with the keys that were saved. -/
theorem loadIndexes_opened {indexes : List IndexInfo}
    {K : IndexInfo → Set Bytes}
    (htrees : ∀ i ∈ indexes, i ∈ info.indexList
      ∧ ∃ t, Saved env pb info i t kv (K i))
    (hinfo : table.tableInfo = info)
    (hids : (table.colIndex.map Prod.fst ++ indexes.map IndexInfo.id).Nodup)
    (hat : ∀ e ∈ table.colIndex,
      IndexAt info (Saved env pb info) K e.1 e.2 kv)
    (h : loadIndexes env indexes table kv = .ok (table', kv')) :
    kv' = kv ∧ table'.tableInfo = info
      ∧ table'.colIndex.map Prod.fst
        = table.colIndex.map Prod.fst ++ indexes.map IndexInfo.id
      ∧ (∀ e ∈ table'.colIndex,
        IndexAt info (Saved env pb info) K e.1 e.2 kv)
      ∧ (table.rowIndex.isSome ∨ (∃ i ∈ indexes, i.type = .primary) →
        table'.rowIndex.isSome) := by
  induction indexes generalizing table with
  | nil =>
      cases h
      refine ⟨rfl, hinfo, by simp, hat, ?_⟩
      rintro (h | ⟨i, hi, -⟩)
      · exact h
      · exact absurd hi List.not_mem_nil
  | cons i indexes ih =>
      obtain ⟨⟨hi, t, ht⟩, hrest⟩ := List.forall_mem_cons.mp htrees
      obtain ⟨⟨index, kv₁⟩, hnew, hload⟩ := Exec.bind_eq_ok.mp h
      rw [hinfo] at hnew
      obtain ⟨rfl, hindex, hs⟩ := ht.opened hnew
      -- ids are different, so `emplace` adds the index at the end
      have hnot : i.id ∉ table.colIndex.map Prod.fst := by
        intro hmem
        exact (List.nodup_append.mp hids).2.2 _ hmem _ List.mem_cons_self rfl
      have hemplace : emplace table.colIndex i.id index
          = table.colIndex ++ [(i.id, index)] := by
        rw [emplace, if_neg hnot]
      obtain ⟨rfl, hinfo', hmap, hat', hrow⟩ := @ih { table with
          colIndex := emplace table.colIndex i.id index
          rowIndex := if i.type = .primary then some i.id else table.rowIndex }
        hrest hinfo (by
          rw [hemplace, List.map_append, List.append_assoc]
          exact hids) (by
          intro e he
          rw [hemplace] at he
          rcases List.mem_append.mp he with he | he
          · exact hat e he
          · rw [List.mem_singleton.mp he]
            exact ⟨i, hi, rfl, hindex, hs⟩) hload
      refine ⟨rfl, hinfo', ?_, hat', ?_⟩
      · rw [hmap, hemplace, List.map_append, List.append_assoc]
        rfl
      · intro h
        refine hrow ?_
        -- the row index is set by a primary index, this one or one to come
        by_cases htype : i.type = .primary
        · exact Or.inl (by rw [if_pos htype]; rfl)
        · rw [if_neg htype]
          refine h.imp id ?_
          rintro ⟨j, hj, hjt⟩
          rcases List.mem_cons.mp hj with rfl | hj
          · exact absurd hjt htype
          · exact ⟨j, hj, hjt⟩

/-- `Prepare` of a new object. -/
theorem Closed.loadMeta (hk : Keyed info primary)
    (h : Closed env pb info primary desc s)
    (hload : s.1.loadMeta env s.2 = .ok u) :
    u.2 = s.2 ∧ Ready pb info primary desc (Saved env pb info) u := by
  obtain ⟨table, kv⟩ := s
  obtain rfl : table = { tableInfo := info } := h.table
  have hload : loadIndexes env info.indexList { tableInfo := info } kv
      = .ok (u.1, u.2) := hload
  obtain ⟨hkv, hinfo, hmap, hat, hrow⟩ := @loadIndexes_opened env pb info
    { tableInfo := info } u.1 kv u.2 info.indexList
    (rowKeys info primary desc kv) (fun i hi => ⟨hi, h.trees i hi⟩) rfl hk.ids
    (fun e he => absurd he List.not_mem_nil) hload
  refine ⟨hkv, hinfo, hrow (Or.inr ⟨primary, hk.primary_mem, hk.isPrimary⟩), ?_,
    ?_, ?_⟩
  · rw [hmap]
    exact .refl _
  · rw [hkv]
    exact h.store
  · rw [hkv]
    exact hat

/-- A new object of a table whose indexes are saved. -/
theorem closed_of_reopen (hinfo : s.1.tableInfo = info)
    (hs : StoreOf pb info primary desc s.2)
    (htrees : ∀ i ∈ info.indexList,
      ∃ t, Saved env pb info i t s.2 (rowKeys info primary desc s.2 i))
    (hok : call env pb s .reopen = .ok (.ok, s')) :
    Closed env pb info primary desc s' := by
  obtain ⟨value, proto, hvalue, hproto, hdes⟩ := hs.recorded
  have htick : s.2.tick = (false, s.2) := KvStorage.tick_reliable hs.reliable
  have hmeta := @loadTableMeta_read pb ⟨info.dbId, info.id, 0⟩ s.2 value proto
    (by rw [htick]) hvalue hproto
  rw [htick] at hmeta
  rw [call, hinfo] at hok
  simp only [hmeta, ← hdes] at hok
  cases hok
  exact ⟨rfl, hs, htrees⟩

/-- A saved table is closed by a new session. -/
theorem Ready.reopen (hk : Keyed info primary)
    (h : Ready pb info primary desc (Saved env pb info) s)
    (hok : call env pb s .reopen = .ok (.ok, s')) :
    Closed env pb info primary desc s' := by
  refine closed_of_reopen h.table h.store ?_ hok
  intro i hi
  obtain ⟨e, he, hid⟩ := h.exists_index hi
  exact ⟨_, (h.index hk hi he hid).2⟩

/-- The indexes of a new table are empty. -/
theorem NewTable.closed (hn : NewTable pb info kv) :
    Closed env pb info primary desc ({ tableInfo := info }, kv) := by
  obtain ⟨value, proto, hvalue, hproto, hdes⟩ := hn.recorded
  have hnone : ∀ row, RowOf info desc row →
      kv.data ((recordLayout info primary).key row) = none :=
    fun _ _ => hn.records _
  refine ⟨rfl, ⟨hn.reliable, hn.recorded, sourced_empty hnone⟩, ?_⟩
  intro i hi
  obtain ⟨pos, hpos⟩ := List.mem_iff_getElem?.mp hi
  have hd : Described pb ⟨info.dbId, info.id, pos⟩ kv info i :=
    ⟨value, proto, hvalue, hproto, hdes, hpos⟩
  refine ⟨Index.emptyTree info i, _, [],
    durable_empty hd hn.reliable (hn.roots i hi), ?_, rfl, ?_⟩
  · rw [rowKeys_eq (agrees_empty hnone)]
    exact keys_nil
  · exact fun q hq => absurd hq List.not_mem_nil

end Opening

/-! ## Runs -/

section Runs

variable {env : Env} {pb : SchemaProtobuf} {info : TableInfo}
  {primary : IndexInfo} {desc : RowDescriptor} {kv : KvStorage}
  {s s' t : State} {op : Op} {h : List Op}

/-- A call that returned `C_OK`, taken apart. -/
theorem change_ok {ho : HashOrder}
    {core : Table → KvStorage → Exec (Status × State)}
    (hok : s.1.change env ho core s.2 = .ok (.ok, s')) :
    ∃ t : State, s.1.loadMeta env s.2 = .ok t
      ∧ ∃ u : State, core t.1 t.2 = .ok (.ok, u)
        ∧ u.1.submit env ho u.2 = .ok (.ok, s') := by
  obtain ⟨t, hload, hok⟩ := Exec.bind_eq_ok.mp hok
  obtain ⟨⟨status, u⟩, hcore, hok⟩ := Exec.bind_eq_ok.mp hok
  by_cases hst : status = .ok
  · subst hst
    exact ⟨t, hload, u, hcore, hok⟩
  · simp only at hok
    rw [if_pos hst] at hok
    exact absurd (Prod.mk.inj (Except.ok.inj hok)).1 hst

/-- What holds between calls. -/
def Consistent (env : Env) (pb : SchemaProtobuf) (info : TableInfo)
    (primary : IndexInfo) (desc : RowDescriptor) (s : State) : Prop :=
  Ready pb info primary desc (Saved env pb info) s
    ∨ Closed env pb info primary desc s

/-- `Prepare` has every index in memory. -/
theorem Consistent.loadMeta (hk : Keyed info primary)
    (hc : Consistent env pb info primary desc s)
    (hload : s.1.loadMeta env s.2 = .ok t) :
    t.2 = s.2 ∧ Ready pb info primary desc (Saved env pb info) t := by
  rcases hc with hr | hcl
  · rw [hr.loadMeta] at hload
    cases hload
    exact ⟨rfl, hr⟩
  · exact hcl.loadMeta hk hload

/-- A call that keeps what is stored leaves every index in memory. -/
theorem Consistent.called (hk : Keyed info primary)
    (hc : Consistent env pb info primary desc s)
    (hs : KeepingStep env pb info desc s op s') (hop : op ≠ .reopen) :
    Ready pb info primary desc (Saved env pb info) s' := by
  obtain ⟨hkeeps, hadmitted, hok⟩ := hs
  cases op with
  | insert ho chunk =>
      obtain ⟨t, hload, u, hcore, hsubmit⟩ := @change_ok env s s' ho
        (fun table kv => table.insertCore env ho kv chunk) hok
      obtain ⟨-, ht⟩ := hc.loadMeta hk hload
      obtain ⟨hloops, hfits⟩ := hkeeps t hload
      have hrecords : encodeRecords t.1.tableInfo chunk.select
          = .ok (rowRecords info primary chunk.select) := by
        rw [ht.table]
        exact encodeRecords_eq hk hadmitted
      exact (ht.keeps.insertCore hk hadmitted (hloops _ hrecords) hcore).submit
        hk (hfits _ hcore) hsubmit
  | delete ho chunk =>
      obtain ⟨t, hload, u, hcore, hsubmit⟩ := @change_ok env s s' ho
        (fun table kv => table.deleteCore env ho kv chunk) hok
      obtain ⟨hstore, ht⟩ := hc.loadMeta hk hload
      obtain ⟨hloops, hfits⟩ := hkeeps t hload
      have hrows : ∀ row ∈ chunk.select, RowOf info desc row
          ∧ RowStored info t.2 row := by
        rw [hstore]
        exact hadmitted
      exact (ht.keeps.deleteCore hk hrows hloops hcore).submit hk
        (hfits _ hcore) hsubmit
  | reopen => exact absurd rfl hop

/-- A keeping step leaves the table consistent. -/
theorem Consistent.step (hk : Keyed info primary)
    (hc : Consistent env pb info primary desc s)
    (hs : KeepingStep env pb info desc s op s') :
    Consistent env pb info primary desc s' := by
  by_cases hop : op = .reopen
  · subst hop
    obtain ⟨-, -, hok⟩ := hs
    rcases hc with hr | hcl
    · exact Or.inr (hr.reopen hk hok)
    · refine Or.inr (closed_of_reopen ?_ hcl.store hcl.trees hok)
      rw [hcl.table]
  · exact Or.inl (hc.called hk hs hop)

/-- The indexes of a saved table agree with the stored rows. -/
theorem Ready.indexesAgree (hk : Keyed info primary)
    (hr : Ready pb info primary desc (Saved env pb info) s) :
    IndexesAgree env info desc s := by
  refine ⟨hr.ids, ?_⟩
  intro i hi index hmem k
  obtain ⟨-, hs⟩ := hr.index hk hi hmem rfl
  rw [hs.keeps.treeKeys_eq]
  refine exists_congr (fun row => and_congr_right (fun hrow => ?_))
  rw [rowStored_iff hk hrow, encodeIndex_eq hk.hasPrimary (hrow.hasKey hk hi),
    Except.ok.injEq, Prod.mk.injEq]
  simp only [and_true]
  rfl

/-- After every call of a run that started on a new table, also with new table
    objects in between, each index has the keys of just the stored rows. -/
theorem indexes_hold_stored_rows (hk : Keyed info primary)
    (hn : NewTable pb info kv)
    (hrun : Run (KeepingStep env pb info desc) ({ tableInfo := info }, kv)
      (h ++ [op]) s)
    (hop : op ≠ .reopen) : IndexesAgree env info desc s := by
  have hinv := hrun.invariant (I := fun h s =>
    Consistent env pb info primary desc s ∧ ∀ h' op, h = h' ++ [op] →
      op ≠ .reopen → Ready pb info primary desc (Saved env pb info) s) ?_ ?_
  · exact (hinv.2 h op rfl hop).indexesAgree hk
  · refine ⟨Or.inr hn.closed, ?_⟩
    intro h' op heq
    exact absurd heq (by simp)
  · intro h s op s' ih hs
    refine ⟨ih.1.step hk hs, ?_⟩
    intro h' op' heq hop'
    obtain ⟨-, rfl⟩ := List.append_singleton_inj.mp heq
    exact ih.1.called hk hs hop'

end Runs

/-! ## A table of scores -/

instance (limit : Nat) (kv : KvStorage)
    (calls : List (Bytes × Bytes) → List TreeOp) (readAll : Bool)
    (rows : List Row) (index : Index) :
    Decidable (KeepsLoop (.wire limit) kv calls readAll rows index) :=
  decidableForallOk

instance (limit : Nat) (r : Exec (Status × State)) :
    Decidable (SubmitFits (.wire limit) r) :=
  decidableForallOk

instance (limit : Nat) (s : State) (op : Op) :
    Decidable (KeepsFor (.wire limit) s op) :=
  match op with
  | .insert ho chunk =>
      haveI : DecidablePred (fun t : State =>
          (∀ records, encodeRecords t.1.tableInfo chunk.select = .ok records →
            ∀ e ∈ t.1.colIndex, KeepsLoop (.wire limit) (stored t.2 records)
              Index.inserts true chunk.select e.2)
          ∧ SubmitFits (.wire limit)
            (t.1.insertCore (.wire limit) ho t.2 chunk)) :=
        fun _ => @instDecidableAnd _ _ decidableForallOk inferInstance
      inferInstanceAs (Decidable (∀ t, s.1.loadMeta (.wire limit) s.2 = .ok t →
        (∀ records, encodeRecords t.1.tableInfo chunk.select = .ok records →
          ∀ e ∈ t.1.colIndex, KeepsLoop (.wire limit) (stored t.2 records)
            Index.inserts true chunk.select e.2)
        ∧ SubmitFits (.wire limit) (t.1.insertCore (.wire limit) ho t.2 chunk)))
  | .delete ho chunk =>
      inferInstanceAs (Decidable (∀ t, s.1.loadMeta (.wire limit) s.2 = .ok t →
        (∀ e ∈ t.1.colIndex, KeepsLoop (.wire limit) t.2 Index.deletes false
          chunk.select e.2)
        ∧ SubmitFits (.wire limit) (t.1.deleteCore (.wire limit) ho t.2 chunk)))
  | .reopen => isTrue trivial

instance (info : TableInfo) (kv : KvStorage) (row : Row) :
    Decidable (RowStored info kv row) :=
  decidable_of_iff ((encodeRecord info row).toOption.any
      (fun r => kv.data r.1 = some r.2) = true) (by
    rw [RowStored]
    cases encodeRecord info row with
    | error e => simp [Except.toOption]
    | ok r => simp [Except.toOption, Prod.ext_iff])

instance (info : TableInfo) (desc : RowDescriptor) (s : State) (op : Op) :
    Decidable (Admitted info desc s op) :=
  match op with
  | .insert _ _ => inferInstanceAs (Decidable (∀ row ∈ _, RowOf info desc row))
  | .delete _ _ => inferInstanceAs (Decidable (∀ row ∈ _, RowOf info desc row
      ∧ RowStored info s.2 row))
  | .reopen => isTrue trivial

/-- A call that does not count unless it returns `C_OK`. -/
def callOk (env : Env) (pb : SchemaProtobuf) (info : TableInfo)
    (desc : RowDescriptor) (s : State) (op : Op) : Exec State := do
  let r ← call env pb s op
  if Admitted info desc s op ∧ r.1 = .ok then return r.2
  else .error .assertion

/-- The same for one that is not made unless it keeps what is stored. -/
def callKeeping (limit : Nat) (pb : SchemaProtobuf) (info : TableInfo)
    (desc : RowDescriptor) (s : State) (op : Op) : Exec State :=
  if KeepsFor (.wire limit) s op then callOk (.wire limit) pb info desc s op
  else .error .assertion

section Scores

variable {env : Env} {limit : Nat} {pb : SchemaProtobuf} {info : TableInfo}
  {desc : RowDescriptor} {s s' : State} {op : Op} {ops : List Op}

/-- A call that returns `C_OK` is a step. -/
theorem step_of_callOk (h : callOk env pb info desc s op = .ok s') :
    Step env pb info desc s op s' := by
  obtain ⟨⟨status, t⟩, hcall, h⟩ := Exec.bind_eq_ok.mp h
  simp only at h
  split_ifs at h with hok
  obtain ⟨hadmitted, rfl⟩ := hok
  cases h
  exact ⟨hadmitted, hcall⟩

theorem run_of_callOk (hexec : ops.foldlM (callOk env pb info desc) s = .ok s') :
    Run (Step env pb info desc) s ops s' := by
  refine run_of_foldlM ?_ hexec
  intro s op s' h
  exact step_of_callOk h

/-- Calls that keep what is stored are a keeping run. -/
theorem run_of_callKeeping
    (hexec : ops.foldlM (callKeeping limit pb info desc) s = .ok s') :
    Run (KeepingStep (.wire limit) pb info desc) s ops s' := by
  refine run_of_foldlM ?_ hexec
  intro s op s' h
  rw [callKeeping] at h
  split_ifs at h with hk
  exact ⟨hk, step_of_callOk h⟩

def playerColumn : ColumnInfo := { id := 0, name := [97] }

def pointsColumn : ColumnInfo := { id := 1, name := [98] }

def scoresByPlayer : IndexInfo :=
  { id := 0, columns := [playerColumn], type := .primary }

def scoresByPoints : IndexInfo :=
  { id := 1, columns := [pointsColumn], type := .index }

/-- A table with a secondary index, as it is loaded. -/
def scores : TableInfo :=
  { id := 7, dbId := 1, columnList := [playerColumn, pointsColumn],
    indexList := [scoresByPlayer, scoresByPoints], primaryIndex := some 0 }

/-- A row of `scores`. -/
def score (player points : BitVec 64) : Row :=
  .ofValues [.int64 player, .int64 points] (by simp [Expr.ExprValue.Bounded])

def scoresDesc : RowDescriptor := (score 0 0).desc

/-- The store after `CREATE TABLE`. -/
def scoresStore : KvStorage :=
  KvStorage.empty.written (.tableId 1 7)
    (SchemaProtobuf.wire.table.serializeAsString scores.serialize)

theorem keyed_scores : Keyed scores scoresByPlayer where
  hasPrimary := rfl
  isPrimary := rfl
  unique := by decide
  ids := by decide
  columns := by decide

theorem newTable_scores : NewTable .wire scores scoresStore where
  reliable := KvStorage.reliable_empty
  recorded := ⟨_, scores.serialize, KvStorage.written_data_self ..,
    SchemaProtobuf.wire.table.parse_serialize _ trivial, by decide⟩
  roots := by
    intro i _
    exact KvStorage.written_data_of_ne _ _ (by simp [rootKey])
  records := by
    intro colKeys
    exact KvStorage.written_data_of_ne _ _ (by simp)

/-- Three rows are inserted; a second object deletes one of them and inserts
    another. -/
def twoObjects : List Op :=
  [.insert .inOrder { select := [score 1 30, score 2 20, score 3 20] }, .reopen,
    .delete .inOrder { select := [score 1 30] }]

def lastInsert : Op := .insert .inOrder { select := [score 4 20] }

theorem indexes_hold_stored_rows_scores :
    ∃ s, Run (KeepingStep (.wire 1024) .wire scores scoresDesc)
        ({ tableInfo := scores }, scoresStore) (twoObjects ++ [lastInsert]) s
      ∧ RowStored scores s.2 (score 4 20) ∧ ¬ RowStored scores s.2 (score 1 30)
      ∧ IndexesAgree (.wire 1024) scores scoresDesc s := by
  obtain ⟨s, hexec, hview⟩ := @exists_of_computed _ _ _
    ((twoObjects ++ [lastInsert]).foldlM
      (callKeeping 1024 .wire scores scoresDesc)
      ({ tableInfo := scores }, scoresStore))
    (fun s => (decide (RowStored scores s.2 (score 4 20)),
      decide (RowStored scores s.2 (score 1 30))))
    (true, false) (by decide +kernel)
  obtain ⟨hstored, hremoved⟩ := Prod.mk.inj hview
  have hrun := run_of_callKeeping hexec
  exact ⟨s, hrun, of_decide_eq_true hstored, of_decide_eq_false hremoved,
    indexes_hold_stored_rows keyed_scores newTable_scores hrun (by rintro ⟨⟩)⟩

/-- Two rows of one leaf are deleted: the second `Delete` reads the leaf again
    and the first key is back. -/
def twoOfThree : List Op :=
  [.insert .inOrder { select := [score 1 30, score 2 20, score 3 20] },
    .delete .inOrder { select := [score 1 30, score 2 20] }]

/-- The key of the row is in a leaf of the primary index. -/
def InLeaf (index : Index) (row : Row) : Prop :=
  ∃ a ∈ (index.bptree.node index.bptree.root).children,
    keyOf scoresByPlayer scoresByPlayer row ∈ (index.bptree.node a).kvs

instance (index : Index) (row : Row) : Decidable (InLeaf index row) :=
  inferInstanceAs (Decidable (∃ a ∈ _, _))

/-- The row is deleted, its key stays. -/
theorem deleted_row_stays_in_index :
    ∃ s, Run (Step (.wire 1024) .wire scores scoresDesc)
        ({ tableInfo := scores }, scoresStore) twoOfThree s
      ∧ ¬ IndexesAgree (.wire 1024) scores scoresDesc s := by
  obtain ⟨s, hexec, hview⟩ := @exists_of_computed _ _ _
    (twoOfThree.foldlM (callOk (.wire 1024) .wire scores scoresDesc)
      ({ tableInfo := scores }, scoresStore))
    (fun s => (s.1.colIndex.map Prod.fst,
      s.1.colIndex.head?.map (fun e => decide (InLeaf e.2 (score 1 30))),
      s.2.data ((recordLayout scores scoresByPlayer).key (score 1 30))))
    ([0, 1], some true, none) (by decide +kernel)
  obtain ⟨hids, hview⟩ := Prod.mk.inj hview
  obtain ⟨hkey, hdata⟩ := Prod.mk.inj hview
  refine ⟨s, run_of_callOk hexec, ?_⟩
  intro hagree
  obtain ⟨⟨id, index⟩, hhead, hmem⟩ := Option.map_eq_some_iff.mp hkey
  have hin := List.mem_of_mem_head? hhead
  have hid : id = 0 := by
    have hfirst := congrArg List.head? hids
    rw [List.head?_map, hhead] at hfirst
    exact Option.some.inj hfirst
  subst hid
  obtain ⟨a, ha, hleaf⟩ : InLeaf index (score 1 30) := of_decide_eq_true hmem
  have hi : scoresByPlayer ∈ scores.indexList := List.mem_cons_self
  obtain ⟨row, hrow, hstored, hcode⟩ :=
    (hagree.keys scoresByPlayer hi index hin (keyOf scoresByPlayer
      scoresByPlayer (score 1 30))).mp ⟨a, ha, Or.inl hleaf⟩
  have hscore : RowOf scores scoresDesc (score 1 30) := by decide
  rw [encodeIndex_eq keyed_scores.hasPrimary (hrow.hasKey keyed_scores hi),
    Except.ok.injEq, Prod.mk.injEq] at hcode
  have hsame := (coding_keyColumns keyed_scores hi).toKey _ _ hrow hscore
    hcode.1
  have hrecord := (rowStored_iff keyed_scores hrow).mp hstored
  rw [Stored, hsame, hdata] at hrecord
  cases hrecord

end Scores

end Table

end AmDb.Storage
