import AmDb.Executor.InsertStatus
import AmDb.Storage.TableOpening
import AmDb.Storage.TableSharing

/-! # A table in the store

    What a statement finds of a table, and leaves: its description, its records
    and indexes that can be opened.  Only these keys of the store count, so
    every other statement leaves the table as it is. -/

namespace AmDb.Storage

open Codec AmDb.Schema Chunk OrderedMap IndexedStore Bptree Session

/-- The table's keys and its description are the same. -/
structure SamePart (info : TableInfo) (kv kv' : KvStorage) : Prop where
  own       : ∀ key, OwnKey info key → kv'.data key = kv.data key
  described : kv'.data (.tableId info.dbId info.id)
    = kv.data (.tableId info.dbId info.id)

section Part

variable {env : Env} {pb : SchemaProtobuf} {info : TableInfo}
  {i primary : IndexInfo} {desc : RowDescriptor} {t : Bptree}
  {kv kv' : KvStorage} {cs : Contents} {p p' : Place} {S : Set Bytes}
  {rows rows' : List Row} {row : Row}

/-- A table's part of the store holds its nodes. -/
theorem SamePart.stored (hs : SamePart info kv kv')
    (hschema : t.treeCtx.schema = treeSchema info i) (a : Addr) :
    t.stored kv' a = t.stored kv a := by
  rw [Bptree.stored, Bptree.stored, nodeKey, hschema]
  exact hs.own _ ⟨rfl, rfl⟩

/-- A tree of a table, wherever the table is described. -/
theorem SamePart.durable (hs : SamePart info kv kv')
    (h : Durable env pb p info i (t, kv) cs)
    (hd : Described pb p' kv' info i) (hkv : kv'.Reliable) :
    Durable env pb p' info i (t, kv') cs := by
  have hschema : t.treeCtx.schema = treeSchema info i := h.intact.schema
  have hstored := hs.stored hschema
  have hroot : kv'.data (rootKey info i) = kv.data (rootKey info i) :=
    hs.own _ ⟨rfl, rfl⟩
  have hrefs : openedRefs env kv' info i = openedRefs env kv info i := by
    rw [openedRefs, openedRefs, hroot]
  have hw : WellFormed env t kv cs := h.wellFormed
  refine ⟨⟨h.intact.tree, hschema, h.intact.rootId, hd, ?_⟩, ?_, h.apart, hkv,
    ?_, ?_⟩
  · intro input hinput
    exact h.intact.refs input (hroot.symm.trans hinput)
  · refine ⟨hw.linked, ?_, hw.ascending, hw.rootSize⟩
    intro q hq
    have hh := hw.leaves q hq
    refine ⟨hh.kvs.imp id ?_, hh.write, hh.min, hh.max⟩
    rintro ⟨hnil, bytes, hcopy, hes⟩
    exact ⟨hnil, bytes, (hstored q.1).trans hcopy, hes⟩
  · intro q hq
    rw [hstored]
    exact h.copies q hq
  · rw [hrefs]
    exact h.root

/-- A table's part of the store holds its saved indexes. -/
theorem SamePart.saved (hs : SamePart info kv kv')
    (h : Table.Saved env pb info i t kv S) (hd : Described pb p' kv' info i)
    (hkv : kv'.Reliable) : Table.Saved env pb info i t kv' S := by
  obtain ⟨p, cs, h, hkeys, hunsaved, hc⟩ := h
  refine ⟨p', cs, hs.durable h hd hkv, hkeys, hunsaved, ?_⟩
  intro q hq
  rw [hs.stored h.intact.schema]
  exact hc q hq

theorem SamePart.recorded (hs : SamePart info kv kv')
    (h : Table.Recorded pb info kv) : Table.Recorded pb info kv' := by
  obtain ⟨value, proto, hvalue, hproto⟩ := h
  exact ⟨value, proto, hs.described.trans hvalue, hproto⟩

theorem SamePart.record (hs : SamePart info kv kv') (row : Row) :
    kv'.data ((recordLayout info primary).key row)
      = kv.data ((recordLayout info primary).key row) :=
  hs.own _ ⟨rfl, rfl⟩

/-- A table's part of the store tells which rows are stored. -/
theorem SamePart.rowStored (hs : SamePart info kv kv') {row : Row} :
    RowStored info kv' row ↔ RowStored info kv row := by
  refine exists₂_congr (fun key value => and_congr_right (fun henc => ?_))
  obtain ⟨colKeys, heq⟩ := Table.encodeRecord_key henc
  have hkey : key = .dataKey info.dbId info.id colKeys := heq
  rw [hs.own key (by rw [hkey]; exact ⟨rfl, rfl⟩)]

namespace Table

/-- A table that a new object can be opened on. -/
structure Openable (env : Env) (pb : SchemaProtobuf) (info : TableInfo)
    (primary : IndexInfo) (kv : KvStorage) : Prop where
  closed : Closed env pb info primary (toRowDesc info)
    ({ tableInfo := info }, kv)
  roots  : RootsRead env info kv

theorem Openable.recorded (h : Openable env pb info primary kv) :
    Recorded pb info kv := h.closed.store.recorded

/-- It can be opened in every store with its part. -/
theorem Openable.part (h : Openable env pb info primary kv)
    (hs : SamePart info kv kv') (hkv : kv'.Reliable) :
    Openable env pb info primary kv' := by
  have hrec := hs.recorded h.recorded
  refine ⟨⟨rfl, ⟨hkv, hrec, ?_⟩, ?_⟩, ?_⟩
  · exact h.closed.store.sourced.congr (fun row _ => hs.record row)
  · intro i hi
    obtain ⟨t, ht⟩ := h.closed.trees i hi
    obtain ⟨value, proto, hvalue, hproto, hinfo⟩ := hrec
    obtain ⟨pos, hpos⟩ := List.mem_iff_getElem?.mp hi
    have hd : Described pb ⟨info.dbId, info.id, pos⟩ kv' info i :=
      ⟨value, proto, hvalue, hproto, hinfo, hpos⟩
    refine ⟨t, ?_⟩
    have hkeys : rowKeys info primary (toRowDesc info) kv' i
        = rowKeys info primary (toRowDesc info) kv i :=
      rowKeys_eq (agrees_rowKeys.congr (fun row _ => hs.record row))
    show Saved env pb info i t kv'
      (rowKeys info primary (toRowDesc info) kv' i)
    rw [hkeys]
    exact hs.saved ht hd hkv
  · intro i hi value hvalue
    have hroot : kv'.data (rootKey info i) = kv.data (rootKey info i) :=
      hs.own _ ⟨rfl, rfl⟩
    exact h.roots i hi value (hroot.symm.trans hvalue)

/-- A new table can be opened. -/
theorem NewTable.openable (hn : NewTable pb info kv) :
    Openable env pb info primary kv := by
  refine ⟨hn.closed, ?_⟩
  intro i hi value hvalue
  rw [hn.roots i hi] at hvalue
  cases hvalue

/-- After a batch of new rows they are there beside the old ones. -/
theorem rowStored_batch (hk : Keyed info primary)
    (hrows : ∀ row ∈ rows, RowOf info desc row) (hnew : NewRows info kv rows)
    (hsame : SameRecords (Table.stored kv (rowRecords info primary rows)) kv')
    (hrow : RowOf info desc row) :
    RowStored info kv' row ↔ RowStored info kv row
      ∨ ∃ row' ∈ rows, encodeRecord info row' = encodeRecord info row := by
  obtain ⟨hnodup, hnone⟩ := (newRows_iff hk hrows).mp hnew
  have hstored : Stored (recordLayout info primary) kv'.data row
      ↔ Stored (recordLayout info primary) (KvStorage.writeBatch kv.data
        (rowRecords info primary rows)) row := by
    rw [Stored, Stored]
    exact iff_of_eq (congrArg (· = _) (hsame _ _ _))
  rw [rowStored_iff hk hrow, hstored, (puts_writeBatch hnodup).stored_iff hnone,
    rowStored_iff hk hrow]
  refine or_congr_right (exists_congr (fun row' => ?_))
  refine and_congr_right (fun hr => ?_)
  rw [encodeRecord_eq hk (hrows row' hr), encodeRecord_eq hk hrow]
  simp only [Except.ok.injEq, Prod.mk.injEq]

/-- Rows that were new beside those of the batch still are. -/
theorem NewRows.after (hk : Keyed info primary)
    (hrows : ∀ row ∈ rows ++ rows', RowOf info desc row)
    (hnew : NewRows info kv (rows ++ rows'))
    (hsame : SameRecords (Table.stored kv (rowRecords info primary rows)) kv') :
    NewRows info kv rows ∧ NewRows info kv' rows' := by
  obtain ⟨hleft, hright⟩ := List.forall_mem_append.mp hrows
  obtain ⟨hnodup, hnone⟩ := (newRows_iff hk hrows).mp hnew
  rw [List.map_append, List.nodup_append] at hnodup
  obtain ⟨hnd, hnd', hne⟩ := hnodup
  obtain ⟨hnone, hnone'⟩ := List.forall_mem_append.mp hnone
  refine ⟨(newRows_iff hk hleft).mpr ⟨hnd, hnone⟩,
    (newRows_iff hk hright).mpr ⟨hnd', ?_⟩⟩
  intro row hrow
  refine (hsame _ _ _).trans ((KvStorage.writeBatch_of_ne ?_).trans
    (hnone' row hrow))
  intro e he
  obtain ⟨row', hrow', rfl⟩ := List.mem_map.mp he
  exact hne _ (List.mem_map_of_mem hrow') _ (List.mem_map_of_mem hrow)

/-- An insert of new rows on a new object: the rows are there beside the old
    ones, and the table can be opened again. -/
theorem Openable.insert (hk : Keyed info primary)
    (h : Openable env pb info primary kv) {ho : HashOrder} {chunk : Chunk}
    {status : Status} {table' : Table}
    (hrows : ∀ row ∈ chunk.select, RowOf info (toRowDesc info) row)
    (hnew : NewRows info kv chunk.select)
    (hkeeps : KeepsFor env ({ tableInfo := info }, kv) (.insert ho chunk))
    (hok : Table.insert env ho { tableInfo := info } kv chunk
      = .ok (status, table', kv')) :
    status = .ok ∧ Openable env pb info primary kv' ∧ OnlyOwn info kv kv'
      ∧ ∀ row, RowOf info (toRowDesc info) row → (RowStored info kv' row
        ↔ RowStored info kv row ∨ ∃ row' ∈ chunk.select,
          encodeRecord info row' = encodeRecord info row) := by
  have hc : Consistent env pb info primary (toRowDesc info)
      ({ tableInfo := info }, kv) := Or.inr h.closed
  obtain rfl : status = .ok := by
    rcases hc.insert_status hk hrows hkeeps hok with ⟨hst, -⟩ | ⟨-, hold⟩
    · exact hst
    · exact absurd hnew hold
  have hs : KeepingStep env pb info (toRowDesc info)
      ({ tableInfo := info }, kv) (.insert ho chunk) (table', kv') :=
    ⟨hkeeps, hrows, hok⟩
  have hown : Own info ({ tableInfo := info } : Table) := own_new info
  -- a keeping insert writes own keys and leaves roots to be read back
  have honly := (hown.step h.recorded
    (hs.returned h.closed.store.reliable)).2
  have hroots := h.roots.step hk hc h.recorded h.closed.store.reliable rfl hs
  refine ⟨rfl, ⟨(hc.step hk hs).closed hk, hroots⟩, honly, ?_⟩
  intro row hrow
  obtain ⟨records, hrecords, hsame⟩ := insert_records hok
  cases (encodeRecords_eq hk hrows).symm.trans hrecords
  have hbatch : batched kv info (rowRecords info primary chunk.select)
      = Table.stored kv (rowRecords info primary chunk.select) := by
    rw [batched, h.closed.store.reliable.fails]
    rfl
  rw [hbatch] at hsame
  exact rowStored_batch hk hrows hnew hsame hrow

end Table

end Part

end AmDb.Storage
