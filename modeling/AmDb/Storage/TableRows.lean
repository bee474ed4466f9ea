import AmDb.Codec.IndexKey
import AmDb.Foundation.IndexedStore
import AmDb.Storage.Table

/-! # Rows as records and index keys

    What a table makes of its rows: `EncodeRow` gives each a record under its
    data key, `EncodeIndex` a key for every index.  The record says what the
    index keys are, and an index key which data key it belongs to. -/

namespace AmDb.Storage

open Codec AmDb.Schema Chunk AmDb.Expr IndexedStore

/-- A table with one primary index, its indexes told apart by their ids, and
    their columns among its own. -/
structure Keyed (table : TableInfo) (primary : IndexInfo) : Prop where
  hasPrimary : table.primary = some primary
  isPrimary  : primary.type = .primary
  unique     : ∀ index ∈ table.indexList, index.type = .primary →
    index = primary
  ids        : (table.indexList.map IndexInfo.id).Nodup
  columns    : ∀ index ∈ table.indexList, ∀ c ∈ index.columns,
    ∃ d ∈ table.columnList, d.id = c.id

/-- A row of this layout from which the table's columns can be read. -/
structure RowOf (table : TableInfo) (desc : RowDescriptor) (row : Row) :
    Prop where
  layout : row.desc = desc
  has    : row.Has (desc.map ColumnDescriptor.type) table.columnList

instance (table : TableInfo) (desc : RowDescriptor) (row : Row) :
    Decidable (RowOf table desc row) :=
  decidable_of_iff (row.desc = desc
      ∧ row.Has (desc.map ColumnDescriptor.type) table.columnList)
    ⟨fun h => ⟨h.1, h.2⟩, fun h => ⟨h.layout, h.has⟩⟩

/-- The record of a row. -/
def recordLayout (table : TableInfo) (primary : IndexInfo) :
    Layout Row StoreKey Bytes where
  key row := .dataKey table.dbId table.id
    (primary.columns.map (fun c => (row.value c).toString))
  value row := columnsCode row table.columnList

/-- The records of some rows. -/
def rowRecords (table : TableInfo) (primary : IndexInfo) (rows : List Row) :
    List (StoreKey × Bytes) :=
  rows.map (fun row => ((recordLayout table primary).key row,
    (recordLayout table primary).value row))

/-- The record `EncodeRow` makes of the row is in the store. -/
def RowStored (table : TableInfo) (kv : KvStorage) (row : Row) : Prop :=
  ∃ key value, Table.encodeRecord table row = .ok (key, value)
    ∧ kv.data key = some value

section Rows

variable {table : TableInfo} {primary index : IndexInfo}
  {desc : RowDescriptor} {row row' : Row} {rows : List Row}
  {kv kv' : KvStorage}

theorem Keyed.primary_mem (hk : Keyed table primary) :
    primary ∈ table.indexList := by
  obtain ⟨i, -, hi⟩ := Option.bind_eq_some_iff.mp hk.hasPrimary
  exact List.mem_of_getElem? hi

/-- The columns of an index key are the table's. -/
theorem Keyed.keyColumns (hk : Keyed table primary)
    (hi : index ∈ table.indexList) :
    ∀ c ∈ keyColumns primary index, ∃ d ∈ table.columnList, d.id = c.id := by
  intro c hc
  rcases List.mem_append.mp (mem_of_mem_keyColumns hc) with hc | hc
  · exact hk.columns index hi c hc
  · exact hk.columns primary hk.primary_mem c hc

theorem RowOf.hasKey (hk : Keyed table primary) (hi : index ∈ table.indexList)
    (h : RowOf table desc row) :
    row.Has (desc.map ColumnDescriptor.type) (keyColumns primary index) :=
  h.has.of_ids (hk.keyColumns hi)

theorem RowOf.hasPrimary (hk : Keyed table primary) (h : RowOf table desc row) :
    row.Has (desc.map ColumnDescriptor.type) primary.columns :=
  h.has.of_ids (hk.columns primary hk.primary_mem)

/-! ## What the encoders return -/

/-- The record of a row is made without an error. -/
theorem encodeRecord_eq (hk : Keyed table primary) (h : RowOf table desc row) :
    Table.encodeRecord table row
      = .ok ((recordLayout table primary).key row,
          (recordLayout table primary).value row) := by
  rw [Table.encodeRecord, hk.hasPrimary]
  simp only
  rw [colKeys_eq (h.hasPrimary hk), Exec.bind_ok, encodeColumns_eq h.has]
  rfl

/-- The records of a chunk are made without an error. -/
theorem encodeRecords_eq (hk : Keyed table primary)
    (hrows : ∀ row ∈ rows, RowOf table desc row) :
    Table.encodeRecords table rows
      = .ok (rowRecords table primary rows) := by
  rw [Table.encodeRecords, rowRecords, Exec.mapM_eq_ok, List.forall₂_map_right_iff,
    List.forall₂_same]
  exact fun row hrow => encodeRecord_eq hk (hrows row hrow)

/-- A row is stored just when its record is. -/
theorem rowStored_iff (hk : Keyed table primary) (h : RowOf table desc row) :
    RowStored table kv row ↔ Stored (recordLayout table primary) kv.data row := by
  rw [RowStored, encodeRecord_eq hk h]
  constructor
  · rintro ⟨key, value, heq, hdata⟩
    cases heq
    exact hdata
  · intro hdata
    exact ⟨_, _, rfl, hdata⟩

/-- The entries of a chunk in an index that has these columns. -/
theorem encodeRows_eq {index' : Index} {readAll : Bool}
    {es : List (Bytes × Bytes)} (hk : Keyed table primary)
    (hi : index ∈ table.indexList) (htable : index'.tableInfo = table)
    (hcolumns : index'.indexInfo.columns = index.columns)
    (htype : index'.indexInfo.type = index.type)
    (hrows : ∀ row ∈ rows, RowOf table desc row)
    (h : index'.encodeRows readAll rows = .ok es) :
    es = rows.map (fun row =>
      (columnsCode row (keyColumns primary index), [])) := by
  have hcols : Codec.keyColumns primary index'.indexInfo
      = Codec.keyColumns primary index := by
    rw [Codec.keyColumns, Codec.keyColumns, hcolumns, htype]
  induction rows generalizing es with
  | nil =>
      cases h
      rfl
  | cons row rows ih =>
      obtain ⟨hrow, hrest⟩ := List.forall_mem_cons.mp hrows
      have hentry := @encodeIndex_eq table primary index'.indexInfo row _
        hk.hasPrimary (by rw [hcols]; exact hrow.hasKey hk hi)
      rw [← htable, hcols] at hentry
      have hloop : (do
          let entry ← encodeIndex index'.tableInfo index'.indexInfo row []
          let entries ← index'.encodeRows readAll rows
          return entry :: entries : Exec (List (Bytes × Bytes))) = .ok es := by
        rw [Index.encodeRows] at h
        cases readAll with
        | false => exact h
        | true =>
            obtain ⟨vs, -, h⟩ := Exec.bind_eq_ok.mp h
            exact h
      rw [hentry, Exec.bind_ok] at hloop
      obtain ⟨rest, hok, hloop⟩ := Exec.bind_eq_ok.mp hloop
      cases hloop
      rw [ih hrest hok]
      rfl

/-! ## Records and index keys -/

theorem RowOf.bounded (h : RowOf table desc row) :
    ∀ c ∈ table.columnList, (row.value c).Bounded :=
  fun _ hc => (h.has.spec hc).2.2.2

/-- Rows of one record have their columns' codes in common. -/
theorem RowOf.codes_eq (h : RowOf table desc row) (h' : RowOf table desc row')
    (hvalue : columnsCode row table.columnList
      = columnsCode row' table.columnList) {c : ColumnInfo}
    (hc : ∃ d ∈ table.columnList, d.id = c.id) :
    taggedCode (row.value c) = taggedCode (row'.value c) := by
  obtain ⟨d, hd, hid⟩ := hc
  have hpos : c.id % 2 ^ 32 = d.id % 2 ^ 32 := by rw [hid]
  rw [row.value_congr hpos, row'.value_congr hpos]
  exact (columnsCode_eq_iff_codes h.bounded h'.bounded).mp hvalue d hd

/-- A column's codes of rows of a table are equal as its renderings are. -/
theorem RowOf.code_eq_iff (hk : Keyed table primary)
    (h : RowOf table desc row) (h' : RowOf table desc row') {c : ColumnInfo}
    (hc : c ∈ primary.columns) :
    taggedCode (row.value c) = taggedCode (row'.value c)
      ↔ (row.value c).toString = (row'.value c).toString := by
  have hhas := h.hasPrimary hk
  have hhas' := h'.hasPrimary hk
  exact taggedCode_eq_iff_toString
    (hhas.type_eq hhas' (h.layout.trans h'.layout.symm) hc) (hhas.spec hc).2.2.2
    (hhas'.spec hc).2.2.2

/-- Two rows have one record key just when their primary keys have one code. -/
theorem recordKey_eq_iff (hk : Keyed table primary) (h : RowOf table desc row)
    (h' : RowOf table desc row') :
    (recordLayout table primary).key row = (recordLayout table primary).key row'
      ↔ ∀ c ∈ primary.columns,
        taggedCode (row.value c) = taggedCode (row'.value c) := by
  rw [recordLayout, StoreKey.dataKey.injEq, List.map_inj_left]
  simp only [true_and]
  exact forall₂_congr (fun c hc => (h.code_eq_iff hk h' hc).symm)

/-- The keys of an index are codes of its table's rows. -/
theorem coding_keyColumns (hk : Keyed table primary)
    (hi : index ∈ table.indexList) :
    Coding (recordLayout table primary) (RowOf table desc)
      (fun row => columnsCode row (keyColumns primary index)) where
  ofRecord := by
    intro row row' h h' _ hvalue
    refine (columnsCode_eq_iff_codes (fun c hc => ((h.hasKey hk hi).spec
      hc).2.2.2) (fun c hc => ((h'.hasKey hk hi).spec hc).2.2.2)).mpr ?_
    exact fun c hc => h.codes_eq h' hvalue (hk.keyColumns hi c hc)
  toKey := by
    intro row row' h h' hcode
    rw [recordKey_eq_iff hk h h']
    have hcodes := (columnsCode_eq_iff_codes (fun c hc => ((h.hasKey hk hi).spec
      hc).2.2.2) (fun c hc => ((h'.hasKey hk hi).spec hc).2.2.2)).mp hcode
    exact fun c hc => hcodes c (primary_mem_keyColumns hc)

/-- In the primary index a data key has one code. -/
theorem primary_code_eq (hk : Keyed table primary) (h : RowOf table desc row)
    (h' : RowOf table desc row')
    (hkey : (recordLayout table primary).key row
      = (recordLayout table primary).key row') :
    columnsCode row (keyColumns primary primary)
      = columnsCode row' (keyColumns primary primary) := by
  have hcols : keyColumns primary primary = primary.columns := if_neg (by simp)
  have hcodes := (recordKey_eq_iff hk h h').mp hkey
  rw [hcols, columnsCode, columnsCode, List.flatMap_map, List.flatMap_map]
  exact List.flatMap_congr hcodes

/-! ## Batches -/

/-- `MPutKV` puts the records of the rows. -/
theorem puts_writeBatch {data : StoreKey → Option Bytes}
    (hdistinct : (rows.map (recordLayout table primary).key).Nodup) :
    Puts (recordLayout table primary) rows data
      (KvStorage.writeBatch data (rowRecords table primary rows)) where
  rows := by
    intro row hrow
    refine KvStorage.writeBatch_of_agree ?_
      (Or.inr ⟨_, List.mem_map_of_mem hrow, rfl⟩)
    intro e he hkey
    obtain ⟨row', hrow', rfl⟩ := List.mem_map.mp he
    rw [List.inj_on_of_nodup_map hdistinct hrow' hrow hkey]
  rest := by
    intro key hkey
    refine KvStorage.writeBatch_of_ne ?_
    intro e he
    obtain ⟨row, hrow, rfl⟩ := List.mem_map.mp he
    exact hkey row hrow

/-- `MDelKV` removes the records of the rows. -/
theorem removes_mDelKV :
    Removes (recordLayout table primary) rows kv.data
      (fun k => if k ∈ rows.map (recordLayout table primary).key then none
        else kv.data k) where
  rows := fun row hrow => if_pos (List.mem_map_of_mem hrow)
  rest := by
    intro key hkey
    refine if_neg ?_
    intro hmem
    obtain ⟨row, hrow, heq⟩ := List.mem_map.mp hmem
    exact hkey row hrow heq

end Rows

end AmDb.Storage
