import AmDb.Statement.IntegerRows
import AmDb.Storage.StoredTable

/-! # A relation in the store

    How a store holds a relation: a table of its columns with indexes that can
    be opened, and the records of just its tuples.  Inserting tuples that the
    relation takes and scanning the table do what the relation says. -/

namespace AmDb.Statement

open Codec Schema Storage Chunk AmDb.Expr Analyzer Executor IndexedStore

/-- The store holds the relation as this table. -/
structure Holds (env : Env) (pb : SchemaProtobuf) (info : TableInfo)
    (primary : IndexInfo) (key : ColumnInfo) (kv : KvStorage) (r : Relation) :
    Prop where
  keyed    : Keyed info primary
  oneKey   : primary.columns = [key]
  laid     : Laid info
  columns  : info.columnList.map ColumnInfo.name = r.columns
  keyPlace : key.id = r.key
  openable : Table.Openable env pb info primary kv
  rows     : ∀ us, us ∈ r.table.rows
    ↔ ∃ row, HoldsInts info row us ∧ Storage.RowStored info kv row

section Holds

variable {env : Env} {pb : SchemaProtobuf} {info : TableInfo}
  {primary : IndexInfo} {key : ColumnInfo} {kv kv' : KvStorage} {r : Relation}
  {tuples : List Tuple} {rows : List Row}

theorem Holds.keyColumn (h : Holds env pb info primary key kv r) :
    ∃ d ∈ info.columnList, d.id = key.id :=
  h.keyed.columns primary h.keyed.primary_mem key
    (by rw [h.oneKey]; exact List.mem_cons_self)

theorem Holds.integers (h : Holds env pb info primary key kv r) :
    Integers info := integers_of_recorded h.openable.recorded

/-- What changes elsewhere in the store does not concern a relation. -/
theorem Holds.part (h : Holds env pb info primary key kv r)
    (hs : SamePart info kv kv') (hkv : kv'.Reliable) :
    Holds env pb info primary key kv' r where
  keyed := h.keyed
  oneKey := h.oneKey
  laid := h.laid
  columns := h.columns
  keyPlace := h.keyPlace
  openable := h.openable.part hs hkv
  rows := by
    intro us
    rw [h.rows]
    exact exists_congr (fun row => and_congr_right (fun _ => hs.rowStored.symm))

/-! ## Inserting -/

/-- Rows have one data key just when the tuples have one key. -/
theorem Holds.dataKey_eq_iff (h : Holds env pb info primary key kv r)
    {row row' : Row} {us us' : Tuple} (hholds : HoldsInts info row us)
    (hholds' : HoldsInts info row' us') :
    (recordLayout info primary).key row = (recordLayout info primary).key row'
      ↔ keyAt r.key us = keyAt r.key us' := by
  rw [← h.keyPlace]
  exact recordKey_eq_iff_keyAt h.laid h.oneKey hholds hholds' h.keyColumn

/-- Rows that hold tuples the relation takes are new to the table. -/
theorem Holds.newRows (h : Holds env pb info primary key kv r)
    (hrows : List.Forall₂ (HoldsInts info) rows tuples)
    (htakes : r.Takes tuples) : Table.NewRows info kv rows := by
  have hof : ∀ row ∈ rows, RowOf info (toRowDesc info) row := by
    intro row hrow
    obtain ⟨us, -, hholds⟩ := (exists_of_forall₂ hrows).1 row hrow
    exact rowOf_of_holds h.laid hholds
  obtain ⟨hnodup, hapart⟩ := KeyedRows.takes_iff.mp htakes.2
  refine (Table.newRows_iff h.keyed hof).mpr ⟨?_, ?_⟩
  · rw [List.nodup_iff_pairwise_ne, List.pairwise_map] at hnodup ⊢
    refine pairwise_of_forall₂ ?_ hrows.flip hnodup
    intro us row us' row' hholds hholds' hne hkey
    exact hne ((h.dataKey_eq_iff hholds hholds').mp hkey)
  · intro row hrow
    obtain ⟨us, hus, hholds⟩ := (exists_of_forall₂ hrows).1 row hrow
    by_contra hsome
    obtain ⟨row', hrow', hkey, hstored⟩ :=
      h.openable.closed.store.sourced row (hof row hrow) hsome
    obtain ⟨us', hholds'⟩ := exists_holdsInts h.integers hrow'
    have hmem : us' ∈ r.table.rows :=
      (h.rows us').mpr ⟨row', hholds', (rowStored_iff h.keyed hrow').mpr hstored⟩
    exact hapart us hus us' hmem ((h.dataKey_eq_iff hholds' hholds).mp hkey)

/-- An insert of these rows puts the tuples into the relation. -/
theorem Holds.insert (h : Holds env pb info primary key kv r) {ho : HashOrder}
    {chunk : Chunk} {status : Status} {table' : Table}
    (hrows : List.Forall₂ (HoldsInts info) chunk.select tuples)
    (htakes : r.Takes tuples)
    (hkeeps : Table.KeepsFor env ({ tableInfo := info }, kv)
      (.insert ho chunk))
    (hok : Table.insert env ho { tableInfo := info } kv chunk
      = .ok (status, table', kv')) :
    Holds env pb info primary key kv' (r.insert tuples htakes)
      ∧ OnlyOwn info kv kv' := by
  have hof : ∀ row ∈ chunk.select, RowOf info (toRowDesc info) row := by
    intro row hrow
    obtain ⟨us, -, hholds⟩ := (exists_of_forall₂ hrows).1 row hrow
    exact rowOf_of_holds h.laid hholds
  obtain ⟨-, hopen, honly, hstored⟩ := h.openable.insert h.keyed hof
    (h.newRows hrows htakes) hkeeps hok
  refine ⟨⟨h.keyed, h.oneKey, h.laid, h.columns, h.keyPlace, hopen, ?_⟩, honly⟩
  intro us
  show us ∈ (r.table.insert tuples htakes.2).rows ↔ _
  rw [KeyedRows.mem_insert, h.rows]
  constructor
  · -- a tuple of the relation has a row: an old one or one of the chunk
    rintro (⟨row, hholds, hold⟩ | hmem)
    · exact ⟨row, hholds,
        (hstored row (rowOf_of_holds h.laid hholds)).mpr (Or.inl hold)⟩
    · obtain ⟨row, hrow, hholds⟩ := (exists_of_forall₂ hrows).2 us hmem
      exact ⟨row, hholds, (hstored row (hof row hrow)).mpr
        (Or.inr ⟨row, hrow, rfl⟩)⟩
  · -- a stored row is a tuple: an old one, or one with a record of the chunk
    rintro ⟨row, hholds, hnew⟩
    rcases (hstored row (rowOf_of_holds h.laid hholds)).mp hnew with
      hold | ⟨row', hrow', henc⟩
    · exact Or.inl ⟨row, hholds, hold⟩
    · obtain ⟨us', hmem, hholds'⟩ := (exists_of_forall₂ hrows).1 row' hrow'
      rw [encodeRecord_eq_iff h.keyed h.laid hholds' hholds] at henc
      exact Or.inr (henc ▸ hmem)

/-! ## Scanning -/

/-- The rows a `SELECT` shows hold the tuples of the relation's. -/
theorem Holds.selected (h : Holds env pb info primary key kv r)
    {all : List Row} (hall : Selected info key kv all) :
    ∃ tuples, List.Forall₂ (HoldsInts info) all tuples
      ∧ tuples.take 1024 = r.select := by
  obtain ⟨tuples, htuples⟩ := exists_forall₂
    (fun row hrow => exists_holdsInts h.integers (hall.stored row hrow).1)
  refine ⟨tuples, htuples, congrArg (List.take 1024) ?_⟩
  have hscanned : ∀ {row us}, HoldsInts info row us →
      (KeyInRange key row ↔ Relation.Scanned (keyAt r.key us)) := by
    intro row us hholds
    rw [← h.keyPlace]
    exact keyInRange_iff h.laid hholds h.keyColumn
  refine KeyedRows.eq_listing ?_ ?_
  · refine pairwise_of_forall₂ ?_ htuples hall.ascending
    intro row us row' us' hholds hholds' hbelow
    rw [← h.keyPlace]
    exact (keyBelow_iff h.laid hholds hholds' h.keyColumn).mp hbelow
  · intro us
    rw [h.rows]
    constructor
    · intro hus
      obtain ⟨row, hrow, hholds⟩ := (exists_of_forall₂ htuples).2 us hus
      exact ⟨⟨row, hholds, (hall.stored row hrow).2⟩,
        (hscanned hholds).mp (hall.inRange row hrow)⟩
    · rintro ⟨⟨row, hholds, hstored⟩, hrange⟩
      obtain ⟨row', hrow', hsame⟩ := hall.all row
        (rowOf_of_holds h.laid hholds) hstored ((hscanned hholds).mpr hrange)
      obtain ⟨us', hus', hholds'⟩ := (exists_of_forall₂ htuples).1 row' hrow'
      -- rows with the same values in all columns hold one tuple
      obtain rfl : us' = us := by
        refine h.laid.eq_of_columns (length_of_holds hholds')
          (length_of_holds hholds) ?_
        have hin := h.laid.inRange (length_of_holds hholds)
        have hin' := h.laid.inRange (length_of_holds hholds')
        exact (hholds'.value_eq_iff hholds hin' hin).mp hsame
      exact hus'

/-- A scan of the table generates the rows of the relation's `SELECT`, and
    leaves the store as it is. -/
theorem Holds.generate (h : Holds env pb info primary key kv r)
    (memory : NewMemory) :
    ∃ chunk st, (newScan info (indexRanges primary) kv).generate env memory {}
        = .ok (.ok, chunk, st)
      ∧ st.kv = kv ∧ printRows chunk.select
        = .ok (r.select.flatMap printTuple) := by
  obtain ⟨chunk, st, all, hgen, hkv, hall, hselect⟩ :=
    @generate_selected env pb memory info primary key
      ({ tableInfo := info }, kv) h.keyed h.oneKey (Or.inr h.openable.closed)
      h.openable.roots h.openable.recorded
  obtain ⟨tuples, htuples, htake⟩ := h.selected hall
  refine ⟨chunk, st, hgen, hkv, ?_⟩
  rw [hselect, ← htake]
  exact printRows_holds h.laid (List.forall₂_take 1024 htuples)

end Holds

end AmDb.Statement
