import AmDb.Storage.TableIndexes
import AmDb.Storage.TableIterator

/-! # The rows of a page

    In a table of numbers with a key of one column, an entry of the primary
    index leads to the record of its row, and the row made of the record has
    the values that were stored. -/

namespace AmDb.Storage

open Codec AmDb.Schema Chunk AmDb.Expr IndexedStore Table

/-- Every column is a number. -/
def NumberLayout (desc : RowDescriptor) : Prop :=
  ∀ d ∈ desc, d.type ∈ decodeTypes ∧ d.type ≠ .string

section Values

variable {info : TableInfo} {desc : RowDescriptor} {row : Row}
  {cols : List ColumnInfo}

/-- A column of numbers is read as one. -/
theorem NumberLayout.not_string (hnum : NumberLayout desc)
    (h : row.Has (desc.map ColumnDescriptor.type) cols) {c : ColumnInfo}
    (hc : c ∈ cols) :
    (row.value c).type ∈ decodeTypes ∧ (row.value c).type ≠ .string := by
  obtain ⟨-, -, htype, -⟩ := h.spec hc
  obtain ⟨d, hd, hdt⟩ := List.mem_map.mp htype
  rw [← hdt]
  exact hnum d hd

/-- A row of numbers has its columns in the types that are decoded. -/
theorem NumberLayout.has (hnum : NumberLayout desc)
    (h : row.Has (desc.map ColumnDescriptor.type) cols) :
    row.Has decodeTypes cols := by
  refine h.mono ?_ (fun _ hc => hc)
  intro t ht
  obtain ⟨d, hd, rfl⟩ := List.mem_map.mp ht
  exact (hnum d hd).1

/-- A number is read back as it is, wherever it lies. -/
theorem reread_number (objects : StringObjects) (i : Nat) {v : ExprValue}
    (hv : v.type ≠ .string) : objects.reread i v = v := by
  rw [reread_eq_self_iff]
  rintro s rfl
  exact absurd rfl hv

/-- A row whose cells are all set to numbers has these values. -/
theorem fill_value {memory : Memory desc} {cells : Cells}
    (hlayout : row.desc = desc)
    (hnum : NumberLayout desc)
    (h : row.Has (desc.map ColumnDescriptor.type) cols)
    (hcells : ∀ c ∈ cols, cells (c.id % 2 ^ 32) = some (row.value c))
    {c : ColumnInfo} (hc : c ∈ cols) :
    (Row.fill memory cells).value c = row.value c := by
  obtain ⟨-, ⟨d, hd, htype⟩, -, hbounded⟩ := h.spec hc
  rw [hlayout] at hd
  have htyped := congrArg (·[c.id % 2 ^ 32]?) memory.typed
  simp only [List.getElem?_map, hd, Option.map_some] at htyped
  obtain ⟨e, he, het⟩ := Option.map_eq_some_iff.mp htyped
  have hcell : readCell memory.objects cells (e, c.id % 2 ^ 32)
      = row.value c := by
    rw [readCell, hcells c hc]
    simp only
    rw [if_pos ⟨by rw [htype, het], hbounded⟩,
      reread_number _ _ (hnum.not_string h hc).2]
  have hget : (Row.fill memory cells).getColValue c.id = .ok (row.value c) := by
    simp only [Row.getColValue, Row.fill, List.getElem?_map,
      List.getElem?_zipIdx, he, Option.map_some, Nat.zero_add, hcell]
  rw [Row.value, hget]
  rfl

end Values

section Pages

variable {env : Env} {memory : NewMemory} {info : TableInfo}
  {primary : IndexInfo} {key : ColumnInfo} {desc : RowDescriptor} {row r : Row}
  {index : Index} {kv : KvStorage} {e e' : Bytes × Bytes}
  {entries : List (Bytes × Bytes)}

/-- A stored row of the table with the key of the entry. -/
structure EntryOf (info : TableInfo) (primary : IndexInfo)
    (desc : RowDescriptor) (kv : KvStorage) (e : Bytes × Bytes) (row : Row) :
    Prop where
  of     : RowOf info desc row
  stored : Stored (recordLayout info primary) kv.data row
  key    : keyOf primary primary row = e.1

/-- Rows of one entry have the same values. -/
theorem EntryOf.value_eq (hk : Keyed info primary) (hnum : NumberLayout desc)
    (he : EntryOf info primary desc kv e row)
    (he' : EntryOf info primary desc kv e' r) (hkey : e.1 = e'.1)
    {c : ColumnInfo} (hc : c ∈ info.columnList) : row.value c = r.value c := by
  have hcode : keyOf primary primary row
      = keyOf primary primary r := by
    rw [he.key, he'.key, hkey]
  have hsame := (coding_keyColumns hk hk.primary_mem).toKey _ _ he.of he'.of
    hcode
  have hrecord := he.stored
  rw [Stored, hsame, he'.stored] at hrecord
  have hcodes := he.of.codes_eq he'.of (Option.some.inj hrecord).symm
    ⟨c, hc, rfl⟩
  have henc : ∀ {row : Row}, RowOf info desc row → Encodable (row.value c) :=
    fun h => ⟨mem_codecTypes_of_mem_decodeTypes
      (hnum.not_string h.has hc).1, (h.has.spec hc).2.2.2⟩
  exact (taggedCode_injective (henc he.of) (henc he'.of)).mp hcodes

/-- The key of the primary index is the code of its one column. -/
theorem keyOf_primary (hkey : primary.columns = [key]) (row : Row) :
    keyOf primary primary row = taggedCode (row.value key) := by
  have hcols : keyColumns primary primary = [key] := by
    rw [keyColumns, if_neg (by simp), hkey]
  rw [keyOf, hcols]
  exact List.append_nil _

/-- The key of an entry is that of the row's record. -/
theorem itemKey_row (hk : Keyed info primary) (hkey : primary.columns = [key])
    (hnum : NumberLayout desc) (hindex : IndexOf info primary index)
    (he : EntryOf info primary desc kv e row) (objects : StringObjects) :
    itemKey objects index.tableInfo index.indexInfo desc e
      = .ok ((recordLayout info primary).key row) := by
  have hhas : row.Has (desc.map ColumnDescriptor.type) [key] := by
    rw [← hkey]
    exact he.of.hasPrimary hk
  obtain ⟨htype, hstring⟩ := hnum.not_string hhas List.mem_cons_self
  have hbounded := (hhas.spec List.mem_cons_self).2.2.2
  have hcols : keyColumns primary index.indexInfo = [key] := by
    rw [keyColumns, hindex.type, if_neg (by simp), hkey]
  have hdecode : decodeIndex info index.indexInfo e.1
      = .ok [(key.id, row.value key)] := by
    rw [decodeIndex_eq hk.hasPrimary, hcols, ← he.key, keyOf_primary hkey]
    refine (@mapM_decodeColumn_iff _ [key] row.value).mpr ?_
    intro c hc
    obtain rfl := List.mem_singleton.mp hc
    have hfirst := @firstValue_number (row.value c) [] htype hbounded hstring
    rw [List.append_nil] at hfirst
    exact hfirst.1
  obtain ⟨cells, hset, hin, -⟩ := setColValues_values hhas (fun _ => none)
  rw [he.of.layout] at hset
  have hset : setColValues desc [(key.id, row.value key)] (fun _ => none)
      = .ok cells := hset
  rw [itemKey, hindex.table, hk.hasPrimary]
  simp only [hdecode, Exec.bind_ok, hset, hkey]
  rw [List.mapM_cons, hin key List.mem_cons_self]
  simp only [reread_number objects _ hstring]
  rw [recordLayout]
  simp only [hkey]
  rfl

/-- The row made of the record of a stored row has its values. -/
theorem pullRow_row (hk : Keyed info primary) (hkey : primary.columns = [key])
    (hnum : NumberLayout desc) (he : EntryOf info primary desc kv e row)
    (memory : Memory desc) :
    ∃ r, pullRow info memory ((recordLayout info primary).value row) = .ok r
      ∧ EntryOf info primary desc kv e r := by
  have hdecode := @decodeColumns_columnsCode row info.columnList
    (hnum.has he.of.has) []
  obtain ⟨cells, hset, hin, -⟩ := setColValues_values he.of.has (fun _ => none)
  rw [he.of.layout] at hset
  have hids := hk.columns primary hk.primary_mem key (by simp [hkey])
  have hsome : (info.columnList.map (fun c => (c.id, row.value c))).isEmpty
      = false := by
    obtain ⟨c, hc, -⟩ := hids
    cases hlist : info.columnList with
    | nil => exact absurd (hlist ▸ hc) List.not_mem_nil
    | cons c cs => rfl
  -- the calls of `SetColValue` give a row
  have hpull : pullRow info memory ((recordLayout info primary).value row)
      = .ok (.fill memory cells) := by
    rw [pullRow, decodeRow]
    have hdecode : decodeColumns ((recordLayout info primary).value row)
        info.columnList 0 = .ok (info.columnList.map
          (fun c => (c.id, row.value c)), _) := hdecode
    rw [hdecode]
    simp only [Exec.bind_ok, hset, hsome]
    rfl
  -- which has the values of the one that was stored
  have hvalue : ∀ c ∈ info.columnList,
      (Row.fill memory cells).value c = row.value c :=
    fun c hc => fill_value he.of.layout hnum he.of.has hin hc
  have hvalues : ∀ {cs : List ColumnInfo},
      (∀ c ∈ cs, ∃ d ∈ info.columnList, d.id = c.id) →
      cs.map (Row.fill memory cells).value = cs.map row.value := by
    intro cs hcs
    refine List.map_inj_left.mpr ?_
    intro c hc
    obtain ⟨d, hd, hid⟩ := hcs c hc
    have hpos : c.id % 2 ^ 32 = d.id % 2 ^ 32 := by rw [hid]
    rw [Row.value_congr _ hpos, row.value_congr hpos, hvalue d hd]
  have hprim := hvalues (hk.columns primary hk.primary_mem)
  refine ⟨_, hpull, ⟨rfl, ?_⟩, ?_, ?_⟩
  · refine ⟨rfl, ?_⟩
    intro c hc
    obtain ⟨d, hd, hdt⟩ := he.of.has.2 c hc
    rw [he.of.layout] at hd
    exact ⟨d, hd, hdt⟩
  · -- so its record is the same
    have hkeys : (recordLayout info primary).key (.fill memory cells)
        = (recordLayout info primary).key row := by
      have hstrings := congrArg (List.map ExprValue.toString) hprim
      rw [List.map_map, List.map_map] at hstrings
      exact congrArg (StoreKey.dataKey info.dbId info.id) hstrings
    have hcodes : (recordLayout info primary).value (.fill memory cells)
        = (recordLayout info primary).value row :=
      congrArg (List.flatMap taggedCode)
        (hvalues (fun c hc => ⟨c, hc, rfl⟩))
    rw [Stored, hkeys, hcodes]
    exact he.stored
  · have hcols : keyColumns primary primary = primary.columns :=
      if_neg (by simp)
    rw [← he.key, keyOf, keyOf, hcols, columnsCode, columnsCode, hprim]

/-- The records of a page are all fetched. -/
theorem mGetKV_entries (hk : Keyed info primary)
    (hkey : primary.columns = [key]) (hnum : NumberLayout desc)
    (hindex : IndexOf info primary index) (hkv : kv.Reliable)
    (h : ∀ e ∈ entries, ∃ row, EntryOf info primary desc kv e row) :
    ∃ keys values,
      entries.mapM (fun e => itemKey (memory.keys e.1) index.tableInfo
        index.indexInfo desc e) = .ok keys
      ∧ kv.mGetKV keys = (.ok, values, kv)
      ∧ List.Forall₂ (fun e value => ∃ row, EntryOf info primary desc kv e row
        ∧ value = (recordLayout info primary).value row) entries values := by
  induction entries with
  | nil => exact ⟨[], [], rfl, rfl, .nil⟩
  | cons e entries ih =>
      obtain ⟨⟨row, he⟩, hrest⟩ := List.forall_mem_cons.mp h
      obtain ⟨keys, values, hkeys, hget, hvalues⟩ := ih hrest
      refine ⟨(recordLayout info primary).key row :: keys,
        (recordLayout info primary).value row :: values, ?_, ?_,
        .cons ⟨row, he, rfl⟩ hvalues⟩
      · rw [List.mapM_cons, itemKey_row hk hkey hnum hindex he, Exec.bind_ok,
          hkeys]
        rfl
      · rw [KvStorage.mGetKV, KvStorage.getKV_of_some hkv he.stored]
        simp only [hget]

/-- The rows that are pulled are those whose keys were scanned. -/
theorem pullRows_entries (hk : Keyed info primary)
    (hkey : primary.columns = [key]) (hnum : NumberLayout desc)
    (memory : Nat → Memory desc) (i : Nat) {values : List Bytes}
    (h : List.Forall₂ (fun e value => ∃ row, EntryOf info primary desc kv e row
      ∧ value = (recordLayout info primary).value row) entries values) :
    ∃ rows, pullRows info memory i values = .ok rows
      ∧ List.Forall₂ (EntryOf info primary desc kv) entries rows := by
  induction h generalizing i with
  | nil => exact ⟨[], rfl, .nil⟩
  | cons hvalue _ ih =>
      obtain ⟨row, he, rfl⟩ := hvalue
      obtain ⟨r, hpull, hr⟩ := pullRow_row hk hkey hnum he (memory i)
      obtain ⟨rows, hpulls, hrows⟩ := ih (i + 1)
      refine ⟨r :: rows, ?_, .cons hr hrows⟩
      rw [pullRows, hpull, Exec.bind_ok, hpulls]
      rfl

/-- `GetItem` adds the stored rows of its page, in the order of the page. -/
theorem getItem_page (hk : Keyed info primary)
    (hkey : primary.columns = [key]) (hnum : NumberLayout desc)
    (hindex : IndexOf info primary index) {s : BaseScan} {chunk : Chunk}
    (hcode : s.it.code = .ok ∨ s.it.code = .bptreeIteratorEnd)
    (hkv : s.kv.Reliable) (hdesc : chunk.rowDesc = some desc)
    (h : ∀ e ∈ s.it.dataSegment, ∃ row, EntryOf info primary desc s.kv e row) :
    ∃ chunk' rows, getItem memory index s chunk = .ok (.ok, chunk', s)
      ∧ chunk'.select = chunk.select ++ rows
      ∧ List.Forall₂ (EntryOf info primary desc s.kv) s.it.dataSegment rows := by
  have hgo : ¬ (s.it.code ≠ .ok ∧ s.it.code ≠ .bptreeIteratorEnd) :=
    fun hne => hcode.elim hne.1 hne.2
  rw [getItem, if_neg hgo]
  split_ifs with hnil
  · refine ⟨chunk, [], rfl, (List.append_nil _).symm, ?_⟩
    rw [hnil]
    exact .nil
  · obtain ⟨keys, values, hkeys, hget, hvalues⟩ :=
      @mGetKV_entries memory info primary key desc index s.kv _ hk hkey hnum
        hindex hkv h
    obtain ⟨rows, hrows, hentries⟩ := pullRows_entries hk hkey hnum
      (memory.rows desc) chunk.select.length hvalues
    rw [← hindex.table] at hrows
    rw [hdesc]
    simp only [hkeys, Exec.bind_ok, hget, ne_eq, not_true_eq_false, if_false,
      pullData, hrows, Exec.pure_eq]
    exact ⟨_, rows, rfl, rfl, hentries⟩

end Pages

end AmDb.Storage
