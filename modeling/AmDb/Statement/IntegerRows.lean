import AmDb.Executor.InsertColumns
import AmDb.Executor.SelectRows
import AmDb.Statement.Database
import AmDb.Statement.Execute

/-! # Rows of integers

    The rows of a table that was loaded hold integers only, one for each
    column.  Read as tuples, they have the keys, the order and the records that
    the tuples say. -/

namespace AmDb.Statement

open Codec Schema Storage Chunk AmDb.Expr Analyzer Executor

/-- Every column is an integer. -/
def Integers (info : TableInfo) : Prop :=
  ∀ c ∈ info.columnList, toExprType c.type.type = .int64

/-- The store keeps no column types, so all columns of a recorded table are
integers. -/
theorem integers_of_recorded {pb : SchemaProtobuf} {info : TableInfo}
    {kv : KvStorage} (h : Table.Recorded pb info kv) : Integers info := by
  obtain ⟨-, proto, -, -, rfl⟩ := h
  intro c hc
  obtain ⟨c, -, rfl⟩ := List.mem_map.mp hc
  rfl

section Rows

variable {info : TableInfo} {primary : IndexInfo} {key : ColumnInfo}
  {row row' : Row} {us us' : Tuple}

/-- Values that are all `Int64` are integers. -/
theorem exists_map_int64 {vs : List ExprValue}
    (h : ∀ v ∈ vs, v.type = .int64) :
    ∃ us : Tuple, vs = us.map ExprValue.int64 := by
  induction vs with
  | nil => exact ⟨[], rfl⟩
  | cons v vs ih =>
      obtain ⟨hv, hvs⟩ := List.forall_mem_cons.mp h
      obtain ⟨us, rfl⟩ := ih hvs
      cases v with
      | int64 u => exact ⟨u :: us, rfl⟩
      | _ => cases hv

/-- A row of the table holds a tuple. -/
theorem exists_holdsInts (hint : Integers info)
    (h : RowOf info (toRowDesc info) row) : ∃ us, HoldsInts info row us := by
  obtain ⟨vs, hvs⟩ := Option.isSome_iff_exists.mp h.has.1
  have htyped := row.typed vs hvs
  rw [h.layout] at htyped
  obtain ⟨us, rfl⟩ : ∃ us : Tuple, vs = us.map ExprValue.int64 := by
    refine exists_map_int64 ?_
    intro v hv
    have hmem : v.type ∈ (toRowDesc info).map ColumnDescriptor.type := by
      rw [← htyped]
      exact List.mem_map_of_mem hv
    obtain ⟨d, hd, ht⟩ := List.mem_map.mp hmem
    obtain ⟨c, hc, rfl⟩ := List.mem_map.mp hd
    exact ht.symm.trans (hint c hc)
  exact ⟨us, h.layout, hvs⟩

/-- One integer for each column. -/
theorem length_of_holds (h : HoldsInts info row us) :
    us.length = info.columnList.length := by
  have htyped := congrArg List.length (row.typed _ h.tuple)
  rw [h.desc] at htyped
  simpa [toRowDesc] using htyped

/-- A row that holds a tuple is the table's. -/
theorem rowOf_of_holds (hl : Laid info) (h : HoldsInts info row us) :
    RowOf info (toRowDesc info) row := by
  refine ⟨h.desc, by rw [h.tuple]; rfl, ?_⟩
  intro c hc
  obtain ⟨p, hp⟩ := List.getElem?_of_mem hc
  obtain ⟨hlt, -⟩ := List.getElem?_eq_some_iff.mp hp
  have hd : (toRowDesc info)[c.id % 2 ^ 32]?
      = some ⟨toExprType c.type.type, c.id⟩ := by
    rw [hl.positions p c hp, Nat.mod_eq_of_lt (hlt.trans hl.bounded), toRowDesc,
      List.getElem?_map, hp, Option.map_some, hl.positions p c hp]
  rw [h.desc]
  exact ⟨_, hd, List.mem_map_of_mem (List.mem_of_getElem? hd)⟩

/-- The value of the key column. -/
theorem value_key (hl : Laid info) (h : HoldsInts info row us)
    (hkey : ∃ d ∈ info.columnList, d.id = key.id) :
    row.value key = .int64 (us.getD key.id 0) := by
  obtain ⟨d, hd, hid⟩ := hkey
  obtain ⟨p, hp⟩ := List.getElem?_of_mem hd
  obtain ⟨hlt, -⟩ := List.getElem?_eq_some_iff.mp hp
  have hpos : key.id = p := hid.symm.trans (hl.positions p d hp)
  have hlen : p < us.length := (length_of_holds h).symm ▸ hlt
  rw [hpos, List.getD_eq_getElem?_getD, List.getElem?_eq_getElem hlen]
  refine h.value_eq ?_
  rw [hpos, Nat.mod_eq_of_lt (hlt.trans hl.bounded)]
  exact List.getElem?_eq_getElem hlen

/-- Whether a row is in the scanned range goes by its key. -/
theorem keyInRange_iff (hl : Laid info) (h : HoldsInts info row us)
    (hkey : ∃ d ∈ info.columnList, d.id = key.id) :
    KeyInRange key row ↔ Relation.Scanned (keyAt key.id us) := by
  rw [KeyInRange, value_key hl h hkey]
  constructor
  · rintro ⟨u, hu, hrange⟩
    cases hu
    exact hrange
  · intro hrange
    exact ⟨_, rfl, hrange⟩

/-- Whether a row is before another goes by their keys. -/
theorem keyBelow_iff (hl : Laid info) (h : HoldsInts info row us)
    (h' : HoldsInts info row' us')
    (hkey : ∃ d ∈ info.columnList, d.id = key.id) :
    KeyBelow key row row' ↔ keyAt key.id us < keyAt key.id us' := by
  rw [KeyBelow, value_key hl h hkey, value_key hl h' hkey]
  constructor
  · rintro ⟨u, u', hu, hu', hlt⟩
    cases hu
    cases hu'
    exact hlt
  · intro hlt
    exact ⟨_, _, rfl, rfl, hlt⟩

/-- Rows have one data key when their tuples have one key. -/
theorem recordKey_eq_iff_keyAt (hl : Laid info)
    (hprimary : primary.columns = [key]) (h : HoldsInts info row us)
    (h' : HoldsInts info row' us')
    (hkey : ∃ d ∈ info.columnList, d.id = key.id) :
    (recordLayout info primary).key row = (recordLayout info primary).key row'
      ↔ keyAt key.id us = keyAt key.id us' := by
  rw [recordLayout, StoreKey.dataKey.injEq, hprimary]
  simp only [List.map_cons, List.map_nil, value_key hl h hkey,
    value_key hl h' hkey, true_and, List.cons.injEq, and_true]
  rw [keyAt, keyAt, BitVec.toInt_inj]
  constructor
  · intro heq
    have hmem : ExprValueType.int64 ∈ codecTypes := by decide
    exact ExprValue.int64.inj
      (@toString_injective (.int64 _) (.int64 _) rfl hmem heq)
  · intro heq
    rw [heq]

/-- Rows have one record when they hold one tuple. -/
theorem encodeRecord_eq_iff (hk : Keyed info primary) (hl : Laid info)
    (h : HoldsInts info row us) (h' : HoldsInts info row' us') :
    Table.encodeRecord info row = Table.encodeRecord info row'
      ↔ us = us' := by
  constructor
  · intro heq
    have henc := encodeRecord_eq hk (rowOf_of_holds hl h)
    exact (record_eq_iff hl (length_of_holds h) (length_of_holds h') h h' henc
      (heq ▸ henc)).2.mp rfl
  · rintro rfl
    exact encodeRecord_congr (h.tuple.trans h'.tuple.symm) info

end Rows

/-! ## What a result set prints -/

section Printing

variable {info : TableInfo} {row : Row} {us : Tuple}

/-- The cells from a column on. -/
theorem printCells_suffix (hl : Laid info) (h : HoldsInts info row us)
    {pre cols : List ColumnInfo} (hcols : info.columnList = pre ++ cols) :
    printCells row (cols.map (fun c => ⟨toExprType c.type.type, c.id⟩))
      = .ok ((us.drop pre.length).flatMap
        (fun u => [32, 124, 32] ++ (ExprValue.int64 u).toString)) := by
  have hlen := length_of_holds h
  rw [hcols, List.length_append] at hlen
  induction cols generalizing pre with
  | nil =>
      rw [List.drop_eq_nil_of_le (by simpa using hlen.le)]
      rfl
  | cons c cols ih =>
      rw [List.length_cons] at hlen
      have hc : info.columnList[pre.length]? = some c := by
        rw [hcols, List.getElem?_append_right (le_refl _), Nat.sub_self]
        rfl
      have hlt : pre.length < us.length := by omega
      have hbound : pre.length < 2 ^ 32 := by
        refine lt_of_lt_of_le ?_ hl.bounded.le
        rw [← length_of_holds h]
        exact hlt
      have hget : row.getColValue c.id = .ok (.int64 us[pre.length]) := by
        rw [h.getColValue_eq, hl.positions _ c hc, Nat.mod_eq_of_lt hbound,
          List.getElem?_eq_getElem hlt]
      have hrest := @ih (pre ++ [c]) (by rw [hcols, List.append_assoc]; rfl)
        (by rw [List.length_append, List.length_singleton]; omega)
      rw [List.length_append, List.length_singleton] at hrest
      rw [List.map_cons, printCells, hget, Exec.bind_ok, hrest, Exec.bind_ok,
        List.drop_eq_getElem_cons hlt, List.flatMap_cons]
      rfl

/-- A row is printed as its integers. -/
theorem printCells_holds (hl : Laid info) (h : HoldsInts info row us) :
    printCells row row.desc = .ok (us.flatMap
      (fun u => [32, 124, 32] ++ (ExprValue.int64 u).toString)) := by
  rw [h.desc]
  exact @printCells_suffix info row us hl h [] info.columnList rfl

/-- The rows of a chunk, line by line. -/
theorem printRows_holds (hl : Laid info) {rows : List Row}
    {tuples : List Tuple} (h : List.Forall₂ (HoldsInts info) rows tuples) :
    printRows rows = .ok (tuples.flatMap printTuple) := by
  induction h with
  | nil => rfl
  | cons hrow _ ih =>
      rw [printRows, printCells_holds hl hrow, Exec.bind_ok, ih, Exec.bind_ok,
        List.flatMap_cons, printTuple]
      rfl

end Printing

end AmDb.Statement
