import AmDb.Codec.IndexKey
import AmDb.Executor.InsertExecutor
import AmDb.Executor.UsableTable
import Mathlib.Data.List.Perm.Subperm

/-! # The columns an `INSERT` stores its literals in

    A statement names the columns its literals are for; the executor goes by
    position.  When each row is stored as the statement says, and what becomes
    of a cell that cannot be stored. -/

namespace AmDb.Executor

open Codec Schema Storage Analyzer Chunk AmDb.Expr InsertExecutor

/-- A table with its columns numbered from 0 and told apart by their names,
    each of a type that has values. -/
structure Laid (table : TableInfo) : Prop where
  bounded   : table.columnList.length < 2 ^ 32
  positions : ∀ (p : Nat) (c : ColumnInfo), table.columnList[p]? = some c →
    c.id = p
  distinct  : (table.columnList.map ColumnInfo.name).Nodup
  typed     : ∀ c ∈ table.columnList, toExprType c.type.type ≠ .null

/-- Every literal has a value of the type of the column it is for, and no
    column of a row is left without one. -/
structure Storable (table : TableInfo) (stmt : InsertStmt) : Prop where
  cells : ∀ row ∈ stmt.lists, ∀ (j : Nat) (c : ColumnInfo) (cell : ParserNode),
    stmt.columns[j]? = some c.name → row[j]? = some cell →
    c ∈ table.columnList →
    ∃ v, valueOf cell = some v ∧ v.type = toExprType c.type.type
  named : stmt.lists ≠ [] → ∀ c ∈ table.columnList, c.name ∈ stmt.columns

/-- The row holds each literal in the column it is for, every column holds a
    literal, and the store holds the row. -/
structure RowStored (table : TableInfo) (stmt : InsertStmt) (kv : KvStorage)
    (row : List ParserNode) (r : Row) : Prop where
  cells  : ∀ (j : Nat) (c : ColumnInfo), c ∈ table.columnList →
    stmt.columns[j]? = some c.name →
    ∃ cell v, row[j]? = some cell ∧ valueOf cell = some v
      ∧ r.getColValue c.id = .ok v
  others : ∀ c ∈ table.columnList, ∃ j : Nat, stmt.columns[j]? = some c.name
  record : ∃ key value, Table.encodeRecord table r = .ok (key, value)
    ∧ kv.data key = some value

section Statement

variable (env : Env) (ho : HashOrder) (table : TableInfo) (stmt : InsertStmt)
  (memory : Nat → Memory (toRowDesc table)) (kv : KvStorage)

/-- `Consume` on the plan of a statement. -/
def insertStatement : Exec (Status × InsertExecutor × Chunk × KvStorage) :=
  consume env ho (.new (insertPlan table stmt)) memory {} kv

/-- If `Consume` returns `C_OK` each row is stored, and if some cell cannot be
    stored it returns an error and stores nothing. -/
structure StoresByName : Prop where
  stored  : ∀ exec chunk kv',
    insertStatement env ho table stmt memory kv = .ok (.ok, exec, chunk, kv') →
    List.Forall₂ (RowStored table stmt kv') stmt.lists chunk.select
  refused : ¬ Storable table stmt → ∃ status exec chunk kv',
    insertStatement env ho table stmt memory kv
      = .ok (status, exec, chunk, kv') ∧ status ≠ .ok ∧ kv'.data = kv.data

/-- The row of the literals at their own positions. -/
def positional (row : List ParserNode) : Row :=
  .ofValues (row.filterMap valueOf) (fun _ hv =>
    let ⟨_, _, h⟩ := List.mem_filterMap.mp hv
    valueOf_bounded h)

/-- Each column's literal is, in every row, the one at the column's
    position. -/
def InPlace : Prop :=
  ∀ row ∈ stmt.lists, ∀ (j p : Nat) (c : ColumnInfo),
    table.columnList[p]? = some c → stmt.columns[j]? = some c.name →
    row[p]? = row[j]?

/-- Two rows agree on the primary key. -/
def SameKey (row row' : List ParserNode) : Prop :=
  ∀ primary ∈ table.primary, ∀ c ∈ primary.columns,
    row[c.id % 2 ^ 32]? = row'[c.id % 2 ^ 32]?

/-- The batch is written and no row of the statement has the primary key of
    another, or it is not and the store holds the rows already. -/
def Kept : Prop :=
  if kv.fails table.indexList.length then
    ∀ row ∈ stmt.lists, ∀ key value,
      Table.encodeRecord table (positional row) = .ok (key, value) →
      kv.data key = some value
  else ∀ row ∈ stmt.lists, ∀ row' ∈ stmt.lists, SameKey table row row' →
    row = row'

end Statement

/-! ## Rows of integers -/

/-- A row of this table that holds these integers. -/
structure HoldsInts (table : TableInfo) (r : Row) (us : List (BitVec 64)) :
    Prop where
  desc   : r.desc = toRowDesc table
  tuple  : r.tuple = some (us.map .int64)

namespace HoldsInts

variable {table : TableInfo} {r r' : Row} {us us' : List (BitVec 64)}
  {cols : List ColumnInfo}

/-- `GetColValue` on a row of integers: the integer at the position, or an
assertion. -/
theorem getColValue_eq (h : HoldsInts table r us) (id : Nat) :
    r.getColValue id = match us[id % 2 ^ 32]? with
      | none => .error .assertion
      | some u => .ok (.int64 u) := by
  rw [Row.getColValue, h.tuple]
  simp only [List.getElem?_map]
  cases us[id % 2 ^ 32]? <;> rfl

/-- What is read is an integer of the row. -/
theorem getColValue_ok (h : HoldsInts table r us) {id : Nat} {v : ExprValue}
    (hv : r.getColValue id = .ok v) :
    ∃ u, us[id % 2 ^ 32]? = some u ∧ v = .int64 u := by
  rw [h.getColValue_eq] at hv
  split at hv
  · cases hv
  · case _ u hu =>
      cases hv
      exact ⟨u, hu, rfl⟩

/-- A column of such a row is an `Int64`. -/
theorem type_eq (h : HoldsInts table r us) {p : Nat} {u : BitVec 64}
    (hu : us[p]? = some u) :
    ∃ d, r.desc[p]? = some d ∧ d.type = .int64 := by
  have htyped := congrArg (·[p]?) (r.typed _ h.tuple)
  simp only [List.map_map, List.getElem?_map, hu, Option.map_some] at htyped
  obtain ⟨d, hd, ht⟩ := Option.map_eq_some_iff.mp htyped.symm
  exact ⟨d, hd, ht⟩

/-- The row has the columns whose positions it has. -/
theorem has (h : HoldsInts table r us)
    (hcols : ∀ c ∈ cols, ∃ u, us[c.id % 2 ^ 32]? = some u) :
    r.Has codecTypes cols := by
  refine ⟨by rw [h.tuple]; rfl, ?_⟩
  intro c hc
  obtain ⟨u, hu⟩ := hcols c hc
  obtain ⟨d, hd, ht⟩ := h.type_eq hu
  exact ⟨d, hd, by rw [ht]; decide⟩

theorem value_eq (h : HoldsInts table r us) {c : ColumnInfo} {u : BitVec 64}
    (hu : us[c.id % 2 ^ 32]? = some u) : r.value c = .int64 u := by
  rw [Row.value, h.getColValue_eq, hu]
  rfl

/-- Two such rows agree on columns just when their integers do. -/
theorem value_eq_iff (h : HoldsInts table r us) (h' : HoldsInts table r' us')
    (hcols : ∀ c ∈ cols, ∃ u, us[c.id % 2 ^ 32]? = some u)
    (hcols' : ∀ c ∈ cols, ∃ u, us'[c.id % 2 ^ 32]? = some u) :
    (∀ c ∈ cols, r.value c = r'.value c)
      ↔ ∀ c ∈ cols, us[c.id % 2 ^ 32]? = us'[c.id % 2 ^ 32]? := by
  refine forall₂_congr ?_
  intro c hc
  obtain ⟨u, hu⟩ := hcols c hc
  obtain ⟨u', hu'⟩ := hcols' c hc
  rw [h.value_eq hu, h'.value_eq hu', hu, hu']
  simp only [ExprValue.int64.injEq, Option.some.injEq]

/-- The columns whose values are rendered for a key are in the row. -/
theorem of_colKeys (h : HoldsInts table r us) {keys : List Bytes}
    (hk : colKeys r cols = .ok keys) :
    ∀ c ∈ cols, ∃ u, us[c.id % 2 ^ 32]? = some u := by
  induction cols generalizing keys with
  | nil => exact List.forall_mem_nil _
  | cons c cols ih =>
      obtain ⟨v, hv, hk⟩ := Exec.bind_eq_ok.mp hk
      obtain ⟨rest, hrest, -⟩ := Exec.bind_eq_ok.mp hk
      obtain ⟨u, hu, -⟩ := h.getColValue_ok hv
      exact List.forall_mem_cons.mpr ⟨⟨u, hu⟩, ih hrest⟩

end HoldsInts

/-- The literals of these integers. -/
def intCells (us : List (BitVec 64)) : List ParserNode :=
  us.map (fun u => .literal (.int u))

/-- A list of integer literals, as the integers. -/
theorem exists_intCells {row : List ParserNode}
    (h : ∀ cell ∈ row, ∃ u, cell = .literal (.int u)) :
    ∃ us, row = intCells us := by
  induction row with
  | nil => exact ⟨[], rfl⟩
  | cons cell row ih =>
      obtain ⟨⟨u, rfl⟩, hrow⟩ := List.forall_mem_cons.mp h
      obtain ⟨us, rfl⟩ := ih hrow
      exact ⟨u :: us, rfl⟩

section Fill

variable {table : TableInfo} {us : List (BitVec 64)}

/-- The loop over the cells of a row of integers. -/
theorem fillCells_ints (hl : Laid table)
    (hint : ∀ c ∈ table.columnList, toExprType c.type.type = .int64) {j : Nat}
    {cells cells' : Cells} (hj : j ≤ table.columnList.length)
    (h : fillCells (toRowDesc table) j ((intCells us).map toExprNode) cells
      = .ok cells') :
    j + us.length ≤ table.columnList.length ∧ ∀ p, cells' p =
      if j ≤ p ∧ p < j + us.length then (us[p - j]?).map .int64
      else cells p := by
  induction us generalizing j cells with
  | nil =>
      cases h
      refine ⟨hj, fun p => (if_neg ?_).symm⟩
      rintro ⟨hle, hlt⟩
      exact absurd hle (not_le.mpr hlt)
  | cons u us ih =>
      have hmod : j % 2 ^ 32 = j :=
        Nat.mod_eq_of_lt (lt_of_le_of_lt hj hl.bounded)
      have h : fillCells (toRowDesc table) j
          (some (.int64 u) :: (intCells us).map toExprNode) cells
          = .ok cells' := h
      rw [fillCells, hmod] at h
      cases hc : table.columnList[j]? with
      | none =>
          -- more literals than columns: `SetColValue` has no column to set
          rw [show (toRowDesc table)[j]? = none by simp [toRowDesc, hc]] at h
          cases h
      | some c =>
          -- the literal is set at its own position, the others behind it
          have hd : (toRowDesc table)[j]? = some ⟨.int64, j⟩ := by
            simp [toRowDesc, hc, hint c (List.mem_of_getElem? hc),
              hl.positions j c hc]
          have hset : setCell (toRowDesc table) cells j (.int64 u)
              = .ok (.ok, Function.update cells j (some (.int64 u))) := by
            rw [setCell, LiteralExpr.getValue]
            simp only [setColValue, hmod, hd]
            rfl
          rw [hd] at h
          simp only [hset, Exec.bind_ok] at h
          obtain ⟨hlt, -⟩ := List.getElem?_eq_some_iff.mp hc
          obtain ⟨hle, hcells⟩ := ih hlt h
          rw [List.length_cons]
          refine ⟨by omega, fun p => ?_⟩
          rw [hcells]
          by_cases hp : p = j
          · subst hp
            rw [if_neg (by omega), if_pos (by omega), Function.update_self,
              Nat.sub_self]
            rfl
          · rw [Function.update_of_ne hp]
            by_cases hin : j + 1 ≤ p ∧ p < j + 1 + us.length
            · obtain ⟨i, rfl⟩ := Nat.exists_eq_add_of_le hin.1
              rw [if_pos hin, if_pos (by omega), Nat.add_sub_cancel_left,
                show j + 1 + i - j = i + 1 by omega, List.getElem?_cons_succ]
            · rw [if_neg hin, if_neg (by omega)]

/-- A filled row of integers, as many as there are columns. -/
theorem holdsInts_fill
    (hint : ∀ c ∈ table.columnList, toExprType c.type.type = .int64)
    (memory : Memory (toRowDesc table)) {cells : Cells}
    (hlen : us.length = table.columnList.length)
    (hcells : ∀ p, p < us.length → cells p = (us[p]?).map .int64) :
    HoldsInts table (.fill memory cells) us := by
  refine ⟨rfl, congrArg some (List.ext_getElem? ?_)⟩
  intro p
  have htyped := congrArg (·[p]?) memory.typed
  simp only [toRowDesc, List.map_map, List.getElem?_map] at htyped
  rw [List.getElem?_map, List.getElem?_map, List.getElem?_zipIdx]
  cases hv : memory.values[p]? with
  | none =>
      rw [hv] at htyped
      have hc : table.columnList[p]? = none := by simpa using htyped.symm
      rw [List.getElem?_eq_none_iff, ← hlen] at hc
      rw [List.getElem?_eq_none hc]
      rfl
  | some v =>
      rw [hv] at htyped
      obtain ⟨c, hc, ht⟩ := Option.map_eq_some_iff.mp htyped.symm
      obtain ⟨hlt, -⟩ := List.getElem?_eq_some_iff.mp hc
      rw [← hlen] at hlt
      have hvt : v.type = .int64 :=
        ht.symm.trans (hint c (List.mem_of_getElem? hc))
      have hcell := hcells p hlt
      rw [List.getElem?_eq_getElem hlt] at hcell ⊢
      simp only [Option.map_some, readCell, Nat.zero_add, hcell, hvt]
      rfl

/-- A list of integers fills a row of integers. -/
theorem fillRow_ints (hl : Laid table)
    (hint : ∀ c ∈ table.columnList, toExprType c.type.type = .int64)
    {memory : Memory (toRowDesc table)} {r : Row} (hpos : 0 < us.length)
    (hle : table.columnList.length ≤ us.length)
    (h : fillRow memory ((intCells us).map toExprNode) = .ok r) :
    us.length = table.columnList.length ∧ HoldsInts table r us := by
  obtain ⟨cells, hfill, h⟩ := Exec.bind_eq_ok.mp h
  obtain ⟨hlen, hcells⟩ := fillCells_ints hl hint (Nat.zero_le _) hfill
  have hlen : us.length = table.columnList.length := by omega
  have hne : ((intCells us).map toExprNode).isEmpty = false := by
    rw [List.isEmpty_eq_false_iff, ← List.length_pos_iff]
    simpa only [intCells, List.length_map] using hpos
  rw [hne] at h
  cases h
  refine ⟨hlen, holdsInts_fill hint memory hlen (fun p hp => ?_)⟩
  rw [hcells, if_pos (by omega)]
  rfl

/-- The rows that are filled from lists of integers hold these integers. -/
theorem fillRows_ints (hl : Laid table)
    (hint : ∀ c ∈ table.columnList, toExprType c.type.type = .int64)
    {memory : Nat → Memory (toRowDesc table)} {lists : List (List ParserNode)}
    {rows : List Row} {i : Nat}
    (hrows : ∀ row ∈ lists, ∃ us, row = intCells us ∧ 0 < us.length
      ∧ table.columnList.length ≤ us.length)
    (h : fillRows memory i (lists.map (·.map toExprNode)) = .ok rows) :
    List.Forall₂ (fun row r => ∃ us, row = intCells us
      ∧ us.length = table.columnList.length ∧ HoldsInts table r us)
      lists rows := by
  induction lists generalizing i rows with
  | nil =>
      cases h
      exact .nil
  | cons row lists ih =>
      obtain ⟨⟨us, rfl, hpos, hle⟩, hrest⟩ := List.forall_mem_cons.mp hrows
      obtain ⟨r, hr, h⟩ := Exec.bind_eq_ok.mp h
      obtain ⟨rs, hrs, h⟩ := Exec.bind_eq_ok.mp h
      cases h
      obtain ⟨hlen, hholds⟩ := fillRow_ints hl hint hpos hle hr
      exact .cons ⟨us, rfl, hlen, hholds⟩ (ih hrest hrs)

end Fill

/-! ## Their records -/

/-- Stores with the same records agree on a row's. -/
theorem SameRecords.encodeRecord {kv kv' : KvStorage} {table : TableInfo}
    {r : Row} {e : StoreKey × Bytes} (h : SameRecords kv kv')
    (he : Table.encodeRecord table r = .ok e) :
    kv'.data e.1 = kv.data e.1 := by
  rw [Table.encodeRecord] at he
  cases hp : table.primary with
  | none =>
      rw [hp] at he
      cases he
  | some primary =>
      rw [hp] at he
      obtain ⟨keys, -, he⟩ := Exec.bind_eq_ok.mp he
      obtain ⟨value, -, he⟩ := Exec.bind_eq_ok.mp he
      cases he
      exact h _ _ _

section Records

variable {table : TableInfo} {r r' : Row} {us us' : List (BitVec 64)}
  {record record' : StoreKey × Bytes}

theorem getColValue_congr (h : r.tuple = r'.tuple) (id : Nat) :
    r.getColValue id = r'.getColValue id := by
  rw [Row.getColValue, Row.getColValue, h]

/-- Rows with one tuple have the same column keys. -/
theorem colKeys_congr (h : r.tuple = r'.tuple) (cols : List ColumnInfo) :
    colKeys r cols = colKeys r' cols := by
  induction cols with
  | nil => rfl
  | cons c cols ih => rw [colKeys, colKeys, getColValue_congr h, ih]

/-- Rows with one tuple have the same encoded columns. -/
theorem encodeColumns_congr (h : r.tuple = r'.tuple) (cols : List ColumnInfo)
    (key : Bytes) : encodeColumns r cols key = encodeColumns r' cols key := by
  induction cols generalizing key with
  | nil => rfl
  | cons c cols ih =>
      simp only [encodeColumns, getColValue_congr h, ih]

/-- A record is made of what the row holds. -/
theorem encodeRecord_congr (h : r.tuple = r'.tuple) (table : TableInfo) :
    Table.encodeRecord table r = Table.encodeRecord table r' := by
  simp only [Table.encodeRecord, colKeys_congr h, encodeColumns_congr h]

/-- Every column of the table is in a row of as many integers. -/
theorem Laid.inRange (hl : Laid table)
    (hlen : us.length = table.columnList.length) :
    ∀ c ∈ table.columnList, ∃ u, us[c.id % 2 ^ 32]? = some u := by
  intro c hc
  obtain ⟨p, hp⟩ := List.getElem?_of_mem hc
  obtain ⟨hlt, -⟩ := List.getElem?_eq_some_iff.mp hp
  rw [hl.positions p c hp, Nat.mod_eq_of_lt (hlt.trans hl.bounded)]
  exact ⟨_, List.getElem?_eq_getElem (hlen ▸ hlt)⟩

/-- Columns laid out by position hold all the integers. -/
theorem Laid.eq_of_columns (hl : Laid table)
    (hlen : us.length = table.columnList.length)
    (hlen' : us'.length = table.columnList.length)
    (h : ∀ c ∈ table.columnList,
      us[c.id % 2 ^ 32]? = us'[c.id % 2 ^ 32]?) : us = us' := by
  refine List.ext_getElem? (fun p => ?_)
  cases hc : table.columnList[p]? with
  | none =>
      have hle := List.getElem?_eq_none_iff.mp hc
      rw [List.getElem?_eq_none (hlen ▸ hle),
        List.getElem?_eq_none (hlen' ▸ hle)]
  | some c =>
      obtain ⟨hlt, -⟩ := List.getElem?_eq_some_iff.mp hc
      have hcol := h c (List.mem_of_getElem? hc)
      rwa [hl.positions p c hc, Nat.mod_eq_of_lt (hlt.trans hl.bounded)] at hcol

/-- The record of a row of integers. -/
theorem encodeRecord_ints (hl : Laid table)
    (hlen : us.length = table.columnList.length) (h : HoldsInts table r us)
    (hr : Table.encodeRecord table r = .ok record) :
    ∃ primary, table.primary = some primary
      ∧ (∀ c ∈ primary.columns, ∃ u, us[c.id % 2 ^ 32]? = some u)
      ∧ record = (.dataKey table.dbId table.id
          (primary.columns.map (fun c => (r.value c).toString)),
        columnsCode r table.columnList) := by
  rw [Table.encodeRecord] at hr
  cases hp : table.primary with
  | none =>
      rw [hp] at hr
      cases hr
  | some primary =>
      rw [hp] at hr
      obtain ⟨keys, hkeys, hr⟩ := Exec.bind_eq_ok.mp hr
      have hin := h.of_colKeys hkeys
      rw [colKeys_eq (h.has hin)] at hkeys
      cases hkeys
      rw [encodeColumns_eq (h.has (hl.inRange hlen)), List.nil_append] at hr
      cases hr
      exact ⟨primary, rfl, hin, rfl⟩

/-- Records tell rows of integers apart, and their keys by the primary key. -/
theorem record_eq_iff (hl : Laid table)
    (hlen : us.length = table.columnList.length)
    (hlen' : us'.length = table.columnList.length) (h : HoldsInts table r us)
    (h' : HoldsInts table r' us')
    (hr : Table.encodeRecord table r = .ok record)
    (hr' : Table.encodeRecord table r' = .ok record') :
    (record.1 = record'.1 ↔ SameKey table (intCells us) (intCells us'))
      ∧ (record.2 = record'.2 ↔ us = us') := by
  obtain ⟨primary, hp, hin, rfl⟩ := encodeRecord_ints hl hlen h hr
  obtain ⟨primary', hp', hin', rfl⟩ := encodeRecord_ints hl hlen' h' hr'
  obtain rfl := Option.some.inj (hp.symm.trans hp')
  constructor
  · -- the key is made of the primary columns, the value of all
    have hkey : SameKey table (intCells us) (intCells us')
        ↔ ∀ c ∈ primary.columns, r.value c = r'.value c := by
      rw [h.value_eq_iff h' hin hin', SameKey, hp]
      simp only [Option.mem_def, Option.some.injEq, forall_eq', intCells,
        List.getElem?_map]
      refine forall₂_congr (fun c hc => ?_)
      obtain ⟨u, hu⟩ := hin c hc
      obtain ⟨u', hu'⟩ := hin' c hc
      rw [hu, hu']
      simp
    rw [hkey]
    constructor
    · intro heq c hc
      have hkeys := (StoreKey.dataKey.inj heq).2.2
      refine toString_injective ?_ ((h.has hin).spec hc).2.2.1
        (List.map_inj_left.mp hkeys c hc)
      exact (h.has hin).type_eq (h'.has hin') (h.desc.trans h'.desc.symm) hc
    · intro heq
      exact congrArg (StoreKey.dataKey table.dbId table.id)
        (List.map_inj_left.mpr (fun c hc => by rw [heq c hc]))
  · have hall := hl.inRange hlen
    have hall' := hl.inRange hlen'
    rw [columnsCode_eq_iff (h.has hall) (h'.has hall'),
      h.value_eq_iff h' hall hall']
    constructor
    · exact hl.eq_of_columns hlen hlen'
    · rintro rfl
      exact fun _ _ => rfl

end Records

/-! ## Lists related element by element -/

section Pointwise

variable {α β : Type} {P R : α → β → Prop} {l₁ : List α} {l₂ : List β}

/-- Every element of one list has its partner in the other. -/
theorem exists_of_forall₂ (h : List.Forall₂ R l₁ l₂) :
    (∀ a ∈ l₁, ∃ b ∈ l₂, R a b) ∧ ∀ b ∈ l₂, ∃ a ∈ l₁, R a b := by
  induction h with
  | nil => exact ⟨List.forall_mem_nil _, List.forall_mem_nil _⟩
  | cons hab _ ih =>
      obtain ⟨hleft, hright⟩ := ih
      refine ⟨List.forall_mem_cons.mpr ⟨⟨_, List.mem_cons_self, hab⟩, ?_⟩,
        List.forall_mem_cons.mpr ⟨⟨_, List.mem_cons_self, hab⟩, ?_⟩⟩
      · intro a ha
        obtain ⟨b, hb, hab⟩ := hleft a ha
        exact ⟨b, List.mem_cons_of_mem _ hb, hab⟩
      · intro b hb
        obtain ⟨a, ha, hab⟩ := hright b hb
        exact ⟨a, List.mem_cons_of_mem _ ha, hab⟩

/-- A relation that says something of each side. -/
theorem forall₂_iff_of {Q : α → Prop} {S : β → Prop}
    (h : List.Forall₂ P l₁ l₂) (hiff : ∀ a b, P a b → (R a b ↔ Q a ∧ S b)) :
    List.Forall₂ R l₁ l₂ ↔ (∀ a ∈ l₁, Q a) ∧ ∀ b ∈ l₂, S b := by
  induction h with
  | nil => simp
  | cons hab _ ih =>
      rw [List.forall₂_cons, hiff _ _ hab, ih, List.forall_mem_cons,
        List.forall_mem_cons]
      tauto

end Pointwise

/-! ## The statement -/

/-- The column list names columns of the table, and each row has a cell for
    each name. -/
structure NamesColumns (table : TableInfo) (stmt : InsertStmt) : Prop where
  nonempty : stmt.columns ≠ []
  columns  : ∀ name ∈ stmt.columns,
    name ∈ table.columnList.map ColumnInfo.name
  lengths  : ∀ row ∈ stmt.lists, row.length = stmt.columns.length

section Main

variable {env : Env} {ho : HashOrder} {table : TableInfo} {stmt : InsertStmt}
  {memory : Nat → Memory (toRowDesc table)} {kv kv' : KvStorage}

/-- What can be stored is rows of integers in a table of `Int64` columns. -/
theorem Storable.ints (hl : Laid table) (hn : NamesColumns table stmt)
    (hs : Storable table stmt) {row : List ParserNode}
    (hrow : row ∈ stmt.lists) :
    (∃ us, row = intCells us ∧ 0 < us.length
        ∧ table.columnList.length ≤ us.length)
      ∧ ∀ c ∈ table.columnList, toExprType c.type.type = .int64 := by
  have hlen := hn.lengths row hrow
  constructor
  · obtain ⟨us, rfl⟩ : ∃ us, row = intCells us := by
      refine exists_intCells (fun cell hcell => ?_)
      obtain ⟨j, hj⟩ := List.getElem?_of_mem hcell
      obtain ⟨hlt, -⟩ := List.getElem?_eq_some_iff.mp hj
      rw [hlen] at hlt
      have hname := List.getElem?_eq_getElem hlt
      obtain ⟨c, hc, heq⟩ :=
        List.mem_map.mp (hn.columns _ (List.mem_of_getElem? hname))
      obtain ⟨v, hv, ht⟩ := hs.cells row hrow j c cell (heq ▸ hname) hj hc
      obtain ⟨u, hu, -⟩ := valueOf_typed hv ht (hl.typed c hc)
      exact ⟨u, hu⟩
    have hpos := List.length_pos_of_ne_nil hn.nonempty
    rw [← hlen, intCells, List.length_map] at hpos
    refine ⟨us, rfl, hpos, ?_⟩
    have hsub : table.columnList.map ColumnInfo.name ⊆ stmt.columns := by
      intro name hname
      obtain ⟨c, hc, rfl⟩ := List.mem_map.mp hname
      exact hs.named (List.ne_nil_of_mem hrow) c hc
    have hle := (hl.distinct.subperm hsub).length_le
    rw [List.length_map, ← hlen] at hle
    simpa only [intCells, List.length_map] using hle
  · intro c hc
    obtain ⟨j, hj⟩ :=
      List.getElem?_of_mem (hs.named (List.ne_nil_of_mem hrow) c hc)
    obtain ⟨hlt, -⟩ := List.getElem?_eq_some_iff.mp hj
    rw [← hlen] at hlt
    obtain ⟨v, hv, ht⟩ := hs.cells row hrow j c _ hj
      (List.getElem?_eq_getElem hlt) hc
    exact (valueOf_typed hv ht (hl.typed c hc)).choose_spec.2

/-- Integer literals evaluate to the integers. -/
theorem valueOf_intCells (us : List (BitVec 64)) :
    (intCells us).filterMap valueOf = us.map .int64 := by
  induction us with
  | nil => rfl
  | cons u us ih => exact congrArg (ExprValue.int64 u :: ·) ih

/-- A row of integers has the record of its literals in their places. -/
theorem HoldsInts.encodeRecord_positional {table : TableInfo} {r : Row}
    {us : List (BitVec 64)} (h : HoldsInts table r us) :
    Table.encodeRecord table (positional (intCells us))
      = Table.encodeRecord table r := by
  refine encodeRecord_congr ?_ table
  rw [h.tuple]
  exact congrArg some (valueOf_intCells us)

/-- The literals of a row are in place. -/
def RowInPlace (table : TableInfo) (stmt : InsertStmt)
    (row : List ParserNode) : Prop :=
  ∀ (j p : Nat) (c : ColumnInfo), table.columnList[p]? = some c →
    stmt.columns[j]? = some c.name → row[p]? = row[j]?

/-- A row of integers holds its literals where they are for just when they are
    in place. -/
theorem cells_iff (hl : Laid table) {us : List (BitVec 64)} {r : Row}
    (hlen : us.length = table.columnList.length) (h : HoldsInts table r us) :
    (∀ (j : Nat) (c : ColumnInfo), c ∈ table.columnList →
      stmt.columns[j]? = some c.name →
      ∃ cell v, (intCells us)[j]? = some cell ∧ valueOf cell = some v
        ∧ r.getColValue c.id = .ok v)
      ↔ RowInPlace table stmt (intCells us) := by
  constructor
  · intro hcells j p c hp hj
    obtain ⟨hlt, -⟩ := List.getElem?_eq_some_iff.mp hp
    obtain ⟨cell, v, hcell, hv, hget⟩ :=
      hcells j c (List.mem_of_getElem? hp) hj
    obtain ⟨u, hu, rfl⟩ := h.getColValue_ok hget
    rw [hl.positions p c hp, Nat.mod_eq_of_lt (hlt.trans hl.bounded)] at hu
    rw [intCells, List.getElem?_map] at hcell
    obtain ⟨u', hu', rfl⟩ := Option.map_eq_some_iff.mp hcell
    cases hv
    rw [intCells, List.getElem?_map, List.getElem?_map, hu, hu']
  · intro hplace j c hc hj
    obtain ⟨p, hp⟩ := List.getElem?_of_mem hc
    obtain ⟨hlt, -⟩ := List.getElem?_eq_some_iff.mp hp
    have heq := hplace j p c hp hj
    have hu := List.getElem?_eq_getElem (hlen ▸ hlt)
    refine ⟨.literal (.int us[p]), .int64 us[p], ?_, rfl, ?_⟩
    · rw [← heq, intCells, List.getElem?_map, hu]
      rfl
    · rw [h.getColValue_eq, hl.positions p c hp,
        Nat.mod_eq_of_lt (hlt.trans hl.bounded), hu]

/-- A row of the statement, the row made of it, and its record. -/
def Makes (table : TableInfo) (row : List ParserNode) (r : Row) : Prop :=
  ∃ us, row = intCells us ∧ us.length = table.columnList.length
    ∧ HoldsInts table r us

/-- The rows keep to what `Kept` says of the statement. -/
theorem kept_iff (hl : Laid table) {rows : List Row}
    {records : List (StoreKey × Bytes)}
    (hrows : List.Forall₂ (Makes table) stmt.lists rows)
    (hrecords : List.Forall₂
      (fun r e => Table.encodeRecord table r = .ok e) rows records) :
    (∀ e ∈ records, (Table.batched kv table records).data e.1 = some e.2)
      ↔ Kept table stmt kv := by
  obtain ⟨hrowOf, hrowFrom⟩ := exists_of_forall₂ hrows
  obtain ⟨hrecOf, hrecFrom⟩ := exists_of_forall₂ hrecords
  rw [Kept, Table.batched]
  -- whether the put of the records fails
  split_ifs with hf
  · constructor
    · intro h row hrow key value hrec
      obtain ⟨r, hr, us, rfl, -, hholds⟩ := hrowOf row hrow
      obtain ⟨e, he, hre⟩ := hrecOf r hr
      rw [hholds.encodeRecord_positional, hre] at hrec
      cases hrec
      exact h _ he
    · intro h e he
      obtain ⟨r, hr, hre⟩ := hrecFrom e he
      obtain ⟨row, hrow, us, rfl, -, hholds⟩ := hrowFrom r hr
      exact h _ hrow e.1 e.2 (hholds.encodeRecord_positional.trans hre)
  · -- of the records under one key the last is kept
    rw [KvStorage.writeBatch_keeps_iff]
    constructor
    · intro h row hrow row' hrow' hkey
      obtain ⟨r, hr, us, rfl, hlen, hholds⟩ := hrowOf row hrow
      obtain ⟨r', hr', us', rfl, hlen', hholds'⟩ := hrowOf row' hrow'
      obtain ⟨e, he, hre⟩ := hrecOf r hr
      obtain ⟨e', he', hre'⟩ := hrecOf r' hr'
      obtain ⟨hkeys, hvalues⟩ :=
        record_eq_iff hl hlen hlen' hholds hholds' hre hre'
      rw [hvalues.mp (h e he e' he' (hkeys.mpr hkey))]
    · intro h e he e' he' heq
      obtain ⟨r, hr, hre⟩ := hrecFrom e he
      obtain ⟨r', hr', hre'⟩ := hrecFrom e' he'
      obtain ⟨row, hrow, us, rfl, hlen, hholds⟩ := hrowFrom r hr
      obtain ⟨row', hrow', us', rfl, hlen', hholds'⟩ := hrowFrom r' hr'
      obtain ⟨hkeys, hvalues⟩ :=
        record_eq_iff hl hlen hlen' hholds hholds' hre hre'
      have hsame := congrArg (List.filterMap valueOf)
        (h _ hrow _ hrow' (hkeys.mp heq))
      rw [valueOf_intCells, valueOf_intCells] at hsame
      exact hvalues.mpr (List.map_injective_iff.mpr
        (fun _ _ hu => ExprValue.int64.inj hu) hsame)

/-- What `Consume` stores of a statement all of whose cells can be stored. -/
theorem stored_iff (hl : Laid table) (hn : NamesColumns table stmt)
    (hs : Storable table stmt) {status : Status} {exec : InsertExecutor}
    {chunk : Chunk} (hok : insertStatement env ho table stmt memory kv
      = .ok (status, exec, chunk, kv')) :
    List.Forall₂ (RowStored table stmt kv') stmt.lists chunk.select
      ↔ InPlace table stmt ∧ Kept table stmt kv := by
  obtain ⟨-, hfill, records, hrecords, hsame⟩ := consume_ok hok
  have hfill : fillRows memory 0 (stmt.lists.map (·.map toExprNode))
      = .ok chunk.select := hfill
  -- without a row there is nothing to store
  by_cases hnil : stmt.lists = []
  · rw [hnil] at hfill
    rw [← Except.ok.inj hfill, hnil]
    refine iff_of_true .nil ⟨?_, ?_⟩
    · rw [InPlace, hnil]
      exact List.forall_mem_nil _
    · rw [Kept, hnil]
      split_ifs <;> exact List.forall_mem_nil _
  obtain ⟨row₀, hrow₀⟩ := List.exists_mem_of_ne_nil _ hnil
  have hrows : List.Forall₂ (Makes table) stmt.lists chunk.select :=
    fillRows_ints hl (hs.ints hl hn hrow₀).2
      (fun row hrow => (hs.ints hl hn hrow).1) hfill
  -- a row is as the statement has it when its cells are in place
  have hrow : ∀ row r, Makes table row r →
      (RowStored table stmt kv' row r ↔ RowInPlace table stmt row
        ∧ ∃ key value, Table.encodeRecord table r = .ok (key, value)
          ∧ kv'.data key = some value) := by
    rintro row r ⟨us, rfl, hlen, hholds⟩
    have hothers : ∀ c ∈ table.columnList, ∃ j : Nat,
        stmt.columns[j]? = some c.name :=
      fun c hc => List.getElem?_of_mem (hs.named hnil c hc)
    rw [← cells_iff hl hlen hholds]
    exact ⟨fun h => ⟨h.cells, h.record⟩, fun h => ⟨h.1, hothers, h.2⟩⟩
  have hrecords := Exec.mapM_eq_ok.mp hrecords
  obtain ⟨hrecOf, hrecFrom⟩ := exists_of_forall₂ hrecords
  rw [forall₂_iff_of hrows hrow, ← kept_iff hl hrows hrecords]
  refine and_congr_right (fun _ => ⟨?_, ?_⟩)
  · intro h e he
    obtain ⟨r, hr, hre⟩ := hrecFrom e he
    obtain ⟨key, value, hkv, hvalue⟩ := h r hr
    cases hre.symm.trans hkv
    rw [← hvalue]
    exact (SameRecords.encodeRecord hsame hre).symm
  · intro h r hr
    obtain ⟨e, he, hre⟩ := hrecOf r hr
    exact ⟨e.1, e.2, hre, (SameRecords.encodeRecord hsame hre).trans (h e he)⟩

/-- `Consume` has no other status to return than `C_OK`. -/
theorem StoresByName.storable (h : StoresByName env ho table stmt memory kv) :
    Storable table stmt := by
  by_contra hno
  obtain ⟨status, exec, chunk, kv', hok, hstatus, -⟩ := h.refused hno
  exact hstatus (consume_ok hok).1

/-- Where the call returns, the literals are in place and kept. -/
theorem StoresByName.inPlace (h : StoresByName env ho table stmt memory kv)
    (hl : Laid table) (hn : NamesColumns table stmt)
    (hret : ∃ r, insertStatement env ho table stmt memory kv = .ok r) :
    InPlace table stmt ∧ Kept table stmt kv := by
  obtain ⟨⟨status, exec, chunk, kv'⟩, hok⟩ := hret
  obtain rfl := (consume_ok hok).1
  exact (stored_iff hl hn h.storable hok).mp (h.stored exec chunk kv' hok)

/-- The statement does what it should just when all columns are named, each
    literal is of its column's type and, where the call returns, each stands at
    its column's position and no row takes the place of another. -/
theorem storesByName_iff (hl : Laid table) (hn : NamesColumns table stmt)
    (env : Env) (ho : HashOrder) (memory : Nat → Memory (toRowDesc table))
    (kv : KvStorage) :
    StoresByName env ho table stmt memory kv
      ↔ Storable table stmt
        ∧ ((∃ r, insertStatement env ho table stmt memory kv = .ok r) →
          InPlace table stmt ∧ Kept table stmt kv) := by
  constructor
  · intro h
    exact ⟨h.storable, h.inPlace hl hn⟩
  · rintro ⟨hs, h⟩
    refine ⟨?_, fun hno => absurd hs hno⟩
    intro exec chunk kv' hok
    exact (stored_iff hl hn hs hok).mpr (h ⟨_, hok⟩)

end Main

/-! ## What `CREATE TABLE` makes -/

/-- The id of a column is its position in the statement. -/
theorem columnInfos_id {tableId : Nat} {tableName : Bytes} {i p : Nat}
    {colDefs : List ColumnDef} {c : ColumnInfo}
    (h : (columnInfos tableId tableName i colDefs)[p]? = some c) :
    c.id = i + p := by
  induction colDefs generalizing i p with
  | nil => cases h
  | cons colDef colDefs ih =>
      cases p with
      | zero =>
          cases h
          rfl
      | succ p =>
          rw [ih h]
          omega

/-- A loaded table is laid out so when its statement named no column twice. -/
theorem laid_deserialize {stmt : CreateTableStmt} {dbId tableId now : Nat}
    {info : TableInfo} (h : newTableInfo stmt dbId tableId now = .ok info)
    (hlen : stmt.columns.length < 2 ^ 32)
    (hdistinct : (stmt.columns.map ColumnDef.name).Nodup) :
    Laid (.deserialize info.serialize) := by
  obtain ⟨indexList, -, hinfo⟩ := Exec.bind_eq_ok.mp h
  cases hinfo
  rw [TableInfo.deserialize_serialize]
  refine ⟨?_, ?_, ?_, ?_⟩
  · rw [List.length_map]
    have hnames := congrArg List.length
      (@map_name_columnInfos tableId stmt.table 0 stmt.columns)
    rw [List.length_map, List.length_map] at hnames
    exact hnames ▸ hlen
  · intro p c hc
    rw [List.getElem?_map] at hc
    obtain ⟨c', hc', rfl⟩ := Option.map_eq_some_iff.mp hc
    exact (columnInfos_id hc').trans (Nat.zero_add p)
  · rw [List.map_map]
    exact (@map_name_columnInfos tableId stmt.table 0 stmt.columns) ▸ hdistinct
  · intro c hc
    obtain ⟨c', -, rfl⟩ := List.mem_map.mp hc
    exact (by decide : toExprType .decimal ≠ .null)

/-! ## Statements about one table -/

/-- Integers can be stored in columns of integers. -/
theorem Storable.of_ints {table : TableInfo} {stmt : InsertStmt}
    (hint : ∀ c ∈ table.columnList, toExprType c.type.type = .int64)
    (hrows : ∀ row ∈ stmt.lists, ∃ us, row = intCells us)
    (hnamed : ∀ c ∈ table.columnList, c.name ∈ stmt.columns) :
    Storable table stmt := by
  refine ⟨?_, fun _ => hnamed⟩
  intro row hrow j c cell _ hcell hc
  obtain ⟨us, rfl⟩ := hrows row hrow
  rw [intCells, List.getElem?_map] at hcell
  obtain ⟨u, -, rfl⟩ := Option.map_eq_some_iff.mp hcell
  exact ⟨.int64 u, rfl, (hint c hc).symm⟩

/-- A column list in the order of the table. -/
theorem inPlace_of_order {table : TableInfo} {stmt : InsertStmt}
    (hl : Laid table)
    (h : stmt.columns = table.columnList.map ColumnInfo.name) :
    InPlace table stmt := by
  intro row _ j p c hp hj
  have hname : (table.columnList.map ColumnInfo.name)[p]? = some c.name := by
    rw [List.getElem?_map, hp]
    rfl
  obtain ⟨hlt, -⟩ := List.getElem?_eq_some_iff.mp hname
  rw [h] at hj
  rw [(List.getElem?_inj hlt hl.distinct).mp (hname.trans hj.symm)]

/-- `t (a BIGINT, b BIGINT, PRIMARY KEY (a))` of database 1, as loaded. -/
def pairs : TableInfo :=
  { id := 7, dbId := 1,
    columnList := [{ id := 0, name := [97] }, { id := 1, name := [98] }],
    indexList := [{ id := 0, columns := [{ id := 0, name := [97] }],
                    type := .primary }],
    primaryIndex := some 0 }

theorem laid_pairs : Laid pairs := by
  refine ⟨by decide, ?_, by decide, by decide⟩
  intro p c hc
  rcases p with - | - | p <;> cases hc <;> rfl

/-- `INSERT INTO t (...) VALUES (1, ...)`, the second literal as given. -/
def insertPair (columns : List Bytes) (second : Literal) : InsertStmt :=
  { db := [100], table := [116], columns,
    lists := [[.literal (.int 1), .literal second]] }

/-- New rows of `t`, zero throughout. -/
def zeros (_ : Nat) : Memory (toRowDesc pairs) where
  values  := [.int64 0, .int64 0]
  typed   := rfl
  bounded := by simp [ExprValue.Bounded]
  objects := .ofAddresses (fun _ => 0)

/-- Both columns are named, in one order or the other. -/
theorem namesColumns_pair {columns : List Bytes} (second : Literal)
    (h : columns = [[97], [98]] ∨ columns = [[98], [97]]) :
    NamesColumns pairs (insertPair columns second) := by
  have hcolumns : columns ≠ [] ∧ columns.length = 2
      ∧ ∀ name ∈ columns, name ∈ pairs.columnList.map ColumnInfo.name := by
    rcases h with rfl | rfl <;> decide
  refine ⟨hcolumns.1, hcolumns.2.2, ?_⟩
  intro row hrow
  rw [List.mem_singleton.mp hrow]
  exact hcolumns.2.1.symm

/-- Named in the table's order, the values go where they belong. -/
theorem storesByName_iff_in_order :
    StoresByName (.wire 10) .inOrder pairs
      (insertPair [[97], [98]] (.int 2)) zeros .empty := by
  refine (storesByName_iff laid_pairs (namesColumns_pair _ (.inl rfl)) _ _ _
    _).mpr ⟨.of_ints (by decide) ?_ (by decide), fun _ => ⟨?_, ?_⟩⟩
  · exact List.forall_mem_singleton.mpr ⟨[1, 2], rfl⟩
  · exact inPlace_of_order laid_pairs rfl
  · intro row hrow row' hrow' _
    rw [List.mem_singleton.mp hrow, List.mem_singleton.mp hrow']

/-- What a statement about `t` answers, and what its rows hold. -/
def inserted (stmt : InsertStmt) :
    Exec (Status × List (Exec ExprValue × Exec ExprValue)) := do
  let r ← insertStatement (.wire 10) .inOrder pairs stmt zeros .empty
  return (r.1, r.2.2.1.select.map (fun row =>
    (row.getColValue 0, row.getColValue 1)))

/-- `INSERT INTO t (b, a) VALUES (1, 2)` stores 1 in `a` and 2 in `b`;
    `VALUES (1, NULL)` leaves `b` as it was in memory and succeeds; and a
    string dereferences a null pointer. -/
theorem column_list_is_not_looked_at :
    (inserted (insertPair [[98], [97]] (.int 2))
        = .ok (.ok, [(.ok (.int64 1), .ok (.int64 2))])
      ∧ ¬ StoresByName (.wire 10) .inOrder pairs
        (insertPair [[98], [97]] (.int 2)) zeros .empty)
    ∧ (inserted (insertPair [[97], [98]] .null)
        = .ok (.ok, [(.ok (.int64 1), .ok (.int64 0))])
      ∧ ¬ StoresByName (.wire 10) .inOrder pairs
        (insertPair [[97], [98]] .null) zeros .empty)
    ∧ inserted (insertPair [[97], [98]] (.string [120])) = .error .undefined
      ∧ ¬ StoresByName (.wire 10) .inOrder pairs
        (insertPair [[97], [98]] (.string [120])) zeros .empty := by
  have hunstorable : ∀ second, (∀ v, valueOf (.literal second) = some v →
      v.type ≠ .int64) → ¬ Storable pairs (insertPair [[97], [98]] second) := by
    intro second hv hs
    obtain ⟨v, hval, ht⟩ := hs.cells _ (List.mem_singleton_self _) 1
      { id := 1, name := [98] } (.literal second) rfl rfl (by decide)
    exact hv v hval ht
  have hswapped : inserted (insertPair [[98], [97]] (.int 2))
      = .ok (.ok, [(.ok (.int64 1), .ok (.int64 2))]) := by decide +kernel
  refine ⟨⟨hswapped, ?_⟩, ⟨by decide +kernel, ?_⟩, by decide +kernel, ?_⟩
  · intro h
    obtain ⟨r, hok, -⟩ := Exec.bind_eq_ok.mp hswapped
    obtain ⟨hplace, -⟩ :=
      h.inPlace laid_pairs (namesColumns_pair _ (.inr rfl)) ⟨r, hok⟩
    exact absurd (hplace _ (List.mem_singleton_self _) 1 0
      { id := 0, name := [97] } rfl rfl) (by decide)
  · refine fun h => hunstorable .null (fun v hv => ?_) h.storable
    cases hv
    decide
  · refine fun h => hunstorable (.string [120]) (fun v hv => ?_) h.storable
    cases hv

end AmDb.Executor
