import AmDb.Foundation.GrowingVector
import AmDb.Schema.Schema

/-! # The lookups of a table

    `TableInfo` as the object it is: two vectors, and six members that point
    into them.  `Deserialize` fills them while the vectors grow; it reserves
    first, so no pointer is lost. -/

namespace AmDb.Schema

open GrowingVector

/-- The members of `TableInfo` that are vectors or lead into them. -/
structure TableObject where
  columnList      : Vec ColumnInfo := {}
  nameToColumn    : Bytes → Option Pointer := fun _ => none
  idToColumn      : Nat → Option Pointer := fun _ => none
  indexList       : Vec IndexInfo := {}
  idToIndex       : Nat → Option Pointer := fun _ => none
  nameToIndex     : Bytes → Option Pointer := fun _ => none
  columnIdToIndex : Nat → Option (List Pointer) := fun _ => none
  primaryIndex    : Option Pointer := none

namespace TableObject

/-- The body of the loop over the columns. -/
def addColumn (t : TableObject) (column : ColumnProto) : TableObject :=
  let columnInfo := ColumnInfo.deserialize column
  let columnList := t.columnList.emplaceBack columnInfo
  let back := some columnList.pointerToBack
  { t with
    columnList
    idToColumn := Function.update t.idToColumn columnInfo.id back
    nameToColumn := Function.update t.nameToColumn columnInfo.name back }

/-- The body of the loop over the indexes. -/
def addIndex (t : TableObject) (index : IndexProto) : TableObject :=
  let indexInfo := IndexInfo.deserialize index
  let indexList := t.indexList.emplaceBack indexInfo
  let back := some indexList.pointerToBack
  { t with
    indexList
    primaryIndex :=
      if indexInfo.type = .primary then back else t.primaryIndex
    idToIndex := Function.update t.idToIndex index.id back
    nameToIndex := Function.update t.nameToIndex index.name back }

/-- The last two loops: over the indexes, and over the columns of each. -/
def fillColumnIdToIndex (t : TableObject) : TableObject :=
  { t with
    columnIdToIndex := t.indexList.elems.zipIdx.foldl
      (fun m index => index.1.columns.foldl (fun m column =>
        addTo m (column.id, t.indexList.pointerTo index.2)) m)
      t.columnIdToIndex }

def reserveColumns (t : TableObject) (input : TableProto) : TableObject :=
  { t with columnList := t.columnList.reserve input.columns.length }

def reserveIndexes (t : TableObject) (input : TableProto) : TableObject :=
  { t with indexList := t.indexList.reserve input.colIndex.length }

/-- `TableInfo::Deserialize`. -/
def deserialize (t : TableObject) (input : TableProto) : TableObject :=
  let t := input.columns.foldl addColumn (t.reserveColumns input)
  let t := input.colIndex.foldl addIndex (t.reserveIndexes input)
  t.fillColumnIdToIndex

/-- The pointers to the indexes over a column, an index once for each time it
    has the column. -/
def indexesOver (v : Vec IndexInfo) (columnId : Nat) : List Pointer :=
  v.elems.zipIdx.flatMap (fun index =>
    (index.1.columns.filter (fun column => column.id = columnId)).map
      (fun _ => v.pointerTo index.2))

/-- Every lookup agrees with the lists, and these with the message. -/
structure Agrees (t : TableObject) (input : TableProto) : Prop where
  columns         : t.columnList.elems
    = input.columns.map ColumnInfo.deserialize
  idToColumn      : Indexes t.idToColumn t.columnList ColumnInfo.id
  nameToColumn    : Indexes t.nameToColumn t.columnList ColumnInfo.name
  indexes         : t.indexList.elems
    = input.colIndex.map IndexInfo.deserialize
  idToIndex       : Indexes t.idToIndex t.indexList IndexInfo.id
  nameToIndex     : Indexes t.nameToIndex t.indexList IndexInfo.name
  primaryIndex    : ∀ p, t.primaryIndex = some p
    ↔ PointsTo t.indexList (fun index => index.type = .primary) p
  columnIdToIndex : ∀ columnId, t.columnIdToIndex columnId
    = entry (indexesOver t.indexList columnId)

end TableObject

/-- The cast type of an index is `CONSTRAINT_PRIMARY`. -/
def IndexProto.IsPrimary (index : IndexProto) : Prop :=
  ConstraintType.ofVal index.type = .primary

instance : DecidablePred IndexProto.IsPrimary :=
  fun _ => inferInstanceAs (Decidable (_ = _))

/-- A table description: ids and names tell columns and indexes apart, and at
    most one index is primary. -/
structure TableProto.Distinct (input : TableProto) : Prop where
  columnIds   : (input.columns.map ColumnProto.id).Nodup
  columnNames : (input.columns.map ColumnProto.name).Nodup
  indexIds    : (input.colIndex.map IndexProto.id).Nodup
  indexNames  : (input.colIndex.map IndexProto.name).Nodup
  primary     : (input.colIndex.filter
    (fun index => decide index.IsPrimary)).length ≤ 1

namespace TableObject

/-- A key that comes next among distinct keys has not come before. -/
theorem next_not_mem {α κ : Type} {key : α → κ} {done rest : List α} {a : α}
    (h : ((done ++ a :: rest).map key).Nodup) : key a ∉ done.map key := by
  intro hmem
  rw [List.map_append, List.map_cons] at h
  exact (List.nodup_append.mp h).2.2 _ hmem _ List.mem_cons_self rfl

/-! ## The columns -/

section Columns

variable {t : TableObject} {done rest : List ColumnProto} {column : ColumnProto}

/-- The columns read so far. -/
structure ColumnsRead (t : TableObject) (done : List ColumnProto) : Prop where
  elems  : t.columnList.elems = done.map ColumnInfo.deserialize
  byId   : Indexes t.idToColumn t.columnList ColumnInfo.id
  byName : Indexes t.nameToColumn t.columnList ColumnInfo.name

/-- One more column, found by its id and by its name. -/
theorem ColumnsRead.addColumn (h : ColumnsRead t done)
    (hfit : done.length < t.columnList.capacity)
    (hid : column.id ∉ done.map ColumnProto.id)
    (hname : column.name ∉ done.map ColumnProto.name) :
    ColumnsRead (t.addColumn column) (done ++ [column])
      ∧ (t.addColumn column).columnList.capacity = t.columnList.capacity := by
  have hlt : t.columnList.elems.length < t.columnList.capacity := by
    rwa [h.elems, List.length_map]
  refine ⟨⟨?_, h.byId.emplaceBack hlt ?_, h.byName.emplaceBack hlt ?_⟩,
    Vec.capacity_emplaceBack hlt⟩
  · show (t.columnList.emplaceBack _).elems = _
    rw [Vec.elems_emplaceBack, h.elems, List.map_append, List.map_singleton]
  · rwa [h.elems, List.map_map]
  · rwa [h.elems, List.map_map]

/-- The loop over the columns. -/
theorem ColumnsRead.foldl (h : ColumnsRead t done)
    (hfit : (done ++ rest).length ≤ t.columnList.capacity)
    (hid : ((done ++ rest).map ColumnProto.id).Nodup)
    (hname : ((done ++ rest).map ColumnProto.name).Nodup) :
    ColumnsRead (rest.foldl TableObject.addColumn t) (done ++ rest) := by
  induction rest generalizing t done with
  | nil => rwa [List.append_nil]
  | cons column rest ih =>
      have hlt : done.length < t.columnList.capacity := by
        rw [List.length_append, List.length_cons] at hfit
        omega
      obtain ⟨hstep, hcap⟩ := h.addColumn hlt (next_not_mem hid)
        (next_not_mem hname)
      have hcons : done ++ column :: rest = done ++ [column] ++ rest := by simp
      rw [hcons] at hfit hid hname ⊢
      exact ih hstep (hcap.symm ▸ hfit) hid hname

end Columns

/-! ## The indexes -/

section Indexes

variable {t : TableObject} {done rest : List IndexProto} {index : IndexProto}
  {m : Vec IndexInfo}

/-- The indexes read so far. -/
structure IndexesRead (t : TableObject) (done : List IndexProto) : Prop where
  elems   : t.indexList.elems = done.map IndexInfo.deserialize
  byId    : Indexes t.idToIndex t.indexList IndexInfo.id
  byName  : Indexes t.nameToIndex t.indexList IndexInfo.name
  primary : ∀ p, t.primaryIndex = some p
    ↔ PointsTo t.indexList (fun index => index.type = .primary) p

/-- One more index, found likewise. -/
theorem IndexesRead.addIndex (h : IndexesRead t done)
    (hfit : done.length < t.indexList.capacity)
    (hid : index.id ∉ done.map IndexProto.id)
    (hname : index.name ∉ done.map IndexProto.name)
    (hprimary : index.IsPrimary → ∀ x ∈ done, ¬ x.IsPrimary) :
    IndexesRead (t.addIndex index) (done ++ [index])
      ∧ (t.addIndex index).indexList.capacity = t.indexList.capacity := by
  have hlt : t.indexList.elems.length < t.indexList.capacity := by
    rwa [h.elems, List.length_map]
  have hbyId := h.byId.emplaceBack (a := IndexInfo.deserialize index) hlt
    (by rwa [h.elems, List.map_map])
  have hbyName := h.byName.emplaceBack (a := IndexInfo.deserialize index) hlt
    (by rwa [h.elems, List.map_map])
  refine ⟨⟨?_, hbyId, hbyName, fun p => ?_⟩, Vec.capacity_emplaceBack hlt⟩
  · show (t.indexList.emplaceBack _).elems = _
    rw [Vec.elems_emplaceBack, h.elems, List.map_append, List.map_singleton]
  · show (if (IndexInfo.deserialize index).type = .primary then _ else _)
      = some p ↔ PointsTo (t.indexList.emplaceBack _) _ p
    rw [pointsTo_emplaceBack hlt]
    split_ifs with hp
    · -- the first primary index
      have hnone : ¬ PointsTo t.indexList
          (fun index => index.type = .primary) p := by
        rintro ⟨i, x, hi, hx, -⟩
        have hmem := List.mem_of_getElem? hi
        rw [h.elems] at hmem
        obtain ⟨y, hy, rfl⟩ := List.mem_map.mp hmem
        exact hprimary hp y hy hx
      rw [Option.some.injEq, eq_comm]
      exact ⟨fun heq => Or.inr ⟨hp, heq⟩, fun hor =>
        (hor.resolve_left hnone).2⟩
    · rw [h.primary]
      exact ⟨Or.inl, fun hor => hor.resolve_right (fun hand => hp hand.1)⟩

/-- The loop over the indexes. -/
theorem IndexesRead.foldl (h : IndexesRead t done)
    (hfit : (done ++ rest).length ≤ t.indexList.capacity)
    (hid : ((done ++ rest).map IndexProto.id).Nodup)
    (hname : ((done ++ rest).map IndexProto.name).Nodup)
    (hprimary : ((done ++ rest).filter
      (fun index => decide index.IsPrimary)).length ≤ 1) :
    IndexesRead (rest.foldl TableObject.addIndex t) (done ++ rest) := by
  induction rest generalizing t done with
  | nil => rwa [List.append_nil]
  | cons index rest ih =>
      have hlt : done.length < t.indexList.capacity := by
        rw [List.length_append, List.length_cons] at hfit
        omega
      have hfirst : index.IsPrimary → ∀ x ∈ done, ¬ x.IsPrimary := by
        intro hp x hx hxp
        have hmem : x ∈ done.filter (fun index => decide index.IsPrimary) :=
          List.mem_filter.mpr ⟨hx, decide_eq_true hxp⟩
        have hpos := List.length_pos_of_mem hmem
        rw [List.filter_append, List.length_append, List.filter_cons,
          if_pos (decide_eq_true hp), List.length_cons] at hprimary
        omega
      obtain ⟨hstep, hcap⟩ := h.addIndex hlt (next_not_mem hid)
        (next_not_mem hname) hfirst
      have hcons : done ++ index :: rest = done ++ [index] ++ rest := by simp
      rw [hcons] at hfit hid hname hprimary ⊢
      exact ih hstep (hcap.symm ▸ hfit) hid hname hprimary

end Indexes

/-! ## The object -/

section Object

variable {t : TableObject} {input : TableProto}

/-- The loop over the indexes leaves the columns alone. -/
theorem foldl_addIndex_columns (t : TableObject) (indexes : List IndexProto) :
    (indexes.foldl addIndex t).columnList = t.columnList
      ∧ (indexes.foldl addIndex t).idToColumn = t.idToColumn
      ∧ (indexes.foldl addIndex t).nameToColumn = t.nameToColumn
      ∧ (indexes.foldl addIndex t).columnIdToIndex = t.columnIdToIndex := by
  induction indexes generalizing t with
  | nil => exact ⟨rfl, rfl, rfl, rfl⟩
  | cons index indexes ih => exact ih (t.addIndex index)

/-- The loop over the columns leaves the indexes alone. -/
theorem foldl_addColumn_indexes (t : TableObject)
    (columns : List ColumnProto) :
    (columns.foldl addColumn t).indexList = t.indexList
      ∧ (columns.foldl addColumn t).idToIndex = t.idToIndex
      ∧ (columns.foldl addColumn t).nameToIndex = t.nameToIndex
      ∧ (columns.foldl addColumn t).primaryIndex = t.primaryIndex
      ∧ (columns.foldl addColumn t).columnIdToIndex = t.columnIdToIndex := by
  induction columns generalizing t with
  | nil => exact ⟨rfl, rfl, rfl, rfl, rfl⟩
  | cons column columns ih => exact ih (t.addColumn column)

/-- The last loops enter every index under each of its columns. -/
theorem fillColumnIdToIndex_spec (h : t.columnIdToIndex = fun _ => none)
    (columnId : Nat) :
    t.fillColumnIdToIndex.columnIdToIndex columnId
      = entry (indexesOver t.indexList columnId) := by
  have hpairs : t.fillColumnIdToIndex.columnIdToIndex
      = (t.indexList.elems.zipIdx.flatMap (fun index =>
          index.1.columns.map (fun column =>
            (column.id, t.indexList.pointerTo index.2)))).foldl addTo
          (fun _ => entry []) := by
    show t.indexList.elems.zipIdx.foldl _ t.columnIdToIndex = _
    rw [h, List.foldl_flatMap]
    simp only [List.foldl_map]
    rfl
  rw [hpairs, foldl_addTo]
  show entry ([] ++ valuesOf _ columnId) = _
  rw [List.nil_append, valuesOf, indexesOver, List.filter_flatMap,
    List.map_flatMap]
  simp only [List.filter_map, List.map_map]
  rfl

/-- All columns are read after a `reserve` for them. -/
theorem columnsRead_reserve (h : input.Distinct) :
    ColumnsRead (input.columns.foldl addColumn (reserveColumns {} input))
      input.columns := by
  refine @ColumnsRead.foldl _ [] _ ⟨?_, ?_, ?_⟩ ?_ h.columnIds
    h.columnNames
  · exact Vec.elems_reserve ..
  · exact indexes_nil (Vec.elems_reserve ..) _
  · exact indexes_nil (Vec.elems_reserve ..) _
  · exact Vec.le_capacity_reserve ..

/-- All indexes are read after a `reserve` for them. -/
theorem indexesRead_reserve (h : input.Distinct)
    (helems : t.indexList.elems = []) (hid : t.idToIndex = fun _ => none)
    (hname : t.nameToIndex = fun _ => none) (hprimary : t.primaryIndex = none) :
    IndexesRead (input.colIndex.foldl addIndex (t.reserveIndexes input))
      input.colIndex := by
  have hnil : (t.reserveIndexes input).indexList.elems = [] :=
    (Vec.elems_reserve ..).trans helems
  refine @IndexesRead.foldl _ [] _ ⟨hnil, ?_, ?_, fun p => ?_⟩ ?_
    h.indexIds h.indexNames h.primary
  · show Indexes t.idToIndex _ _
    rw [hid]
    exact indexes_nil hnil _
  · show Indexes t.nameToIndex _ _
    rw [hname]
    exact indexes_nil hnil _
  · show t.primaryIndex = some p ↔ _
    rw [hprimary]
    refine ⟨fun hp => ?_, fun hp => absurd hp (pointsTo_nil hnil)⟩
    cases hp
  · exact Vec.le_capacity_reserve ..

/-- The pointer to the primary index, as a position. -/
theorem foldl_addIndex_primary (t : TableObject) (indexes : List IndexProto) :
    (indexes.foldl addIndex t).primaryIndex.map Pointer.position
      = lastPrimary t.indexList.elems.length
          (t.primaryIndex.map Pointer.position)
          (indexes.map IndexInfo.deserialize) := by
  induction indexes generalizing t with
  | nil => rfl
  | cons index indexes ih =>
      have hlen : (t.addIndex index).indexList.elems.length
          = t.indexList.elems.length + 1 := by
        show (t.indexList.emplaceBack _).elems.length = _
        rw [Vec.elems_emplaceBack, List.length_append, List.length_singleton]
      have hback : (t.addIndex index).primaryIndex.map Pointer.position
          = if (IndexInfo.deserialize index).type = .primary
            then some t.indexList.elems.length
            else t.primaryIndex.map Pointer.position := by
        show Option.map _ (if _ then some (Vec.pointerToBack _) else _) = _
        rw [Vec.pointerToBack_emplaceBack]
        split_ifs
        · rfl
        · rfl
      rw [List.foldl_cons, ih, hlen, hback]
      rfl

/-- The table as the rest of the development has it is this object with
    positions for pointers. -/
theorem deserialize_primaryIndex (input : TableProto) :
    (deserialize {} input).primaryIndex.map Pointer.position
      = (TableInfo.deserialize input).primaryIndex := by
  obtain ⟨hlist, -, -, hprimary, -⟩ :=
    foldl_addColumn_indexes (reserveColumns {} input) input.columns
  show (input.colIndex.foldl addIndex _).primaryIndex.map _ = lastPrimary 0 none
    (input.colIndex.map IndexInfo.deserialize)
  have hlen : ((input.columns.foldl addColumn (reserveColumns {} input)
      ).reserveIndexes input).indexList.elems.length = 0 := by
    rw [reserveIndexes, Vec.elems_reserve, hlist]
    rfl
  rw [foldl_addIndex_primary, hlen]
  show lastPrimary 0 (Option.map _ (input.columns.foldl addColumn _
    ).primaryIndex) _ = _
  rw [hprimary]
  rfl

/-- After `Deserialize` into a fresh object every lookup agrees with the lists. -/
theorem deserialize_agrees (h : input.Distinct) :
    Agrees (deserialize {} input) input := by
  have hcols := columnsRead_reserve h
  obtain ⟨hlist, hid, hname, hprimary, hover⟩ :=
    foldl_addColumn_indexes (reserveColumns {} input) input.columns
  -- indexes do not touch the columns, nor columns the indexes
  have hindexes := @indexesRead_reserve
    (input.columns.foldl addColumn (reserveColumns {} input)) input h
    (by rw [hlist]; rfl) (by rw [hid]; rfl) (by rw [hname]; rfl)
    (by rw [hprimary]; rfl)
  obtain ⟨hcolumns, hcolId, hcolName, hcolIndex⟩ := foldl_addIndex_columns
    ((input.columns.foldl addColumn (reserveColumns {} input)).reserveIndexes
      input) input.colIndex
  refine ⟨?_, ?_, ?_, hindexes.elems, hindexes.byId, hindexes.byName,
    hindexes.primary, fillColumnIdToIndex_spec ?_⟩
  · exact (congrArg Vec.elems hcolumns).trans hcols.elems
  · have h := hcols.byId
    rw [← show _ = (input.columns.foldl addColumn _).columnList from hcolumns,
      ← show _ = (input.columns.foldl addColumn _).idToColumn from hcolId] at h
    exact h
  · have h := hcols.byName
    rw [← show _ = (input.columns.foldl addColumn _).columnList from hcolumns,
      ← show _ = (input.columns.foldl addColumn _).nameToColumn
        from hcolName] at h
    exact h
  · exact hcolIndex.trans hover

/-- Two columns, a primary index on the first and one on both, the second
    twice. -/
def twoIndexes : TableProto where
  id := 1
  name := [116]
  databaseId := 1
  databaseName := [100]
  columns := [⟨1, [97], 1, [116], []⟩, ⟨2, [98], 1, [116], []⟩]
  colIndex := [
    ⟨1, [112], 1, [116], [⟨1, [97], 1, [116], []⟩], 1, [], 0, 0⟩,
    ⟨2, [105], 1, [116], [⟨2, [98], 1, [116], []⟩, ⟨1, [97], 1, [116], []⟩,
      ⟨2, [98], 1, [116], []⟩], 2, [], 0, 0⟩]
  createTs := 0
  updateTs := 0

theorem deserialize_agrees_twoIndexes :
    Agrees (deserialize {} twoIndexes) twoIndexes :=
  deserialize_agrees ⟨by decide, by decide, by decide, by decide, by decide⟩

example : (deserialize {} twoIndexes).columnIdToIndex 2
    = some [⟨1, 1⟩, ⟨1, 1⟩] := by decide

end Object

end TableObject

end AmDb.Schema
