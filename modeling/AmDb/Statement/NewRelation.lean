import AmDb.Statement.StoredRelation

/-! # The table of a new relation

    The record that `CREATE TABLE` makes of a statement with one primary key of
    one column, once it was stored and loaded, is the table of an empty
    relation. -/

namespace AmDb.Statement

open Codec Schema Storage Chunk AmDb.Expr Analyzer Executor

section Record

variable {stmt : CreateTableStmt} {r : Relation} {dbId tableId now : Nat}
  {info : TableInfo} {columnList : List ColumnInfo} {tableName : Bytes}

/-- Each constraint has its index, and the indexes are numbered. -/
theorem indexInfos_forall₂ {i : Nat} {consDefs : List Constraint}
    {indexList : List IndexInfo} (h : indexInfos tableId tableName columnList i
      consDefs = .ok indexList) :
    List.Forall₂ (fun consDef index => index.type = consDef.type
        ∧ constraintColumns columnList consDef.columns = .ok index.columns)
      consDefs indexList
      ∧ indexList.map IndexInfo.id = List.range' i consDefs.length := by
  induction consDefs generalizing i indexList with
  | nil =>
      cases h
      exact ⟨.nil, rfl⟩
  | cons consDef consDefs ih =>
      obtain ⟨cols, hcols, h⟩ := Exec.bind_eq_ok.mp h
      obtain ⟨rest, hrest, h⟩ := Exec.bind_eq_ok.mp h
      cases h
      obtain ⟨hall, hids⟩ := ih hrest
      exact ⟨.cons ⟨rfl, hcols⟩ hall, congrArg (i :: ·) hids⟩

/-- The one primary key of a statement, taken apart. -/
theorem newRelation_eq_some (h : newRelation stmt = some r) :
    ∃ name consDef, stmt.constraints.filter (·.type = .primary) = [consDef]
      ∧ consDef.columns = [name] ∧ Describes stmt
      ∧ r = .new (stmt.columns.map ColumnDef.name) name := by
  rw [newRelation] at h
  split at h
  · case _ n t name hfilter =>
      split_ifs at h with hd
      cases h
      exact ⟨name, _, hfilter, rfl, hd, rfl⟩
  · cases h

theorem exists_info (h : Describes stmt) (dbId tableId now : Nat) :
    ∃ info, newTableInfo stmt dbId tableId now = .ok info :=
  exists_newTableInfo h.2.2

/-- The index of the one primary key. -/
theorem exists_primary (hinfo : newTableInfo stmt dbId tableId now = .ok info)
    {name : Bytes} {consDef : Constraint}
    (hone : stmt.constraints.filter (·.type = .primary) = [consDef])
    (hcolumn : consDef.columns = [name]) :
    ∃ index c, info.indexList.filter (·.type = .primary) = [index]
      ∧ index.columns = [c] ∧ c ∈ info.columnList ∧ c.name = name
      ∧ (info.indexList.map IndexInfo.id).Nodup := by
  obtain ⟨indexList, hindexes, hinfo⟩ := Exec.bind_eq_ok.mp hinfo
  cases hinfo
  obtain ⟨hall, hids⟩ := indexInfos_forall₂ hindexes
  have hfilter := List.rel_filter (p := (·.type = ConstraintType.primary))
    (q := (·.type = ConstraintType.primary)) (by
      rintro consDef index ⟨htype, -⟩
      simp [htype]) hall
  rw [hone] at hfilter
  obtain ⟨index, rest, ⟨-, hcols⟩, hrest, hlist⟩ :=
    List.forall₂_cons_left_iff.mp hfilter
  obtain rfl := List.forall₂_nil_left_iff.mp hrest
  rw [hcolumn, constraintColumns] at hcols
  split at hcols
  · cases hcols
  · case _ c hfind =>
      obtain ⟨cols, hnil, hcols⟩ := Exec.bind_eq_ok.mp hcols
      cases hnil
      refine ⟨index, c, hlist, (Except.ok.inj hcols).symm,
        List.mem_of_find?_eq_some hfind, ?_, ?_⟩
      · simpa using List.find?_some hfind
      · show (indexList.map IndexInfo.id).Nodup
        rw [hids]
        exact List.nodup_range'

/-- A column of this name is at the first place that has it. -/
theorem columnInfos_idxOf {colDefs : List ColumnDef} {c : ColumnInfo}
    (hnodup : (colDefs.map ColumnDef.name).Nodup)
    (hc : c ∈ columnInfos tableId tableName 0 colDefs) :
    c.id = (colDefs.map ColumnDef.name).idxOf c.name := by
  obtain ⟨p, hp⟩ := List.getElem?_of_mem hc
  rw [columnInfos_id hp, Nat.zero_add]
  have hname := congrArg (Option.map ColumnInfo.name) hp
  rw [← List.getElem?_map, map_name_columnInfos, Option.map_some] at hname
  obtain ⟨hlt, hget⟩ := List.getElem?_eq_some_iff.mp hname
  rw [← hget]
  exact (hnodup.idxOf_getElem p hlt).symm

/-- The record of a new table has the statement's columns. -/
theorem newTableInfo_columns
    (h : newTableInfo stmt dbId tableId now = .ok info) :
    info.columnList = columnInfos tableId stmt.table 0 stmt.columns := by
  obtain ⟨indexList, -, hinfo⟩ := Exec.bind_eq_ok.mp h
  cases hinfo
  rfl

/-- The stored record of a new table is that of an empty relation. -/
theorem holds_new (env : Env) {pb : SchemaProtobuf} {kv : KvStorage}
    (hr : newRelation stmt = some r)
    (hinfo : newTableInfo stmt dbId tableId now = .ok info)
    (hn : Table.NewTable pb (.deserialize info.serialize) kv) :
    ∃ primary key,
      Holds env pb (.deserialize info.serialize) primary key kv r := by
  obtain ⟨name, consDef, hone, hcolumn, hd, rfl⟩ := newRelation_eq_some hr
  obtain ⟨index, c, hfilter, hcols, hc, hname, hids⟩ :=
    exists_primary hinfo hone hcolumn
  obtain ⟨hbound, hnodup, hdeclared⟩ := hd
  obtain ⟨hbuilt, -⟩ := newTableInfo_ok hinfo
  have husable := hbuilt.usable_iff.mpr ⟨by
    rw [List.countP_eq_length_filter, hone]
    rfl, hnodup⟩
  have hdes := info.deserialize_serialize
  -- one index is primary, after it was stored as well
  have hfilter' : (TableInfo.deserialize info.serialize).indexList.filter
      (·.type = .primary) = [index.persisted] := by
    rw [hdes]
    show (info.indexList.map IndexInfo.persisted).filter _ = _
    rw [List.filter_map, ← List.map_singleton, ← hfilter]
    rfl
  have hunique : ∀ i ∈ (TableInfo.deserialize info.serialize).indexList,
      i.type = .primary → i = index.persisted := by
    intro i hi htype
    have hmem : i ∈ (TableInfo.deserialize info.serialize).indexList.filter
        (·.type = .primary) :=
      List.mem_filter.mpr ⟨hi, decide_eq_true htype⟩
    rw [hfilter'] at hmem
    exact List.mem_singleton.mp hmem
  -- so `GetPrimaryIndex` finds it, whatever its place in the list
  have hk : Keyed (.deserialize info.serialize) index.persisted := by
    obtain ⟨i, hprimary, htype⟩ := husable.hasPrimary
    have hmem : i ∈ (TableInfo.deserialize info.serialize).indexList := by
      obtain ⟨j, -, hj⟩ := Option.bind_eq_some_iff.mp hprimary
      exact List.mem_of_getElem? hj
    obtain rfl := hunique i hmem htype
    refine ⟨hprimary, htype, hunique, ?_, ?_⟩
    · rw [hdes]
      show ((info.indexList.map IndexInfo.persisted).map IndexInfo.id).Nodup
      rw [List.map_map]
      exact hids
    · exact fun i hi c hc => ⟨c, husable.indexColumns i hi c hc, rfl⟩
  refine ⟨index.persisted, c.persisted, hk, ?_,
    laid_deserialize hinfo hbound hnodup, ?_, ?_, hn.openable, ?_⟩
  · show index.columns.map ColumnInfo.persisted = _
    rw [hcols]
    rfl
  · rw [hdes]
    show (info.columnList.map ColumnInfo.persisted).map ColumnInfo.name = _
    rw [List.map_map]
    exact hbuilt.names
  · show c.id = (stmt.columns.map ColumnDef.name).idxOf name
    rw [newTableInfo_columns hinfo] at hc
    rw [← hname]
    exact columnInfos_idxOf hnodup hc
  · -- nothing is stored yet
    intro us
    constructor
    · intro hus
      cases hus
    · rintro ⟨row, -, key, value, henc, hdata⟩
      obtain ⟨colKeys, heq⟩ := Table.encodeRecord_key henc
      have hkey : key = .dataKey (TableInfo.deserialize info.serialize).dbId
          (TableInfo.deserialize info.serialize).id colKeys := heq
      rw [hkey, hn.records] at hdata
      cases hdata

end Record

end AmDb.Statement
