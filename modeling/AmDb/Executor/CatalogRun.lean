import AmDb.Executor.Catalog

/-! # Runs of `CREATE` statements

    From an empty store every run of statements is a run of the catalog, and the
    store answers as the catalog does. -/

namespace AmDb.Executor

open Codec Schema Storage Analyzer

/-- The id that a statement took for a database. -/
def databaseIdTaken (e : Call × Reply) : Option Nat :=
  match e.1.statement with
  | .createDatabase _ => e.2.taken
  | .createTable _ => none

/-- The id that a statement took for a table. -/
def tableIdTaken (e : Call × Reply) : Option Nat :=
  match e.1.statement with
  | .createDatabase _ => none
  | .createTable _ => e.2.taken

/-- What the statements rely on of `IdAllocator`. -/
structure IdsDistinct (h : List (Call × Reply)) : Prop where
  databases : (h.filterMap databaseIdTaken).Nodup
  tables    : (h.filterMap tableIdTaken).Nodup
  bound     : ∀ e ∈ h, ∀ id, e.2.taken = some id → 1 ≤ id ∧ id < 2 ^ 64

/-- A statement that returns. -/
def Executes (pb : SchemaProtobuf) (kv : KvStorage) (e : Call × Reply)
    (kv' : KvStorage) : Prop :=
  execute pb kv e.1 = .ok (e.2, kv')

section Step

variable {pb : SchemaProtobuf} {kv : KvStorage} {c : Catalog}

/-- An id taken is new to the catalog. -/
def Catalog.Fresh (c : Catalog) (e : Call × Reply) : Prop :=
  (∀ id, databaseIdTaken e = some id →
      (1 ≤ id ∧ id < 2 ^ 64) ∧ ∀ name, c.dbId name ≠ some id)
    ∧ ∀ id, tableIdTaken e = some id →
      (1 ≤ id ∧ id < 2 ^ 64) ∧ ∀ d name, c.tableId d name ≠ some id

/-- What one statement does, as the catalog sees it. -/
def Simulates (pb : SchemaProtobuf) (kv : KvStorage) (c : Catalog)
    (call : Call) : Prop :=
  ∃ reply kv' c', Executes pb kv (call, reply) kv'
    ∧ c.Step (call, reply) c'
    ∧ (c.Fresh (call, reply) → Represents pb kv' c')

/-- `CREATE DATABASE` does on the store what the catalog says. -/
theorem Represents.createDatabase (h : Represents pb kv c)
    (hpb : pb.Faithful) (stmt : CreateDatabaseStmt) (allocId now : Nat) :
    Simulates pb kv c ⟨.createDatabase stmt, allocId, now⟩ := by
  have hload := h.loadDatabaseIdByName stmt.dbName kInvalidIDatabaseID
  cases hid : c.dbId stmt.dbName with
  | none =>
      rw [hid] at hload
      -- a new name: its record is written under the new id
      let info : DatabaseInfo :=
        { name := stmt.dbName, id := allocId, createTs := now, updateTs := now }
      refine ⟨⟨.ok, some allocId⟩, databaseWritten pb kv info,
        c.addDatabase stmt.dbName allocId, ?_, ?_, ?_⟩
      · simp [Executes, execute, analyzeCreateDatabase, hload, info,
          createDatabaseDoWork_reliable h.reliable]
      · simp only [Catalog.Step, hid, and_self]
      · rintro ⟨hfresh, -⟩
        obtain ⟨hbound, hnew⟩ := hfresh allocId rfl
        refine @Represents.addDatabase _ _ _ h info ⟨hbound, ?_, ?_⟩ ?_
        · intro i hi
          exact nomatch hid.symm.trans hi
        · intro n hn
          exact absurd hn (hnew n)
        · intro t
          constructor
          · exact fun ht => nomatch ht
          · rintro ⟨n, hn⟩
            exact absurd hn (h.not_tableId hnew n t)
  | some id =>
      rw [hid] at hload
      -- a known name: an error, or its record is written again
      obtain ⟨info, hmeta, rfl, hname, htables⟩ := h.loadDatabaseMeta hpb hid
      cases hflag : stmt.ifNotExist with
      | false =>
          refine ⟨⟨.databaseExisted, none⟩, kv, c, ?_, ?_, fun _ => h⟩
          · simp [Executes, execute, analyzeCreateDatabase, hload, hflag]
          · simp [Catalog.Step, hid, hflag]
      | true =>
          refine ⟨⟨.ok, none⟩, databaseWritten pb kv info, c, ?_, ?_,
            fun _ => ?_⟩
          · simp [Executes, execute, analyzeCreateDatabase, hload, hflag,
              hmeta, createDatabaseDoWork_reliable h.reliable]
          · simp [Catalog.Step, hid, hflag]
          · rw [← hname] at hid
            have := h.addDatabase (h.databaseFits hid) htables
            rwa [Catalog.addDatabase_self hid] at this

/-- `CREATE TABLE` does, unless a constraint names no column. -/
theorem Represents.createTable (h : Represents pb kv c) (hpb : pb.Faithful)
    (stmt : CreateTableStmt) (allocId now : Nat) :
    execute pb kv ⟨.createTable stmt, allocId, now⟩ = .error .undefined
      ∨ Simulates pb kv c ⟨.createTable stmt, allocId, now⟩ := by
  have hload := h.loadDatabaseIdByName stmt.db kInvalidIDatabaseID
  cases hdb : c.dbId stmt.db with
  | none =>
      rw [hdb] at hload
      -- the database is not there
      refine Or.inr ⟨⟨.databaseNotFound, none⟩, kv, c, ?_, ?_, fun _ => h⟩
      · simp [Executes, execute, analyzeCreateTable, hload]
      · simp [Catalog.Step, hdb]
  | some dbId =>
      rw [hdb] at hload
      obtain ⟨db, hdbMeta, -, -, -⟩ := h.loadDatabaseMeta hpb hdb
      have htable := h.loadTableIdByName (h.dbBound _ _ hdb).2 stmt.table
        kInvalidTableID
      cases hid : c.tableId dbId stmt.table with
      | none =>
          rw [hid] at htable
          -- a new name: a record is built but for an unknown column
          cases hinfo : newTableInfo stmt dbId allocId now with
          | error e =>
              obtain rfl := newTableInfo_error hinfo
              refine Or.inl ?_
              simp [execute, analyzeCreateTable, hload, hdbMeta, htable, hinfo]
          | ok info =>
              obtain ⟨-, hdbName, rfl, hname⟩ := newTableInfo_fields hinfo
              obtain ⟨kv', hexec, hkv⟩ :=
                @Represents.createTableDoWork _ _ _ h hpb info _ (hdbName ▸ hdb)
              rw [hname] at hkv
              refine Or.inr ⟨⟨.ok, some info.id⟩, kv',
                c.addTable dbId stmt.table info.id, ?_, ?_, ?_⟩
              · simp [Executes, execute, analyzeCreateTable, hload, hdbMeta,
                  htable, hinfo, hexec]
              · simp [Catalog.Step, hdb, hid]
              · rintro ⟨-, hfresh⟩
                obtain ⟨hbound, hnew⟩ := hfresh info.id rfl
                refine hkv ⟨hbound, ?_, ?_⟩
                · intro i hi
                  exact nomatch hid.symm.trans hi
                · intro d n hn
                  exact absurd hn (hnew d n)
      | some tableId =>
          rw [hid] at htable
          -- a known name: an error, or its record is written again
          cases hflag : stmt.ifNotExist with
          | false =>
              refine Or.inr ⟨⟨.tableExiste, none⟩, kv, c, ?_, ?_, fun _ => h⟩
              · simp [Executes, execute, analyzeCreateTable, hload, hdbMeta,
                  htable, hflag]
              · simp [Catalog.Step, hdb, hid, hflag]
          | true =>
              obtain ⟨info, hmeta, rfl, hname, -, hdbName⟩ :=
                h.loadTableMeta hpb hid
              obtain ⟨kv', hexec, hkv⟩ := h.createTableDoWork hpb hdbName
              rw [hname, Catalog.addTable_self hid] at hkv
              refine Or.inr ⟨⟨.ok, none⟩, kv', c, ?_, ?_,
                fun _ => hkv (h.tableFits hid)⟩
              · simp [Executes, execute, analyzeCreateTable, hload, hdbMeta,
                  htable, hflag, hmeta, hexec]
              · simp [Catalog.Step, hdb, hid, hflag]

/-- A statement either does what the catalog says or dereferences the end
    iterator for a constraint on an unknown column. -/
theorem Represents.execute (h : Represents pb kv c) (hpb : pb.Faithful)
    (call : Call) :
    Executor.execute pb kv call = .error .undefined
      ∨ Simulates pb kv c call := by
  obtain ⟨statement, allocId, now⟩ := call
  cases statement with
  | createDatabase stmt =>
      exact Or.inr (h.createDatabase hpb stmt allocId now)
  | createTable stmt => exact h.createTable hpb stmt allocId now

/-- Where an id in the catalog comes from. -/
theorem Catalog.Step.dbId_eq_some {c' : Catalog} {e : Call × Reply}
    (hs : c.Step e c') {name : Bytes} {id : Nat}
    (hid : c'.dbId name = some id) :
    databaseIdTaken e = some id ∨ c.dbId name = some id := by
  obtain ⟨⟨statement, allocId, now⟩, reply⟩ := e
  cases statement with
  | createDatabase stmt =>
      simp only [Catalog.Step] at hs
      split at hs
      · exact Or.inr (hs.2 ▸ hid)
      · case _ hnone =>
          obtain ⟨rfl, rfl⟩ := hs
          rcases (Catalog.addDatabase_eq_some
            (fun i hi => nomatch hnone.symm.trans hi)).mp hid
            with ⟨-, rfl⟩ | hold
          · exact Or.inl rfl
          · exact Or.inr hold
  | createTable stmt =>
      refine Or.inr ?_
      simp only [Catalog.Step] at hs
      split at hs
      · exact hs.2 ▸ hid
      · split at hs
        · exact hs.2 ▸ hid
        · obtain ⟨-, rfl⟩ := hs
          exact hid

/-- A table that is there after a step was made by it or was there before. -/
theorem Catalog.Step.tableId_eq_some {c' : Catalog} {e : Call × Reply}
    (hs : c.Step e c') {dbId : Nat} {name : Bytes} {id : Nat}
    (hid : c'.tableId dbId name = some id) :
    tableIdTaken e = some id ∨ c.tableId dbId name = some id := by
  obtain ⟨⟨statement, allocId, now⟩, reply⟩ := e
  cases statement with
  | createDatabase stmt =>
      refine Or.inr ?_
      simp only [Catalog.Step] at hs
      split at hs
      · exact hs.2 ▸ hid
      · obtain ⟨-, rfl⟩ := hs
        exact hid
  | createTable stmt =>
      simp only [Catalog.Step] at hs
      split at hs
      · exact Or.inr (hs.2 ▸ hid)
      · split at hs
        · exact Or.inr (hs.2 ▸ hid)
        · case _ hnone =>
            obtain ⟨rfl, rfl⟩ := hs
            rcases (Catalog.addTable_eq_some
              (fun i hi => nomatch hnone.symm.trans hi)).mp hid
              with ⟨-, rfl⟩ | hold
            · exact Or.inl rfl
            · exact Or.inr hold

end Step

section History

variable {pb : SchemaProtobuf} {kv : KvStorage} {c : Catalog}
  {h : List (Call × Reply)} {e : Call × Reply}

/-- The ids of an earlier part of a run. -/
theorem IdsDistinct.of_append {h₁ h₂ : List (Call × Reply)}
    (hids : IdsDistinct (h₁ ++ h₂)) : IdsDistinct h₁ := by
  obtain ⟨hdb, ht, hbound⟩ := hids
  rw [List.filterMap_append] at hdb ht
  exact ⟨hdb.of_append_left, ht.of_append_left,
    fun e he => hbound e (List.mem_append_left h₂ he)⟩

/-- The last id is none of the ids before it. -/
theorem not_mem_filterMap_of_nodup {f : Call × Reply → Option Nat} {id : Nat}
    (hnodup : ((h ++ [e]).filterMap f).Nodup) (hid : f e = some id) :
    id ∉ h.filterMap f := by
  rw [List.filterMap_append] at hnodup
  intro hmem
  refine List.disjoint_of_nodup_append hnodup hmem ?_
  simp [hid]

/-- The ids of the catalog were taken during the history. -/
structure Catalog.TakenIn (c : Catalog) (h : List (Call × Reply)) : Prop where
  databases : ∀ name id, c.dbId name = some id →
    id ∈ h.filterMap databaseIdTaken
  tables    : ∀ dbId name id, c.tableId dbId name = some id →
    id ∈ h.filterMap tableIdTaken

/-- An id that is taken now is nobody's yet. -/
theorem Catalog.TakenIn.fresh (ht : c.TakenIn h) (hids : IdsDistinct (h ++ [e])) :
    c.Fresh e := by
  have hlast : e ∈ h ++ [e] := List.mem_append_right h List.mem_cons_self
  constructor
  · intro id hid
    refine ⟨hids.bound e hlast id ?_, fun name hname => ?_⟩
    · rw [databaseIdTaken] at hid
      split at hid
      · exact hid
      · cases hid
    · exact not_mem_filterMap_of_nodup hids.databases hid
        (ht.databases name id hname)
  · intro id hid
    refine ⟨hids.bound e hlast id ?_, fun d name hname => ?_⟩
    · rw [tableIdTaken] at hid
      split at hid
      · cases hid
      · exact hid
    · exact not_mem_filterMap_of_nodup hids.tables hid
        (ht.tables d name id hname)

/-- The ids of the catalog were taken in the run. -/
theorem Catalog.TakenIn.step {c' : Catalog} (ht : c.TakenIn h)
    (hs : c.Step e c') : c'.TakenIn (h ++ [e]) := by
  constructor
  · intro name id hid
    rw [List.filterMap_append, List.mem_append]
    rcases hs.dbId_eq_some hid with he | hold
    · exact Or.inr (by simp [he])
    · exact Or.inl (ht.databases name id hold)
  · intro d name id hid
    rw [List.filterMap_append, List.mem_append]
    rcases hs.tableId_eq_some hid with he | hold
    · exact Or.inr (by simp [he])
    · exact Or.inl (ht.tables d name id hold)

/-- Every run of statements is a run of the catalog, which the records of the
    store then are. -/
theorem represents_of_run (hpb : pb.Faithful)
    (hr : Run (Executes pb) .empty h kv) (hids : IdsDistinct h) :
    ∃ c, Run Catalog.Step .empty h c ∧ Represents pb kv c ∧ c.TakenIn h := by
  refine hr.invariant (I := fun h kv => IdsDistinct h → ∃ c,
    Run Catalog.Step .empty h c ∧ Represents pb kv c ∧ c.TakenIn h)
    ?_ ?_ hids
  · intro _
    exact ⟨.empty, .nil, represents_empty,
      ⟨fun _ _ hid => (nomatch hid), fun _ _ _ hid => (nomatch hid)⟩⟩
  · intro h kv e kv' ih hexec hids
    obtain ⟨c, hrun, hrep, ht⟩ := ih hids.of_append
    rcases hrep.execute hpb e.1 with herr | ⟨reply, kv'', c', hexec', hs, hkv⟩
    · exact nomatch herr.symm.trans hexec
    · obtain ⟨hreply, rfl⟩ :=
        Prod.mk.inj (Except.ok.inj (hexec'.symm.trans hexec))
      replace hreply : reply = e.2 := hreply
      subst hreply
      exact ⟨c', hrun.snoc hs, hkv (ht.fresh hids), ht.step hs⟩

/-- The store answers as the catalog does. -/
structure Answers (pb : SchemaProtobuf) (kv : KvStorage) (c : Catalog) :
    Prop where
  databaseIds : ∀ name init, Metadata.loadDatabaseIdByName kv name init
    = .ok (match c.dbId name with
      | some id => (.ok, id, kv)
      | none => (.databaseNotFound, init, kv))
  tableIds    : ∀ dbId name init, dbId < 2 ^ 64 →
    Metadata.loadTableIdByName kv dbId name init
      = .ok (match c.tableId dbId name with
        | some id => (.ok, id, kv)
        | none => (.tableNotFound, init, kv))
  dbUnique    : ∀ name name' id, c.dbId name = some id →
    c.dbId name' = some id → name = name'
  tableUnique : ∀ dbId name dbId' name' id, c.tableId dbId name = some id →
    c.tableId dbId' name' = some id → dbId = dbId' ∧ name = name'
  tablesOf    : ∀ name id, c.dbId name = some id → ∃ info : DatabaseInfo,
    Metadata.loadDatabaseMeta pb kv id = (.ok, info, kv)
      ∧ ∀ t, t ∈ info.tableIds ↔ ∃ n, c.tableId id n = some t
  tableMeta   : ∀ dbId name id, c.tableId dbId name = some id →
    ∃ info : TableInfo, Metadata.loadTableMeta pb kv dbId id = (.ok, info, kv)
      ∧ info.name = name ∧ info.dbId = dbId

/-- A store that holds a catalog answers every lookup. -/
theorem Represents.answers (hrep : Represents pb kv c) (hpb : pb.Faithful) :
    Answers pb kv c where
  databaseIds := hrep.loadDatabaseIdByName
  tableIds dbId name init hdb := hrep.loadTableIdByName hdb name init
  dbUnique := hrep.dbUnique
  tableUnique := hrep.tableUnique
  tablesOf name id hid := by
    obtain ⟨info, hload, -, -, htables⟩ := hrep.loadDatabaseMeta hpb hid
    exact ⟨info, hload, htables⟩
  tableMeta dbId name id hid := by
    obtain ⟨info, hload, -, hname, hdb, -⟩ := hrep.loadTableMeta hpb hid
    exact ⟨info, hload, hname, hdb⟩

/-- The catalog invariant.  No statement fails an assertion: the one that does
    not return names an unknown column in a constraint. -/
theorem catalog_invariant (hpb : pb.Faithful)
    (hr : Run (Executes pb) .empty h kv) (hids : IdsDistinct h) :
    (∃ c, Run Catalog.Step .empty h c ∧ Answers pb kv c)
      ∧ ∀ call, execute pb kv call = .error .undefined
        ∨ ∃ r, execute pb kv call = .ok r := by
  obtain ⟨c, hrun, hrep, -⟩ := represents_of_run hpb hr hids
  refine ⟨⟨c, hrun, hrep.answers hpb⟩, fun call => ?_⟩
  refine (hrep.execute hpb call).imp_right ?_
  rintro ⟨reply, kv', -, hexec, -⟩
  exact ⟨(reply, kv'), hexec⟩

/-- `CREATE DATABASE d` as 1, `CREATE TABLE d.t (i BIGINT)` as 5, and both
    again with `IF NOT EXISTS`. -/
theorem catalog_invariant_one_table :
    ∃ h kv, Run (Executes .wire) .empty h kv ∧ h.length = 4
      ∧ ∃ c, Run Catalog.Step .empty h c ∧ Answers .wire kv c := by
  obtain ⟨h, kv, hexec, hh⟩ := @exists_of_execAll _ _ _ _ _
    (execute .wire) .empty
    [⟨.createDatabase ⟨[100], false⟩, 1, 0⟩,
      ⟨.createTable ⟨[100], [116], false, [⟨[105], .longlong⟩], []⟩, 5, 0⟩,
      ⟨.createDatabase ⟨[100], true⟩, 9, 0⟩,
      ⟨.createTable ⟨[100], [116], true, [], []⟩, 9, 0⟩]
    (fun r => (decide (r.1.length = 4), r.1.filterMap databaseIdTaken,
      r.1.filterMap tableIdTaken, r.1.filterMap (fun e => e.2.taken)))
    (true, [1], [5], [1, 5]) (by decide +kernel)
  simp only [Prod.mk.injEq, decide_eq_true_eq] at hh
  obtain ⟨hlen, hdb, ht, hall⟩ := hh
  have hrun : Run (Executes .wire) .empty h kv := run_of_execAll id hexec
  refine ⟨h, kv, hrun, hlen, (catalog_invariant SchemaProtobuf.faithful_wire
    hrun ⟨by rw [hdb]; decide, by rw [ht]; decide, ?_⟩).1⟩
  intro e he id hid
  have hmem : id ∈ h.filterMap (fun e => e.2.taken) :=
    List.mem_filterMap.mpr ⟨e, he, hid⟩
  rw [hall] at hmem
  simp only [List.mem_cons, List.not_mem_nil, or_false] at hmem
  omega

end History

end AmDb.Executor
