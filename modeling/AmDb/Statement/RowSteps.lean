import AmDb.Optimizer.PlanMeaning
import AmDb.Statement.CreateSteps

/-! # `INSERT` and `SELECT` on the databases

    An `INSERT` that returns puts its tuples into the relation, and a `SELECT`
    prints the relation's: through the analyzer, the optimizer, the scheduler and
    the executors, over the B+ trees of the table. -/

namespace AmDb.Statement

open Codec Schema Storage Chunk AmDb.Expr Plan Analyzer Executor Optimizer
  Scheduler

/-- The description of a table is loaded as it is. -/
theorem loadTableMeta_of_recorded {pb : SchemaProtobuf} {info : TableInfo}
    {kv : KvStorage} (hkv : kv.Reliable) (h : Table.Recorded pb info kv) :
    Metadata.loadTableMeta pb kv info.dbId info.id = (.ok, info, kv) := by
  obtain ⟨value, proto, hvalue, hparse, hinfo⟩ := h
  rw [Metadata.loadTableMeta, KvStorage.getKV_of_some hkv hvalue]
  simp only [reduceCtorEq, if_false, hparse, ← hinfo]

section Found

variable {κ : Type} {p : Process κ} {n : Nat} {l : Ledger} {kv : KvStorage}
  {d : Databases} {dbId : Nat} {tables : Bytes → Option Relation} {name : Bytes}
  {r : Relation}

/-- A table with this name has the relation of that name. -/
theorem HoldsAll.exists_table (h : HoldsAll p.env p.pb kv l.catalog dbId tables)
    (hr : tables name = some r) :
    ∃ info primary key, l.catalog.tableId dbId name = some info.id
      ∧ info.dbId = dbId ∧ Holds p.env p.pb info primary key kv r := by
  obtain ⟨id, hid, info, primary, key, hdb, rfl, hholds⟩ :=
    exists_of_rel (hr ▸ h name)
  exact ⟨info, primary, key, hid, hdb, hholds⟩

end Found

/-- A statement is answered once the optimizer has the time, and whenever it
    returns. -/
def AnsweredInTime {κ : Type} (p : Process κ) (n : Nat) (kv : KvStorage)
    (d : Databases) (ast : Ast) : Prop :=
  (∃ m, ∀ ch : Choices, m ≤ ch.fuel → Answered p ch n kv d ast)
    ∧ ∀ ch res, run p ch kv ast = .ok res → Answered p ch n kv d ast

theorem answeredInTime_of_forall {κ : Type} {p : Process κ} {n : Nat}
    {kv : KvStorage} {d : Databases} {ast : Ast}
    (h : ∀ ch, Answered p ch n kv d ast) : AnsweredInTime p n kv d ast :=
  ⟨⟨0, fun ch _ => h ch⟩, fun ch _ _ => h ch⟩

/-! ## Selecting -/

section Select

variable {κ : Type} {p : Process κ} {ch : Choices} {n : Nat} {l : Ledger}
  {kv : KvStorage} {d : Databases} {stmt : SelectStmt} {r : Relation}
  {info : TableInfo} {primary : IndexInfo} {key : ColumnInfo}

/-- All the positions, in order. -/
theorem filterMap_range {α : Type} (xs : List α) :
    (List.range xs.length).filterMap (xs[·]?) = xs := by
  induction xs with
  | nil => rfl
  | cons x xs ih =>
      rw [List.length_cons, List.range_succ_eq_map, List.filterMap_cons]
      simp only [List.getElem?_cons_zero, List.filterMap_map,
        Function.comp_def, List.getElem?_cons_succ, ih]

/-- The scan gets the ranges it was analyzed with. -/
theorem rangesOf_selectLogicalPlan (info : TableInfo)
    (ranges : List IndexRange) :
    (selectLogicalPlan info ranges).objects.rangesOf
      ⟨0, List.range ranges.length, [], []⟩ = ranges :=
  filterMap_range ranges

/-- The scan of a relation's table generates the rows that print as the
    relation's `SELECT`. -/
theorem generated_of_holds (ch : Choices)
    (h : Holds p.env p.pb info primary key kv r) (x : Nat) :
    ∃ chunk st, generated (overrides p.pb p.env ch.ho ch.memory
          (selectLogicalPlan info (indexRanges primary)).objects) x
          ⟨0, List.range (indexRanges primary).length, [], []⟩ { kv }
        = (.ok, chunk, st)
      ∧ st.kv = kv ∧ st.out = [] ∧ st.fault = none
      ∧ printRows chunk.select = .ok (r.select.flatMap printTuple) := by
  obtain ⟨chunk, s, hgen, hkv, hprint⟩ := h.generate ch.memory
  refine ⟨chunk, { kv := s.kv
                   scans := Function.update (fun _ => none) x (some s.exec) },
    ?_, hkv, rfl, rfl, hprint⟩
  have htable : (selectLogicalPlan info (indexRanges primary)).objects.tableInfo
      0 = some info := rfl
  rw [newScan] at hgen
  simp only [generated, overrides, Statement.generate, htable,
    rangesOf_selectLogicalPlan, Option.getD_none, hgen]

/-- The plan of a `SELECT` is a query over its scan. -/
theorem query_selectLogicalPlan (info : TableInfo) (ranges : List IndexRange) :
    Query ⟨0, List.range ranges.length, [], []⟩
      (selectLogicalPlan info ranges).root :=
  .resultSet (.filter [] .tableScan)

/-- A result set prints what it gets. -/
theorem consume_resultSet {env : Env} {ho : HashOrder} {memory : NewMemory}
    {objects : Objects} {inputs : List RelOptNode} {chunk : Chunk}
    {st : RunState} {out : Bytes} (h : printRows chunk.select = .ok out)
    (e : Nat) :
    consume env ho memory objects e (.physical .resultSet inputs) chunk st
      = (.ok, { chunk with cursor := chunk.select.length },
        { st with out := st.out ++ out }) := by
  rw [consume, h]

/-- The query is run with the plan that was found for it. -/
theorem run_select (h : Holds p.env p.pb info primary key kv r)
    (ha : analyzeSelect p.pb kv stmt = .ok (.ok,
      some (selectLogicalPlan info (indexRanges primary)), kv))
    {root : RelOptNode} {o : Cascades κ}
    (hfound : Cascades.findBestExp p.cost ch.fuel
      (selectLogicalPlan info (indexRanges primary)).root = .ok (root, o)) :
    run p ch kv (.select stmt)
      = .ok (.ok, r.select.flatMap printTuple, kv) := by
  obtain ⟨status, w, hrun, x, y, chunk, hsel, hmeans⟩ := run_found
    (v := overrides p.pb p.env ch.ho ch.memory
      (selectLogicalPlan info (indexRanges primary)).objects)
    (query_selectLogicalPlan info _) hfound rfl { kv }
  obtain ⟨chunk', st, hgen, hkv, hout, hfault, hprint⟩ :=
    generated_of_holds ch h x
  rw [hgen] at hsel hmeans
  obtain ⟨inputs, hroot⟩ : ∃ inputs, counterpart (selectLogicalPlan info
      (indexRanges primary)).root = .physical .resultSet inputs := ⟨_, rfl⟩
  have hconsume := @consume_resultSet p.env ch.ho ch.memory
    (selectLogicalPlan info (indexRanges primary)).objects inputs chunk st _
    (by rw [hsel, hprint]) y
  rw [hroot, show (overrides p.pb p.env ch.ho ch.memory _).consume
    = consume p.env ch.ho ch.memory _ from rfl] at hmeans
  simp only [hconsume] at hmeans
  obtain ⟨rfl, hw⟩ := hmeans
  have hb : buildPlan p.cost ch.fuel (.select stmt)
      (selectLogicalPlan info (indexRanges primary)).root
      = .ok (some root) := by
    rw [buildPlan, hfound]
    rfl
  have hres := run_of_physical (.select stmt) ha hb hrun
    (by rw [hw]; exact hfault)
  rw [hres, hw]
  simp only [if_true, hout, hkv, List.nil_append]

/-- `SELECT` prints the relation's. -/
theorem Realizes.select (h : Realizes p.env p.pb n l kv d)
    (hpb : p.pb.Faithful) (hd : (d.execute (.select stmt)).isSome) :
    AnsweredInTime p n kv d (.select stmt) := by
  obtain ⟨table⟩ := stmt
  cases table with
  | none => simp [Databases.execute] at hd
  | some name =>
      obtain ⟨db, table⟩ := name
      have hload := h.represents.loadDatabaseIdByName db kInvalidIDatabaseID
      cases ht : d.tables db with
      | none =>
          -- the database is not there
          rw [h.dbId_none ht] at hload
          refine answeredInTime_of_forall (fun ch =>
            ⟨.databaseNotFound, [], d, kv, l, ?_, ?_, h⟩)
          · simp [Databases.execute, ht]
          · refine run_of_failed ?_ (by rintro ⟨⟩)
            simp [analyzeAst, analyzeSelect, hload]
      | some tables =>
          obtain ⟨dbId, hdb, hall⟩ := h.dbId_some ht
          rw [hdb] at hload
          obtain ⟨_, hdbMeta, -⟩ := h.represents.loadDatabaseMeta hpb hdb
          have htable := h.represents.loadTableIdByName
            (h.represents.dbBound _ _ hdb).2 table kInvalidTableID
          cases hr : tables table with
          | none =>
              -- the table is not there
              have hnone : l.catalog.tableId dbId table = none :=
                eq_none_of_rel (hr ▸ hall table)
              rw [hnone] at htable
              refine answeredInTime_of_forall (fun ch =>
                ⟨.tableNotFound, [], d, kv, l, ?_, ?_, h⟩)
              · simp [Databases.execute, ht, hr]
              · refine run_of_failed ?_ (by rintro ⟨⟩)
                simp [analyzeAst, analyzeSelect, hload, hdbMeta, htable]
          | some r =>
              obtain ⟨info, primary, key, hid, rfl, hholds⟩ :=
                hall.exists_table hr
              rw [hid] at htable
              -- the query is planned and run on what the table holds
              have hmeta := loadTableMeta_of_recorded h.represents.reliable
                hholds.openable.recorded
              have ha : analyzeSelect p.pb kv ⟨some (db, table)⟩ = .ok (.ok,
                  some (selectLogicalPlan info (indexRanges primary)), kv) := by
                simp [analyzeSelect, hload, hdbMeta, htable, hmeta,
                  hholds.keyed.hasPrimary]
              have hfound : ∀ {ch : Choices} {root o}, Cascades.findBestExp
                  p.cost ch.fuel (selectLogicalPlan info
                    (indexRanges primary)).root = .ok (root, o) →
                  Answered p ch n kv d (.select ⟨some (db, table)⟩) := by
                intro ch root o hfound
                exact ⟨.ok, _, d, kv, l, by simp [Databases.execute, ht, hr],
                  run_select hholds ha hfound, h⟩
              -- the optimizer needs some time, and any plan it finds will do
              obtain ⟨m, hm⟩ := exists_findBestExp p.cost
                (query_selectLogicalPlan info (indexRanges primary)).logicalPlan
              refine ⟨⟨m, fun ch hch => ?_⟩, fun ch res hrun => ?_⟩
              · obtain ⟨root, o, hf⟩ := hm ch.fuel hch
                exact hfound hf
              · rw [run, analyzeAst, ha, Exec.bind_ok] at hrun
                obtain ⟨_, hb, -⟩ := Exec.bind_eq_ok.mp hrun
                obtain ⟨⟨root, o⟩, hf, -⟩ := Exec.bind_eq_ok.mp hb
                exact hfound hf

end Select

/-! ## Inserting -/

/-- The call of `Table::Insert` that an `INSERT` leads to keeps what is
    stored. -/
def Keeps {κ : Type} (p : Process κ) (ch : Choices) (kv : KvStorage) :
    Ast → Prop
  | .insert stmt => ∀ r, Analyzer.analyzeInsert p.pb kv stmt = .ok r →
      ∀ plan ∈ r.2.1, ∀ rows, InsertExecutor.fillRows
          (ch.memory.rows (toRowDesc plan.tableInfo)) 0 plan.exprNodes
        = .ok rows →
      Table.KeepsFor p.env ({ tableInfo := plan.tableInfo }, r.2.2)
        (.insert ch.ho { rowDesc := some (toRowDesc plan.tableInfo)
                         select := rows })
  | _ => True

section Insert

variable {κ : Type} {p : Process κ} {ch : Choices} {n : Nat} {l : Ledger}
  {kv kv₁ : KvStorage} {d : Databases} {stmt : InsertStmt} {plan : InsertPlan}
  {res : Status × Bytes × KvStorage}

theorem cellsOf_insertLogicalPlan (plan : InsertPlan) :
    (insertLogicalPlan plan).objects.cellsOf (cellRefs 0 plan.exprNodes)
      = plan.exprNodes :=
  cells_cellRefs [] plan.exprNodes

/-- The turn of an insert: a call of `Consume` of a new executor. -/
theorem consume_insert {memory : NewMemory} {env : Env} {ho : HashOrder}
    {objects : Objects} {table : Ref} {exprNodes : List (List Ref)}
    (htable : objects.tableInfo table = some plan.tableInfo)
    (hcells : objects.cellsOf exprNodes = plan.exprNodes) (e : Nat) :
    let c := consume env ho memory objects e
      (.physical (.insert table exprNodes) []) {} { kv }
    match InsertExecutor.consume env ho (.new plan) (memory.rows _) {} kv with
    | .error f => c.2.2.fault = some f
    | .ok (status, _, _, kv') =>
        c.1 = status ∧ c.2.2.kv = kv' ∧ c.2.2.out = [] ∧ c.2.2.fault = none := by
  rw [consume, htable]
  simp only [Option.getD_none]
  rw [hcells]
  cases hcons : InsertExecutor.consume env ho (.new plan) (memory.rows _) {}
    kv with
  | error f => rfl
  | ok c => exact ⟨rfl, rfl, rfl, rfl⟩

/-- An `INSERT` that returns consumed one chunk. -/
theorem consume_of_run (ha : Analyzer.analyzeInsert p.pb kv stmt
      = .ok (.ok, some plan, kv₁))
    (hrun : run p ch kv (.insert stmt) = .ok res) :
    ∃ status exec chunk kv', InsertExecutor.consume p.env ch.ho (.new plan)
        (ch.memory.rows _) {} kv₁ = .ok (status, exec, chunk, kv')
      ∧ res = (status, [], kv') := by
  obtain ⟨w, hw, henv⟩ := run_insert (overrides p.pb p.env ch.ho ch.memory
    (insertLogicalPlan plan).objects) 0 (cellRefs 0 plan.exprNodes)
    { kv := kv₁ }
  have ha' : analyzeInsert p.pb kv stmt
      = .ok (.ok, some (insertLogicalPlan plan), kv₁) := by
    rw [Statement.analyzeInsert, ha]
    rfl
  have hc := @consume_insert kv₁ plan ch.memory p.env ch.ho
    (insertLogicalPlan plan).objects 0 (cellRefs 0 plan.exprNodes) rfl
    (cellsOf_insertLogicalPlan plan) 0
  rw [run_eq_of_physical (.insert stmt) ha' rfl hw, henv,
    show (overrides p.pb p.env ch.ho ch.memory _).consume
      = consume p.env ch.ho ch.memory _ from rfl] at hrun
  cases hcons : InsertExecutor.consume p.env ch.ho (.new plan)
      (ch.memory.rows _) {} kv₁ with
  | error f =>
      simp only [hcons] at hc
      rw [hc] at hrun
      cases hrun
  | ok c =>
      obtain ⟨status, exec, chunk, kv'⟩ := c
      simp only [hcons] at hc
      obtain ⟨hstatus, hkv, hout, hfault⟩ := hc
      rw [hfault] at hrun
      simp only [hstatus, hkv, hout] at hrun
      exact ⟨status, exec, chunk, kv', rfl, (Except.ok.inj hrun).symm⟩

/-- Integers that were read are integer literals. -/
theorem tupleOf_eq_some {cells : List ParserNode} {us : Tuple}
    (h : tupleOf cells = some us) : cells = intCells us := by
  induction cells generalizing us with
  | nil =>
      cases h
      rfl
  | cons cell cells ih =>
      rw [tupleOf.eq_def] at h
      split at h
      · case _ heq => cases heq
      · case _ u cells' heq =>
          cases heq
          obtain ⟨us', hus, rfl⟩ := Option.map_eq_some_iff.mp h
          rw [ih hus]
          rfl
      · cases h

/-- Integers that were read are integer literals, in every list. -/
theorem tuplesOf_eq_some {lists : List (List ParserNode)} {tuples : List Tuple}
    (h : tuplesOf lists = some tuples) : lists = tuples.map intCells := by
  induction lists generalizing tuples with
  | nil =>
      cases h
      rfl
  | cons row lists ih =>
      obtain ⟨us, hus, h⟩ := Option.bind_eq_some_iff.mp h
      obtain ⟨rest, hrest, h⟩ := Option.bind_eq_some_iff.mp h
      cases h
      rw [List.map_cons, ← tupleOf_eq_some hus, ← ih hrest]

theorem intCells_injective : Function.Injective intCells :=
  List.map_injective_iff.mpr (fun u u' h => by cases h; rfl)

/-- The rows an executor fills hold the tuples of the statement. -/
theorem holds_of_fillRows {info : TableInfo} {tuples : List Tuple}
    {memory : Nat → Memory (toRowDesc info)} {rows : List Row}
    (hl : Laid info) (hint : Integers info)
    (hwidth : ∀ us ∈ tuples, us.length = info.columnList.length)
    (hpos : 0 < info.columnList.length)
    (h : InsertExecutor.fillRows memory 0
      ((tuples.map intCells).map (·.map toExprNode)) = .ok rows) :
    List.Forall₂ (HoldsInts info) rows tuples := by
  have hrows := fillRows_ints hl hint (by
    intro row hrow
    obtain ⟨us, hus, rfl⟩ := List.mem_map.mp hrow
    have := hwidth us hus
    exact ⟨us, rfl, by omega, by omega⟩) h
  refine List.Forall₂.flip ((List.forall₂_map_left_iff.mp hrows).imp ?_)
  rintro us row ⟨us', heq, -, hholds⟩
  rwa [intCells_injective heq]

/-- What a new executor consumes is put into the relation. -/
theorem Holds.consume {env : Env} {pb : SchemaProtobuf} {info : TableInfo}
    {primary : IndexInfo} {key : ColumnInfo} {r : Relation}
    {tuples : List Tuple} {ho : HashOrder} {memory : NewMemory}
    {status : Status} {exec : InsertExecutor} {chunk : Chunk} {kv' : KvStorage}
    (h : Holds env pb info primary key kv r)
    (htuples : tuplesOf stmt.lists = some tuples) (htakes : r.Takes tuples)
    (hkeeps : ∀ rows, InsertExecutor.fillRows (memory.rows (toRowDesc info)) 0
        (insertPlan info stmt).exprNodes = .ok rows →
      Table.KeepsFor env ({ tableInfo := info }, kv)
        (.insert ho { rowDesc := some (toRowDesc info), select := rows }))
    (hc : InsertExecutor.consume env ho (.new (insertPlan info stmt))
      (memory.rows _) {} kv = .ok (status, exec, chunk, kv')) :
    status = .ok ∧ OnlyOwn info kv kv'
      ∧ Holds env pb info primary key kv' (r.insert tuples htakes) := by
  obtain ⟨rows, hrows, hc⟩ := Exec.bind_eq_ok.mp hc
  obtain ⟨⟨s, table, kv₁⟩, hinsert, hc⟩ := Exec.bind_eq_ok.mp hc
  cases hc
  have hlen : r.columns.length = info.columnList.length := by
    rw [← h.columns, List.length_map]
  have hpos : 0 < info.columnList.length := by
    obtain ⟨d, hd, -⟩ := h.keyColumn
    exact List.length_pos_of_mem hd
  have hfill : InsertExecutor.fillRows (memory.rows (toRowDesc info)) 0
      (stmt.lists.map (·.map toExprNode)) = .ok rows := hrows
  rw [tuplesOf_eq_some htuples] at hfill
  have hholds : List.Forall₂ (HoldsInts info) rows tuples :=
    holds_of_fillRows h.laid h.integers
      (fun us hus => (htakes.1 us hus).trans hlen) hpos hfill
  obtain ⟨hnew, honly⟩ := h.insert hholds htakes (hkeeps rows hrows) hinsert
  exact ⟨rfl, honly, hnew⟩

/-- `INSERT`, when it returns. -/
theorem Realizes.insert (h : Realizes p.env p.pb n l kv d)
    (hpb : p.pb.Faithful) (hd : (d.execute (.insert stmt)).isSome)
    (hkeeps : Keeps p ch kv (.insert stmt))
    (hrun : run p ch kv (.insert stmt) = .ok res) :
    Answered p ch n kv d (.insert stmt) := by
  have hload := h.represents.loadDatabaseIdByName stmt.db kInvalidIDatabaseID
  cases ht : d.tables stmt.db with
  | none =>
      rw [h.dbId_none ht] at hload
      refine ⟨.databaseNotFound, [], d, kv, l, ?_, ?_, h⟩
      · simp [Databases.execute, ht]
      · refine run_of_failed ?_ (by rintro ⟨⟩)
        simp [analyzeAst, Statement.analyzeInsert, Analyzer.analyzeInsert,
          hload]
  | some tables =>
      obtain ⟨dbId, hdb, hall⟩ := h.dbId_some ht
      rw [hdb] at hload
      obtain ⟨_, hdbMeta, -⟩ := h.represents.loadDatabaseMeta hpb hdb
      have htable := h.represents.loadTableIdByName
        (h.represents.dbBound _ _ hdb).2 stmt.table kInvalidTableID
      cases hr : tables stmt.table with
      | none =>
          have hnone : l.catalog.tableId dbId stmt.table = none :=
            eq_none_of_rel (hr ▸ hall stmt.table)
          rw [hnone] at htable
          refine ⟨.tableNotFound, [], d, kv, l, ?_, ?_, h⟩
          · simp [Databases.execute, ht, hr]
          · refine run_of_failed ?_ (by rintro ⟨⟩)
            simp [analyzeAst, Statement.analyzeInsert, Analyzer.analyzeInsert,
              hload, htable]
      | some r =>
          obtain ⟨info, primary, key, hid, rfl, hholds⟩ := hall.exists_table hr
          rw [hid] at htable
          have hmeta := loadTableMeta_of_recorded h.represents.reliable
            hholds.openable.recorded
          have ha : Analyzer.analyzeInsert p.pb kv stmt
              = .ok (.ok, some (insertPlan info stmt), kv) := by
            simp [Analyzer.analyzeInsert, hload, hdbMeta, htable, hmeta]
          obtain ⟨status, exec, chunk, kv', hc, rfl⟩ := consume_of_run ha hrun
          cases htuples : tuplesOf stmt.lists with
          | none => simp [Databases.execute, ht, hr, htuples] at hd
          | some tuples =>
              by_cases htakes : (stmt.columns = [] ∨ stmt.columns = r.columns)
                  ∧ r.Takes tuples
              · obtain ⟨rfl, honly, hnew⟩ := hholds.consume htuples htakes.2
                  (hkeeps _ ha _ rfl) hc
                refine ⟨.ok, [], d.put stmt.db tables stmt.table
                  (r.insert tuples htakes.2), kv', l, ?_, hrun, ?_⟩
                · simp [Databases.execute, ht, hr, htuples, htakes]
                · exact h.ownPart hdb hall hid honly
                    ⟨info, primary, key, rfl, rfl, hnew⟩
              · simp [Databases.execute, ht, hr, htuples, htakes] at hd

end Insert

end AmDb.Statement
