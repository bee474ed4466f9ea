import AmDb.Foundation.Interleaving
import AmDb.Storage.OwnPart

/-! # Tables that share a store

    Calls on several tables in any order.  No table sees the others: what
    happens to it is a run of its calls alone, and its indexes keep its rows. -/

namespace AmDb.Storage

open Codec AmDb.Schema Chunk OrderedMap IndexedStore Bptree Session

namespace Table

section Sharing

variable {ι : Type} [DecidableEq ι] {env : Env} {pb : SchemaProtobuf}
  {info : ι → TableInfo} {kv : KvStorage} {s : (ι → Table) × KvStorage}
  {h : List (ι × Op)} {i j : ι}

/-- The tables are told apart by their two ids. -/
def Apart (info : ι → TableInfo) : Prop :=
  ∀ {i j}, (info i).dbId = (info j).dbId → (info i).id = (info j).id → i = j

/-- New objects for all tables. -/
def newTables (info : ι → TableInfo) : ι → Table :=
  fun i => { tableInfo := info i }

omit [DecidableEq ι] in
/-- A table's keys are not another's. -/
theorem Apart.not_own (ha : Apart info) (hij : j ≠ i) {key : StoreKey}
    (hkey : OwnKey (info j) key) : ¬ OwnKey (info i) key := by
  intro hkey'
  cases key with
  | dataKey dbId tableId colKeys =>
      exact hij (ha (hkey.1.symm.trans hkey'.1) (hkey.2.symm.trans hkey'.2))
  | treeNode dbId tableId indexId nodeId =>
      exact hij (ha (hkey.1.symm.trans hkey'.1) (hkey.2.symm.trans hkey'.2))
  | _ => exact hkey

omit [DecidableEq ι] in
/-- What one table writes is not seen through another's part. -/
theorem Apart.over (ha : Apart info) (hij : j ≠ i) {kv kv' : KvStorage}
    (honly : OnlyOwn (info i) kv kv') (hkv : kv.Reliable)
    (base : StoreKey → Option Bytes) :
    kv'.over (info j) base = kv.over (info j) base := by
  refine over_congr ?_ ?_
  · exact (honly.reliable hkv).trans hkv.symm
  · intro key hkey
    exact honly.data key (ha.not_own hij hkey)

/-- A table object of its table, over a store that describes it and does not
    fail. -/
structure OnItsOwn (pb : SchemaProtobuf) (info : TableInfo) (s : State) :
    Prop where
  table    : Own info s.1
  recorded : Recorded pb info s.2
  reliable : s.2.Reliable

/-- A table on its own stays so and writes its own keys. -/
theorem OnItsOwn.step {info : TableInfo} {s s' : State} {op : Op}
    (h : OnItsOwn pb info s) (hs : Returned env pb s op s') :
    OnItsOwn pb info s' ∧ OnlyOwn info s.2 s'.2 := by
  obtain ⟨ht, honly⟩ := h.table.step h.recorded hs
  exact ⟨⟨ht, h.recorded.congr honly, honly.reliable h.reliable⟩, honly⟩

/-- A table on its own stays so whatever the others write. -/
theorem OnItsOwn.congr {info info' : TableInfo} {t : Table}
    {kv kv' : KvStorage} (h : OnItsOwn pb info (t, kv))
    (honly : OnlyOwn info' kv kv') : OnItsOwn pb info (t, kv') := by
  obtain ⟨value, proto, hvalue, hproto⟩ := h.recorded
  exact ⟨h.table, ⟨value, proto,
    (honly.data _ not_ownKey_tableId).trans hvalue, hproto⟩,
    honly.reliable h.reliable⟩

/-- A description is kept with the table's part. -/
theorem Recorded.over {info : TableInfo} {kv : KvStorage}
    (h : Recorded pb info kv) (kv' : KvStorage) :
    Recorded pb info (kv'.over info kv.data) := by
  obtain ⟨value, proto, hvalue, hproto⟩ := h
  have hsame := @overData_other info kv.data kv'.data
    (.tableId info.dbId info.id) not_ownKey_tableId
  exact ⟨value, proto, hsame.trans hvalue, hproto⟩

/-- In every interleaving of calls on tables with different ids, each table is
    used as if it were alone: its calls by themselves, on the store without
    what the others wrote, lead to the same object and leave the same records
    and tree nodes. -/
theorem each_table_as_if_alone (ha : Apart info) (hkv : kv.Reliable)
    (hrec : ∀ i, Recorded pb (info i) kv)
    (hrun : Run (Interleaving.Turn (fun _ : ι => Returned env pb))
      (newTables info, kv) h s) (i : ι) :
    ∃ kv', Run (Returned env pb) ({ tableInfo := info i }, kv)
        (Interleaving.turnsOf i h) (s.1 i, kv')
      ∧ ∀ key, kv'.data key
        = if OwnKey (info i) key then s.2.data key else kv.data key := by
  have hproj := Interleaving.projection
    (I := fun i p => OnItsOwn pb (info i) p) (i := i)
    (fun kv' => kv'.over (info i) kv.data)
    (fun hI hs => (hI.step hs).1)
    (fun hI hs _ hJ => hJ.congr (hI.step hs).2) ?_ ?_ hrun
    (fun i => ⟨own_new _, hrec i, hkv⟩)
  · rw [over_self] at hproj
    exact ⟨_, hproj, fun _ => rfl⟩
  · intro p e p' hI hs
    exact hs.over hI.table hI.recorded ((hrec i).over p.2)
  · intro j p e p' hI hs hji
    exact ha.over (Ne.symm hji) (hI.step hs).2 hI.reliable _

end Sharing

/-! ## Indexes -/

/-- The table's keys and all descriptions are the same. -/
structure Elsewhere (info : TableInfo) (kv kv' : KvStorage) : Prop where
  own    : ∀ key, OwnKey info key → kv'.data key = kv.data key
  tables : ∀ dbId tableId,
    kv'.data (.tableId dbId tableId) = kv.data (.tableId dbId tableId)

section Elsewhere

variable {env : Env} {pb : SchemaProtobuf} {info : TableInfo}
  {primary i : IndexInfo} {desc : RowDescriptor} {table : Table}
  {kv kv' : KvStorage}

theorem Elsewhere.record (h : Elsewhere info kv kv') (row : Row) :
    kv'.data ((recordLayout info primary).key row)
      = kv.data ((recordLayout info primary).key row) :=
  h.own _ ⟨rfl, rfl⟩

theorem Elsewhere.rowKeys (h : Elsewhere info kv kv') :
    rowKeys info primary desc kv' i = rowKeys info primary desc kv i :=
  rowKeys_eq (agrees_rowKeys.congr (fun row _ => h.record row))

theorem Elsewhere.sameNodes (h : Elsewhere info kv kv') :
    SameNodes info i kv kv' :=
  ⟨fun _ => h.own _ ⟨rfl, rfl⟩, h.tables⟩

/-- The store stays one of the table over writes elsewhere. -/
theorem StoreOf.elsewhere (hs : StoreOf pb info primary desc kv)
    (h : Elsewhere info kv kv') (hkv : kv'.Reliable) :
    StoreOf pb info primary desc kv' := by
  obtain ⟨value, proto, hvalue, hproto⟩ := hs.recorded
  exact ⟨hkv, ⟨value, proto, (h.tables _ _).trans hvalue, hproto⟩,
    hs.sourced.congr (fun row _ => h.record row)⟩

/-- What holds between calls on a table holds after calls on others. -/
theorem Consistent.elsewhere
    (hc : Consistent env pb info primary desc (table, kv))
    (h : Elsewhere info kv kv') (hkv : kv'.Reliable) :
    Consistent env pb info primary desc (table, kv') := by
  rcases hc with hr | hcl
  · refine Or.inl ⟨hr.table, hr.loaded, hr.ids, hr.store.elsewhere h hkv, ?_⟩
    intro e he
    obtain ⟨i, hi, hid, hindex, hs⟩ := hr.indexes e he
    refine ⟨i, hi, hid, hindex, ?_⟩
    show Saved env pb info i _ kv' (Table.rowKeys info primary desc kv' i)
    rw [h.rowKeys]
    exact hs.frame h.sameNodes hkv
  · refine Or.inr ⟨hcl.table, hcl.store.elsewhere h hkv, ?_⟩
    intro i hi
    obtain ⟨t, hs⟩ := hcl.trees i hi
    refine ⟨t, ?_⟩
    show Saved env pb info i t kv' (Table.rowKeys info primary desc kv' i)
    rw [h.rowKeys]
    exact hs.frame h.sameNodes hkv

end Elsewhere

section Indexes

variable {ι : Type} [DecidableEq ι] {env : Env} {pb : SchemaProtobuf}
  {info : ι → TableInfo} {primary : ι → IndexInfo} {desc : ι → RowDescriptor}
  {kv kv' : KvStorage} {s : (ι → Table) × KvStorage} {h : List (ι × Op)}
  {i j : ι}

omit [DecidableEq ι] in
theorem Apart.elsewhere (ha : Apart info) (hij : j ≠ i)
    (honly : OnlyOwn (info i) kv kv') : Elsewhere (info j) kv kv' :=
  ⟨fun key hkey => honly.data key (ha.not_own hij hkey),
    fun _ _ => honly.data _ not_ownKey_tableId⟩

theorem KeepingStep.returned {info : TableInfo} {desc : RowDescriptor}
    {s s' : State} {op : Op} (hs : KeepingStep env pb info desc s op s')
    (hkv : s.2.Reliable) : Returned env pb s op s' :=
  ⟨⟨.ok, hs.2.2⟩, fun _ => hkv.fails 0⟩

/-- Calls that keep what is stored are calls that returned. -/
theorem returned_of_keeping (hkv : kv.Reliable)
    (hrec : ∀ i, Recorded pb (info i) kv)
    (hrun : Run (Interleaving.Turn (fun i =>
        KeepingStep env pb (info i) (desc i))) (newTables info, kv) h s) :
    Run (Interleaving.Turn (fun _ : ι => Returned env pb))
      (newTables info, kv) h s := by
  have hinv := hrun.invariant
    (I := fun h s => Run (Interleaving.Turn (fun _ : ι => Returned env pb))
        (newTables info, kv) h s ∧ ∀ i, OnItsOwn pb (info i) (s.1 i, s.2))
    ⟨.nil, fun i => ⟨own_new _, hrec i, hkv⟩⟩ ?_
  · exact hinv.1
  · rintro h s e s' ⟨hrun, hown⟩ ht
    have hs := ht.own.returned (hown e.1).reliable
    obtain ⟨hnext, honly⟩ := (hown e.1).step hs
    refine ⟨hrun.snoc ⟨s'.1 e.1, hs, ?_⟩, ?_⟩
    · obtain ⟨t, -, hs'⟩ := ht
      rw [hs', Function.update_self]
    · intro j
      by_cases hj : j = e.1
      · subst hj
        exact hnext
      · rw [ht.other hj]
        exact (hown j).congr honly

/-- In every interleaving of calls that keep what is stored, each table object
    with its indexes in memory has in each of them the keys of just the rows
    stored for its table. -/
theorem indexes_agree_in_interleavings
    (hk : ∀ i, Keyed (info i) (primary i)) (ha : Apart info)
    (hn : ∀ i, NewTable pb (info i) kv)
    (hrun : Run (Interleaving.Turn (fun i =>
        KeepingStep env pb (info i) (desc i))) (newTables info, kv) h s)
    (hloaded : (s.1 i).rowIndex.isSome) :
    IndexesAgree env (info i) (desc i) (s.1 i, s.2) := by
  have hinv := Interleaving.invariant
    (I := fun i p => OnItsOwn pb (info i) p
      ∧ Consistent env pb (info i) (primary i) (desc i) p) ?_ ?_ hrun ?_
  · rcases (hinv i).2 with hr | hcl
    · exact hr.indexesAgree (hk i)
    · have htable : s.1 i = { tableInfo := info i } := hcl.table
      rw [htable] at hloaded
      cases hloaded
  · rintro i p op p' ⟨hown, hc⟩ hs
    exact ⟨(hown.step (hs.returned hown.reliable)).1, hc.step (hk i) hs⟩
  · rintro i p op p' j t ⟨hown, -⟩ hs hji ⟨hown', hc'⟩
    obtain ⟨hnext, honly⟩ := hown.step (hs.returned hown.reliable)
    exact ⟨hown'.congr honly,
      hc'.elsewhere (ha.elsewhere hji honly) hnext.reliable⟩
  · intro i
    exact ⟨⟨own_new _, (hn i).recorded, (hn i).reliable⟩,
      Or.inr (hn i).closed⟩

end Indexes

/-! ## Two tables of scores -/

/-- A second table like `scores`. -/
def archive : TableInfo := { scores with id := 8 }

def scoreTables : Bool → TableInfo
  | false => scores
  | true => archive

theorem apart_scoreTables : Apart scoreTables := by
  intro i j _ hid
  cases i <;> cases j <;> first | rfl | exact absurd hid (by decide)

theorem keyed_scoreTables (i : Bool) : Keyed (scoreTables i) scoresByPlayer := by
  cases i with
  | false => exact keyed_scores
  | true => exact ⟨rfl, rfl, by decide, by decide, by decide⟩

/-- The store after both `CREATE TABLE`s. -/
def bothStore : KvStorage :=
  scoresStore.written (.tableId 1 8)
    (SchemaProtobuf.wire.table.serializeAsString archive.serialize)

theorem newTable_scoreTables (i : Bool) :
    NewTable .wire (scoreTables i) bothStore := by
  have hnone : ∀ {key}, key ≠ .tableId 1 7 → key ≠ .tableId 1 8 →
      bothStore.data key = none := by
    intro key h₇ h₈
    exact (KvStorage.written_data_of_ne _ _ h₈).trans
      (KvStorage.written_data_of_ne _ _ h₇)
  refine ⟨KvStorage.reliable_empty, ?_, fun _ _ => hnone (by simp [rootKey])
    (by simp [rootKey]), fun _ => hnone (by simp) (by simp)⟩
  cases i with
  | false =>
      obtain ⟨value, proto, hvalue, hproto⟩ := newTable_scores.recorded
      exact ⟨value, proto, (KvStorage.written_data_of_ne _ _ (by decide)).trans
        hvalue, hproto⟩
  | true =>
      exact ⟨_, archive.serialize, KvStorage.written_data_self ..,
        SchemaProtobuf.wire.table.parse_serialize _ trivial, by decide⟩

/-- A call that keeps is a keeping step. -/
theorem step_of_callKeeping {limit : Nat} {pb : SchemaProtobuf}
    {info : TableInfo} {desc : RowDescriptor} {s s' : State} {op : Op}
    (h : callKeeping limit pb info desc s op = .ok s') :
    KeepingStep (.wire limit) pb info desc s op s' := by
  rw [callKeeping] at h
  split_ifs at h with hk
  exact ⟨hk, step_of_callOk h⟩

/-- Rows go to both tables, then one of the first table is deleted by another
    object. -/
def mixedCalls : List (Bool × Op) :=
  [(false, .insert .inOrder { select := [score 1 30, score 2 20] }),
    (true, .insert .inOrder { select := [score 1 30] }),
    (false, .reopen),
    (true, .insert .inOrder { select := [score 5 30] }),
    (false, .delete .inOrder { select := [score 1 30] })]

/-- The calls of the two tables are a run. -/
theorem exists_mixed_run :
    ∃ s, Run (Interleaving.Turn (fun i : Bool => KeepingStep (.wire 1024) .wire
        (scoreTables i) scoresDesc)) (newTables scoreTables, bothStore)
        mixedCalls s
      ∧ (s.1 false).rowIndex.isSome
      ∧ ¬ RowStored scores s.2 (score 1 30)
      ∧ RowStored archive s.2 (score 1 30) := by
  obtain ⟨s, hexec, hview⟩ := @exists_of_computed _ _ _
    (mixedCalls.foldlM (Interleaving.takeTurn (fun i : Bool =>
      callKeeping 1024 .wire (scoreTables i) scoresDesc))
      (newTables scoreTables, bothStore))
    (fun s => ((s.1 false).rowIndex.isSome,
      decide (RowStored scores s.2 (score 1 30)),
      decide (RowStored archive s.2 (score 1 30))))
    (true, false, true) (by decide +kernel)
  obtain ⟨hloaded, hview⟩ := Prod.mk.inj hview
  obtain ⟨hgone, hstored⟩ := Prod.mk.inj hview
  exact ⟨s, Interleaving.run_of_turns (fun h => step_of_callKeeping h) hexec,
    hloaded, of_decide_eq_false hgone, of_decide_eq_true hstored⟩

theorem each_table_as_if_alone_scores :
    ∃ (s : (Bool → Table) × KvStorage) (kv' : KvStorage),
      RowStored archive s.2 (score 1 30)
      ∧ Run (Returned (.wire 1024) .wire) ({ tableInfo := scores }, bothStore)
        (Interleaving.turnsOf false mixedCalls) (s.1 false, kv')
      ∧ ∀ key, kv'.data key
        = if OwnKey scores key then s.2.data key else bothStore.data key := by
  obtain ⟨s, hrun, -, -, hstored⟩ := exists_mixed_run
  have hrec : ∀ i, Recorded .wire (scoreTables i) bothStore :=
    fun i => (newTable_scoreTables i).recorded
  have hkv : bothStore.Reliable := KvStorage.reliable_empty
  have hreturned := returned_of_keeping hkv hrec hrun
  obtain ⟨kv', hsolo⟩ :=
    each_table_as_if_alone apart_scoreTables hkv hrec hreturned false
  exact ⟨s, kv', hstored, hsolo⟩

theorem indexes_agree_in_interleavings_scores :
    ∃ s : (Bool → Table) × KvStorage, ¬ RowStored scores s.2 (score 1 30)
      ∧ RowStored archive s.2 (score 1 30)
      ∧ IndexesAgree (.wire 1024) scores scoresDesc (s.1 false, s.2) := by
  obtain ⟨s, hrun, hloaded, hgone, hstored⟩ := exists_mixed_run
  exact ⟨s, hgone, hstored, indexes_agree_in_interleavings keyed_scoreTables
    apart_scoreTables newTable_scoreTables hrun hloaded⟩

end Table

end AmDb.Storage
