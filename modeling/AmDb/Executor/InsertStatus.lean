import AmDb.Executor.InsertFailure
import AmDb.Storage.TableRun

/-! # When an insert succeeds

    `Table::Insert` refuses a duplicate key of any index.  Every index key has
    the primary key in it, so an insert succeeds just when the primary keys of
    its rows are different and not in the table, whatever other indexes there
    are and in whatever order they are filled. -/

namespace AmDb.Storage

open Codec AmDb.Schema Chunk OrderedMap IndexedStore Bptree Session

/-! ## One tree -/

section Trees

variable {env : Env} {pb : SchemaProtobuf} {p : Place} {table : TableInfo}
  {info : IndexInfo} {t t' : Bptree} {kv kv' : KvStorage} {cs : Contents}
  {es : List (Bytes × Bytes)} {status : Status} {key value : Bytes} {r : Reply}
  {s' : TreeState}

/-- `Insert` refuses the keys that are there, and no other. -/
theorem Bptree.insert_reply (hw : WellFormed env t kv cs) (hkv : kv.Reliable)
    (hf : FreshFor env (t, kv) (.insert key value))
    (hok : call env (t, kv) (.insert key value) = .ok (r, s')) :
    (r.1 = .ok ∧ key ∉ keys (flat cs))
      ∨ (r.1 = .bptreeDuplicateKey ∧ key ∈ keys (flat cs)) := by
  rcases insert_spec hw hkv hf value with
    ⟨hmem, p, -, t', -, heq⟩ | ⟨hnew, cs', -, ⟨herr, -⟩ | ⟨t', -, heq, -⟩⟩
  · rw [call, heq] at hok
    cases hok
    exact Or.inr ⟨rfl, hmem⟩
  · rw [call, herr] at hok
    cases hok
  · rw [call, heq] at hok
    cases hok
    exact Or.inl ⟨rfl, hnew⟩

/-- The keys are different, and none of them is in the set. -/
def NewKeys (S : Set Bytes) (ks : List Bytes) : Prop :=
  ks.Nodup ∧ ∀ k ∈ ks, k ∉ S

/-- Behind a new key the others have to be new with it. -/
theorem newKeys_cons {S S' : Set Bytes} {k : Bytes} {ks : List Bytes}
    (hS : ∀ x, x ∈ S' ↔ x = k ∨ x ∈ S) (hk : k ∉ S) :
    NewKeys S (k :: ks) ↔ NewKeys S' ks := by
  rw [NewKeys, NewKeys, List.nodup_cons, List.forall_mem_cons]
  constructor
  · rintro ⟨⟨hnot, hnd⟩, -, hnew⟩
    refine ⟨hnd, ?_⟩
    intro x hx hmem
    rcases (hS x).mp hmem with rfl | hmem
    · exact hnot hx
    · exact hnew x hx hmem
  · rintro ⟨hnd, hnew⟩
    refine ⟨⟨?_, hnd⟩, hk, ?_⟩
    · exact fun hx => hnew k hx ((hS k).mpr (Or.inl rfl))
    · exact fun x hx hmem => hnew x hx ((hS x).mpr (Or.inr hmem))

/-- The loop of `Insert` succeeds just when the keys are new. -/
theorem Index.insertEntries_status
    (h : Durable env pb p table info (t, kv) cs)
    (hk : KeepsCalls env (inserts es) (t, kv))
    (hok : insertEntries env es t kv = .ok (status, t', kv')) :
    (status = .ok ∧ NewKeys (keys (flat cs)) (es.map Prod.fst))
      ∨ (status = .bptreeDuplicateKey
        ∧ ¬ NewKeys (keys (flat cs)) (es.map Prod.fst)) := by
  induction es generalizing t kv cs with
  | nil =>
      cases hok
      exact Or.inl ⟨rfl, List.nodup_nil, by simp⟩
  | cons e es ih =>
      obtain ⟨⟨st, t₁, kv₁⟩, hins, hloop⟩ := Exec.bind_eq_ok.mp hok
      have hcall : call env (t, kv) (.insert e.1 e.2)
          = .ok ((st, none), t₁, kv₁) := by
        show (Bptree.insert env t kv e.1 e.2 >>= _) = _
        rw [hins]
        rfl
      obtain ⟨hfirst, hrest⟩ := hk
      rcases insert_reply h.wellFormed h.reliable (hfirst.fresh (by rintro ⟨⟩))
        hcall with ⟨hst, hnew⟩ | ⟨hst, hmem⟩
      · -- the key is new, and with it the others are to be new
        obtain rfl : st = .ok := hst
        obtain ⟨cs₁, h₁, ha⟩ := h.call (by rintro ⟨⟩) hfirst hcall
        obtain rfl : kv₁ = kv := ha.store
        have hold : ∀ x, x ∈ keys (flat cs₁)
            ↔ x = e.1 ∨ x ∈ keys (flat cs) := by
          intro x
          rw [ha.flat, Bptree.entriesAfter, keys_insertNew]
          rfl
        rw [List.map_cons, newKeys_cons hold hnew]
        exact ih h₁ (hrest _ hcall) hloop
      · -- the key is refused, which ends the loop
        obtain rfl : st = .bptreeDuplicateKey := hst
        cases hloop
        refine Or.inr ⟨rfl, ?_⟩
        rintro ⟨-, hnew⟩
        exact hnew e.1 (List.mem_map_of_mem List.mem_cons_self) hmem

end Trees

namespace Table

/-! ## One index -/

section Index

variable {env : Env} {pb : SchemaProtobuf} {info : TableInfo}
  {primary i : IndexInfo} {desc : RowDescriptor} {index index' : Index}
  {kv kv' : KvStorage} {chunk : Chunk} {rows : List Row} {status : Status}
  {S : Set Bytes}

/-- The keys of a chunk go into an index just when all are new. -/
theorem IndexOf.insert_status (hk : Keyed info primary)
    (hi : i ∈ info.indexList) (h : IndexOf info i index)
    (ht : Keeps env pb info i index.bptree kv S)
    (hrows : ∀ row ∈ chunk.select, RowOf info desc row)
    (hloop : KeepsLoop env kv Index.inserts true chunk.select index)
    (hok : index.insert env kv chunk = .ok (status, index', kv')) :
    kv' = kv
      ∧ ((status = .ok ∧ NewKeys S (chunk.select.map (keyOf primary i)))
        ∨ (status = .bptreeDuplicateKey
          ∧ ¬ NewKeys S (chunk.select.map (keyOf primary i)))) := by
  obtain ⟨es, hes, hcalls⟩ := Exec.bind_eq_ok.mp hok
  obtain ⟨⟨st, t, kv₁⟩, hins, hfin⟩ := Exec.bind_eq_ok.mp hcalls
  have hfin := Except.ok.inj hfin
  obtain ⟨p, cs, hd, rfl⟩ := ht
  obtain ⟨rfl, -⟩ := Index.insertEntries_durable hd (hloop es hes) hins
  have hstatus := Index.insertEntries_status hd (hloop es hes) hins
  obtain ⟨hst, hstore, -, -⟩ := @IndexOf.finish info i index t kv₁ st h
  rw [hfin] at hst hstore
  obtain rfl : status = st := hst
  have hentries := encodeRows_eq hk hi h.table h.columns h.type hrows hes
  have hkeys : es.map Prod.fst = chunk.select.map (keyOf primary i) := by
    rw [hentries, List.map_map]
    rfl
  rw [hkeys] at hstatus
  exact ⟨hstore, hstatus⟩

/-- The data keys of the rows are different, and none of them is stored. -/
def NewRows (info : TableInfo) (kv : KvStorage) (rows : List Row) : Prop :=
  ∃ records, encodeRecords info rows = .ok records
    ∧ (records.map Prod.fst).Nodup ∧ ∀ r ∈ records, kv.data r.1 = none

/-- Rows are new just when their data keys are. -/
theorem newRows_iff (hk : Keyed info primary)
    (hrows : ∀ row ∈ rows, RowOf info desc row) :
    NewRows info kv rows
      ↔ (rows.map (recordLayout info primary).key).Nodup
        ∧ ∀ row ∈ rows, kv.data ((recordLayout info primary).key row)
          = none := by
  have hkeys : (rowRecords info primary rows).map Prod.fst
      = rows.map (recordLayout info primary).key := List.map_map
  constructor
  · rintro ⟨records, hrecords, hnd, hnew⟩
    cases (encodeRecords_eq hk hrows).symm.trans hrecords
    rw [hkeys] at hnd
    exact ⟨hnd, fun row hrow => hnew _ (List.mem_map_of_mem hrow)⟩
  · rintro ⟨hnd, hnew⟩
    refine ⟨_, encodeRecords_eq hk hrows, by rwa [hkeys], ?_⟩
    intro r hr
    obtain ⟨row, hrow, rfl⟩ := List.mem_map.mp hr
    exact hnew row hrow

/-- The keys of new rows are new in every index. -/
theorem NewRows.newKeys (hk : Keyed info primary) (hi : i ∈ info.indexList)
    (hrows : ∀ row ∈ rows, RowOf info desc row)
    (h : NewRows info kv rows) :
    NewKeys (rowKeys info primary desc kv i)
      (rows.map (keyOf primary i)) := by
  obtain ⟨hnd, hnew⟩ := (newRows_iff hk hrows).mp h
  have hcoding := @coding_keyColumns info primary i desc hk hi
  constructor
  · rw [List.nodup_iff_pairwise_ne, List.pairwise_map] at hnd ⊢
    refine hnd.imp_of_mem ?_
    intro row row' hrow hrow' hne hcode
    exact hne (hcoding.toKey _ _ (hrows row hrow) (hrows row' hrow') hcode)
  · intro k hk' hmem
    obtain ⟨row, hrow, rfl⟩ := List.mem_map.mp hk'
    obtain ⟨row', hrow', hstored, hcode⟩ := hmem
    have hkey := hcoding.toKey _ _ hrow' (hrows row hrow) hcode
    have hnone := hnew row hrow
    rw [← hkey, hstored] at hnone
    cases hnone

/-- The rows are new when their keys are new in the primary index. -/
theorem newRows_of_primary (hk : Keyed info primary)
    (hs : Sourced (recordLayout info primary) (RowOf info desc) kv.data)
    (hrows : ∀ row ∈ rows, RowOf info desc row)
    (h : NewKeys (rowKeys info primary desc kv primary)
      (rows.map (keyOf primary primary))) : NewRows info kv rows := by
  obtain ⟨hnd, hnew⟩ := h
  refine (newRows_iff hk hrows).mpr ⟨?_, ?_⟩
  · rw [List.nodup_iff_pairwise_ne, List.pairwise_map] at hnd ⊢
    refine hnd.imp_of_mem ?_
    intro row row' hrow hrow' hne hkey
    exact hne (primary_code_eq hk (hrows row hrow) (hrows row' hrow') hkey)
  · intro row hrow
    exact agrees_rowKeys.new hs
      (fun r r' hr hr' hkey => primary_code_eq hk hr hr' hkey)
      (hrows row hrow) (hnew _ (List.mem_map_of_mem hrow))

end Index

/-! ## All indexes -/

section Insert

variable {env : Env} {ho : HashOrder} {pb : SchemaProtobuf} {info : TableInfo}
  {primary : IndexInfo} {desc : RowDescriptor} {kv : KvStorage}
  {s s' : State} {chunk : Chunk} {status : Status} {h : List Op}

/-- The indexes take the rows when they are new; otherwise the primary index,
    or one before it, refuses one. -/
theorem Ready.insertCore_status (hk : Keyed info primary)
    (h : Ready pb info primary desc (Keeps env pb info) s)
    (hrows : ∀ row ∈ chunk.select, RowOf info desc row)
    (hloops : ∀ e ∈ s.1.colIndex,
      KeepsLoop env (stored s.2 (rowRecords info primary chunk.select))
        Index.inserts true chunk.select e.2)
    (hok : s.1.insertCore env ho s.2 chunk = .ok (status, s')) :
    (status = .ok ∧ NewRows info s.2 chunk.select)
      ∨ (status = .bptreeDuplicateKey ∧ ¬ NewRows info s.2 chunk.select) := by
  have hrecords : encodeRecords s.1.tableInfo chunk.select
      = .ok (rowRecords info primary chunk.select) := by
    rw [h.table]
    exact encodeRecords_eq hk hrows
  have hkv : (stored s.2 (rowRecords info primary chunk.select)).Reliable :=
    h.store.reliable
  rw [insertCore_reliable h.store.reliable hrecords] at hok
  -- what an index answers, by the keys it has
  have hcall : ∀ e ∈ s.1.colIndex, ∀ {kv status index' kv'},
      kv = stored s.2 (rowRecords info primary chunk.select) →
      e.2.insert env kv chunk = .ok (status, index', kv') →
      kv' = kv ∧ ∃ i ∈ info.indexList, e.1 = i.id
        ∧ ((status = .ok ∧ NewKeys (rowKeys info primary desc s.2 i)
            (chunk.select.map (keyOf primary i)))
          ∨ (status = .bptreeDuplicateKey
            ∧ ¬ NewKeys (rowKeys info primary desc s.2 i)
              (chunk.select.map (keyOf primary i)))) := by
    rintro e he kv status index' kv' rfl hcall
    obtain ⟨i, hi, hid, hindex, ht⟩ := h.indexes e he
    obtain ⟨hsame, hstatus⟩ := hindex.insert_status hk hi
      (ht.frame onlyRecords_stored.sameNodes hkv) hrows (hloops e he) hcall
    exact ⟨hsame, i, hi, hid, hstatus⟩
  by_cases hst : status = .ok
  · -- no index refused: the primary one had none of the keys
    subst hst
    refine Or.inl ⟨rfl, ?_⟩
    have heach : ∀ e ∈ s.1.colIndex,
        Each (fun _ index kv => index.insert env kv chunk)
          (· = stored s.2 (rowRecords info primary chunk.select))
          (fun _ index _ => ∃ e ∈ s.1.colIndex, index = e.2)
          (fun id _ _ => ∃ i ∈ info.indexList, id = i.id
            ∧ NewKeys (rowKeys info primary desc s.2 i)
              (chunk.select.map (keyOf primary i))) e := by
      intro e he
      refine ⟨?_, ?_⟩
      · rintro kv index' kv' hP - hok
        obtain ⟨hsame, i, hi, hid, hstatus⟩ := hcall e he hP hok
        rcases hstatus with ⟨-, hnew⟩ | ⟨hdup, -⟩
        · exact ⟨hsame.trans hP, i, hi, hid, hnew⟩
        · cases hdup
      · intro kv index' kv' _ _ _ id _ index
        exact ⟨fun hD => hD, fun hD => hD⟩
    obtain ⟨-, -, -, hids, hall⟩ := overIndexes_each heach (h.nodup hk) rfl
      (fun e he => ⟨e, he, rfl⟩) hok
    have hmem : primary.id ∈ s'.1.colIndex.map Prod.fst :=
      (hids.trans h.ids).mem_iff.mpr (List.mem_map_of_mem hk.primary_mem)
    obtain ⟨e, he, hid⟩ := List.mem_map.mp hmem
    obtain ⟨i, hi, hid', hnew⟩ := hall e he
    obtain rfl := List.inj_on_of_nodup_map hk.ids hi hk.primary_mem
      (hid'.symm.trans hid)
    exact newRows_of_primary hk h.store.sourced hrows hnew
  · -- the first index that refused had one of the keys
    obtain ⟨⟨st, ies, kv⟩, hloop, hok⟩ := Exec.bind_eq_ok.mp hok
    cases hok
    have hperm := ho.indexes.perm s.1.colIndex
    obtain ⟨id, index, index', kv₁, hmem, -, hP, hrefused⟩ :=
      forIndexes_refused
        (P := (· = stored s.2 (rowRecords info primary chunk.select)))
        (fun id index kv index' kv' hmem hP hok =>
          (hcall _ (hperm.mem_iff.mp hmem) hP hok).1.trans hP) rfl hloop hst
    obtain ⟨-, i, hi, -, hstatus⟩ :=
      hcall _ (hperm.mem_iff.mp hmem) hP hrefused
    rcases hstatus with ⟨hok, -⟩ | ⟨hdup, hold⟩
    · exact absurd hok hst
    · exact Or.inr ⟨hdup, fun hnew => hold (hnew.newKeys hk hi hrows)⟩

/-- `Insert` on a table of which memory or the store has the indexes. -/
theorem Consistent.insert_status (hk : Keyed info primary)
    (hc : Consistent env pb info primary desc s)
    (hrows : ∀ row ∈ chunk.select, RowOf info desc row)
    (hkeeps : KeepsFor env s (.insert ho chunk))
    (hok : s.1.insert env ho s.2 chunk = .ok (status, s')) :
    (status = .ok ∧ NewRows info s.2 chunk.select)
      ∨ (status = .bptreeDuplicateKey
        ∧ ¬ NewRows info s.2 chunk.select) := by
  obtain ⟨t, hload, hok⟩ := Exec.bind_eq_ok.mp hok
  obtain ⟨⟨st, u⟩, hcore, hok⟩ := Exec.bind_eq_ok.mp hok
  obtain ⟨hstore, ht⟩ := hc.loadMeta hk hload
  obtain ⟨hloops, -⟩ := hkeeps t hload
  have hrecords : encodeRecords t.1.tableInfo chunk.select
      = .ok (rowRecords info primary chunk.select) := by
    rw [ht.table]
    exact encodeRecords_eq hk hrows
  have hcase := ht.keeps.insertCore_status hk hrows (hloops _ hrecords) hcore
  rw [hstore] at hcase
  rcases hcase with ⟨rfl, hnew⟩ | ⟨rfl, hold⟩
  · exact Or.inl ⟨submit_status hok, hnew⟩
  · cases hok
    exact Or.inr ⟨rfl, hold⟩

/-- After any run of calls that keep what is stored, an insert of rows of the
    table that keeps it too succeeds if and only if their primary keys are
    different and none of them is stored; else it is refused as a duplicate
    key. -/
theorem insert_succeeds_iff (hk : Keyed info primary)
    (hn : NewTable pb info kv)
    (hrun : Run (KeepingStep env pb info desc) ({ tableInfo := info }, kv) h s)
    (hrows : ∀ row ∈ chunk.select, RowOf info desc row)
    (hkeeps : KeepsFor env s (.insert ho chunk))
    (hok : s.1.insert env ho s.2 chunk = .ok (status, s')) :
    (status = .ok ∧ NewRows info s.2 chunk.select)
      ∨ (status = .bptreeDuplicateKey
        ∧ ¬ NewRows info s.2 chunk.select) := by
  have hc := hrun.preserves
    (I := fun s => Consistent env pb info primary desc s)
    (Or.inr hn.closed) (fun hc hs => hc.step hk hs)
  exact hc.insert_status hk hrows hkeeps hok

/-- A row that has the secondary key of one and the primary key of another
    stored row: the insert of a chunk with it is refused. -/
def refusedInsert : Op :=
  .insert .inOrder { select := [score 5 20, score 3 40] }

/-- Inserting a row of a stored key is refused. -/
theorem insert_succeeds_iff_scores :
    ∃ (s s' : State) (status : Status), RowStored scores s.2 (score 3 20)
      ∧ call (.wire 1024) .wire s refusedInsert = .ok (status, s')
      ∧ status ≠ .ok
      ∧ ((status = .ok ∧ NewRows scores s.2 [score 5 20, score 3 40])
        ∨ (status = .bptreeDuplicateKey
          ∧ ¬ NewRows scores s.2 [score 5 20, score 3 40])) := by
  obtain ⟨⟨s, status, s'⟩, hexec, hview⟩ := @exists_of_computed _ _ _
    (do
      let s ← twoObjects.foldlM (callKeeping 1024 .wire scores scoresDesc)
        ({ tableInfo := scores }, scoresStore)
      let r ← call (.wire 1024) .wire s refusedInsert
      return (s, r))
    (fun r => (decide (RowStored scores r.1.2 (score 3 20)),
      decide (r.2.1 = .ok), decide (KeepsFor (.wire 1024) r.1 refusedInsert)))
    (true, false, true) (by decide +kernel)
  obtain ⟨hstored, hview⟩ := Prod.mk.inj hview
  obtain ⟨hst, hkeeps⟩ := Prod.mk.inj hview
  obtain ⟨s₁, hrun, hexec⟩ := Exec.bind_eq_ok.mp hexec
  obtain ⟨r, hcall, hexec⟩ := Exec.bind_eq_ok.mp hexec
  cases hexec
  exact ⟨s, s', status, of_decide_eq_true hstored, hcall,
    of_decide_eq_false hst,
    insert_succeeds_iff keyed_scores newTable_scores
      (run_of_callKeeping hrun) (by decide) (of_decide_eq_true hkeeps) hcall⟩

end Insert

end Table

end AmDb.Storage
