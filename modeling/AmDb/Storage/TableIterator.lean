import AmDb.Codec.RowRecord
import AmDb.Storage.IteratorFrame
import AmDb.Storage.RangeScan

/-! # The iterator over a table's rows

    `table_iterator.cc` of `sql/storage` and `Chunk::PullData`.  The keys of a
    page lead to the records of its rows, all of which are fetched, or none. -/

namespace AmDb.Storage

open Codec AmDb.Schema Chunk Plan OrderedMap

/-- What the tuples of new rows read as before they are filled, whatever their
    layout, and the strings in the row an index key is decoded into. -/
structure NewMemory where
  rows : ∀ desc : RowDescriptor, Nat → Memory desc
  keys : Bytes → StringObjects

/-- The key of the record an index entry leads to, by its name. -/
def itemKey (objects : StringObjects) (table : TableInfo) (index : IndexInfo)
    (desc : RowDescriptor) (entry : Bytes × Bytes) : Exec StoreKey :=
  match table.primary with
  | none => .error .undefined
  | some primary => do
      let calls ← decodeIndex table index entry.1
      let cells ← setColValues desc calls (fun _ => none)
      let colKeys ← primary.columns.mapM (fun c =>
        match cells (c.id % 2 ^ 32) with
        | none => .error .undefined
        | some v => .ok (objects.reread (c.id % 2 ^ 32) v).toString)
      return .dataKey table.dbId table.id colKeys

/-- A row made of a record. -/
def pullRow (table : TableInfo) {desc : RowDescriptor} (memory : Memory desc)
    (value : Bytes) : Exec Row := do
  let (calls, _) ← decodeRow table value
  let cells ← setColValues desc calls (fun _ => none)
  return if calls.isEmpty then .blank desc else .fill memory cells

/-- The loop of `PullData`, from row `i` of the chunk. -/
def pullRows (table : TableInfo) {desc : RowDescriptor}
    (memory : Nat → Memory desc) : Nat → List Bytes → Exec (List Row)
  | _, [] => .ok []
  | i, value :: values => do
      let row ← pullRow table (memory i) value
      let rows ← pullRows table memory (i + 1) values
      return row :: rows

/-- `PullData`, where the chunk's layout is `desc`. -/
def pullData (table : TableInfo) {desc : RowDescriptor}
    (memory : Nat → Memory desc) (chunk : Chunk) (values : List Bytes) :
    Exec Chunk := do
  let rows ← pullRows table memory chunk.select.length values
  return { chunk with
    cursor := 0, curCapacity := values.length
    select := chunk.select ++ rows }

/-- `TableIterator::GetItem` of an iterator over this index. -/
def getItem (memory : NewMemory) (index : Index) (s : BaseScan)
    (chunk : Chunk) : Exec (Status × Chunk × BaseScan) :=
  if s.it.code ≠ .ok ∧ s.it.code ≠ .bptreeIteratorEnd then
    .ok (s.it.code, chunk, s)
  else if s.it.dataSegment = [] then .ok (.ok, chunk, s)
  else
    match chunk.rowDesc with
    | none => .error .undefined
    | some desc => do
        let keys ← s.it.dataSegment.mapM (fun entry =>
          itemKey (memory.keys entry.1) index.tableInfo index.indexInfo desc
            entry)
        let (status, values, kv) := s.kv.mGetKV keys
        if status ≠ .ok then return (status, chunk, { s with kv })
        else do
          let chunk ←
            pullData index.tableInfo (memory.rows desc) chunk values
          return (.ok, chunk, { s with kv })

/-- `Next` and `GetItem` in turn, until `Code()` is no longer `C_OK`: the chunk
    before and after. -/
inductive Yields (env : Env) (memory : NewMemory) (index : Index) :
    BaseScan → Chunk → Chunk → Prop
  | done {s : BaseScan} {chunk : Chunk} (hcode : s.it.code ≠ .ok) :
      Yields env memory index s chunk chunk
  | page {s s₁ s₂ : BaseScan} {chunk chunk₁ chunk' : Chunk} {status : Status}
      (hcode : s.it.code = .ok) (hnext : s.next env = .ok s₁)
      (hget : getItem memory index s₁ chunk = .ok (status, chunk₁, s₂))
      (hrest : Yields env memory index s₂ chunk₁ chunk') :
      Yields env memory index s chunk chunk'

/-- A result that is mapped once it is there. -/
theorem map_bind_pure {α β γ : Type} (x : Exec α) (f : α → β) (g : β → γ) :
    (x >>= fun a => (pure (f a) : Exec β)).map g
      = x >>= fun a => pure (g (f a)) := by
  cases x <;> rfl

/-- The bytes of the key are those `GetItem` makes. -/
theorem getItemKey_eq_itemKey {table : TableInfo} {primary index : IndexInfo}
    (hp : table.primary = some primary) (objects : StringObjects)
    (desc : RowDescriptor) (entry : Bytes × Bytes) :
    (decodeIndex table index entry.1
        >>= getItemKey objects table primary desc)
      = (itemKey objects table index desc entry).map StoreKey.encode := by
  rw [itemKey, hp]
  simp only
  cases decodeIndex table index entry.1 with
  | error e => rfl
  | ok calls =>
      simp only [Exec.bind_ok, getItemKey]
      cases setColValues desc calls (fun _ => none) with
      | error e => rfl
      | ok cells =>
          simp only [Exec.bind_ok]
          rw [map_bind_pure]
          rfl

/-! ## Pages whose records are all there -/

section Readable

/-- An entry whose record is in the store and can be made a row. -/
structure Readable (memory : NewMemory) (index : Index) (desc : RowDescriptor)
    (kv : KvStorage) (entry : Bytes × Bytes) : Prop where
  record : ∃ key value,
    itemKey (memory.keys entry.1) index.tableInfo index.indexInfo desc entry
        = .ok key
      ∧ kv.data key = some value
      ∧ ∃ calls last cells,
        decodeRow index.tableInfo value = .ok (calls, last)
        ∧ setColValues desc calls (fun _ => none) = .ok cells

variable {env : Env} {memory : NewMemory} {index : Index}
  {desc : RowDescriptor} {kv : KvStorage} {entries : List (Bytes × Bytes)}

/-- The records of readable entries are all fetched. -/
theorem mGetKV_readable (hkv : kv.Reliable)
    (h : ∀ e ∈ entries, Readable memory index desc kv e) :
    ∃ keys values,
      entries.mapM (fun e => itemKey (memory.keys e.1) index.tableInfo
        index.indexInfo desc e) = .ok keys
      ∧ kv.mGetKV keys = (.ok, values, kv) ∧ values.length = entries.length
      ∧ ∀ value ∈ values, ∃ calls last cells,
        decodeRow index.tableInfo value = .ok (calls, last)
        ∧ setColValues desc calls (fun _ => none) = .ok cells := by
  induction entries with
  | nil => exact ⟨[], [], rfl, rfl, rfl, List.forall_mem_nil _⟩
  | cons e entries ih =>
      obtain ⟨⟨key, value, hkey, hdata, hrow⟩, hrest⟩ :=
        List.forall_mem_cons.mp h
      obtain ⟨keys, values, hkeys, hget, hlen, hrows⟩ := ih hrest
      refine ⟨key :: keys, value :: values, ?_, ?_, ?_, ?_⟩
      · rw [List.mapM_cons, hkey, Exec.bind_ok, hkeys]
        rfl
      · rw [KvStorage.mGetKV, KvStorage.getKV_of_some hkv hdata]
        simp only [hget]
      · rw [List.length_cons, hlen, List.length_cons]
      · exact List.forall_mem_cons.mpr ⟨hrow, hrows⟩

/-- Values that decode give rows. -/
theorem exists_pullRows {table : TableInfo} {values : List Bytes}
    (memory : Nat → Memory desc) (i : Nat)
    (h : ∀ value ∈ values, ∃ calls last cells,
      decodeRow table value = .ok (calls, last)
        ∧ setColValues desc calls (fun _ => none) = .ok cells) :
    ∃ rows, pullRows table memory i values = .ok rows
      ∧ rows.length = values.length := by
  induction values generalizing i with
  | nil => exact ⟨[], rfl, rfl⟩
  | cons value values ih =>
      obtain ⟨⟨calls, last, cells, hcalls, hcells⟩, hrest⟩ :=
        List.forall_mem_cons.mp h
      obtain ⟨rows, hrows, hlen⟩ := ih (i + 1) hrest
      rw [pullRows, pullRow, hcalls]
      simp only [Exec.bind_ok, hcells, hrows, Exec.pure_eq]
      exact ⟨_, rfl, congrArg (· + 1) hlen⟩

/-- A page of readable entries adds a row for each of them. -/
theorem getItem_readable {s : BaseScan} {chunk : Chunk}
    (hcode : s.it.code = .ok ∨ s.it.code = .bptreeIteratorEnd)
    (hkv : s.kv.Reliable) (hdesc : chunk.rowDesc = some desc)
    (h : ∀ e ∈ s.it.dataSegment, Readable memory index desc s.kv e) :
    ∃ chunk', getItem memory index s chunk = .ok (.ok, chunk', s)
      ∧ chunk'.rowDesc = some desc
      ∧ chunk'.select.length
        = chunk.select.length + s.it.dataSegment.length := by
  have hgo : ¬ (s.it.code ≠ .ok ∧ s.it.code ≠ .bptreeIteratorEnd) :=
    fun hne => hcode.elim hne.1 hne.2
  rw [getItem, if_neg hgo]
  split_ifs with hnil
  · exact ⟨chunk, rfl, hdesc, by rw [hnil]; rfl⟩
  · obtain ⟨keys, values, hkeys, hget, hlen, hvalues⟩ :=
      mGetKV_readable hkv h
    obtain ⟨rows, hrows, hrowsLen⟩ :=
      exists_pullRows (memory.rows desc) chunk.select.length hvalues
    rw [hdesc]
    simp only [hkeys, Exec.bind_ok, hget, ne_eq, not_true_eq_false, if_false,
      pullData, hrows, Exec.pure_eq]
    exact ⟨_, rfl, hdesc, by rw [List.length_append, hrowsLen, hlen]⟩

/-- `GetItem` only adds rows. -/
theorem getItem_extends {s s' : BaseScan} {chunk chunk' : Chunk}
    {status : Status}
    (h : getItem memory index s chunk = .ok (status, chunk', s')) :
    chunk.select <+: chunk'.select := by
  rw [getItem] at h
  split at h
  · cases h
    exact List.prefix_refl _
  · split at h
    · cases h
      exact List.prefix_refl _
    · split at h
      · cases h
      · obtain ⟨keys, -, h⟩ := Exec.bind_eq_ok.mp h
        simp only at h
        split at h
        · cases h
          exact List.prefix_refl _
        · obtain ⟨chunk₁, hpull, h⟩ := Exec.bind_eq_ok.mp h
          cases h
          obtain ⟨rows, -, hpull⟩ := Exec.bind_eq_ok.mp hpull
          cases hpull
          exact List.prefix_append _ _

/-- Unless it returns `C_OK` it adds none. -/
theorem getItem_failed {s s' : BaseScan} {chunk chunk' : Chunk}
    {status : Status} (hst : status ≠ .ok)
    (h : getItem memory index s chunk = .ok (status, chunk', s')) :
    chunk' = chunk := by
  rw [getItem] at h
  split at h
  · cases h
    rfl
  · split at h
    · cases h
      rfl
    · split at h
      · cases h
      · obtain ⟨keys, -, h⟩ := Exec.bind_eq_ok.mp h
        simp only at h
        split at h
        · cases h
          rfl
        · obtain ⟨chunk₁, -, h⟩ := Exec.bind_eq_ok.mp h
          cases h
          exact absurd rfl hst

/-- Pulling adds rows to the chunk. -/
theorem Yields.extends {s : BaseScan} {chunk chunk' : Chunk}
    (h : Yields env memory index s chunk chunk') :
    chunk.select <+: chunk'.select := by
  induction h with
  | done => exact List.prefix_refl _
  | page _ _ hget _ ih => exact (getItem_extends hget).trans ih

/-- What is pulled is determined. -/
theorem Yields.eq {s : BaseScan} {chunk chunk₁ chunk₂ : Chunk}
    (h₁ : Yields env memory index s chunk chunk₁)
    (h₂ : Yields env memory index s chunk chunk₂) : chunk₁ = chunk₂ := by
  induction h₁ with
  | done hcode =>
      cases h₂ with
      | done => rfl
      | page hok => exact absurd hok hcode
  | page hcode hnext hget _ ih =>
      cases h₂ with
      | done hno => exact absurd hcode hno
      | page _ hnext' hget' hrest =>
          obtain rfl := Except.ok.inj (hnext.symm.trans hnext')
          cases hget.symm.trans hget'
          exact ih hrest

end Readable

end AmDb.Storage
