import AmDb.Storage.NodeCount
import AmDb.Storage.ReadFailure
import AmDb.Storage.TableFrame

/-! # Sessions on an index

    A session reads the description of a table from the store, makes an index of
    it, calls its tree and ends with a save; the next session starts with what
    is stored.  `CREATE TABLE` alone writes the description, so every session
    starts with the same `max_tree_node_id`. -/

namespace AmDb.Storage

open Codec AmDb.Schema Chunk

/-- Where an index is described: in the record of its table, at a position of
    `index_list`. -/
structure Place where
  dbId    : Nat
  tableId : Nat
  pos     : Nat

/-- `LoadTableMeta`, then `Index::Index` on one of the table's indexes; without
    the index there is no session. -/
def openIndex (env : Env) (pb : SchemaProtobuf) (p : Place) (kv : KvStorage) :
    Exec (Index × KvStorage) :=
  let (status, table, kv) := Metadata.loadTableMeta pb kv p.dbId p.tableId
  if status ≠ .ok then .error .assertion
  else match table.indexList[p.pos]? with
    | none => .error .assertion
    | some index => Index.new env kv table index

namespace Session

/-- A call on the tree, a save, or a save and a new session. -/
inductive Op where
  | call (op : TreeOp)
  | save (walk : Walk (Nat × Addr))
  | next (walk : Walk (Nat × Addr))

/-- The tree and the store after `Index::Save`. -/
def saved (env : Env) (walk : Walk (Nat × Addr)) (s : TreeState) : TreeState :=
  s.1.pullInOrder env (walk.order s.1.treeCtx.unsavedNodes) s.2

def step (env : Env) (pb : SchemaProtobuf) (p : Place) (s : TreeState) :
    Op → Exec (Reply × TreeState)
  | .call op => Bptree.call env s op
  | .save walk => .ok ((.ok, none), saved env walk s)
  | .next walk => do
      let (index, kv) ← openIndex env pb p (saved env walk s).2
      return ((.ok, none), index.bptree, kv)

/-- A step that returned. -/
def Stepped (env : Env) (pb : SchemaProtobuf) (p : Place) (s : TreeState)
    (e : Op × Reply) (s' : TreeState) : Prop :=
  step env pb p s e.1 = .ok (e.2, s')

end Session

/-! ## Opening an index again -/

/-- The store describes this index at this place. -/
def Described (pb : SchemaProtobuf) (p : Place) (kv : KvStorage)
    (table : TableInfo) (index : IndexInfo) : Prop :=
  ∃ value proto, kv.data (.tableId p.dbId p.tableId) = some value
    ∧ pb.table.parseFromString value = some proto
    ∧ table = .deserialize proto ∧ table.indexList[p.pos]? = some index

/-- What an unset description parses as. -/
def unsetTable : TableProto := ⟨0, [], 0, [], [], [], 0, 0⟩

section Open

variable {env : Env} {pb : SchemaProtobuf} {p : Place} {kv kv' : KvStorage}
  {table : TableInfo} {info : IndexInfo} {index : Index}

/-- The description only depends on the store's descriptions. -/
theorem Described.congr (h : Described pb p kv table info)
    (hdata : ∀ dbId tableId, kv'.data (.tableId dbId tableId)
      = kv.data (.tableId dbId tableId)) : Described pb p kv' table info := by
  obtain ⟨value, proto, hvalue, hproto⟩ := h
  exact ⟨value, proto, (hdata _ _).trans hvalue, hproto⟩

/-- A description that is read, and one that cannot be read. -/
theorem loadTableMeta_read {value : Bytes} {proto : TableProto}
    (hf : kv.tick.1 = false)
    (hvalue : kv.data (.tableId p.dbId p.tableId) = some value)
    (hproto : pb.table.parseFromString value = some proto) :
    Metadata.loadTableMeta pb kv p.dbId p.tableId
      = (.ok, .deserialize proto, kv.tick.2) := by
  simp only [Metadata.loadTableMeta, KvStorage.getKV, hf, Bool.false_eq_true,
    if_false, KvStorage.tick_data, hvalue, hproto]
  rfl

/-- A read that fails shows a table without a field. -/
theorem loadTableMeta_failed (hf : kv.tick.1 = true) {proto : TableProto}
    (hnil : pb.table.parseFromString [] = some proto) :
    Metadata.loadTableMeta pb kv p.dbId p.tableId
      = (.ok, .deserialize proto, kv.tick.2) := by
  simp only [Metadata.loadTableMeta, KvStorage.getKV_of_failed hf, hnil]
  rfl

/-- A session starts when the description was read. -/
theorem openIndex_eq (hnil : pb.table.parseFromString [] = some unsetTable)
    (hd : Described pb p kv table info) :
    openIndex env pb p kv = if kv.tick.1 then .error .assertion
      else Index.new env kv.tick.2 table info := by
  obtain ⟨value, proto, hvalue, hproto, rfl, hinfo⟩ := hd
  rw [openIndex]
  cases hf : kv.tick.1 with
  | true =>
      rw [loadTableMeta_failed hf hnil]
      rfl
  | false =>
      rw [loadTableMeta_read hf hvalue hproto]
      simp only [ne_eq, not_true_eq_false, if_false, hinfo,
        Bool.false_eq_true]

end Open

/-! ## The tree of a new session -/

namespace Bptree

/-- A tree made of the references of a stored root: leaves not read yet, under
    a root of their ids. -/
structure Opened (t : Bptree) (table : TableInfo) (info : IndexInfo)
    (refs : List BptNodeRefProto) : Prop where
  linked : Linked t (List.range' 1 refs.length)
  schema : t.treeCtx.schema = treeSchema table info
  ctx    : t.treeCtx.id = info.maxTreeNodeId ∧ t.treeCtx.unsavedNodes = []
  root   : t.node t.root = { (Index.emptyTree table info).node 0 with
    children := List.range' 1 refs.length }
  leaves : ∀ i r, refs[i]? = some r → t.node (1 + i) = nodeOfRef 0 r

section Opened

variable {env : Env} {kv kv' : KvStorage} {table : TableInfo}
  {info : IndexInfo} {index : Index} {refs : List BptNodeRefProto}
  {t : Bptree}

/-- The references of the root become its children. -/
theorem opened_addRefs (h : ∀ r ∈ refs, r.type = .leaf) :
    Opened ((Index.emptyTree table info).addRefs 0 refs) table info refs := by
  have hadd := @addRefs_refsAdded (Index.emptyTree table info) 0 Nat.one_pos
    refs
  have hroot : ((Index.emptyTree table info).addRefs 0 refs).root = 0 :=
    hadd.root
  -- the new nodes are numbered from one
  have hleaf : ∀ a ∈ List.range' 1 refs.length, ∃ r ∈ refs,
      ((Index.emptyTree table info).addRefs 0 refs).node a = nodeOfRef 0 r := by
    intro a ha
    obtain ⟨i, hi, rfl⟩ := List.mem_range'.mp ha
    refine ⟨refs[i], List.getElem_mem hi, ?_⟩
    rw [Nat.one_mul]
    exact hadd.refs i _ (List.getElem?_eq_getElem hi)
  refine ⟨?_, by rw [hadd.ctx]; rfl, ⟨by rw [hadd.ctx]; rfl,
    by rw [hadd.ctx]; rfl⟩, by rw [hroot]; exact hadd.node, hadd.refs⟩
  refine ⟨?_, ?_, ?_, ?_, ?_, ?_, ?_, ?_⟩
  · rw [hroot, hadd.node]; rfl
  · rw [hroot, hadd.node]; rfl
  · rw [hroot, hadd.node]; rfl
  · rw [hroot, hadd.node]; rfl
  · rw [hroot, hadd.next]; exact Nat.lt_add_right _ Nat.one_pos
  · intro a ha
    rw [hadd.next]
    exact (List.mem_range'_1.mp ha).2
  · rw [hroot]
    refine List.nodup_cons.mpr ⟨?_, List.nodup_range'⟩
    intro hmem
    exact absurd (List.mem_range'_1.mp hmem).1 (Nat.not_succ_le_zero 0)
  · intro a ha
    obtain ⟨r, hr, hnode⟩ := hleaf a ha
    rw [hnode, hroot]
    exact ⟨decide_eq_true (h r hr), rfl, rfl, rfl⟩

/-- What `Index::Index` makes of the stored root, if it can read it. -/
theorem new_addRefs (h : Index.new env kv table info = .ok (index, kv')) :
    kv' = kv.skip 1 ∧ ∃ refs,
      index.bptree = (Index.emptyTree table info).addRefs 0 refs
      ∧ (refs = [] ∨ ∃ input, kv.data (rootKey table info) = some input
        ∧ refs = storedRefs env input) := by
  refine ⟨Index.new_skip h, ?_⟩
  obtain ⟨⟨status, t, kv₁⟩, hload, h⟩ := Exec.bind_eq_ok.mp h
  cases h
  rcases loadTreeNode_inner (Index.emptyTree_eq table info).2 hload with
    rfl | ⟨input, -, hinput, rfl⟩
  · exact ⟨[], rfl, Or.inl rfl⟩
  · exact ⟨_, rfl, Or.inr ⟨input, hinput, rfl⟩⟩

end Opened

/-! ## What a save writes -/

section Save

variable {env : Env} {t : Bptree} {kv : KvStorage}

/-- Under a key there is what was there before the save, or one of the nodes
    collected under it. -/
theorem dumpNodes_data (es : List (Nat × Addr)) (key : StoreKey) :
    (t.dumpNodes env es kv).2.data key = kv.data key
      ∨ ∃ e ∈ es, key = t.nodeKey e.1
        ∧ (t.dumpNodes env es kv).2.data key = some (t.serialize env e.2) := by
  induction es generalizing kv with
  | nil => exact Or.inl rfl
  | cons e es ih =>
      rw [dumpNodes, dumpTreeNode, KvStorage.putKV, KvStorage.tick_eq]
      cases kv.fails 0 with
      | true => exact Or.inl rfl
      | false =>
          simp only [Bool.false_eq_true, if_false]
          rcases @ih ((kv.skip 1).written (t.nodeKey e.1) (t.serialize env e.2))
            with hsame | ⟨x, hx, hkey, hdata⟩
          · by_cases hkey : key = t.nodeKey e.1
            · refine Or.inr ⟨e, List.mem_cons_self, hkey, ?_⟩
              refine hsame.trans ?_
              rw [hkey, KvStorage.written_data_self]
            · refine Or.inl (hsame.trans ?_)
              rw [KvStorage.written_data_of_ne _ _ hkey, KvStorage.skip_data]
          · exact Or.inr ⟨x, List.mem_cons_of_mem _ hx, hkey, hdata⟩

theorem pullInOrder_snd (es : List (Nat × Addr)) :
    (t.pullInOrder env es kv).2 = (t.dumpNodes env es kv).2 := by
  rw [pullInOrder]
  split <;> (case _ heq => rw [heq])

/-- The tree is as it was, or nothing waits any more. -/
theorem pullInOrder_fst (es : List (Nat × Addr)) :
    (t.pullInOrder env es kv).1 = t ∨ (t.pullInOrder env es kv).1 = t.saved := by
  rw [pullInOrder]
  split
  · exact Or.inr rfl
  · exact Or.inl rfl

end Save

end Bptree

/-! ## An index as `CREATE TABLE` leaves it -/

/-- A table with a primary index. -/
def oneIndex : TableInfo :=
  { id := 7, dbId := 1,
    indexList := [{ id := 0, tableId := 7, type := .primary }],
    primaryIndex := some 0 }

def onlyIndex : Place := ⟨1, 7, 0⟩

/-- Its description is all that is stored. -/
def newIndexStore : KvStorage :=
  KvStorage.empty.written (.tableId 1 7)
    (SchemaProtobuf.wire.table.serializeAsString oneIndex.serialize)

theorem parse_nil_wire :
    SchemaProtobuf.wire.table.parseFromString [] = some unsetTable := by
  decide +kernel

/-- The store of the example describes its index. -/
theorem described_newIndexStore :
    Described .wire onlyIndex newIndexStore oneIndex
      { id := 0, tableId := 7, type := .primary } :=
  ⟨_, oneIndex.serialize, KvStorage.written_data_self ..,
    SchemaProtobuf.wire.table.parse_serialize _ trivial, rfl, rfl⟩

/-- The first session on it. -/
def newSession : TreeState :=
  (Index.emptyTree oneIndex { id := 0, tableId := 7, type := .primary },
    newIndexStore)

/-- A session opens the index of the example. -/
theorem exists_newSession (limit : Nat) :
    ∃ index, openIndex (.wire limit) .wire onlyIndex newIndexStore
        = .ok (index, newIndexStore)
      ∧ (index.bptree, newIndexStore) = newSession :=
  ⟨⟨oneIndex, _, newSession.1⟩,
    (openIndex_eq parse_nil_wire described_newIndexStore).trans rfl, rfl⟩

end AmDb.Storage
