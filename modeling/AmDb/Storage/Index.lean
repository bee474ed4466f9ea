import AmDb.Chunk.Row
import AmDb.Codec.RcCodec
import AmDb.Storage.Metadata
import AmDb.Storage.TreeSave

/-! # Indexes

    `sql/storage/index.cc`: a tree with the records of its table and of itself.
    `unsaved_nodes_` is a hash map; the order in which a save walks it is the
    argument `walk`. -/

namespace AmDb.Storage

open Codec AmDb.Schema Chunk

/-- `PullUnsavedTreeNode` where the map is walked in the order `es`. -/
def Bptree.pullInOrder (env : Env) (t : Bptree) (es : List (Nat × Addr))
    (kv : KvStorage) : Bptree × KvStorage :=
  match t.dumpNodes env es kv with
  | (.ok, kv) =>
      ({ t with treeCtx := { t.treeCtx with unsavedNodes := [] } }, kv)
  | (_, kv) => (t, kv)

/-- A store that never fails takes every node of the walk. -/
theorem Bptree.pullInOrder_reliable {env : Env} {t : Bptree} {kv : KvStorage}
    (hkv : kv.Reliable) (es : List (Nat × Addr)) :
    t.pullInOrder env es kv = (t.saved, t.dumped env es kv) := by
  rw [pullInOrder, dumpNodes_reliable hkv]
  rfl

/-- An order in which a hash map is walked, for any entries it may hold. -/
structure Walk (α : Type) where
  order : List α → List α
  perm  : ∀ es, (order es).Perm es

/-- The order of insertion. -/
def Walk.inOrder {α : Type} : Walk α := ⟨id, fun _ => .rfl⟩

/-- `Index`.  `table_info_` and `index_info_` point into one record; the index
    changes its own part of it, `max_tree_node_id`. -/
structure Index where
  tableInfo : TableInfo
  indexInfo : IndexInfo
  bptree    : Bptree

/-- The `TreeCtx::Schema` of an index. -/
def treeSchema (table : TableInfo) (index : IndexInfo) : Schema :=
  { dbId := table.dbId, tableId := table.id, indexId := index.id,
    rootId := index.rootNodeId, treeId := index.maxTreeNodeId }

namespace Index

/-- An empty root, before it is loaded. -/
def emptyTree (table : TableInfo) (index : IndexInfo) : Bptree :=
  .ofProto (.new (treeSchema table index))
    { id := index.rootNodeId, children := [] }

/-- `Index::Index`: whatever status the load of the root returns. -/
def new (env : Env) (kv : KvStorage) (table : TableInfo) (index : IndexInfo) :
    Exec (Index × KvStorage) := do
  let root := emptyTree table index
  let (_, bptree, kv) ←
    root.loadTreeNode env kv index.rootNodeId root.root
  return ({ tableInfo := table, indexInfo := index, bptree }, kv)

/-- `Index::Save`. -/
def save (env : Env) (walk : Walk (Nat × Addr)) (index : Index)
    (kv : KvStorage) : Status × Index × KvStorage :=
  let (bptree, kv) := index.bptree.pullInOrder env
    (walk.order index.bptree.treeCtx.unsavedNodes) kv
  (.ok, { index with bptree }, kv)

/-- The first loop of `Insert` and of `Delete`: key and value of every row.
    `Insert` reads all columns of a row before. -/
def encodeRows (index : Index) (readAll : Bool) :
    List Row → Exec (List (Bytes × Bytes))
  | [] => .ok []
  | row :: rows => do
      if readAll then
        let _ ← row.desc.mapM (fun d => row.getColValue d.colId)
      let entry ← encodeIndex index.tableInfo index.indexInfo row []
      let entries ← encodeRows index readAll rows
      return entry :: entries

/-- The second loop of `Insert`. -/
def insertEntries (env : Env) : List (Bytes × Bytes) → Bptree → KvStorage →
    Exec (Status × Bptree × KvStorage)
  | [], t, kv => .ok (.ok, t, kv)
  | e :: es, t, kv => do
      let (status, t, kv) ← t.insert env kv e.1 e.2
      if status ≠ .ok then return (status, t, kv)
      else insertEntries env es t kv

/-- The second loop of `Delete`. -/
def deleteEntries (env : Env) : List (Bytes × Bytes) → Bptree → KvStorage →
    Exec (Status × Bptree × KvStorage)
  | [], t, kv => .ok (.ok, t, kv)
  | e :: es, t, kv => do
      let (status, t, kv) ← t.delete env kv e.1
      if status ≠ .ok then return (status, t, kv)
      else deleteEntries env es t kv

/-- What `Insert` and `Delete` end with. -/
def finish (index : Index) :
    Status × Bptree × KvStorage → Status × Index × KvStorage
  | (status, bptree, kv) =>
      if status ≠ .ok then (status, { index with bptree }, kv)
      else (.ok, { index with
        bptree
        indexInfo := { index.indexInfo with
          maxTreeNodeId := bptree.treeCtx.id } }, kv)

/-- `Index::Insert`. -/
def insert (env : Env) (index : Index) (kv : KvStorage) (chunk : Chunk) :
    Exec (Status × Index × KvStorage) := do
  let entries ← index.encodeRows true chunk.select
  let r ← insertEntries env entries index.bptree kv
  return index.finish r

/-- `Index::Delete`. -/
def delete (env : Env) (index : Index) (kv : KvStorage) (chunk : Chunk) :
    Exec (Status × Index × KvStorage) := do
  let entries ← index.encodeRows false chunk.select
  let r ← deleteEntries env entries index.bptree kv
  return index.finish r

/-! ## Opening an index -/

section Open

variable {env : Env} {kv : KvStorage} {table : TableInfo} {index : IndexInfo}

/-- The key of the root, and the address it is loaded to. -/
theorem emptyTree_eq (table : TableInfo) (index : IndexInfo) :
    (emptyTree table index).nodeKey index.rootNodeId
        = .treeNode table.dbId table.id index.id index.rootNodeId
      ∧ ((emptyTree table index).node
        (emptyTree table index).root).isLeaf = false :=
  ⟨rfl, rfl⟩

/-- A root that is stored is read with its children. -/
theorem new_of_stored {value : Bytes} {proto : BptNodeProto}
    (hkv : kv.Reliable)
    (hdata : kv.data (.treeNode table.dbId table.id index.id index.rootNodeId)
      = some value)
    (hparse : env.pb.node.parseFromString value = some proto) :
    new env kv table index = .ok ({
      tableInfo := table
      indexInfo := index
      bptree := (emptyTree table index).addRefs (emptyTree table index).root
        proto.children }, kv) := by
  obtain ⟨hkey, hinner⟩ := emptyTree_eq table index
  have hload : (emptyTree table index).loadTreeNode env kv index.rootNodeId
      (emptyTree table index).root
      = .ok (.ok, (emptyTree table index).addRefs (emptyTree table index).root
        proto.children, kv) := by
    rw [Bptree.loadTreeNode, hkey, KvStorage.getKV_of_some hkv hdata]
    simp only [Bptree.deserialize, hinner, Bool.false_eq_true, if_false,
      hparse, Exec.bind_ok]
    rfl
  simp only [new, hload, Exec.bind_ok]
  rfl

/-- A root that is not there is an empty one, -/
theorem new_of_none (hkv : kv.Reliable)
    (hdata : kv.data (.treeNode table.dbId table.id index.id index.rootNodeId)
      = none) :
    new env kv table index = .ok ({
      tableInfo := table
      indexInfo := index
      bptree := emptyTree table index }, kv) := by
  rw [new, Bptree.loadTreeNode, (emptyTree_eq table index).1,
    KvStorage.getKV_of_none hkv hdata]
  rfl

/-- and one that cannot be read is taken for an empty one. -/
theorem new_of_failed (h : kv.tick.1 = true) :
    new env kv table index = .ok ({
      tableInfo := table
      indexInfo := index
      bptree := emptyTree table index }, kv.tick.2) := by
  rw [new, Bptree.loadTreeNode, KvStorage.getKV_of_failed h]
  rfl

end Open

end Index

end AmDb.Storage
