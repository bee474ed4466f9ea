import AmDb.Foundation.BinarySearch
import AmDb.Storage.BptNode
import AmDb.Storage.KvStorage

/-! # The tree in memory

    `TreeCtx`, the parts of `BptNode` that follow pointers, the two node
    entries of `Metadata`, and `sql/storage/bplus_tree.cc`.  A pointer is an
    address in an arena; nodes are never freed.  A loop over the levels of the
    tree is bounded by the number of nodes made so far. -/

namespace AmDb.Storage

open Codec BinarySearch

/-- What the tree takes from outside: the message classes and
    `FLAGS_bptree_max_node_size`. -/
structure Env where
  pb                 : Protobuf
  bptreeMaxNodeSize : Nat

/-- The wire format and a node size. -/
def Env.wire (bptreeMaxNodeSize : Nat) : Env := ⟨.wire, bptreeMaxNodeSize⟩

/-- `TreeCtx::Schema`. -/
structure Schema where
  dbId    : Nat := 0
  tableId : Nat := 0
  indexId : Nat := 0
  rootId  : Nat := 0
  treeId  : Nat := 0
  deriving DecidableEq, Inhabited

structure TreeCtx where
  unsavedNodes : List (Nat × Addr) := []
  id           : Nat := 0
  schema       : Schema := {}
  deriving DecidableEq, Inhabited

/-- `TreeCtx::TreeCtx`. -/
def TreeCtx.new (schema : Schema) : TreeCtx :=
  { unsavedNodes := [], id := schema.treeId, schema }

/-- The nodes created so far are those below `next`. -/
structure Arena where
  node : Addr → BptNode := fun _ => {}
  next : Addr := 0

/-- `Bptree` with its context and the nodes both point to. -/
structure Bptree where
  root    : Addr
  arena   : Arena
  treeCtx : TreeCtx

namespace Bptree

/-- Follow a pointer. -/
def node (t : Bptree) (a : Addr) : BptNode := t.arena.node a

/-- Write a node through its pointer. -/
def setNode (t : Bptree) (a : Addr) (n : BptNode) : Bptree :=
  { t with arena := { t.arena with node := Function.update t.arena.node a n } }

/-- `Arena::CreateObject`. -/
def createObject (t : Bptree) (n : BptNode) : Addr × Bptree :=
  (t.arena.next, { t with arena :=
    { node := Function.update t.arena.node t.arena.next n
      next := t.arena.next + 1 } })

/-! ## `TreeCtx` -/

/-- `TreeCtx::AllocateNodeID`. -/
def allocateNodeID (t : Bptree) : Nat × Bptree :=
  (t.treeCtx.id + 1, { t with treeCtx := { t.treeCtx with
    id := t.treeCtx.id + 1 } })

/-- `TreeCtx::CollectUnsavedTreeNode`. -/
def collectUnsavedTreeNode (t : Bptree) (a : Addr) : Bptree :=
  { t with treeCtx := { t.treeCtx with
    unsavedNodes := t.treeCtx.unsavedNodes.filter (·.1 ≠ (t.node a).id)
      ++ [((t.node a).id, a)] } }

/-- `TreeCtx::RemoveUnsavedTreeNode`. -/
def removeUnsavedTreeNode (t : Bptree) (a : Addr) : Bptree :=
  { t with treeCtx := { t.treeCtx with
    unsavedNodes := t.treeCtx.unsavedNodes.filter (·.1 ≠ (t.node a).id) } }

/-- The store key of a node of this tree. -/
def nodeKey (t : Bptree) (nodeId : Nat) : StoreKey :=
  .treeNode t.treeCtx.schema.dbId t.treeCtx.schema.tableId
    t.treeCtx.schema.indexId nodeId

/-! ## Constructors of `BptNode` -/

/-- `BptNode(TreeCtx*, BptNode* parent, const BptNodeRefProto&)`. -/
def nodeOfRef (parent : Addr) (proto : BptNodeRefProto) : BptNode :=
  { id := proto.id
    isLeaf := proto.type = .leaf
    parent := some parent
    stat := { maxKey := proto.stat.maxKey, minKey := proto.stat.minKey,
              count := proto.stat.count, nodeSize := proto.stat.nodeSize } }

/-- `BptNode(TreeCtx*, BptNode* parent, bool is_leaf)`. -/
def newNode (t : Bptree) (parent : Option Addr) (isLeaf : Bool) :
    Addr × Bptree :=
  let (id, t) := t.allocateNodeID
  t.createObject { id, isLeaf, parent }

/-- `BptNode(TreeCtx*, BptNode* left, BptNode* right)`. -/
def newRoot (t : Bptree) (left right : Addr) : Addr × Bptree :=
  let (id, t) := t.allocateNodeID
  let a := t.arena.next
  let t := t.setNode left
    { t.node left with isRoot := false, parent := some a }
  let t := t.setNode right
    { t.node right with isRoot := false, parent := some a }
  let ls := (t.node left).stat
  let rs := (t.node right).stat
  t.createObject {
    id
    isRoot := true
    children := [left, right]
    stat := {
      count := u64 (ls.count + rs.count)
      maxKey := rs.maxKey
      minKey := ls.minKey
      nodeSize := u64 (ls.minKey.length + ls.maxKey.length + 20
        + rs.minKey.length + rs.maxKey.length + 20) } }

/-- The loop of `Deserialize` over `children`. -/
def addRefs (t : Bptree) (a : Addr) : List BptNodeRefProto → Bptree
  | [] => t
  | proto :: protos =>
      let (c, t) := t.createObject (nodeOfRef a proto)
      let n := t.node a
      (t.setNode a { n with children := n.children ++ [c] }).addRefs a protos

/-- `BptNode(TreeCtx*, BptNodeProto* root)`, the first node of a tree. -/
def ofProto (treeCtx : TreeCtx) (proto : BptNodeProto) : Bptree :=
  let (root, t) := createObject { root := 0, arena := {}, treeCtx }
    { id := proto.id, isRoot := true }
  let t := { t with root }
  let t := t.addRefs root proto.children
  let n := t.node root
  let stats := n.children.map fun c => (t.node c).stat
  t.setNode root { n with stat := {
    count := stats.foldl (fun s st => u64 (s + st.count)) 0
    nodeSize := stats.foldl
      (fun s st => u64 (s + (st.maxKey.length + st.minKey.length + 20))) 0
    minKey := (stats.head?.map (·.minKey)).getD []
    maxKey := (stats.getLast?.map (·.maxKey)).getD [] } }

/-! ## Children of a node -/

/-- `BptNode::MaxKeyLowerBound`, as an index. -/
def maxKeyLowerBound (t : Bptree) (a : Addr) (key : Bytes) : Nat :=
  partitionPoint (fun c => isCmpLt (dataCmp (t.node c).stat.maxKey key))
    (t.node a).children

/-- `BptNode::MaxKeyUpperBound`, as an index. -/
def maxKeyUpperBound (t : Bptree) (a : Addr) (key : Bytes) : Nat :=
  partitionPoint (fun c => !isCmpGt (dataCmp (t.node c).stat.maxKey key))
    (t.node a).children

/-- `BptNode::FindChild` by key. -/
def findChild (t : Bptree) (a : Addr) (key : Bytes) : Option Addr :=
  match (t.node a).children[t.maxKeyLowerBound a key]? with
  | none => none
  | some c =>
      if isCmpGe (dataCmp key (t.node c).stat.minKey) then some c else none

/-- `BptNode::FindChild` by node, as an index. -/
def findChildNode (t : Bptree) (a child : Addr) : Option Nat :=
  let i := t.maxKeyLowerBound a (t.node child).stat.maxKey
  if (t.node a).children[i]? = some child then some i else none

/-- `BptNode::AddChild`. -/
def addChild (t : Bptree) (a child : Addr) : Bptree :=
  let i := t.maxKeyUpperBound a (t.node child).stat.maxKey
  let n := t.node a
  t.setNode a { n with
    children := n.children.take i ++ child :: n.children.drop i }

/-- `BptNode::DelChild`. -/
def delChild (t : Bptree) (a child : Addr) : Bptree :=
  match t.findChildNode a child with
  | none => t
  | some i =>
      let n := t.node a
      t.setNode a { n with children := n.children.eraseIdx i }

/-- `BptNode::NewMutableLeafChild`. -/
def newMutableLeafChild (t : Bptree) (a : Addr) : Addr × Bptree :=
  let (c, t) := t.newNode (some a) true
  let n := t.node a
  (c, t.setNode a { n with children := n.children ++ [c] })

/-- `BptNode::UpdateStatByRangeChange`; `front` and `back` of an empty vector
    are undefined. -/
def updateStatByRangeChange (t : Bptree) (a : Addr) (isAdd : Bool) :
    Exec Bptree :=
  let n := t.node a
  match n.children.head?, n.children.getLast? with
  | some f, some b => .ok (t.setNode a (n.updateStatByRangeChange
      (t.node f).stat.minKey (t.node b).stat.maxKey isAdd))
  | _, _ => .error .undefined

/-! ## Loading and saving -/

/-- `BptNode::Serialize`. -/
def serialize (env : Env) (t : Bptree) (a : Addr) : Bytes :=
  let n := t.node a
  if n.isLeaf then n.serializeLeaf env.pb
  else env.pb.node.serializeAsString {
    id := n.id
    children := n.children.map fun c =>
      let m := t.node c
      { id := m.id
        type := if m.isLeaf then .leaf else .nonLeaf
        stat := { minKey := m.stat.minKey, maxKey := m.stat.maxKey,
                  count := m.stat.count, nodeSize := m.stat.nodeSize } } }

/-- `BptNode::Deserialize`. -/
def deserialize (env : Env) (t : Bptree) (a : Addr) (input : Bytes) :
    Exec Bptree :=
  let n := t.node a
  if n.isLeaf then do
    let n ← n.deserializeLeaf env.pb input
    return t.setNode a n
  else
    match env.pb.node.parseFromString input with
    | none => .error .assertion
    | some proto => .ok (t.addRefs a proto.children)

/-- `Metadata::LoadTreeNode`: `Deserialize` returns `C_OK` whenever it
    returns. -/
def loadTreeNode (env : Env) (t : Bptree) (kv : KvStorage) (nodeId : Nat)
    (a : Addr) : Exec (Status × Bptree × KvStorage) :=
  match kv.getKV (t.nodeKey nodeId) with
  | (.ok, value, kv) => do
      let t ← t.deserialize env a value
      return (.ok, t, kv)
  | (status, _, kv) => .ok (status, t, kv)

/-- `Metadata::DumpTreeNode`. -/
def dumpTreeNode (env : Env) (t : Bptree) (kv : KvStorage) (nodeId : Nat)
    (a : Addr) : Status × KvStorage :=
  match kv.putKV (t.nodeKey nodeId) (t.serialize env a) with
  | (.ok, kv) => (.ok, kv)
  | (_, kv) => (.bptreeNodeDumpError, kv)

/-- `BptNode::LoadNodeFromKVStorage`. -/
def loadNodeFromKVStorage (env : Env) (t : Bptree) (kv : KvStorage)
    (a : Addr) : Exec (Status × Bptree × KvStorage) :=
  t.loadTreeNode env kv (t.node a).id a

/-- The loop of `PullUnsavedTreeNode`. -/
def dumpNodes (env : Env) (t : Bptree) :
    List (Nat × Addr) → KvStorage → Status × KvStorage
  | [], kv => (.ok, kv)
  | e :: es, kv =>
      match t.dumpTreeNode env kv e.1 e.2 with
      | (.ok, kv) => t.dumpNodes env es kv
      | (status, kv) => (status, kv)

/-- `TreeCtx::PullUnsavedTreeNode`.  A hash map is walked in no particular
    order; here it is the order of collection. -/
def pullUnsavedTreeNode (env : Env) (t : Bptree) (kv : KvStorage) :
    Bptree × KvStorage :=
  match t.dumpNodes env t.treeCtx.unsavedNodes kv with
  | (.ok, kv) =>
      ({ t with treeCtx := { t.treeCtx with unsavedNodes := [] } }, kv)
  | (_, kv) => (t, kv)

/-! ## Splitting a node -/

/-- The loop of `Split` over the entries of a leaf: left node, right node. -/
def moveRight : List (Bytes × Bytes) → BptNode → BptNode →
    Exec (BptNode × BptNode)
  | [], left, right => .ok (left, right)
  | e :: es, left, right => do
      let right := { right with stat := { right.stat with
        nodeSize := u64 (right.stat.nodeSize + (e.1.length + e.2.length)) } }
      let (_, right) ← right.insert e.1 e.2
      moveRight es { left with
        writeKvs := left.writeKvs.erase e.1
        kvs := left.kvs.erase e.1 } right

/-- The loop of `Split` over the children of an inner node. -/
def moveChildren (t : Bptree) (right : Addr) : List Addr → Bptree
  | [] => t
  | c :: cs =>
      let t := t.setNode c { t.node c with parent := some right }
      let st := (t.node c).stat
      let n := t.node right
      (t.setNode right { n with
        children := n.children ++ [c]
        stat := { n.stat with
          count := u64 (n.stat.count + st.count)
          nodeSize := u64 (n.stat.nodeSize
            + (st.minKey.length + st.maxKey.length + 20)) } }).moveChildren
        right cs

/-- `split_idx + 1`.  It is computed from the size of `kvs_` whatever the node
    is; on an inner node, where that size is 0, the subtraction in `split_idx`
    wraps around and this addition wraps back. -/
def splitAt (n : BptNode) : Nat := (n.kvs.size + 1) / 2

/-- The leaf branch of `Split`: left node and right node. -/
def splitLeaf (left right : BptNode) : Exec (BptNode × BptNode) := do
  let (left, right) ←
    moveRight (left.kvs.entries.drop (splitAt left)) left right
  match left.kvs.entries.head?, left.kvs.entries.getLast?,
      right.kvs.entries.head?, right.kvs.entries.getLast? with
  | some lmin, some lmax, some rmin, some rmax =>
      return ({ left with stat := {
          count := left.kvs.size
          minKey := lmin.1
          maxKey := lmax.1
          nodeSize := sub64 left.stat.nodeSize right.stat.nodeSize } },
        { right with stat := { right.stat with
          minKey := rmin.1
          maxKey := rmax.1 } })
  | _, _, _, _ => .error .undefined

/-- `BptNode::Split`. -/
def split (t : Bptree) (a : Addr) : Exec (Addr × Bptree) := do
  let n := t.node a
  let (r, t) := t.newNode n.parent n.isLeaf
  if n.isLeaf then
    let (left, right) ← splitLeaf n (t.node r)
    return (r, (t.setNode a left).setNode r right)
  else
    let t := t.moveChildren r (n.children.drop (splitAt n))
    let left := { t.node a with children := n.children.take (splitAt n) }
    let right := t.node r
    match left.children.head?, left.children.getLast?,
        right.children.head?, right.children.getLast? with
    | some lmin, some lmax, some rmin, some rmax =>
        let left := { left with stat := {
          count := sub64 left.stat.count right.stat.count
          nodeSize := sub64 left.stat.nodeSize right.stat.nodeSize
          minKey := (t.node lmin).stat.minKey
          maxKey := (t.node lmax).stat.maxKey } }
        let right := { right with stat := { right.stat with
          minKey := (t.node rmin).stat.minKey
          maxKey := (t.node rmax).stat.maxKey } }
        return (r, (t.setNode a left).setNode r right)
    | _, _, _, _ => .error .undefined

/-! ## `Bptree` -/

/-- How a search from the root ends: with the path to a leaf, leaf first, or
    with a status to return. -/
inductive Descent where
  | leaf (path : List Addr)
  | ret (status : Status)
  deriving DecidableEq

/-- The top-down loop of `Insert`. -/
def descendInsert (env : Env) (key : Bytes) :
    Nat → Bptree → KvStorage → Addr → List Addr →
    Exec (Descent × Bptree × KvStorage)
  | fuel, t, kv, cursor, path =>
      let n := t.node cursor
      if n.isLeaf then .ok (.leaf path, t, kv)
      else match fuel with
        | 0 => .error .fuel
        | fuel + 1 =>
            match n.children.getLast? with
            | none =>
                let (child, t) := t.newMutableLeafChild cursor
                descendInsert env key fuel t kv child (child :: path)
            | some back => do
                let child :=
                  (n.children[t.maxKeyLowerBound cursor key]?).getD back
                let (status, t, kv) ← t.loadNodeFromKVStorage env kv child
                if status = .ok ∨ status = .storageKvNotFound then
                  descendInsert env key fuel t kv child (child :: path)
                else return (.ret status, t, kv)

/-- The bottom-up loop of `Insert`. -/
def insertUnwind (env : Env) (key value : Bytes) :
    List Addr → Bptree → Exec Bptree
  | [], t => .ok t
  | cursor :: path, t => do
      let t ← if (t.node cursor).isLeaf then
          .ok (t.setNode cursor ((t.node cursor).updateStatByAddKV key value))
        else t.updateStatByRangeChange cursor true
      if (t.node cursor).needSplit env.bptreeMaxNodeSize then
        let (newNode, t) ← t.split cursor
        let t := t.collectUnsavedTreeNode newNode
        let t := t.collectUnsavedTreeNode cursor
        if (t.node cursor).isRoot then
          let (root, t) := t.newRoot cursor newNode
          let t := { t with root }
          insertUnwind env key value path (t.collectUnsavedTreeNode root)
        else
          match (t.node cursor).parent with
          | none => .error .undefined
          | some parent =>
              insertUnwind env key value path (t.addChild parent newNode)
      else
        insertUnwind env key value path (t.collectUnsavedTreeNode cursor)

/-- `Bptree::Insert`. -/
def insert (env : Env) (t : Bptree) (kv : KvStorage) (key value : Bytes) :
    Exec (Status × Bptree × KvStorage) := do
  let (d, t, kv) ← descendInsert env key t.arena.next t kv t.root [t.root]
  match d with
  | .ret status => return (status, t, kv)
  | .leaf [] => .error .undefined
  | .leaf (top :: path) =>
      let (status, n) ← (t.node top).insert key value
      let t := t.setNode top n
      if status = .ok then
        let t ← insertUnwind env key value (top :: path) t
        return (.ok, t, kv)
      else return (status, t, kv)

/-- The top-down loop of `Delete` and of `GetItem`, which differ in what they
    return when no child holds the key. -/
def descendFind (env : Env) (key : Bytes) (missing : Status) :
    Nat → Bptree → KvStorage → Addr → List Addr →
    Exec (Descent × Bptree × KvStorage)
  | fuel, t, kv, cursor, path =>
      if (t.node cursor).isLeaf then .ok (.leaf path, t, kv)
      else match fuel with
        | 0 => .error .fuel
        | fuel + 1 =>
            match t.findChild cursor key with
            | none => .ok (.ret missing, t, kv)
            | some child => do
                let (status, t, kv) ← t.loadNodeFromKVStorage env kv child
                if status = .ok then
                  descendFind env key missing fuel t kv child (child :: path)
                else return (.ret status, t, kv)

/-- The bottom-up loop of `Delete`. -/
def deleteUnwind (key : Bytes) : List Addr → Bptree → Exec Bptree
  | [], t => .ok t
  | cursor :: path, t =>
      let n := t.node cursor
      if !n.isRoot && n.isEmpty then
        let t := t.removeUnsavedTreeNode cursor
        match n.parent with
        | none => .error .undefined
        | some parent => deleteUnwind key path (t.delChild parent cursor)
      else do
        let t ← if n.isLeaf then do
            let n ← n.updateStatByDelKV key
            pure (t.setNode cursor n)
          else if n.isRoot && n.isEmpty then
            pure (t.setNode cursor n.resetStat)
          else t.updateStatByRangeChange cursor false
        deleteUnwind key path (t.collectUnsavedTreeNode cursor)

/-- `Bptree::Delete`. -/
def delete (env : Env) (t : Bptree) (kv : KvStorage) (key : Bytes) :
    Exec (Status × Bptree × KvStorage) := do
  let (d, t, kv) ← descendFind env key .ok t.arena.next t kv t.root [t.root]
  match d with
  | .ret status => return (status, t, kv)
  | .leaf [] => .error .undefined
  | .leaf (top :: path) =>
      let (status, n) ← (t.node top).delete key
      let t := t.setNode top n
      if status = .ok then
        let t ← deleteUnwind key (top :: path) t
        return (.ok, t, kv)
      else return (.ok, t, kv)

/-- `Bptree::GetItem`: what it assigns to `*output`, if anything. -/
def getItem (env : Env) (t : Bptree) (kv : KvStorage) (key : Bytes) :
    Exec (Status × Option Bytes × Bptree × KvStorage) := do
  let (d, t, kv) ← descendFind env key .storageKvNotFound t.arena.next t kv
    t.root [t.root]
  match d with
  | .ret status => return (status, none, t, kv)
  | .leaf [] => .error .undefined
  | .leaf (top :: _) =>
      let (status, output) := (t.node top).getItem key
      return (status, output, t, kv)

end Bptree

end AmDb.Storage
