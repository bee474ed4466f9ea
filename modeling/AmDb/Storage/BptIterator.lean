import AmDb.Plan.Range
import AmDb.Storage.Bptree

/-! # The iterator over a tree

    `sql/storage/bplus_tree_iterator.cc`.  An iterator into a leaf's map is the
    list of entries from it to the end.  `using_leaf_node_` is left out: nothing
    reads it.  The loops over the levels of the tree are bounded as those of
    `Bptree`. -/

namespace AmDb.Storage

open Plan

structure BptIterator where
  curNode        : Option Addr
  curKv          : List (Bytes × Bytes) := []
  nodeItReachEnd : Bool := false
  kvItReachEnd   : Bool := false

/-- An iterator with the tree and the store it walks. -/
structure Scan where
  tree : Bptree
  kv   : KvStorage
  it   : BptIterator

/-- `BptIterator::BptIterator`. -/
def Scan.new (t : Bptree) (kv : KvStorage) : Scan :=
  { tree := t, kv, it := { curNode := some t.root } }

namespace BptIterator

section Calls

variable (env : Env) (opts : IteratorOptions)

/-- The loop of `Open`: the status and the node it stops at. -/
def descendOpen : Nat → Bptree → KvStorage → Addr →
    Exec (Status × Bptree × KvStorage × Addr)
  | fuel, t, kv, curNode =>
      let n := t.node curNode
      if n.isLeaf then .ok (.ok, t, kv, curNode)
      else if n.children.isEmpty then
        .ok (.bptreeIteratorEnd, t, kv, curNode)
      else match fuel with
        | 0 => .error .fuel
        | fuel + 1 =>
            let i := if opts.lowerOpen then
                t.maxKeyUpperBound curNode opts.lower
              else t.maxKeyLowerBound curNode opts.lower
            match n.children[i]? with
            | none => .ok (.bptreeIteratorEnd, t, kv, curNode)
            | some child => do
                let (status, t, kv) ← t.loadNodeFromKVStorage env kv child
                if status = .ok then descendOpen fuel t kv child
                else return (status, t, kv, curNode)

/-- `BptIterator::Open`. -/
def openScan (s : Scan) : Exec (Status × Scan) :=
  match s.it.curNode with
  | none => .error .undefined
  | some root => do
      let (status, t, kv, curNode) ←
        descendOpen env opts s.tree.arena.next s.tree s.kv root
      if status = .ok then
        let kvs := (t.node curNode).kvs
        return (.ok, {
          tree := t
          kv
          it := {
            curNode := some curNode
            curKv := if opts.lowerOpen then kvs.upperBound opts.lower
              else kvs.lowerBound opts.lower } })
      else
        return (status,
          { tree := t, kv, it := { s.it with curNode := some curNode } })

/-- `BptIterator::reachRangeBound`: the branch is on `lower_open`. -/
def reachRangeBound (s : Scan) : Exec Bool :=
  match s.it.curNode, s.it.curKv with
  | none, _ => .error .undefined
  | some _, [] => .error .assertion
  | some _, e :: _ =>
      if opts.lowerOpen then .ok (isCmpGt (dataCmp e.1 opts.upper))
      else .ok (!isCmpLt (dataCmp e.1 opts.upper))

/-- `BptIterator::HashNext`. -/
def hashNext (s : Scan) : Exec Bool :=
  if s.it.kvItReachEnd then .ok (!s.it.nodeItReachEnd)
  else do
    let reach ← reachRangeBound opts s
    return !reach

/-- `nextKV`. -/
def nextKV (it : BptIterator) : BptIterator :=
  { it with
    curKv := it.curKv.tail
    kvItReachEnd := it.kvItReachEnd || it.curKv.tail.isEmpty }

/-- The lambda `f` of `nextLeafNode`. -/
def behindUpper (n : BptNode) : Bool :=
  if !opts.upperOpen then isCmpGt (dataCmp n.stat.minKey opts.upper)
  else isCmpGe (dataCmp n.stat.minKey opts.upper)

/-- The `do` loop of `nextLeafNode`: the status and the node it ends at, none
    when `node_it_reach_end_` is set.  Every step climbs from a node whose
    children run out, or goes down. -/
def nextLeafLoop : Nat → Bptree → KvStorage → Addr → Bool →
    Exec (Status × Bptree × KvStorage × Option Addr)
  | 0, _, _, _, _ => .error .fuel
  | fuel + 1, t, kv, curNode, childNodeRunsOut =>
      let n := t.node curNode
      if n.isRoot then .ok (.ok, t, kv, none)
      else if childNodeRunsOut then
        match n.parent with
        | none => .error .undefined
        | some parent =>
            match t.findChildNode parent curNode with
            | none => .error .assertion
            | some i =>
                match (t.node parent).children[i + 1]? with
                | none =>
                    if (t.node parent).isLeaf then
                      .ok (.ok, t, kv, some parent)
                    else nextLeafLoop fuel t kv parent true
                | some child =>
                    if behindUpper opts (t.node child) then
                      .ok (.ok, t, kv, none)
                    else do
                      let (status, t, kv) ←
                        t.loadNodeFromKVStorage env kv child
                      if status ≠ .ok then return (status, t, kv, some child)
                      else if (t.node child).isLeaf then
                        return (.ok, t, kv, some child)
                      else nextLeafLoop fuel t kv child false
      else
        match n.children.head? with
        | none => .ok (.ok, t, kv, none)
        | some child =>
            if behindUpper opts (t.node child) then .ok (.ok, t, kv, none)
            else do
              let (status, t, kv) ← t.loadNodeFromKVStorage env kv child
              if status ≠ .ok then return (status, t, kv, some child)
              else if (t.node child).isLeaf then
                return (.ok, t, kv, some child)
              else nextLeafLoop fuel t kv child false

/-- `BptIterator::nextLeafNode`. -/
def nextLeafNode (s : Scan) : Exec (Status × Scan) :=
  match s.it.curNode with
  | none => .error .undefined
  | some curNode => do
      let (status, t, kv, next) ←
        nextLeafLoop env opts (2 * s.tree.arena.next) s.tree s.kv curNode true
      return (status, {
        tree := t
        kv
        it := { s.it with
          curNode := next
          nodeItReachEnd := s.it.nodeItReachEnd || next.isNone } })

/-- `resetCurKV`. -/
def resetCurKV (s : Scan) : Exec Scan :=
  match s.it.curNode with
  | none => .error .undefined
  | some curNode => .ok { s with it := { s.it with
      curKv := (s.tree.node curNode).kvs.entries
      kvItReachEnd := false } }

/-- The loop of `Next`; each row takes at most two rounds. -/
def nextLoop : Nat → Nat → Scan → List (Bytes × Bytes) →
    Exec (Status × List (Bytes × Bytes) × Scan)
  | _, 0, s, dataSegment => .ok (.ok, dataSegment, s)
  | 0, _, _, _ => .error .fuel
  | fuel + 1, rowsRemain + 1, s, dataSegment =>
      if !s.it.kvItReachEnd then do
        let reach ← reachRangeBound opts s
        if reach then return (.ok, dataSegment, s)
        else match s.it.curKv with
          | [] => .error .undefined
          | e :: _ =>
              nextLoop fuel rowsRemain { s with it := s.it.nextKV }
                (dataSegment ++ [e])
      else if s.it.nodeItReachEnd then
        -- the message behind the last leaf evaluates `cur_node_->ID()`
        match s.it.curNode with
        | none => .error .undefined
        | some _ => .ok (.ok, dataSegment, s)
      else do
        let (status, s) ← nextLeafNode env opts s
        if status ≠ .ok then return (status, dataSegment, s)
        else if s.it.nodeItReachEnd then return (.ok, dataSegment, s)
        else do
          let s ← resetCurKV s
          nextLoop fuel (rowsRemain + 1) s dataSegment

/-- `BptIterator::Next` into an empty segment. -/
def next (s : Scan) (rowCount : Nat) :
    Exec (Status × List (Bytes × Bytes) × Scan) :=
  nextLoop env opts (2 * rowCount) rowCount s []

end Calls

end BptIterator

end AmDb.Storage
