import AmDb.Storage.TwoLevelWrite

/-! # Operations on a tree of two levels

    `Bptree::Insert`, `Delete` and `GetItem` on a root over leaves, each as the
    choice of a leaf, the merge of its stored copy, the leaf's own operation
    and the bottom-up loop. -/

namespace AmDb.Storage

open Codec OrderedMap

namespace Bptree

section Operations

variable {env : Env} {t : Bptree} {kv : KvStorage} {ls : List Addr}
  {key value : Bytes} {a : Addr}

/-- What reading a leaf again adds to it. -/
def reread (env : Env) (t : Bptree) (kv : KvStorage) (a : Addr) :
    Exec (List (Bytes × Bytes)) :=
  match t.stored kv a with
  | none => .ok []
  | some bytes => BptNode.storedEntries env.pb bytes

theorem reread_none (hs : t.stored kv a = none) :
    t.reread env kv a = .ok [] := by
  rw [reread, hs]

theorem reread_some {bytes : Bytes} (hs : t.stored kv a = some bytes) :
    t.reread env kv a = BptNode.storedEntries env.pb bytes := by
  rw [reread, hs]

/-- A leaf after it was read again. -/
def merged (t : Bptree) (a : Addr) (es : List (Bytes × Bytes)) : BptNode :=
  { t.node a with kvs := BptNode.merge (t.node a).kvs es }

theorem leafOf_merged (h : Linked t ls) (ha : a ∈ ls)
    (es : List (Bytes × Bytes)) : LeafOf t.root (t.merged a es) :=
  ⟨(h.leaf a ha).isLeaf, (h.leaf a ha).isRoot, (h.leaf a ha).parent,
    (h.leaf a ha).children⟩

/-- A leaf with a new entry. -/
def added (n : BptNode) (key value : Bytes) : BptNode :=
  { n with
    writeKvs := n.writeKvs.emplace key value
    kvs := n.kvs.emplace key value }

theorem size_added {n : BptNode} {key : Bytes} (value : Bytes)
    (hk : key ∉ n.kvs) : (added n key value).kvs.size = n.kvs.size + 1 :=
  size_emplace value hk

/-- The new entry is not the only one. -/
theorem size_added_ne_one {n : BptNode} {key : Bytes} (value : Bytes)
    (hk : key ∉ n.kvs) (hne : n.kvs.entries ≠ []) :
    (added n key value).kvs.size ≠ 1 := by
  have hpos : 0 < n.kvs.size := List.length_pos_of_ne_nil hne
  rw [size_added value hk]
  omega

/-- A leaf without an entry. -/
def removed (n : BptNode) (key : Bytes) : BptNode :=
  { n with
    kvs := n.kvs.erase key
    writeKvs := n.writeKvs.erase key }

/-- `Insert` into a tree with leaves. -/
theorem insert_eq (h : Linked t ls) (hkv : kv.Reliable)
    (ha : t.insertTarget key = some a) :
    insert env t kv key value = (do
      let es ← t.reread env kv a
      if key ∈ (t.merged a es).kvs then
        return (.bptreeDuplicateKey, t.setNode a (t.merged a es), kv)
      else if key ∈ (t.merged a es).writeKvs then
        return (.bptreeError, t.setNode a (t.merged a es), kv)
      else
        let t' ← insertUnwind env key value [a, t.root]
          (t.setNode a (added (t.merged a es) key value))
        return (.ok, t', kv)) := by
  have hleaf := (h.leaf a (insertTarget_mem h ha)).isLeaf
  -- once the entries are there, the rest is the leaf's own `Insert`
  have hat : ∀ (es : List (Bytes × Bytes)) (status : Status),
      status = .ok ∨ status = .storageKvNotFound →
      t.loadNodeFromKVStorage env kv a = .ok (status, t.mergeLeaf a es, kv) →
      insert env t kv key value
        = (if key ∈ (t.merged a es).kvs then
            .ok (.bptreeDuplicateKey, t.setNode a (t.merged a es), kv)
          else if key ∈ (t.merged a es).writeKvs then
            .ok (.bptreeError, t.setNode a (t.merged a es), kv)
          else do
            let t' ← insertUnwind env key value [a, t.root]
              (t.setNode a (added (t.merged a es) key value))
            return (.ok, t', kv)) := by
    intro es status hs hload
    rw [insert, descendInsert_eq h ha, hload]
    simp only [Exec.bind_ok, if_pos hs, Exec.pure_eq]
    have hnode : (t.mergeLeaf a es).node a = t.merged a es :=
      node_setNode_self ..
    have hmleaf : (t.merged a es).isLeaf = true := hleaf
    rw [hnode, BptNode.insert, if_pos hmleaf, mergeLeaf]
    split_ifs with h₁ h₂
    · simp only [Exec.bind_ok, setNode_setNode, reduceCtorEq, if_false]
    · simp only [Exec.bind_ok, setNode_setNode, reduceCtorEq, if_false]
    · simp only [Exec.bind_ok, setNode_setNode, if_true]
      rfl
  cases hs : t.stored kv a with
  | none =>
      have hmerge : t.mergeLeaf a [] = t := setNode_node t a
      rw [hat [] .storageKvNotFound (Or.inr rfl)
        (by rw [hmerge]; exact load_of_none hkv hs), reread_none hs]
      rfl
  | some bytes =>
      rw [reread_some hs]
      cases hes : BptNode.storedEntries env.pb bytes with
      | error e =>
          rw [insert, descendInsert_eq h ha, load_of_some hkv hleaf hs, hes]
          rfl
      | ok es =>
          rw [hat es .ok (Or.inl rfl)
            (by rw [load_of_some hkv hleaf hs, hes]; rfl)]
          rfl

/-- `Delete` of a key that a child covers. -/
theorem delete_eq (h : Linked t ls) (hkv : kv.Reliable)
    (ha : t.findChild t.root key = some a) :
    delete env t kv key = (do
      if t.stored kv a = none then return (.storageKvNotFound, t, kv)
      else
        let es ← t.reread env kv a
        if key ∈ (t.merged a es).kvs then
          let t' ← deleteUnwind key [a, t.root]
            (t.setNode a (removed (t.merged a es) key))
          return (.ok, t', kv)
        else return (.ok, t.setNode a (t.merged a es), kv)) := by
  have hleaf := (h.leaf a (findChild_mem h ha)).isLeaf
  rw [delete, descendFind_eq h ha]
  cases hs : t.stored kv a with
  | none =>
      rw [load_of_none hkv hs]
      rfl
  | some bytes =>
      rw [load_of_some hkv hleaf hs, reread_some hs]
      simp only [reduceCtorEq, if_false]
      cases BptNode.storedEntries env.pb bytes with
      | error e => rfl
      | ok es =>
          have hnode : (t.mergeLeaf a es).node a = t.merged a es :=
            node_setNode_self ..
          have hmleaf : (t.merged a es).isLeaf = true := hleaf
          simp only [Exec.bind_ok, Exec.pure_eq, if_true]
          rw [hnode, BptNode.delete, if_pos hmleaf, mergeLeaf]
          split_ifs with h₁
          · simp only [Exec.bind_ok, setNode_setNode, if_true]
            rfl
          · simp only [Exec.bind_ok, setNode_setNode, reduceCtorEq, if_false]

/-- `Delete` of a key no child covers. -/
theorem delete_none (h : Linked t ls)
    (hf : t.findChild t.root key = none) :
    delete env t kv key = .ok (.ok, t, kv) := by
  rw [delete, descendFind_none h hf]
  rfl

/-- `GetItem` of a key that a child covers. -/
theorem getItem_eq (h : Linked t ls) (hkv : kv.Reliable)
    (ha : t.findChild t.root key = some a) :
    getItem env t kv key = (do
      if t.stored kv a = none then return (.storageKvNotFound, none, t, kv)
      else
        let es ← t.reread env kv a
        return (((t.merged a es).getItem key).1, ((t.merged a es).getItem key).2,
          t.setNode a (t.merged a es), kv)) := by
  have hleaf := (h.leaf a (findChild_mem h ha)).isLeaf
  rw [getItem, descendFind_eq h ha]
  cases hs : t.stored kv a with
  | none =>
      rw [load_of_none hkv hs]
      rfl
  | some bytes =>
      rw [load_of_some hkv hleaf hs, reread_some hs]
      simp only [reduceCtorEq, if_false]
      cases BptNode.storedEntries env.pb bytes with
      | error e => rfl
      | ok es =>
          have hnode : (t.mergeLeaf a es).node a = t.merged a es :=
            node_setNode_self ..
          simp only [Exec.bind_ok, Exec.pure_eq, if_true, hnode]
          rfl

/-- `GetItem` of a key no child covers. -/
theorem getItem_none (h : Linked t ls)
    (hf : t.findChild t.root key = none) :
    getItem env t kv key = .ok (.storageKvNotFound, none, t, kv) := by
  rw [getItem, descendFind_none h hf]
  rfl

/-! ## The first leaf -/

/-- The leaf `NewMutableLeafChild` makes below the root. -/
def firstLeaf (t : Bptree) : BptNode :=
  { id := t.treeCtx.id + 1, isLeaf := true, parent := some t.root }

/-- The tree with its first, still empty, leaf. -/
theorem installed_newMutableLeafChild (h : Linked t []) :
    Installed t (t.newMutableLeafChild t.root).2
      [(t.arena.next, t.firstLeaf)] 1 t.treeCtx.unsavedNodes
      { t.node t.root with children := [t.arena.next] } := by
  have hne : t.root ≠ t.arena.next := Nat.ne_of_lt h.root_lt
  have hroot : (t.newNode (some t.root) true).2.node t.root
      = t.node t.root := Function.update_of_ne hne ..
  refine ⟨rfl, rfl, rfl, rfl, ?_, ?_, rfl⟩
  · show ((t.newNode (some t.root) true).2.setNode t.root
      { (t.newNode (some t.root) true).2.node t.root with
        children := ((t.newNode (some t.root) true).2.node t.root).children
          ++ [t.arena.next] }).node t.root = _
    rw [node_setNode_self, hroot, h.children]
    rfl
  · intro x hx
    exact node_setNode_ne _ _ hx

/-- The first leaf is the only one. -/
theorem linked_newMutableLeafChild (h : Linked t []) :
    Linked (t.newMutableLeafChild t.root).2 [t.arena.next] := by
  refine (installed_newMutableLeafChild h).linked h rfl ?_ ?_ ?_
  · intro x hx
    rw [List.mem_singleton.mp hx]
    exact Nat.lt_succ_self _
  · intro x hx
    rw [List.mem_singleton.mp hx, overlay_cons_self t.node (t.arena.next, _)]
    exact ⟨rfl, rfl, rfl, rfl⟩
  · simpa using Nat.ne_of_lt h.root_lt

/-- `Insert` into a tree without leaves. -/
theorem insert_nil (h : Linked t []) :
    insert env t kv key value = (do
      let t' ← insertUnwind env key value [t.arena.next, t.root]
        ((t.newMutableLeafChild t.root).2.setNode t.arena.next
          (added t.firstLeaf key value))
      return (.ok, t', kv)) := by
  have hnode : (t.newMutableLeafChild t.root).2.node t.arena.next
      = t.firstLeaf := by
    rw [(installed_newMutableLeafChild h).nodes _ (Nat.ne_of_gt h.root_lt)]
    exact Function.update_self ..
  rw [insert, descendInsert_nil h, Exec.bind_ok]
  have hmem : ∀ k : Bytes, ¬ k ∈ (OrderedMap.empty : OrderedMap Bytes Bytes) := by
    rintro k ⟨e, he, -⟩
    exact nomatch he
  have hins : ((t.newMutableLeafChild t.root).2.node t.arena.next).insert key
      value = .ok (.ok, added t.firstLeaf key value) := by
    have hleaf : t.firstLeaf.isLeaf = true := rfl
    have hkvs : key ∉ t.firstLeaf.kvs := hmem key
    have hwrite : key ∉ t.firstLeaf.writeKvs := hmem key
    rw [hnode, BptNode.insert, if_pos hleaf, if_neg hkvs, if_neg hwrite]
    rfl
  show (((t.newMutableLeafChild t.root).2.node t.arena.next).insert key value
    >>= _) = _
  rw [hins, Exec.bind_ok]
  rfl

end Operations

end Bptree

end AmDb.Storage
