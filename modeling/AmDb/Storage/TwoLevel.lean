import AmDb.Storage.Bptree
import Mathlib.Data.List.Nodup

/-! # Trees of two levels

    Splitting an inner node is undefined in the source (`split_idx` is computed
    from its empty `kvs_`), so a tree that has only run defined steps is a root
    over leaves.  `Linked` says so; under it every operation of `Bptree` is
    given here by an equation without loops over levels. -/

namespace AmDb.Storage

open Codec BinarySearch

namespace Bptree

/-! ## Reading through writes -/

@[simp] theorem node_setNode_self (t : Bptree) (a : Addr) (n : BptNode) :
    (t.setNode a n).node a = n := Function.update_self ..

theorem node_setNode_ne (t : Bptree) {a x : Addr} (n : BptNode) (h : x ≠ a) :
    (t.setNode a n).node x = t.node x := Function.update_of_ne h ..

@[simp] theorem root_setNode (t : Bptree) (a : Addr) (n : BptNode) :
    (t.setNode a n).root = t.root := rfl

@[simp] theorem treeCtx_setNode (t : Bptree) (a : Addr) (n : BptNode) :
    (t.setNode a n).treeCtx = t.treeCtx := rfl

@[simp] theorem next_setNode (t : Bptree) (a : Addr) (n : BptNode) :
    (t.setNode a n).arena.next = t.arena.next := rfl

@[simp] theorem node_collect (t : Bptree) (a x : Addr) :
    (t.collectUnsavedTreeNode a).node x = t.node x := rfl

@[simp] theorem root_collect (t : Bptree) (a : Addr) :
    (t.collectUnsavedTreeNode a).root = t.root := rfl

@[simp] theorem arena_collect (t : Bptree) (a : Addr) :
    (t.collectUnsavedTreeNode a).arena = t.arena := rfl

@[simp] theorem id_collect (t : Bptree) (a : Addr) :
    (t.collectUnsavedTreeNode a).treeCtx.id = t.treeCtx.id := rfl

@[simp] theorem schema_collect (t : Bptree) (a : Addr) :
    (t.collectUnsavedTreeNode a).treeCtx.schema = t.treeCtx.schema := rfl

@[simp] theorem node_remove (t : Bptree) (a x : Addr) :
    (t.removeUnsavedTreeNode a).node x = t.node x := rfl

@[simp] theorem root_remove (t : Bptree) (a : Addr) :
    (t.removeUnsavedTreeNode a).root = t.root := rfl

@[simp] theorem arena_remove (t : Bptree) (a : Addr) :
    (t.removeUnsavedTreeNode a).arena = t.arena := rfl

@[simp] theorem setNode_node (t : Bptree) (a : Addr) :
    t.setNode a (t.node a) = t := by
  obtain ⟨root, ⟨node, next⟩, treeCtx⟩ := t
  simp [setNode, Bptree.node]

/-! ## The shape -/

/-- A leaf below `root`. -/
structure LeafOf (root : Addr) (n : BptNode) : Prop where
  isLeaf   : n.isLeaf = true
  isRoot   : n.isRoot = false
  parent   : n.parent = some root
  children : n.children = []

/-- The tree is a root whose children are the leaves `ls`. -/
structure Linked (t : Bptree) (ls : List Addr) : Prop where
  root_inner : (t.node t.root).isLeaf = false
  root_root  : (t.node t.root).isRoot = true
  root_kvs   : (t.node t.root).kvs.entries = []
  children   : (t.node t.root).children = ls
  root_lt    : t.root < t.arena.next
  leaf_lt    : ∀ a ∈ ls, a < t.arena.next
  nodup      : (t.root :: ls).Nodup
  leaf       : ∀ a ∈ ls, LeafOf t.root (t.node a)

namespace Linked

variable {t : Bptree} {ls : List Addr}

theorem ne_root (h : Linked t ls) {a : Addr} (ha : a ∈ ls) : a ≠ t.root := by
  rintro rfl
  exact (List.nodup_cons.mp h.nodup).1 ha

theorem nodup_leaves (h : Linked t ls) : ls.Nodup :=
  (List.nodup_cons.mp h.nodup).2

theorem next_eq_succ (h : Linked t ls) : ∃ n, t.arena.next = n + 1 :=
  Nat.exists_eq_succ_of_ne_zero
    (Nat.ne_of_gt (Nat.lt_of_le_of_lt (Nat.zero_le _) h.root_lt))

/-- The first node of a tree over no children is linked. -/
theorem ofProto_empty (treeCtx : TreeCtx) (id : Nat) :
    Linked (ofProto treeCtx { id, children := [] }) [] where
  root_inner := rfl
  root_root := rfl
  root_kvs := rfl
  children := rfl
  root_lt := Nat.one_pos
  leaf_lt := fun _ h => absurd h List.not_mem_nil
  nodup := List.nodup_singleton _
  leaf := fun _ h => absurd h List.not_mem_nil

/-- Rewriting a leaf keeps the shape. -/
theorem setNode_leaf (h : Linked t ls) {a : Addr} (ha : a ∈ ls) {n : BptNode}
    (hn : LeafOf t.root n) : Linked (t.setNode a n) ls := by
  have hroot : (t.setNode a n).node t.root = t.node t.root :=
    node_setNode_ne t n (h.ne_root ha).symm
  refine ⟨?_, ?_, ?_, ?_, h.root_lt, h.leaf_lt, h.nodup, ?_⟩
  · rw [root_setNode, hroot]; exact h.root_inner
  · rw [root_setNode, hroot]; exact h.root_root
  · rw [root_setNode, hroot]; exact h.root_kvs
  · rw [root_setNode, hroot]; exact h.children
  · intro x hx
    by_cases hxa : x = a
    · rw [hxa, node_setNode_self]; exact hn
    · rw [node_setNode_ne t n hxa]; exact h.leaf x hx

end Linked

/-! ## Reading a leaf again -/

section Load

variable {env : Env} {t : Bptree} {kv : KvStorage} {ls : List Addr}

/-- The stored copy of a node. -/
def stored (t : Bptree) (kv : KvStorage) (a : Addr) : Option Bytes :=
  kv.data (t.nodeKey (t.node a).id)

/-- A leaf with the entries of its stored copy added. -/
def mergeLeaf (t : Bptree) (a : Addr) (es : List (Bytes × Bytes)) : Bptree :=
  t.setNode a { t.node a with kvs := BptNode.merge (t.node a).kvs es }

theorem load_of_none (hkv : kv.Reliable) {a : Addr}
    (hs : t.stored kv a = none) :
    t.loadNodeFromKVStorage env kv a = .ok (.storageKvNotFound, t, kv) := by
  rw [loadNodeFromKVStorage, loadTreeNode, KvStorage.getKV_of_none hkv hs]

/-- A leaf that is stored gets the entries of its copy. -/
theorem load_of_some (hkv : kv.Reliable) {a : Addr}
    (hleaf : (t.node a).isLeaf = true) {bytes : Bytes}
    (hs : t.stored kv a = some bytes) :
    t.loadNodeFromKVStorage env kv a
      = (do let es ← BptNode.storedEntries env.pb bytes
            return (.ok, t.mergeLeaf a es, kv)) := by
  have hd : t.deserialize env a bytes
      = (do let es ← BptNode.storedEntries env.pb bytes
            return t.mergeLeaf a es) := by
    rw [deserialize, if_pos hleaf, BptNode.deserializeLeaf_eq]
    cases BptNode.storedEntries env.pb bytes <;> rfl
  rw [loadNodeFromKVStorage, loadTreeNode, KvStorage.getKV_of_some hkv hs]
  simp only [hd]
  cases BptNode.storedEntries env.pb bytes <;> rfl

/-- A load, whatever the store does. -/
theorem load_eq (t : Bptree) (kv : KvStorage) (a : Addr) :
    t.loadNodeFromKVStorage env kv a
      = if kv.tick.1 then .ok (.storageError, t, kv.tick.2)
        else (t.loadNodeFromKVStorage env kv.healed a).map
          (fun r => (r.1, r.2.1, kv.tick.2)) := by
  rw [loadNodeFromKVStorage, loadNodeFromKVStorage, loadTreeNode, loadTreeNode]
  cases hf : kv.tick.1 with
  | true =>
      rw [KvStorage.getKV_of_failed hf]
      rfl
  | false =>
      simp only [KvStorage.getKV, hf, Bool.false_eq_true, if_false,
        KvStorage.tick_reliable (KvStorage.reliable_healed kv),
        KvStorage.healed_data, KvStorage.tick_data]
      cases hd : kv.data (t.nodeKey (t.node a).id) with
      | none => rfl
      | some input =>
          simp only
          cases t.deserialize env a input <;> rfl

theorem load_failed (h : kv.tick.1 = true) (t : Bptree) (a : Addr) :
    t.loadNodeFromKVStorage env kv a = .ok (.storageError, t, kv.tick.2) := by
  rw [load_eq, if_pos h]

/-- A read that is answered is one of a store that never fails. -/
theorem load_answered (h : kv.tick.1 = false) (t : Bptree) (a : Addr) :
    t.loadNodeFromKVStorage env kv a
      = (t.loadNodeFromKVStorage env kv.healed a).map
          (fun r => (r.1, r.2.1, kv.tick.2)) := by
  rw [load_eq, if_neg (by rw [h]; exact Bool.false_ne_true)]

/-- A load that returns leaves the store as it was and merges some entries into
    the leaf. -/
theorem load_inversion (hkv : kv.Reliable) {a : Addr}
    (hleaf : (t.node a).isLeaf = true) {r : Status × Bptree × KvStorage}
    (h : t.loadNodeFromKVStorage env kv a = .ok r) :
    (r = (.storageKvNotFound, t, kv) ∧ t.stored kv a = none)
      ∨ ∃ bytes es, t.stored kv a = some bytes
          ∧ BptNode.storedEntries env.pb bytes = .ok es
          ∧ r = (.ok, t.mergeLeaf a es, kv) := by
  cases hs : t.stored kv a with
  | none =>
      rw [load_of_none hkv hs] at h
      exact Or.inl ⟨(Except.ok.inj h).symm, rfl⟩
  | some bytes =>
      rw [load_of_some hkv hleaf hs, Exec.bind_eq_ok] at h
      obtain ⟨es, hes, hr⟩ := h
      exact Or.inr ⟨bytes, es, rfl, hes, (Except.ok.inj hr).symm⟩

end Load

/-! ## Searching -/

section Search

variable {env : Env} {t : Bptree} {kv : KvStorage} {ls : List Addr}
  {key : Bytes}

/-- Where `Insert` goes: the first child whose greatest key is not below the
    key, else the last child. -/
def insertTarget (t : Bptree) (key : Bytes) : Option Addr :=
  (t.node t.root).children.getLast?.map fun back =>
    ((t.node t.root).children[t.maxKeyLowerBound t.root key]?).getD back

/-- The leaf for a new key is one below the root. -/
theorem insertTarget_mem (h : Linked t ls) {a : Addr}
    (ha : t.insertTarget key = some a) : a ∈ ls := by
  rw [insertTarget, h.children] at ha
  obtain ⟨back, hback, rfl⟩ := Option.map_eq_some_iff.mp ha
  cases hi : ls[t.maxKeyLowerBound t.root key]? with
  | none => exact List.mem_of_getLast? hback
  | some c => exact List.mem_of_getElem? hi

/-- The leaf that has a key in its range is one below the root. -/
theorem findChild_mem (h : Linked t ls) {a : Addr}
    (ha : t.findChild t.root key = some a) : a ∈ ls := by
  rw [findChild, h.children] at ha
  split at ha
  · exact nomatch ha
  · next c hc =>
      split at ha
      · rw [← Option.some.inj ha]; exact List.mem_of_getElem? hc
      · exact nomatch ha

theorem descendInsert_leaf {a : Addr} (hleaf : (t.node a).isLeaf = true)
    (fuel : Nat) (path : List Addr) :
    descendInsert env key fuel t kv a path = .ok (.leaf path, t, kv) := by
  cases fuel <;> simp [descendInsert, hleaf]

theorem descendFind_leaf {missing : Status} {a : Addr}
    (hleaf : (t.node a).isLeaf = true) (fuel : Nat) (path : List Addr) :
    descendFind env key missing fuel t kv a path = .ok (.leaf path, t, kv) := by
  cases fuel <;> simp [descendFind, hleaf]

/-- A leaf is a leaf after it was loaded. -/
theorem isLeaf_of_load {a : Addr} (hleaf : (t.node a).isLeaf = true)
    {status : Status} {t' : Bptree} {kv' : KvStorage}
    (h : t.loadNodeFromKVStorage env kv a = .ok (status, t', kv')) :
    (t'.node a).isLeaf = true := by
  cases hf : kv.tick.1 with
  | true =>
      rw [load_failed hf] at h
      cases h
      exact hleaf
  | false =>
      rw [load_answered hf] at h
      cases hl : t.loadNodeFromKVStorage env kv.healed a with
      | error e => rw [hl] at h; exact nomatch h
      | ok r =>
          rw [hl] at h
          cases h
          rcases load_inversion (KvStorage.reliable_healed kv) hleaf hl with
            ⟨rfl, -⟩ | ⟨_, es, -, -, rfl⟩
          · exact hleaf
          · simp [mergeLeaf, hleaf]

/-- The search for the place of a key in a tree with leaves. -/
theorem descendInsert_eq (h : Linked t ls) {a : Addr}
    (ha : t.insertTarget key = some a) :
    descendInsert env key t.arena.next t kv t.root [t.root]
      = (do let (status, t', kv') ← t.loadNodeFromKVStorage env kv a
            if status = .ok ∨ status = .storageKvNotFound then
              return (.leaf [a, t.root], t', kv')
            else return (.ret status, t', kv')) := by
  have hmem := insertTarget_mem h ha
  obtain ⟨n, hn⟩ := h.next_eq_succ
  obtain ⟨back, hback, htarget⟩ := Option.map_eq_some_iff.mp ha
  rw [hn, descendInsert]
  simp only [h.root_inner, Bool.false_eq_true, if_false, hback, htarget]
  cases hl : t.loadNodeFromKVStorage env kv a with
  | error e => rfl
  | ok r =>
      obtain ⟨status, t', kv'⟩ := r
      simp only [Exec.bind_ok]
      split_ifs with hs
      · rw [descendInsert_leaf (isLeaf_of_load (h.leaf a hmem).isLeaf hl)]
        rfl
      · rfl

/-- The search in a tree without leaves makes one. -/
theorem descendInsert_nil (h : Linked t []) :
    descendInsert env key t.arena.next t kv t.root [t.root]
      = .ok (.leaf [(t.newMutableLeafChild t.root).1, t.root],
          (t.newMutableLeafChild t.root).2, kv) := by
  obtain ⟨n, hn⟩ := h.next_eq_succ
  rw [hn, descendInsert]
  simp only [h.root_inner, Bool.false_eq_true, if_false, h.children,
    List.getLast?_nil]
  have hleaf : ((t.newMutableLeafChild t.root).2.node
      (t.newMutableLeafChild t.root).1).isLeaf = true := by
    have hne : t.arena.next ≠ t.root := Nat.ne_of_gt h.root_lt
    show (((t.newNode (some t.root) true).2.setNode t.root _).node
      t.arena.next).isLeaf = true
    rw [node_setNode_ne _ _ hne]
    simp [newNode, createObject, allocateNodeID, Bptree.node]
  exact descendInsert_leaf hleaf n _

/-- The search for a key. -/
theorem descendFind_eq (h : Linked t ls) {missing : Status} {a : Addr}
    (ha : t.findChild t.root key = some a) :
    descendFind env key missing t.arena.next t kv t.root [t.root]
      = (do let (status, t', kv') ← t.loadNodeFromKVStorage env kv a
            if status = .ok then return (.leaf [a, t.root], t', kv')
            else return (.ret status, t', kv')) := by
  have hmem := findChild_mem h ha
  obtain ⟨n, hn⟩ := h.next_eq_succ
  rw [hn, descendFind]
  simp only [h.root_inner, Bool.false_eq_true, if_false, ha]
  cases hl : t.loadNodeFromKVStorage env kv a with
  | error e => rfl
  | ok r =>
      obtain ⟨status, t', kv'⟩ := r
      simp only [Exec.bind_ok]
      split_ifs with hs
      · rw [descendFind_leaf (isLeaf_of_load (h.leaf a hmem).isLeaf hl)]
        rfl
      · rfl

/-- The search for a key no child covers. -/
theorem descendFind_none (h : Linked t ls) {missing : Status}
    (hf : t.findChild t.root key = none) :
    descendFind env key missing t.arena.next t kv t.root [t.root]
      = .ok (.ret missing, t, kv) := by
  obtain ⟨n, hn⟩ := h.next_eq_succ
  rw [hn, descendFind]
  simp only [h.root_inner, Bool.false_eq_true, if_false, hf]

end Search

end Bptree

end AmDb.Storage
