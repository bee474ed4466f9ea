import AmDb.Storage.LeafSplit
import AmDb.Storage.TwoLevel

/-! # Writing to a tree of two levels

    The bottom-up loops of `Insert` and `Delete` from a leaf to the root.  Each
    rewrites a few leaves and the root and collects what it rewrote:
    `Installed` says which, `insertUnwind_cases` and `deleteUnwind_cases` say
    when. -/

namespace AmDb.Storage

open Codec BinarySearch OrderedMap

namespace Bptree

/-- Some nodes replaced. -/
def overlay (f : Addr → BptNode) : List (Addr × BptNode) → Addr → BptNode
  | [] => f
  | w :: ws => Function.update (overlay f ws) w.1 w.2

@[simp] theorem overlay_nil (f : Addr → BptNode) : overlay f [] = f := rfl

@[simp] theorem overlay_cons_self (f : Addr → BptNode)
    (w : Addr × BptNode) (ws : List (Addr × BptNode)) :
    overlay f (w :: ws) w.1 = w.2 := Function.update_self ..

theorem overlay_cons_ne (f : Addr → BptNode) {w : Addr × BptNode}
    (ws : List (Addr × BptNode)) {x : Addr} (h : x ≠ w.1) :
    overlay f (w :: ws) x = overlay f ws x := Function.update_of_ne h ..

/-- Of two writes to different nodes the second is seen at its own. -/
theorem overlay_pair_snd (f : Addr → BptNode) {a b : Addr} {m n : BptNode}
    (h : b ≠ a) : overlay f [(a, m), (b, n)] b = n := by
  rw [overlay_cons_ne f _ h, overlay_cons_self f (b, n)]

/-- Of two writes nothing is seen elsewhere. -/
theorem overlay_pair_ne (f : Addr → BptNode) {a b x : Addr} {m n : BptNode}
    (ha : x ≠ a) (hb : x ≠ b) : overlay f [(a, m), (b, n)] x = f x := by
  rw [overlay_cons_ne f _ ha, overlay_cons_ne f _ hb, overlay_nil]

/-- Members of a list with one more put in at a place. -/
theorem mem_take_cons_drop {α : Type} {l : List α} {a x : α} {i : Nat} :
    x ∈ l.take i ++ a :: l.drop i ↔ x = a ∨ x ∈ l := by
  conv_rhs => rw [← List.take_append_drop i l]
  simp only [List.mem_append, List.mem_cons]
  tauto

/-- Put an entry under its id. -/
def collectEntry (u : List (Nat × Addr)) (e : Nat × Addr) :
    List (Nat × Addr) :=
  u.filter (·.1 ≠ e.1) ++ [e]

/-- Collecting a node drops the older entry under its id. -/
theorem mem_collectEntry {u : List (Nat × Addr)} {e x : Nat × Addr} :
    x ∈ collectEntry u e ↔ x = e ∨ (x ∈ u ∧ x.1 ≠ e.1) := by
  rw [collectEntry, List.mem_append, List.mem_singleton, List.mem_filter,
    decide_eq_true_iff]
  exact or_comm

@[simp] theorem unsaved_collect (t : Bptree) (a : Addr) :
    (t.collectUnsavedTreeNode a).treeCtx.unsavedNodes
      = collectEntry t.treeCtx.unsavedNodes ((t.node a).id, a) := rfl

@[simp] theorem setNode_setNode (t : Bptree) (a : Addr) (m n : BptNode) :
    (t.setNode a m).setNode a n = t.setNode a n := by
  simp [setNode, Function.update_idem]

/-- `t'` is `t` with some leaves and the root rewritten, `made` nodes and ids
    newly taken, and the unsaved nodes `unsaved`. -/
structure Installed (t t' : Bptree) (writes : List (Addr × BptNode))
    (made : Nat) (unsaved : List (Nat × Addr)) (rootNode : BptNode) :
    Prop where
  root     : t'.root = t.root
  schema   : t'.treeCtx.schema = t.treeCtx.schema
  id       : t'.treeCtx.id = t.treeCtx.id + made
  next     : t'.arena.next = t.arena.next + made
  rootNode : t'.node t.root = rootNode
  nodes    : ∀ x, x ≠ t.root → t'.node x = overlay t.node writes x
  unsaved  : t'.treeCtx.unsavedNodes = unsaved

/-! ## The root -/

/-- The least key of the first child. -/
def frontMin (f : Addr → BptNode) (ls : List Addr) : Bytes :=
  (ls.head?.map (fun c => (f c).stat.minKey)).getD []

/-- The greatest key of the last child. -/
def backMax (f : Addr → BptNode) (ls : List Addr) : Bytes :=
  (ls.getLast?.map (fun c => (f c).stat.maxKey)).getD []

/-- The root's ends are those of its first and its last leaf. -/
theorem updateStatByRangeChange_eq {t : Bptree} {a : Addr} {ls : List Addr}
    (h : (t.node a).children = ls) (hne : ls ≠ []) (isAdd : Bool) :
    t.updateStatByRangeChange a isAdd
      = .ok (t.setNode a ((t.node a).updateStatByRangeChange
          (frontMin t.node ls) (backMax t.node ls) isAdd)) := by
  rw [updateStatByRangeChange, h, frontMin, backMax,
    List.head?_eq_some_head hne, List.getLast?_eq_some_getLast hne]
  rfl

/-- Splitting an inner node is undefined: every child moves to the right. -/
theorem split_inner {t : Bptree} {a : Addr} (h : (t.node a).isLeaf = false)
    (hkvs : (t.node a).kvs.entries = []) :
    t.split a = .error .undefined := by
  have hat : splitAt (t.node a) = 0 := by
    simp [splitAt, OrderedMap.size, hkvs]
  rw [split]
  simp only [h, Bool.false_eq_true, if_false, hat, List.take_zero,
    List.head?_nil]

/-- The step of `Insert` at the root. -/
theorem insertUnwind_root {env : Env} {t : Bptree} {ls : List Addr}
    {key value : Bytes} (h : Linked t ls) (hne : ls ≠ []) :
    let rootNode := (t.node t.root).updateStatByRangeChange
      (frontMin t.node ls) (backMax t.node ls) true
    insertUnwind env key value [t.root] t
      = if rootNode.needSplit env.bptreeMaxNodeSize then .error .undefined
        else .ok ((t.setNode t.root rootNode).collectUnsavedTreeNode t.root) := by
  intro rootNode
  rw [insertUnwind]
  simp only [h.root_inner, Bool.false_eq_true, if_false,
    updateStatByRangeChange_eq h.children hne, Exec.bind_ok, node_setNode_self]
  split_ifs with hs
  · rw [split_inner]
    · rfl
    · rw [node_setNode_self]; exact h.root_inner
    · rw [node_setNode_self]; exact h.root_kvs
  · rfl

/-- The least key only depends on the leaves. -/
theorem frontMin_congr {f g : Addr → BptNode} {ls : List Addr}
    (h : ∀ x ∈ ls, f x = g x) : frontMin f ls = frontMin g ls := by
  cases ls with
  | nil => rfl
  | cons x ls => simp [frontMin, h x List.mem_cons_self]

/-- The greatest key only depends on the leaves. -/
theorem backMax_congr {f g : Addr → BptNode} {ls : List Addr}
    (h : ∀ x ∈ ls, f x = g x) : backMax f ls = backMax g ls := by
  cases hl : ls.getLast? with
  | none => simp [backMax, hl]
  | some x => simp [backMax, hl, h x (List.mem_of_getLast? hl)]

namespace Installed

variable {t t' : Bptree} {ls : List Addr} {writes : List (Addr × BptNode)}
  {made : Nat} {unsaved : List (Nat × Addr)} {rootNode : BptNode}

/-- The shape afterwards. -/
theorem linked (hi : Installed t t' writes made unsaved rootNode)
    (h : Linked t ls) {ls' : List Addr} {stat : NodeStatistics}
    (hroot : rootNode = { t.node t.root with children := ls', stat })
    (hlt : ∀ x ∈ ls', x < t.arena.next + made)
    (hleaf : ∀ x ∈ ls', LeafOf t.root (overlay t.node writes x))
    (hnd : (t.root :: ls').Nodup) : Linked t' ls' := by
  have hr : t'.node t'.root = { t.node t.root with children := ls', stat } := by
    rw [hi.root, hi.rootNode, hroot]
  refine ⟨?_, ?_, ?_, ?_, ?_, ?_, ?_, ?_⟩
  · rw [hr]; exact h.root_inner
  · rw [hr]; exact h.root_root
  · rw [hr]; exact h.root_kvs
  · rw [hr]
  · rw [hi.root, hi.next]
    exact Nat.lt_of_lt_of_le h.root_lt (Nat.le_add_right _ _)
  · intro x hx
    rw [hi.next]; exact hlt x hx
  · rw [hi.root]; exact hnd
  · intro x hx
    have hne : x ≠ t.root := by
      rintro rfl
      exact (List.nodup_cons.mp hnd).1 hx
    rw [hi.root, hi.nodes x hne]
    exact hleaf x hx

/-- Rewriting the root once more, and collecting it. -/
theorem setRoot (hi : Installed t t' writes made unsaved rootNode)
    (n : BptNode) :
    Installed t ((t'.setNode t'.root n).collectUnsavedTreeNode t'.root) writes
      made (collectEntry unsaved (n.id, t.root)) n where
  root := hi.root
  schema := hi.schema
  id := hi.id
  next := hi.next
  rootNode := by rw [node_collect, hi.root, node_setNode_self]
  nodes x hx := by
    rw [node_collect, node_setNode_ne _ _ (by rw [hi.root]; exact hx)]
    exact hi.nodes x hx
  unsaved := by
    rw [unsaved_collect, treeCtx_setNode, hi.unsaved, node_setNode_self,
      hi.root]

end Installed

/-! ## The leaf -/

section Leaf

variable {env : Env} {t : Bptree} {ls : List Addr} {key value : Bytes}

/-- A statistic changes no leaf. -/
theorem leafOf_updateStatByAddKV {root : Addr} {n : BptNode}
    (key value : Bytes) (h : LeafOf root n) : LeafOf root (n.updateStatByAddKV key value) := by
  obtain ⟨stat, heq, -⟩ := BptNode.updateStatByAddKV_eq n key value
  rw [heq]
  exact ⟨h.isLeaf, h.isRoot, h.parent, h.children⟩

/-- The step of `Insert` at a leaf that does not split. -/
theorem insertUnwind_leaf {a : Addr} {n : BptNode} {path : List Addr}
    (hleaf : n.isLeaf = true)
    (hns : (n.updateStatByAddKV key value).needSplit env.bptreeMaxNodeSize
      = false) :
    insertUnwind env key value (a :: path) (t.setNode a n)
      = insertUnwind env key value path
          ((t.setNode a (n.updateStatByAddKV key value))
            |>.collectUnsavedTreeNode a) := by
  rw [insertUnwind]
  simp only [node_setNode_self, hleaf, if_true, setNode_setNode, Exec.bind_ok,
    hns, Bool.false_eq_true, if_false]

/-- The tree after a leaf was split, before the root takes the new node. -/
def splitTree (t : Bptree) (a : Addr) (l r : BptNode) : Bptree :=
  (((t.newNode (some t.root) true).2.setNode a l).setNode t.arena.next r)
    |>.collectUnsavedTreeNode t.arena.next |>.collectUnsavedTreeNode a

/-- A leaf that has to split holds three entries. -/
theorem size_of_needSplit {n : BptNode} {limit : Nat}
    (hleaf : n.isLeaf = true) (h : n.needSplit limit = true) :
    3 ≤ n.kvs.size := by
  rw [BptNode.needSplit, if_pos hleaf] at h
  split_ifs at h with hs
  omega

/-- `Split` on a leaf of three or more entries, wherever it is in the tree. -/
theorem split_of_isLeaf {t : Bptree} {a : Addr}
    (hleaf : (t.node a).isLeaf = true) (hsize : 3 ≤ (t.node a).kvs.size) :
    ∃ l r, Halves (t.node a) l r ∧ Tallied (t.node a) l r
      ∧ (∃ kvs writeKvs stat, r = { id := t.treeCtx.id + 1, isLeaf := true,
                                    parent := (t.node a).parent, kvs, writeKvs,
                                    stat })
      ∧ t.split a = .ok (t.arena.next,
          ((t.newNode (t.node a).parent true).2.setNode a l).setNode
            t.arena.next r) := by
  obtain ⟨l, r, hsplit, hhalf, htally, hr⟩ :=
    splitLeaf_eq hsize (t.treeCtx.id + 1) (t.node a).parent
  have hfresh : ((t.newNode (t.node a).parent true).2).node
      (t.newNode (t.node a).parent true).1
      = { id := t.treeCtx.id + 1, isLeaf := true,
          parent := (t.node a).parent } := Function.update_self ..
  refine ⟨l, r, hhalf, htally, hr, ?_⟩
  rw [split]
  simp only [hleaf, if_true]
  rw [hfresh, hsplit]
  rfl

/-- Splitting a leaf of the root that holds `n`. -/
theorem split_leaf {a : Addr} {n : BptNode} (hn : LeafOf t.root n)
    (hlt : a < t.arena.next) (hsize : 3 ≤ n.kvs.size) :
    ∃ l r, Halves n l r ∧ Tallied n l r
      ∧ LeafOf t.root l ∧ LeafOf t.root r ∧ r.id = t.treeCtx.id + 1
      ∧ (t.setNode a n).split a = .ok (t.arena.next,
          ((t.newNode (some t.root) true).2.setNode a l).setNode
            t.arena.next r) := by
  have hnode := node_setNode_self t a n
  obtain ⟨l, r, hhalf, htally, ⟨kvs, writeKvs, stat, hr⟩, hsplit⟩ :=
    @split_of_isLeaf (t.setNode a n) a (by rw [hnode]; exact hn.isLeaf)
      (by rw [hnode]; exact hsize)
  rw [hnode] at hhalf htally hr hsplit
  rw [hn.parent] at hr hsplit
  have hne : a ≠ t.arena.next := Nat.ne_of_lt hlt
  refine ⟨l, r, hhalf, htally, ⟨hhalf.left_leaf.trans hn.isLeaf,
    hhalf.left_root.trans hn.isRoot, hhalf.left_parent.trans hn.parent,
    hhalf.left_child.trans hn.children⟩, ?_, by rw [hr]; rfl, ?_⟩
  · rw [hr]; exact ⟨rfl, rfl, rfl, rfl⟩
  · -- the new node lies elsewhere, so the two writes to the leaf meet
    have hcomm : ((t.setNode a n).newNode (some t.root) true).2.setNode a l
        = (t.newNode (some t.root) true).2.setNode a l := by
      simp only [newNode, allocateNodeID, createObject, setNode]
      rw [Function.update_comm hne, Function.update_idem,
        Function.update_comm hne.symm]
    rw [hsplit, hcomm]
    rfl

/-- A split writes the two halves. -/
theorem node_splitTree {a : Addr} (hlt : a < t.arena.next) (l r : BptNode) :
    (splitTree t a l r).node = overlay t.node [(t.arena.next, r), (a, l)] := by
  have hne : t.arena.next ≠ a := Nat.ne_of_gt hlt
  show Function.update (Function.update (Function.update t.arena.node
    t.arena.next _) a l) t.arena.next r = _
  rw [Function.update_comm hne, Function.update_idem]
  rfl

/-- The step of `Insert` at a leaf that splits. -/
theorem insertUnwind_leaf_split {a : Addr} {n : BptNode}
    (hn : LeafOf t.root n) (hlt : a < t.arena.next)
    (hs : (n.updateStatByAddKV key value).needSplit env.bptreeMaxNodeSize
      = true) :
    ∃ l r, Halves (n.updateStatByAddKV key value) l r
      ∧ Tallied (n.updateStatByAddKV key value) l r
      ∧ LeafOf t.root l ∧ LeafOf t.root r ∧ r.id = t.treeCtx.id + 1
      ∧ ∀ path, insertUnwind env key value (a :: path) (t.setNode a n)
        = insertUnwind env key value path
            ((splitTree t a l r).addChild t.root t.arena.next) := by
  have hn₁ := leafOf_updateStatByAddKV key value hn
  obtain ⟨l, r, hhalf, htally, hl, hr, hid, hsplit⟩ :=
    split_leaf hn₁ hlt (size_of_needSplit hn₁.isLeaf hs)
  have hnode : (splitTree t a l r).node a = l := by
    rw [node_splitTree hlt, overlay_pair_snd t.node (Nat.ne_of_lt hlt)]
  refine ⟨l, r, hhalf, htally, hl, hr, hid, fun path => ?_⟩
  rw [insertUnwind]
  simp only [node_setNode_self, hn.isLeaf, if_true, setNode_setNode,
    Exec.bind_ok, hs, hsplit]
  rw [splitTree] at hnode
  rw [hnode, hl.isRoot, hl.parent]
  rfl

/-- What the bottom-up loop of `Insert` writes, from a leaf `a` that holds
    `n`: the leaf, or its two halves. -/
inductive InsertWrites (env : Env) (t : Bptree) (ls : List Addr) (a : Addr)
    (n : BptNode) : List (Addr × BptNode) → Nat → List Addr → Prop where
  | stay : n.needSplit env.bptreeMaxNodeSize = false →
      InsertWrites env t ls a n [(a, n)] 0 ls
  | halves (l r : BptNode) (i : Nat) :
      n.needSplit env.bptreeMaxNodeSize = true → Halves n l r →
      LeafOf t.root l → LeafOf t.root r → r.id = t.treeCtx.id + 1 →
      i = partitionPoint (fun c => !isCmpGt (dataCmp
        (overlay t.node [(t.arena.next, r), (a, l)] c).stat.maxKey
        r.stat.maxKey)) ls →
      InsertWrites env t ls a n [(t.arena.next, r), (a, l)] 1
        (ls.take i ++ t.arena.next :: ls.drop i)

/-- The unsaved nodes after some ids were dropped and some nodes collected. -/
def recollected (t : Bptree) (gone : List Nat)
    (collected : List (Nat × Addr)) : List (Nat × Addr) :=
  collected.foldl collectEntry (t.treeCtx.unsavedNodes.filter (·.1 ∉ gone))

theorem recollected_nil (t : Bptree) (collected : List (Nat × Addr)) :
    t.recollected [] collected
      = collected.foldl collectEntry t.treeCtx.unsavedNodes := by
  rw [recollected, List.filter_eq_self.mpr (by simp)]

/-- The unsaved nodes after some writes. -/
def collectWrites (t : Bptree) (writes : List (Addr × BptNode)) :
    List (Nat × Addr) :=
  writes.foldl (fun u w => collectEntry u (w.2.id, w.1)) t.treeCtx.unsavedNodes

theorem collectWrites_eq (t : Bptree) (writes : List (Addr × BptNode)) :
    t.collectWrites writes
      = t.recollected [] (writes.map fun w => (w.2.id, w.1)) := by
  rw [recollected_nil, List.foldl_map, collectWrites]

/-- What an insert writes are leaves again. -/
theorem InsertWrites.shape (h : Linked t ls) {a : Addr} (ha : a ∈ ls)
    {n : BptNode} (hn : LeafOf t.root n) {writes : List (Addr × BptNode)}
    {made : Nat} {ls' : List Addr}
    (hw : InsertWrites env t ls a n writes made ls') :
    ls' ≠ [] ∧ (t.root :: ls').Nodup
      ∧ (∀ x ∈ ls', x < t.arena.next + made)
      ∧ ∀ x ∈ ls', LeafOf t.root (overlay t.node writes x) := by
  cases hw with
  | stay =>
      refine ⟨List.ne_nil_of_mem ha, h.nodup, h.leaf_lt, ?_⟩
      intro x hx
      by_cases hxa : x = a
      · rw [hxa, overlay_cons_self t.node (a, n)]; exact hn
      · rw [overlay_cons_ne t.node _ hxa]; exact h.leaf x hx
  | halves l r i _ _ hl hr _ _ =>
      -- the right half is a new node
      have hfresh : t.arena.next ∉ t.root :: ls := by
        intro hmem
        rcases List.mem_cons.mp hmem with hroot | hmem
        · exact absurd h.root_lt (hroot ▸ lt_irrefl _)
        · exact absurd (h.leaf_lt _ hmem) (lt_irrefl _)
      refine ⟨by simp, ?_, ?_, ?_⟩
      · have hperm : (t.root :: (ls.take i ++ t.arena.next :: ls.drop i)).Perm
            (t.arena.next :: t.root :: ls) := by
          refine (List.Perm.cons _ List.perm_middle).trans ?_
          rw [List.take_append_drop]
          exact List.Perm.swap ..
        exact hperm.nodup_iff.mpr (List.nodup_cons.mpr ⟨hfresh, h.nodup⟩)
      · intro x hx
        rcases mem_take_cons_drop.mp hx with rfl | hx
        · exact Nat.lt_succ_self _
        · exact Nat.lt_succ_of_lt (h.leaf_lt x hx)
      · intro x hx
        by_cases hxn : x = t.arena.next
        · rw [hxn, overlay_cons_self t.node (t.arena.next, r)]; exact hr
        · have hxls := (mem_take_cons_drop.mp hx).resolve_left hxn
          by_cases hxa : x = a
          · rw [hxa, overlay_pair_snd t.node (hxa ▸ hxn)]; exact hl
          · rw [overlay_pair_ne t.node hxn hxa]; exact h.leaf x hxls

/-- The root after the bottom-up loop, given its children. -/
def rootAfter (t : Bptree) (writes : List (Addr × BptNode)) (ls' : List Addr)
    (isAdd : Bool) : BptNode :=
  { t.node t.root with children := ls' }.updateStatByRangeChange
    (frontMin (overlay t.node writes) ls')
    (backMax (overlay t.node writes) ls') isAdd

/-- An insert changes the children and the statistic of the root. -/
theorem rootAfter_eq (t : Bptree) (writes : List (Addr × BptNode))
    (ls' : List Addr) (isAdd : Bool) :
    ∃ stat, t.rootAfter writes ls' isAdd
        = { t.node t.root with children := ls', stat }
      ∧ stat.minKey = frontMin (overlay t.node writes) ls'
      ∧ stat.maxKey = backMax (overlay t.node writes) ls'
      ∧ ((t.node t.root).stat.nodeSize = u64 ((t.node t.root).stat.minKey.length
          + (t.node t.root).stat.maxKey.length) →
        stat.nodeSize = u64 (stat.minKey.length + stat.maxKey.length)) := by
  obtain ⟨stat, heq, hmin, hmax, hsize⟩ := BptNode.updateStatByRangeChange_eq
    { t.node t.root with children := ls' } (frontMin (overlay t.node writes) ls')
    (backMax (overlay t.node writes) ls') isAdd
  exact ⟨stat, heq, hmin, hmax, fun h => by rw [hmin, hmax]; exact hsize h⟩

/-- The ends of the new leaves. -/
theorem Installed.frontMin_eq {t' : Bptree} {writes : List (Addr × BptNode)}
    {made : Nat} {unsaved : List (Nat × Addr)} {rootNode : BptNode}
    (hi : Installed t t' writes made unsaved rootNode)
    (hls : t.root ∉ ls) :
    frontMin t'.node ls = frontMin (overlay t.node writes) ls
      ∧ backMax t'.node ls = backMax (overlay t.node writes) ls := by
  have h : ∀ x ∈ ls, t'.node x = overlay t.node writes x := fun x hx =>
    hi.nodes x (by rintro rfl; exact hls hx)
  exact ⟨frontMin_congr h, backMax_congr h⟩

/-- The root takes the right half of a leaf. -/
theorem installed_splitTree (h : Linked t ls) {a : Addr} (ha : a ∈ ls)
    (l r : BptNode) :
    let writes := [(t.arena.next, r), (a, l)]
    let i := partitionPoint (fun c => !isCmpGt (dataCmp
      (overlay t.node writes c).stat.maxKey r.stat.maxKey)) ls
    Installed t ((splitTree t a l r).addChild t.root t.arena.next) writes 1
      (t.collectWrites writes)
      { t.node t.root with
        children := ls.take i ++ t.arena.next :: ls.drop i } := by
  intro writes i
  have hlt := h.leaf_lt a ha
  have hnode : (splitTree t a l r).node = overlay t.node writes :=
    node_splitTree hlt l r
  have hroot : (splitTree t a l r).node t.root = t.node t.root := by
    rw [hnode, overlay_pair_ne t.node (Nat.ne_of_lt h.root_lt)
      (h.ne_root ha).symm]
  have hnext : (splitTree t a l r).node t.arena.next = r := by
    rw [hnode, overlay_cons_self t.node (t.arena.next, r)]
  have hi : (splitTree t a l r).maxKeyUpperBound t.root r.stat.maxKey = i := by
    rw [maxKeyUpperBound, hroot, hnode, h.children]
  refine ⟨rfl, rfl, rfl, rfl, ?_, ?_, ?_⟩
  · rw [addChild, hnext, hi, hroot, h.children]
    exact node_setNode_self ..
  · intro x hx
    rw [addChild, node_setNode_ne _ _ hx, hnode]
  · show collectEntry (collectEntry t.treeCtx.unsavedNodes
      (Bptree.node _ t.arena.next |>.id, t.arena.next))
      (Bptree.node _ a |>.id, a) = _
    rw [node_collect, node_setNode_self,
      node_setNode_ne _ _ (Nat.ne_of_lt hlt), node_setNode_self]
    rfl

/-- The bottom-up loop of `Insert` from a leaf that holds `n`: the leaf or its
    halves are written, then the root; a root that has to split is the only
    way to fail. -/
theorem insertUnwind_cases (h : Linked t ls) {a : Addr} (ha : a ∈ ls)
    {n : BptNode} (hn : LeafOf t.root n) :
    ∃ writes made ls', InsertWrites env t ls a
        (n.updateStatByAddKV key value) writes made ls'
      ∧ (((t.rootAfter writes ls' true).needSplit env.bptreeMaxNodeSize = true
          ∧ insertUnwind env key value [a, t.root] (t.setNode a n)
            = .error .undefined)
        ∨ (t.rootAfter writes ls' true).needSplit env.bptreeMaxNodeSize = false
          ∧ ∃ t', insertUnwind env key value [a, t.root] (t.setNode a n)
              = .ok t'
            ∧ Linked t' ls'
            ∧ Installed t t' writes made
              (collectEntry (t.collectWrites writes)
                ((t.node t.root).id, t.root))
              (t.rootAfter writes ls' true)) := by
  have hn₁ := leafOf_updateStatByAddKV key value hn
  -- the tree the root step starts from
  obtain ⟨writes, made, ls', T, hw, hrec, hT⟩ :
      ∃ writes made ls' T, InsertWrites env t ls a
          (n.updateStatByAddKV key value) writes made ls'
        ∧ insertUnwind env key value [a, t.root] (t.setNode a n)
          = insertUnwind env key value [t.root] T
        ∧ Installed t T writes made (t.collectWrites writes)
          { t.node t.root with children := ls' } := by
    cases hs : (n.updateStatByAddKV key value).needSplit
        env.bptreeMaxNodeSize with
    | false =>
        refine ⟨_, _, _, _, .stay hs, insertUnwind_leaf hn.isLeaf hs, ?_⟩
        refine ⟨rfl, rfl, rfl, rfl, ?_, ?_, ?_⟩
        · rw [node_collect, node_setNode_ne _ _ (h.ne_root ha).symm,
            ← h.children]
        · intro x hx
          rfl
        · rw [unsaved_collect, node_setNode_self]
          rfl
    | true =>
        obtain ⟨l, r, hhalf, -, hl, hr, hid, heq⟩ :=
          insertUnwind_leaf_split hn (h.leaf_lt a ha) hs
        refine ⟨_, _, _, _, .halves l r _ hs hhalf hl hr hid rfl, heq _, ?_⟩
        exact installed_splitTree h ha l r
  have hshape := hw.shape h ha hn₁
  obtain ⟨hne, hnd, hlt, hleaf⟩ := hshape
  have hTl : Linked T ls' := hT.linked h rfl hlt hleaf hnd
  have hfb := hT.frontMin_eq (List.nodup_cons.mp hnd).1
  have hstep := @insertUnwind_root env T ls' key value hTl hne
  rw [hfb.1, hfb.2, hT.root, hT.rootNode] at hstep
  have hroot : insertUnwind env key value [t.root] T
      = if (t.rootAfter writes ls' true).needSplit env.bptreeMaxNodeSize
        then .error .undefined
        else .ok ((T.setNode t.root (t.rootAfter writes ls' true))
          |>.collectUnsavedTreeNode t.root) := hstep
  obtain ⟨stat, heq, -⟩ := rootAfter_eq t writes ls' true
  refine ⟨writes, made, ls', hw, ?_⟩
  rw [hrec, hroot]
  cases hs : (t.rootAfter writes ls' true).needSplit env.bptreeMaxNodeSize with
  | true => exact Or.inl ⟨rfl, rfl⟩
  | false =>
      have hfin := hT.setRoot (t.rootAfter writes ls' true)
      rw [hT.root, show (t.rootAfter writes ls' true).id = (t.node t.root).id
        by rw [heq]] at hfin
      exact Or.inr ⟨rfl, _, rfl, hfin.linked h heq hlt hleaf hnd, hfin⟩

/-- What the bottom-up loop of `Delete` writes, drops and collects, from a leaf
    `a` that holds `n`: the leaf stays, or it leaves the tree when it became
    empty and `FindChild` finds it. -/
inductive DeleteWrites (key : Bytes) (t : Bptree) (ls : List Addr) (a : Addr)
    (n : BptNode) :
    BptNode → List Nat → List (Nat × Addr) → List Addr → Prop where
  | shrunk (n' : BptNode) : n.kvs.entries ≠ [] →
      n.updateStatByDelKV key = .ok n' →
      DeleteWrites key t ls a n n' [] [(n'.id, a)] ls
  | emptied (ls' : List Addr) : n.kvs.entries = [] →
      ls' = (if ls[partitionPoint (fun c => isCmpLt (dataCmp
          (overlay t.node [(a, n)] c).stat.maxKey n.stat.maxKey)) ls]?
        = some a then ls.erase a else ls) →
      DeleteWrites key t ls a n n [n.id] [] ls'

/-- The root after the bottom-up loop of `Delete`. -/
def rootAfterDelete (t : Bptree) (writes : List (Addr × BptNode))
    (ls' : List Addr) : BptNode :=
  if ls' = [] then { t.node t.root with children := [] }.resetStat
  else t.rootAfter writes ls' false

/-- A delete changes the children and the statistic of the root. -/
theorem rootAfterDelete_eq (t : Bptree) (writes : List (Addr × BptNode))
    (ls' : List Addr) :
    ∃ stat, t.rootAfterDelete writes ls'
        = { t.node t.root with children := ls', stat }
      ∧ ((t.node t.root).stat.nodeSize = u64 ((t.node t.root).stat.minKey.length
          + (t.node t.root).stat.maxKey.length) →
        stat.nodeSize = u64 (stat.minKey.length + stat.maxKey.length)) := by
  rw [rootAfterDelete]
  split_ifs with h
  · exact ⟨_, by rw [h]; rfl, fun _ => rfl⟩
  · obtain ⟨stat, heq, -, -, hsize⟩ := rootAfter_eq t writes ls' false
    exact ⟨stat, heq, hsize⟩

/-- The step of `Delete` at the root. -/
theorem deleteUnwind_root (h : Linked t ls) :
    deleteUnwind key [t.root] t
      = .ok ((t.setNode t.root (if ls = [] then (t.node t.root).resetStat
          else (t.node t.root).updateStatByRangeChange (frontMin t.node ls)
            (backMax t.node ls) false)).collectUnsavedTreeNode t.root) := by
  have hempty : (t.node t.root).isEmpty = decide (ls = []) := by
    rw [BptNode.isEmpty, h.children, h.root_kvs]
    cases ls <;> rfl
  rw [deleteUnwind]
  simp only [h.root_root, h.root_inner, hempty, Bool.not_true, Bool.false_and,
    Bool.true_and, Bool.false_eq_true, if_false, decide_eq_true_eq]
  split_ifs with hne
  · rfl
  · rw [updateStatByRangeChange_eq h.children hne]
    rfl

/-- A delete makes no leaf. -/
theorem mem_of_deleteWrites {a : Addr} {n n' : BptNode} {gone : List Nat}
    {collected : List (Nat × Addr)} {ls' : List Addr}
    (hw : DeleteWrites key t ls a n n' gone collected ls') :
    ls'.Sublist ls := by
  cases hw with
  | shrunk _ _ => exact List.Sublist.refl _
  | emptied _ _ h =>
      rw [h]
      split_ifs
      · exact List.erase_sublist
      · exact List.Sublist.refl _

/-- What it writes is a leaf with the same entries. -/
theorem leafOf_deleteWrites {root a : Addr} {n n' : BptNode}
    {gone : List Nat} {collected : List (Nat × Addr)} {ls' : List Addr}
    (hn : LeafOf root n) (hw : DeleteWrites key t ls a n n' gone collected ls') :
    LeafOf root n' ∧ n'.id = n.id ∧ n'.kvs = n.kvs
      ∧ n'.writeKvs = n.writeKvs := by
  cases hw with
  | shrunk _ hne heq =>
      obtain ⟨stat, hstat, -⟩ := BptNode.updateStatByDelKV_eq hne
      rw [hstat] at heq
      rw [← Except.ok.inj heq]
      exact ⟨⟨hn.isLeaf, hn.isRoot, hn.parent, hn.children⟩, rfl, rfl, rfl⟩
  | emptied _ _ => exact ⟨hn, rfl, rfl, rfl⟩

/-- The step of `Delete` at a leaf that became empty. -/
theorem deleteUnwind_emptied {a : Addr} {n : BptNode} {path : List Addr}
    (hn : LeafOf t.root n) (hne : n.kvs.entries = []) :
    deleteUnwind key (a :: path) (t.setNode a n)
      = deleteUnwind key path
          (((t.setNode a n).removeUnsavedTreeNode a).delChild t.root a) := by
  have hempty : n.isEmpty = true := by
    rw [BptNode.isEmpty, hn.children, hne]
    rfl
  rw [deleteUnwind]
  simp only [node_setNode_self, hn.isRoot, hempty, Bool.not_false,
    Bool.and_self, if_true, hn.parent]

/-- The step of `Delete` at a leaf that keeps entries. -/
theorem deleteUnwind_shrunk {a : Addr} {n n' : BptNode} {path : List Addr}
    (hn : LeafOf t.root n) (hne : n.kvs.entries ≠ [])
    (hstat : n.updateStatByDelKV key = .ok n') :
    deleteUnwind key (a :: path) (t.setNode a n)
      = deleteUnwind key path
          ((t.setNode a n').collectUnsavedTreeNode a) := by
  have hempty : n.isEmpty = false := by
    rw [BptNode.isEmpty, Bool.and_eq_false_iff]
    exact Or.inr (by simpa using hne)
  rw [deleteUnwind]
  simp only [node_setNode_self, hempty, Bool.and_false, Bool.false_eq_true,
    if_false, hn.isLeaf, if_true, hstat, Exec.bind_ok, Exec.pure_eq,
    setNode_setNode]

/-- The root drops a leaf, if it finds it. -/
theorem installed_delChild (h : Linked t ls) {a : Addr} (ha : a ∈ ls)
    (n : BptNode) :
    Installed t (((t.setNode a n).removeUnsavedTreeNode a).delChild t.root a)
      [(a, n)] 0 (t.treeCtx.unsavedNodes.filter (·.1 ≠ n.id))
      { t.node t.root with
        children := if ls[partitionPoint (fun c => isCmpLt (dataCmp
          (overlay t.node [(a, n)] c).stat.maxKey n.stat.maxKey)) ls]?
        = some a then ls.erase a else ls } := by
  have hroot : ((t.setNode a n).removeUnsavedTreeNode a).node t.root
      = t.node t.root := node_setNode_ne _ _ (h.ne_root ha).symm
  have hnode : ((t.setNode a n).removeUnsavedTreeNode a).node a = n :=
    node_setNode_self ..
  have hunsaved : ((t.setNode a n).removeUnsavedTreeNode a).treeCtx.unsavedNodes
      = t.treeCtx.unsavedNodes.filter (·.1 ≠ n.id) := by
    show t.treeCtx.unsavedNodes.filter (·.1 ≠ ((t.setNode a n).node a).id) = _
    rw [node_setNode_self]
  have hfind : ((t.setNode a n).removeUnsavedTreeNode a).maxKeyLowerBound
      t.root n.stat.maxKey
      = partitionPoint (fun c => isCmpLt (dataCmp
          (overlay t.node [(a, n)] c).stat.maxKey n.stat.maxKey)) ls := by
    rw [maxKeyLowerBound, hroot, h.children]
    rfl
  rw [delChild, findChildNode, hnode, hfind, hroot, h.children]
  split_ifs with hi
  · -- the child is found: its index is where it stands
    obtain ⟨hlt, hget⟩ := List.getElem?_eq_some_iff.mp hi
    have herase := h.nodup_leaves.erase_getElem _ hlt
    rw [hget] at herase
    refine ⟨rfl, rfl, rfl, rfl, ?_, ?_, ?_⟩
    · rw [node_setNode_self, herase, h.children]
    · intro x hx
      rw [node_setNode_ne _ _ hx]
      rfl
    · exact hunsaved
  · refine ⟨rfl, rfl, rfl, rfl, ?_, fun x _ => rfl, hunsaved⟩
    rw [hroot, ← h.children]

/-- The round of the bottom-up loop of `Delete` at a leaf that holds `n`. -/
theorem deleteUnwind_leaf_cases (h : Linked t ls) {a : Addr} (ha : a ∈ ls)
    {n : BptNode} (hn : LeafOf t.root n) (key : Bytes) :
    ∃ n' gone collected ls' T, DeleteWrites key t ls a n n' gone collected ls'
      ∧ (∀ path, deleteUnwind key (a :: path) (t.setNode a n)
        = deleteUnwind key path T)
      ∧ Linked T ls'
      ∧ Installed t T [(a, n')] 0 (t.recollected gone collected)
        { t.node t.root with children := ls' } := by
  obtain ⟨n', gone, collected, ls', T, hw, hrec, hT⟩ :
      ∃ n' gone collected ls' T,
        DeleteWrites key t ls a n n' gone collected ls'
        ∧ (∀ path, deleteUnwind key (a :: path) (t.setNode a n)
          = deleteUnwind key path T)
        ∧ Installed t T [(a, n')] 0 (t.recollected gone collected)
          { t.node t.root with children := ls' } := by
    -- an empty leaf is taken off its parent, any other is collected
    by_cases hne : n.kvs.entries = []
    · refine ⟨n, _, _, _, _, .emptied _ hne rfl,
        fun path => deleteUnwind_emptied hn hne, ?_⟩
      have hu : t.recollected [n.id] []
          = t.treeCtx.unsavedNodes.filter (·.1 ≠ n.id) := by
        simp [recollected]
      rw [hu]
      exact installed_delChild h ha n
    · obtain ⟨stat, hstat, -⟩ := BptNode.updateStatByDelKV_eq hne
      refine ⟨_, _, _, _, _, .shrunk _ hne hstat,
        fun path => deleteUnwind_shrunk hn hne hstat, rfl, rfl, rfl, rfl, ?_,
        ?_, ?_⟩
      · rw [node_collect, node_setNode_ne _ _ (h.ne_root ha).symm,
          ← h.children]
      · intro x hx
        rfl
      · rw [unsaved_collect, node_setNode_self, recollected_nil]
        rfl
  -- in both cases what is left is linked
  obtain ⟨hn', -⟩ := leafOf_deleteWrites hn hw
  have hsub := mem_of_deleteWrites hw
  have hnd : (t.root :: ls').Nodup := h.nodup.sublist (hsub.cons_cons _)
  have hlt : ∀ x ∈ ls', x < t.arena.next + 0 := fun x hx =>
    h.leaf_lt x (hsub.subset hx)
  have hleaf : ∀ x ∈ ls', LeafOf t.root (overlay t.node [(a, n')] x) := by
    intro x hx
    by_cases hxa : x = a
    · rw [hxa, overlay_cons_self t.node (a, n')]; exact hn'
    · rw [overlay_cons_ne t.node _ hxa]
      exact h.leaf x (hsub.subset hx)
  exact ⟨n', gone, collected, ls', T, hw, hrec,
    hT.linked h rfl hlt hleaf hnd, hT⟩

/-- The bottom-up loop of `Delete` from a leaf that holds `n`. -/
theorem deleteUnwind_cases (h : Linked t ls) {a : Addr} (ha : a ∈ ls)
    {n : BptNode} (hn : LeafOf t.root n) :
    ∃ n' gone collected ls' t', DeleteWrites key t ls a n n' gone collected ls'
      ∧ deleteUnwind key [a, t.root] (t.setNode a n) = .ok t'
      ∧ Linked t' ls'
      ∧ Installed t t' [(a, n')] 0
          (collectEntry (t.recollected gone collected)
            ((t.node t.root).id, t.root))
          (t.rootAfterDelete [(a, n')] ls') := by
  -- the tree the root step starts from
  obtain ⟨n', gone, collected, ls', T, hw, hrec, hTl, hT⟩ :=
    deleteUnwind_leaf_cases h ha hn key
  have hnd : (t.root :: ls').Nodup := by
    rw [← hT.root]
    exact hTl.nodup
  have hfb := hT.frontMin_eq (List.nodup_cons.mp hnd).1
  have hstep := @deleteUnwind_root T ls' key hTl
  rw [hfb.1, hfb.2, hT.root, hT.rootNode] at hstep
  have hroot : deleteUnwind key [t.root] T
      = .ok ((T.setNode t.root (t.rootAfterDelete [(a, n')] ls'))
          |>.collectUnsavedTreeNode t.root) := by
    rw [hstep, rootAfterDelete]
    split_ifs with hnil
    · rw [hnil]
    · rfl
  obtain ⟨stat, heq, -⟩ := rootAfterDelete_eq t [(a, n')] ls'
  have hfin := hT.setRoot (t.rootAfterDelete [(a, n')] ls')
  rw [hT.root, show (t.rootAfterDelete [(a, n')] ls').id = (t.node t.root).id
    by rw [heq]] at hfin
  refine ⟨n', gone, collected, ls', _, hw, by rw [hrec, hroot], ?_, hfin⟩
  have hlt : ∀ x ∈ ls', x < t.arena.next + 0 := by
    intro x hx
    rw [← hT.next]
    exact hTl.leaf_lt x hx
  refine hfin.linked h heq hlt (fun x hx => ?_) hnd
  rw [← hT.nodes x (by rintro rfl; exact (List.nodup_cons.mp hnd).1 hx),
    ← hT.root]
  exact hTl.leaf x hx

end Leaf

end Bptree

end AmDb.Storage
