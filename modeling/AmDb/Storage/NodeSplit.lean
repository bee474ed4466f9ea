import AmDb.Storage.TwoLevelWrite

/-! # What a split is for

    `BptNode::Split` is written for leaves and inner nodes alike: `SplitsInHalves`
    says what it should make of either.  It does so of leaves only. -/

namespace AmDb.Storage

open OrderedMap

namespace Bptree

/-- A list in two parts that differ by at most one, neither empty. -/
structure Cut {α : Type} (whole left right : List α) : Prop where
  whole    : left ++ right = whole
  left_ne  : left ≠ []
  right_ne : right ≠ []
  left_le  : left.length ≤ right.length + 1
  right_le : right.length ≤ left.length + 1

/-- The end keys of a node are those of its content. -/
def ExactEnds (t : Bptree) (a : Addr) : Prop :=
  if (t.node a).isLeaf then
    IsLeast (keys (t.node a).kvs.entries) (t.node a).stat.minKey
      ∧ IsGreatest (keys (t.node a).kvs.entries) (t.node a).stat.maxKey
  else
    IsLeast {k | ∃ c ∈ (t.node a).children, (t.node c).stat.minKey = k}
        (t.node a).stat.minKey
      ∧ IsGreatest {k | ∃ c ∈ (t.node a).children, (t.node c).stat.maxKey = k}
        (t.node a).stat.maxKey

/-- The content of `a` is in `a` and in the new node `r`. -/
def Parted (t : Bptree) (a : Addr) (t' : Bptree) (r : Addr) : Prop :=
  if (t.node a).isLeaf then
    Cut (t.node a).kvs.entries (t'.node a).kvs.entries (t'.node r).kvs.entries
  else
    Cut (t.node a).children (t'.node a).children (t'.node r).children
      ∧ ∀ c ∈ (t'.node r).children, (t'.node c).parent = some r

/-- `Split` returns, and leaves two halves with exact ends. -/
def SplitsInHalves (t : Bptree) (a : Addr) : Prop :=
  ∃ r t', t.split a = .ok (r, t') ∧ Parted t a t' r
    ∧ (t'.node a).isLeaf = (t.node a).isLeaf
    ∧ (t'.node r).isLeaf = (t.node a).isLeaf
    ∧ ExactEnds t' a ∧ ExactEnds t' r

/-- The nodes `NeedSplit` lets through, by the size of their content.  Only
    leaves have `kvs_`. -/
def Splittable (n : BptNode) : Prop :=
  if n.isLeaf then 3 ≤ n.kvs.size
  else n.kvs.entries = [] ∧ 3 ≤ n.children.length

instance (n : BptNode) : Decidable (Splittable n) := by
  unfold Splittable
  infer_instance

/-- `NeedSplit` lets only such nodes through. -/
theorem splittable_of_needSplit {n : BptNode} {limit : Nat}
    (hkvs : n.isLeaf = false → n.kvs.entries = [])
    (h : n.needSplit limit = true) : Splittable n := by
  rw [BptNode.needSplit] at h
  rw [Splittable]
  split_ifs at h ⊢ with hleaf hsize hsize
  · omega
  · exact ⟨hkvs (by simpa using hleaf), by omega⟩

/-- The entries of a map are cut where `Split` cuts them. -/
theorem cut_entries {kvs : OrderedMap Bytes Bytes} (h : 3 ≤ kvs.size) :
    Cut kvs.entries (kvs.take ((kvs.size + 1) / 2)).entries
      (kvs.drop ((kvs.size + 1) / 2)).entries := by
  have hsize : kvs.entries.length = kvs.size := rfl
  have hleft : (kvs.take ((kvs.size + 1) / 2)).entries.length
      = (kvs.size + 1) / 2 := by
    rw [entries_take, List.length_take]
    omega
  have hright : (kvs.drop ((kvs.size + 1) / 2)).entries.length
      = kvs.size - (kvs.size + 1) / 2 := by
    rw [entries_drop, List.length_drop, hsize]
  refine ⟨?_, ?_, ?_, ?_, ?_⟩
  · rw [entries_take, entries_drop, List.take_append_drop]
  · exact List.ne_nil_of_length_pos (by omega)
  · exact List.ne_nil_of_length_pos (by omega)
  · omega
  · omega

/-- `Split` cuts a node in halves just when it is a leaf: the children of an
    inner node all go to the right, and the left one has no ends. -/
theorem splitsInHalves_iff {t : Bptree} {a : Addr} (ha : a < t.arena.next)
    (hsize : Splittable (t.node a)) :
    SplitsInHalves t a ↔ (t.node a).isLeaf = true := by
  constructor
  · rintro ⟨r, t', hsplit, -⟩
    -- an inner node of that size makes `Split` read a map that is empty
    by_contra hinner
    have hinner : (t.node a).isLeaf = false := by simpa using hinner
    rw [Splittable, if_neg (by simp [hinner])] at hsize
    rw [split_inner hinner hsize.1] at hsplit
    cases hsplit
  · intro hleaf
    rw [Splittable, if_pos hleaf] at hsize
    -- a leaf is cut at half its entries
    obtain ⟨l, r, hhalf, -, ⟨kvs, writeKvs, stat, hr⟩, hsplit⟩ :=
      split_of_isLeaf hleaf hsize
    obtain ⟨t', ht'⟩ : ∃ t', t' = ((t.newNode (t.node a).parent true).2.setNode
        a l).setNode t.arena.next r := ⟨_, rfl⟩
    have hta : t'.node a = l := by
      rw [ht', node_setNode_ne _ _ (Nat.ne_of_lt ha), node_setNode_self]
    have htr : t'.node t.arena.next = r := by rw [ht', node_setNode_self]
    rw [← ht'] at hsplit
    rw [← hta, ← htr] at hhalf
    have hl : (t'.node a).isLeaf = true := hhalf.left_leaf.trans hleaf
    have hr : (t'.node t.arena.next).isLeaf = true := by rw [htr, hr]
    refine ⟨_, t', hsplit, ?_, hl.trans hleaf.symm, hr.trans hleaf.symm, ?_, ?_⟩
    · rw [Parted, if_pos hleaf, hhalf.left_kvs, hhalf.right_kvs]
      exact cut_entries hsize
    · rw [ExactEnds, if_pos hl]
      exact ⟨hhalf.left_min, hhalf.left_max⟩
    · rw [ExactEnds, if_pos hr]
      exact ⟨hhalf.right_min, hhalf.right_max⟩

/-- A leaf under the root. -/
def leafOfOne (id : Nat) (key : Bytes) : BptNode where
  id := id
  isLeaf := true
  parent := some 0
  kvs := OrderedMap.empty.emplace key []
  stat := { minKey := key, maxKey := key, count := 1, nodeSize := 22 }

/-- Three leaves of one key under a root, and a leaf of three keys. -/
def threeLeaves : Bptree where
  root := 0
  treeCtx := {}
  arena := {
    node := fun
      | 0 => { id := 1, isRoot := true, children := [1, 2, 3]
               stat := { minKey := [1], maxKey := [3], count := 3
                         nodeSize := 66 } }
      | 1 => leafOfOne 2 [1]
      | 2 => leafOfOne 3 [2]
      | 3 => leafOfOne 4 [3]
      | _ => { id := 5, isLeaf := true
               kvs := ((OrderedMap.empty.emplace [1] []).emplace [2]
                 []).emplace [3] []
               stat := { minKey := [1], maxKey := [3], count := 3
                         nodeSize := 22 } }
    next := 5 }

/-- A leaf that `NeedSplit` lets through. -/
theorem splitsInHalves_iff_leaf : SplitsInHalves threeLeaves 4 := by
  have hneed : (threeLeaves.node 4).needSplit 4 = true := by decide
  have hsize := splittable_of_needSplit (by decide) hneed
  exact (@splitsInHalves_iff threeLeaves 4 (by decide) hsize).mpr rfl

/-- A root over three leaves that `NeedSplit` lets through. -/
theorem inner_node_is_not_split :
    (threeLeaves.node 0).needSplit 4 = true
      ∧ (threeLeaves.node 0).children.Pairwise (fun c d =>
        (threeLeaves.node c).stat.maxKey < (threeLeaves.node d).stat.minKey)
      ∧ ¬ SplitsInHalves threeLeaves 0 := by
  refine ⟨by decide, by decide, ?_⟩
  rintro ⟨r, t', hsplit, -⟩
  rw [split_inner rfl rfl] at hsplit
  cases hsplit

end Bptree

end AmDb.Storage
