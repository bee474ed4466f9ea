import AmDb.Storage.NodeCodec

/-! # Loading a node again

    `LoadNodeFromKVStorage` on a node that was loaded before: a leaf takes up
    the entries it has not, an inner node takes up all its children again. -/

namespace AmDb.Storage

open OrderedMap

namespace Bptree

/-- `LoadNodeFromKVStorage`, and again as often as said. -/
def reloads (env : Env) (t : Bptree) (kv : KvStorage) (a : Addr) :
    Nat → Exec (Status × Bptree × KvStorage)
  | 0 => t.loadNodeFromKVStorage env kv a
  | n + 1 => do
      let (_, t, kv) ← reloads env t kv a n
      t.loadNodeFromKVStorage env kv a

/-- The ids of a node's children, in their order. -/
def childIds (t : Bptree) (a : Addr) : List Nat :=
  (t.node a).children.map (fun c => (t.node c).id)

/-- However often it is loaded, the node is as after the first time. -/
def ReloadsAlike (env : Env) (t : Bptree) (kv : KvStorage) (a : Addr) : Prop :=
  ∃ s₁ t₁ kv₁, t.loadNodeFromKVStorage env kv a = .ok (s₁, t₁, kv₁)
    ∧ ∀ n, ∃ s t' kv', reloads env t kv a n = .ok (s, t', kv')
      ∧ (t'.node a).kvs = (t₁.node a).kvs ∧ childIds t' a = childIds t₁ a

/-- The references in the bytes of an inner node. -/
def storedRefs (env : Env) (input : Bytes) : List BptNodeRefProto :=
  ((env.pb.node.parseFromString input).map (·.children)).getD []

section Reload

variable {env : Env} {t : Bptree} {kv : KvStorage} {a : Addr} {input : Bytes}

/-- One load more is a load of what the others left. -/
theorem reloads_succ {s : Status} {t' : Bptree} {kv' : KvStorage} {n : Nat}
    (h : reloads env t kv a n = .ok (s, t', kv')) :
    reloads env t kv a (n + 1) = t'.loadNodeFromKVStorage env kv' a := by
  rw [reloads, h]
  rfl

/-- A leaf that has the stored entries stays as it is. -/
theorem mergeLeaf_mergeLeaf (t : Bptree) (a : Addr)
    (es : List (Bytes × Bytes)) :
    (t.mergeLeaf a es).mergeLeaf a es = t.mergeLeaf a es := by
  have hsame : BptNode.merge (BptNode.merge (t.node a).kvs es) es
      = BptNode.merge (t.node a).kvs es :=
    foldl_emplace_of_mem (fun e he => mem_foldl_emplace.mpr
      (Or.inr ⟨e, he, rfl⟩))
  simp only [mergeLeaf, node_setNode_self, setNode_setNode, hsame]

/-- However often a leaf is loaded, it is merged with its stored copy. -/
theorem reloads_leaf (hkv : kv.Reliable) (hleaf : (t.node a).isLeaf = true)
    (hs : t.stored kv a = some input) {es : List (Bytes × Bytes)}
    (hes : BptNode.storedEntries env.pb input = .ok es) (n : Nat) :
    reloads env t kv a n = .ok (.ok, t.mergeLeaf a es, kv) := by
  have hload : ∀ {t : Bptree}, (t.node a).isLeaf = true →
      t.stored kv a = some input →
      t.loadNodeFromKVStorage env kv a = .ok (.ok, t.mergeLeaf a es, kv) := by
    intro t hleaf hs
    rw [load_of_some hkv hleaf hs, hes]
    rfl
  induction n with
  | zero => exact hload hleaf hs
  | succ n ih =>
      rw [reloads_succ ih, hload (by simpa [mergeLeaf] using hleaf)
        (by simpa [stored, nodeKey, mergeLeaf] using hs), mergeLeaf_mergeLeaf]

/-- One load of an inner node. -/
theorem load_inner (hkv : kv.Reliable) (hinner : (t.node a).isLeaf = false)
    (hs : t.stored kv a = some input) {proto : BptNodeProto}
    (hparse : env.pb.node.parseFromString input = some proto) :
    t.loadNodeFromKVStorage env kv a
      = .ok (.ok, t.addRefs a proto.children, kv) := by
  rw [loadNodeFromKVStorage, loadTreeNode, KvStorage.getKV_of_some hkv hs]
  simp only [deserialize, hinner, Bool.false_eq_true, if_false, hparse,
    Exec.bind_ok]
  rfl

/-- Every load adds the stored children to those there are. -/
theorem reloads_inner (ha : a < t.arena.next) (hkv : kv.Reliable)
    (hinner : (t.node a).isLeaf = false) (hs : t.stored kv a = some input)
    {proto : BptNodeProto}
    (hparse : env.pb.node.parseFromString input = some proto) (n : Nat) :
    ∃ t', reloads env t kv a n = .ok (.ok, t', kv)
      ∧ a < t'.arena.next ∧ (t'.node a).isLeaf = false
      ∧ t'.stored kv a = some input
      ∧ (t'.node a).children.length
        = (t.node a).children.length + (n + 1) * proto.children.length := by
  have hload : ∀ {t : Bptree}, a < t.arena.next → (t.node a).isLeaf = false →
      t.stored kv a = some input →
      ∃ t', t.loadNodeFromKVStorage env kv a = .ok (.ok, t', kv)
        ∧ a < t'.arena.next ∧ (t'.node a).isLeaf = false
        ∧ t'.stored kv a = some input
        ∧ (t'.node a).children.length
          = (t.node a).children.length + proto.children.length := by
    intro t ha hinner hs
    have hadd := addRefs_refsAdded ha proto.children
    refine ⟨_, load_inner hkv hinner hs hparse, ?_, ?_, ?_, ?_⟩
    · rw [hadd.next]
      exact Nat.lt_of_lt_of_le ha (Nat.le_add_right _ _)
    · rw [hadd.node]
      exact hinner
    · rw [stored, nodeKey, hadd.node, hadd.ctx]
      exact hs
    · rw [hadd.node, List.length_append, List.length_range']
  induction n with
  | zero =>
      obtain ⟨t', hr, ha', hinner', hs', hlen⟩ := hload ha hinner hs
      exact ⟨t', hr, ha', hinner', hs', by rw [hlen, Nat.zero_add, Nat.one_mul]⟩
  | succ n ih =>
      obtain ⟨t₁, hr₁, ha₁, hinner₁, hs₁, hlen₁⟩ := ih
      obtain ⟨t', hr, ha', hinner', hs', hlen⟩ := hload ha₁ hinner₁ hs₁
      refine ⟨t', (reloads_succ hr₁).trans hr, ha', hinner', hs', ?_⟩
      rw [hlen, hlen₁, Nat.add_assoc, ← Nat.succ_mul]

/-- Loading a node again changes nothing just when it is a leaf or no children
    are stored. -/
theorem reloadsAlike_iff (ha : a < t.arena.next) (hkv : kv.Reliable)
    (hs : t.stored kv a = some input)
    (hd : ∃ t₁, t.deserialize env a input = .ok t₁) :
    ReloadsAlike env t kv a
      ↔ (t.node a).isLeaf = true ∨ storedRefs env input = [] := by
  obtain ⟨t₁, hd⟩ := hd
  rw [deserialize] at hd
  cases hleaf : (t.node a).isLeaf with
  | true =>
      refine iff_of_true ?_ (Or.inl rfl)
      rw [if_pos hleaf, BptNode.deserializeLeaf_eq] at hd
      obtain ⟨n, hes, -⟩ := Exec.bind_eq_ok.mp hd
      obtain ⟨es, hes, -⟩ := Exec.bind_eq_ok.mp hes
      -- a leaf is merged with its copy, however often
      have hr := reloads_leaf hkv hleaf hs hes
      exact ⟨_, _, _, hr 0, fun n => ⟨_, _, _, hr n, rfl, rfl⟩⟩
  | false =>
      rw [if_neg (by simp [hleaf])] at hd
      cases hparse : env.pb.node.parseFromString input with
      | none =>
          rw [hparse] at hd
          cases hd
      | some proto =>
          -- an inner node gets its stored children once more at each load
          have hr := reloads_inner ha hkv hleaf hs hparse
          rw [storedRefs, hparse]
          constructor
          · rintro ⟨s₁, t₁, kv₁, hload, hall⟩
            obtain ⟨s, t', kv', hagain, -, hids⟩ := hall 1
            obtain ⟨u₁, hu₁, -, -, -, hlen₁⟩ := hr 0
            obtain ⟨u, hu, -, -, -, hlen⟩ := hr 1
            cases hload.symm.trans hu₁
            cases hagain.symm.trans hu
            have hsame := congrArg List.length hids
            rw [childIds, childIds, List.length_map, List.length_map] at hsame
            exact Or.inr (List.length_eq_zero_iff.mp (by
              show proto.children.length = 0
              omega))
          · rintro (h | h)
            · cases h
            · -- without children there is nothing to add
              have hnone : proto.children = [] := h
              have hload : t.loadNodeFromKVStorage env kv a = .ok (.ok, t, kv) := by
                rw [load_inner hkv hleaf hs hparse, hnone]
                rfl
              have hall : ∀ n, reloads env t kv a n = .ok (.ok, t, kv) := by
                intro n
                induction n with
                | zero => exact hload
                | succ n ih => rw [reloads_succ ih, hload]
              exact ⟨_, _, _, hload, fun n => ⟨_, _, _, hall n, rfl, rfl⟩⟩

/-- A leaf of three keys that was saved. -/
def savedNode (a : Addr) : KvStorage :=
  KvStorage.empty.written (.treeNode 0 0 0 (threeLeaves.node a).id)
    (threeLeaves.serialize (.wire 4096) a)

theorem reloadsAlike_iff_leaf :
    ReloadsAlike (.wire 4096) threeLeaves (savedNode 4) 4 :=
  (@reloadsAlike_iff (.wire 4096) threeLeaves (savedNode 4) 4 _ (by decide) rfl
    rfl ⟨_, rfl⟩).mpr (Or.inl rfl)

/-- A new root reads three children, and three more the second time. -/
theorem root_is_read_twice :
    ¬ ReloadsAlike (.wire 4096) freshNodes (savedNode 0) 0 := by
  have hparse := Protobuf.wire.node.parse_serialize (threeLeaves.nodeProto 0)
    (show (nodeMessage.encode _).length < 2 ^ 31 by decide +kernel)
  have hr := @reloads_inner (.wire 4096) freshNodes (savedNode 0) 0 _
    (by decide) rfl rfl rfl _ hparse
  rintro ⟨s₁, t₁, kv₁, hload, hall⟩
  obtain ⟨s, t', kv', hagain, -, hids⟩ := hall 1
  obtain ⟨u₁, hu₁, -, -, -, hlen₁⟩ := hr 0
  obtain ⟨u, hu, -, -, -, hlen⟩ := hr 1
  cases hload.symm.trans hu₁
  cases hagain.symm.trans hu
  have hsame := congrArg List.length hids
  rw [childIds, childIds, List.length_map, List.length_map, hlen, hlen₁]
    at hsame
  exact absurd hsame (by decide)

end Reload

end Bptree

end AmDb.Storage
