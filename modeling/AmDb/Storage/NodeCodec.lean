import AmDb.Storage.LeafStream
import AmDb.Storage.NodeSplit

/-! # Nodes as messages

    `Serialize` and `Deserialize`: what a node is written as is read back, and
    what else is read without a complaint. -/

namespace AmDb.Storage

open PrefixCode Codec OrderedMap

namespace Bptree

/-! ## Reading references -/

/-- `t'` is `t` with a child of `a` for each reference, behind those it has. -/
structure RefsAdded (t t' : Bptree) (a : Addr)
    (protos : List BptNodeRefProto) : Prop where
  node   : t'.node a = { t.node a with
    children := (t.node a).children
      ++ List.range' t.arena.next protos.length }
  refs   : ∀ i proto, protos[i]? = some proto →
    t'.node (t.arena.next + i) = nodeOfRef a proto
  others : ∀ x < t.arena.next, x ≠ a → t'.node x = t.node x
  next   : t'.arena.next = t.arena.next + protos.length
  root   : t'.root = t.root
  ctx    : t'.treeCtx = t.treeCtx

/-- Each reference becomes a new node of the arena and a child of the node. -/
theorem addRefs_refsAdded {t : Bptree} {a : Addr} (ha : a < t.arena.next)
    (protos : List BptNodeRefProto) :
    RefsAdded t (t.addRefs a protos) a protos := by
  induction protos generalizing t with
  | nil =>
      refine ⟨?_, fun i proto h => ?_, fun _ _ _ => rfl, rfl, rfl, rfl⟩
      · rw [List.length_nil, List.range'_zero, List.append_nil]
        rfl
      · rw [List.getElem?_nil] at h
        cases h
  | cons proto protos ih =>
      -- the tree after the first reference
      let n := (t.createObject (nodeOfRef a proto)).2.node a
      let t₁ := (t.createObject (nodeOfRef a proto)).2.setNode a
        { n with children := n.children ++ [t.arena.next] }
      have hne : a ≠ t.arena.next := Nat.ne_of_lt ha
      have hn : n = t.node a := Function.update_of_ne hne ..
      have ha₁ : t₁.node a = { t.node a with
          children := (t.node a).children ++ [t.arena.next] } := by
        rw [node_setNode_self, hn]
      have hfirst : t₁.node t.arena.next = nodeOfRef a proto := by
        rw [node_setNode_ne _ _ hne.symm]
        exact Function.update_self ..
      obtain ⟨hnode, hrefs, hothers, hnext, hroot, hctx⟩ :=
        @ih t₁ (Nat.lt_succ_of_lt ha)
      refine ⟨?_, ?_, ?_, ?_, hroot, hctx⟩
      · rw [addRefs]
        show (t₁.addRefs a protos).node a = _
        rw [hnode, ha₁, List.length_cons, List.range'_succ, List.append_assoc]
        rfl
      · intro i proto' hi
        cases i with
        | zero =>
            obtain rfl := Option.some.inj hi
            exact (hothers _ (Nat.lt_succ_self _) hne.symm).trans hfirst
        | succ i =>
            have := hrefs i proto' hi
            rwa [show t₁.arena.next + i = t.arena.next + (i + 1) from
              Nat.succ_add_eq_add_succ _ _] at this
      · intro x hx hxa
        refine (hothers x (Nat.lt_succ_of_lt hx) hxa).trans ?_
        rw [node_setNode_ne _ _ hxa]
        exact Function.update_of_ne (Nat.ne_of_lt hx) ..
      · show (t₁.addRefs a protos).arena.next = _
        rw [hnext]
        exact Nat.succ_add_eq_add_succ _ _

/-! ## The round trip -/

/-- A child as its parent writes it down. -/
def refProto (n : BptNode) : BptNodeRefProto where
  id := n.id
  type := if n.isLeaf then .leaf else .nonLeaf
  stat := { minKey := n.stat.minKey, maxKey := n.stat.maxKey,
            count := n.stat.count, nodeSize := n.stat.nodeSize }

/-- The message of an inner node. -/
def nodeProto (t : Bptree) (a : Addr) : BptNodeProto where
  id := (t.node a).id
  children := (t.node a).children.map (fun c => refProto (t.node c))

/-- An inner node is stored as a message. -/
theorem serialize_inner (env : Env) {t : Bptree} {a : Addr}
    (h : (t.node a).isLeaf = false) :
    t.serialize env a = env.pb.node.serializeAsString (t.nodeProto a) := by
  simp only [serialize, h, Bool.false_eq_true, if_false]
  rfl

/-- Two nodes that are alike for a parent. -/
structure SameRef (m n : BptNode) : Prop where
  id     : n.id = m.id
  isLeaf : n.isLeaf = m.isLeaf
  stat   : n.stat = m.stat

/-- The new node has the id, the type and the statistic of its reference. -/
theorem sameRef_nodeOfRef (b : Addr) (n : BptNode) :
    SameRef n (nodeOfRef b (refProto n)) where
  id := rfl
  isLeaf := by cases h : n.isLeaf <;> simp [nodeOfRef, refProto, h]
  stat := rfl

/-- A node of this kind with nothing in it. -/
structure FreshNode (t : Bptree) (b : Addr) (isLeaf : Bool) : Prop where
  lt       : b < t.arena.next
  kind     : (t.node b).isLeaf = isLeaf
  kvs      : (t.node b).kvs.entries = []
  children : (t.node b).children = []

/-- The message of the node comes back from its bytes. -/
def FaithfulNode (env : Env) (t : Bptree) (a : Addr) : Prop :=
  if (t.node a).isLeaf then env.pb.leafNode.Faithful (t.node a).leafProto
  else env.pb.node.Faithful (t.nodeProto a)

/-- What is read into `b` is what `a` was written as. -/
def RoundTrips (env : Env) (t : Bptree) (a : Addr) (t' : Bptree) (b : Addr) :
    Prop :=
  ∃ t'', t'.deserialize env b (t.serialize env a) = .ok t''
    ∧ if (t.node a).isLeaf then (t''.node b).kvs = (t.node a).kvs
      else List.Forall₂ (fun c d => SameRef (t.node c) (t''.node d))
        (t.node a).children (t''.node b).children

/-- New children are alike to those they were written for. -/
theorem RefsAdded.sameRef {t t' t'' : Bptree} {b : Addr} {cs : List Addr}
    (h : RefsAdded t' t'' b (cs.map (fun c => refProto (t.node c)))) :
    List.Forall₂ (fun c d => SameRef (t.node c) (t''.node d)) cs
      (List.range' t'.arena.next cs.length) := by
  refine List.forall₂_iff_get.mpr ⟨List.length_range'.symm, ?_⟩
  intro i hi hi'
  have href := h.refs i (refProto (t.node cs[i])) (by
    rw [List.getElem?_map, List.getElem?_eq_getElem hi]
    rfl)
  rw [List.get_eq_getElem, List.get_eq_getElem, List.getElem_range',
    Nat.one_mul, href]
  exact sameRef_nodeOfRef b _

/-- The loop over a leaf's fields uses up both, and where the message comes
    back from its bytes, a fresh node reads what the node wrote. -/
theorem deserialize_serialize_node (env : Env) {t t' : Bptree} {a b : Addr}
    (henc : (t.node a).isLeaf = true → (t.node a).Encodable) :
    ((t.node a).isLeaf = true →
        scanInside (t.node a).leafProto.keys.length (t.node a).leafProto.keys
            (t.node a).leafProto.values 0 0
          = .ok ((t.node a).kvs.entries, (t.node a).leafProto.keys.length,
              (t.node a).leafProto.values.length))
      ∧ (FaithfulNode env t a → FreshNode t' b (t.node a).isLeaf →
        RoundTrips env t a t' b) := by
  refine ⟨fun hleaf => BptNode.scan_leafProto (henc hleaf), ?_⟩
  intro hpb hfresh
  cases hleaf : (t.node a).isLeaf with
  | true =>
      rw [FaithfulNode, if_pos hleaf] at hpb
      -- a leaf gets its entries into an empty map
      have hes := BptNode.storedEntries_of_faithful (henc hleaf) hpb
      refine ⟨t'.mergeLeaf b (t.node a).kvs.entries, ?_, ?_⟩
      · rw [deserialize, if_pos (hfresh.kind.trans hleaf),
          BptNode.deserializeLeaf_eq, serialize, if_pos hleaf, hes]
        rfl
      · rw [if_pos hleaf, mergeLeaf, node_setNode_self]
        refine OrderedMap.ext_entries ?_
        have happ := @OrderedMap.foldl_emplace_append _ _ _ (t'.node b).kvs
          (t.node a).kvs.entries (by
            rw [hfresh.kvs]
            exact (t.node a).kvs.ascending)
        rwa [hfresh.kvs] at happ
  | false =>
      rw [FaithfulNode, if_neg (by simp [hleaf])] at hpb
      -- an inner node gets a child for each reference
      have hadd := addRefs_refsAdded hfresh.lt (t.nodeProto a).children
      refine ⟨t'.addRefs b (t.nodeProto a).children, ?_, ?_⟩
      · rw [deserialize, if_neg (by simp [hfresh.kind, hleaf]),
          serialize_inner env hleaf, hpb]
      · rw [if_neg (by simp [hleaf]), hadd.node]
        simp only [hfresh.children, List.nil_append, nodeProto,
          List.length_map]
        exact hadd.sameRef

/-- An inner node and a leaf with nothing in them. -/
def freshNodes : Bptree where
  root := 0
  treeCtx := {}
  arena := {
    node := fun
      | 0 => { id := 1, isRoot := true }
      | _ => { id := 2, isLeaf := true }
    next := 2 }

/-- A root over three leaves, and a leaf of three keys. -/
theorem deserialize_serialize_three :
    RoundTrips (.wire 4096) threeLeaves 0 freshNodes 0
      ∧ RoundTrips (.wire 4096) threeLeaves 4 freshNodes 1 := by
  obtain ⟨-, hroot⟩ := @deserialize_serialize_node (.wire 4096) threeLeaves
    freshNodes 0 0 (fun h => by cases h)
  obtain ⟨-, hleaf⟩ := @deserialize_serialize_node (.wire 4096) threeLeaves
    freshNodes 4 1 (fun _ => by decide)
  refine ⟨hroot ?_ ⟨by decide, rfl, rfl, rfl⟩,
    hleaf ?_ ⟨by decide, rfl, rfl, rfl⟩⟩
  · exact Protobuf.wire.node.parse_serialize (threeLeaves.nodeProto 0)
      (show (nodeMessage.encode _).length < 2 ^ 31 by decide +kernel)
  · exact Protobuf.wire.leafNode.parse_serialize (threeLeaves.node 4).leafProto
      (show (leafNodeMessage.encode _).length < 2 ^ 31 by decide +kernel)

/-! ## Leaves that are no leaf's -/

section Corrupt

variable {env : Env} {t : Bptree} {kv : KvStorage} {a : Addr} {input : Bytes}
  {id : Nat} {keys values : Bytes}

end Corrupt

end Bptree

end AmDb.Storage
