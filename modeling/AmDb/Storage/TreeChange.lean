import AmDb.Storage.TreeContents

/-! # What an operation changes

    An operation either reads a leaf again (`Reading`) or replaces some leaves
    and collects the new ones and the root (`Change`).  Both keep a tree well
    formed. -/

namespace AmDb.Storage

open Codec BinarySearch OrderedMap

namespace Bptree

/-- One leaf was read again and now holds its map. -/
def Reading (t t' : Bptree) (p : Addr × OrderedMap Bytes Bytes) : Prop :=
  ∃ m, t' = t.setNode p.1 m ∧ Loaded m p.2 ∧ m.id = (t.node p.1).id
    ∧ LeafOf t.root m

/-- The leaves `cs` became `cs'`.  Every leaf is as it was, or in memory and
    collected. -/
structure Change (t t' : Bptree) (cs cs' : Contents) (gone : List Nat)
    (collected : List (Nat × Addr)) : Prop
    extends Rewritten t t' (cs.map Prod.fst) (cs'.map Prod.fst) gone
      collected where
  rootSize : (t.node t.root).stat.nodeSize
      = u64 ((t.node t.root).stat.minKey.length
        + (t.node t.root).stat.maxKey.length) →
    (t'.node t.root).stat.nodeSize
      = u64 ((t'.node t.root).stat.minKey.length
        + (t'.node t.root).stat.maxKey.length)
  leaves   : ∀ p ∈ cs', (p ∈ cs ∧ t'.node p.1 = t.node p.1)
    ∨ (Loaded (t'.node p.1) p.2 ∧ ((t'.node p.1).id, p.1) ∈ collected)
  loaded   : ∀ e ∈ collected, e.2 = t.root
    ∨ ∃ p ∈ cs', e.2 = p.1 ∧ Loaded (t'.node p.1) p.2

section Keep

variable {env : Env} {t t' : Bptree} {kv : KvStorage} {cs cs' : Contents}

theorem stored_congr {a : Addr} (hs : t'.treeCtx.schema = t.treeCtx.schema)
    (hid : (t'.node a).id = (t.node a).id) (kv : KvStorage) :
    t'.stored kv a = t.stored kv a := by
  rw [stored, stored, nodeKey, nodeKey, hs, hid]

/-- A leaf whose node did not change stands for the same map. -/
theorem Holds.congr {a : Addr} {c : OrderedMap Bytes Bytes}
    (h : Holds env t kv a c) (hs : t'.treeCtx.schema = t.treeCtx.schema)
    (hnode : t'.node a = t.node a) : Holds env t' kv a c := by
  have hst : t'.stored kv a = t.stored kv a :=
    stored_congr hs (by rw [hnode]) kv
  refine ⟨?_, ?_, ?_, ?_⟩
  · rw [hnode, StoredAs, hst]; exact h.kvs
  · rw [hnode]; exact h.write
  · rw [hnode]; exact h.min
  · rw [hnode]; exact h.max

/-- Reading keeps a tree well formed. -/
theorem WellFormed.reading (hw : WellFormed env t kv cs)
    {p : Addr × OrderedMap Bytes Bytes} (hp : p ∈ cs) (hr : Reading t t' p) :
    WellFormed env t' kv cs := by
  obtain ⟨m, rfl, hm, hid, hleaf⟩ := hr
  have hmem : p.1 ∈ cs.map Prod.fst := List.mem_map_of_mem hp
  have hroot := node_setNode_ne t m (hw.linked.ne_root hmem).symm
  refine ⟨hw.linked.setNode_leaf hmem hleaf, ?_, hw.ascending, ?_⟩
  · intro q hq
    by_cases hqp : q.1 = p.1
    · -- one address, one leaf
      have hqeq : q = p := by
        have hinj := List.inj_on_of_nodup_map hw.linked.nodup_leaves
        exact hinj hq hp hqp
      rw [hqeq]
      refine Loaded.holds ?_
      rw [node_setNode_self]; exact hm
    · exact (hw.leaves q hq).congr rfl (node_setNode_ne t m hqp)
  · rw [root_setNode, hroot]; exact hw.rootSize

/-- A change that keeps the keys ascending keeps a tree well formed. -/
theorem WellFormed.change (hw : WellFormed env t kv cs) {gone : List Nat}
    {collected : List (Nat × Addr)}
    (hc : Change t t' cs cs' gone collected) (hflat : Ascending (flat cs')) :
    WellFormed env t' kv cs' := by
  refine ⟨hc.linked, ?_, hflat, ?_⟩
  · intro p hp
    rcases hc.leaves p hp with ⟨hmem, hnode⟩ | ⟨hload, -⟩
    · exact (hw.leaves p hmem).congr hc.schema hnode
    · exact hload.holds
  · rw [hc.root]; exact hc.rootSize hw.rootSize

end Keep

/-! ## The new leaves -/

section Leaves

variable {n m : BptNode} {c : OrderedMap Bytes Bytes} {key value : Bytes}

/-- A leaf with one entry more, its statistics updated. -/
theorem Loaded.added (h : Loaded m c) (hk : key ∉ c) :
    Loaded ((added m key value).updateStatByAddKV key value)
      (c.emplace key value) := by
  obtain ⟨stat, heq, hmax, hmin⟩ :=
    BptNode.updateStatByAddKV_eq (Bptree.added m key value) key value
  have hsize : (Bptree.added m key value).kvs.size ≠ 1 :=
    size_added_ne_one value (by rw [h.kvs]; exact hk)
      (by rw [h.kvs]; exact ne_nil_of_mem_keys h.min.1)
  rw [if_neg hsize] at hmax hmin
  have hkeys : keys (c.emplace key value).entries = Insert.insert key (keys c.entries) :=
    keys_insertNew ..
  rw [heq]
  refine ⟨?_, ?_, ?_, ?_⟩
  · show m.kvs.emplace key value = _
    rw [h.kvs]
  · intro k hkw
    rw [mem_emplace]
    exact (mem_emplace.mp hkw).imp id (h.write k)
  · rw [hkeys, hmin]
    exact isLeast_insert h.min
  · rw [hkeys, hmax]
    exact isGreatest_insert h.max

/-- The first entry of a leaf. -/
theorem loaded_single {m : BptNode} (hkvs : m.kvs = .empty)
    (hwrite : m.writeKvs = .empty) :
    Loaded ((added m key value).updateStatByAddKV key value)
      (OrderedMap.empty.emplace key value) := by
  obtain ⟨stat, heq, hmax, hmin⟩ :=
    BptNode.updateStatByAddKV_eq (Bptree.added m key value) key value
  have hsize : (Bptree.added m key value).kvs.size = 1 := by
    show (m.kvs.emplace key value).size = 1
    rw [hkvs]
    rfl
  rw [if_pos hsize] at hmax hmin
  have hkeys : keys (OrderedMap.empty.emplace key value).entries = {key} := by
    ext x
    simp [keys, insertNew, eq_comm]
  rw [heq]
  refine ⟨?_, ?_, ?_, ?_⟩
  · show m.kvs.emplace key value = _
    rw [hkvs]
  · intro k hk
    have : k ∈ m.writeKvs.emplace key value := hk
    rwa [hwrite] at this
  · rw [hkeys, hmin]; exact isLeast_singleton
  · rw [hkeys, hmax]; exact isGreatest_singleton

/-- The halves of a leaf. -/
theorem Loaded.halves {l r : BptNode} (h : Loaded n c) (hh : Halves n l r) :
    Loaded l (c.take (splitAt n)) ∧ Loaded r (c.drop (splitAt n)) := by
  have hl : l.kvs = c.take (splitAt n) := by rw [hh.left_kvs, h.kvs]
  have hr : r.kvs = c.drop (splitAt n) := by rw [hh.right_kvs, h.kvs]
  refine ⟨⟨hl, ?_, by rw [← hl]; exact hh.left_min,
    by rw [← hl]; exact hh.left_max⟩, ⟨hr, ?_,
    by rw [← hr]; exact hh.right_min, by rw [← hr]; exact hh.right_max⟩⟩
  · intro k hk
    obtain ⟨hn, hnr⟩ := hh.left_write k hk
    rw [hr] at hnr
    obtain ⟨e, he, rfl⟩ := h.write k hn
    rw [← List.take_append_drop (splitAt n) c.entries, List.mem_append] at he
    exact he.elim (fun he => ⟨e, he, rfl⟩) (fun he => absurd ⟨e, he, rfl⟩ hnr)
  · intro k hk
    rw [hh.right_write, hr] at hk
    exact hk

/-- A leaf with one entry less, its statistics updated. -/
theorem Loaded.erased (h : Loaded m c) (hk : key ∈ c)
    (hne : (c.erase key).entries ≠ []) {n' : BptNode}
    (heq : (removed m key).updateStatByDelKV key = .ok n') :
    Loaded n' (c.erase key) := by
  have hkeys : keys (c.erase key).entries = keys c.entries \ {key} :=
    keys_remove ..
  have hne' : (removed m key).kvs.entries ≠ [] := by
    show (m.kvs.erase key).entries ≠ []
    rw [h.kvs]; exact hne
  obtain ⟨stat, hstat, hmax, hmin⟩ := @BptNode.updateStatByDelKV_eq _ key hne'
  rw [hstat] at heq
  rw [← Except.ok.inj heq]
  -- what `UpdateStatByDelKV` takes for ends are ends of what is left
  have hgreat : IsGreatest (keys (c.erase key).entries)
      ((c.erase key).entries.getLast hne).1 :=
    isGreatest_getLast (c.erase key).ascending
      (List.getLast?_eq_some_getLast hne)
  have hleast : IsLeast (keys (c.erase key).entries)
      ((c.erase key).entries.head hne).1 :=
    isLeast_head (c.erase key).ascending (List.head?_eq_some_head hne)
  simp only [removed, h.kvs] at hmax hmin
  refine ⟨?_, ?_, ?_, ?_⟩
  · show m.kvs.erase key = _
    rw [h.kvs]
  · intro k hkw
    obtain ⟨hkw, hnek⟩ := mem_erase.mp hkw
    exact mem_erase.mpr ⟨h.write k hkw, hnek⟩
  · rw [hmin]
    split_ifs with hc
    · exact hleast
    · -- the least key stays: it is not the one erased
      have hstay : m.stat.minKey ≠ key := by
        rintro rfl
        have hkmax : m.stat.minKey = m.stat.maxKey := by
          by_contra hcon
          exact hc ⟨hcon, rfl⟩
        obtain ⟨e, he⟩ := List.exists_mem_of_ne_nil _ hne
        have hmem : e.1 ∈ keys (c.erase m.stat.minKey).entries := ⟨e, he, rfl⟩
        rw [hkeys] at hmem
        exact hmem.2 (le_antisymm (hkmax ▸ h.max.2 hmem.1) (h.min.2 hmem.1))
      rw [hkeys]
      exact ⟨⟨h.min.1, hstay⟩, fun x hx => h.min.2 hx.1⟩
  · rw [hmax]
    split_ifs with hc
    · exact hgreat
    · rw [hkeys]
      exact ⟨⟨h.max.1, fun hm => hc hm.symm⟩, fun x hx => h.max.2 hx.1⟩

end Leaves

end Bptree

end AmDb.Storage
