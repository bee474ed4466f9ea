import AmDb.Storage.DurableTree
import AmDb.Storage.TreeStat

/-! # Trees of one leaf

    The entries of an index have no values, and `node_size` counts of the keys
    of a leaf the two at its ends only.  With short keys no leaf has to split,
    however many keys it gets: the tree has one leaf, under the first id after
    `max_tree_node_id`, and every insert of a short key returns. -/

namespace AmDb.Storage

open Codec OrderedMap PrefixCode AmDb.Schema Bptree Session

/-- Two keys of this width and the constant of a node fit a node, whose size is
    a `uint32` flag. -/
structure TwoKeysFit (env : Env) (width : Nat) : Prop where
  flag : env.bptreeMaxNodeSize < 2 ^ 32
  ends : 2 * width + 20 ≤ env.bptreeMaxNodeSize

/-- The size of a node is what its end keys and the constant take. -/
def Measured (s : NodeStatistics) : Prop :=
  s.nodeSize = s.minKey.length + s.maxKey.length + 20

instance (s : NodeStatistics) : Decidable (Measured s) :=
  inferInstanceAs (Decidable (_ = _))

/-- An entry of an index. -/
def Slim (width : Nat) (e : Bytes × Bytes) : Prop :=
  e.1.length ≤ width ∧ e.2 = []

section Node

variable {n : BptNode} {c : OrderedMap Bytes Bytes} {key : Bytes}

/-- The first entry of a leaf. -/
theorem measured_first (hsize : n.stat.nodeSize = 0)
    (hone : (n.kvs.emplace key []).size = 1) (hkey : key.length < 2 ^ 32) :
    Measured (withEntry n key []).stat := by
  have hone' : (added n key []).kvs.size = 1 := hone
  have hsize' : (added n key []).stat.nodeSize = 0 := hsize
  rw [Measured, withEntry, BptNode.updateStatByAddKV]
  simp only [hone', if_true, hsize', List.length_nil, u64]
  omega

/-- Another entry of a leaf. -/
theorem measured_next (h : Loaded n c) (hn : Measured n.stat) (hk : key ∉ c)
    (hmin : n.stat.minKey.length < 2 ^ 32)
    (hmax : n.stat.maxKey.length < 2 ^ 32)
    (hkey : key.length < 2 ^ 32) : Measured (withEntry n key []).stat := by
  have hsize : (added n key []).kvs.size ≠ 1 :=
    size_added_ne_one [] (by rw [h.kvs]; exact hk)
      (by rw [h.kvs]; exact ne_nil_of_mem_keys h.min.1)
  have hstat : (added n key []).stat = n.stat := rfl
  rw [Measured] at hn
  rw [Measured, withEntry, BptNode.updateStatByAddKV]
  simp only [hsize, if_false, hstat, List.length_nil, u64, sub64]
  split_ifs <;> simp only <;> omega

/-- It does not have to split. -/
theorem needSplit_withEntry {env : Env} {width : Nat}
    (hroom : TwoKeysFit env width) (h : Loaded n c) (hn : Measured n.stat)
    (hk : key ∉ c) (hshort : ∀ k ∈ c, k.length ≤ width)
    (hkey : key.length ≤ width) :
    Measured (withEntry n key []).stat
      ∧ (withEntry n key []).needSplit env.bptreeMaxNodeSize = false := by
  have hmin := hshort _ h.min.1
  have hmax := hshort _ h.max.1
  have hwidth : width < 2 ^ 32 := by
    have := hroom.flag
    have := hroom.ends
    omega
  have hsize := measured_next h hn hk (by omega) (by omega) (by omega)
  refine ⟨hsize, ?_⟩
  obtain ⟨stat, heq, hmax', hmin'⟩ :=
    BptNode.updateStatByAddKV_eq (added n key []) key []
  -- `node_size` is made of the two end keys, which are short
  have hends : stat.minKey.length ≤ width ∧ stat.maxKey.length ≤ width := by
    rw [hmin', hmax']
    constructor
    · split_ifs
      · exact hkey
      · exact hkey
      · exact hmin
    · split_ifs
      · exact hkey
      · exact hkey
      · exact hmax
  rw [withEntry, heq] at hsize ⊢
  have hroomy := hroom.ends
  have hnot : ¬ env.bptreeMaxNodeSize < stat.nodeSize := by
    have hsize : stat.nodeSize
        = stat.minKey.length + stat.maxKey.length + 20 := hsize
    omega
  rw [BptNode.needSplit]
  split_ifs
  · rfl
  · exact decide_eq_false hnot
  · rfl
  · exact decide_eq_false hnot

end Node

/-- The leaves of the tree are one, or none yet, under the id that comes after
    `max_tree_node_id`; all keys are short. -/
structure SingleLeaf (env : Env) (width : Nat) (table : TableInfo)
    (info : IndexInfo) (t : Bptree) (kv : KvStorage) (cs : Contents) :
    Prop where
  few   : cs.length ≤ 1
  short : ∀ e ∈ flat cs, Slim width e
  leaf  : ∀ p ∈ cs, (t.node p.1).id = info.maxTreeNodeId + 1
    ∧ (t.node p.1).stat.count = p.2.size ∧ Measured (t.node p.1).stat
  fresh : ∀ p ∈ cs, Fresh env t kv p.1
  first : cs = [] → t.treeCtx.id = info.maxTreeNodeId
    ∧ kv.data (t.nodeKey (info.maxTreeNodeId + 1)) = none
  refs  : ((t.node t.root).id, t.root) ∈ t.treeCtx.unsavedNodes
    ∨ openedRefs env kv table info = cs.map (fun p => refProto (t.node p.1))

section Insert

variable {env : Env} {pb : SchemaProtobuf} {p : Place} {table : TableInfo}
  {info : IndexInfo} {width : Nat} {t t' : Bptree} {kv : KvStorage}
  {cs cs' : Contents} {key : Bytes} {q : Addr × OrderedMap Bytes Bytes}

/-- A leaf with the keys of its copy is fresh. -/
theorem fresh_of_kvs {a : Addr} {es : List (Bytes × Bytes)}
    (hschema : t'.treeCtx.schema = t.treeCtx.schema)
    (hid : (t'.node a).id = (t.node a).id)
    (hes : t.reread env kv a = .ok es)
    (hsub : ∀ e ∈ es, e.1 ∈ (t'.node a).kvs) : Fresh env t' kv a := by
  refine ⟨es, ?_, Or.inr hsub⟩
  rw [reread, stored_congr hschema hid kv]
  exact hes

/-- A root that was rewritten last waits to be saved. -/
theorem waits_of_installed {writes : List (Addr × BptNode)} {made : Nat}
    {unsaved : List (Nat × Addr)} {rootNode : BptNode}
    (hi : Installed t t' writes made
      (collectEntry unsaved ((t.node t.root).id, t.root)) rootNode)
    (hid : rootNode.id = (t.node t.root).id) :
    ((t'.node t'.root).id, t'.root) ∈ t'.treeCtx.unsavedNodes := by
  rw [hi.root, hi.rootNode, hid, hi.unsaved]
  exact mem_collectEntry.mpr (Or.inl rfl)

/-- Short keys stay short. -/
theorem short_insertNew {es : List (Bytes × Bytes)}
    (h : ∀ e ∈ es, Slim width e) (hkey : key.length ≤ width) :
    ∀ e ∈ insertNew key [] es, Slim width e := by
  intro e he
  rcases mem_insertNew he with rfl | he
  · exact ⟨hkey, rfl⟩
  · exact h e he

/-- The first entry makes the leaf. -/
theorem SingleLeaf.insert_first (hd : Durable env pb p table info (t, kv) [])
    (hs : SingleLeaf env width table info t kv [])
    (hids : info.rootNodeId ≠ info.maxTreeNodeId + 1)
    (hwidth : width < 2 ^ 32) (hkey : key.length ≤ width) :
    KeepsKeys env (t, kv) (.call (.insert key []))
      ∧ ∃ t' cs', Bptree.insert env t kv key [] = .ok (.ok, t', kv)
        ∧ Durable env pb p table info (t', kv) cs'
        ∧ SingleLeaf env width table info t' kv cs'
        ∧ ∀ e ∈ flat cs', e.1 = key ∨ e ∈ flat [] := by
  have hl : Linked t [] := hd.wellFormed.linked
  obtain ⟨hid, hempty⟩ := hs.first rfl
  obtain ⟨t', rootNode, stat, hok, hl', hi, hrootNode, -⟩ :=
    insert_nil_installed hl env kv key []
  -- the new leaf's id is the next one, which is not the root's
  have hkeeps : KeepsKeys env (t, kv) (.call (.insert key [])) := by
    refine ⟨?_, ?_⟩
    · rintro - a ha
      have hroot : (t.node t.root).id = info.rootNodeId := hd.intact.rootId
      rw [hl.children, List.mem_singleton] at ha
      rw [ha, hid]
      exact fun h => hids (hroot.symm.trans h)
    · intro a ha
      rw [(insertTarget_eq_none hl).mpr rfl] at ha
      cases ha
  have hcall : Bptree.call env (t, kv) (.insert key [])
      = .ok ((.ok, none), t', kv) := by
    rw [Bptree.call, hok]
    rfl
  -- what a durable tree says of the call: one leaf with this key
  obtain ⟨cs', hd', ha⟩ := hd.call (by rintro ⟨⟩) hkeeps hcall
  have hmap : cs'.map Prod.fst = [t.arena.next] :=
    hd'.wellFormed.linked.children.symm.trans hl'.children
  obtain ⟨⟨a, c⟩, rfl, ha'⟩ := List.map_eq_singleton_iff.mp hmap
  obtain rfl : a = t.arena.next := ha'
  have hflat : flat [(t.arena.next, c)] = [(key, [])] := ha.flat
  have hc : c.entries = [(key, [])] := by
    rw [← hflat]
    simp
  have hnode : t'.node t.arena.next = withEntry t.firstLeaf key [] := by
    rw [hi.nodes _ (Nat.ne_of_gt hl.root_lt),
      overlay_cons_self t.node (t.arena.next, _)]
    rfl
  -- the leaf's id and its count are as `SingleLeaf` has them
  have hkvs : (withEntry t.firstLeaf key []).kvs.size = 1 := by
    rw [kvs_withEntry]
    rfl
  have hleafId : (t'.node t.arena.next).id = info.maxTreeNodeId + 1 := by
    rw [hnode, withEntry, BptNode.id_updateStatByAddKV]
    exact congrArg (· + 1) hid
  refine ⟨hkeeps, t', _, hok, hd', ⟨Nat.le_refl 1, ?_, ?_, ?_, ?_,
    Or.inl (waits_of_installed hi (by rw [hrootNode]))⟩, ?_⟩
  · rw [hflat]
    intro e he
    rw [List.mem_singleton.mp he]
    exact ⟨hkey, rfl⟩
  · intro q hq
    rw [List.mem_singleton.mp hq]
    refine ⟨hleafId, ?_, ?_⟩
    · show (t'.node t.arena.next).stat.count = c.entries.length
      rw [hnode, count_withEntry, hkvs, hc]
      rfl
    · show Measured (t'.node t.arena.next).stat
      rw [hnode]
      refine measured_first rfl ?_ (by omega)
      rw [← kvs_withEntry]
      exact hkvs
  · intro q hq
    rw [List.mem_singleton.mp hq]
    refine ⟨[], reread_none ?_, Or.inr ?_⟩
    · rw [stored, hleafId, nodeKey, hi.schema]
      exact hempty
    · exact List.forall_mem_nil _
  · rintro ⟨⟩
  · rw [hflat]
    intro e he
    rw [List.mem_singleton.mp he]
    exact Or.inl rfl

/-- What the leaf is after a call that kept its id and the keys that its stored
    copy has. -/
theorem SingleLeaf.after (hs : SingleLeaf env width table info t kv [q])
    (hd : Durable env pb p table info (t', kv) cs') {es : List (Bytes × Bytes)}
    (hchildren : (t'.node t'.root).children = [q.1])
    (hschema : t'.treeCtx.schema = t.treeCtx.schema)
    (hid : (t'.node q.1).id = (t.node q.1).id)
    (hes : t.reread env kv q.1 = .ok es)
    (hsub : ∀ e ∈ es, e.1 ∈ (t'.node q.1).kvs)
    (hsize : Measured (t'.node q.1).stat)
    (hcount : (t'.node q.1).stat.count = (flat cs').length)
    (hshort : ∀ e ∈ flat cs', Slim width e)
    (hrefs : ((t'.node t'.root).id, t'.root) ∈ t'.treeCtx.unsavedNodes
      ∨ openedRefs env kv table info = [refProto (t'.node q.1)]) :
    SingleLeaf env width table info t' kv cs' := by
  have hmap : cs'.map Prod.fst = [q.1] :=
    hd.wellFormed.linked.children.symm.trans hchildren
  obtain ⟨q', rfl, hq'⟩ := List.map_eq_singleton_iff.mp hmap
  refine ⟨Nat.le_refl 1, hshort, ?_, ?_, by rintro ⟨⟩, ?_⟩
  · intro x hx
    rw [List.mem_singleton.mp hx, hq']
    refine ⟨hid.trans (hs.leaf q List.mem_cons_self).1, ?_, hsize⟩
    rw [hcount, flat_cons, flat_nil, List.append_nil]
    rfl
  · intro x hx
    rw [List.mem_singleton.mp hx, hq']
    exact fresh_of_kvs hschema hid hes hsub
  · rw [List.map_singleton, hq']
    exact hrefs

/-- Where the next key goes: the leaf, read again, which does not have to split
    for it. -/
theorem SingleLeaf.target (hroom : TwoKeysFit env width)
    (hd : Durable env pb p table info (t, kv) [q])
    (hs : SingleLeaf env width table info t kv [q])
    (hkey : key.length ≤ width) :
    t.insertTarget key = some q.1
      ∧ ∃ es, t.reread env kv q.1 = .ok es ∧ Loaded (t.merged q.1 es) q.2
        ∧ (key ∉ q.2 → Measured (withEntry (t.merged q.1 es) key []).stat
          ∧ (withEntry (t.merged q.1 es) key []).needSplit
            env.bptreeMaxNodeSize = false) := by
  have hw : WellFormed env t kv [q] := hd.wellFormed
  have hl : Linked t [q.1] := hw.linked
  obtain ⟨es, hes, hload⟩ :=
    (hw.leaves _ List.mem_cons_self).merged (hs.fresh _ List.mem_cons_self)
  refine ⟨?_, es, hes, hload, ?_⟩
  · cases h : t.insertTarget key with
    | none =>
        rw [insertTarget_eq_none hl] at h
        cases h
    | some b => rw [List.mem_singleton.mp (insertTarget_mem hl h)]
  · intro hk
    refine needSplit_withEntry hroom hload
      (hs.leaf _ List.mem_cons_self).2.2 hk ?_ hkey
    rintro k ⟨e, he, rfl⟩
    exact (hs.short e (by simpa using he)).1

/-- The leaf is not split, and has every key of its stored copy. -/
theorem SingleLeaf.keepsKeys (hroom : TwoKeysFit env width)
    (hd : Durable env pb p table info (t, kv) [q])
    (hs : SingleLeaf env width table info t kv [q])
    (hkey : key.length ≤ width) :
    KeepsKeys env (t, kv) (.call (.insert key [])) := by
  have hl : Linked t [q.1] := hd.wellFormed.linked
  obtain ⟨htarget, es, hes, hload, hsplit⟩ := hs.target hroom hd hkey
  refine ⟨?_, ?_⟩
  · rintro ⟨hnil | ⟨b, es', hb, hes', hk, hsplits⟩, -⟩
    · rw [hl.children] at hnil
      cases hnil
    · cases htarget.symm.trans hb
      cases hes.symm.trans hes'
      rw [hload.kvs] at hk
      rw [← withEntry, (hsplit hk).2] at hsplits
      cases hsplits
  · intro b hb
    cases htarget.symm.trans hb
    exact hs.fresh _ List.mem_cons_self

/-- A key that is there: the leaf was read again. -/
theorem SingleLeaf.insert_there (hd : Durable env pb p table info (t, kv) [q])
    (hs : SingleLeaf env width table info t kv [q])
    (hkeeps : KeepsKeys env (t, kv) (.call (.insert key [])))
    {es : List (Bytes × Bytes)} (hes : t.reread env kv q.1 = .ok es)
    (htarget : t.insertTarget key = some q.1)
    (hk : key ∈ (t.merged q.1 es).kvs) :
    ∃ status t' cs', Bptree.insert env t kv key [] = .ok (status, t', kv)
      ∧ Durable env pb p table info (t', kv) cs'
      ∧ SingleLeaf env width table info t' kv cs'
      ∧ ∀ e ∈ flat cs', e.1 = key ∨ e ∈ flat [q] := by
  have hl : Linked t [q.1] := hd.wellFormed.linked
  obtain ⟨-, hcount, hsize⟩ := hs.leaf _ List.mem_cons_self
  have hinsert := @insert_eq env t kv [q.1] key [] q.1 hl hd.reliable htarget
  rw [hes, Exec.bind_ok, if_pos hk] at hinsert
  have hcall : Bptree.call env (t, kv) (.insert key [])
      = .ok ((.bptreeDuplicateKey, none), t.setNode q.1 (t.merged q.1 es),
        kv) := by
    rw [Bptree.call, hinsert]
    rfl
  obtain ⟨cs', hd', ha⟩ := hd.call (by rintro ⟨⟩) hkeeps hcall
  have hflat : flat cs' = flat [q] := ha.flat
  refine ⟨_, _, cs', hinsert, hd', hs.after hd' ?_ rfl ?_ hes ?_ ?_ ?_ ?_ ?_,
    fun e he => Or.inr (hflat ▸ he)⟩
  · exact (hl.setNode_leaf List.mem_cons_self
      (leafOf_merged hl List.mem_cons_self es)).children
  · rw [node_setNode_self]
    rfl
  · rw [node_setNode_self]
    exact fun e he => mem_foldl_emplace.mpr (Or.inr ⟨e, he, rfl⟩)
  · rw [node_setNode_self]
    exact hsize
  · rw [node_setNode_self, hflat, flat_cons, flat_nil, List.append_nil]
    exact hcount
  · rw [hflat]
    exact hs.short
  · rw [root_setNode,
      node_setNode_ne t _ (hl.ne_root List.mem_cons_self).symm,
      node_setNode_self]
    exact hs.refs

/-- A new key: the leaf takes it. -/
theorem SingleLeaf.insert_new (hd : Durable env pb p table info (t, kv) [q])
    (hs : SingleLeaf env width table info t kv [q])
    (hkey : key.length ≤ width)
    (hkeeps : KeepsKeys env (t, kv) (.call (.insert key [])))
    {es : List (Bytes × Bytes)} (hes : t.reread env kv q.1 = .ok es)
    (htarget : t.insertTarget key = some q.1)
    (hload : Loaded (t.merged q.1 es) q.2) (hk : key ∉ q.2)
    (hsize : Measured (withEntry (t.merged q.1 es) key []).stat)
    (hsplit : (withEntry (t.merged q.1 es) key []).needSplit
      env.bptreeMaxNodeSize = false) :
    ∃ status t' cs', Bptree.insert env t kv key [] = .ok (status, t', kv)
      ∧ Durable env pb p table info (t', kv) cs'
      ∧ SingleLeaf env width table info t' kv cs'
      ∧ ∀ e ∈ flat cs', e.1 = key ∨ e ∈ flat [q] := by
  have hl : Linked t [q.1] := hd.wellFormed.linked
  have hkm : key ∉ (t.merged q.1 es).kvs := by
    rwa [hload.kvs]
  have hleaf := leafOf_merged hl List.mem_cons_self es
  have hinsert := @insert_eq env t kv [q.1] key [] q.1 hl hd.reliable htarget
  rw [hes, Exec.bind_ok, if_neg hkm,
    if_neg (fun hkw => hk (hload.write _ hkw))] at hinsert
  obtain ⟨writes, made, ls', hw, hres⟩ :=
    @insertUnwind_cases env t [q.1] key [] hl q.1 List.mem_cons_self
      (added (t.merged q.1 es) key [])
      ⟨hleaf.isLeaf, hleaf.isRoot, hleaf.parent, hleaf.children⟩
  rw [← withEntry] at hw
  cases hw with
  | halves l r i hs' => rw [hsplit] at hs'; cases hs'
  | stay _ =>
      obtain ⟨stat, hroot, -⟩ := rootAfter_eq t
        [(q.1, withEntry (t.merged q.1 es) key [])] [q.1] true
      rcases hres with ⟨hsplit', -⟩ | ⟨-, t', hok, hl', hi⟩
      · -- a root with one child never splits
        rw [hroot, BptNode.needSplit, if_neg (by rw [hl.root_inner]; simp)]
          at hsplit'
        exact absurd hsplit' (by simp)
      · -- the leaf takes the key and stays the only one
        have hnode : t'.node q.1 = withEntry (t.merged q.1 es) key [] := by
          rw [hi.nodes _ (hl.ne_root List.mem_cons_self),
            overlay_cons_self t.node (q.1, _)]
        rw [hok, Exec.bind_ok] at hinsert
        have hcall : Bptree.call env (t, kv) (.insert key [])
            = .ok ((.ok, none), t', kv) := by
          rw [Bptree.call, hinsert]
          rfl
        obtain ⟨cs', hd', ha⟩ := hd.call (by rintro ⟨⟩) hkeeps hcall
        have hflat : flat cs' = insertNew key [] (flat [q]) := ha.flat
        refine ⟨_, _, cs', hinsert, hd', hs.after hd' hl'.children hi.schema ?_
          hes ?_ ?_ ?_ ?_ (Or.inl (waits_of_installed hi (by rw [hroot]))), ?_⟩
        · rw [hnode, withEntry, BptNode.id_updateStatByAddKV]
          rfl
        · rw [hnode, kvs_withEntry]
          exact fun e he => mem_emplace.mpr
            (Or.inr (mem_foldl_emplace.mpr (Or.inr ⟨e, he, rfl⟩)))
        · rw [hnode]
          exact hsize
        · rw [hnode, count_withEntry, size_withEntry [] hkm, hload.kvs, hflat,
            flat_cons, flat_nil, List.append_nil, length_insertNew [] hk]
          rfl
        · rw [hflat]
          exact short_insertNew hs.short hkey
        · intro e he
          rw [hflat] at he
          rcases mem_insertNew he with rfl | he
          · exact Or.inl rfl
          · exact Or.inr he

/-- Another entry, or one that is there. -/
theorem SingleLeaf.insert_next (hroom : TwoKeysFit env width)
    (hd : Durable env pb p table info (t, kv) [q])
    (hs : SingleLeaf env width table info t kv [q])
    (hkey : key.length ≤ width) :
    KeepsKeys env (t, kv) (.call (.insert key []))
      ∧ ∃ status t' cs', Bptree.insert env t kv key [] = .ok (status, t', kv)
        ∧ Durable env pb p table info (t', kv) cs'
        ∧ SingleLeaf env width table info t' kv cs'
        ∧ ∀ e ∈ flat cs', e.1 = key ∨ e ∈ flat [q] := by
  have hkeeps : KeepsKeys env (t, kv) (.call (.insert key [])) :=
    hs.keepsKeys hroom hd hkey
  obtain ⟨htarget, es, hes, hload, hsplit⟩ := hs.target hroom hd hkey
  refine ⟨hkeeps, ?_⟩
  by_cases hk : key ∈ q.2
  · exact hs.insert_there hd hkeeps hes htarget (by rwa [hload.kvs])
  · obtain ⟨hsize, hsplit⟩ := hsplit hk
    exact hs.insert_new hd hkey hkeeps hes htarget hload hk hsize hsplit

/-- An insert into a single leaf keeps it one. -/
theorem SingleLeaf.insert (hroom : TwoKeysFit env width)
    (hids : info.rootNodeId ≠ info.maxTreeNodeId + 1)
    (hd : Durable env pb p table info (t, kv) cs)
    (hs : SingleLeaf env width table info t kv cs)
    (hkey : key.length ≤ width) :
    KeepsKeys env (t, kv) (.call (.insert key []))
      ∧ ∃ status t' cs', Bptree.insert env t kv key [] = .ok (status, t', kv)
        ∧ Durable env pb p table info (t', kv) cs'
        ∧ SingleLeaf env width table info t' kv cs'
        ∧ ∀ e ∈ flat cs', e.1 = key ∨ e ∈ flat cs := by
  rcases cs with _ | ⟨q, _ | ⟨q', cs⟩⟩
  · have hwidth : width < 2 ^ 32 := by
      have := hroom.flag
      have := hroom.ends
      omega
    obtain ⟨hkeeps, t', cs', h⟩ := hs.insert_first hd hids hwidth hkey
    exact ⟨hkeeps, .ok, t', cs', h⟩
  · exact hs.insert_next hroom hd hkey
  · exact absurd hs.few (by simp)

/-- The loop of `Index::Insert` over short entries returns, and keeps what is
    stored. -/
theorem SingleLeaf.insertEntries (hroom : TwoKeysFit env width)
    (hids : info.rootNodeId ≠ info.maxTreeNodeId + 1)
    (hd : Durable env pb p table info (t, kv) cs)
    (hs : SingleLeaf env width table info t kv cs)
    {es : List (Bytes × Bytes)} (hes : ∀ e ∈ es, Slim width e) :
    KeepsCalls env (Index.inserts es) (t, kv)
      ∧ ∃ status t' cs', Index.insertEntries env es t kv
          = .ok (status, t', kv)
        ∧ Durable env pb p table info (t', kv) cs'
        ∧ SingleLeaf env width table info t' kv cs'
        ∧ ∀ e ∈ flat cs', e.1 ∈ es.map Prod.fst ∨ e ∈ flat cs := by
  induction es generalizing t cs with
  | nil => exact ⟨trivial, .ok, t, cs, rfl, hd, hs, fun e he => Or.inr he⟩
  | cons e es ih =>
      obtain ⟨⟨hkey, hvalue⟩, hrest⟩ := List.forall_mem_cons.mp hes
      obtain ⟨key, value⟩ := e
      obtain rfl : value = [] := hvalue
      obtain ⟨hkeeps, status, t₁, cs₁, hok, hd₁, hs₁, hsub₁⟩ :=
        hs.insert hroom hids hd hkey
      obtain ⟨hcalls, hloop⟩ := ih hd₁ hs₁ hrest
      refine ⟨⟨hkeeps, ?_⟩, ?_⟩
      · intro r hr
        rw [Bptree.call, hok] at hr
        cases hr
        exact hcalls
      · rw [Index.insertEntries, hok, Exec.bind_ok]
        -- a key that was there ends the loop, with one leaf still
        by_cases hst : status = .ok
        · simp only [hst, ne_eq, not_true_eq_false, if_false]
          obtain ⟨status, t', cs', hok', hd', hs', hsub⟩ := hloop
          refine ⟨status, t', cs', hok', hd', hs', ?_⟩
          intro e he
          rcases hsub e he with hin | hin
          · exact Or.inl (List.mem_cons_of_mem _ hin)
          · refine (hsub₁ e hin).imp ?_ id
            exact fun heq => heq ▸ List.mem_cons_self
        · simp only [ne_eq, hst, not_false_eq_true, if_true]
          refine ⟨status, t₁, cs₁, rfl, hd₁, hs₁, ?_⟩
          intro e he
          refine (hsub₁ e he).imp ?_ id
          exact fun heq => heq ▸ List.mem_cons_self

end Insert

/-- What an index with `N` short keys writes is not too long for its
    messages. -/
structure MessagesFit (env : Env) (info : IndexInfo) (width N : Nat) :
    Prop where
  leaf : ∀ ks vs : Bytes, ks.length ≤ (4 + width) * N → vs.length ≤ 4 * N →
    env.pb.leafNode.fits ⟨info.maxTreeNodeId + 1, ks, vs⟩
  none : env.pb.node.fits ⟨info.rootNodeId, []⟩
  root : ∀ stat : BptStatisticProto, stat.minKey.length ≤ width →
    stat.maxKey.length ≤ width → stat.count ≤ N →
    stat.nodeSize ≤ 2 * width + 20 →
    env.pb.node.fits ⟨info.rootNodeId, [⟨info.maxTreeNodeId + 1, .leaf, stat⟩]⟩

section Wire

open WireFormat

variable {limit width N : Nat} {info : IndexInfo}

/-- How long the message of a statistic gets. -/
theorem length_statisticMessage_le (m : BptStatisticProto) :
    (statisticMessage.encode m).length ≤ 2 * m.minKey.length
      + 2 * m.maxKey.length + m.count + m.nodeSize + 92 := by
  have hmin := length_encodeFields_bytesField_le 1 m.minKey
  have hmax := length_encodeFields_bytesField_le 2 m.maxKey
  have hcount := length_encodeFields_numField_le 3 m.count
  have hsize := length_encodeFields_numField_le 4 m.nodeSize
  simp only [Message.encode, statisticMessage, encodeFields_append,
    List.length_append]
  omega

/-- How long the message of a reference gets. -/
theorem length_nodeRefMessage_le (m : BptNodeRefProto) :
    (nodeRefMessage.encode m).length
      ≤ m.id + 2 * (statisticMessage.encode m.stat).length + 57 := by
  have hid := length_encodeFields_numField_le 1 m.id
  have htype := length_encodeFields_numField_le 2 m.type.num
  have hnum : m.type.num ≤ 1 := by cases m.type <;> decide
  have hstat := length_encodeField_bytes_le 3 (statisticMessage.encode m.stat)
  simp only [Message.encode, nodeRefMessage, encodeFields_append,
    encodeFields_singleton, List.length_append] at hstat ⊢
  omega

/-- In the wire format that is a bound on the numbers. -/
theorem messagesFit_wire
    (h : info.rootNodeId + 2 * info.maxTreeNodeId + (2 * width + 16) * N
      + 24 * width + 600 < 2 ^ 31) :
    MessagesFit (.wire limit) info width N := by
  have hN : 2 * ((4 + width) * N) + 2 * (4 * N) = (2 * width + 16) * N := by
    ring
  refine ⟨?_, ?_, ?_⟩
  · intro ks vs hks hvs
    have hid := length_encodeFields_numField_le 1 (info.maxTreeNodeId + 1)
    have hkeys := length_encodeFields_bytesField_le 2 ks
    have hvalues := length_encodeFields_bytesField_le 3 vs
    show (leafNodeMessage.encode _).length < 2 ^ 31
    simp only [Message.encode, leafNodeMessage, encodeFields_append,
      List.length_append]
    omega
  · have hid := length_encodeFields_numField_le 1 info.rootNodeId
    show (nodeMessage.encode _).length < 2 ^ 31
    simp only [Message.encode, nodeMessage, List.map_nil, List.append_nil]
    omega
  · intro stat hmin hmax hcount hsize
    have hid := length_encodeFields_numField_le 1 info.rootNodeId
    have hstat := length_statisticMessage_le stat
    have href := length_nodeRefMessage_le ⟨info.maxTreeNodeId + 1, .leaf, stat⟩
    have hfield := length_encodeField_bytes_le 2
      (nodeRefMessage.encode ⟨info.maxTreeNodeId + 1, .leaf, stat⟩)
    show (WireFormat.encodeFields (numField 1 info.rootNodeId ++ [⟨2, .bytes
      (nodeRefMessage.encode ⟨info.maxTreeNodeId + 1, .leaf, stat⟩)⟩])).length
        < 2 ^ 31
    rw [encodeFields_append, encodeFields_singleton, List.length_append]
    simp only at href
    omega

end Wire

section Save

variable {env : Env} {pb : SchemaProtobuf} {p : Place} {table : TableInfo}
  {info : IndexInfo} {index : Index} {width N : Nat} {t : Bptree}
  {kv kv' : KvStorage} {cs : Contents}

/-- How long a string of items gets. -/
theorem length_lengthPrefixed_le {f : Bytes × Bytes → Bytes} {b : Nat}
    {es : List (Bytes × Bytes)} (h : ∀ e ∈ es, (f e).length ≤ b) :
    (es.flatMap (fun e => lengthPrefixed (f e))).length
      ≤ (4 + b) * es.length := by
  induction es with
  | nil => exact Nat.zero_le _
  | cons e es ih =>
      obtain ⟨he, hes⟩ := List.forall_mem_cons.mp h
      have hrest := ih hes
      rw [List.flatMap_cons, List.length_append, List.length_cons,
        length_lengthPrefixed, Nat.mul_add]
      omega

/-- What waits to be saved fits its message. -/
theorem SingleLeaf.savesFit (hfit : MessagesFit env info width N)
    (hd : Durable env pb p table info (t, kv) cs)
    (hs : SingleLeaf env width table info t kv cs)
    (hN : (flat cs).length ≤ N) : SavesFit env t := by
  have hw : WellFormed env t kv cs := hd.wellFormed
  have hl : Linked t (cs.map Prod.fst) := hw.linked
  have hrootId : (t.node t.root).id = info.rootNodeId := hd.intact.rootId
  intro e he
  rcases List.mem_cons.mp (hd.tracked.live e he).1 with hroot | hleaf
  · rw [FitsMessage, hroot, if_neg (by rw [hl.root_inner]; decide), nodeProto,
      hrootId, hl.children]
    rcases cs with _ | ⟨q, _ | ⟨q', cs⟩⟩
    · exact hfit.none
    · obtain ⟨hid, hcount, hsize⟩ := hs.leaf q List.mem_cons_self
      have hh := hw.leaves q List.mem_cons_self
      have hshort : ∀ k ∈ q.2, k.length ≤ width := by
        rintro k ⟨e, he, rfl⟩
        exact (hs.short e (by simpa using he)).1
      have hmin := hshort _ hh.min.1
      have hmax := hshort _ hh.max.1
      have hq : refProto (t.node q.1) = ⟨info.maxTreeNodeId + 1, .leaf,
          ⟨(t.node q.1).stat.minKey, (t.node q.1).stat.maxKey,
            (t.node q.1).stat.count, (t.node q.1).stat.nodeSize⟩⟩ := by
        rw [refProto, hid, if_pos (hl.leaf _ List.mem_cons_self).isLeaf]
      rw [List.map_singleton, List.map_singleton, hq]
      refine hfit.root _ hmin hmax ?_ ?_
      · rw [flat_cons, flat_nil, List.append_nil] at hN
        rw [hcount]
        exact hN
      · rw [Measured] at hsize
        show (t.node q.1).stat.nodeSize ≤ _
        omega
    · exact absurd hs.few (by simp)
  · obtain ⟨q, hq, heq⟩ := List.mem_map.mp hleaf
    obtain ⟨hid, -, -⟩ := hs.leaf q hq
    rw [← heq, FitsMessage, if_pos (hl.leaf _ (List.mem_map_of_mem hq)).isLeaf,
      BptNode.leafProto_eq, hid]
    -- the leaf holds its entries, or nothing yet
    obtain ⟨hshort, hlen⟩ : (∀ e ∈ (t.node q.1).kvs.entries, Slim width e)
        ∧ (t.node q.1).kvs.entries.length ≤ N := by
      have hsub : ∀ e ∈ q.2.entries, e ∈ flat cs :=
        fun e he => List.mem_flatMap.mpr ⟨q, hq, he⟩
      rcases (hw.leaves q hq).kvs with hkvs | ⟨hnil, -⟩
      · rw [hkvs]
        refine ⟨fun e he => hs.short e (hsub e he), ?_⟩
        refine le_trans (List.Sublist.length_le ?_) hN
        rcases cs with _ | ⟨q', _ | ⟨q'', cs⟩⟩
        · exact absurd hq List.not_mem_nil
        · rw [List.mem_singleton.mp hq, flat_cons, flat_nil, List.append_nil]
        · exact absurd hs.few (by simp)
      · rw [hnil]
        exact ⟨List.forall_mem_nil _, Nat.zero_le _⟩
    have hks := @length_lengthPrefixed_le Prod.fst width
      (t.node q.1).kvs.entries (fun e he => (hshort e he).1)
    have hvs := @length_lengthPrefixed_le Prod.snd 0 (t.node q.1).kvs.entries
      (fun e he => by rw [(hshort e he).2]; exact Nat.zero_le _)
    exact hfit.leaf _ _ (le_trans hks (Nat.mul_le_mul_left _ hlen))
      (le_trans hvs (Nat.mul_le_mul_left _ hlen))

/-- A save keeps the leaf, and writes its reference as it is. -/
theorem SingleLeaf.saved (hids : info.rootNodeId ≠ info.maxTreeNodeId + 1)
    (hd : Durable env pb p table info (t, kv) cs)
    (hs : SingleLeaf env width table info t kv cs) (hfits : SavesFit env t)
    (walk : Walk (Nat × Addr)) :
    SingleLeaf env width table info (Session.saved env walk (t, kv)).1
      (Session.saved env walk (t, kv)).2 cs := by
  obtain ⟨hd', -, hc⟩ := hd.saved hfits walk
  rw [hd.saved_eq walk] at hd' hc ⊢
  have hl : Linked t (cs.map Prod.fst) := hd.wellFormed.linked
  have hrootId : (t.node t.root).id = info.rootNodeId := hd.intact.rootId
  refine ⟨hs.few, hs.short, hs.leaf, ?_, ?_, Or.inr ?_⟩
  · intro q hq
    exact fresh_of_allCopied hd'.wellFormed hc (List.mem_map_of_mem hq)
  · intro hnil
    obtain ⟨hid, hempty⟩ := hs.first hnil
    refine ⟨hid, (dumped_of_ne ?_).trans hempty⟩
    intro e he hkey
    obtain ⟨hlive, hei⟩ := hd.tracked.live e he
    have hroot : e.2 = t.root := by
      rw [hnil] at hlive
      exact List.mem_singleton.mp hlive
    have hkey : info.maxTreeNodeId + 1 = e.1 := (nodeKey_inj t).mp hkey
    rw [hei, hroot] at hkey
    exact hids (hrootId.symm.trans hkey.symm)
  · by_cases hwaits : ((t.node t.root).id, t.root) ∈ t.treeCtx.unsavedNodes
    · rw [openedRefs, hd.rootKey, hd.tracked.dumped_live hwaits]
      exact storedRefs_root_of_fits hl (hfits _ hwaits)
    · have hrefs := hs.refs.resolve_left hwaits
      rw [openedRefs, hd.rootKey] at hrefs ⊢
      rw [hd.tracked.dumped_other List.mem_cons_self hwaits]
      exact hrefs

/-- A new tree has the leaf that was saved. -/
theorem SingleLeaf.opened (hd : Durable env pb p table info (t, kv) cs)
    (hs : SingleLeaf env width table info t kv cs)
    (hc : AllCopied env t kv cs) (hsaved : t.treeCtx.unsavedNodes = [])
    (hnew : Index.new env kv table info = .ok (index, kv')) :
    kv' = kv ∧ ∃ cs', Durable env pb p table info (index.bptree, kv) cs'
      ∧ SingleLeaf env width table info index.bptree kv cs'
      ∧ index.bptree.treeCtx.unsavedNodes = []
      ∧ AllCopied env index.bptree kv cs' ∧ flat cs' = flat cs := by
  obtain ⟨rfl, cs', hd', hsaved', hc', hflat⟩ := hd.opened hc hsaved hnew
  refine ⟨rfl, cs', hd', ?_, hsaved', hc', hflat⟩
  obtain ⟨-, htree⟩ := new_reliable hd.reliable hnew
  have hl : Linked t (cs.map Prod.fst) := hd.wellFormed.linked
  have hrefs : openedRefs env kv' table info
      = cs.map (fun q => refProto (t.node q.1)) := by
    refine hs.refs.resolve_left ?_
    rw [hsaved]
    exact List.not_mem_nil
  rw [hrefs] at htree
  -- the root that was stored refers to the leaf
  have ho : Opened index.bptree table info
      (cs.map (fun q => refProto (t.node q.1))) := by
    rw [htree]
    refine opened_addRefs ?_
    intro r hr
    obtain ⟨q, hq, rfl⟩ := List.mem_map.mp hr
    exact if_pos (hl.leaf _ (List.mem_map_of_mem hq)).isLeaf
  have hmap : cs'.map Prod.fst = List.range' 1 cs.length := by
    rw [← List.length_map (fun q => refProto (t.node q.1)),
      ← ho.linked.children]
    exact hd'.wellFormed.linked.children.symm
  have hfresh : ∀ q ∈ cs', Fresh env index.bptree kv' q.1 :=
    fun q hq => fresh_of_allCopied hd'.wellFormed hc' (List.mem_map_of_mem hq)
  rcases cs with _ | ⟨q, _ | ⟨q', cs⟩⟩
  · -- a root without a leaf
    obtain rfl := List.map_eq_nil_iff.mp hmap
    obtain ⟨-, hempty⟩ := hs.first rfl
    refine ⟨hs.few, hs.short, List.forall_mem_nil _, hfresh, ?_, Or.inr hrefs⟩
    intro _
    refine ⟨ho.ctx.1, ?_⟩
    rw [nodeKey, ho.schema, ← hd.intact.schema]
    exact hempty
  · obtain ⟨⟨a, c⟩, rfl, ha⟩ := List.map_eq_singleton_iff.mp hmap
    obtain rfl : a = 1 := ha
    -- one leaf, with the id and the statistic of its reference
    have hnode : index.bptree.node 1 = nodeOfRef 0 (refProto (t.node q.1)) :=
      ho.leaves 0 _ rfl
    obtain ⟨hid, hcount, hsize⟩ := hs.leaf q List.mem_cons_self
    refine ⟨Nat.le_refl 1, ?_, ?_, hfresh, by rintro ⟨⟩, Or.inr ?_⟩
    · rw [hflat]
      exact hs.short
    · intro x hx
      rw [List.mem_singleton.mp hx, hnode]
      refine ⟨hid, ?_, hsize⟩
      have hlen := congrArg List.length hflat
      simp only [flat_cons, flat_nil, List.append_nil] at hlen
      exact hcount.trans hlen.symm
    · have hleaf := (hl.leaf _ List.mem_cons_self).isLeaf
      rw [hrefs, List.map_singleton, List.map_singleton, hnode]
      simp [refProto, nodeOfRef, hleaf]
  · exact absurd hs.few (by simp)

/-- Only the nodes of the index count. -/
theorem SingleLeaf.congr (hs : SingleLeaf env width table info t kv cs)
    (hschema : t.treeCtx.schema = treeSchema table info)
    (hnodes : ∀ nodeId, kv'.data (.treeNode table.dbId table.id info.id nodeId)
      = kv.data (.treeNode table.dbId table.id info.id nodeId)) :
    SingleLeaf env width table info t kv' cs := by
  have hkey : ∀ nodeId, kv'.data (t.nodeKey nodeId)
      = kv.data (t.nodeKey nodeId) := by
    intro nodeId
    rw [nodeKey, hschema]
    exact hnodes nodeId
  refine ⟨hs.few, hs.short, hs.leaf, ?_, ?_, ?_⟩
  · intro q hq
    obtain ⟨es, hes, hsub⟩ := hs.fresh q hq
    refine ⟨es, ?_, hsub⟩
    rw [reread, stored, hkey]
    exact hes
  · intro hnil
    rw [hkey]
    exact hs.first hnil
  · have hrefs : openedRefs env kv' table info
        = openedRefs env kv table info := by
      rw [openedRefs, openedRefs, rootKey, hnodes]
    rw [hrefs]
    exact hs.refs

/-- A tree of which nothing is stored. -/
theorem singleLeaf_empty
    (hnone : ∀ nodeId,
      kv.data (.treeNode table.dbId table.id info.id nodeId) = none) :
    SingleLeaf env width table info (Index.emptyTree table info) kv [] := by
  refine ⟨Nat.zero_le 1, List.forall_mem_nil _, List.forall_mem_nil _,
    List.forall_mem_nil _, fun _ => ⟨rfl, hnone _⟩, Or.inr ?_⟩
  rw [openedRefs, rootKey, hnone]
  rfl

end Save

end AmDb.Storage
