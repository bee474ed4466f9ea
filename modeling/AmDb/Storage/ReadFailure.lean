import AmDb.Storage.Index

/-! # Readers of the store

    What the callers of `GetKV` make of a read that fails.  Each looks at other
    statuses before it decodes the value. -/

namespace AmDb.Storage

open Codec AmDb.Schema OrderedMap

/-- A call that reads one record. -/
inductive Reader where
  | databaseIdByName (dbName : Bytes)
  | tableIdByName (dbId : Nat) (tableName : Bytes)
  | databaseMeta (dbId : Nat)
  | tableMeta (dbId tableId : Nat)
  | treeNode (t : Bptree) (nodeId : Nat) (node : Addr)
  | index (table : TableInfo) (index : IndexInfo)

/-- The key of an index's root. -/
def rootKey (table : TableInfo) (index : IndexInfo) : StoreKey :=
  .treeNode table.dbId table.id index.id index.rootNodeId

/-- A stored root was taken for an empty one, and once the store works again any
    insert and a save write a root over one leaf in its place. -/
def LosesRoot (env : Env) (kv : KvStorage) (table : TableInfo)
    (index : IndexInfo) : Prop :=
  (kv.data (rootKey table index)).isSome ∧ ∃ ix kv₁,
    Index.new env kv table index = .ok (ix, kv₁)
      ∧ (ix.bptree.node ix.bptree.root).children = []
      ∧ ∀ key value walk, ∃ t leaf,
        ix.bptree.insert env kv₁.healed key value = .ok (.ok, t, kv₁.healed)
          ∧ (t.node t.root).children = [leaf]
          ∧ (t.node leaf).kvs.entries = [(key, value)]
          ∧ (Index.save env walk { ix with bptree := t } kv₁.healed).2.2.data
              (rootKey table index) = some (t.serialize env t.root)

/-- The call answers a failing read with an error and leaves its output as it
    was; of a constructor, that the failure costs no stored tree. -/
def Reader.Reports (env : Env) (pb : SchemaProtobuf) (kv : KvStorage) :
    Reader → Prop
  | .databaseIdByName dbName => ∀ init, ∃ status kv',
      Metadata.loadDatabaseIdByName kv dbName init = .ok (status, init, kv')
        ∧ status ≠ .ok
  | .tableIdByName dbId tableName => ∀ init, ∃ status kv',
      Metadata.loadTableIdByName kv dbId tableName init
          = .ok (status, init, kv')
        ∧ status ≠ .ok
  | .databaseMeta dbId => ∃ status kv',
      Metadata.loadDatabaseMeta pb kv dbId = (status, {}, kv') ∧ status ≠ .ok
  | .tableMeta dbId tableId => ∃ status kv',
      Metadata.loadTableMeta pb kv dbId tableId = (status, {}, kv')
        ∧ status ≠ .ok
  | .treeNode t nodeId node => ∃ status kv',
      t.loadTreeNode env kv nodeId node = .ok (status, t, kv') ∧ status ≠ .ok
  | .index table info => ¬ LosesRoot env kv table info

/-- The call looks at every status of its read, or there is nothing to lose. -/
def Reader.Checked (kv : KvStorage) : Reader → Prop
  | .databaseMeta _ => True
  | .treeNode _ _ _ => True
  | .index table info => kv.data (rootKey table info) = none
  | _ => False

section Failing

variable {env : Env} {pb : SchemaProtobuf} {kv : KvStorage}

/-- An empty root saved with its first leaf: whatever else is collected, under
    the root's id it is the root. -/
theorem empty_tree_saved {t : Bptree} (h : Bptree.Linked t []) (hkv : kv.Reliable)
    (key value : Bytes) :
    ∃ t' leaf, t.insert env kv key value = .ok (.ok, t', kv)
      ∧ (t'.node t'.root).children = [leaf]
      ∧ (t'.node leaf).kvs.entries = [(key, value)]
      ∧ ∀ es, es.Perm t'.treeCtx.unsavedNodes →
        (t'.pullInOrder env es kv).2.data (t.nodeKey (t.node t.root).id)
          = some (t'.serialize env t'.root) := by
  obtain ⟨t', rootNode, stat, hins, hl, hi, hroot, -⟩ :=
    Bptree.insert_nil_installed h env kv key value
  refine ⟨t', _, hins, hl.children, ?_, ?_⟩
  · rw [hi.nodes _ (Nat.ne_of_gt h.root_lt), Bptree.overlay_cons_self]
    rw [BptNode.kvs_updateStatByAddKV]
    rfl
  · intro es hes
    have hkey : t.nodeKey (t.node t.root).id
        = t'.nodeKey (t.node t.root).id := by
      rw [Bptree.nodeKey, Bptree.nodeKey, hi.schema]
    have hmem : ((t.node t.root).id, t.root) ∈ es := by
      rw [hes.mem_iff, hi.unsaved]
      exact Bptree.mem_collectEntry.mpr (Or.inl rfl)
    rw [Bptree.pullInOrder_reliable hkv, hkey, hi.root]
    refine Bptree.dumped_of_mem hmem ?_
    intro x hx hid
    rw [hes.mem_iff, hi.unsaved] at hx
    rcases Bptree.mem_collectEntry.mp hx with rfl | ⟨-, hne⟩
    · rfl
    · exact absurd hid hne

/-- A failed read loses a root that is stored. -/
theorem losesRoot_iff (h : kv.tick.1 = true) (table : TableInfo)
    (index : IndexInfo) :
    LosesRoot env kv table index ↔ kv.data (rootKey table index) ≠ none := by
  rw [LosesRoot, Option.isSome_iff_ne_none, and_iff_left]
  refine ⟨_, _, Index.new_of_failed h, rfl, ?_⟩
  intro key value walk
  obtain ⟨t, leaf, hins, hchildren, hkvs, hsave⟩ := @empty_tree_saved env
    kv.tick.2.healed (Index.emptyTree table index)
    (Bptree.Linked.ofProto_empty _ _) (KvStorage.reliable_healed _) key value
  exact ⟨t, leaf, hins, hchildren, hkvs, hsave _ (walk.perm _)⟩

/-- Of the readers, those that look at every status report a failing read; the
    others go on to decode the empty string, or take a root that they could not
    read for an empty one. -/
theorem reports_iff (hnil : pb.table.parseFromString []
      = some ⟨0, [], 0, [], [], [], 0, 0⟩)
    (h : kv.tick.1 = true) (r : Reader) :
    r.Reports env pb kv ↔ r.Checked kv := by
  -- one case for each reader: does it look at the status?
  have hget := fun key => KvStorage.getKV_of_failed h key
  cases r with
  | databaseIdByName dbName =>
      refine iff_of_false ?_ id
      intro hr
      obtain ⟨status, kv', hload, -⟩ := hr 0
      rw [Metadata.loadDatabaseIdByName, hget] at hload
      cases hload
  | tableIdByName dbId tableName =>
      refine iff_of_false ?_ id
      intro hr
      obtain ⟨status, kv', hload, -⟩ := hr 0
      rw [Metadata.loadTableIdByName, hget] at hload
      cases hload
  | databaseMeta dbId =>
      refine iff_of_true ⟨.storageError, kv.tick.2, ?_, by decide⟩ trivial
      rw [Metadata.loadDatabaseMeta, hget]
      rfl
  | tableMeta dbId tableId =>
      refine iff_of_false ?_ id
      rintro ⟨status, kv', hload, hne⟩
      rw [Metadata.loadTableMeta, hget] at hload
      simp only [hnil] at hload
      exact hne (Prod.mk.inj hload).1.symm
  | treeNode t nodeId node =>
      refine iff_of_true ⟨.storageError, kv.tick.2, ?_, by decide⟩ trivial
      rw [Bptree.loadTreeNode, hget]
  | index table index =>
      show ¬ LosesRoot env kv table index ↔ _
      rw [losesRoot_iff h, not_not]
      rfl

/-- A store whose next call fails. -/
def failingOnce : KvStorage := { data := fun _ => none, faults := [true] }

theorem reports_iff_database :
    (Reader.databaseMeta 1).Reports (.wire 4096) .wire failingOnce :=
  (reports_iff rfl rfl _).mpr trivial

/-- A table that cannot be read is an empty table. -/
theorem failing_read_is_empty_table :
    (∃ info, Metadata.loadTableMeta .wire failingOnce 1 7
          = (.ok, info, ⟨fun _ => none, []⟩)
        ∧ info.columnList = [] ∧ info.indexList = [])
      ∧ ¬ ∀ r, Reader.Reports (.wire 4096) .wire failingOnce r := by
  refine ⟨⟨_, rfl, rfl, rfl⟩, ?_⟩
  intro h
  obtain ⟨status, kv', hload, hne⟩ := h (.tableMeta 1 7)
  exact hne (congrArg Prod.fst hload).symm

end Failing

end AmDb.Storage
