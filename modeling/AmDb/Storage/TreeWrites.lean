import AmDb.Storage.IteratorFrame
import AmDb.Storage.Session
import AmDb.Storage.TableFrame
import AmDb.Storage.TwoLevel

/-! # What a tree call writes

    A call on a tree only reads the store, and leaves the tree under the key
    prefix it was made for.  This holds of every tree and every store. -/

namespace AmDb.Storage

open Codec

namespace Bptree

section Schema

variable {env : Env} {t t' : Bptree} {kv kv' : KvStorage} {status : Status}
  {a b : Addr} {key value : Bytes}

/-- The two trees have one key prefix. -/
def SameSchema (t t' : Bptree) : Prop :=
  t'.treeCtx.schema = t.treeCtx.schema

theorem SameSchema.trans {t₁ t₂ t₃ : Bptree} (h : SameSchema t₁ t₂)
    (h' : SameSchema t₂ t₃) : SameSchema t₁ t₃ :=
  Eq.trans h' h

theorem sameSchema_addRefs (t : Bptree) (a : Addr)
    (protos : List BptNodeRefProto) : SameSchema t (t.addRefs a protos) := by
  induction protos generalizing t with
  | nil => rfl
  | cons proto protos ih => exact SameSchema.trans rfl (ih _)

theorem sameSchema_moveChildren (t : Bptree) (right : Addr) (cs : List Addr) :
    SameSchema t (t.moveChildren right cs) := by
  induction cs generalizing t with
  | nil => rfl
  | cons c cs ih => exact SameSchema.trans rfl (ih _)

theorem sameSchema_delChild (t : Bptree) (a child : Addr) :
    SameSchema t (t.delChild a child) := by
  rw [delChild]
  split <;> rfl

/-- A change of a statistic keeps the schema. -/
theorem sameSchema_updateStatByRangeChange {isAdd : Bool}
    (h : t.updateStatByRangeChange a isAdd = .ok t') : SameSchema t t' := by
  rw [updateStatByRangeChange] at h
  split at h
  · cases h
    rfl
  · cases h

/-- A split keeps the schema. -/
theorem sameSchema_split (h : t.split a = .ok (b, t')) : SameSchema t t' := by
  rw [Bptree.split] at h
  simp only at h
  split at h
  · obtain ⟨⟨left, right⟩, -, h⟩ := Exec.bind_eq_ok.mp h
    cases h
    rfl
  · split at h
    · cases h
      exact SameSchema.trans rfl (sameSchema_moveChildren _ _ _)
    · cases h

theorem sameSchema_deserialize {input : Bytes}
    (h : t.deserialize env a input = .ok t') : SameSchema t t' := by
  rw [deserialize] at h
  split at h
  · obtain ⟨n, -, h⟩ := Exec.bind_eq_ok.mp h
    cases h
    rfl
  · split at h
    · cases h
    · cases h
      exact sameSchema_addRefs _ _ _

/-- Loading a node keeps the schema. -/
theorem sameSchema_loadTreeNode {nodeId : Nat}
    (h : t.loadTreeNode env kv nodeId a = .ok (status, t', kv')) :
    SameSchema t t' := by
  rw [loadTreeNode] at h
  split at h
  · obtain ⟨t₁, hdes, h⟩ := Exec.bind_eq_ok.mp h
    cases h
    exact sameSchema_deserialize hdes
  · cases h
    rfl

end Schema

section Calls

variable {env : Env} {t t' : Bptree} {kv kv' : KvStorage} {status : Status}
  {key value : Bytes} {d : Descent} {fuel : Nat} {cursor : Addr}
  {path : List Addr}

/-- The search for the place of a key reads, and leaves the prefix alone. -/
theorem descendInsert_reads
    (h : descendInsert env key fuel t kv cursor path = .ok (d, t', kv')) :
    OnlyRead kv kv' ∧ SameSchema t t' := by
  induction fuel generalizing t kv cursor path with
  | zero =>
      rw [descendInsert] at h
      split at h <;> cases h
      exact ⟨.refl _, rfl⟩
  | succ fuel ih =>
      rw [descendInsert] at h
      split at h
      · cases h
        exact ⟨.refl _, rfl⟩
      · split at h
        · obtain ⟨hread, hrest⟩ := ih h
          exact ⟨hread, SameSchema.trans rfl hrest⟩
        · obtain ⟨⟨s, t₁, kv₁⟩, hload, h⟩ := Exec.bind_eq_ok.mp h
          have hsame := sameSchema_loadTreeNode hload
          have hread : OnlyRead kv kv₁ := Bptree.load_onlyRead hload
          simp only at h
          split at h
          · obtain ⟨hread', hrest⟩ := ih h
            exact ⟨hread.trans hread', hsame.trans hrest⟩
          · cases h
            exact ⟨hread, hsame⟩

/-- A round of the loop of `Insert`, behind the statistics. -/
def splitOrCollect (env : Env) (key value : Bytes) (cursor : Addr)
    (path : List Addr) (t : Bptree) : Exec Bptree :=
  if (t.node cursor).needSplit env.bptreeMaxNodeSize then do
    let (newNode, t) ← t.split cursor
    let t := t.collectUnsavedTreeNode newNode
    let t := t.collectUnsavedTreeNode cursor
    if (t.node cursor).isRoot then
      let (root, t) := t.newRoot cursor newNode
      let t := { t with root }
      insertUnwind env key value path (t.collectUnsavedTreeNode root)
    else
      match (t.node cursor).parent with
      | none => .error .undefined
      | some parent =>
          insertUnwind env key value path (t.addChild parent newNode)
  else
    insertUnwind env key value path (t.collectUnsavedTreeNode cursor)

/-- One round of the way up. -/
theorem insertUnwind_cons (env : Env) (key value : Bytes) (cursor : Addr)
    (path : List Addr) (t : Bptree) :
    insertUnwind env key value (cursor :: path) t
      = (if (t.node cursor).isLeaf then
          .ok (t.setNode cursor ((t.node cursor).updateStatByAddKV key value))
        else t.updateStatByRangeChange cursor true)
        >>= splitOrCollect env key value cursor path := by
  rw [insertUnwind]
  split <;> rfl

/-- The way up of an insert keeps the schema. -/
theorem sameSchema_insertUnwind
    (h : insertUnwind env key value path t = .ok t') : SameSchema t t' := by
  induction path generalizing t with
  | nil =>
      cases h
      rfl
  | cons cursor path ih =>
      rw [insertUnwind_cons] at h
      obtain ⟨t₁, hstat, h⟩ := Exec.bind_eq_ok.mp h
      have h₁ : SameSchema t t₁ := by
        split at hstat
        · cases hstat
          rfl
        · exact sameSchema_updateStatByRangeChange hstat
      refine h₁.trans ?_
      rw [splitOrCollect] at h
      split at h
      · obtain ⟨⟨r, t₂⟩, hsplit, h⟩ := Exec.bind_eq_ok.mp h
        have h₂ := sameSchema_split hsplit
        simp only at h
        -- the root has no parent to go on with
        split at h
        · have hrest := ih h
          exact h₂.trans (SameSchema.trans rfl hrest)
        · split at h
          · cases h
          · have hrest := ih h
            exact h₂.trans (SameSchema.trans rfl hrest)
      · have hrest := ih h
        exact SameSchema.trans rfl hrest

/-- `Insert` reads the store, and leaves the prefix alone. -/
theorem insert_reads
    (h : insert env t kv key value = .ok (status, t', kv')) :
    OnlyRead kv kv' ∧ SameSchema t t' := by
  obtain ⟨⟨d, t₁, kv₁⟩, hdescend, h⟩ := Exec.bind_eq_ok.mp h
  obtain ⟨hread, h₁⟩ := descendInsert_reads hdescend
  cases d with
  | ret s =>
      cases h
      exact ⟨hread, h₁⟩
  | leaf path =>
      cases path with
      | nil => cases h
      | cons top path =>
          obtain ⟨⟨s, n⟩, -, h⟩ := Exec.bind_eq_ok.mp h
          simp only at h
          split at h
          · obtain ⟨t₂, hunwind, h⟩ := Exec.bind_eq_ok.mp h
            have hrest := sameSchema_insertUnwind hunwind
            cases h
            exact ⟨hread, h₁.trans (SameSchema.trans rfl hrest)⟩
          · cases h
            exact ⟨hread, h₁⟩

/-- The search for a key reads, and leaves the prefix alone. -/
theorem descendFind_reads {missing : Status}
    (h : descendFind env key missing fuel t kv cursor path
      = .ok (d, t', kv')) : OnlyRead kv kv' ∧ SameSchema t t' := by
  induction fuel generalizing t kv cursor path with
  | zero =>
      rw [descendFind] at h
      split at h <;> cases h
      exact ⟨.refl _, rfl⟩
  | succ fuel ih =>
      rw [descendFind] at h
      split at h
      · cases h
        exact ⟨.refl _, rfl⟩
      · split at h
        · cases h
          exact ⟨.refl _, rfl⟩
        · obtain ⟨⟨s, t₁, kv₁⟩, hload, h⟩ := Exec.bind_eq_ok.mp h
          have hsame := sameSchema_loadTreeNode hload
          have hread : OnlyRead kv kv₁ := Bptree.load_onlyRead hload
          simp only at h
          split at h
          · obtain ⟨hread', hrest⟩ := ih h
            exact ⟨hread.trans hread', hsame.trans hrest⟩
          · cases h
            exact ⟨hread, hsame⟩

/-- The statistics of a node on the way back from a removal. -/
def statAfterDelete (key : Bytes) (cursor : Addr) (t : Bptree) :
    Exec Bptree :=
  if (t.node cursor).isLeaf then do
    let n ← (t.node cursor).updateStatByDelKV key
    .ok (t.setNode cursor n)
  else if (t.node cursor).isRoot && (t.node cursor).isEmpty then
    .ok (t.setNode cursor (t.node cursor).resetStat)
  else
    t.updateStatByRangeChange cursor false

/-- A node that is kept is collected. -/
theorem deleteUnwind_kept {cursor : Addr} (t : Bptree)
    (hkeep : (!(t.node cursor).isRoot && (t.node cursor).isEmpty) = false) :
    deleteUnwind key (cursor :: path) t
      = statAfterDelete key cursor t >>= fun t =>
          deleteUnwind key path (t.collectUnsavedTreeNode cursor) := by
  rw [deleteUnwind, statAfterDelete]
  simp only [hkeep, Bool.false_eq_true, if_false]
  split
  · cases (t.node cursor).updateStatByDelKV key <;> rfl
  · split <;> rfl

theorem sameSchema_statAfterDelete {cursor : Addr}
    (h : statAfterDelete key cursor t = .ok t') : SameSchema t t' := by
  rw [statAfterDelete] at h
  split at h
  · obtain ⟨n, -, h⟩ := Exec.bind_eq_ok.mp h
    cases h
    rfl
  · split at h
    · cases h
      rfl
    · exact sameSchema_updateStatByRangeChange h

/-- The way up of a delete keeps the schema. -/
theorem sameSchema_deleteUnwind
    (h : deleteUnwind key path t = .ok t') : SameSchema t t' := by
  induction path generalizing t with
  | nil =>
      cases h
      rfl
  | cons cursor path ih =>
      cases hkeep : !(t.node cursor).isRoot && (t.node cursor).isEmpty with
      | true =>
          rw [deleteUnwind] at h
          simp only [hkeep, if_true] at h
          split at h
          · cases h
          · have hrest := ih h
            exact (sameSchema_delChild (t.removeUnsavedTreeNode cursor) _
              cursor).trans hrest
      | false =>
          rw [deleteUnwind_kept t hkeep] at h
          obtain ⟨t₁, hstat, h⟩ := Exec.bind_eq_ok.mp h
          have hrest := ih h
          exact (sameSchema_statAfterDelete hstat).trans
            (SameSchema.trans rfl hrest)

/-- `Delete` reads the store, and leaves the prefix alone. -/
theorem delete_reads (h : delete env t kv key = .ok (status, t', kv')) :
    OnlyRead kv kv' ∧ SameSchema t t' := by
  obtain ⟨⟨d, t₁, kv₁⟩, hdescend, h⟩ := Exec.bind_eq_ok.mp h
  obtain ⟨hread, h₁⟩ := descendFind_reads hdescend
  cases d with
  | ret s =>
      cases h
      exact ⟨hread, h₁⟩
  | leaf path =>
      cases path with
      | nil => cases h
      | cons top path =>
          obtain ⟨⟨s, n⟩, -, h⟩ := Exec.bind_eq_ok.mp h
          simp only at h
          split at h
          · obtain ⟨t₂, hunwind, h⟩ := Exec.bind_eq_ok.mp h
            have hrest := sameSchema_deleteUnwind hunwind
            cases h
            exact ⟨hread, h₁.trans (SameSchema.trans rfl hrest)⟩
          · cases h
            exact ⟨hread, h₁⟩

/-- A save writes nodes of its tree. -/
theorem pullInOrder_elsewhere (es : List (Nat × Addr)) {k : StoreKey}
    (hk : ∀ nodeId, k ≠ t.nodeKey nodeId) :
    (t.pullInOrder env es kv).2.data k = kv.data k := by
  rw [pullInOrder_snd]
  rcases @dumpNodes_data env t kv es k with hsame | ⟨e, -, heq, -⟩
  · exact hsame
  · exact absurd heq (hk e.1)

/-- A save uses up answers of the script. -/
theorem pullInOrder_faults (es : List (Nat × Addr)) :
    ∃ n, (t.pullInOrder env es kv).2.faults = kv.faults.drop n := by
  rw [pullInOrder_snd]
  induction es generalizing kv with
  | nil => exact ⟨0, rfl⟩
  | cons e es ih =>
      rw [dumpNodes, dumpTreeNode, KvStorage.putKV, KvStorage.tick_eq]
      cases kv.fails 0 with
      | true => exact ⟨1, rfl⟩
      | false =>
          obtain ⟨n, hn⟩ := @ih
            ((kv.skip 1).written (t.nodeKey e.1) (t.serialize env e.2))
          exact ⟨1 + n, hn.trans List.drop_drop⟩

/-- A save keeps the schema. -/
theorem sameSchema_pullInOrder (es : List (Nat × Addr)) :
    SameSchema t (t.pullInOrder env es kv).1 := by
  rcases @pullInOrder_fst env t kv es with h | h <;> rw [h]
  · rfl
  · rfl

end Calls

end Bptree

end AmDb.Storage
