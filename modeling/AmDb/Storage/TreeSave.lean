import AmDb.Storage.TreeSpec

/-! # Saving a tree

    `PullUnsavedTreeNode` on a store that never fails writes every collected
    node under its id.  `Tracked` says that no two nodes of a tree share an id;
    then a save writes each node's own bytes.  `Apart` says that it spares the
    leaves that were never read, and `Backed` what the stored copies are good
    for. -/

namespace AmDb.Storage

open Codec OrderedMap

namespace Bptree

/-- The store after some nodes were dumped. -/
def dumped (env : Env) (t : Bptree) (es : List (Nat × Addr))
    (kv : KvStorage) : KvStorage :=
  es.foldl (fun kv e => kv.written (t.nodeKey e.1) (t.serialize env e.2)) kv

/-- The tree after a save. -/
def saved (t : Bptree) : Bptree :=
  { t with treeCtx := { t.treeCtx with unsavedNodes := [] } }

@[simp] theorem node_saved (t : Bptree) (a : Addr) :
    t.saved.node a = t.node a := rfl

@[simp] theorem root_saved (t : Bptree) : t.saved.root = t.root := rfl

@[simp] theorem arena_saved (t : Bptree) : t.saved.arena = t.arena := rfl

@[simp] theorem id_saved (t : Bptree) : t.saved.treeCtx.id = t.treeCtx.id := rfl

@[simp] theorem schema_saved (t : Bptree) :
    t.saved.treeCtx.schema = t.treeCtx.schema := rfl

@[simp] theorem unsaved_saved (t : Bptree) :
    t.saved.treeCtx.unsavedNodes = [] := rfl

@[simp] theorem nodeKey_inj (t : Bptree) {i j : Nat} :
    t.nodeKey i = t.nodeKey j ↔ i = j := by
  simp [nodeKey]

section Dump

variable {env : Env} {t : Bptree} {kv : KvStorage} {es : List (Nat × Addr)}

theorem reliable_dumped (hkv : kv.Reliable) : (t.dumped env es kv).Reliable := by
  induction es generalizing kv with
  | nil => exact hkv
  | cons e es ih => exact ih (hkv.written _ _)

/-- A store that never fails takes every node. -/
theorem dumpNodes_reliable (hkv : kv.Reliable) :
    t.dumpNodes env es kv = (.ok, t.dumped env es kv) := by
  induction es generalizing kv with
  | nil => rfl
  | cons e es ih =>
      rw [dumpNodes, dumpTreeNode, KvStorage.putKV_reliable hkv]
      exact ih (hkv.written _ _)

/-- A store that never fails takes every unsaved node. -/
theorem pull_reliable (hkv : kv.Reliable) :
    t.pullUnsavedTreeNode env kv
      = (t.saved, t.dumped env t.treeCtx.unsavedNodes kv) := by
  rw [pullUnsavedTreeNode, dumpNodes_reliable hkv]
  rfl

/-- A save writes nothing but the keys of the collected nodes. -/
theorem dumped_of_ne {key : StoreKey} (h : ∀ e ∈ es, key ≠ t.nodeKey e.1) :
    (t.dumped env es kv).data key = kv.data key := by
  induction es generalizing kv with
  | nil => rfl
  | cons e es ih =>
      rw [dumped, List.foldl_cons]
      refine (ih (fun x hx => h x (List.mem_cons_of_mem _ hx))).trans ?_
      exact KvStorage.written_data_of_ne kv _ (h e List.mem_cons_self)

/-- A collected node is written, if no other was collected under its id. -/
theorem dumped_of_mem {e : Nat × Addr} (he : e ∈ es)
    (hsame : ∀ x ∈ es, x.1 = e.1 → x = e) :
    (t.dumped env es kv).data (t.nodeKey e.1) = some (t.serialize env e.2) := by
  induction es generalizing kv with
  | nil => exact nomatch he
  | cons x es ih =>
      have hrest : ∀ y ∈ es, y.1 = e.1 → y = e :=
        fun y hy => hsame y (List.mem_cons_of_mem _ hy)
      rw [dumped, List.foldl_cons]
      by_cases hmem : e ∈ es
      · exact ih hmem hrest
      · obtain rfl := (List.mem_cons.mp he).resolve_right hmem
        refine (dumped_of_ne ?_).trans (KvStorage.written_data_self ..)
        intro y hy hkey
        exact hmem (hrest y hy ((nodeKey_inj t).mp hkey).symm ▸ hy)

/-- The order in which a save walks the collected nodes does not matter. -/
theorem dumped_perm {es' : List (Nat × Addr)} (hp : es.Perm es')
    (hsame : ∀ x ∈ es, ∀ y ∈ es, x.1 = y.1 → x = y) :
    t.dumped env es kv = t.dumped env es' kv := by
  have hdata : (t.dumped env es kv).data = (t.dumped env es' kv).data := by
    funext key
    by_cases hkey : ∃ e ∈ es, key = t.nodeKey e.1
    · obtain ⟨e, he, rfl⟩ := hkey
      rw [dumped_of_mem he (fun x hx => hsame x hx e he),
        dumped_of_mem (hp.mem_iff.mp he)
          (fun x hx => hsame x (hp.mem_iff.mpr hx) e he)]
    · have hne : ∀ e ∈ es, key ≠ t.nodeKey e.1 := fun e he h => hkey ⟨e, he, h⟩
      rw [dumped_of_ne hne,
        dumped_of_ne (fun e he => hne e (hp.mem_iff.mpr he))]
  have hfaults : ∀ (es : List (Nat × Addr)) (kv : KvStorage),
      (t.dumped env es kv).faults = kv.faults := by
    intro es
    induction es with
    | nil => intro kv; rfl
    | cons e es ih => intro kv; exact ih _
  rw [KvStorage.mk.injEq]
  exact ⟨hdata, by rw [hfaults, hfaults]⟩

end Dump

theorem Linked.saved {t : Bptree} {ls : List Addr} (h : Linked t ls) :
    Linked t.saved ls :=
  ⟨h.root_inner, h.root_root, h.root_kvs, h.children, h.root_lt, h.leaf_lt,
    h.nodup, h.leaf⟩

/-! ## Ids -/

/-- No two nodes of the tree share an id, and the collected nodes are nodes of
    the tree under their own ids. -/
structure Tracked (t : Bptree) (ls : List Addr) : Prop where
  distinct : ∀ a ∈ t.root :: ls, ∀ b ∈ t.root :: ls,
    (t.node a).id = (t.node b).id → a = b
  live     : ∀ e ∈ t.treeCtx.unsavedNodes, e.2 ∈ t.root :: ls
    ∧ e.1 = (t.node e.2).id

/-- The next id to be handed out is the id of no node. -/
def NextFree (t : Bptree) (ls : List Addr) : Prop :=
  ∀ a ∈ t.root :: ls, (t.node a).id ≠ t.treeCtx.id + 1

section Ids

variable {env : Env} {t t' : Bptree} {kv : KvStorage} {ls ls' : List Addr}
  {gone : List Nat} {collected : List (Nat × Addr)}

/-- Two collected nodes under one id are one. -/
theorem Tracked.same (h : Tracked t ls) {e x : Nat × Addr}
    (he : e ∈ t.treeCtx.unsavedNodes) (hx : x ∈ t.treeCtx.unsavedNodes)
    (hid : x.1 = e.1) : x = e := by
  obtain ⟨hel, hei⟩ := h.live e he
  obtain ⟨hxl, hxi⟩ := h.live x hx
  exact Prod.ext hid (h.distinct _ hxl _ hel (by rw [← hxi, ← hei, hid]))

/-- A save stores every collected node's own bytes. -/
theorem Tracked.dumped_live (h : Tracked t ls) {a : Addr}
    (hc : ((t.node a).id, a) ∈ t.treeCtx.unsavedNodes) :
    (t.dumped env t.treeCtx.unsavedNodes kv).data (t.nodeKey (t.node a).id)
      = some (t.serialize env a) :=
  dumped_of_mem hc (fun _ hx hid => h.same hc hx hid)

/-- A save leaves the stored bytes of every other node alone. -/
theorem Tracked.dumped_other (h : Tracked t ls) {a : Addr}
    (ha : a ∈ t.root :: ls)
    (hc : ((t.node a).id, a) ∉ t.treeCtx.unsavedNodes) :
    (t.dumped env t.treeCtx.unsavedNodes kv).data (t.nodeKey (t.node a).id)
      = kv.data (t.nodeKey (t.node a).id) := by
  refine dumped_of_ne ?_
  intro e he hkey
  obtain ⟨hel, hei⟩ := h.live e he
  have hid : (t.node a).id = e.1 := (nodeKey_inj t).mp hkey
  have hea : e.2 = a := h.distinct _ hel _ ha (by rw [← hei, hid])
  refine hc ?_
  rw [hid, ← hea]
  exact he

theorem Tracked.saved (h : Tracked t ls) : Tracked t.saved ls :=
  ⟨h.distinct, fun _ he => nomatch he⟩

/-- Reading a leaf again keeps all ids. -/
theorem Reread.id_eq {a : Addr} (hr : Reread t t' a) (x : Addr) :
    (t'.node x).id = (t.node x).id := by
  obtain ⟨m, rfl, hid, -⟩ := hr
  by_cases hx : x = a
  · rw [hx, node_setNode_self, hid]
  · rw [node_setNode_ne _ _ hx]

theorem Reread.treeCtx {a : Addr} (hr : Reread t t' a) :
    t'.treeCtx = t.treeCtx := by
  obtain ⟨m, rfl, -⟩ := hr
  rfl

theorem Reread.root {a : Addr} (hr : Reread t t' a) : t'.root = t.root := by
  obtain ⟨m, rfl, -⟩ := hr
  rfl

theorem Reread.linked {a : Addr} (hr : Reread t t' a) (h : Linked t ls)
    (ha : a ∈ ls) : Linked t' ls := by
  obtain ⟨m, rfl, -, hleaf⟩ := hr
  exact h.setNode_leaf ha hleaf

theorem Tracked.reread {a : Addr} (h : Tracked t ls) (hr : Reread t t' a) :
    Tracked t' ls := by
  refine ⟨?_, ?_⟩
  · intro x hx y hy hid
    rw [hr.root] at hx hy
    rw [hr.id_eq, hr.id_eq] at hid
    exact h.distinct x hx y hy hid
  · intro e he
    rw [hr.treeCtx] at he
    rw [hr.root, hr.id_eq]
    exact h.live e he

/-- A node after a rewrite is an old one under its old id or the new one. -/
theorem Rewritten.cases (hr : Rewritten t t' ls ls' gone collected) {a : Addr}
    (ha : a ∈ t'.root :: ls') :
    (a ∈ t.root :: ls ∧ (t'.node a).id = (t.node a).id)
      ∨ (a = t.arena.next ∧ (t'.node a).id = t.treeCtx.id + 1
        ∧ t'.treeCtx.id = t.treeCtx.id + 1) := by
  rw [hr.root] at ha
  rcases List.mem_cons.mp ha with rfl | ha
  · exact Or.inl ⟨List.mem_cons_self, hr.rootId⟩
  · exact (hr.ids a ha).imp
      (fun h => ⟨List.mem_cons_of_mem _ h.1, h.2⟩) id

/-- Where the next id is free, a rewrite keeps ids apart. -/
theorem Tracked.rewritten (h : Tracked t ls) (hl : Linked t ls)
    (hr : Rewritten t t' ls ls' gone collected)
    (hfree : t'.treeCtx.id = t.treeCtx.id ∨ NextFree t ls) :
    Tracked t' ls' := by
  -- a new node takes the next id, which is free
  have hnew : t'.treeCtx.id = t.treeCtx.id + 1 → NextFree t ls := fun hs =>
    hfree.resolve_left (by rw [hs]; exact Nat.succ_ne_self _)
  refine ⟨?_, ?_⟩
  · intro a ha b hb hid
    rcases hr.cases ha with ⟨ha, hia⟩ | ⟨rfl, hia, hs⟩ <;>
      rcases hr.cases hb with ⟨hb, hib⟩ | ⟨rfl, hib, hs'⟩
    · exact h.distinct a ha b hb (by rw [← hia, ← hib, hid])
    · exact absurd (by rw [← hia, hid, hib]) (hnew hs' a ha)
    · exact absurd (by rw [← hib, ← hid, hia]) (hnew hs b hb)
    · rfl
  · intro e he
    rw [hr.unsaved] at he
    rw [hr.root]
    rcases mem_of_mem_collected he with he | he
    · exact hr.live e he
    · obtain ⟨he, hgone⟩ := List.mem_filter.mp he
      have hgone := of_decide_eq_true hgone
      obtain ⟨hlive, hid⟩ := h.live e he
      rcases List.mem_cons.mp hlive with hroot | hls
      · rw [hroot] at hid ⊢
        exact ⟨List.mem_cons_self, by rw [hr.rootId]; exact hid⟩
      · by_cases hls' : e.2 ∈ ls'
        · refine ⟨List.mem_cons_of_mem _ hls', ?_⟩
          rcases hr.ids e.2 hls' with ⟨-, hi⟩ | ⟨hnext, -⟩
          · rw [hi]; exact hid
          · -- the new node is none of the old ones
            exact absurd hnext (Nat.ne_of_lt (hl.leaf_lt _ hls))
        · exact absurd (hid ▸ hr.dropped e.2 hls hls') hgone

end Ids

/-! ## Stored copies -/

/-- A save spares the leaves that were never read: none of them shares an id
    with a collected node, the root or another leaf. -/
def Apart (t : Bptree) (cs : Contents) : Prop :=
  ∀ p ∈ cs, (t.node p.1).kvs = p.2
    ∨ (∀ e ∈ t.treeCtx.unsavedNodes, e.1 ≠ (t.node p.1).id)
      ∧ (t.node t.root).id ≠ (t.node p.1).id
      ∧ ∀ q ∈ cs, (t.node q.1).id = (t.node p.1).id → q.1 = p.1

/-- Every leaf waits to be saved, or its stored copy is as `Q` says. -/
def Backed (Q : Option Bytes → OrderedMap Bytes Bytes → Prop) (t : Bptree)
    (kv : KvStorage) (cs : Contents) : Prop :=
  ∀ p ∈ cs, (((t.node p.1).id, p.1) ∈ t.treeCtx.unsavedNodes
      ∧ (t.node p.1).kvs = p.2) ∨ Q (t.stored kv p.1) p.2

section Copies

variable {env : Env} {t t' : Bptree} {kv : KvStorage} {cs cs' : Contents}
  {gone : List Nat} {collected : List (Nat × Addr)}
  {p : Addr × OrderedMap Bytes Bytes}
  {Q : Option Bytes → OrderedMap Bytes Bytes → Prop}

/-- One address, one leaf. -/
theorem Linked.eq_of_fst (h : Linked t (cs.map Prod.fst))
    {q : Addr × OrderedMap Bytes Bytes} (hp : p ∈ cs) (hq : q ∈ cs)
    (hpq : q.1 = p.1) : q = p := by
  have hinj := List.inj_on_of_nodup_map h.nodup_leaves
  exact hinj hq hp hpq

theorem Reading.reread (hr : Reading t t' p) : Reread t t' p.1 := by
  obtain ⟨m, rfl, -, hid, hleaf⟩ := hr
  exact ⟨m, rfl, hid, hleaf⟩

/-- The leaf that was read holds its map, the others are as they were. -/
theorem Reading.node (hr : Reading t t' p) (x : Addr) :
    (x = p.1 ∧ Loaded (t'.node x) p.2) ∨ t'.node x = t.node x := by
  obtain ⟨m, rfl, hm, -⟩ := hr
  by_cases hx : x = p.1
  · refine Or.inl ⟨hx, ?_⟩
    rw [hx, node_setNode_self]
    exact hm
  · exact Or.inr (node_setNode_ne _ _ hx)

theorem Reading.root (hr : Reading t t' p) : t'.root = t.root :=
  hr.reread.root

/-- A leaf's memory after a reading is its map, or what it was. -/
theorem Reading.kvs (hr : Reading t t' p) (hl : Linked t (cs.map Prod.fst))
    (hp : p ∈ cs) {q : Addr × OrderedMap Bytes Bytes} (hq : q ∈ cs) :
    (t'.node q.1).kvs = q.2 ∨ (t'.node q.1).kvs = (t.node q.1).kvs := by
  rcases hr.node q.1 with ⟨hqp, hm⟩ | heq
  · rw [hl.eq_of_fst hp hq hqp] at hm ⊢
    exact Or.inl hm.kvs
  · exact Or.inr (by rw [heq])

/-- The leaves stay apart when one is read. -/
theorem Apart.reading (h : Apart t cs) (hl : Linked t (cs.map Prod.fst))
    (hp : p ∈ cs) (hr : Reading t t' p) : Apart t' cs := by
  intro q hq
  rcases hr.kvs hl hp hq with hkvs | hkvs
  · exact Or.inl hkvs
  · rcases h q hq with hq' | ⟨hu, hroot, hother⟩
    · exact Or.inl (hkvs.trans hq')
    · refine Or.inr ⟨?_, ?_, ?_⟩
      · intro e he
        rw [hr.reread.treeCtx] at he
        rw [hr.reread.id_eq]
        exact hu e he
      · rw [hr.root, hr.reread.id_eq, hr.reread.id_eq]; exact hroot
      · intro x hx hid
        rw [hr.reread.id_eq, hr.reread.id_eq] at hid
        exact hother x hx hid

theorem Apart.saved (h : Apart t cs) : Apart t.saved cs := by
  intro q hq
  exact (h q hq).imp id (fun h => ⟨(fun e he => nomatch he), h.2⟩)

/-- A rewrite spares the leaves never read, if no new node takes the id of
    one. -/
theorem Apart.change (h : Apart t cs) (hc : Change t t' cs cs' gone collected)
    (hfree : t'.treeCtx.id = t.treeCtx.id ∨ ∀ p ∈ cs, (t.node p.1).kvs = p.2
      ∨ (t.node p.1).id ≠ t.treeCtx.id + 1) : Apart t' cs' := by
  intro p hp
  by_cases hkvs : (t'.node p.1).kvs = p.2
  · exact Or.inl hkvs
  rcases hc.leaves p hp with ⟨hpc, hnode⟩ | ⟨hload, -⟩
  swap
  · exact absurd hload.kvs hkvs
  rw [hnode] at hkvs ⊢
  obtain ⟨hu, hroot, hother⟩ := (h p hpc).resolve_left hkvs
  have hnew : t'.treeCtx.id = t.treeCtx.id + 1 →
      (t.node p.1).id ≠ t.treeCtx.id + 1 := fun hs =>
    ((hfree.resolve_left (by rw [hs]; exact Nat.succ_ne_self _)) p
      hpc).resolve_left hkvs
  -- no other leaf of the new tree has this id
  have honly : ∀ q ∈ cs', (t'.node q.1).id = (t.node p.1).id → q.1 = p.1 := by
    intro q hq hid
    rcases hc.ids q.1 (List.mem_map_of_mem hq) with ⟨hold, hi⟩ | ⟨-, hi, hs⟩
    · obtain ⟨x, hx, hxq⟩ := List.mem_map.mp hold
      rw [← hxq]
      exact hother x hx (by rw [hxq, ← hi, hid])
    · exact absurd (by rw [← hid, hi]) (hnew hs)
  refine Or.inr ⟨?_, ?_, honly⟩
  · intro e he
    rw [hc.unsaved] at he
    rcases mem_of_mem_collected he with he | he
    · intro hid
      have hei := (hc.live e he).2
      rcases hc.loaded e he with hr | ⟨q, hq, hqe, hload⟩
      · rw [hr, hc.rootId] at hei
        exact hroot (by rw [← hei, hid])
      · have hqp : q.1 = p.1 := honly q hq (by rw [← hqe, ← hei, hid])
        have hqp' := hc.linked.eq_of_fst hp hq hqp
        rw [hqp', hnode] at hload
        exact hkvs hload.kvs
    · exact hu e (List.mem_of_mem_filter he)
  · rw [hc.root, hc.rootId]; exact hroot

/-- A save keeps a well formed tree so. -/
theorem WellFormed.saved (hw : WellFormed env t kv cs) (ha : Apart t cs) :
    WellFormed env t.saved (t.dumped env t.treeCtx.unsavedNodes kv) cs := by
  refine ⟨hw.linked.saved, ?_, hw.ascending, hw.rootSize⟩
  intro p hp
  have hh := hw.leaves p hp
  refine ⟨?_, hh.write, hh.min, hh.max⟩
  rcases ha p hp with hkvs | ⟨hu, -⟩
  · exact Or.inl hkvs
  · refine hh.kvs.imp id ?_
    rintro ⟨hnil, bytes, hs, hes⟩
    refine ⟨hnil, bytes, ?_, hes⟩
    refine Eq.trans (dumped_of_ne ?_) hs
    intro e he hkey
    exact hu e he ((nodeKey_inj t).mp hkey).symm

/-- What is known of the stored copies stays known. -/
theorem Backed.reading (h : Backed Q t kv cs)
    (hl : Linked t (cs.map Prod.fst)) (hp : p ∈ cs) (hr : Reading t t' p) :
    Backed Q t' kv cs := by
  intro q hq
  have hs : t'.stored kv q.1 = t.stored kv q.1 :=
    stored_congr (by rw [hr.reread.treeCtx]) (hr.reread.id_eq q.1) kv
  rw [hs, hr.reread.id_eq, hr.reread.treeCtx]
  refine (h q hq).imp ?_ id
  rintro ⟨hu, hkvs⟩
  rcases hr.kvs hl hp hq with h | h
  · exact ⟨hu, h⟩
  · exact ⟨hu, h.trans hkvs⟩

/-- What is new waits to be saved, and nothing that waited is dropped but the
    leaf that became empty. -/
theorem Backed.change (h : Backed Q t kv cs) (hw : WellFormed env t kv cs)
    (hc : Change t t' cs cs' gone collected) (ht : Tracked t (cs.map Prod.fst))
    (ht' : Tracked t' (cs'.map Prod.fst)) : Backed Q t' kv cs' := by
  have hlive' : ∀ c ∈ collected, c.2 ∈ t'.root :: cs'.map Prod.fst
      ∧ c.1 = (t'.node c.2).id := by
    intro c hcm
    rw [hc.root]
    exact hc.live c hcm
  intro p hp
  have hmem : p.1 ∈ t'.root :: cs'.map Prod.fst :=
    List.mem_cons_of_mem _ (List.mem_map_of_mem hp)
  have hsame : ∀ c ∈ collected, c.1 = (t'.node p.1).id →
      c = ((t'.node p.1).id, p.1) := by
    intro c hcm hid
    obtain ⟨hcl, hci⟩ := hlive' c hcm
    exact Prod.ext hid (ht'.distinct _ hcl _ hmem (by rw [← hci, hid]))
  rcases hc.leaves p hp with ⟨hpc, hnode⟩ | ⟨hload, hcol⟩
  · have hs : t'.stored kv p.1 = t.stored kv p.1 :=
      stored_congr hc.schema (by rw [hnode]) kv
    rw [hs]
    refine (h p hpc).imp ?_ id
    rintro ⟨hu, hkvs⟩
    refine ⟨?_, by rw [hnode]; exact hkvs⟩
    rw [hc.unsaved]
    refine mem_collected_of_mem (List.mem_filter.mpr
      ⟨by rw [hnode]; exact hu, decide_eq_true ?_⟩) hsame
    -- a dropped id is that of a leaf that became empty, and this one is not
    intro hgone
    obtain ⟨a, ha, hia, hempty⟩ := hc.goneIds _ hgone
    have hap : a = p.1 := by
      refine ht.distinct _ (List.mem_cons_of_mem _ ha) _ (List.mem_cons_of_mem _
        (List.mem_map_of_mem hpc)) ?_
      have hia' : (t'.node p.1).id = (t.node a).id := hia
      rw [← hia', hnode]
    rw [hap, hnode, hkvs] at hempty
    exact (hw.leaves p hpc).nonempty hempty
  · refine Or.inl ⟨?_, hload.kvs⟩
    rw [hc.unsaved]
    exact mem_collected_self hcol hsame

/-- After a save every stored copy is good. -/
theorem Backed.saved (h : Backed Q t kv cs) (ht : Tracked t (cs.map Prod.fst))
    (ha : Apart t cs) (hl : Linked t (cs.map Prod.fst))
    (hQ : ∀ p ∈ cs, ((t.node p.1).id, p.1) ∈ t.treeCtx.unsavedNodes →
      (t.node p.1).kvs = p.2 →
        Q (some ((t.node p.1).serializeLeaf env.pb)) p.2) :
    ∀ p ∈ cs, Q (t.saved.stored (t.dumped env t.treeCtx.unsavedNodes kv) p.1)
      p.2 := by
  intro p hp
  have hmem := List.mem_map_of_mem (f := Prod.fst) hp
  have hstored : ∀ kv, t.saved.stored kv p.1 = t.stored kv p.1 := fun _ => rfl
  rw [hstored]
  by_cases hu : ((t.node p.1).id, p.1) ∈ t.treeCtx.unsavedNodes
  · have hkvs : (t.node p.1).kvs = p.2 :=
      (ha p hp).resolve_right (fun h => h.1 _ hu rfl)
    have hs : t.stored (t.dumped env t.treeCtx.unsavedNodes kv) p.1
        = some ((t.node p.1).serializeLeaf env.pb) := by
      rw [stored, ht.dumped_live hu, serialize, if_pos (hl.leaf _ hmem).isLeaf]
    rw [hs]
    exact hQ p hp hu hkvs
  · have hs : t.stored (t.dumped env t.treeCtx.unsavedNodes kv) p.1
        = t.stored kv p.1 := by
      rw [stored, ht.dumped_other (List.mem_cons_of_mem _ hmem) hu, stored]
    rw [hs]
    exact (h p hp).resolve_left (fun h => hu h.1)

end Copies

end Bptree

end AmDb.Storage
